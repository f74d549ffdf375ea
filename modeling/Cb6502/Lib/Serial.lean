import Mathlib.Data.List.Basic

/- Words sent bit by bit, the most significant first, and the levels of a line cut into words of `w`
   bits. A shift register fed with the levels holds the word they spell; one that is emptied shows
   the bits of its word at its top. -/
namespace Serial

variable {w : Nat} {levels : List Bool}

/-- The word whose bits are the last `w` levels, the first of them the most significant. -/
def word (w : Nat) (levels : List Bool) : BitVec w := (BitVec.ofBoolListBE levels).setWidth w

@[simp] theorem word_nil : word w [] = 0 := by
  apply BitVec.eq_of_getLsbD_eq
  intro i _
  simp [word]

theorem getLsbD_word (i : Nat) : (word w levels).getLsbD i =
    (decide (i < w) && (decide (i < levels.length) && levels.getD (levels.length - 1 - i) false)) := by
  rw [word, BitVec.getLsbD_setWidth, BitVec.getLsbD_ofBoolListBE]

/-- One more level is shifted in at the bottom. -/
theorem word_concat (levels : List Bool) (level : Bool) :
    word w (levels ++ [level]) = word w levels <<< 1 ||| if level then 1 else 0 := by
  apply BitVec.eq_of_getLsbD_eq
  intro i hi
  rw [BitVec.getLsbD_or, BitVec.getLsbD_shiftLeft, getLsbD_word, getLsbD_word, List.length_append,
    List.length_singleton]
  rcases Nat.eq_zero_or_pos i with rfl | hpos
  · cases level <;> simp [hi]
  · have hne : i ≠ 0 := Nat.ne_of_gt hpos
    have hbelow : (if level then 1 else 0 : BitVec w).getLsbD i = false := by
      cases level <;> simp [BitVec.getLsbD_one]
      omega
    have hindex : levels.length + 1 - 1 - i = levels.length - 1 - (i - 1) := by omega
    rw [hbelow, Bool.or_false, hindex]
    by_cases hlen : i < levels.length + 1
    · have hin : levels.length - 1 - (i - 1) < levels.length := by omega
      have hbound : i - 1 < levels.length := by omega
      have hwidth : i - 1 < w := by omega
      simp [hi, hlen, hbound, hwidth, hne, List.getElem?_append_left hin]
    · have hbound : ¬ i - 1 < levels.length := by omega
      simp [hlen, hbound]

/-- The bit at the top of a register that has been shifted `n` times. -/
theorem msb_shiftLeft (r : BitVec (w + 1)) {n : Nat} (hn : n ≤ w) :
    (r <<< n).getLsbD w = r.getLsbD (w - n) := by
  rw [BitVec.getLsbD_shiftLeft]
  simp [Nat.not_lt.mpr hn]

/-! ## Cutting the levels into words -/

section Rest
variable {α : Type} (xs : List α) (x : α)

/-- The levels of the word that is not complete. -/
def rest (w : Nat) (xs : List α) : List α := xs.drop (w * (xs.length / w))

@[simp] theorem rest_nil : rest w ([] : List α) = [] := List.drop_nil

variable {xs}

theorem rest_concat (h : (xs.length + 1) % w ≠ 0) : rest w (xs ++ [x]) = rest w xs ++ [x] := by
  have hdiv : (xs.length + 1) / w = xs.length / w := by
    apply Nat.succ_div_of_not_dvd
    exact fun hdvd => h (Nat.mod_eq_zero_of_dvd hdvd)
  rw [rest, rest, List.length_append, List.length_singleton, hdiv]
  exact List.drop_append_of_le_length (Nat.mul_div_le _ _)

/-- The level that completes a word. -/
theorem rest_concat_last (h : (xs.length + 1) % w = 0) : rest w (xs ++ [x]) = [] := by
  rw [rest, List.length_append, List.length_singleton, Nat.mul_div_cancel' (Nat.dvd_of_mod_eq_zero h)]
  exact List.drop_of_length_le (by simp)

/-- The last `w` levels are then the word. -/
theorem drop_concat_last (hw : 0 < w) (h : (xs.length + 1) % w = 0) :
    (xs ++ [x]).drop (xs.length + 1 - w) = rest w xs ++ [x] := by
  obtain ⟨k, hk⟩ := Nat.dvd_of_mod_eq_zero h
  obtain ⟨k, rfl⟩ : ∃ j, k = j + 1 := Nat.exists_eq_succ_of_ne_zero fun h0 => by simp [h0] at hk
  have hmul : w * (k + 1) = w * k + w := Nat.mul_succ w k
  have hdiv : xs.length / w = k := by
    apply Nat.div_eq_of_lt_le
    · rw [Nat.mul_comm]
      omega
    · rw [Nat.succ_mul, Nat.mul_comm]
      omega
  have hstart : xs.length + 1 - w = w * k := by omega
  rw [rest, hstart, hdiv]
  exact List.drop_append_of_le_length (by omega)

end Rest

end Serial
