/- Circular buffers. A buffer of `n` slots is a function on indices; `segment` is its contents
   from a start on, around the end, and `put` writes a block of elements that does not cross
   the end. A block put right behind a segment, with room for it, is appended to the segment
   (`segment_put`); the head of a segment is its first slot (`segment_succ`). -/
namespace Ring

variable {α : Type} {n : Nat}

/-- The `len` elements from the index `start` on, around the end of a buffer of `n` slots. -/
def segment (n : Nat) (buf : Nat → α) (start len : Nat) : List α :=
  (List.range len).map fun i => buf ((start + i) % n)

/-- The buffer with the elements `xs` written from the index `p` on. -/
def put (buf : Nat → α) (p : Nat) (xs : List α) : Nat → α := fun i =>
  if h : p ≤ i ∧ i - p < xs.length then xs[i - p] else buf i

@[simp] theorem length_segment (buf : Nat → α) (start len : Nat) :
    (segment n buf start len).length = len := by
  rw [segment, List.length_map, List.length_range]

/-- Two buffers that agree on the slots of the segment. -/
theorem segment_congr {buf buf' : Nat → α} {start len : Nat}
    (h : ∀ i < len, buf ((start + i) % n) = buf' ((start + i) % n)) :
    segment n buf start len = segment n buf' start len := by
  refine List.map_congr_left ?_
  intro i hi
  exact h i (List.mem_range.mp hi)

theorem segment_append (buf : Nat → α) (start a b : Nat) :
    segment n buf start (a + b) = segment n buf start a ++ segment n buf ((start + a) % n) b := by
  have hshift : ∀ i, ((start + a) % n + i) % n = (start + (a + i)) % n := by
    intro i
    rw [Nat.mod_add_mod, Nat.add_assoc]
  simp only [segment, List.range_add, List.map_append, List.map_map, Function.comp_def, hshift]

/-- The head of a segment is its first slot. -/
theorem segment_succ (buf : Nat → α) (start len : Nat) :
    segment n buf start (len + 1) = buf (start % n) :: segment n buf ((start + 1) % n) len := by
  rw [Nat.add_comm, segment_append]
  rfl

theorem put_of_outside {buf : Nat → α} {p i : Nat} {xs : List α} (h : i < p ∨ p + xs.length ≤ i) :
    put buf p xs i = buf i := by
  rw [put, dif_neg]
  omega

/-- A block reads back as what was written. -/
theorem segment_put_self (buf : Nat → α) {p : Nat} {xs : List α} (hfit : p + xs.length ≤ n) :
    segment n (put buf p xs) p xs.length = xs := by
  refine List.ext_getElem (length_segment _ _ _) ?_
  intro i hi hxs
  have hslot : (p + i) % n = p + i := Nat.mod_eq_of_lt (by omega)
  have hin : p ≤ p + i ∧ p + i - p < xs.length := by omega
  simp only [segment, List.getElem_map, List.getElem_range, hslot]
  rw [put, dif_pos hin]
  simp only [Nat.add_sub_cancel_left]

/-- Slots at different distances from the start are different, within one turn. -/
theorem slot_ne {start i j : Nat} (hij : i < j) (hj : j < n) : (start + i) % n ≠ (start + j) % n := by
  intro h
  have hi := Nat.div_add_mod (start + i) n
  have hj' := Nat.div_add_mod (start + j) n
  have hlt := Nat.mod_lt (start + i) (by omega : 0 < n)
  rw [h] at hi hlt
  have hdiv : (start + i) / n ≤ (start + j) / n := Nat.div_le_div_right (by omega)
  obtain ⟨q, hq⟩ := Nat.le.dest hdiv
  rw [← hq, Nat.mul_add] at hj'
  rcases Nat.eq_zero_or_pos q with rfl | hpos
  · omega
  · have := Nat.mul_le_mul_left n hpos
    omega

/-- A block put behind a segment leaves it as it is, if there is room. -/
theorem segment_put_behind (buf : Nat → α) {start len p : Nat} {xs : List α}
    (hp : p = (start + len) % n) (hfit : p + xs.length ≤ n) (hroom : len + xs.length ≤ n) :
    segment n (put buf p xs) start len = segment n buf start len := by
  apply segment_congr
  intro i hi
  apply put_of_outside
  -- a slot of the block is at the distance `len + k` from the start, `i` is below that
  rcases Nat.lt_or_ge ((start + i) % n) p with hlt | hge
  · exact .inl hlt
  · refine .inr (Nat.le_of_not_lt fun hlt => ?_)
    obtain ⟨k, hk⟩ := Nat.le.dest hge
    have hslot : (start + i) % n = (start + (len + k)) % n :=
      calc (start + i) % n = p + k := hk.symm
        _ = (p + k) % n := (Nat.mod_eq_of_lt (by omega)).symm
        _ = (start + (len + k)) % n := by rw [hp, Nat.mod_add_mod, Nat.add_assoc]
    exact slot_ne (by omega) (by omega) hslot

/-- A block put behind a segment is appended to it. -/
theorem segment_put (buf : Nat → α) {start len p : Nat} {xs : List α}
    (hp : p = (start + len) % n) (hfit : p + xs.length ≤ n) (hroom : len + xs.length ≤ n) :
    segment n (put buf p xs) start (len + xs.length) = segment n buf start len ++ xs := by
  rw [segment_append, segment_put_behind buf hp hfit hroom, ← hp, segment_put_self buf hfit]

end Ring
