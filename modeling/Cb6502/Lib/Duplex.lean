import Cb6502.Lib.Serial
import Mathlib.Data.List.Induction

/- A full-duplex link, clocked bit by bit. At the first clock of a word the device gives the word that
   it sends; at each clock one level goes either way, the most significant first; at the last clock
   the device takes the word that the levels spell. To the two ends words are exchanged one for one
   (`run_words`). -/
namespace Duplex

open Serial

variable {σ : Type} {w : Nat}

/-- The levels of a word, in the order in which they are sent. -/
def bits (word : BitVec w) : List Bool := (List.range w).map fun i => word.getLsbD (w - 1 - i)

@[simp] theorem length_bits (word : BitVec w) : (bits word).length = w := by simp [bits]

theorem getD_bits (word : BitVec w) {i : Nat} (hi : i < w) :
    (bits word).getD i false = word.getLsbD (w - 1 - i) := by
  simp [bits, hi]

/-- A shift register takes a word back from its levels. -/
theorem word_bits (x : BitVec w) : word w (bits x) = x := by
  apply BitVec.eq_of_getLsbD_eq
  intro i hi
  have hback : w - 1 - (w - 1 - i) = i := by omega
  rw [getLsbD_word, length_bits, getD_bits x (by omega), hback]
  simp [hi]

/-- The word to send, and what becomes of the word received. -/
structure Device (σ : Type) (w : Nat) where
  give : σ → BitVec w × σ
  take : BitVec w → σ → σ

/-- Words exchanged one for one. -/
def Device.exchange (dev : Device σ w) (s : σ) : List (BitVec w) → List (BitVec w) × σ
  | [] => ([], s)
  | sent :: rest =>
    let later := dev.exchange (dev.take sent (dev.give s).2) rest
    ((dev.give s).1 :: later.1, later.2)

/-- The levels received of the word that is not complete, and the word that is being sent. -/
structure Link (σ : Type) (w : Nat) where
  state : σ
  levels : List Bool
  reply : BitVec w

/-- The link once the word to send is there. -/
def Device.latch (dev : Device σ w) (l : Link σ w) : Link σ w :=
  if l.levels = [] then { l with state := (dev.give l.state).2, reply := (dev.give l.state).1 } else l

/-- One clock. -/
def Device.clock (dev : Device σ w) (l : Link σ w) (level : Bool) : Bool × Link σ w :=
  let l := dev.latch l
  let levels := l.levels ++ [level]
  (l.reply.getLsbD (w - levels.length),
    if levels.length = w then { l with state := dev.take (word w levels) l.state, levels := [] }
    else { l with levels })

/-- The clocks of a list of levels, and the levels that come back. -/
def Device.run (dev : Device σ w) (l : Link σ w) : List Bool → List Bool × Link σ w
  | [] => ([], l)
  | level :: levels =>
    let later := dev.run (dev.clock l level).2 levels
    ((dev.clock l level).1 :: later.1, later.2)

section
variable (dev : Device σ w) (l : Link σ w)

theorem run_append (xs ys : List Bool) : dev.run l (xs ++ ys) =
    ((dev.run l xs).1 ++ (dev.run (dev.run l xs).2 ys).1, (dev.run (dev.run l xs).2 ys).2) := by
  induction xs generalizing l with
  | nil => rfl
  | cons x xs ih =>
    rw [List.cons_append, Device.run, Device.run, ih]
    rfl

theorem run_concat (xs : List Bool) (x : Bool) : dev.run l (xs ++ [x]) =
    ((dev.run l xs).1 ++ [(dev.clock (dev.run l xs).2 x).1], (dev.clock (dev.run l xs).2 x).2) := by
  rw [run_append]
  rfl

end

section Word
variable {dev : Device σ w} {l : Link σ w}

/-- A clock that does not complete the word. -/
theorem clock_inside {level : Bool} (h : (dev.latch l).levels.length + 1 ≠ w) : dev.clock l level =
    ((dev.latch l).reply.getLsbD (w - ((dev.latch l).levels.length + 1)),
      { dev.latch l with levels := (dev.latch l).levels ++ [level] }) := by
  simp only [Device.clock, List.length_append, List.length_singleton, if_neg h]

/-- The clock that completes the word. -/
theorem clock_last {level : Bool} (h : (dev.latch l).levels.length + 1 = w) : dev.clock l level =
    ((dev.latch l).reply.getLsbD 0,
      { dev.latch l with
        state := dev.take (word w ((dev.latch l).levels ++ [level])) (dev.latch l).state
        levels := [] }) := by
  simp only [Device.clock, List.length_append, List.length_singleton, if_pos h]
  rw [h, Nat.sub_self]

/-- The first clocks of a word: the levels of the word given come back, and nothing is taken yet. -/
theorem run_inside (hl : l.levels = []) (levels : List Bool) (hne : levels ≠ []) (hlen : levels.length < w) :
    dev.run l levels = ((bits (dev.give l.state).1).take levels.length,
      ⟨(dev.give l.state).2, levels, (dev.give l.state).1⟩) := by
  have hbit : ∀ n, n < w → (bits (dev.give l.state).1).take (n + 1) =
      (bits (dev.give l.state).1).take n ++ [(dev.give l.state).1.getLsbD (w - (n + 1))] := by
    intro n hn
    rw [List.take_add_one, List.getElem?_eq_getElem (by simpa using hn)]
    have hindex : w - (n + 1) = w - 1 - n := by omega
    simp [bits, hindex]
  induction levels using List.reverseRecOn with
  | nil => exact absurd rfl hne
  | append_singleton levels level ih =>
    rw [List.length_append, List.length_singleton] at hlen ⊢
    rw [run_concat, hbit _ (by omega)]
    by_cases hfirst : levels = []
    · subst hfirst
      have hlatch : dev.latch l = ⟨(dev.give l.state).2, [], (dev.give l.state).1⟩ := by
        rw [Device.latch, if_pos hl, hl]
      have hmore : (dev.latch (dev.run l []).2).levels.length + 1 ≠ w := by
        show (dev.latch l).levels.length + 1 ≠ w
        rw [hlatch]
        exact Nat.ne_of_lt hlen
      rw [clock_inside hmore]
      simp only [Device.run, hlatch]
      rfl
    · have hrun := ih hfirst (by omega)
      have hlatch : dev.latch (dev.run l levels).2 = (dev.run l levels).2 := by
        rw [hrun, Device.latch, if_neg hfirst]
      have hmore : (dev.latch (dev.run l levels).2).levels.length + 1 ≠ w := by
        rw [hlatch, hrun]
        exact Nat.ne_of_lt hlen
      rw [clock_inside hmore, hlatch, hrun]

/-- A word against a word. -/
theorem run_word (hw : 0 < w) (hl : l.levels = []) (sent : BitVec w) :
    dev.run l (bits sent) = (bits (dev.give l.state).1,
      ⟨dev.take sent (dev.give l.state).2, [], (dev.give l.state).1⟩) := by
  obtain ⟨n, rfl⟩ : ∃ n, w = n + 1 := ⟨w - 1, by omega⟩
  have hsplit : ∀ x : BitVec (n + 1), bits x = (bits x).take n ++ [x.getLsbD 0] := by
    intro x
    have hlast := List.take_append_drop n (bits x)
    rw [List.drop_eq_getElem_cons (by simp)] at hlast
    simpa [bits, List.drop_of_length_le] using hlast.symm
  -- the link before the last clock of the word
  have hbefore : dev.latch (dev.run l ((bits sent).take n)).2 =
        ⟨(dev.give l.state).2, (bits sent).take n, (dev.give l.state).1⟩ ∧
      (dev.run l ((bits sent).take n)).1 = (bits (dev.give l.state).1).take n := by
    rcases Nat.eq_zero_or_pos n with rfl | hpos
    · refine ⟨?_, rfl⟩
      rw [List.take_zero]
      show dev.latch l = _
      rw [Device.latch, if_pos hl, hl]
    · have hlen : ((bits sent).take n).length = n := by simp
      have hne : (bits sent).take n ≠ [] := List.ne_nil_of_length_pos (by omega)
      rw [run_inside hl _ hne (by omega), hlen, Device.latch, if_neg hne]
      exact ⟨rfl, rfl⟩
  have hcount : (dev.latch (dev.run l ((bits sent).take n)).2).levels.length + 1 = n + 1 := by
    rw [hbefore.1]
    simp
  rw [hsplit sent, run_concat, clock_last hcount, hbefore.1, hbefore.2, ← hsplit sent, word_bits,
    ← hsplit]

/-- To the two ends whole words are exchanged, one for one. -/
theorem run_words (hw : 0 < w) (hl : l.levels = []) (sent : List (BitVec w)) :
    (dev.run l (sent.flatMap bits)).1 = (dev.exchange l.state sent).1.flatMap bits ∧
      (dev.run l (sent.flatMap bits)).2.state = (dev.exchange l.state sent).2 ∧
      (dev.run l (sent.flatMap bits)).2.levels = [] := by
  induction sent generalizing l with
  | nil => exact ⟨rfl, rfl, hl⟩
  | cons word rest ih =>
    rw [List.flatMap_cons, run_append, run_word hw hl]
    obtain ⟨houts, hstate, hlevels⟩ :=
      ih (l := ⟨dev.take word (dev.give l.state).2, [], (dev.give l.state).1⟩) rfl
    exact ⟨congrArg (bits (dev.give l.state).1 ++ ·) houts, hstate, hlevels⟩

end Word

end Duplex
