import Mathlib.Data.List.Basic

/- Machines some of whose steps put out a value. A run follows a stream of values, with states that
   know how many have been put out, if every step does: then its outputs are the values of the
   stream, one after the other. -/
namespace Emission

variable {S A B : Type} {step : S → A → Option B × S}

/-- The state after a run. -/
def final (step : S → A → Option B × S) : S → List A → S
  | s, [] => s
  | s, a :: as => final step (step s a).2 as

/-- The values that a run puts out. -/
def outputs (step : S → A → Option B × S) : S → List A → List B
  | _, [] => []
  | s, a :: as => (step s a).1.toList ++ outputs step (step s a).2 as

/-- In a state of `P` with `k` values out, an allowed input puts out number `k` of the stream, or
nothing. -/
structure Follows (step : S → A → Option B × S) (allowed : A → Prop) (stream : Nat → B)
    (P : S → Nat → Prop) : Prop where
  quiet : ∀ {s k a}, P s k → allowed a → (step s a).1 = none → P (step s a).2 k
  emits : ∀ {s k a b}, P s k → allowed a → (step s a).1 = some b →
    b = stream k ∧ P (step s a).2 (k + 1)

/-- The outputs of a run are the next ones of the stream. -/
theorem Follows.run {allowed : A → Prop} {stream : Nat → B} {P : S → Nat → Prop}
    (h : Follows step allowed stream P) {as : List A} (hall : ∀ a ∈ as, allowed a) {s : S} {k : Nat}
    (hs : P s k) :
    outputs step s as = (List.range' k (outputs step s as).length).map stream ∧
      P (final step s as) (k + (outputs step s as).length) := by
  induction as generalizing s k with
  | nil => exact ⟨rfl, hs⟩
  | cons a as ih =>
    obtain ⟨ha, hall⟩ := List.forall_mem_cons.mp hall
    cases hout : (step s a).1 with
    | none =>
      have hnone : outputs step s (a :: as) = outputs step (step s a).2 as := by
        rw [outputs, hout]
        rfl
      rw [hnone]
      exact ih hall (h.quiet hs ha hout)
    | some b =>
      obtain ⟨rfl, hnext⟩ := h.emits hs ha hout
      obtain ⟨hrest, hfinal⟩ := ih hall hnext
      have hsome : outputs step s (a :: as) = stream k :: outputs step (step s a).2 as := by
        rw [outputs, hout]
        rfl
      rw [hsome, List.length_cons, List.range'_succ, List.map_cons, ← hrest]
      refine ⟨rfl, ?_⟩
      rw [Nat.add_comm _ 1, ← Nat.add_assoc]
      exact hfinal

end Emission
