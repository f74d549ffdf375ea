import Mathlib.Data.List.Infix

/- Properties of a run of a machine that reads a list of inputs: of each step (`Each`), and of each
   state (`Always`).

   What is proved:
     1. `each_iff`, `always_iff` (a property of the steps, or of the states, is another one of the
        steps, if it is so step by step).
     2. `each_map` (a property of the steps that looks at a part of the state).
     3. `always_iff_prefix` (each state is one after a first part of the run). -/
namespace Steps

variable {S A : Type} {step : S → A → S}

/-- Each input of the run satisfies the condition in the state that it finds. -/
def Each (step : S → A → S) (P : S → A → Prop) : S → List A → Prop
  | _, [] => True
  | s, a :: as => P s a ∧ Each step P (step s a) as

/-- Each state of the run satisfies the condition, the first one and the last one, too. -/
def Always (step : S → A → S) (P : S → Prop) : S → List A → Prop
  | s, [] => P s
  | s, a :: as => P s ∧ Always step P (step s a) as

section Each
variable {P Q : S → A → Prop} {I : S → Prop} {s : S}

/-- A condition that depends on a part of the state only, which is a machine of its own. -/
theorem each_map {T : Type} {step' : T → A → T} (P : T → A → Prop) (f : S → T)
    (hf : ∀ s a, f (step s a) = step' (f s) a) (s : S) (as : List A) :
    Each step (fun s a => P (f s) a) s as ↔ Each step' P (f s) as := by
  induction as generalizing s with
  | nil => exact Iff.rfl
  | cons a as ih =>
    simp only [Each, ih, hf]

/-- Two conditions on the steps that agree wherever an invariant holds. -/
theorem each_iff (h : ∀ s a, I s → (P s a ↔ Q s a)) (hkeeps : ∀ s a, I s → P s a → I (step s a))
    (hs : I s) (as : List A) : Each step P s as ↔ Each step Q s as := by
  induction as generalizing s with
  | nil => exact Iff.rfl
  | cons a as ih =>
    constructor
    · rintro ⟨hfirst, hrest⟩
      exact ⟨(h s a hs).mp hfirst, (ih (hkeeps s a hs hfirst)).mp hrest⟩
    · rintro ⟨hfirst, hrest⟩
      have hthis := (h s a hs).mpr hfirst
      exact ⟨hthis, (ih (hkeeps s a hs hthis)).mpr hrest⟩

end Each

section Always
variable {P : S → Prop} {Q : S → A → Prop} {J : S → Prop} {s : S}

theorem Always.head {as : List A} (hall : Always step P s as) : P s := by
  cases as with
  | nil => exact hall
  | cons a as => exact hall.1

theorem always_iff_prefix {as : List A} :
    Always step P s as ↔ ∀ reached, reached <+: as → P (reached.foldl step s) := by
  induction as generalizing s with
  | nil =>
    constructor
    · intro h reached hreached
      obtain rfl := List.prefix_nil.mp hreached
      exact h
    · intro h
      exact h [] (List.prefix_refl _)
  | cons a as ih =>
    constructor
    · rintro ⟨hfirst, hrest⟩ reached hreached
      cases reached with
      | nil => exact hfirst
      | cons b reached =>
        obtain ⟨rfl, hpart⟩ := List.cons_prefix_cons.mp hreached
        exact ih.mp hrest reached hpart
    · intro h
      refine ⟨h [] (List.nil_prefix ..), ih.mpr fun reached hreached => ?_⟩
      exact h (a :: reached) (List.cons_prefix_cons.mpr ⟨rfl, hreached⟩)

/-- A condition on the states is one on the steps, if it is so from each state that satisfies it.
The invariant `J` holds in any case. -/
theorem always_iff (hJ : ∀ s a, J s → J (step s a))
    (h : ∀ s a, J s → P s → (P (step s a) ↔ Q s a)) (hj : J s) (hs : P s) (as : List A) :
    Always step P s as ↔ Each step Q s as := by
  induction as generalizing s with
  | nil => exact iff_of_true hs trivial
  | cons a as ih =>
    constructor
    · rintro ⟨-, hrest⟩
      have hnext := hrest.head
      exact ⟨(h s a hj hs).mp hnext, (ih (hJ s a hj) hnext).mp hrest⟩
    · rintro ⟨hfirst, hrest⟩
      have hnext := (h s a hj hs).mpr hfirst
      exact ⟨hs, (ih (hJ s a hj) hnext).mpr hrest⟩

end Always

end Steps
