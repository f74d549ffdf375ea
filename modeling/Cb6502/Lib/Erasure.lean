/- Erasing silent actions from a run. `runActs` runs a list of actions of a partial
   transition function; `erase` drops the actions that were silent in the state they ran
   in. If silent actions keep a relation to a second system and the others are matched
   there, the erased run of the second system ends related to the full run of the first. -/
namespace Erasure

variable {A S T : Type}

/-- The actions run in order; `none` when one of them fails. -/
def runActs (step : A → S → Option S) : List A → S → Option S
  | [], s => some s
  | a :: as, s => (step a s).bind (runActs step as)

/-- The actions that were not silent in the state they ran in. -/
def erase (step : A → S → Option S) (silent : A → S → Bool) : List A → S → List A
  | [], _ => []
  | a :: as, s =>
    let rest := ((step a s).map (erase step silent as)).getD []
    if silent a s then rest else a :: rest

theorem runActs_cons (step : A → S → Option S) (a : A) (as : List A) (s s' : S)
    (h : step a s = some s') : runActs step (a :: as) s = runActs step as s' := by
  rw [runActs, h, Option.bind_some]

/-- A run whose actions succeed, keeping `I`, succeeds. -/
theorem runActs_total {step : A → S → Option S} {I : S → Prop}
    (hstep : ∀ a s, I s → ∃ s', step a s = some s' ∧ I s') (as : List A) (s : S) (hs : I s) :
    ∃ s', runActs step as s = some s' := by
  induction as generalizing s with
  | nil => exact ⟨s, rfl⟩
  | cons a as ih =>
    obtain ⟨s₁, ha, hs₁⟩ := hstep a s hs
    rw [runActs_cons step a as s s₁ ha]
    exact ih s₁ hs₁

theorem erase_silent {step : A → S → Option S} {silent : A → S → Bool} {a : A} {as : List A}
    {s s' : S} (h : step a s = some s') (hs : silent a s = true) :
    erase step silent (a :: as) s = erase step silent as s' := by
  simp only [erase, h, Option.map_some, Option.getD_some, hs, if_true]

theorem erase_visible {step : A → S → Option S} {silent : A → S → Bool} {a : A} {as : List A}
    {s s' : S} (h : step a s = some s') (hs : silent a s = false) :
    erase step silent (a :: as) s = a :: erase step silent as s' := by
  simp only [erase, h, Option.map_some, Option.getD_some, hs, Bool.false_eq_true, if_false]

/-- The erased run of the second system ends related to the full run of the first. -/
theorem runActs_erase {step : A → S → Option S} (stepT : A → T → Option T)
    (silent : A → S → Bool) {R : S → T → Prop}
    (hsilent : ∀ a s s' t, R s t → step a s = some s' → silent a s = true → R s' t)
    (hvisible : ∀ a s s' t, R s t → step a s = some s' → silent a s = false →
      ∃ t', stepT a t = some t' ∧ R s' t')
    (as : List A) (s s' : S) (t : T) (hR : R s t) (h : runActs step as s = some s') :
    ∃ t', runActs stepT (erase step silent as s) t = some t' ∧ R s' t' := by
  induction as generalizing s t with
  | nil =>
    obtain rfl : s = s' := Option.some.inj h
    exact ⟨t, rfl, hR⟩
  | cons a as ih =>
    cases ha : step a s with
    | none => rw [runActs, ha] at h; cases h
    | some s₁ =>
      rw [runActs_cons step a as s s₁ ha] at h
      cases hsil : silent a s with
      | true =>
        rw [erase_silent ha hsil]
        exact ih s₁ t (hsilent a s s₁ t hR ha hsil) h
      | false =>
        obtain ⟨t₁, ht, hR₁⟩ := hvisible a s s₁ t hR ha hsil
        rw [erase_visible ha hsil, runActs_cons stepT a _ t t₁ ht]
        exact ih s₁ t₁ hR₁ h

end Erasure
