import Mathlib.Logic.Relation

/- Phases of a run whose steps are determined and take time. A phase begins at a state and ends
   with the first step from a state that satisfies `exit`; `Inside` are its states, `EndsAt` the
   state that step leads to.

   What is proved:
     1. `endsAt_step`, `forall_inside_step` — how both are read off the first step.
     2. `Until.before`, `Until.unique` — a search finds one state, and passes no target before it.
     3. `Until.endsAt_iff` — a search for the first state that satisfies `target` ends where the
        phase does exactly if no state inside satisfies `target`, for a target that the exit
        leads to. -/
namespace Phase

variable {σ : Type} {next : σ → σ → Prop} {exit target : σ → Prop} {clock : σ → Nat} {s s' t : σ}

/-- Steps are determined, and the clock goes on in each. -/
structure Clocked (next : σ → σ → Prop) (clock : σ → Nat) : Prop where
  functional : ∀ {s t t'}, next s t → next s t' → t = t'
  advances : ∀ {s t}, next s t → clock s < clock t

/-- The run from `s` gets to `v`. -/
def Later (next : σ → σ → Prop) (s v : σ) : Prop := Relation.ReflTransGen next s v

/-- `v` is in the phase that begins at `s`. -/
def Inside (next : σ → σ → Prop) (exit : σ → Prop) (s v : σ) : Prop :=
  Relation.ReflTransGen (fun a b => ¬exit a ∧ next a b) s v

/-- The phase that begins at `s` ends with the step to `t`. -/
def EndsAt (next : σ → σ → Prop) (exit : σ → Prop) (s t : σ) : Prop :=
  ∃ v, Inside next exit s v ∧ exit v ∧ next v t

/-- `t` is the first state from `s` on that satisfies `target`. -/
inductive Until (next : σ → σ → Prop) (target : σ → Prop) : σ → σ → Prop where
  | here {s : σ} (h : target s) : Until next target s s
  | step {s s' t : σ} (h : ¬target s) (hs : next s s') (ht : Until next target s' t) :
      Until next target s t

/-! ## Runs -/

theorem Later.clock_le (hc : Clocked next clock) {v : σ} (h : Later next s v) : clock s ≤ clock v := by
  induction h with
  | refl => exact Nat.le_refl _
  | tail _ hstep ih => exact Nat.le_trans ih (Nat.le_of_lt (hc.advances hstep))

theorem Later.cases (hc : Clocked next clock) {v : σ} (hs : next s s') (h : Later next s v) :
    v = s ∨ Later next s' v := by
  rcases Relation.ReflTransGen.cases_head h with rfl | ⟨b, hb, hrest⟩
  · exact .inl rfl
  · obtain rfl := hc.functional hb hs
    exact .inr hrest

/-- A state of the run that the clock has between the ends of a step is its first one. -/
theorem Later.eq_of_between (hc : Clocked next clock) {u v : σ} (hu : Later next s u)
    (hv : Later next s v) (hstep : next v t) (hle : clock v ≤ clock u) (hlt : clock u < clock t) :
    u = v := by
  have hunique : Relator.RightUnique next := fun a b c hb hc' => hc.functional hb hc'
  rcases Relation.ReflTransGen.total_of_right_unique hunique hu hv with huv | hvu
  · rcases Relation.ReflTransGen.cases_head huv with rfl | ⟨b, hb, hrest⟩
    · rfl
    · have hlate : clock b ≤ clock v := Later.clock_le hc hrest
      have hearly := hc.advances hb
      omega
  · rcases Later.cases hc hstep hvu with rfl | hlate
    · rfl
    · have hpast := Later.clock_le hc hlate
      omega

/-! ## The first step of a phase -/

theorem Inside.refl (s : σ) : Inside next exit s s := Relation.ReflTransGen.refl

theorem Inside.head {v : σ} (hexit : ¬exit s) (hs : next s s') (h : Inside next exit s' v) :
    Inside next exit s v := Relation.ReflTransGen.head ⟨hexit, hs⟩ h

theorem inside_exit {v : σ} (hexit : exit s) (h : Inside next exit s v) : v = s := by
  rcases Relation.ReflTransGen.cases_head h with rfl | ⟨b, ⟨hno, -⟩, -⟩
  · rfl
  · exact absurd hexit hno

theorem forall_inside_exit {P : σ → Prop} (hexit : exit s) :
    (∀ v, Inside next exit s v → P v) ↔ P s := by
  constructor
  · intro h
    exact h s (.refl s)
  · intro h v hin
    rw [inside_exit hexit hin]
    exact h

theorem Until.later (h : Until next target s t) : Later next s t := by
  induction h with
  | here => exact .refl
  | step _ hs _ ih => exact .head hs ih

section
variable (hc : Clocked next clock)
include hc

theorem Inside.clock_le {v : σ} (h : Inside next exit s v) : clock s ≤ clock v := by
  have hlater : Later next s v := Relation.ReflTransGen.mono (fun _ _ hstep => hstep.2) _ _ h
  exact hlater.clock_le hc

/-- The first step of a phase, or the state it begins with. -/
theorem Inside.cases {v : σ} (hs : next s s') (h : Inside next exit s v) :
    v = s ∨ (¬exit s ∧ Inside next exit s' v) := by
  rcases Relation.ReflTransGen.cases_head h with rfl | ⟨b, ⟨hexit, hb⟩, hrest⟩
  · exact .inl rfl
  · obtain rfl := hc.functional hb hs
    exact .inr ⟨hexit, hrest⟩

theorem EndsAt.clock_lt (h : EndsAt next exit s t) : clock s < clock t := by
  obtain ⟨v, hin, -, hstep⟩ := h
  exact Nat.lt_of_le_of_lt (hin.clock_le hc) (hc.advances hstep)

theorem not_endsAt_self (s : σ) : ¬EndsAt next exit s s :=
  fun h => Nat.lt_irrefl _ (h.clock_lt hc)

theorem endsAt_exit (hexit : exit s) (hs : next s s') : EndsAt next exit s t ↔ t = s' := by
  constructor
  · rintro ⟨v, hin, -, hstep⟩
    obtain rfl := inside_exit hexit hin
    exact hc.functional hstep hs
  · rintro rfl
    exact ⟨s, .refl s, hexit, hs⟩

theorem endsAt_step (hexit : ¬exit s) (hs : next s s') :
    EndsAt next exit s t ↔ EndsAt next exit s' t := by
  constructor
  · rintro ⟨v, hin, hv, hstep⟩
    rcases hin.cases hc hs with rfl | ⟨-, hin⟩
    · exact absurd hv hexit
    · exact ⟨v, hin, hv, hstep⟩
  · rintro ⟨v, hin, hv, hstep⟩
    exact ⟨v, hin.head hexit hs, hv, hstep⟩

theorem forall_inside_step {P : σ → Prop} (hexit : ¬exit s) (hs : next s s') :
    (∀ v, Inside next exit s v → P v) ↔ P s ∧ ∀ v, Inside next exit s' v → P v := by
  constructor
  · intro h
    exact ⟨h s (.refl s), fun v hin => h v (hin.head hexit hs)⟩
  · rintro ⟨hself, hrest⟩ v hin
    rcases hin.cases hc hs with rfl | ⟨-, hin⟩
    · exact hself
    · exact hrest v hin

/-! ## Searches -/

/-- No state before the one that is found satisfies the target. -/
theorem Until.before {v : σ} (h : Until next target s t) (hv : Later next s v) (hlt : clock v < clock t) :
    ¬target v := by
  induction h with
  | here => exact absurd hlt (Nat.not_lt.mpr (hv.clock_le hc))
  | @step s s' t hno hs hrest ih =>
    rcases hv.cases hc hs with rfl | hlater
    · exact hno
    · exact ih hlater hlt

theorem Until.unique {t' : σ} (h : Until next target s t) (h' : Until next target s t') : t = t' := by
  induction h with
  | here htarget =>
    cases h' with
    | here => rfl
    | step hno => exact absurd htarget hno
  | step hno hs hrest ih =>
    cases h' with
    | here htarget => exact absurd htarget hno
    | step hno' hs' hrest' =>
      obtain rfl := hc.functional hs hs'
      exact ih hrest'

/-- The search for a target that the exit of the phase leads to ends where the phase does, exactly if
it finds no target inside. -/
theorem Until.endsAt_iff (hexit : ∀ v u, exit v → next v u → target u) (h : Until next target s t) :
    EndsAt next exit s t ↔ ∀ v, Inside next exit s v → ¬target v := by
  induction h with
  | @here s htarget =>
    exact iff_of_false (not_endsAt_self hc s) fun h => h s (.refl s) htarget
  | @step s s' t hno hs hrest ih =>
    by_cases hx : exit s
    · -- the exit leads to a target, so the search ends with it
      have ht : t = s' := by
        cases hrest with
        | here _ => rfl
        | step hno' _ _ => exact absurd (hexit s s' hx hs) hno'
      rw [endsAt_exit hc hx hs, forall_inside_exit hx]
      exact iff_of_true ht hno
    · rw [endsAt_step hc hx hs, forall_inside_step hc hx hs, ih]
      exact ⟨fun h => ⟨hno, h⟩, fun h => h.2⟩

end

end Phase
