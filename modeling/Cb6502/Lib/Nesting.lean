import Cb6502.Lib.Phase

/- Nested activations of a run, and a search for the return from the innermost one by counting.

   Each step enters an activation, leaves the innermost one, or does neither. The search counts
   what it believes the steps to do, with a counter modulo `m`, and stops after the step that it
   believes to leave at a count of zero, or where it is halted.

   What is proved:
     1. `Counts.not_returns` — a count below the depth never gets level again where the search
        mistakes entries only, and the search then ends elsewhere.
     2. `Counts.returns_iff` — it ends where the activation does exactly if it is right about
        every step inside, no state inside halts it, and the depth stays below `m`. -/
namespace Nesting
open Phase

/-- What a step does to the nesting. -/
inductive Move where
  | enter | leave | same
  deriving DecidableEq

def Move.depth : Move → Nat → Nat
  | .enter, d => d + 1
  | .leave, d => d - 1
  | .same, d => d

variable {σ : Type} {next : σ → σ → Prop} {move claimed : σ → Move} {halted : σ → Prop} {m : Nat}
  {clock : σ → Nat}

/-- A step, with the number of activations opened inside the one looked at. -/
def DeepNext (next : σ → σ → Prop) (move : σ → Move) (a b : Nat × σ) : Prop :=
  next a.2 b.2 ∧ b.1 = (move a.2).depth a.1

/-- The step from here leaves the activation looked at. -/
def Leaves (move : σ → Move) (a : Nat × σ) : Prop := a.1 = 0 ∧ move a.2 = .leave

/-- At the depth `d` in the state `s`, and later inside the activation at `d'` in `v`. -/
def Within (next : σ → σ → Prop) (move : σ → Move) : Nat × σ → Nat × σ → Prop :=
  Inside (DeepNext next move) (Leaves move)

/-- From `s` at the depth `d`, the activation ends with the step to `t`. -/
def Returns (next : σ → σ → Prop) (move : σ → Move) (d : Nat) (s t : σ) : Prop :=
  EndsAt (DeepNext next move) (Leaves move) (d, s) (0, t)

/-- What the search makes of its count. -/
def Move.count (m : Nat) : Move → Nat → Nat
  | .enter, c => (c + 1) % m
  | .leave, c => c - 1
  | .same, c => c

/-- The search from `s` with the count `c` ends at `t`. -/
inductive Counts (next : σ → σ → Prop) (claimed : σ → Move) (halted : σ → Prop) (m : Nat) :
    Nat → σ → σ → Prop where
  | halt {c : Nat} {s : σ} (h : halted s) : Counts next claimed halted m c s s
  | stop {s t : σ} (h : ¬halted s) (hclaim : claimed s = .leave) (hs : next s t) :
      Counts next claimed halted m 0 s t
  | step {c : Nat} {s s' t : σ} (h : ¬halted s) (hgo : ¬(c = 0 ∧ claimed s = .leave)) (hs : next s s')
      (ht : Counts next claimed halted m ((claimed s).count m c) s' t) :
      Counts next claimed halted m c s t

theorem clocked_deepNext (hc : Clocked next clock) :
    Clocked (DeepNext next move) fun a => clock a.2 := by
  refine ⟨?_, fun h => hc.advances h.1⟩
  rintro s t t' ⟨hstep, hdepth⟩ ⟨hstep', hdepth'⟩
  exact Prod.ext (hdepth.trans hdepth'.symm) (hc.functional hstep hstep')

section
variable (hc : Clocked next clock) {d : Nat} {s s' t : σ}
include hc

theorem not_returns_self (d : Nat) (s : σ) : ¬Returns next move d s s := by
  intro h
  have hlt := EndsAt.clock_lt (s := (d, s)) (t := (0, s)) (clocked_deepNext hc) h
  exact Nat.lt_irrefl _ hlt

theorem returns_leave (hmove : move s = .leave) (hs : next s s') :
    Returns next move 0 s t ↔ t = s' := by
  have hstep : DeepNext next move (0, s) (0, s') := ⟨hs, by rw [hmove]; rfl⟩
  refine (endsAt_exit (clocked_deepNext hc) ⟨rfl, hmove⟩ hstep).trans ?_
  exact ⟨fun h => congrArg Prod.snd h, fun h => by rw [h]⟩

theorem returns_step (hmove : ¬(d = 0 ∧ move s = .leave)) (hs : next s s') :
    Returns next move d s t ↔ Returns next move ((move s).depth d) s' t :=
  endsAt_step (clocked_deepNext hc) hmove ⟨hs, rfl⟩

/-- The step that the search ends with does not end an activation it is not in the last step of. -/
theorem not_returns_next (hmove : ¬(d = 0 ∧ move s = .leave)) (hs : next s s') :
    ¬Returns next move d s s' := by
  rw [returns_step hc hmove hs]
  exact not_returns_self hc _ s'

end

/-! ## The count -/

theorem count_le_self {believed : Move} (h : believed ≠ .enter) (m c : Nat) :
    believed.count m c ≤ c := by
  cases believed with
  | enter => exact absurd rfl h
  | leave => exact Nat.sub_le c 1
  | same => exact Nat.le_refl c

/-- The count is the depth as long as the counter does not wrap. -/
theorem count_eq_depth {actual : Move} {c : Nat} (hm : c < m) (hfull : ¬(actual = .enter ∧ c + 1 = m)) :
    actual.count m c = actual.depth c ∧ actual.depth c < m := by
  cases actual with
  | enter =>
    have hlt : c + 1 < m := by
      have hne : c + 1 ≠ m := fun heq => hfull ⟨rfl, heq⟩
      omega
    exact ⟨Nat.mod_eq_of_lt hlt, hlt⟩
  | leave => exact ⟨rfl, Nat.lt_of_le_of_lt (Nat.sub_le c 1) hm⟩
  | same => exact ⟨rfl, hm⟩

/-- A count below the depth stays below it, where entries are the only steps mistaken. -/
theorem count_lt_depth {believed actual : Move} (hmistake : believed ≠ actual → actual = .enter)
    {c d : Nat} (hlt : c < d) (hgo : ¬(c = 0 ∧ believed = .leave)) :
    believed.count m c < actual.depth d := by
  by_cases hright : believed = actual
  · subst hright
    cases believed with
    | enter =>
      have hwrap : (c + 1) % m ≤ c + 1 := Nat.mod_le _ _
      show (c + 1) % m < d + 1
      omega
    | leave =>
      have hpos : c ≠ 0 := fun h => hgo ⟨h, rfl⟩
      show c - 1 < d - 1
      omega
    | same => exact hlt
  · have henter := hmistake hright
    have hle := count_le_self (fun h => hright (h.trans henter.symm)) m c
    rw [henter]
    show believed.count m c < d + 1
    omega

section
variable (hc : Clocked next clock)
  (hmistake : ∀ s, claimed s ≠ move s → move s = .enter) {c d : Nat} {s t : σ}
include hc hmistake

/-- A count below the depth is never level with it again, and the search ends elsewhere. -/
theorem Counts.not_returns (h : Counts next claimed halted m c s t) (hlt : c < d) :
    ¬Returns next move d s t := by
  induction h generalizing d with
  | @halt c s h => exact not_returns_self hc d s
  | @stop s t h hclaim hs =>
    apply not_returns_next hc _ hs
    omega
  | @step c s s' t h hgo hs ht ih =>
    have hdeep : ¬(d = 0 ∧ move s = .leave) := by omega
    rw [returns_step hc hdeep hs]
    exact ih (count_lt_depth (hmistake s) hlt hgo)

/-- The search ends where the activation does, exactly if it is right about every step inside, the depth
stays below `m`, and nothing halts it. -/
theorem Counts.returns_iff (h : Counts next claimed halted m c s t) (hm : c < m) :
    Returns next move c s t ↔ ∀ a, Within next move (c, s) a →
      claimed a.2 = move a.2 ∧ a.1 < m ∧ ¬halted a.2 := by
  induction h with
  | @halt c s h =>
    exact iff_of_false (not_returns_self hc c s) fun hall => (hall _ (.refl _)).2.2 h
  | @stop s t h hclaim hs =>
    by_cases hright : claimed s = move s
    · have hmove : move s = .leave := hright.symm.trans hclaim
      rw [returns_leave hc hmove hs]
      have hleaves : Leaves move (0, s) := ⟨rfl, hmove⟩
      exact iff_of_true rfl ((forall_inside_exit hleaves).mpr ⟨hright, hm, h⟩)
    · refine iff_of_false ?_ fun hall => hright (hall _ (.refl _)).1
      apply not_returns_next hc _ hs
      rw [hmistake s hright]
      exact fun h => Move.noConfusion h.2
  | @step c s s' t h hgo hs ht ih =>
    by_cases hright : claimed s = move s
    · rw [hright] at hgo ht ih
      have hstay : ¬Leaves move (c, s) := hgo
      have hdeep : DeepNext next move (c, s) ((move s).depth c, s') := ⟨hs, rfl⟩
      have hall := forall_inside_step (clocked_deepNext hc)
        (P := fun a : Nat × σ => claimed a.2 = move a.2 ∧ a.1 < m ∧ ¬halted a.2) hstay hdeep
      rw [returns_step hc hgo hs]
      refine Iff.trans ?_ hall.symm
      have hself : claimed s = move s ∧ c < m ∧ ¬halted s := ⟨hright, hm, h⟩
      by_cases hfull : move s = .enter ∧ c + 1 = m
      · -- the counter is back at zero, one activation too deep
        obtain ⟨henter, hfull⟩ := hfull
        rw [henter] at ht ⊢
        have hzero : Move.count m .enter c = 0 := by
          show (c + 1) % m = 0
          rw [hfull, Nat.mod_self]
        rw [hzero] at ht
        refine iff_of_false (ht.not_returns hc hmistake (Nat.succ_pos c)) fun hall => ?_
        have hdeep : c + 1 < m := (hall.2 _ (.refl _)).2.1
        omega
      · have hcount := count_eq_depth hm hfull
        rw [hcount.1] at ih
        rw [ih hcount.2]
        exact ⟨fun h => ⟨hself, h⟩, fun h => h.2⟩
    · have henter := hmistake s hright
      refine iff_of_false ?_ fun hall => hright (hall _ (.refl _)).1
      have hdeep : ¬(c = 0 ∧ move s = .leave) := by
        rw [henter]
        exact fun h => Move.noConfusion h.2
      rw [returns_step hc hdeep hs]
      have hle := count_le_self (fun h => hright (h.trans henter.symm)) m c
      have hlt : (claimed s).count m c < (move s).depth c := by
        rw [henter]
        exact Nat.lt_succ_of_le hle
      exact ht.not_returns hc hmistake hlt

end

end Nesting
