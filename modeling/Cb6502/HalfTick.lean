import Mathlib.Algebra.GroupWithZero.Nat
import Cb6502.Clock
import Cb6502.Lib.PeriodicTimer
/- What one half tick of the main clock does to the derived clocks and to the main clock.

   What is proved:
     1. `halfTickBody_pass` — the two forms of a pass of the loop: the head clock has its edge
        and is put back in order, or all clocks lose the ticks left. What each pass keeps, the
        loop keeps (`halfTickLoop_keeps`).
     2. `halfTickLoop_total` — the loop ends: every pass delivers an edge that was due, and
        only finitely many are due in the ticks left.
     3. `halfTickLoop_advances` — a clock that is on time when the loop starts is on time when
        it ends, with exactly the edges in between in the log.
     4. `halfTickLoop_main` — with ticks left, the main clock has exactly one edge. -/
namespace Cb6502

/-! ## The walk over the list -/

instance : Std.Total Clk.le := ⟨fun a b => BitVec.le_total a.ticks b.ticks⟩

instance : IsTrans Clk Clk.le := ⟨fun _ _ _ => BitVec.le_trans⟩

/-- A clock that `c` ticks have been taken from. -/
def Clk.consume (c : BitVec 32) (clk : Clk) : Clk := { clk with ticks := clk.ticks - c }

/-- Whether some clock is down to zero ticks. -/
def anyExpired (clks : List Clk) : Bool := clks.any fun clk => clk.ticks == 0

theorem walkClks_none (c : BitVec 32) (clks : List Clk) :
    walkClks c none clks = (clks.map (Clk.consume c), anyExpired (clks.map (Clk.consume c))) := by
  induction clks with
  | nil => rfl
  | cons entry rest ih =>
    rw [walkClks]
    simp only [ih, anyExpired, List.map_cons, List.any_cons, Clk.consume]

theorem walkClks_some (c : BitVec 32) (headClk : Clk) (clks : List Clk) :
    walkClks c (some headClk) clks =
      ((clks.map (Clk.consume c)).orderedInsert Clk.le headClk,
        anyExpired (clks.map (Clk.consume c))) := by
  induction clks with
  | nil => rfl
  | cons entry rest ih =>
    rw [walkClks]
    simp only [ih, walkClks_none, anyExpired, List.map_cons, List.any_cons]
    by_cases hle : Clk.le headClk (Clk.consume c entry)
    · rw [List.orderedInsert_cons_of_le _ _ hle]
      exact if_pos hle
    · rw [List.orderedInsert_of_not_le _ _ hle]
      exact if_neg hle

/-! ## One pass -/

/-- Whether the edge of the head clock falls together with one of the main clock. -/
def HalfTick.due (s : HalfTick) (head : Clk) : Bool :=
  s.remainingTicks == head.ticks && !s.mainTicked

/-- What holds at the head of the loop. -/
structure HalfTick.Inv (s : HalfTick) : Prop where
  clocks : s.clks ≠ []
  sorted : s.clks.Pairwise Clk.le
  nodup : (s.clks.map (·.clk)).Nodup
  period : ∀ clk ∈ s.clks, 0 < clk.period.toNat
  expired : s.rerunLoop = true → anyExpired s.clks = true
  settled : s.rerunLoop = false → ∀ clk ∈ s.clks, clk.ticks = 0 → clk.curPhase = false

@[simp] theorem Clk.consume_clk (c : BitVec 32) (clk : Clk) : (clk.consume c).clk = clk.clk := rfl
@[simp] theorem Clk.consume_period (c : BitVec 32) (clk : Clk) :
    (clk.consume c).period = clk.period := rfl
@[simp] theorem Clk.afterEdge_clk (clk : Clk) : clk.afterEdge.clk = clk.clk := rfl
@[simp] theorem Clk.afterEdge_period (clk : Clk) : clk.afterEdge.period = clk.period := rfl

theorem Clk.consume_ticks {c : BitVec 32} {clk : Clk} (h : c.toNat ≤ clk.ticks.toNat) :
    (clk.consume c).ticks.toNat = clk.ticks.toNat - c.toNat :=
  BitVec.toNat_sub_of_le (BitVec.le_def.2 h)

theorem Clk.afterEdge_ticks (clk : Clk) :
    clk.afterEdge.ticks.toNat =
      if clk.curPhase then clk.period.toNat / 2 else clk.period.toNat - clk.period.toNat / 2 := by
  have hhalf : (clk.period / 2).toNat = clk.period.toNat / 2 := BitVec.toNat_udiv
  unfold Clk.afterEdge
  cases clk.curPhase with
  | true => exact hhalf
  | false =>
    have hle : clk.period / 2 ≤ clk.period := by
      rw [BitVec.le_def, hhalf]
      omega
    have hsub := BitVec.toNat_sub_of_le hle
    rw [hhalf] at hsub
    exact hsub

theorem anyExpired_iff (clks : List Clk) :
    anyExpired clks = true ↔ ∃ clk ∈ clks, clk.ticks.toNat = 0 := by
  simp only [anyExpired, List.any_eq_true, beq_iff_eq]
  refine exists_congr fun clk => and_congr_right fun _ => ?_
  exact BitVec.toNat_inj.symm

/-- Taking ticks that every clock has left keeps the order. -/
theorem pairwise_consume {c : BitVec 32} {clks : List Clk} (h : clks.Pairwise Clk.le)
    (hc : ∀ clk ∈ clks, c.toNat ≤ clk.ticks.toNat) :
    (clks.map (Clk.consume c)).Pairwise Clk.le := by
  rw [List.pairwise_map]
  refine h.imp_of_mem fun {a b} ha hb hab => ?_
  have hle : a.ticks.toNat ≤ b.ticks.toNat := BitVec.le_def.1 hab
  refine BitVec.le_def.2 ?_
  rw [Clk.consume_ticks (hc a ha), Clk.consume_ticks (hc b hb)]
  omega

/-- The head of a sorted list has the fewest ticks left. -/
theorem head_least {head : Clk} {rest : List Clk} (h : (head :: rest).Pairwise Clk.le) :
    ∀ clk ∈ head :: rest, head.ticks.toNat ≤ clk.ticks.toNat := by
  intro clk hclk
  rcases List.mem_cons.1 hclk with rfl | hclk
  · exact Nat.le_refl _
  · exact BitVec.le_def.1 (List.rel_of_pairwise_cons h hclk)

/-- The state after a pass in which the head clock has its edge. -/
def HalfTick.edgePass (s : HalfTick) (head : Clk) (rest : List Clk) : HalfTick where
  clks := (rest.map (Clk.consume head.ticks)).orderedInsert Clk.le head.afterEdge
  mainClk := if s.due head then { s.mainClk with curPhase := !s.mainClk.curPhase } else s.mainClk
  remainingTicks := s.remainingTicks - head.ticks
  rerunLoop := anyExpired (rest.map (Clk.consume head.ticks))
  mainTicked := s.due head || s.mainTicked
  calls := s.calls ++ [clockMakeCallbacks head head.curPhase] ++
    if s.due head then mainEdge s.mainClk else []

/-- The state after a pass in which no derived clock has an edge. -/
def HalfTick.mainPass (s : HalfTick) : HalfTick where
  clks := s.clks.map (Clk.consume s.remainingTicks)
  mainClk := if s.mainTicked then s.mainClk
    else { s.mainClk with curPhase := !s.mainClk.curPhase }
  remainingTicks := s.remainingTicks - s.remainingTicks
  rerunLoop := anyExpired (s.clks.map (Clk.consume s.remainingTicks))
  mainTicked := true
  calls := s.calls ++ if s.mainTicked then [] else mainEdge s.mainClk

/-- What a pass can do. -/
inductive HalfTick.Pass (s : HalfTick) : HalfTick → Prop where
  /-- The head clock has its edge before the main clock, or with it. -/
  | edge {head : Clk} {rest : List Clk} (hclks : s.clks = head :: rest)
      (hle : head.ticks.toNat ≤ s.remainingTicks.toNat)
      (hleast : ∀ clk ∈ s.clks, head.ticks.toNat ≤ clk.ticks.toNat) : Pass s (s.edgePass head rest)
  /-- The main clock has its edge before any other clock. -/
  | main (hless : ∀ clk ∈ s.clks, s.remainingTicks.toNat < clk.ticks.toNat) : Pass s s.mainPass

theorem halfTickBody_edge (s : HalfTick) {head : Clk} {rest : List Clk}
    (hclks : s.clks = head :: rest) (h : head.ticks ≤ s.remainingTicks) :
    halfTickBody s = some (s.edgePass head rest) := by
  unfold halfTickBody HalfTick.edgePass
  rw [hclks]
  simp only [ge_iff_le, h, if_true, walkClks_some]
  have hdue : (head.ticks == s.remainingTicks && !s.mainTicked) = s.due head := by
    rw [HalfTick.due, Bool.beq_comm]
  rw [hdue]
  cases s.due head <;> rfl

theorem halfTickBody_main (s : HalfTick) {head : Clk} {rest : List Clk}
    (hclks : s.clks = head :: rest) (h : ¬ head.ticks ≤ s.remainingTicks) :
    halfTickBody s = some s.mainPass := by
  unfold halfTickBody HalfTick.mainPass
  rw [hclks]
  simp only [ge_iff_le, h, if_false, walkClks_none, beq_self_eq_true, Bool.true_and]
  cases s.mainTicked <;> simp

theorem halfTickBody_pass {s : HalfTick} (hinv : s.Inv) :
    ∃ s', halfTickBody s = some s' ∧ s.Pass s' := by
  cases hclks : s.clks with
  | nil => exact absurd hclks hinv.clocks
  | cons head rest =>
    have hleast : ∀ clk ∈ s.clks, head.ticks.toNat ≤ clk.ticks.toNat := by
      have hsorted := hinv.sorted
      rw [hclks] at hsorted ⊢
      exact head_least hsorted
    by_cases hle : head.ticks ≤ s.remainingTicks
    · exact ⟨_, halfTickBody_edge s hclks hle, .edge hclks (BitVec.le_def.1 hle) hleast⟩
    · refine ⟨_, halfTickBody_main s hclks hle, .main fun clk hclk => ?_⟩
      have hlt : s.remainingTicks.toNat < head.ticks.toNat := BitVec.not_le.1 hle
      exact Nat.lt_of_lt_of_le hlt (hleast clk hclk)

theorem edgePass_perm (s : HalfTick) (head : Clk) (rest : List Clk) :
    (s.edgePass head rest).clks.Perm (head.afterEdge :: rest.map (Clk.consume head.ticks)) :=
  List.perm_orderedInsert Clk.le head.afterEdge (rest.map (Clk.consume head.ticks))

theorem edgePass_remaining {s : HalfTick} {head : Clk}
    (hle : head.ticks.toNat ≤ s.remainingTicks.toNat) (rest : List Clk) :
    (s.edgePass head rest).remainingTicks.toNat =
      s.remainingTicks.toNat - head.ticks.toNat :=
  BitVec.toNat_sub_of_le (BitVec.le_def.2 hle)

theorem mainPass_remaining (s : HalfTick) : s.mainPass.remainingTicks.toNat = 0 := by
  show (s.remainingTicks - s.remainingTicks).toNat = 0
  rw [BitVec.sub_self]
  rfl

/-- No clock appears in the list or leaves it. -/
theorem HalfTick.Pass.perm {s s' : HalfTick} (h : s.Pass s') :
    (s'.clks.map (·.clk)).Perm (s.clks.map (·.clk)) := by
  cases h with
  | @edge head rest hclks _ _ =>
    refine ((edgePass_perm s head rest).map (·.clk)).trans ?_
    simp [hclks, Function.comp_def]
  | main => simp [HalfTick.mainPass, Function.comp_def]

/-- The invariant is kept, and a pass runs whenever the loop goes on. -/
theorem HalfTick.Inv.pass {s s' : HalfTick} (hinv : s.Inv) (h : s.Pass s') : s'.Inv := by
  have hnodup := h.perm.nodup_iff.2 hinv.nodup
  cases h with
  | @edge head rest hclks hle hleast =>
    have hsorted := hinv.sorted
    have hperiod := hinv.period
    rw [hclks] at hsorted hperiod hleast
    have hperm := edgePass_perm s head rest
    refine ⟨?_, ?_, hnodup, ?_, ?_, ?_⟩
    · exact List.ne_nil_of_mem (hperm.mem_iff.2 List.mem_cons_self)
    · exact (pairwise_consume hsorted.of_cons
        fun clk hclk => hleast clk (List.mem_cons_of_mem _ hclk)).orderedInsert _ _
    · intro clk hclk
      rcases List.mem_cons.1 (hperm.mem_iff.1 hclk) with rfl | hclk
      · exact hperiod head List.mem_cons_self
      · obtain ⟨clk₀, hclk₀, rfl⟩ := List.mem_map.1 hclk
        exact hperiod clk₀ (List.mem_cons_of_mem _ hclk₀)
    · intro hrerun
      obtain ⟨clk, hclk, hzero⟩ := (anyExpired_iff _).1 hrerun
      exact (anyExpired_iff _).2 ⟨clk, hperm.mem_iff.2 (List.mem_cons_of_mem _ hclk), hzero⟩
    · intro hrerun clk hclk hzero
      rcases List.mem_cons.1 (hperm.mem_iff.1 hclk) with rfl | hclk
      · -- only the end of the active phase of a clock of period 1 leaves no ticks
        have hticks := head.afterEdge_ticks
        have hpos := hperiod head List.mem_cons_self
        rw [hzero] at hticks
        cases hphase : head.curPhase with
        | true => simp [Clk.afterEdge, hphase]
        | false =>
          rw [hphase] at hticks
          have hnone : 0 = head.period.toNat - head.period.toNat / 2 := hticks
          omega
      · have hany := (anyExpired_iff _).2 ⟨clk, hclk, by rw [hzero]; rfl⟩
        exact absurd (hrerun.symm.trans hany) Bool.false_ne_true
  | main hless =>
    refine ⟨?_, ?_, hnodup, ?_, fun hrerun => hrerun, ?_⟩
    · intro hnil
      exact hinv.clocks (List.map_eq_nil_iff.1 hnil)
    · exact pairwise_consume hinv.sorted fun clk hclk => Nat.le_of_lt (hless clk hclk)
    · intro clk hclk
      obtain ⟨clk₀, hclk₀, rfl⟩ := List.mem_map.1 hclk
      exact hinv.period clk₀ hclk₀
    · intro hrerun clk hclk hzero
      have hany := (anyExpired_iff _).2 ⟨clk, hclk, by rw [hzero]; rfl⟩
      exact absurd (hrerun.symm.trans hany) Bool.false_ne_true

/-! ## The loop ends -/

/-- Twice the ticks between the next edge of a clock and the end of the half tick, when it is
    due; a clock of period 1 has two edges in one tick. -/
def Clk.weight (remaining : Nat) (clk : Clk) : Nat :=
  if clk.ticks.toNat ≤ remaining then
    2 * (remaining - clk.ticks.toNat) + if clk.curPhase then 3 else 2
  else 0

/-- What every pass of the loop lowers. -/
def HalfTick.measure (s : HalfTick) : Nat :=
  (s.clks.map (Clk.weight s.remainingTicks.toNat)).sum + min s.remainingTicks.toNat 1

theorem Clk.weight_consume {c : BitVec 32} {clk : Clk} {remaining : Nat}
    (hc : c.toNat ≤ clk.ticks.toNat) (hr : c.toNat ≤ remaining) :
    (clk.consume c).weight (remaining - c.toNat) = clk.weight remaining := by
  unfold Clk.weight
  rw [Clk.consume_ticks hc, show (clk.consume c).curPhase = clk.curPhase from rfl]
  by_cases hle : clk.ticks.toNat ≤ remaining
  · rw [if_pos hle, if_pos (by omega)]
    omega
  · rw [if_neg hle, if_neg (by omega)]

theorem Clk.weight_afterEdge {clk : Clk} {remaining : Nat} (hp : 0 < clk.period.toNat)
    (hr : clk.ticks.toNat ≤ remaining) :
    clk.afterEdge.weight (remaining - clk.ticks.toNat) < clk.weight remaining := by
  unfold Clk.weight
  rw [Clk.afterEdge_ticks, if_pos hr, show clk.afterEdge.curPhase = !clk.curPhase from rfl]
  cases clk.curPhase with
  | true =>
    simp only [if_true, Bool.not_true, Bool.false_eq_true, if_false]
    split <;> omega
  | false =>
    simp only [if_true, Bool.not_false, Bool.false_eq_true, if_false]
    split <;> omega

theorem sum_weight_consume {c : BitVec 32} {clks : List Clk} (remaining : Nat)
    (hc : ∀ clk ∈ clks, c.toNat ≤ clk.ticks.toNat) (hr : c.toNat ≤ remaining) :
    ((clks.map (Clk.consume c)).map (Clk.weight (remaining - c.toNat))).sum =
      (clks.map (Clk.weight remaining)).sum := by
  rw [List.map_map]
  exact congrArg List.sum
    (List.map_congr_left fun clk hclk => Clk.weight_consume (hc clk hclk) hr)

theorem HalfTick.Pass.measure {s s' : HalfTick} (h : s.Pass s') (hinv : s.Inv)
    (hgo : s.remainingTicks > 0 ∨ s.rerunLoop) : s'.measure < s.measure := by
  unfold HalfTick.measure
  cases h with
  | @edge head rest hclks hle hleast =>
    have hperm := (edgePass_perm s head rest).map
      (Clk.weight (s.remainingTicks.toNat - head.ticks.toNat))
    have hrest := sum_weight_consume s.remainingTicks.toNat
      (fun clk hclk => hleast clk (by rw [hclks]; exact List.mem_cons_of_mem _ hclk)) hle
    have hhead := Clk.weight_afterEdge
      (hinv.period head (by rw [hclks]; exact List.mem_cons_self)) hle
    rw [edgePass_remaining hle, hperm.sum_nat, List.map_cons, List.sum_cons, hrest, hclks,
      List.map_cons, List.sum_cons]
    omega
  | main hless =>
    have hpos : 0 < s.remainingTicks.toNat := by
      rcases hgo with hpos | hrerun
      · exact BitVec.lt_def.1 hpos
      · -- a rerun is for an expired clock, and every clock has more ticks than are left
        obtain ⟨clk, hclk, hzero⟩ := (anyExpired_iff _).1 (hinv.expired hrerun)
        have := hless clk hclk
        omega
    have hsum := sum_weight_consume s.remainingTicks.toNat
      (fun clk hclk => Nat.le_of_lt (hless clk hclk)) (Nat.le_refl _)
    rw [Nat.sub_self] at hsum
    rw [mainPass_remaining]
    show ((s.clks.map (Clk.consume s.remainingTicks)).map (Clk.weight 0)).sum + _ < _
    rw [hsum]
    omega

/-- A property every pass keeps holds when the loop ends, with nothing left to do. -/
theorem halfTickLoop_keeps {P : HalfTick → Prop}
    (hpass : ∀ s s', s.Inv → P s → s.Pass s' → P s') {fuel : Nat} {s s' : HalfTick}
    (hinv : s.Inv) (hP : P s) (h : halfTickLoop fuel s = some s') :
    s'.Inv ∧ P s' ∧ s'.remainingTicks.toNat = 0 ∧ s'.rerunLoop = false := by
  induction fuel generalizing s with
  | zero => cases h
  | succ fuel ih =>
    rw [halfTickLoop] at h
    by_cases hgo : s.remainingTicks > 0 ∨ s.rerunLoop
    · rw [if_pos hgo] at h
      obtain ⟨s₁, hs₁, hpass₁⟩ := halfTickBody_pass hinv
      rw [hs₁, Option.bind_some] at h
      exact ih (hinv.pass hpass₁) (hpass s s₁ hinv hP hpass₁) h
    · rw [if_neg hgo] at h
      obtain rfl := Option.some.inj h
      refine ⟨hinv, hP, ?_, ?_⟩
      · have hzero : ¬ 0 < s.remainingTicks.toNat := fun hpos =>
          hgo (Or.inl (BitVec.lt_def.2 hpos))
        omega
      · cases hrerun : s.rerunLoop with
        | true => exact absurd (Or.inr hrerun) hgo
        | false => rfl

/-- More fuel changes nothing. -/
theorem halfTickLoop_mono {fuel fuel' : Nat} (hle : fuel ≤ fuel') {s s' : HalfTick}
    (h : halfTickLoop fuel s = some s') : halfTickLoop fuel' s = some s' := by
  induction fuel generalizing fuel' s with
  | zero => cases h
  | succ fuel ih =>
    obtain ⟨fuel', rfl⟩ : ∃ n, fuel' = n + 1 := ⟨fuel' - 1, by omega⟩
    rw [halfTickLoop] at h ⊢
    by_cases hgo : s.remainingTicks > 0 ∨ s.rerunLoop
    · rw [if_pos hgo] at h ⊢
      obtain ⟨s₁, hs₁, hloop⟩ := Option.bind_eq_some_iff.1 h
      rw [hs₁, Option.bind_some]
      exact ih (by omega) hloop
    · rw [if_neg hgo] at h ⊢
      exact h

theorem halfTickLoop_total {s : HalfTick} (hinv : s.Inv) {fuel : Nat} (h : s.measure < fuel) :
    ∃ s', halfTickLoop fuel s = some s' := by
  induction fuel generalizing s with
  | zero => exact absurd h (Nat.not_lt_zero _)
  | succ fuel ih =>
    rw [halfTickLoop]
    by_cases hgo : s.remainingTicks > 0 ∨ s.rerunLoop
    · rw [if_pos hgo]
      obtain ⟨s₁, hs₁, hpass⟩ := halfTickBody_pass hinv
      rw [hs₁, Option.bind_some]
      have hlt := hpass.measure hinv hgo
      exact ih (hinv.pass hpass) (by omega)
    · rw [if_neg hgo]
      exact ⟨s, rfl⟩

/-! ## One derived clock -/

/-- The edge number `n` of a clock, counted from 0. -/
def edgeNumber (n : Nat) : ClockEdge := if n % 2 = 0 then .posedge else .negedge

/-- The `k` edges from number `n` on. -/
def edgesFrom (n k : Nat) : List ClockEdge := (List.range' n k).map edgeNumber

/-- The edges the log holds for a clock. -/
def edgesOf (clk : Nat) (calls : List ClkCall) : List ClockEdge :=
  calls.filterMap fun call => match call with
    | .callbacks c edge _ => if c = clk then some edge else none
    | .mainHlr _ _ => none

theorem edgesOf_append (clk : Nat) (calls calls' : List ClkCall) :
    edgesOf clk (calls ++ calls') = edgesOf clk calls ++ edgesOf clk calls' :=
  List.filterMap_append

theorem edgesOf_makeCallbacks (clk : Nat) (c : Clk) (edge : Bool) :
    edgesOf clk [clockMakeCallbacks c edge] =
      if c.clk = clk then [if edge then .negedge else .posedge] else [] := by
  unfold edgesOf clockMakeCallbacks
  by_cases h : c.clk = clk <;> simp [h]

theorem edgesOf_mainEdge {clk : Nat} {mainClk : Clk} (h : mainClk.clk ≠ clk) :
    edgesOf clk (mainEdge mainClk) = [] := by
  unfold mainEdge
  rw [edgesOf_append, edgesOf_makeCallbacks, if_neg h]
  cases mainClk.curPhase <;> rfl

theorem edgesFrom_append (n k l : Nat) :
    edgesFrom n k ++ edgesFrom (n + k) l = edgesFrom n (k + l) := by
  unfold edgesFrom
  rw [← List.map_append]
  have happ : List.range' n k ++ List.range' (n + 1 * k) l = List.range' n (k + l) :=
    List.range'_append
  rw [Nat.one_mul] at happ
  rw [happ]

/-- The clock has delivered `n` edges at `age` and its next one is `ticks` away. -/
structure Clk.OnTime (clk : Clk) (age n : Nat) : Prop where
  phase : clk.curPhase = decide (n % 2 = 1)
  timer : PeriodicTimer.OnTime clk.period.toNat age clk.ticks.toNat n

theorem Clk.OnTime.consume {clk : Clk} {age n : Nat} {c : BitVec 32} (h : clk.OnTime age n)
    (hc : c.toNat ≤ clk.ticks.toNat) : (clk.consume c).OnTime (age + c.toNat) n := by
  refine ⟨h.phase, ?_⟩
  rw [Clk.consume_ticks hc]
  exact h.timer.run hc

theorem Clk.OnTime.edge {clk : Clk} {age n : Nat} (h : clk.OnTime age n) :
    clk.afterEdge.OnTime (age + clk.ticks.toNat) (n + 1) := by
  have hfire := (h.timer.run (Nat.le_refl _))
  rw [Nat.sub_self] at hfire
  refine ⟨?_, ?_⟩
  · have hphase : clk.afterEdge.curPhase = !clk.curPhase := rfl
    rw [hphase, h.phase]
    rcases Nat.mod_two_eq_zero_or_one n with hn | hn
    · have hodd : (n + 1) % 2 = 1 := by omega
      simp [hn, hodd]
    · have heven : (n + 1) % 2 = 0 := by omega
      simp [hn, heven]
  · have hticks : clk.afterEdge.ticks.toNat =
        PeriodicTimer.phaseLength clk.period.toNat (n + 1) := by
      rw [Clk.afterEdge_ticks, h.phase]
      unfold PeriodicTimer.phaseLength
      rcases Nat.mod_two_eq_zero_or_one n with hn | hn
      · have hodd : (n + 1) % 2 = 1 := by omega
        simp [hn, hodd]
      · have heven : (n + 1) % 2 = 0 := by omega
        simp [hn, heven]
    rw [hticks]
    exact hfire.fire

/-- The edge of a clock on time is the next in turn. -/
theorem Clk.OnTime.edgeNumber {clk : Clk} {age n : Nat} (h : clk.OnTime age n) :
    (if clk.curPhase then ClockEdge.negedge else .posedge) = Cb6502.edgeNumber n := by
  rw [h.phase]
  unfold Cb6502.edgeNumber
  rcases Nat.mod_two_eq_zero_or_one n with hn | hn <;> simp [hn]

/-- `clk'` is `clk` after `elapsed` ticks in which the log got `calls`: a clock on time stays
    on time, and the edges it gains are the next ones, in turn. -/
structure Advances (clk clk' : Clk) (elapsed : Nat) (calls : List ClkCall) : Prop where
  same : clk'.clk = clk.clk
  period : clk'.period = clk.period
  onTime : ∀ {age n : Nat}, clk.OnTime age n →
    ∃ k, clk'.OnTime (age + elapsed) (n + k) ∧ edgesOf clk.clk calls = edgesFrom n k

theorem Advances.refl (clk : Clk) : Advances clk clk 0 [] :=
  ⟨rfl, rfl, fun h => ⟨0, h, rfl⟩⟩

theorem Advances.trans {clk clk₁ clk₂ : Clk} {t₁ t₂ : Nat} {calls₁ calls₂ : List ClkCall}
    (h₁ : Advances clk clk₁ t₁ calls₁) (h₂ : Advances clk₁ clk₂ t₂ calls₂) :
    Advances clk clk₂ (t₁ + t₂) (calls₁ ++ calls₂) := by
  refine ⟨h₂.same.trans h₁.same, h₂.period.trans h₁.period, fun {age n} h => ?_⟩
  obtain ⟨k, hk, hedges⟩ := h₁.onTime h
  obtain ⟨l, hl, hedges'⟩ := h₂.onTime hk
  rw [h₁.same] at hedges'
  refine ⟨k + l, ?_, ?_⟩
  · rw [← Nat.add_assoc, ← Nat.add_assoc]
    exact hl
  · rw [edgesOf_append, hedges, hedges', edgesFrom_append]

theorem Advances.consume {clk : Clk} {c : BitVec 32} {calls : List ClkCall}
    (hc : c.toNat ≤ clk.ticks.toNat) (hcalls : edgesOf clk.clk calls = []) :
    Advances clk (clk.consume c) c.toNat calls :=
  ⟨rfl, rfl, fun h => ⟨0, h.consume hc, hcalls⟩⟩

theorem Advances.edge {clk : Clk} {calls : List ClkCall}
    (hcalls : edgesOf clk.clk calls = [if clk.curPhase then .negedge else .posedge]) :
    Advances clk clk.afterEdge clk.ticks.toNat calls :=
  ⟨rfl, rfl, fun h => ⟨1, h.edge, by rw [hcalls, h.edgeNumber]; rfl⟩⟩

/-- One pass, followed for one clock. -/
theorem HalfTick.Pass.advances {s s' : HalfTick} (h : s.Pass s') (hinv : s.Inv)
    {clk : Clk} (hclk : clk ∈ s.clks) (hmain : s.mainClk.clk ≠ clk.clk) :
    s'.remainingTicks.toNat ≤ s.remainingTicks.toNat ∧ s'.mainClk.clk = s.mainClk.clk ∧
      ∃ calls, s'.calls = s.calls ++ calls ∧ ∃ clk' ∈ s'.clks,
        Advances clk clk' (s.remainingTicks.toNat - s'.remainingTicks.toNat) calls := by
  cases h with
  | @edge head rest hclks hle hleast =>
    have hnodup := hinv.nodup
    have hleast' := hleast clk hclk
    rw [hclks] at hclk hnodup
    have helapsed : s.remainingTicks.toNat - (s.edgePass head rest).remainingTicks.toNat =
        head.ticks.toNat := by
      rw [edgePass_remaining hle]
      omega
    have hcalls : edgesOf clk.clk (if s.due head then mainEdge s.mainClk else []) = [] := by
      split
      · exact edgesOf_mainEdge hmain
      · rfl
    have hperm := edgePass_perm s head rest
    refine ⟨?_, ?_, _, List.append_assoc _ _ _, ?_⟩
    · rw [edgePass_remaining hle]
      omega
    · show (if s.due head then _ else s.mainClk).clk = s.mainClk.clk
      split <;> rfl
    · rw [helapsed]
      rcases List.mem_cons.1 hclk with rfl | hrest
      · refine ⟨clk.afterEdge, hperm.mem_iff.2 List.mem_cons_self, Advances.edge ?_⟩
        rw [edgesOf_append, edgesOf_makeCallbacks, if_pos rfl, hcalls, List.append_nil]
      · refine ⟨clk.consume head.ticks, hperm.mem_iff.2 (List.mem_cons_of_mem _
          (List.mem_map_of_mem hrest)), Advances.consume hleast' ?_⟩
        have hother : head.clk ≠ clk.clk := by
          intro heq
          rw [List.map_cons, List.nodup_cons] at hnodup
          exact hnodup.1 (heq ▸ List.mem_map_of_mem hrest)
        rw [edgesOf_append, edgesOf_makeCallbacks, if_neg hother, hcalls, List.append_nil]
  | main hless =>
    have hcalls : edgesOf clk.clk (if s.mainTicked then [] else mainEdge s.mainClk) = [] := by
      split
      · rfl
      · exact edgesOf_mainEdge hmain
    rw [mainPass_remaining]
    refine ⟨Nat.zero_le _, ?_, _, rfl, clk.consume s.remainingTicks,
      List.mem_map_of_mem hclk, Advances.consume (Nat.le_of_lt (hless clk hclk)) hcalls⟩
    show (if s.mainTicked then s.mainClk else _).clk = s.mainClk.clk
    split <;> rfl

/-- The whole loop, followed for one clock. -/
theorem halfTickLoop_advances {s s' : HalfTick} (hinv : s.Inv) {fuel : Nat}
    (h : halfTickLoop fuel s = some s') {clk : Clk} (hclk : clk ∈ s.clks)
    (hmain : s.mainClk.clk ≠ clk.clk) :
    ∃ calls, s'.calls = s.calls ++ calls ∧ ∃ clk' ∈ s'.clks,
      Advances clk clk' s.remainingTicks.toNat calls := by
  let P (t : HalfTick) : Prop := t.remainingTicks.toNat ≤ s.remainingTicks.toNat ∧
    t.mainClk.clk = s.mainClk.clk ∧ ∃ calls, t.calls = s.calls ++ calls ∧ ∃ clk' ∈ t.clks,
      Advances clk clk' (s.remainingTicks.toNat - t.remainingTicks.toNat) calls
  have hpass : ∀ t t', t.Inv → P t → t.Pass t' → P t' := by
    intro t t' hinvt ht hpass
    obtain ⟨hle, hclk₀, calls, hcalls, clk', hclk', hadv⟩ := ht
    obtain ⟨hle', hmain', calls', hcalls', clk'', hclk'', hadv'⟩ :=
      hpass.advances hinvt hclk' (by rw [hclk₀, hadv.same]; exact hmain)
    refine ⟨Nat.le_trans hle' hle, hmain'.trans hclk₀, calls ++ calls', ?_, clk'', hclk'', ?_⟩
    · rw [hcalls', hcalls, List.append_assoc]
    · have hsum : s.remainingTicks.toNat - t'.remainingTicks.toNat =
          (s.remainingTicks.toNat - t.remainingTicks.toNat) +
            (t.remainingTicks.toNat - t'.remainingTicks.toNat) := by omega
      rw [hsum]
      exact hadv.trans hadv'
  have hstart : P s := by
    refine ⟨Nat.le_refl _, rfl, [], (List.append_nil _).symm, clk, hclk, ?_⟩
    rw [Nat.sub_self]
    exact Advances.refl clk
  obtain ⟨_, hP, hdone, _⟩ := halfTickLoop_keeps hpass hinv hstart h
  obtain ⟨_, _, calls, hcalls, clk', hclk', hadv⟩ := hP
  rw [hdone, Nat.sub_zero] at hadv
  exact ⟨calls, hcalls, clk', hclk', hadv⟩

/-! ## The main clock -/

/-- The calls of the internal handler, and of the callbacks of the main clock `clk`. -/
def mainCalls (clk : Nat) (calls : List ClkCall) : List ClkCall :=
  calls.filter fun call => match call with
    | .mainHlr _ _ => true
    | .callbacks c _ _ => c == clk

/-- The main clock after its edge. -/
def Clk.flip (clk : Clk) : Clk := { clk with curPhase := !clk.curPhase }

theorem mainCalls_append (clk : Nat) (calls calls' : List ClkCall) :
    mainCalls clk (calls ++ calls') = mainCalls clk calls ++ mainCalls clk calls' :=
  List.filter_append _ _

theorem mainCalls_mainEdge (mainClk : Clk) :
    mainCalls mainClk.clk (mainEdge mainClk) = mainEdge mainClk := by
  unfold mainCalls mainEdge clockMakeCallbacks
  cases mainClk.curPhase <;> simp

theorem mainCalls_other {clk : Nat} {c : Clk} (h : c.clk ≠ clk) (edge : Bool) :
    mainCalls clk [clockMakeCallbacks c edge] = [] := by
  simp [mainCalls, clockMakeCallbacks, h]

/-- Either the main clock has still to have its edge, or it has had it and no ticks remain. -/
def MainEdgeOnce (mainClk : Clk) (s : HalfTick) : Prop :=
  (s.mainTicked = false ∧ 0 < s.remainingTicks.toNat ∧ s.mainClk = mainClk ∧
      mainCalls mainClk.clk s.calls = []) ∨
    (s.mainTicked = true ∧ s.remainingTicks.toNat = 0 ∧ s.mainClk = mainClk.flip ∧
      mainCalls mainClk.clk s.calls = mainEdge mainClk)

theorem HalfTick.Pass.mainEdgeOnce {mainClk : Clk} {s s' : HalfTick} (h : s.Pass s')
    (hother : ∀ clk ∈ s.clks, clk.clk ≠ mainClk.clk) (hs : MainEdgeOnce mainClk s) :
    MainEdgeOnce mainClk s' := by
  cases h with
  | @edge head rest hclks hle hleast =>
    have hhead : head.clk ≠ mainClk.clk := hother head (by rw [hclks]; exact List.mem_cons_self)
    have hremaining := edgePass_remaining hle rest
    rcases hs with ⟨hticked, hpos, hmain, hcalls⟩ | ⟨hticked, hzero, hmain, hcalls⟩
    · by_cases heq : s.remainingTicks = head.ticks
      · have hdue : s.due head = true := by simp [HalfTick.due, heq, hticked]
        refine Or.inr ⟨?_, ?_, ?_, ?_⟩
        · simp only [HalfTick.edgePass, hdue, Bool.true_or]
        · rw [hremaining, heq, Nat.sub_self]
        · simp only [HalfTick.edgePass, hdue, if_true, hmain, Clk.flip]
        · simp only [HalfTick.edgePass, hdue, if_true, mainCalls_append, hcalls,
            mainCalls_other hhead, hmain, mainCalls_mainEdge, List.nil_append]
      · have hdue : s.due head = false := by simp [HalfTick.due, heq]
        have hne : s.remainingTicks.toNat ≠ head.ticks.toNat := fun hnat =>
          heq (BitVec.eq_of_toNat_eq hnat)
        refine Or.inl ⟨?_, ?_, ?_, ?_⟩
        · simp only [HalfTick.edgePass, hdue, hticked, Bool.or_self]
        · rw [hremaining]
          omega
        · simp only [HalfTick.edgePass, hdue, hmain, Bool.false_eq_true, if_false]
        · simp only [HalfTick.edgePass, hdue, Bool.false_eq_true, if_false, mainCalls_append,
            hcalls, mainCalls_other hhead, List.append_nil]
    · have hdue : s.due head = false := by simp [HalfTick.due, hticked]
      refine Or.inr ⟨?_, ?_, ?_, ?_⟩
      · simp only [HalfTick.edgePass, hticked, Bool.or_true]
      · rw [hremaining]
        omega
      · simp only [HalfTick.edgePass, hdue, hmain, Bool.false_eq_true, if_false]
      · simp only [HalfTick.edgePass, hdue, Bool.false_eq_true, if_false, mainCalls_append, hcalls,
          mainCalls_other hhead, List.append_nil]
  | main =>
    have hnone := mainPass_remaining s
    rcases hs with ⟨hticked, _, hmain, hcalls⟩ | ⟨hticked, _, hmain, hcalls⟩
    · refine Or.inr ⟨rfl, hnone, ?_, ?_⟩
      · simp only [HalfTick.mainPass, hticked, hmain, Bool.false_eq_true, if_false, Clk.flip]
      · simp only [HalfTick.mainPass, hticked, hmain, Bool.false_eq_true, if_false,
          mainCalls_append, hcalls, mainCalls_mainEdge, List.nil_append]
    · refine Or.inr ⟨rfl, hnone, ?_, ?_⟩
      · simp only [HalfTick.mainPass, hticked, hmain, if_true]
      · simp only [HalfTick.mainPass, hticked, if_true, List.append_nil, hcalls]

/-- The loop keeps its invariant and the set of clocks. -/
theorem halfTickLoop_inv {s s' : HalfTick} (hinv : s.Inv) {fuel : Nat}
    (h : halfTickLoop fuel s = some s') :
    s'.Inv ∧ (s'.clks.map (·.clk)).Perm (s.clks.map (·.clk)) ∧ s'.rerunLoop = false := by
  obtain ⟨hinv', hperm, _, hrerun⟩ := halfTickLoop_keeps
    (P := fun t => (t.clks.map (·.clk)).Perm (s.clks.map (·.clk)))
    (fun _ _ _ ht hpass => hpass.perm.trans ht) hinv (List.Perm.refl _) h
  exact ⟨hinv', hperm, hrerun⟩

theorem halfTickLoop_main {s s' : HalfTick} (hinv : s.Inv) {fuel : Nat}
    (hother : ∀ clk ∈ s.clks, clk.clk ≠ s.mainClk.clk)
    (hticked : s.mainTicked = false) (hpos : 0 < s.remainingTicks.toNat)
    (hcalls : mainCalls s.mainClk.clk s.calls = []) (h : halfTickLoop fuel s = some s') :
    s'.mainClk = s.mainClk.flip ∧ mainCalls s.mainClk.clk s'.calls = mainEdge s.mainClk := by
  let P (t : HalfTick) : Prop := (t.clks.map (·.clk)).Perm (s.clks.map (·.clk)) ∧
    MainEdgeOnce s.mainClk t
  have hpass : ∀ t t', t.Inv → P t → t.Pass t' → P t' := by
    intro t t' _ ht hpass
    obtain ⟨hperm, honce⟩ := ht
    refine ⟨hpass.perm.trans hperm, hpass.mainEdgeOnce ?_ honce⟩
    intro clk hclk
    obtain ⟨clk₀, hclk₀, heq⟩ := List.mem_map.1 (hperm.mem_iff.1 (List.mem_map_of_mem hclk))
    rw [← heq]
    exact hother clk₀ hclk₀
  have hstart : P s := ⟨List.Perm.refl _, Or.inl ⟨hticked, hpos, rfl, hcalls⟩⟩
  obtain ⟨_, ⟨_, honce⟩, hdone, _⟩ := halfTickLoop_keeps hpass hinv hstart h
  rcases honce with ⟨_, hremaining, _, _⟩ | ⟨_, _, hmain, hmainCalls⟩
  · omega
  · exact ⟨hmain, hmainCalls⟩

end Cb6502
