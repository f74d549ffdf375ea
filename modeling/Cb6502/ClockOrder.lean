import Cb6502.ClockRuns
import Mathlib.Data.List.Pairwise
/- Edges of derived clocks that fall together with the edge of the main clock.

   `clock_main_half_tick` makes the callbacks of the clock at the head of its list before it looks
   whether the main clock has its edge at the same instant; the clocks after that one have theirs
   when the loop is run again. `halfTickTimed` is the log of the half tick with the instant of each
   call: the ticks left until the edge of the main clock.

   What is proved:
     1. `clockMainHalfTick_timed` — without the instants it is the log of the half tick.
     2. `Running.mainFirst`, `Running.not_mainFirst` — the loop calls for the main clock first, at
        each instant, if no derived clock has its edge together with it, and it does not if one
        has and the two have callbacks.
     3. `main_first_iff` — the same for the half ticks of any run. -/
namespace Cb6502

/-! ## Instants -/

/-- The calls of the passes of the loop, each with the ticks that the pass leaves. -/
def halfTickTimed : Nat → HalfTick → List (BitVec 32 × ClkCall)
  | 0, _ => []
  | fuel + 1, s =>
    if s.remainingTicks > 0 ∨ s.rerunLoop then
      match halfTickBody s with
      | none => []
      | some s' =>
        (s'.calls.drop s.calls.length).map (s'.remainingTicks, ·) ++ halfTickTimed fuel s'
    else []

/-- The calls of a half tick; a main clock without derived clocks has its edge at once. -/
def ClkCxt.timedCalls (fuel : Nat) (cxt : ClkCxt) : List (BitVec 32 × ClkCall) :=
  if cxt.clks.isEmpty then (mainEdge cxt.mainClk).map (0, ·) else halfTickTimed fuel cxt.start

/-- The internal handler, or a callback of the main clock. -/
def ClkCall.OfMain (main : Nat) : ClkCall → Prop
  | .mainHlr _ _ => True
  | .callbacks clk _ entries => clk = main ∧ entries ≠ []

/-- A callback of another clock. -/
def ClkCall.OfDerived (main : Nat) : ClkCall → Prop
  | .mainHlr _ _ => False
  | .callbacks clk _ entries => clk ≠ main ∧ entries ≠ []

/-- No derived clock is called before the main clock at the same instant. -/
def MainFirst (main : Nat) (log : List (BitVec 32 × ClkCall)) : Prop :=
  log.Pairwise fun a b => a.1 = b.1 → ¬ (a.2.OfDerived main ∧ b.2.OfMain main)

/-- The clock has an edge in `n` ticks: its next one, or a later one. -/
inductive Clk.EdgeIn : Clk → Nat → Prop where
  | next (clk : Clk) : clk.EdgeIn clk.ticks.toNat
  | later {clk : Clk} {n : Nat} : clk.afterEdge.EdgeIn n → clk.EdgeIn (clk.ticks.toNat + n)

/-- A derived clock has an edge at the instant at which the half tick gives the main clock its edge. -/
def ClkCxt.Coincident (cxt : ClkCxt) : Prop :=
  0 < cxt.mainClk.halfPeriod.toNat ∧ ∃ clk ∈ cxt.clks, clk.EdgeIn cxt.mainClk.halfPeriod.toNat

/-! ## The log without the instants -/

theorem halfTickTimed_calls {fuel : Nat} {s s' : HalfTick} (hinv : s.Inv)
    (h : halfTickLoop fuel s = some s') :
    s'.calls = s.calls ++ (halfTickTimed fuel s).map (·.2) := by
  induction fuel generalizing s with
  | zero => cases h
  | succ fuel ih =>
    rw [halfTickLoop] at h
    rw [halfTickTimed]
    by_cases hgo : s.remainingTicks > 0 ∨ s.rerunLoop
    · rw [if_pos hgo] at h ⊢
      obtain ⟨s₁, hs₁, hpass⟩ := halfTickBody_pass hinv
      rw [hs₁, Option.bind_some] at h
      simp only [hs₁, List.map_append, List.map_map]
      obtain ⟨new, hnew⟩ : ∃ new, s₁.calls = s.calls ++ new := by
        cases hpass with
        | edge => exact ⟨_, List.append_assoc ..⟩
        | main => exact ⟨_, rfl⟩
      rw [ih (hinv.pass hpass) h, hnew, List.drop_left, List.append_assoc]
      congr 1
      congr 1
      exact (List.map_id _).symm
    · rw [if_neg hgo] at h ⊢
      obtain rfl := Option.some.inj h
      exact (List.append_nil _).symm

theorem clockMainHalfTick_timed {fuel : Nat} {cxt cxt' : ClkCxt} {calls : List ClkCall}
    (hready : cxt.Ready) (h : clockMainHalfTick fuel cxt = some (cxt', calls)) :
    (cxt.timedCalls fuel).map (·.2) = calls := by
  unfold ClkCxt.timedCalls
  rcases clockMainHalfTick_cases h with ⟨hnil, _, rfl⟩ | ⟨hne, s, hs, _, rfl⟩
  · rw [if_pos (by rw [hnil]; rfl), List.map_map]
    exact List.map_id _
  · rw [if_neg (by rw [List.isEmpty_iff]; exact hne), halfTickTimed_calls (hready.start hne) hs]
    rfl

/-- Calls of the main clock may stand before any others. -/
theorem MainFirst.of_main {main : Nat} {new rest : List (BitVec 32 × ClkCall)}
    (hnew : ∀ e ∈ new, ¬ e.2.OfDerived main) (h : MainFirst main rest) :
    MainFirst main (new ++ rest) := by
  refine List.pairwise_append.mpr ⟨List.pairwise_of_forall_mem_list ?_, h, ?_⟩
  · exact fun a ha _ _ _ hboth => hnew a ha hboth.1
  · exact fun a ha _ _ _ hboth => hnew a ha hboth.1

/-! ## Edges ahead -/

theorem Clk.EdgeIn.le {clk : Clk} {n : Nat} (h : clk.EdgeIn n) : clk.ticks.toNat ≤ n := by
  cases h with
  | next => exact Nat.le_refl _
  | later => exact Nat.le_add_right _ _

theorem Clk.EdgeIn.afterEdge {clk : Clk} {n : Nat} (h : clk.EdgeIn n) (hlt : clk.ticks.toNat < n) :
    clk.afterEdge.EdgeIn (n - clk.ticks.toNat) := by
  cases h with
  | next => exact absurd hlt (Nat.lt_irrefl _)
  | later h =>
    rw [Nat.add_sub_cancel_left]
    exact h

theorem Clk.edgeIn_consume {clk : Clk} {n : Nat} {c : BitVec 32} (hc : c.toNat ≤ clk.ticks.toNat)
    (hn : c.toNat ≤ n) : (clk.consume c).EdgeIn (n - c.toNat) ↔ clk.EdgeIn n := by
  have hticks := Clk.consume_ticks hc
  constructor
  · intro h
    generalize hm : n - c.toNat = m at h
    cases h with
    | next =>
      obtain rfl : n = clk.ticks.toNat := by omega
      exact .next clk
    | @later _ k h =>
      obtain rfl : n = clk.ticks.toNat + k := by omega
      exact .later h
  · intro h
    cases h with
    | next =>
      rw [← hticks]
      exact .next _
    | @later _ k h =>
      have hsplit : clk.ticks.toNat + k - c.toNat = (clk.consume c).ticks.toNat + k := by omega
      rw [hsplit]
      exact .later h

/-! ## The passes of the loop -/

/-- The loop has still ticks left while the main clock has not had its edge. -/
structure HalfTick.Running (main : Nat) (s : HalfTick) : Prop where
  inv : s.Inv
  other : ∀ clk ∈ s.clks, clk.clk ≠ main
  mainId : s.mainClk.clk = main
  left : s.mainTicked = false → 0 < s.remainingTicks.toNat

/-- Calls of the main clock. -/
theorem ofMain_mainEdge {mainClk : Clk} : ∀ call ∈ mainEdge mainClk, ¬ call.OfDerived mainClk.clk := by
  intro call hcall
  unfold mainEdge at hcall
  rcases List.mem_append.mp hcall with hhlr | hcallbacks
  · cases hphase : mainClk.curPhase with
    | true =>
      rw [hphase, if_pos rfl, List.mem_singleton] at hhlr
      rw [hhlr]
      exact id
    | false =>
      rw [hphase, if_neg Bool.false_ne_true] at hhlr
      exact absurd hhlr List.not_mem_nil
  · obtain rfl := List.mem_singleton.mp hcallbacks
    exact fun h => h.1 rfl

/-- The call of a derived clock is not one of the main clock. -/
theorem not_ofMain_makeCallbacks {main : Nat} {clk : Clk} (h : clk.clk ≠ main) (edge : Bool) :
    ¬ (clockMakeCallbacks clk edge).OfMain main := fun hmain => h hmain.1

section Passes
variable {main : Nat} {s s' : HalfTick}

theorem HalfTick.due_iff {head : Clk} :
    s.due head = true ↔ s.remainingTicks = head.ticks ∧ s.mainTicked = false := by
  simp [HalfTick.due]

theorem edgePass_mainTicked {head : Clk} {rest : List Clk} :
    (s.edgePass head rest).mainTicked = false ↔ ¬ s.due head = true ∧ s.mainTicked = false := by
  simp [HalfTick.edgePass]

theorem mem_edgePass {head clk : Clk} {rest : List Clk} : clk ∈ (s.edgePass head rest).clks ↔
    clk = head.afterEdge ∨ ∃ clk₀ ∈ rest, clk₀.consume head.ticks = clk := by
  rw [(edgePass_perm s head rest).mem_iff, List.mem_cons, List.mem_map]

/-- The head clock does not have its edge with the main clock. -/
theorem ticks_ne_of_not_due {head : Clk} (hdue : ¬ s.due head = true) (hno : s.mainTicked = false) :
    s.remainingTicks.toNat ≠ head.ticks.toNat :=
  fun heq => hdue (HalfTick.due_iff.mpr ⟨BitVec.eq_of_toNat_eq heq, hno⟩)

/-- A pass without an edge of the main clock keeps what coincides with it. -/
theorem edgePass_edgeIn {head : Clk} {rest : List Clk} (hclks : s.clks = head :: rest)
    (hle : head.ticks.toNat ≤ s.remainingTicks.toNat)
    (hleast : ∀ clk ∈ s.clks, head.ticks.toNat ≤ clk.ticks.toNat) (hdue : ¬ s.due head = true)
    (hno : s.mainTicked = false) :
    (∃ clk ∈ (s.edgePass head rest).clks,
        clk.EdgeIn (s.edgePass head rest).remainingTicks.toNat) ↔
      ∃ clk ∈ s.clks, clk.EdgeIn s.remainingTicks.toNat := by
  have hhead : head ∈ s.clks := by rw [hclks]; exact List.mem_cons_self
  have hrest : ∀ clk ∈ rest, clk ∈ s.clks := by
    intro clk hclk
    rw [hclks]
    exact List.mem_cons_of_mem _ hclk
  rw [edgePass_remaining hle]
  constructor
  · rintro ⟨clk, hclk, hedge⟩
    rcases mem_edgePass.mp hclk with rfl | ⟨clk₀, hclk₀, rfl⟩
    · have hlater := Clk.EdgeIn.later hedge
      rw [Nat.add_sub_cancel' hle] at hlater
      exact ⟨head, hhead, hlater⟩
    · exact ⟨clk₀, hrest clk₀ hclk₀,
        (Clk.edgeIn_consume (hleast clk₀ (hrest clk₀ hclk₀)) hle).mp hedge⟩
  · rintro ⟨clk, hclk, hedge⟩
    have hleastClk := hleast clk hclk
    rw [hclks] at hclk
    rcases List.mem_cons.mp hclk with rfl | hclk
    · have hne := ticks_ne_of_not_due hdue hno
      exact ⟨_, mem_edgePass.mpr (Or.inl rfl), hedge.afterEdge (by omega)⟩
    · exact ⟨_, mem_edgePass.mpr (Or.inr ⟨clk, hclk, rfl⟩),
        (Clk.edgeIn_consume hleastClk hle).mpr hedge⟩

theorem HalfTick.Running.pass (h : s.Running main) (hpass : s.Pass s') : s'.Running main := by
  have hother : ∀ clk ∈ s'.clks, clk.clk ≠ main := by
    intro clk hclk
    obtain ⟨clk₀, hclk₀, heq⟩ := List.mem_map.mp (hpass.perm.mem_iff.mp (List.mem_map_of_mem hclk))
    rw [← heq]
    exact h.other clk₀ hclk₀
  refine ⟨h.inv.pass hpass, hother, ?_, ?_⟩
  · cases hpass with
    | edge =>
      simp only [HalfTick.edgePass]
      split <;> exact h.mainId
    | main =>
      simp only [HalfTick.mainPass]
      split <;> exact h.mainId
  · cases hpass with
    | @edge head rest _ hle =>
      intro hticked
      obtain ⟨hdue, hno⟩ := edgePass_mainTicked.mp hticked
      have hne := ticks_ne_of_not_due hdue hno
      rw [edgePass_remaining hle]
      omega
    | main => exact fun hticked => absurd hticked (by simp [HalfTick.mainPass])

/-- The log of the loop: that of its first pass, and the rest. -/
theorem halfTickTimed_pass {fuel : Nat} (hgo : s.remainingTicks > 0 ∨ s.rerunLoop)
    (hbody : halfTickBody s = some s') {new : List ClkCall} (hnew : s'.calls = s.calls ++ new) :
    halfTickTimed (fuel + 1) s = new.map (s'.remainingTicks, ·) ++ halfTickTimed fuel s' := by
  rw [halfTickTimed, if_pos hgo]
  simp only [hbody, hnew, List.drop_left]

theorem halfTickTimed_done {fuel : Nat} (hgo : ¬ (s.remainingTicks > 0 ∨ s.rerunLoop)) :
    halfTickTimed fuel s = [] := by
  cases fuel with
  | zero => rfl
  | succ fuel => rw [halfTickTimed, if_neg hgo]

/-- A pass with an edge of a derived clock calls for the main clock only if none has before, and if
no ticks are left. -/
theorem edgePass_ofMain {head : Clk} (hhead : head.clk ≠ main)
    (hle : head.ticks.toNat ≤ s.remainingTicks.toNat) (rest : List Clk) {call : ClkCall}
    (hcall : call ∈ [clockMakeCallbacks head head.curPhase] ++
      if s.due head then mainEdge s.mainClk else [])
    (hmain : call.OfMain main) :
    s.mainTicked = false ∧ (s.edgePass head rest).remainingTicks.toNat = 0 := by
  rcases List.mem_append.mp hcall with hedge | hdueCall
  · obtain rfl := List.mem_singleton.mp hedge
    exact absurd hmain (not_ofMain_makeCallbacks hhead _)
  · by_cases hdue : s.due head = true
    · obtain ⟨heq, hno⟩ := HalfTick.due_iff.mp hdue
      refine ⟨hno, ?_⟩
      rw [edgePass_remaining hle, heq, Nat.sub_self]
    · rw [if_neg hdue] at hdueCall
      exact absurd hdueCall List.not_mem_nil

/-- The calls of the main clock come once, when no ticks are left. -/
theorem HalfTick.Running.main_at_end (h : s.Running main) (fuel : Nat) :
    ∀ e ∈ halfTickTimed fuel s, e.2.OfMain main → s.mainTicked = false ∧ e.1.toNat = 0 := by
  induction fuel generalizing s with
  | zero => exact fun e he => absurd he List.not_mem_nil
  | succ fuel ih =>
    by_cases hgo : s.remainingTicks > 0 ∨ s.rerunLoop
    · obtain ⟨s', hbody, hpass⟩ := halfTickBody_pass h.inv
      have hrest := ih (h.pass hpass)
      cases hpass with
      | @edge head rest hclks hle hleast =>
        have hhead : head.clk ≠ main := h.other head (by rw [hclks]; exact List.mem_cons_self)
        rw [halfTickTimed_pass hgo hbody (List.append_assoc ..)]
        intro e he hmain
        rcases List.mem_append.mp he with hnew | hlater
        · obtain ⟨call, hcall, rfl⟩ := List.mem_map.mp hnew
          exact edgePass_ofMain hhead hle rest hcall hmain
        · obtain ⟨hno, hzero⟩ := hrest e hlater hmain
          exact ⟨(edgePass_mainTicked.mp hno).2, hzero⟩
      | main =>
        rw [halfTickTimed_pass hgo hbody rfl]
        intro e he hmain
        rcases List.mem_append.mp he with hnew | hlater
        · obtain ⟨call, hcall, rfl⟩ := List.mem_map.mp hnew
          refine ⟨?_, mainPass_remaining s⟩
          cases hticked : s.mainTicked with
          | false => rfl
          | true =>
            rw [hticked, if_pos rfl] at hcall
            exact absurd hcall List.not_mem_nil
        · exact absurd (hrest e hlater hmain).1 (by simp [HalfTick.mainPass])
    · rw [halfTickTimed_done hgo]
      exact fun e he => absurd he List.not_mem_nil

/-- Without a coincident edge the main clock is called at an instant of its own, or before the others. -/
theorem HalfTick.Running.mainFirst (h : s.Running main)
    (hnone : s.mainTicked = false → ∀ clk ∈ s.clks, ¬ clk.EdgeIn s.remainingTicks.toNat)
    (fuel : Nat) : MainFirst main (halfTickTimed fuel s) := by
  induction fuel generalizing s with
  | zero => exact List.Pairwise.nil
  | succ fuel ih =>
    by_cases hgo : s.remainingTicks > 0 ∨ s.rerunLoop
    · obtain ⟨s', hbody, hpass⟩ := halfTickBody_pass h.inv
      have hrunning := h.pass hpass
      have hlater := hrunning.main_at_end fuel
      cases hpass with
      | @edge head rest hclks hle hleast =>
        have hdue : ¬ s.due head = true := by
          intro hdue
          obtain ⟨heq, hno⟩ := HalfTick.due_iff.mp hdue
          refine hnone hno head (by rw [hclks]; exact List.mem_cons_self) ?_
          rw [heq]
          exact .next head
        have hcalls : (s.edgePass head rest).calls = s.calls ++ [clockMakeCallbacks head head.curPhase] := by
          simp [HalfTick.edgePass, hdue]
        rw [halfTickTimed_pass hgo hbody hcalls]
        refine List.pairwise_cons.mpr ⟨?_, ih hrunning ?_⟩
        · -- a later call of the main clock has no ticks left, and this one has
          intro e he hsame hboth
          obtain ⟨hno, hzero⟩ := hlater e he hboth.2
          have hpos := hrunning.left hno
          have hleft : (s.edgePass head rest).remainingTicks.toNat = e.1.toNat := congrArg BitVec.toNat hsame
          omega
        · intro hno clk hclk hedge
          have hno' := (edgePass_mainTicked.mp hno).2
          obtain ⟨clk₀, hclk₀, hedge₀⟩ :=
            (edgePass_edgeIn hclks hle hleast hdue hno').mp ⟨clk, hclk, hedge⟩
          exact hnone hno' clk₀ hclk₀ hedge₀
      | main hless =>
        rw [halfTickTimed_pass hgo hbody rfl]
        refine MainFirst.of_main ?_ (ih hrunning fun hno => absurd hno (by simp [HalfTick.mainPass]))
        intro e he
        obtain ⟨call, hcall, rfl⟩ := List.mem_map.mp he
        split at hcall
        · exact absurd hcall List.not_mem_nil
        · rw [← h.mainId]
          exact ofMain_mainEdge call hcall
    · rw [halfTickTimed_done hgo]
      exact List.Pairwise.nil

/-- A callback for either edge. -/
def Clk.Called (clk : Clk) : Prop :=
  ∀ edge : ClockEdge, (clk.callbacks.filter fun entry => entry.edges &&& edge.bit != 0) ≠ []

theorem Clk.Called.ofDerived {main : Nat} {clk : Clk} (h : clk.Called) (hother : clk.clk ≠ main)
    (edge : Bool) : (clockMakeCallbacks clk edge).OfDerived main := ⟨hother, h _⟩

/-- The calls of an edge of the main clock end with its callbacks. -/
theorem Clk.Called.ofMain {mainClk : Clk} (h : mainClk.Called) :
    ∃ call ∈ mainEdge mainClk, call.OfMain mainClk.clk :=
  ⟨clockMakeCallbacks mainClk mainClk.curPhase, List.mem_append_right _ (List.mem_singleton.mpr rfl),
    rfl, h _⟩

/-- Where both edges fall in one pass, the other clock is called first. -/
theorem HalfTick.Running.not_mainFirst (h : s.Running main) (hticked : s.mainTicked = false)
    (hedge : ∃ clk ∈ s.clks, clk.EdgeIn s.remainingTicks.toNat) (hcalled : ∀ clk ∈ s.clks, clk.Called)
    (hmain : s.mainClk.Called) {fuel : Nat} {t : HalfTick} (hrun : halfTickLoop fuel s = some t) :
    ¬ MainFirst main (halfTickTimed fuel s) := by
  induction fuel generalizing s with
  | zero => cases hrun
  | succ fuel ih =>
    have hgo : s.remainingTicks > 0 ∨ s.rerunLoop := Or.inl (BitVec.lt_def.mpr (h.left hticked))
    obtain ⟨s', hbody, hpass⟩ := halfTickBody_pass h.inv
    have hrunning := h.pass hpass
    rw [halfTickLoop, if_pos hgo, hbody, Option.bind_some] at hrun
    cases hpass with
    | @edge head rest hclks hle hleast =>
      have hmem : head ∈ s.clks := by rw [hclks]; exact List.mem_cons_self
      rw [halfTickTimed_pass hgo hbody (List.append_assoc ..)]
      by_cases hdue : s.due head = true
      · -- the clock at the head is called, and then the main clock
        obtain ⟨call, hcall, hofMain⟩ := hmain.ofMain
        rw [h.mainId] at hofMain
        intro hfirst
        rw [if_pos hdue, List.map_append] at hfirst
        obtain ⟨hthis, -, -⟩ := List.pairwise_append.mp hfirst
        obtain ⟨-, -, hcross⟩ := List.pairwise_append.mp hthis
        exact hcross _ (List.mem_map_of_mem (List.mem_singleton.mpr rfl)) _ (List.mem_map_of_mem hcall) rfl
          ⟨(hcalled head hmem).ofDerived (h.other head hmem) _, hofMain⟩
      · intro hfirst
        obtain ⟨-, hrest, -⟩ := List.pairwise_append.mp hfirst
        refine ih hrunning ?_ ?_ ?_ ?_ hrun hrest
        · exact edgePass_mainTicked.mpr ⟨hdue, hticked⟩
        · exact (edgePass_edgeIn hclks hle hleast hdue hticked).mpr hedge
        · intro clk hclk
          rcases mem_edgePass.mp hclk with rfl | ⟨clk₀, hclk₀, rfl⟩
          · exact hcalled head hmem
          · exact hcalled clk₀ (by rw [hclks]; exact List.mem_cons_of_mem _ hclk₀)
        · simp only [HalfTick.edgePass, hdue]
          exact hmain
    | main hless =>
      obtain ⟨clk, hclk, hin⟩ := hedge
      have hlate := hless clk hclk
      have hearly := hin.le
      omega

end Passes

/-! ## Half ticks of a run -/

/-- The half tick calls for the main clock first. -/
def ClkCxt.MainFirst (cxt : ClkCxt) : Prop :=
  ∀ fuel cxt' calls, clockMainHalfTick fuel cxt = some (cxt', calls) →
    (cxt.timedCalls fuel).map (·.2) = calls ∧ Cb6502.MainFirst cxt.mainClk.clk (cxt.timedCalls fuel)

/-- The clocks, with other callbacks. -/
def ClkCxt.withCallbacks (cxt : ClkCxt) (callbacks : Nat → List ClkCbEntry) : ClkCxt :=
  cxt.mapCallbacks fun clk _ => callbacks clk

theorem Clk.edgeIn_callbacks {clk : Clk} {n : Nat} (callbacks : List ClkCbEntry) :
    ({ clk with callbacks } : Clk).EdgeIn n ↔ clk.EdgeIn n := by
  have hforget : ∀ {c : Clk} {n : Nat}, c.EdgeIn n → ∀ l, ({ c with callbacks := l } : Clk).EdgeIn n := by
    intro c n h
    induction h with
    | next c => exact fun l => .next { c with callbacks := l }
    | @later c n _ ih => exact fun l => @Clk.EdgeIn.later { c with callbacks := l } n (ih l)
  exact ⟨fun h => hforget h clk.callbacks, fun h => hforget h callbacks⟩

theorem coincident_withCallbacks {cxt : ClkCxt} (callbacks : Nat → List ClkCbEntry) :
    (cxt.withCallbacks callbacks).Coincident ↔ cxt.Coincident := by
  unfold ClkCxt.Coincident
  refine and_congr Iff.rfl ⟨?_, ?_⟩
  · rintro ⟨clk, hclk, hin⟩
    obtain ⟨clk₀, hclk₀, rfl⟩ := List.mem_map.mp hclk
    exact ⟨clk₀, hclk₀, (Clk.edgeIn_callbacks _).mp hin⟩
  · rintro ⟨clk, hclk, hin⟩
    exact ⟨_, List.mem_map_of_mem hclk, (Clk.edgeIn_callbacks _).mpr hin⟩

theorem ClkCxt.Ready.running {cxt : ClkCxt} (h : cxt.Ready) (hne : cxt.clks ≠ [])
    (hpos : 0 < cxt.mainClk.halfPeriod.toNat) : cxt.start.Running cxt.mainClk.clk :=
  ⟨h.start hne, h.apart, rfl, fun _ => hpos⟩

theorem mainFirst_of_not_coincident {cxt : ClkCxt} (h : cxt.Ready) (hnone : ¬ cxt.Coincident) :
    cxt.MainFirst := by
  intro fuel cxt' calls htick
  refine ⟨clockMainHalfTick_timed h htick, ?_⟩
  unfold ClkCxt.timedCalls
  by_cases hnil : cxt.clks = []
  · rw [if_pos (by rw [hnil]; rfl), ← List.append_nil (List.map _ _)]
    refine Cb6502.MainFirst.of_main ?_ List.Pairwise.nil
    intro e he
    obtain ⟨call, hcall, rfl⟩ := List.mem_map.mp he
    exact ofMain_mainEdge call hcall
  · rw [if_neg (by rw [List.isEmpty_iff]; exact hnil)]
    by_cases hpos : 0 < cxt.mainClk.halfPeriod.toNat
    · exact (h.running hnil hpos).mainFirst (fun _ clk hclk hin => hnone ⟨hpos, clk, hclk, hin⟩) fuel
    · -- half of a period of one nanosecond: the loop is not entered
      rw [halfTickTimed_done ?_]
      · exact List.Pairwise.nil
      · rintro (hlt | hrerun)
        · exact hpos (BitVec.lt_def.mp hlt)
        · cases hrerun

/-- One callback, for both edges. -/
def bothEdges : List ClkCbEntry := [{ handle := 0, callback := 0, edges := 0x03 }]

theorem called_bothEdges {clk : Clk} (h : clk.callbacks = bothEdges) : clk.Called := by
  intro edge
  rw [h]
  cases edge <;> decide

theorem not_mainFirst_of_coincident {cxt : ClkCxt} (h : cxt.Ready) (hedge : cxt.Coincident) :
    ¬ (cxt.withCallbacks fun _ => bothEdges).MainFirst := by
  intro hfirst
  have hready : (cxt.withCallbacks fun _ => bothEdges).Ready := h.mapCallbacks _
  obtain ⟨hpos, clk, hclk, hin⟩ := (coincident_withCallbacks fun _ => bothEdges).mpr hedge
  have hne : (cxt.withCallbacks fun _ => bothEdges).clks ≠ [] := List.ne_nil_of_mem hclk
  obtain ⟨r, hr⟩ := clockMainHalfTick_total hready (Nat.lt_succ_self _)
  have hlog := (hfirst _ _ _ hr).2
  obtain ⟨hnil, -, -⟩ | ⟨-, s, hs, -, -⟩ := clockMainHalfTick_cases hr
  · exact hne hnil
  · unfold ClkCxt.timedCalls at hlog
    rw [if_neg (by rw [List.isEmpty_iff]; exact hne)] at hlog
    refine (hready.running hne hpos).not_mainFirst rfl ⟨clk, hclk, hin⟩ ?_ (called_bothEdges rfl) hs hlog
    intro c hc
    obtain ⟨c₀, -, rfl⟩ := List.mem_map.mp hc
    exact called_bothEdges rfl

/-- A half tick without a coincident edge calls for the main clock first. The clocks have only such
half ticks, whatever callbacks are registered, exactly if no edge is coincident. -/
theorem main_first_iff {config : Option ClockConfig} {cxt₀ cxt : ClkCxt} {acts : List ClkAct} {t : Nat}
    {log : List ClkCall} (hinit : clockInit config = some cxt₀) (hrun : ClkRun cxt₀ acts t log cxt) :
    (¬ cxt.Coincident → cxt.MainFirst) ∧
      ((∀ callbacks, (cxt.withCallbacks callbacks).MainFirst) ↔ ¬ cxt.Coincident) := by
  have hready := hrun.ready (clockInit_ready hinit)
  refine ⟨mainFirst_of_not_coincident hready, ?_, ?_⟩
  · intro hall hedge
    exact not_mainFirst_of_coincident hready hedge (hall _)
  · intro hnone callbacks
    exact mainFirst_of_not_coincident (hready.mapCallbacks _)
      fun hedge => hnone ((coincident_withCallbacks callbacks).mp hedge)

/-- A derived clock of 6 ns beside a main clock of 4 ns: no coincident edge in the first half tick. -/
theorem main_first_of_six_ns : (clockAdd (mainOnly 4) (periodConfig 6)).1.MainFirst := by
  have hrun : ClkRun (mainOnly 4) [.add (periodConfig 6)] 0 [] (clockAdd (mainOnly 4) (periodConfig 6)).1 :=
    .add _ (.done _)
  have hinit : clockInit (periodConfig 4) = some (mainOnly 4) := by decide
  refine (main_first_iff hinit hrun).1 ?_
  rintro ⟨-, clk, hclk, hin⟩
  obtain rfl := List.mem_singleton.mp hclk
  exact absurd hin.le (by decide)

/-- Two clocks of 4 ns, each with a callback for both edges. -/
def twinClocks : ClkCxt :=
  let cxt := (clockAdd (mainOnly 4) (periodConfig 4)).1
  let cxt := (clockRegisterTickEdges cxt 0 7 0x03).1
  (clockRegisterTickEdges cxt 1 8 0x03).1

/-- The derived clock is called first on the positive edge, and on the negative one before the CPU. -/
theorem derived_clock_called_first :
    (∃ log, clockInit (periodConfig 4) = some (mainOnly 4) ∧
      ClkRun (mainOnly 4) [.add (periodConfig 4), .register 0 7 0x03, .register 1 8 0x03] 0 log
        twinClocks) ∧
    (clockMainTick 5 twinClocks).map (·.2) = some
      [.callbacks 1 .posedge [{ handle := 3, callback := 8, edges := 0x03 }],
        .callbacks 0 .posedge [{ handle := 2, callback := 7, edges := 0x03 }],
        .callbacks 1 .negedge [{ handle := 3, callback := 8, edges := 0x03 }],
        .mainHlr 0 .negedge,
        .callbacks 0 .negedge [{ handle := 2, callback := 7, edges := 0x03 }]] ∧
    ¬ twinClocks.MainFirst := by
  refine ⟨⟨[], by decide, .add _ (.register _ _ _ (.register _ _ _ (.done _)))⟩, by decide, ?_⟩
  intro hfirst
  have htimed : twinClocks.timedCalls 5 =
      [(0, .callbacks 1 .posedge [{ handle := 3, callback := 8, edges := 0x03 }]),
        (0, .callbacks 0 .posedge [{ handle := 2, callback := 7, edges := 0x03 }])] := by decide
  obtain ⟨r, hr⟩ : ∃ r, clockMainHalfTick 5 twinClocks = some r :=
    Option.isSome_iff_exists.mp (by decide)
  have hlog := (hfirst 5 _ _ hr).2
  rw [htimed] at hlog
  obtain ⟨hhead, -⟩ := List.pairwise_cons.mp hlog
  exact hhead _ List.mem_cons_self rfl ⟨⟨by decide, by decide⟩, rfl, by decide⟩

end Cb6502
