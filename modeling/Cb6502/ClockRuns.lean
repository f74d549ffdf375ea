import Cb6502.HalfTick
/- The clocks over whole runs: any clocks added and removed, callbacks registered, and any
   number of half ticks.

   What is proved:
     1. `ClkCxt.Ready` — the list is sorted, holds every clock once, and owes no negative edge;
        every operation keeps it, and from it the half tick returns.
     2. `derived_clock_keeps_time` — a clock of period `p` has, `t` nanoseconds of main clock
        time after it was added, delivered exactly `t / p` negative edges, in turn with its
        positive ones.
     3. `main_clock_ticked_once` — one tick gives the main clock one positive edge, the CPU
        one call and the main clock one negative edge, exactly if its period is at least two
        nanoseconds or no derived clock exists. `one_ns_main_clock_stops` is the other case:
        half of a period of one nanosecond is no ticks at all, and the loop is not entered. -/
namespace Cb6502

/-! ## The context between two half ticks -/

structure ClkCxt.Ready (cxt : ClkCxt) : Prop where
  sorted : cxt.clks.Pairwise Clk.le
  nodup : (cxt.clks.map (·.clk)).Nodup
  period : ∀ clk ∈ cxt.clks, 0 < clk.period.toNat
  settled : ∀ clk ∈ cxt.clks, clk.ticks = 0 → clk.curPhase = false
  apart : ∀ clk ∈ cxt.clks, clk.clk ≠ cxt.mainClk.clk
  fresh : ∀ clk ∈ cxt.clks, clk.clk < cxt.nextHandle
  mainFresh : cxt.mainClk.clk < cxt.nextHandle
  mainPeriod : 0 < cxt.mainClk.period.toNat

/-- What an allocated clock starts with. -/
theorem clockAllocClk_some {handle : Nat} {config : Option ClockConfig} {clk : Clk}
    (h : clockAllocClk handle config = some clk) :
    clk.clk = handle ∧ 0 < clk.period.toNat ∧ clk.ticks = clk.period / 2 ∧
      clk.curPhase = false := by
  cases config with
  | none => cases h
  | some config =>
    simp only [clockAllocClk] at h
    split at h
    · cases h
    · rename_i hok
      obtain rfl := Option.some.inj h
      refine ⟨rfl, ?_, rfl, rfl⟩
      have hne : config.timing.toNat ≠ 0 := fun hzero =>
        hok (Or.inl (BitVec.eq_of_toNat_eq hzero))
      cases htype : config.timingType with
      | period => exact Nat.pos_of_ne_zero hne
      | freq =>
        have hmax : config.timing.toNat ≤ clockMaxFrequency := by
          refine Nat.le_of_not_lt fun hgt => hok (Or.inr ⟨htype, hgt⟩)
        unfold clockMaxFrequency at hmax
        -- at most 1 GHz, so the period is at least 1, and it fits 32 bits
        have hlow : 1 ≤ (hzNsConvert + config.timing.toNat / 2) / config.timing.toNat := by
          rw [Nat.le_div_iff_mul_le (by omega)]
          unfold hzNsConvert
          omega
        have hhigh : (hzNsConvert + config.timing.toNat / 2) / config.timing.toNat < 2 ^ 32 := by
          refine Nat.lt_of_le_of_lt (Nat.div_le_self _ _) ?_
          unfold hzNsConvert
          omega
        simp only [BitVec.toNat_ofNat, Nat.mod_eq_of_lt hhigh]
        omega

theorem clockInit_ready {config : Option ClockConfig} {cxt : ClkCxt}
    (h : clockInit config = some cxt) : cxt.Ready := by
  obtain ⟨mainClk, hmain, rfl⟩ := Option.map_eq_some_iff.1 h
  obtain ⟨hclk, hperiod, _, _⟩ := clockAllocClk_some hmain
  refine ⟨List.Pairwise.nil, List.nodup_nil, ?_, ?_, ?_, ?_, ?_, hperiod⟩
  · intro clk hclk
    cases hclk
  · intro clk hclk
    cases hclk
  · intro clk hclk
    cases hclk
  · intro clk hclk
    cases hclk
  · rw [hclk]
    exact Nat.zero_lt_one

theorem ClkCxt.Ready.add {cxt : ClkCxt} (h : cxt.Ready) (config : Option ClockConfig) :
    (clockAdd cxt config).1.Ready := by
  unfold clockAdd
  cases halloc : clockAllocClk cxt.nextHandle config with
  | none => exact h
  | some clk =>
    obtain ⟨hclk, hperiod, _, hphase⟩ := clockAllocClk_some halloc
    have hperm := List.perm_orderedInsert Clk.le clk cxt.clks
    have hmem : ∀ {P : Clk → Prop}, P clk → (∀ c ∈ cxt.clks, P c) →
        ∀ c ∈ cxt.clks.orderedInsert Clk.le clk, P c := by
      intro P hnew hold c hc
      rcases List.mem_cons.1 (hperm.mem_iff.1 hc) with rfl | hc
      · exact hnew
      · exact hold c hc
    refine ⟨h.sorted.orderedInsert _ _, ?_, ?_, ?_, ?_, ?_, ?_, h.mainPeriod⟩
    · refine (hperm.map (·.clk)).nodup_iff.2 ?_
      rw [List.map_cons, List.nodup_cons]
      refine ⟨fun hin => ?_, h.nodup⟩
      obtain ⟨c, hc, heq⟩ := List.mem_map.1 hin
      have hlt := h.fresh c hc
      omega
    · exact hmem hperiod h.period
    · exact hmem (fun _ => hphase) h.settled
    · refine hmem ?_ h.apart
      have hlt := h.mainFresh
      show clk.clk ≠ cxt.mainClk.clk
      omega
    · refine hmem ?_ fun c hc => Nat.lt_succ_of_lt (h.fresh c hc)
      show clk.clk < cxt.nextHandle + 1
      omega
    · exact Nat.lt_succ_of_lt h.mainFresh

theorem ClkCxt.Ready.remove {cxt : ClkCxt} (h : cxt.Ready) (clk : Nat) :
    (clockRemove cxt clk).Ready := by
  unfold clockRemove
  split
  · exact h
  · have hmem : ∀ c ∈ cxt.clks.filter (fun c => c.clk != clk), c ∈ cxt.clks :=
      fun c hc => List.mem_of_mem_filter hc
    exact ⟨h.sorted.filter _, h.nodup.sublist (List.filter_sublist.map _),
      fun c hc => h.period c (hmem c hc), fun c hc => h.settled c (hmem c hc),
      fun c hc => h.apart c (hmem c hc), fun c hc => h.fresh c (hmem c hc), h.mainFresh,
      h.mainPeriod⟩

/-- Callback lists play no part in the clocking. -/
theorem ClkCxt.Ready.mapCallbacks {cxt : ClkCxt} (h : cxt.Ready)
    (f : Nat → List ClkCbEntry → List ClkCbEntry) : (cxt.mapCallbacks f).Ready := by
  have hmem : ∀ {P : Clk → Prop}, (∀ c ∈ cxt.clks, P { c with callbacks := f c.clk c.callbacks }) →
      ∀ c ∈ (cxt.mapCallbacks f).clks, P c := by
    intro P hold c hc
    obtain ⟨c₀, hc₀, rfl⟩ := List.mem_map.1 hc
    exact hold c₀ hc₀
  refine ⟨?_, ?_, hmem h.period, hmem h.settled, hmem h.apart, hmem h.fresh, h.mainFresh,
    h.mainPeriod⟩
  · exact List.pairwise_map.2 h.sorted
  · simpa [ClkCxt.mapCallbacks, Function.comp_def] using h.nodup

theorem ClkCxt.Ready.nextHandle {cxt : ClkCxt} (h : cxt.Ready) :
    ({ cxt with nextHandle := cxt.nextHandle + 1 } : ClkCxt).Ready :=
  ⟨h.sorted, h.nodup, h.period, h.settled, h.apart,
    fun c hc => Nat.lt_succ_of_lt (h.fresh c hc), Nat.lt_succ_of_lt h.mainFresh, h.mainPeriod⟩

theorem ClkCxt.Ready.register {cxt : ClkCxt} (h : cxt.Ready) (clk callback : Nat)
    (edges : BitVec 32) : (clockRegisterTickEdges cxt clk callback edges).1.Ready :=
  (h.mapCallbacks _).nextHandle

/-! ## The half tick -/

/-- The loop's start. -/
def ClkCxt.start (cxt : ClkCxt) : HalfTick :=
  { clks := cxt.clks, mainClk := cxt.mainClk, remainingTicks := cxt.mainClk.halfPeriod
    rerunLoop := false, mainTicked := false, calls := [] }

theorem ClkCxt.Ready.start {cxt : ClkCxt} (h : cxt.Ready) (hne : cxt.clks ≠ []) :
    cxt.start.Inv :=
  ⟨hne, h.sorted, h.nodup, h.period, fun hrerun => Bool.noConfusion hrerun, fun _ => h.settled⟩

/-- The two paths of the half tick. -/
theorem clockMainHalfTick_cases {fuel : Nat} {cxt cxt' : ClkCxt} {calls : List ClkCall}
    (h : clockMainHalfTick fuel cxt = some (cxt', calls)) :
    (cxt.clks = [] ∧ cxt' = { cxt with mainClk := cxt.mainClk.flip } ∧
      calls = mainEdge cxt.mainClk) ∨
    (cxt.clks ≠ [] ∧ ∃ s, halfTickLoop fuel cxt.start = some s ∧
      cxt' = { cxt with clks := s.clks, mainClk := s.mainClk } ∧ calls = s.calls) := by
  unfold clockMainHalfTick at h
  by_cases hnil : cxt.clks = []
  · rw [if_pos (by rw [hnil]; rfl)] at h
    obtain ⟨rfl, rfl⟩ := Prod.mk.inj (Option.some.inj h)
    exact Or.inl ⟨hnil, rfl, rfl⟩
  · rw [if_neg (by rw [List.isEmpty_iff]; exact hnil)] at h
    obtain ⟨s, hs, heq⟩ := Option.map_eq_some_iff.1 h
    obtain ⟨rfl, rfl⟩ := Prod.mk.inj heq
    exact Or.inr ⟨hnil, s, hs, rfl, rfl⟩

/-- The half tick returns. -/
theorem clockMainHalfTick_total {cxt : ClkCxt} (h : cxt.Ready) {fuel : Nat}
    (hfuel : cxt.start.measure < fuel) : ∃ r, clockMainHalfTick fuel cxt = some r := by
  unfold clockMainHalfTick
  split
  · exact ⟨_, rfl⟩
  · rename_i hne
    obtain ⟨s, hs⟩ := halfTickLoop_total
      (h.start fun hnil => hne (by rw [hnil]; rfl)) hfuel
    refine ⟨({ cxt with clks := s.clks, mainClk := s.mainClk }, s.calls), ?_⟩
    rw [Option.map_eq_some_iff]
    exact ⟨s, hs, rfl⟩

theorem clockMainHalfTick_mono {fuel fuel' : Nat} (hle : fuel ≤ fuel') {cxt : ClkCxt}
    {r : ClkCxt × List ClkCall} (h : clockMainHalfTick fuel cxt = some r) :
    clockMainHalfTick fuel' cxt = some r := by
  unfold clockMainHalfTick at h ⊢
  split
  · rename_i hempty
    rw [if_pos hempty] at h
    exact h
  · rename_i hempty
    rw [if_neg hempty] at h
    obtain ⟨s, hs, rfl⟩ := Option.map_eq_some_iff.1 h
    rw [halfTickLoop_mono hle hs, Option.map_some]

/-- Without ticks to consume, and with derived clocks, nothing happens. -/
theorem clockMainHalfTick_stuck {fuel : Nat} {cxt cxt' : ClkCxt} {calls : List ClkCall}
    (hne : cxt.clks ≠ []) (hhalf : cxt.mainClk.halfPeriod.toNat = 0)
    (h : clockMainHalfTick fuel cxt = some (cxt', calls)) : cxt' = cxt ∧ calls = [] := by
  rcases clockMainHalfTick_cases h with ⟨hnil, _⟩ | ⟨_, s, hs, rfl, rfl⟩
  · exact absurd hnil hne
  · have hstop : ¬ (cxt.start.remainingTicks > 0 ∨ cxt.start.rerunLoop) := by
      rintro (hpos | hrerun)
      · have hpos' : 0 < cxt.mainClk.halfPeriod.toNat := BitVec.lt_def.1 hpos
        omega
      · cases hrerun
    cases fuel with
    | zero => cases hs
    | succ fuel =>
      rw [halfTickLoop, if_neg hstop] at hs
      obtain rfl := Option.some.inj hs
      exact ⟨rfl, rfl⟩

/-- Otherwise the main clock has its edge, and nothing else is called for it. -/
theorem clockMainHalfTick_main {fuel : Nat} {cxt cxt' : ClkCxt} {calls : List ClkCall}
    (hready : cxt.Ready) (hgo : cxt.clks = [] ∨ 0 < cxt.mainClk.halfPeriod.toNat)
    (h : clockMainHalfTick fuel cxt = some (cxt', calls)) :
    cxt'.mainClk = cxt.mainClk.flip ∧
      mainCalls cxt.mainClk.clk calls = mainEdge cxt.mainClk := by
  rcases clockMainHalfTick_cases h with ⟨_, rfl, rfl⟩ | ⟨hne, s, hs, rfl, rfl⟩
  · exact ⟨rfl, mainCalls_mainEdge cxt.mainClk⟩
  · have hpos : 0 < cxt.mainClk.halfPeriod.toNat := hgo.resolve_left hne
    exact halfTickLoop_main (hready.start hne) hready.apart rfl hpos rfl hs

/-- What stays of the main clock in any case. -/
theorem clockMainHalfTick_mainClk {fuel : Nat} {cxt cxt' : ClkCxt} {calls : List ClkCall}
    (hready : cxt.Ready) (h : clockMainHalfTick fuel cxt = some (cxt', calls)) :
    cxt'.mainClk.clk = cxt.mainClk.clk ∧ cxt'.mainClk.period = cxt.mainClk.period := by
  by_cases hgo : cxt.clks = [] ∨ 0 < cxt.mainClk.halfPeriod.toNat
  · rw [(clockMainHalfTick_main hready hgo h).1]
    exact ⟨rfl, rfl⟩
  · have hne : cxt.clks ≠ [] := fun hnil => hgo (Or.inl hnil)
    have hzero : cxt.mainClk.halfPeriod.toNat = 0 :=
      Nat.eq_zero_of_not_pos fun hpos => hgo (Or.inr hpos)
    rw [(clockMainHalfTick_stuck hne hzero h).1]
    exact ⟨rfl, rfl⟩

/-- The list still holds the same clocks, and the context is ready for the next half tick. -/
theorem clockMainHalfTick_ready {fuel : Nat} {cxt cxt' : ClkCxt} {calls : List ClkCall}
    (hready : cxt.Ready) (h : clockMainHalfTick fuel cxt = some (cxt', calls)) :
    cxt'.Ready ∧ (cxt'.clks.map (·.clk)).Perm (cxt.clks.map (·.clk)) := by
  obtain ⟨hmainClk, hmainPeriod⟩ := clockMainHalfTick_mainClk hready h
  rcases clockMainHalfTick_cases h with ⟨_, rfl, rfl⟩ | ⟨hne, s, hs, rfl, rfl⟩
  · exact ⟨⟨hready.sorted, hready.nodup, hready.period, hready.settled, hready.apart,
      hready.fresh, hready.mainFresh, hready.mainPeriod⟩, List.Perm.refl _⟩
  · obtain ⟨hinv, hperm, hrerun⟩ := halfTickLoop_inv (hready.start hne) hs
    have hold : ∀ clk ∈ s.clks, ∃ clk₀ ∈ cxt.clks, clk₀.clk = clk.clk := by
      intro clk hclk
      exact List.mem_map.1 (hperm.mem_iff.1 (List.mem_map_of_mem hclk))
    refine ⟨⟨hinv.sorted, hinv.nodup, hinv.period, hinv.settled hrerun, ?_, ?_, ?_, ?_⟩, hperm⟩
    · intro clk hclk
      obtain ⟨clk₀, hclk₀, heq⟩ := hold clk hclk
      rw [hmainClk, ← heq]
      exact hready.apart clk₀ hclk₀
    · intro clk hclk
      obtain ⟨clk₀, hclk₀, heq⟩ := hold clk hclk
      rw [← heq]
      exact hready.fresh clk₀ hclk₀
    · rw [hmainClk]
      exact hready.mainFresh
    · rw [hmainPeriod]
      exact hready.mainPeriod

/-- The half tick, followed for one derived clock. -/
theorem clockMainHalfTick_advances {fuel : Nat} {cxt cxt' : ClkCxt} {calls : List ClkCall}
    (hready : cxt.Ready) (h : clockMainHalfTick fuel cxt = some (cxt', calls)) {clk : Clk}
    (hclk : clk ∈ cxt.clks) :
    ∃ clk' ∈ cxt'.clks, Advances clk clk' cxt.mainClk.halfPeriod.toNat calls := by
  rcases clockMainHalfTick_cases h with ⟨hnil, _⟩ | ⟨hne, s, hs, rfl, rfl⟩
  · rw [hnil] at hclk
    cases hclk
  · obtain ⟨calls, hcalls, clk', hclk', hadv⟩ := halfTickLoop_advances (hready.start hne) hs
      hclk fun heq => hready.apart clk hclk heq.symm
    rw [hcalls]
    exact ⟨clk', hclk', hadv⟩

/-! ## Runs -/

/-- What is done to the clocks between and by half ticks. -/
inductive ClkAct where
  | add (config : Option ClockConfig)
  | remove (clk : Nat)
  | register (clk callback : Nat) (edges : BitVec 32)
  | unregister (handle : Nat)
  | halfTick
  deriving DecidableEq

/-- The actions `acts` take `cxt` to `cxt'`, consume `elapsed` nanoseconds of main clock time
    and make the calls `log`. -/
inductive ClkRun : ClkCxt → List ClkAct → Nat → List ClkCall → ClkCxt → Prop where
  | done (cxt : ClkCxt) : ClkRun cxt [] 0 [] cxt
  | add {cxt cxt' : ClkCxt} {acts : List ClkAct} {elapsed : Nat} {log : List ClkCall}
      (config : Option ClockConfig) :
      ClkRun (clockAdd cxt config).1 acts elapsed log cxt' →
      ClkRun cxt (.add config :: acts) elapsed log cxt'
  | remove {cxt cxt' : ClkCxt} {acts : List ClkAct} {elapsed : Nat} {log : List ClkCall}
      (clk : Nat) :
      ClkRun (clockRemove cxt clk) acts elapsed log cxt' →
      ClkRun cxt (.remove clk :: acts) elapsed log cxt'
  | register {cxt cxt' : ClkCxt} {acts : List ClkAct} {elapsed : Nat} {log : List ClkCall}
      (clk callback : Nat) (edges : BitVec 32) :
      ClkRun (clockRegisterTickEdges cxt clk callback edges).1 acts elapsed log cxt' →
      ClkRun cxt (.register clk callback edges :: acts) elapsed log cxt'
  | unregister {cxt cxt' : ClkCxt} {acts : List ClkAct} {elapsed : Nat} {log : List ClkCall}
      (handle : Nat) :
      ClkRun (clockUnregisterTick cxt handle) acts elapsed log cxt' →
      ClkRun cxt (.unregister handle :: acts) elapsed log cxt'
  | halfTick {cxt cxt₁ cxt' : ClkCxt} {acts : List ClkAct} {elapsed fuel : Nat}
      {calls log : List ClkCall} :
      clockMainHalfTick fuel cxt = some (cxt₁, calls) → ClkRun cxt₁ acts elapsed log cxt' →
      ClkRun cxt (.halfTick :: acts) (cxt.mainClk.halfPeriod.toNat + elapsed) (calls ++ log) cxt'

theorem ClkRun.ready {cxt cxt' : ClkCxt} {acts : List ClkAct} {elapsed : Nat}
    {log : List ClkCall} (h : ClkRun cxt acts elapsed log cxt') : cxt.Ready → cxt'.Ready := by
  induction h with
  | done => exact id
  | add config _ ih => exact fun hready => ih (hready.add config)
  | remove clk _ ih => exact fun hready => ih (hready.remove clk)
  | register clk callback edges _ ih =>
    exact fun hready => ih (hready.register clk callback edges)
  | unregister handle _ ih => exact fun hready => ih (hready.mapCallbacks _)
  | halfTick htick _ ih => exact fun hready => ih (clockMainHalfTick_ready hready htick).1

/-- A clock whose callbacks were rewritten keeps its time. -/
theorem Advances.callbacks {clk clk' : Clk} {elapsed : Nat} {calls : List ClkCall}
    {callbacks : List ClkCbEntry}
    (h : Advances { clk with callbacks := callbacks } clk' elapsed calls) :
    Advances clk clk' elapsed calls :=
  ⟨h.same, h.period, fun hon => h.onTime ⟨hon.phase, hon.timer⟩⟩

/-- A run, followed for one derived clock that is not removed. -/
theorem ClkRun.advances {cxt cxt' : ClkCxt} {acts : List ClkAct} {elapsed : Nat}
    {log : List ClkCall} (h : ClkRun cxt acts elapsed log cxt') :
    ∀ {clk : Clk}, cxt.Ready → clk ∈ cxt.clks → .remove clk.clk ∉ acts →
      ∃ clk' ∈ cxt'.clks, Advances clk clk' elapsed log := by
  induction h with
  | done cxt =>
    intro clk _ hclk _
    exact ⟨clk, hclk, Advances.refl clk⟩
  | @add cxt cxt' acts elapsed log config _ ih =>
    intro clk hready hclk hkept
    refine ih (hready.add config) ?_ fun hin => hkept (List.mem_cons_of_mem _ hin)
    unfold clockAdd
    cases clockAllocClk cxt.nextHandle config with
    | none => exact hclk
    | some new => exact (List.perm_orderedInsert _ _ _).mem_iff.2 (List.mem_cons_of_mem _ hclk)
  | @remove cxt cxt' acts elapsed log other _ ih =>
    -- the clock followed is not the one removed
    intro clk hready hclk hkept
    refine ih (hready.remove other) ?_ fun hin => hkept (List.mem_cons_of_mem _ hin)
    have hne : clk.clk ≠ other := fun heq => hkept (by rw [heq]; exact List.mem_cons_self)
    unfold clockRemove
    split
    · exact hclk
    · exact List.mem_filter.2 ⟨hclk, bne_iff_ne.2 hne⟩
  | register c callback edges _ ih =>
    intro clk hready hclk hkept
    obtain ⟨clk', hclk', hadv⟩ := ih (hready.register c callback edges)
      (List.mem_map_of_mem hclk) fun hin => hkept (List.mem_cons_of_mem _ hin)
    exact ⟨clk', hclk', hadv.callbacks⟩
  | unregister handle _ ih =>
    intro clk hready hclk hkept
    obtain ⟨clk', hclk', hadv⟩ := ih (hready.mapCallbacks _)
      (List.mem_map_of_mem hclk) fun hin => hkept (List.mem_cons_of_mem _ hin)
    exact ⟨clk', hclk', hadv.callbacks⟩
  | halfTick htick _ ih =>
    intro clk hready hclk hkept
    -- the half tick advances it, and the rest of the run goes on from there
    obtain ⟨clk₁, hclk₁, hadv₁⟩ := clockMainHalfTick_advances hready htick hclk
    obtain ⟨clk', hclk', hadv⟩ := ih (clockMainHalfTick_ready hready htick).1 hclk₁
      (by rw [hadv₁.same]; exact fun hin => hkept (List.mem_cons_of_mem _ hin))
    exact ⟨clk', hclk', hadv₁.trans hadv⟩

/-- Of `n` edges in turn, the positive one first, half are negative. -/
theorem count_edgesFrom (n : Nat) : (edgesFrom 0 n).count .negedge = n / 2 := by
  induction n with
  | zero => rfl
  | succ n ih =>
    have hsplit := edgesFrom_append 0 n 1
    rw [Nat.zero_add] at hsplit
    rw [← hsplit, List.count_append, ih]
    rcases Nat.mod_two_eq_zero_or_one n with hn | hn
    · have hnew : (edgesFrom n 1).count .negedge = 0 := by simp [edgesFrom, edgeNumber, hn]
      omega
    · have hnew : (edgesFrom n 1).count .negedge = 1 := by simp [edgesFrom, edgeNumber, hn]
      omega

/-- A derived clock keeps exact time, whatever is done to the other clocks: it has delivered
    the negative edges of all whole periods since it was added, in turn with its positive
    edges, a positive one first; and the next half tick returns. -/
theorem derived_clock_keeps_time {main config : Option ClockConfig} {cxt₀ cxt cxt' : ClkCxt}
    {acts acts' : List ClkAct} {t₀ t : Nat} {log₀ log : List ClkCall} {clk : Clk}
    (hinit : clockInit main = some cxt₀) (hbefore : ClkRun cxt₀ acts t₀ log₀ cxt)
    (halloc : clockAllocClk cxt.nextHandle config = some clk)
    (hrun : ClkRun (clockAdd cxt config).1 acts' t log cxt') (hkept : .remove clk.clk ∉ acts') :
    (edgesOf clk.clk log).count .negedge = t / clk.period.toNat ∧
      (∃ n, edgesOf clk.clk log = edgesFrom 0 n) ∧
      ∃ fuel r, clockMainHalfTick fuel cxt' = some r := by
  have hready : (clockAdd cxt config).1.Ready :=
    (hbefore.ready (clockInit_ready hinit)).add config
  have hready' := hrun.ready hready
  obtain ⟨_, hperiod, hticks, hphase⟩ := clockAllocClk_some halloc
  have hclk : clk ∈ (clockAdd cxt config).1.clks := by
    unfold clockAdd
    rw [halloc]
    exact (List.perm_orderedInsert _ _ _).mem_iff.2 List.mem_cons_self
  have hstart : clk.OnTime 0 0 := by
    refine ⟨hphase, ?_⟩
    have hhalf : clk.ticks.toNat = PeriodicTimer.phaseLength clk.period.toNat 0 := by
      rw [hticks]
      exact BitVec.toNat_udiv
    rw [hhalf]
    exact PeriodicTimer.OnTime.start _
  obtain ⟨clk', hclk', hadv⟩ := hrun.advances hready hclk hkept
  obtain ⟨n, hon, hedges⟩ := hadv.onTime hstart
  rw [Nat.zero_add, Nat.zero_add] at hon
  -- between half ticks no clock owes a negative edge
  have howed : n % 2 = 1 → 0 < clk'.ticks.toNat := by
    intro hodd
    refine Nat.pos_of_ne_zero fun hzero => ?_
    have hidle := hready'.settled clk' hclk' (BitVec.eq_of_toNat_eq hzero)
    rw [hon.phase, hodd] at hidle
    cases hidle
  have hcount := hon.timer.count howed (hready'.period clk' hclk')
  refine ⟨?_, ⟨n, hedges⟩, ?_⟩
  · rw [hedges, count_edgesFrom, hcount, hadv.period]
  · obtain ⟨r, hr⟩ := clockMainHalfTick_total hready' (Nat.lt_succ_self _)
    exact ⟨_, r, hr⟩

/-- A clock configured by its period in nanoseconds. -/
def periodConfig (period : BitVec 32) : Option ClockConfig :=
  some { timingType := .period, timing := period }

/-- A main clock of period `period`. -/
def mainOnly (period : BitVec 32) : ClkCxt :=
  { clks := [], nextHandle := 1
    mainClk := { clk := 0, freq := BitVec.ofNat 32 ((hzNsConvert + period.toNat / 2) / period.toNat)
                 period, ticks := period / 2, curPhase := false, callbacks := [] } }

/-- Half a period of a 4 ns main clock is a period of a 2 ns clock. -/
theorem derived_clock_keeps_time_at_double_speed :
    (edgesOf 1 [.callbacks 1 .posedge [], .callbacks 1 .negedge [],
      .callbacks 0 .posedge []]).count .negedge = 2 / 2 := by
  have hinit : clockInit (periodConfig 4) = some (mainOnly 4) := rfl
  have htick : clockMainHalfTick 10 (clockAdd (mainOnly 4) (periodConfig 2)).1 =
      some ((clockAdd { mainOnly 4 with mainClk := (mainOnly 4).mainClk.flip }
        (periodConfig 2)).1, [.callbacks 1 .posedge [], .callbacks 1 .negedge [],
          .callbacks 0 .posedge []]) := by decide
  have hrun := ClkRun.halfTick htick (.done _)
  exact (derived_clock_keeps_time hinit (.done _) rfl hrun (by decide)).1

/-! ## The main clock -/

/-- The contexts between two ticks, where derived clocks are added and none is removed. What a tick calls
after a removal is also said by `clockMainTick_calls_iff`. -/
inductive TickReachable (config : Option ClockConfig) : ClkCxt → Prop where
  | init {cxt : ClkCxt} : clockInit config = some cxt → TickReachable config cxt
  | add {cxt : ClkCxt} (derived : Option ClockConfig) :
      TickReachable config cxt → TickReachable config (clockAdd cxt derived).1
  | register {cxt : ClkCxt} (clk callback : Nat) (edges : BitVec 32) :
      TickReachable config cxt →
      TickReachable config (clockRegisterTickEdges cxt clk callback edges).1
  | unregister {cxt : ClkCxt} (handle : Nat) :
      TickReachable config cxt → TickReachable config (clockUnregisterTick cxt handle)
  | tick {cxt cxt' : ClkCxt} {fuel : Nat} {calls : List ClkCall} :
      TickReachable config cxt → clockMainTick fuel cxt = some (cxt', calls) →
      TickReachable config cxt'

/-- Half a period of the main clock is some ticks, or there is nothing to interleave. -/
def ClkCxt.Clocked (cxt : ClkCxt) : Prop := 2 ≤ cxt.mainClk.period.toNat ∨ cxt.clks = []

/-- What a tick of the main clock should call for it. -/
def tickCalls (mainClk : Clk) : List ClkCall :=
  [clockMakeCallbacks mainClk false, .mainHlr mainClk.clk .negedge, clockMakeCallbacks mainClk true]

theorem Clk.halfPeriod_inactive {clk : Clk} (h : clk.curPhase = false) :
    clk.halfPeriod.toNat = clk.period.toNat - clk.period.toNat / 2 := by
  have hafter := clk.afterEdge_ticks
  rw [h] at hafter
  unfold Clk.halfPeriod
  unfold Clk.afterEdge at hafter
  rw [h] at hafter ⊢
  exact hafter

theorem Clk.halfPeriod_active {clk : Clk} (h : clk.curPhase = true) :
    clk.halfPeriod.toNat = clk.period.toNat / 2 := by
  unfold Clk.halfPeriod
  rw [h]
  exact BitVec.toNat_udiv

/-- With the main clock clocked, the two half ticks give its two edges. -/
theorem clockMainTick_clocked {fuel : Nat} {cxt cxt' : ClkCxt} {calls : List ClkCall}
    (hready : cxt.Ready) (hgo : cxt.Clocked) (hphase : cxt.mainClk.curPhase = false)
    (h : clockMainTick fuel cxt = some (cxt', calls)) :
    cxt'.mainClk = cxt.mainClk ∧ mainCalls cxt.mainClk.clk calls = tickCalls cxt.mainClk := by
  obtain ⟨⟨cxt₁, calls₁⟩, h₁, hrest⟩ := Option.bind_eq_some_iff.1 h
  obtain ⟨⟨cxt₂, calls₂⟩, h₂, heq⟩ := Option.map_eq_some_iff.1 hrest
  obtain ⟨rfl, rfl⟩ := Prod.mk.inj heq
  obtain ⟨hready₁, hperm⟩ := clockMainHalfTick_ready hready h₁
  have hpos : 0 < cxt.mainClk.halfPeriod.toNat := by
    rw [Clk.halfPeriod_inactive hphase]
    have := hready.mainPeriod
    omega
  obtain ⟨hmain₁, hcalls₁⟩ := clockMainHalfTick_main hready (Or.inr hpos) h₁
  have hphase₁ : cxt₁.mainClk.curPhase = true := by
    rw [hmain₁, Clk.flip, hphase]
    rfl
  -- half a period of two nanoseconds or more is some ticks, in either phase
  have hgo₁ : cxt₁.clks = [] ∨ 0 < cxt₁.mainClk.halfPeriod.toNat := by
    rw [Clk.halfPeriod_active hphase₁, hmain₁]
    rcases hgo with hperiod | hnil
    · refine Or.inr ?_
      show 0 < cxt.mainClk.period.toNat / 2
      omega
    · rw [hnil] at hperm
      exact Or.inl (List.map_eq_nil_iff.1 hperm.eq_nil)
  obtain ⟨hmain₂, hcalls₂⟩ := clockMainHalfTick_main hready₁ hgo₁ h₂
  refine ⟨?_, ?_⟩
  · rw [hmain₂, hmain₁]
    simp [Clk.flip]
  · have hsame : cxt₁.mainClk.clk = cxt.mainClk.clk := by
      rw [hmain₁]
      rfl
    rw [hsame] at hcalls₂
    rw [mainCalls_append, hcalls₁, hcalls₂, hmain₁]
    simp [mainEdge, Clk.flip, hphase, tickCalls, clockMakeCallbacks]

/-- With a period of one nanosecond and a derived clock, the second half tick does nothing. -/
theorem clockMainTick_unclocked {fuel : Nat} {cxt cxt' : ClkCxt} {calls : List ClkCall}
    (hready : cxt.Ready) (hgo : ¬ cxt.Clocked)
    (h : clockMainTick fuel cxt = some (cxt', calls)) :
    (mainCalls cxt.mainClk.clk calls).length < 2 := by
  obtain ⟨⟨cxt₁, calls₁⟩, h₁, hrest⟩ := Option.bind_eq_some_iff.1 h
  obtain ⟨⟨cxt₂, calls₂⟩, h₂, heq⟩ := Option.map_eq_some_iff.1 hrest
  obtain ⟨rfl, rfl⟩ := Prod.mk.inj heq
  have hne : cxt.clks ≠ [] := fun hnil => hgo (Or.inr hnil)
  have hone : cxt.mainClk.period.toNat = 1 := by
    have hpos := hready.mainPeriod
    have hlt : ¬ 2 ≤ cxt.mainClk.period.toNat := fun hle => hgo (Or.inl hle)
    omega
  -- once the active phase is reached, half a period is no ticks
  have hstuck : ∀ {c c' : ClkCxt} {log : List ClkCall}, c.clks ≠ [] →
      c.mainClk.period.toNat = 1 → c.mainClk.curPhase = true →
      clockMainHalfTick fuel c = some (c', log) → c' = c ∧ log = [] := by
    intro c c' log hc hperiod hphase htick
    refine clockMainHalfTick_stuck hc ?_ htick
    rw [Clk.halfPeriod_active hphase, hperiod]
  cases hphase : cxt.mainClk.curPhase with
  | true =>
    obtain ⟨rfl, rfl⟩ := hstuck hne hone hphase h₁
    obtain ⟨_, rfl⟩ := hstuck hne hone hphase h₂
    exact Nat.zero_lt_two
  | false =>
    have hpos : 0 < cxt.mainClk.halfPeriod.toNat := by
      rw [Clk.halfPeriod_inactive hphase]
      omega
    obtain ⟨hmain₁, hcalls₁⟩ := clockMainHalfTick_main hready (Or.inr hpos) h₁
    have hperm := (clockMainHalfTick_ready hready h₁).2
    have hne₁ : cxt₁.clks ≠ [] := by
      intro hnil
      rw [hnil] at hperm
      exact hne (List.map_eq_nil_iff.1 hperm.symm.eq_nil)
    have hphase₁ : cxt₁.mainClk.curPhase = true := by
      rw [hmain₁, Clk.flip, hphase]
      rfl
    obtain ⟨_, rfl⟩ := hstuck hne₁ (by rw [hmain₁]; exact hone) hphase₁ h₂
    rw [List.append_nil, hcalls₁, mainEdge, hphase]
    exact Nat.one_lt_two

/-- In every ready context, with whatever clocks and in either phase, a tick calls for the main clock what it
should, exactly if the main clock is clocked and waits for its positive edge. -/
theorem clockMainTick_calls_iff {fuel : Nat} {cxt cxt' : ClkCxt} {calls : List ClkCall}
    (hready : cxt.Ready) (h : clockMainTick fuel cxt = some (cxt', calls)) :
    mainCalls cxt.mainClk.clk calls = tickCalls cxt.mainClk ↔
      cxt.Clocked ∧ cxt.mainClk.curPhase = false := by
  by_cases hgo : cxt.Clocked
  · cases hphase : cxt.mainClk.curPhase with
    | false => exact iff_of_true (clockMainTick_clocked hready hgo hphase h).2 ⟨hgo, rfl⟩
    | true =>
      refine iff_of_false (fun hcalls => ?_) fun hboth => Bool.noConfusion hboth.2
      obtain ⟨⟨cxt₁, calls₁⟩, h₁, hrest⟩ := Option.bind_eq_some_iff.1 h
      obtain ⟨⟨cxt₂, calls₂⟩, h₂, heq⟩ := Option.map_eq_some_iff.1 hrest
      obtain ⟨rfl, rfl⟩ := Prod.mk.inj heq
      have hgo₁ : cxt.clks = [] ∨ 0 < cxt.mainClk.halfPeriod.toNat := by
        rw [Clk.halfPeriod_active hphase]
        exact hgo.symm.imp_right fun hperiod => by omega
      -- the first half tick begins with the negative edge
      obtain ⟨-, hcalls₁⟩ := clockMainHalfTick_main hready hgo₁ h₁
      rw [mainCalls_append, hcalls₁, mainEdge, hphase] at hcalls
      cases hcalls
  · refine iff_of_false (fun hcalls => ?_) fun hboth => hgo hboth.1
    have hlt := clockMainTick_unclocked hready hgo h
    rw [hcalls] at hlt
    exact absurd hlt (by simp [tickCalls])

theorem clockMainTick_ready {fuel : Nat} {cxt cxt' : ClkCxt} {calls : List ClkCall}
    (hready : cxt.Ready) (h : clockMainTick fuel cxt = some (cxt', calls)) :
    cxt'.Ready ∧ cxt'.mainClk.period = cxt.mainClk.period ∧
      (cxt'.clks.map (·.clk)).Perm (cxt.clks.map (·.clk)) := by
  obtain ⟨⟨cxt₁, calls₁⟩, h₁, hrest⟩ := Option.bind_eq_some_iff.1 h
  obtain ⟨⟨cxt₂, calls₂⟩, h₂, heq⟩ := Option.map_eq_some_iff.1 hrest
  obtain ⟨rfl, rfl⟩ := Prod.mk.inj heq
  obtain ⟨hready₁, hperm₁⟩ := clockMainHalfTick_ready hready h₁
  obtain ⟨hready₂, hperm₂⟩ := clockMainHalfTick_ready hready₁ h₂
  exact ⟨hready₂, (clockMainHalfTick_mainClk hready₁ h₂).2.trans
    (clockMainHalfTick_mainClk hready h₁).2, hperm₂.trans hperm₁⟩

theorem clockMainTick_total {cxt : ClkCxt} (hready : cxt.Ready) :
    ∃ fuel r, clockMainTick fuel cxt = some r := by
  obtain ⟨⟨cxt₁, calls₁⟩, h₁⟩ := clockMainHalfTick_total hready (Nat.lt_succ_self _)
  have hready₁ := (clockMainHalfTick_ready hready h₁).1
  obtain ⟨⟨cxt₂, calls₂⟩, h₂⟩ := clockMainHalfTick_total hready₁ (Nat.lt_succ_self _)
  refine ⟨cxt.start.measure + 1 + (cxt₁.start.measure + 1), (cxt₂, calls₁ ++ calls₂), ?_⟩
  unfold clockMainTick
  rw [clockMainHalfTick_mono (Nat.le_add_right _ _) h₁, Option.bind_some]
  simp only
  rw [clockMainHalfTick_mono (Nat.le_add_left _ _) h₂, Option.map_some]

/-- Between two ticks the context is ready, and the main clock waits for its positive edge
    as long as it is clocked. -/
theorem TickReachable.ready {config : Option ClockConfig} {cxt : ClkCxt}
    (h : TickReachable config cxt) :
    cxt.Ready ∧ (cxt.Clocked → cxt.mainClk.curPhase = false) := by
  induction h with
  | init hinit =>
    refine ⟨clockInit_ready hinit, fun _ => ?_⟩
    obtain ⟨mainClk, hmain, rfl⟩ := Option.map_eq_some_iff.1 hinit
    exact (clockAllocClk_some hmain).2.2.2
  | @add cxt derived _ ih =>
    refine ⟨ih.1.add derived, fun hgo => ?_⟩
    unfold clockAdd at hgo ⊢
    cases halloc : clockAllocClk cxt.nextHandle derived with
    | none =>
      rw [halloc] at hgo
      exact ih.2 hgo
    | some clk =>
      rw [halloc] at hgo
      -- the new clock is in the list, so the period is what makes it clocked
      refine ih.2 (Or.inl (hgo.resolve_right fun hnil => ?_))
      have hlen := (List.perm_orderedInsert Clk.le clk cxt.clks).length_eq
      rw [show cxt.clks.orderedInsert Clk.le clk = [] from hnil] at hlen
      cases hlen
  | register clk callback edges _ ih =>
    refine ⟨ih.1.register clk callback edges, fun hgo => ?_⟩
    refine ih.2 (hgo.imp_right fun hnil => ?_)
    exact List.map_eq_nil_iff.1 hnil
  | unregister handle _ ih =>
    refine ⟨ih.1.mapCallbacks _, fun hgo => ?_⟩
    refine ih.2 (hgo.imp_right fun hnil => ?_)
    exact List.map_eq_nil_iff.1 hnil
  | tick _ htick ih =>
    obtain ⟨hready, hperiod, hperm⟩ := clockMainTick_ready ih.1 htick
    refine ⟨hready, fun hgo => ?_⟩
    -- the clocks and the period are as before the tick
    have hgo₀ : ClkCxt.Clocked _ := hgo.imp (fun hle => hperiod ▸ hle) fun hnil => by
      rw [hnil] at hperm
      exact List.map_eq_nil_iff.1 hperm.symm.eq_nil
    rw [(clockMainTick_clocked ih.1 hgo₀ (ih.2 hgo₀) htick).1]
    exact ih.2 hgo₀

/-- A tick returns, and it gives the main clock its positive edge, the CPU its call and the
    main clock its negative edge, each once and in this order, exactly if the period of the
    main clock is at least two nanoseconds or there are no derived clocks. -/
theorem main_clock_ticked_once {config : Option ClockConfig} {cxt : ClkCxt}
    (h : TickReachable config cxt) :
    (∃ fuel r, clockMainTick fuel cxt = some r) ∧
      ∀ fuel cxt' calls, clockMainTick fuel cxt = some (cxt', calls) →
        (mainCalls cxt.mainClk.clk calls = tickCalls cxt.mainClk ↔
          2 ≤ cxt.mainClk.period.toNat ∨ cxt.clks = []) := by
  obtain ⟨hready, hphase⟩ := h.ready
  refine ⟨clockMainTick_total hready, fun fuel cxt' calls htick => ?_⟩
  rw [clockMainTick_calls_iff hready htick]
  exact ⟨fun h => h.1, fun hgo => ⟨hgo, hphase hgo⟩⟩

theorem main_clock_ticked_once_with_two_clocks :
    mainCalls 0 [.callbacks 1 .posedge [], .callbacks 1 .negedge [], .callbacks 0 .posedge [],
        .callbacks 1 .posedge [], .callbacks 1 .negedge [], .mainHlr 0 .negedge,
        .callbacks 0 .negedge []] =
      tickCalls (mainOnly 4).mainClk := by
  have hreach : TickReachable (periodConfig 4) (clockAdd (mainOnly 4) (periodConfig 2)).1 :=
    .add (periodConfig 2) (.init rfl)
  have htick : clockMainTick 10 (clockAdd (mainOnly 4) (periodConfig 2)).1 =
      some ((clockAdd (mainOnly 4) (periodConfig 2)).1,
        [.callbacks 1 .posedge [], .callbacks 1 .negedge [], .callbacks 0 .posedge [],
          .callbacks 1 .posedge [], .callbacks 1 .negedge [], .mainHlr 0 .negedge,
          .callbacks 0 .negedge []]) := by decide
  exact ((main_clock_ticked_once hreach).2 _ _ _ htick).2 (Or.inl (by decide))

/-- A main clock at CLOCK_MAX_FREQUENCY and a derived clock of 2 ns: the first tick gives the
    main clock its positive edge, the next one nothing, and the CPU is not called. -/
theorem one_ns_main_clock_stops :
    let fastest : Option ClockConfig := some { timingType := .freq, timing := 1000000000 }
    let cxt := (clockAdd (mainOnly 1) (periodConfig 2)).1
    TickReachable fastest cxt ∧
      (clockMainTick 10 cxt).map (fun r => mainCalls 0 r.2) =
        some [.callbacks 0 .posedge []] ∧
      ((clockMainTick 10 cxt).bind fun r => clockMainTick 10 r.1).map
        (fun r => mainCalls 0 r.2) = some [] := by
  refine ⟨?_, by decide, by decide⟩
  exact .add (periodConfig 2) (.init (by decide))

end Cb6502
