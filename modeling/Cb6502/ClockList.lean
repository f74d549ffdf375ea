import Cb6502.ClockRuns

/- The list of derived clocks (core/src/clock.c) over every sequence of clocks added and removed and
   of half ticks. The clocks that should be in the list are kept beside the context (`ClkListed`).

   What is proved:
     1. `HalfTick.Reaches.loop`, `halfTickLoop_reaches` (the states that the loop goes through).
     2. `halfTickBody_subtracts` (where a pass of the loop subtracts `ticksToConsume`), and
        `HalfTick.Inv.noUnderflow` (what it is subtracted from is no less).
     3. `ClkListed.ready` (the list between two operations).
     4. `clock_list_disciplined` (the list is sorted and holds the clocks added and not removed, no
        subtraction of the loop underflows, and the loop ends). -/
namespace Cb6502

/-! ## The passes of a half tick -/

/-- `ticksToConsume` of a pass. -/
def HalfTick.ticksToConsume (s : HalfTick) : BitVec 32 :=
  match s.clks with
  | [] => 0
  | head :: _ => if s.remainingTicks ≥ head.ticks then head.ticks else s.remainingTicks

/-- The entries that the walk of a pass takes them from: a head clock that has its edge is out of
the list. -/
def HalfTick.walked (s : HalfTick) : List Clk :=
  match s.clks with
  | [] => []
  | head :: rest => if s.remainingTicks ≥ head.ticks then rest else head :: rest

/-- No subtraction of a pass underflows. -/
structure HalfTick.NoUnderflow (s : HalfTick) : Prop where
  remaining : s.ticksToConsume ≤ s.remainingTicks
  entries : ∀ entry ∈ s.walked, s.ticksToConsume ≤ entry.ticks

theorem halfTickBody_subtracts {s s' : HalfTick} (h : halfTickBody s = some s') :
    s'.remainingTicks = s.remainingTicks - s.ticksToConsume ∧
    ∃ headClk, (s'.clks, s'.rerunLoop) = walkClks s.ticksToConsume headClk s.walked := by
  unfold HalfTick.ticksToConsume HalfTick.walked
  unfold halfTickBody at h
  cases hclks : s.clks with
  | nil =>
    rw [hclks] at h
    exact nomatch h
  | cons head rest =>
    rw [hclks] at h
    by_cases hedge : s.remainingTicks ≥ head.ticks
    · simp only [if_pos hedge] at h ⊢
      obtain rfl := Option.some.inj h
      exact ⟨rfl, _, rfl⟩
    · simp only [if_neg hedge] at h ⊢
      obtain rfl := Option.some.inj h
      exact ⟨rfl, _, rfl⟩

/-- The head clock has the fewest ticks. -/
theorem HalfTick.Inv.noUnderflow {s : HalfTick} (h : s.Inv) : s.NoUnderflow := by
  cases hclks : s.clks with
  | nil => exact absurd hclks h.clocks
  | cons head rest =>
    have hsorted := h.sorted
    rw [hclks] at hsorted
    have hleast := head_least hsorted
    have hconsume : s.ticksToConsume =
        if s.remainingTicks ≥ head.ticks then head.ticks else s.remainingTicks := by
      rw [ticksToConsume, hclks]
    have hwalked : s.walked = if s.remainingTicks ≥ head.ticks then rest else head :: rest := by
      rw [walked, hclks]
    by_cases hedge : s.remainingTicks ≥ head.ticks
    · rw [if_pos hedge] at hconsume hwalked
      refine ⟨hconsume ▸ hedge, fun entry hentry => ?_⟩
      rw [hwalked] at hentry
      rw [hconsume]
      exact BitVec.le_def.2 (hleast entry (List.mem_cons_of_mem _ hentry))
    · rw [if_neg hedge] at hconsume hwalked
      refine ⟨hconsume ▸ BitVec.le_refl _, fun entry hentry => ?_⟩
      rw [hwalked] at hentry
      rw [hconsume]
      have hlt : s.remainingTicks.toNat < head.ticks.toNat := BitVec.not_le.1 hedge
      exact BitVec.le_def.2 (Nat.le_of_lt (Nat.lt_of_lt_of_le hlt (hleast entry hentry)))

/-- The states that the loop comes back to. -/
inductive HalfTick.Reaches (s : HalfTick) : HalfTick → Prop where
  | start : Reaches s s
  | pass {s₁ s₂ : HalfTick} (h : Reaches s s₁) (hgo : s₁.remainingTicks > 0 ∨ s₁.rerunLoop)
      (hbody : halfTickBody s₁ = some s₂) : Reaches s s₂

/-- The loop is at every one of them on its way to its end. -/
theorem HalfTick.Reaches.loop {fuel : Nat} {s s' r : HalfTick} (h : s.Reaches s')
    (hloop : halfTickLoop fuel s = some r) : ∃ fuel', halfTickLoop fuel' s' = some r := by
  induction h with
  | start => exact ⟨fuel, hloop⟩
  | @pass s₁ s₂ _ hgo hbody ih =>
    obtain ⟨fuel', hrest⟩ := ih
    cases fuel' with
    | zero => cases hrest
    | succ fuel' =>
      rw [halfTickLoop, if_pos hgo, hbody, Option.bind_some] at hrest
      exact ⟨fuel', hrest⟩

/-- Its end is one of them, and one at which it does not go on. -/
theorem halfTickLoop_reaches {fuel : Nat} {s s' r : HalfTick} (hs : s.Reaches s')
    (h : halfTickLoop fuel s' = some r) : s.Reaches r ∧ ¬(r.remainingTicks > 0 ∨ r.rerunLoop) := by
  induction fuel generalizing s' with
  | zero => cases h
  | succ fuel ih =>
    rw [halfTickLoop] at h
    by_cases hgo : s'.remainingTicks > 0 ∨ s'.rerunLoop
    · rw [if_pos hgo] at h
      obtain ⟨s₂, hbody, hrest⟩ := Option.bind_eq_some_iff.1 h
      exact ih (.pass hs hgo hbody) hrest
    · rw [if_neg hgo] at h
      obtain rfl := Option.some.inj h
      exact ⟨hs, hgo⟩

theorem HalfTick.Reaches.inv {s s' : HalfTick} (h : s.Reaches s') (hinv : s.Inv) : s'.Inv := by
  induction h with
  | start => exact hinv
  | @pass s₁ s₂ _ _ hbody ih =>
    obtain ⟨s₃, hbody', hpass⟩ := halfTickBody_pass ih
    obtain rfl := Option.some.inj (hbody.symm.trans hbody')
    exact ih.pass hpass

/-! ## The operations -/

/-- The context is reached with the clocks `live` added and not removed. Callbacks are registered
and unregistered in between. -/
inductive ClkListed (config : Option ClockConfig) : ClkCxt → List Nat → Prop where
  | init {cxt : ClkCxt} (h : clockInit config = some cxt) : ClkListed config cxt []
  | add {cxt : ClkCxt} {live : List Nat} (derived : Option ClockConfig)
      (h : ClkListed config cxt live) :
      ClkListed config (clockAdd cxt derived).1 (live ++ (clockAdd cxt derived).2.toList)
  | remove {cxt : ClkCxt} {live : List Nat} (clk : Nat) (h : ClkListed config cxt live) :
      ClkListed config (clockRemove cxt clk) (live.filter fun c => c != clk)
  | register {cxt : ClkCxt} {live : List Nat} (clk callback : Nat) (edges : BitVec 32)
      (h : ClkListed config cxt live) :
      ClkListed config (clockRegisterTickEdges cxt clk callback edges).1 live
  | unregister {cxt : ClkCxt} {live : List Nat} (handle : Nat) (h : ClkListed config cxt live) :
      ClkListed config (clockUnregisterTick cxt handle) live
  | halfTick {cxt cxt' : ClkCxt} {live : List Nat} {fuel : Nat} {calls : List ClkCall}
      (h : ClkListed config cxt live) (htick : clockMainHalfTick fuel cxt = some (cxt', calls)) :
      ClkListed config cxt' live

theorem mapCallbacks_clks (cxt : ClkCxt) (f : Nat → List ClkCbEntry → List ClkCbEntry) :
    (cxt.mapCallbacks f).clks.map (·.clk) = cxt.clks.map (·.clk) := by
  simp [ClkCxt.mapCallbacks, Function.comp_def]

theorem clockAdd_clks (cxt : ClkCxt) (config : Option ClockConfig) :
    ((clockAdd cxt config).1.clks.map (·.clk)).Perm
      (cxt.clks.map (·.clk) ++ (clockAdd cxt config).2.toList) := by
  unfold clockAdd
  cases clockAllocClk cxt.nextHandle config with
  | none => simp
  | some clk =>
    have hperm := (List.perm_orderedInsert Clk.le clk cxt.clks).map (·.clk)
    exact hperm.trans (List.perm_append_singleton _ _).symm

theorem clockRemove_clks {cxt : ClkCxt} (hready : cxt.Ready) (clk : Nat) :
    (clockRemove cxt clk).clks.map (·.clk) = (cxt.clks.map (·.clk)).filter fun c => c != clk := by
  unfold clockRemove
  split
  · rename_i hmain
    -- the main clock is not in the list
    have hall : ∀ c ∈ cxt.clks.map (·.clk), (c != clk) = true := by
      intro c hc
      obtain ⟨entry, hentry, rfl⟩ := List.mem_map.1 hc
      have hne : entry.clk ≠ clk := hmain ▸ hready.apart entry hentry
      exact bne_iff_ne.2 hne
    exact (List.filter_eq_self.2 hall).symm
  · rw [List.filter_map]
    rfl

theorem ClkListed.ready {config : Option ClockConfig} {cxt : ClkCxt} {live : List Nat}
    (h : ClkListed config cxt live) : cxt.Ready ∧ (cxt.clks.map (·.clk)).Perm live := by
  induction h with
  | init hinit =>
    refine ⟨clockInit_ready hinit, ?_⟩
    obtain ⟨mainClk, -, rfl⟩ := Option.map_eq_some_iff.1 hinit
    exact List.Perm.refl _
  | add derived _ ih =>
    exact ⟨ih.1.add derived, (clockAdd_clks _ derived).trans (ih.2.append_right _)⟩
  | remove clk _ ih =>
    refine ⟨ih.1.remove clk, ?_⟩
    rw [clockRemove_clks ih.1]
    exact ih.2.filter _
  | @register cxt live clk callback edges _ ih =>
    refine ⟨ih.1.register clk callback edges, ?_⟩
    have hsame : (clockRegisterTickEdges cxt clk callback edges).1.clks.map (·.clk) =
        cxt.clks.map (·.clk) := by
      simp [clockRegisterTickEdges, mapCallbacks_clks]
    rw [hsame]
    exact ih.2
  | unregister handle _ ih =>
    refine ⟨ih.1.mapCallbacks _, ?_⟩
    exact (List.Perm.of_eq (mapCallbacks_clks _ _)).trans ih.2
  | halfTick _ htick ih =>
    obtain ⟨hready, hperm⟩ := clockMainHalfTick_ready ih.1 htick
    exact ⟨hready, hperm.trans ih.2⟩

/-- What holds between two operations, and within a half tick made there. -/
structure ClkDisciplined (cxt : ClkCxt) (live : List Nat) : Prop where
  sorted : cxt.clks.Pairwise Clk.le
  clocks : (cxt.clks.map (·.clk)).Perm live
  once : (cxt.clks.map (·.clk)).Nodup
  noUnderflow : cxt.clks ≠ [] → ∀ s, cxt.start.Reaches s → s.NoUnderflow
  ends : ∃ fuel r, clockMainHalfTick fuel cxt = some r

theorem clock_list_disciplined {config : Option ClockConfig} {cxt : ClkCxt} {live : List Nat}
    (h : ClkListed config cxt live) : ClkDisciplined cxt live := by
  obtain ⟨hready, hperm⟩ := h.ready
  refine ⟨hready.sorted, hperm, hready.nodup, fun hne s hs => ?_, ?_⟩
  · exact (hs.inv (hready.start hne)).noUnderflow
  · exact ⟨_, clockMainHalfTick_total hready (Nat.lt_succ_self _)⟩

/-- Clocks of 4, 6 and 10 ns under a main clock of 4 ns. -/
def threeClocks : ClkCxt :=
  let cxt := (clockAdd (mainOnly 4) (periodConfig 4)).1
  let cxt := (clockAdd cxt (periodConfig 6)).1
  (clockAdd cxt (periodConfig 10)).1

/-- A half tick puts the first one behind the second; then it is removed. -/
theorem threeClocks_disciplined : threeClocks.clks.map (·.clk) = [1, 2, 3] ∧ ∃ cxt calls,
    clockMainHalfTick 20 threeClocks = some (cxt, calls) ∧
    cxt.clks.map (·.clk) = [2, 1, 3] ∧ ClkDisciplined (clockRemove cxt 1) [2, 3] := by
  have hadded : ClkListed (periodConfig 4) threeClocks [1, 2, 3] :=
    .add (periodConfig 10) (.add (periodConfig 6) (.add (periodConfig 4) (.init rfl)))
  have horder : (clockMainHalfTick 20 threeClocks).map (fun r => r.1.clks.map (·.clk)) =
      some [2, 1, 3] := by decide
  obtain ⟨⟨cxt, calls⟩, htick, hclks⟩ := Option.map_eq_some_iff.1 horder
  refine ⟨by decide, cxt, calls, htick, hclks, ?_⟩
  exact clock_list_disciplined (.remove 1 (.halfTick hadded htick))

end Cb6502
