import Mathlib.Data.List.Sort
/- The clocks of the emulator (clock.c): the main clock and the list of derived clocks, kept
   sorted by the time to their next edge. A half tick of the main clock runs all derived
   clocks that are due before it. What the callbacks do is not part of this module: a call is
   recorded in a log, and no callback adds or removes a clock.

   A handle (`clk_t`, `clock_cb_handle_t`) is the number of the structure behind it; numbers are
   given out in order and not used again. Memory allocation does not fail. -/
namespace Cb6502

/-- CLOCK_MAX_FREQUENCY -/
def clockMaxFrequency : Nat := 1000000000

/-- HZ_NS_CONVERT -/
def hzNsConvert : Nat := 1000000000

/-- clock_timing_type_t -/
inductive ClockTimingType where
  | freq
  | period
  deriving DecidableEq, Repr

/-- clock_edge_t -/
inductive ClockEdge where
  | posedge
  | negedge
  deriving DecidableEq, Repr

/-- The value of the enumerator, a bit of an edge mask. -/
def ClockEdge.bit : ClockEdge → BitVec 32
  | .posedge => 0x01#32
  | .negedge => 0x02#32

/-- clock_config_t. The union `timing` is one value, a frequency or a period. -/
structure ClockConfig where
  timingType : ClockTimingType
  timing : BitVec 32
  deriving DecidableEq, Repr

/-- clk_cb_entry_t; `callback` names the function and its user data. -/
structure ClkCbEntry where
  handle : Nat
  callback : Nat
  edges : BitVec 32
  deriving DecidableEq, Repr

/-- struct clk_s -/
structure Clk where
  clk : Nat
  freq : BitVec 32
  period : BitVec 32
  ticks : BitVec 32
  curPhase : Bool
  callbacks : List ClkCbEntry
  deriving DecidableEq, Repr

/-- clk_cxt_t, with the number of the next structure to be allocated. -/
structure ClkCxt where
  clks : List Clk
  mainClk : Clk
  nextHandle : Nat
  deriving DecidableEq, Repr

/-- A call made by a half tick: the internal handler of the main clock, or the registered
    callbacks of a clock for one edge. -/
inductive ClkCall where
  | mainHlr (clk : Nat) (edge : ClockEdge)
  | callbacks (clk : Nat) (edge : ClockEdge) (entries : List ClkCbEntry)
  deriving DecidableEq, Repr

/-! ## Clock structures -/

/-- clock_alloc_clk -/
def clockAllocClk (clk : Nat) (config : Option ClockConfig) : Option Clk :=
  match config with
  | none => none
  | some config =>
    if config.timing = 0 ∨
        (config.timingType = .freq ∧ config.timing.toNat > clockMaxFrequency) then none
    else
      let (freq, period) := match config.timingType with
        | .period =>
          (BitVec.ofNat 32 ((hzNsConvert + config.timing.toNat / 2) / config.timing.toNat),
            config.timing)
        | .freq =>
          (config.timing,
            BitVec.ofNat 32 ((hzNsConvert + config.timing.toNat / 2) / config.timing.toNat))
      some { clk, freq, period, ticks := period / 2, curPhase := false, callbacks := [] }

/-- clock_make_callbacks -/
def clockMakeCallbacks (clk : Clk) (activeEdge : Bool) : ClkCall :=
  let edge : ClockEdge := if activeEdge then .negedge else .posedge
  .callbacks clk.clk edge (clk.callbacks.filter fun entry => entry.edges &&& edge.bit != 0)

/-- clock_init -/
def clockInit (config : Option ClockConfig) : Option ClkCxt :=
  (clockAllocClk 0 config).map fun mainClk => { clks := [], mainClk, nextHandle := 1 }

/-- The order of the list of derived clocks. -/
def Clk.le (a b : Clk) : Prop := a.ticks ≤ b.ticks

instance : DecidableRel Clk.le := fun a b => inferInstanceAs (Decidable (a.ticks ≤ b.ticks))

/-- clock_add: the new clock goes before the first one with at least as many ticks left. -/
def clockAdd (cxt : ClkCxt) (config : Option ClockConfig) : ClkCxt × Option Nat :=
  match clockAllocClk cxt.nextHandle config with
  | none => (cxt, none)
  | some clk =>
    ({ cxt with
        clks := cxt.clks.orderedInsert Clk.le clk
        nextHandle := cxt.nextHandle + 1 }, some clk.clk)

/-- clock_remove; the main clock stays. -/
def clockRemove (cxt : ClkCxt) (clk : Nat) : ClkCxt :=
  if clk = cxt.mainClk.clk then cxt
  else { cxt with clks := cxt.clks.filter fun c => c.clk != clk }

/-- The callback list of every clock rewritten by `f`. -/
def ClkCxt.mapCallbacks (cxt : ClkCxt) (f : Nat → List ClkCbEntry → List ClkCbEntry) :
    ClkCxt :=
  let update (c : Clk) : Clk := { c with callbacks := f c.clk c.callbacks }
  { cxt with clks := cxt.clks.map update, mainClk := update cxt.mainClk }

/-- clock_register_tick_edges: a new entry at the tail of the clock's list. -/
def clockRegisterTickEdges (cxt : ClkCxt) (clk callback : Nat) (edges : BitVec 32) :
    ClkCxt × Nat :=
  let entry : ClkCbEntry := { handle := cxt.nextHandle, callback, edges }
  let add (c : Nat) (callbacks : List ClkCbEntry) :=
    if c = clk then callbacks ++ [entry] else callbacks
  ({ cxt.mapCallbacks add with nextHandle := cxt.nextHandle + 1 }, cxt.nextHandle)

/-- clock_register_tick -/
def clockRegisterTick (cxt : ClkCxt) (clk callback : Nat) : ClkCxt × Nat :=
  clockRegisterTickEdges cxt clk callback ClockEdge.negedge.bit

/-- clock_unregister_tick -/
def clockUnregisterTick (cxt : ClkCxt) (handle : Nat) : ClkCxt :=
  cxt.mapCallbacks fun _ callbacks => callbacks.filter fun entry => entry.handle != handle

/-! ## The half tick -/

/-- The locals and the context of clock_main_half_tick in its loop. -/
structure HalfTick where
  clks : List Clk
  mainClk : Clk
  remainingTicks : BitVec 32
  rerunLoop : Bool
  mainTicked : Bool
  calls : List ClkCall

/-- The head of the list after its edge. -/
def Clk.afterEdge (clk : Clk) : Clk :=
  { clk with
    ticks := if clk.curPhase then clk.period / 2 else clk.period - clk.period / 2
    curPhase := !clk.curPhase }

/-- The calls of an edge of the main clock. -/
def mainEdge (mainClk : Clk) : List ClkCall :=
  (if mainClk.curPhase then [.mainHlr mainClk.clk .negedge] else []) ++
    [clockMakeCallbacks mainClk mainClk.curPhase]

/-- The walk over the list that takes the consumed ticks from every clock and puts the head
    clock back. Also returned is whether some walked clock is down to zero ticks. -/
def walkClks (ticksToConsume : BitVec 32) : Option Clk → List Clk → List Clk × Bool
  | none, [] => ([], false)
  | some headClk, [] => ([headClk], false)
  | headClk?, entry :: rest =>
    let entry := { entry with ticks := entry.ticks - ticksToConsume }
    let rerunLoop := entry.ticks == 0
    match headClk? with
    | some headClk =>
      if entry.ticks ≥ headClk.ticks then
        let (clks, rerun) := walkClks ticksToConsume none rest
        (headClk :: entry :: clks, rerunLoop || rerun)
      else
        let (clks, rerun) := walkClks ticksToConsume (some headClk) rest
        (entry :: clks, rerunLoop || rerun)
    | none =>
      let (clks, rerun) := walkClks ticksToConsume none rest
      (entry :: clks, rerunLoop || rerun)

/-- One pass of the loop of clock_main_half_tick. -/
def halfTickBody (s : HalfTick) : Option HalfTick :=
  match s.clks with
  | [] => none
  | head :: rest =>
    let (headClk, clks, ticksToConsume, headCalls) :=
      if s.remainingTicks ≥ head.ticks then
        (some head.afterEdge, rest, head.ticks, [clockMakeCallbacks head head.curPhase])
      else (none, head :: rest, s.remainingTicks, [])
    let (mainClk, mainTicked, mainCalls) :=
      if ticksToConsume == s.remainingTicks && !s.mainTicked then
        ({ s.mainClk with curPhase := !s.mainClk.curPhase }, true, mainEdge s.mainClk)
      else (s.mainClk, s.mainTicked, [])
    let (clks, rerunLoop) := walkClks ticksToConsume headClk clks
    some { clks, mainClk, rerunLoop, mainTicked
           remainingTicks := s.remainingTicks - ticksToConsume
           calls := s.calls ++ headCalls ++ mainCalls }

/-- The loop of clock_main_half_tick, within `fuel` passes. -/
def halfTickLoop : Nat → HalfTick → Option HalfTick
  | 0, _ => none
  | fuel + 1, s =>
    if s.remainingTicks > 0 ∨ s.rerunLoop then (halfTickBody s).bind (halfTickLoop fuel)
    else some s

/-- The ticks of one half of the main clock: the rest of the period before a positive edge,
    half of it before a negative one. -/
def Clk.halfPeriod (mainClk : Clk) : BitVec 32 :=
  if mainClk.curPhase then mainClk.period / 2 else mainClk.period - mainClk.period / 2

/-- clock_main_half_tick -/
def clockMainHalfTick (fuel : Nat) (cxt : ClkCxt) : Option (ClkCxt × List ClkCall) :=
  if cxt.clks.isEmpty then
    some ({ cxt with mainClk := { cxt.mainClk with curPhase := !cxt.mainClk.curPhase } },
      mainEdge cxt.mainClk)
  else
    (halfTickLoop fuel
      { clks := cxt.clks, mainClk := cxt.mainClk, remainingTicks := cxt.mainClk.halfPeriod
        rerunLoop := false, mainTicked := false, calls := [] }).map fun s =>
      ({ cxt with clks := s.clks, mainClk := s.mainClk }, s.calls)

/-- clock_main_tick -/
def clockMainTick (fuel : Nat) (cxt : ClkCxt) : Option (ClkCxt × List ClkCall) :=
  (clockMainHalfTick fuel cxt).bind fun (cxt, calls) =>
    (clockMainHalfTick fuel cxt).map fun (cxt, calls') => (cxt, calls ++ calls')

end Cb6502
