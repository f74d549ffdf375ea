import Cb6502.Cycle
import Cb6502.ClockRuns
import Cb6502.Breakpoints
import Cb6502.Lib.Phase

/- The debugger's run control (core/src/debugger.c): `debug_step`, `debug_next`, `debug_run`,
   `debug_finish` and `debug_break`. The loops of the source take fuel here; `none` means that
   the fuel ran out.

   `emu_tick` calls the CPU once, between the callbacks of the clocks (`performCalls_tick`). What
   these and the other threads do to the bus, and when a break is requested, is the `World`, a
   function of the number of ticks so far. -/
namespace Cb6502

variable {ω : Type}

/-- `BREAKPOINT_HANDLE_SW_REQUEST` -/
def breakpointHandleSwRequest : BitVec 32 := 0xffffffff

/-- What happens in a tick besides the CPU's cycle. -/
structure World (ω : Type) where
  before : Nat → Bus ω → Bus ω
  after : Nat → Bus ω → Bus ω
  breaks : Nat → Bool

/-- `struct debug_s` with its emulator. `ticks` is the number of ticks so far. -/
structure Session (ω : Type) where
  dbg : Debug
  emu : Emu ω
  swBreak : Bool
  ticks : Nat

/-- The emulator when the CPU is called in the next tick. -/
def Session.tickStart (w : World ω) (s : Session ω) : Emu ω :=
  { s.emu with bus := w.before s.ticks s.emu.bus }

/-- `emu_tick` -/
def emuTick (w : World ω) (fuel : Nat) (s : Session ω) : Option (Session ω) :=
  (cpuTick fuel (s.tickStart w)).map fun emu =>
    { s with
      emu := { emu with bus := w.after s.ticks emu.bus }
      swBreak := s.swBreak || w.breaks s.ticks
      ticks := s.ticks + 1 }

/-! ## The calls of the clocks -/

/-- What the callbacks of an edge do to the bus. -/
def runCallbacks (callback : Nat → ClockEdge → Bus ω → Bus ω) (edge : ClockEdge)
    (entries : List ClkCbEntry) (bus : Bus ω) : Bus ω :=
  entries.foldl (fun bus entry => callback entry.callback edge bus) bus

/-- A call made by the clocks. `main_clock_handler` is `cpu_tick`; `callback` is what the
registered functions do to the bus. -/
def ClkCall.perform (callback : Nat → ClockEdge → Bus ω → Bus ω) (fuel : Nat) (emu : Emu ω) :
    ClkCall → Option (Emu ω)
  | .mainHlr _ _ => cpuTick fuel emu
  | .callbacks _ edge entries => some { emu with bus := runCallbacks callback edge entries emu.bus }

/-- The calls in order. -/
def performCalls (callback : Nat → ClockEdge → Bus ω → Bus ω) (fuel : Nat) :
    List ClkCall → Emu ω → Option (Emu ω)
  | [], emu => some emu
  | call :: calls, emu => (call.perform callback fuel emu).bind (performCalls callback fuel calls)

/-- A call of `main_clock_handler`. -/
def ClkCall.isHandler : ClkCall → Bool
  | .mainHlr _ _ => true
  | .callbacks _ _ _ => false

section
variable (callback : Nat → ClockEdge → Bus ω → Bus ω) {calls : List ClkCall}

theorem performCalls_quiet (h : calls.countP ClkCall.isHandler = 0) :
    ∃ after : Bus ω → Bus ω, ∀ fuel emu,
      performCalls callback fuel calls emu = some { emu with bus := after emu.bus } := by
  induction calls with
  | nil => exact ⟨id, fun _ _ => rfl⟩
  | cons call calls ih =>
    cases call with
    | mainHlr c edge =>
      rw [List.countP_cons_of_pos rfl] at h
      omega
    | callbacks c edge entries =>
      rw [List.countP_cons_of_neg (by simp [ClkCall.isHandler])] at h
      obtain ⟨after, hafter⟩ := ih h
      exact ⟨fun bus => after (runCallbacks callback edge entries bus), fun fuel emu => hafter fuel _⟩

theorem performCalls_once (h : calls.countP ClkCall.isHandler = 1) :
    ∃ before after : Bus ω → Bus ω, ∀ fuel emu, performCalls callback fuel calls emu =
      (cpuTick fuel { emu with bus := before emu.bus }).map fun emu =>
        { emu with bus := after emu.bus } := by
  induction calls with
  | nil => cases h
  | cons call calls ih =>
    cases call with
    | mainHlr c edge =>
      rw [List.countP_cons_of_pos rfl] at h
      obtain ⟨after, hafter⟩ := performCalls_quiet callback (Nat.succ.inj h)
      refine ⟨id, after, fun fuel emu => ?_⟩
      show (cpuTick fuel emu).bind _ = (cpuTick fuel emu).map _
      cases cpuTick fuel emu with
      | none => rfl
      | some emu' => exact hafter fuel emu'
    | callbacks c edge entries =>
      rw [List.countP_cons_of_neg (by simp [ClkCall.isHandler])] at h
      obtain ⟨before, after, hrest⟩ := ih h
      exact ⟨fun bus => before (runCallbacks callback edge entries bus), after, fun fuel emu => hrest fuel _⟩

/-- A tick that has the edges of the main clock once calls the CPU once, between changes of the
bus. -/
theorem performCalls_tick {mainClk : Clk} (h : mainCalls mainClk.clk calls = tickCalls mainClk) :
    ∃ before after : Bus ω → Bus ω, ∀ fuel emu, performCalls callback fuel calls emu =
      (cpuTick fuel { emu with bus := before emu.bus }).map fun emu =>
        { emu with bus := after emu.bus } := by
  apply performCalls_once
  have hcount : (mainCalls mainClk.clk calls).countP ClkCall.isHandler =
      calls.countP ClkCall.isHandler := by
    rw [mainCalls, List.countP_filter]
    apply List.countP_congr
    intro call _
    cases call <;> simp [ClkCall.isHandler]
  rw [← hcount, h]
  rfl

end

/-- The loop in `debug_step_i`. -/
def debugStepLoop (w : World ω) (tickFuel : Nat) : Nat → Session ω → Option (Session ω)
  | 0, _ => none
  | fuel + 1, s =>
    (emuTick w tickFuel s).bind fun s =>
      if s.emu.cpu.opState = .opcode then some s else debugStepLoop w tickFuel fuel s

/-- `debug_step_i` -/
def debugStepI (w : World ω) (fuel : Nat) (s : Session ω) : Option (Session ω) :=
  debugStepLoop w fuel fuel s

/-- The search in `dbg_eval_breakpoints`. -/
def Debug.breakpointAt (handle : Debug) (pc : BitVec 16) : Option (Fin maxBreakpoints) :=
  (List.finRange maxBreakpoints).find? fun i =>
    (handle.breakpoints i).used && (handle.breakpoints i).addr == pc

/-- `dbg_eval_breakpoints`; a null `bphandle` is `none`. -/
def dbgEvalBreakpoints (handle : Debug) (pc : BitVec 16) (bphandle : Option (BitVec 32)) :
    Bool × Option (BitVec 32) :=
  match handle.breakpointAt pc with
  | some i => (true, bphandle.map fun _ => BitVec.ofNat 32 i)
  | none => (false, bphandle)

/-- The loop in `debug_next` and what follows it. -/
def debugNextLoop (w : World ω) (stepFuel : Nat) (nextPc : BitVec 16) :
    Nat → BitVec 16 → Option (BitVec 32) → Session ω → Option (Bool × Option (BitVec 32) × Session ω)
  | 0, _, _, _ => none
  | fuel + 1, pc, breakpointHit, s =>
    if s.swBreak = false ∧ nextPc ≠ s.emu.cpu.regs.pc then
      (debugStepI w stepFuel s).bind fun s =>
        match dbgEvalBreakpoints s.dbg pc breakpointHit with
        | (true, breakpointHit) => some (true, breakpointHit, s)
        | (false, breakpointHit) =>
          debugNextLoop w stepFuel nextPc fuel s.emu.cpu.regs.pc breakpointHit s
    else if s.swBreak then some (true, breakpointHit.map fun _ => breakpointHandleSwRequest, s)
    else some (false, breakpointHit, s)

/-- `debug_next`: what it returns, `*breakpoint_hit` after it, and the session. -/
def debugNext (w : World ω) (fuel : Nat) (s : Session ω) (breakpointHit : Option (BitVec 32)) :
    Option (Bool × Option (BitVec 32) × Session ω) :=
  let (isSubroutine, emu) := cpuIsSubroutine s.emu
  let s := { s with emu }
  if isSubroutine then
    let pc := s.emu.cpu.regs.pc
    debugNextLoop w fuel (pc + 3) fuel pc breakpointHit { s with swBreak := false }
  else (debugStepI w fuel s).map fun s => (false, breakpointHit, s)

/-- `debug_step` -/
def debugStep (w : World ω) (fuel : Nat) (s : Session ω) : Option (Session ω) := debugStepI w fuel s

/-- The loop in `debug_run` and what follows it. -/
def debugRunLoop (w : World ω) (stepFuel : Nat) :
    Nat → Option (BitVec 32) → Session ω → Option (Option (BitVec 32) × Session ω)
  | 0, _, _ => none
  | fuel + 1, breakpointHit, s =>
    if s.swBreak = false then
      match dbgEvalBreakpoints s.dbg s.emu.cpu.regs.pc breakpointHit with
      | (true, breakpointHit) => some (breakpointHit, s)
      | (false, breakpointHit) =>
        (debugStepI w stepFuel s).bind (debugRunLoop w stepFuel fuel breakpointHit)
    else some (breakpointHit.map fun _ => breakpointHandleSwRequest, s)

/-- `debug_run` -/
def debugRun (w : World ω) (fuel : Nat) (s : Session ω) (breakpointHit : Option (BitVec 32)) :
    Option (Option (BitVec 32) × Session ω) :=
  debugRunLoop w fuel fuel breakpointHit { s with swBreak := false }

/-- `debug_break` -/
def debugBreak (s : Session ω) : Session ω := { s with swBreak := true }

/-- The count of `debug_finish` for one opcode: `is_ret` and `subroutine_count`. -/
def countOpcode (opcode : BitVec 8) (isRet : Bool) (subroutineCount : BitVec 32) : Bool × BitVec 32 :=
  if opcode = 0x20 then (isRet, subroutineCount + 1)
  else if opcode = 0x40 ∨ opcode = 0x60 then
    if 0 < subroutineCount then (isRet, subroutineCount - 1) else (true, subroutineCount)
  else (isRet, subroutineCount)

/-- The loop in `debug_finish` and what follows it. -/
def debugFinishLoop (w : World ω) (stepFuel : Nat) :
    Nat → Bool → BitVec 32 → Option (BitVec 32) → Session ω →
      Option (Bool × Option (BitVec 32) × Session ω)
  | 0, _, _, _, _ => none
  | fuel + 1, isRet, subroutineCount, breakpointHit, s =>
    if isRet = false ∧ s.swBreak = false then
      let pc := s.emu.cpu.regs.pc
      match dbgEvalBreakpoints s.dbg pc breakpointHit with
      | (true, breakpointHit) => some (true, breakpointHit, s)
      | (false, breakpointHit) =>
        let (opcode, bus) := busPeek s.emu.bus pc
        let (isRet, subroutineCount) := countOpcode opcode isRet subroutineCount
        (debugStepI w stepFuel { s with emu.bus := bus }).bind
          (debugFinishLoop w stepFuel fuel isRet subroutineCount breakpointHit)
    else
      match breakpointHit with
      | some _ =>
        if s.swBreak then some (true, some breakpointHandleSwRequest, s)
        else some (false, breakpointHit, s)
      | none => some (false, none, s)

/-- `debug_finish` -/
def debugFinish (w : World ω) (fuel : Nat) (s : Session ω) (breakpointHit : Option (BitVec 32)) :
    Option (Bool × Option (BitVec 32) × Session ω) :=
  debugFinishLoop w fuel fuel false 0 breakpointHit s

/-! ## Steps -/

variable {w : World ω}

/-- `debug_step_i` leads from `s` to `t`. -/
def Steps (w : World ω) (s t : Session ω) : Prop := ∃ fuel, debugStepI w fuel s = some t

theorem emuTick_mono {fuel : Nat} (k : Nat) {s t : Session ω} (h : emuTick w fuel s = some t) :
    emuTick w (fuel + k) s = some t := by
  obtain ⟨emu, htick, rfl⟩ := Option.map_eq_some_iff.mp h
  exact Option.map_eq_some_iff.mpr ⟨emu, cpuTick_mono fuel k _ emu htick, rfl⟩

theorem debugStepLoop_mono {tickFuel fuel : Nat} (j k : Nat) {s t : Session ω}
    (h : debugStepLoop w tickFuel fuel s = some t) :
    debugStepLoop w (tickFuel + j) (fuel + k) s = some t := by
  induction fuel generalizing s with
  | zero => cases h
  | succ fuel ih =>
    rw [Nat.add_right_comm]
    obtain ⟨u, htick, hrest⟩ := Option.bind_eq_some_iff.mp h
    refine Option.bind_eq_some_iff.mpr ⟨u, emuTick_mono j htick, ?_⟩
    by_cases hboundary : u.emu.cpu.opState = .opcode
    · rw [if_pos hboundary] at hrest ⊢
      exact hrest
    · rw [if_neg hboundary] at hrest ⊢
      exact ih hrest

theorem debugStepI_mono {fuel fuel' : Nat} (hle : fuel ≤ fuel') {s t : Session ω}
    (h : debugStepI w fuel s = some t) : debugStepI w fuel' s = some t := by
  obtain ⟨k, rfl⟩ := Nat.exists_eq_add_of_le hle
  exact debugStepLoop_mono k k h

/-- What a step leaves of the session besides the emulator. -/
structure StepEnd (s t : Session ω) : Prop where
  dbg : t.dbg = s.dbg
  ticks : s.ticks < t.ticks
  boundary : t.emu.cpu.opState = .opcode
  swBreak : s.swBreak = true → t.swBreak = true

theorem emuTick_frame {fuel : Nat} {s t : Session ω} (h : emuTick w fuel s = some t) :
    t.dbg = s.dbg ∧ t.ticks = s.ticks + 1 ∧ (s.swBreak = true → t.swBreak = true) := by
  obtain ⟨emu, -, rfl⟩ := Option.map_eq_some_iff.mp h
  refine ⟨rfl, rfl, fun hbreak => ?_⟩
  show (s.swBreak || w.breaks s.ticks) = true
  rw [hbreak, Bool.true_or]

theorem debugStepLoop_frame {tickFuel fuel : Nat} {s t : Session ω}
    (h : debugStepLoop w tickFuel fuel s = some t) : StepEnd s t := by
  induction fuel generalizing s with
  | zero => cases h
  | succ fuel ih =>
    obtain ⟨u, htick, hrest⟩ := Option.bind_eq_some_iff.mp h
    obtain ⟨hdbg, hticks, hbreak⟩ := emuTick_frame htick
    by_cases hboundary : u.emu.cpu.opState = .opcode
    · rw [if_pos hboundary] at hrest
      obtain rfl := Option.some.inj hrest
      exact ⟨hdbg, by omega, hboundary, hbreak⟩
    · rw [if_neg hboundary] at hrest
      have hend := ih hrest
      have hlt := hend.ticks
      exact ⟨hend.dbg.trans hdbg, by omega, hend.boundary, fun h => hend.swBreak (hbreak h)⟩

theorem Steps.frame {s t : Session ω} (h : Steps w s t) : StepEnd s t := by
  obtain ⟨fuel, hstep⟩ := h
  exact debugStepLoop_frame hstep

/-- No break is requested before a step that ends without one. -/
theorem Steps.unbroken {s t : Session ω} (h : Steps w s t) (ht : t.swBreak = false) :
    s.swBreak = false := by
  by_contra hs
  rw [h.frame.swBreak (by simpa using hs)] at ht
  cases ht

theorem clocked_steps (w : World ω) : Phase.Clocked (Steps w) Session.ticks := by
  refine ⟨?_, fun h => h.frame.ticks⟩
  rintro s t t' ⟨fuel, h⟩ ⟨fuel', h'⟩
  have hmono := debugStepI_mono (Nat.le_max_left fuel fuel') h
  rw [debugStepI_mono (Nat.le_max_right fuel fuel') h'] at hmono
  exact (Option.some.inj hmono).symm

end Cb6502
