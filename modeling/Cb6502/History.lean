import Cb6502.Agreement
import Cb6502.Interrupt

/- Two CPUs at an instruction boundary with the same registers, memory and votes, and any
   history. The next instruction is one program (`instruction`, and `cpuStep_ram`: it is
   what `cpu_step` runs). `Agreement` has the two programs make the same requests as long as
   the page-boundary flags agree where they are read; where they are read and differ the two
   take a different number of ticks, unless the instruction's own indexing crosses a page
   and sets the flag first (`history_independent`). -/
namespace Cb6502
open Dialogue

variable {ω ω' : Type} {R : Ram ω} {R' : Ram ω'}

/-! ## An instruction as a program -/

/-- Cycles until the next boundary, at most `n`, with their number. -/
def instructionFrom : Nat → Cpu → BusM (Nat × Cpu)
  | 0, cpu => return (0, cpu)
  | n + 1, cpu =>
    if cpu.opState = .opcode then return (0, cpu)
    else do
      let cpu ← cycle cpu
      let (k, cpu) ← instructionFrom n cpu.clearCycle
      return (k + 1, cpu)

/-- The next instruction, or the interrupt sequence in its place. -/
def instruction (v : SigVotes) (cpu : Cpu) : BusM (Nat × Cpu) := do
  let cpu ← tickProg v cpu.clearCycle
  let (k, cpu) ← instructionFrom 6 cpu.clearCycle
  return (k + 1, cpu)

/-- The loop of `cpu_step`, with the cycles it can need as its fuel. -/
theorem cpuStepLoop_instructionFrom (n elapsed : Nat) (emu : Emu ω) (hram : emu.bus.OnRam R)
    (hrdy : emu.bus.sigvotes.rdy = 0) (hfresh : emu.cpu.ctl.fresh = true)
    (hclear : emu.cpu.cycleConsumed = false) (hn : emu.cpu.ctl.ticksLeft ≤ n) :
    ∃ k e, ((instructionFrom n emu.cpu).run busEnv emu.bus) = ((k, e.cpu), e.bus) ∧
      cpuStepLoop 4 (n + 1) elapsed emu = some (elapsed + k, e) ∧ e.cpu.opState = .opcode := by
  induction n generalizing elapsed emu with
  | zero =>
    have hs : emu.cpu.opState = .opcode := by
      refine Decidable.byContradiction ?_
      intro hoff
      have := ticksLeft_pos emu hfresh hoff
      omega
    exact ⟨0, emu, rfl, by rw [cpuStepLoop, if_pos hs]; rfl, hs⟩
  | succ n ih =>
    by_cases hs : emu.cpu.opState = .opcode
    · exact ⟨0, emu, by rw [instructionFrom, if_pos hs]; rfl, by rw [cpuStepLoop, if_pos hs]; rfl, hs⟩
    · have hend := tickEnd_tick emu hfresh hrdy
      have hless := hend.nearer hs
      obtain ⟨hram', -, hvotes⟩ := core_tick hram hrdy
      have hack : emu.bus.ackNmi emu.cpu = emu.bus := if_neg hs
      have hrun : emu.tick =
          { bus := ((cycle emu.cpu).run busEnv emu.bus).2
            cpu := ((cycle emu.cpu).run busEnv emu.bus).1.clearCycle } := by
        rw [tick_unstalled emu hrdy, Emu.tickRun, Cpu.clearCycle_of_clear hclear,
          tickProg_inside _ _ hs, hack]
      obtain ⟨k, e, hprog, hloop, he⟩ := ih (elapsed + 1) emu.tick hram'
        (by rw [hvotes, hack]; exact hrdy) hend.fresh (by rw [hrun]; rfl) (by omega)
      refine ⟨k + 1, e, ?_, ?_, he⟩
      · rw [hrun] at hprog
        rw [instructionFrom, if_neg hs, Prog.run_bind, Prog.run_bind, hprog]
        rfl
      · rw [cpuStepLoop, if_neg hs, cpuTick_eq 0 emu hfresh, Option.bind_some, hloop]
        rw [Nat.add_assoc, Nat.add_comm 1 k]

/-- `cpu_step` from a boundary runs the instruction. -/
theorem cpuStep_instruction (emu : Emu ω) (hram : emu.bus.OnRam R)
    (hrdy : emu.bus.sigvotes.rdy = 0) (hs : emu.cpu.opState = .opcode) :
    ∃ k e, ((instruction emu.bus.sigvotes emu.cpu).run busEnv (emu.bus.ackNmi emu.cpu)) =
        ((k, e.cpu), e.bus) ∧
      cpuStep 4 7 emu = some (BitVec.ofNat 8 k, e) ∧ e.cpu.opState = .opcode := by
  have hfresh := fresh_of_boundary hs
  have hend := tickEnd_tick emu hfresh hrdy
  obtain ⟨hram', -, hvotes⟩ := core_tick hram hrdy
  have hrdy' : emu.tick.bus.sigvotes.rdy = 0 := by
    rw [hvotes, Bus.ackNmi, if_pos hs]
    exact hrdy
  have hrun := tick_unstalled emu hrdy
  obtain ⟨k, e, hprog, hloop, he⟩ := cpuStepLoop_instructionFrom 6 1 emu.tick hram' hrdy' hend.fresh
    (by rw [hrun]; rfl) (hend.started hs)
  refine ⟨k + 1, e, ?_, ?_, he⟩
  · rw [hrun] at hprog
    rw [instruction, Prog.run_bind, Prog.run_bind, ← Emu.tickRun, hprog]
    rfl
  · rw [cpuStep, if_pos hs, cpuTick_eq 0 emu hfresh, Option.bind_some, hloop, Nat.add_comm 1 k]
    rfl

/-- `cpu_step` on a RAM: what it does is decided by the votes, the CPU and the bytes. -/
theorem cpuStep_ram (emu : Emu ω) (hram : emu.bus.OnRam R) (hrdy : emu.bus.sigvotes.rdy = 0)
    (hs : emu.cpu.opState = .opcode) :
    ∃ e s, (instruction emu.bus.sigvotes emu.cpu).run ramEnv ⟨R.mem emu.bus.devs, []⟩ =
        ((s, e.cpu), (⟨R.mem e.bus.devs, e.bus.trace.drop emu.bus.trace.length⟩ : RamState)) ∧
      cpuStep 4 7 emu = some (BitVec.ofNat 8 s, e) ∧ e.cpu.opState = .opcode := by
  obtain ⟨k, e, hprog, hstep, he⟩ := cpuStep_instruction emu hram hrdy hs
  obtain ⟨hres, hafter⟩ := (hram.ackNmi emu.cpu).run (instruction emu.bus.sigvotes emu.cpu)
  rw [hprog, Bus.ackNmi_devs] at hres hafter
  refine ⟨e, k, ?_, hstep, he⟩
  have htrace := hafter.trace
  rw [Bus.ackNmi_trace] at htrace
  dsimp only at htrace hres
  rw [htrace, List.drop_left, hafter.mem]
  exact Prod.ext hres.symm rfl

/-! ## Agreement over an instruction -/

theorem instructionFrom_agrees (n : Nat) {c c' : Cpu} (h : Agree c c') :
    Prog.Match (fun r r' => r.1 = r'.1 ∧ Agree r.2 r'.2) (instructionFrom n c)
      (instructionFrom n c') := by
  induction n generalizing c c' with
  | zero => exact ⟨rfl, h⟩
  | succ n ih =>
    unfold instructionFrom
    rw [← h.opState, Prog.match_ite]
    refine ⟨fun _ => ⟨rfl, h⟩, fun _ => ?_⟩
    refine Prog.Match.bind (cycle_agrees h) ?_
    intro d d' hd
    refine Prog.Match.bind (ih hd.clearCycle) ?_
    rintro r r' ⟨hk, hr⟩
    exact ⟨congrArg (· + 1) hk, hr⟩

/-- The number of ticks, the registers and the RAM after a run. -/
structure SameOutcome (x y : (Nat × Cpu) × RamState) : Prop where
  ticks : x.1.1 = y.1.1
  regs : x.1.2.regs = y.1.2.regs
  ram : x.2 = y.2

/-- CPUs that agree on what is live go through the rest of the instruction alike. -/
theorem sameOutcome_of_agree (n : Nat) {c c' : Cpu} (h : Agree c c') (s : RamState) :
    SameOutcome ((instructionFrom n c).run ramEnv s) ((instructionFrom n c').run ramEnv s) := by
  have hsim : Prog.Simulates ramEnv ramEnv Eq := by
    refine ⟨?_, ?_⟩
    · rintro q s t rfl
      exact ⟨rfl, rfl⟩
    · rintro c s t rfl
      rfl
  obtain ⟨⟨hk, hagree⟩, hs⟩ := hsim.run (instructionFrom_agrees n h) (rfl : s = s)
  exact ⟨hk, hagree.regs, hs⟩

/-! ## The first cycles -/

/-- `n` cycles lead from `c` on the RAM `s` to `d` on `t`, with no boundary before. -/
def Leads (n : Nat) (c : Cpu) (s : RamState) (d : Cpu) (t : RamState) : Prop :=
  ∀ j, (instructionFrom (j + n) c).run ramEnv s =
    ((((instructionFrom j d).run ramEnv t).1.1 + n, ((instructionFrom j d).run ramEnv t).1.2),
      ((instructionFrom j d).run ramEnv t).2)

theorem Leads.refl (c : Cpu) (s : RamState) : Leads 0 c s c s := fun _ => rfl

theorem Leads.step {n : Nat} {c c' d : Cpu} {s s' t : RamState} (hs : c.opState ≠ .opcode)
    (hrun : (cycle c).run ramEnv s = (c', s')) (h : Leads n c'.clearCycle s' d t) :
    Leads (n + 1) c s d t := by
  intro j
  rw [← Nat.add_assoc, instructionFrom, if_neg hs, Prog.run_bind, Prog.run_bind, hrun, h j]
  rfl

/-- Adding the index `idx` to `base` leaves the page. -/
def crosses (base : BitVec 16) (idx : BitVec 8) : Bool := page base != page (base + u16 idx)

/-- The RAM after a read. -/
def RamState.read (s : RamState) (addr : BitVec 16) : RamState :=
  { s with log := s.log ++ [⟨addr, s.mem addr, false, false⟩] }

section
variable (c : Cpu) (s : RamState)

theorem run_absIndexed0 {idx : CpuRegs → BitVec 8}
    (hmode : addrHandlers (addrtable c.opcode) = absIndexed idx) (hs : c.opState = .param0) :
    (cycle c).run ramEnv s =
      ({ c with
          ea := u16 (s.mem c.regs.pc), regs.pc := c.regs.pc + 1, opState := .param1
          cycleConsumed := true }, s.read c.regs.pc) := by
  simp [cycle, cycleFrom, handler, hs, hmode, absIndexed, advanceState, ramEnv, RamState.read]

theorem run_absIndexed1 {idx : CpuRegs → BitVec 8}
    (hmode : addrHandlers (addrtable c.opcode) = absIndexed idx) (hs : c.opState = .param1) :
    (cycle c).run ramEnv s =
      (if crosses (c.ea ||| (u16 (s.mem c.regs.pc) <<< 8)) (idx c.regs) then
        { c with
          ea := (c.ea ||| (u16 (s.mem c.regs.pc) <<< 8)) + u16 (idx c.regs), pageBoundary := true
          opState := .param2, cycleConsumed := true }
      else
        { c with
          ea := (c.ea ||| (u16 (s.mem c.regs.pc) <<< 8)) + u16 (idx c.regs)
          regs.pc := c.regs.pc + 1, opState := .op0, cycleConsumed := true },
        s.read c.regs.pc) := by
  unfold crosses
  by_cases h : page (c.ea ||| (u16 (s.mem c.regs.pc) <<< 8)) =
      page ((c.ea ||| (u16 (s.mem c.regs.pc) <<< 8)) + u16 (idx c.regs))
  · simp [cycle, cycleFrom, handler, hs, hmode, absIndexed, advanceState, ramEnv, RamState.read, ← h]
  · simp [cycle, cycleFrom, handler, hs, hmode, absIndexed, advanceState, ramEnv, RamState.read, h]

theorem run_indy0 (hmode : addrtable c.opcode = .indy) (hs : c.opState = .param0) :
    (cycle c).run ramEnv s =
      ({ c with
          tmpval := u16 (s.mem c.regs.pc), regs.pc := c.regs.pc + 1, opState := .param1
          cycleConsumed := true }, s.read c.regs.pc) := by
  simp [cycle, cycleFrom, handler, hs, hmode, addrHandlers, indy, advanceState, ramEnv, RamState.read]

theorem run_indy1 (hmode : addrtable c.opcode = .indy) (hs : c.opState = .param1) :
    (cycle c).run ramEnv s =
      ({ c with
          ea := u16 (s.mem c.tmpval), tmpval := (c.tmpval + 1) &&& 0x00FF, opState := .param2
          cycleConsumed := true }, s.read c.tmpval) := by
  simp [cycle, cycleFrom, handler, hs, hmode, addrHandlers, indy, advanceState, ramEnv, RamState.read]

theorem run_indy2 (hmode : addrtable c.opcode = .indy) (hs : c.opState = .param2) :
    (cycle c).run ramEnv s =
      (if crosses (c.ea ||| (u16 (s.mem c.tmpval) <<< 8)) c.regs.y then
        { c with
          ea := (c.ea ||| (u16 (s.mem c.tmpval) <<< 8)) + u16 c.regs.y, pageBoundary := true
          opState := .param3, cycleConsumed := true }
      else
        { c with
          ea := (c.ea ||| (u16 (s.mem c.tmpval) <<< 8)) + u16 c.regs.y
          opState := .op0, cycleConsumed := true },
        s.read c.tmpval) := by
  unfold crosses
  by_cases h : page (c.ea ||| (u16 (s.mem c.tmpval) <<< 8)) =
      page ((c.ea ||| (u16 (s.mem c.tmpval) <<< 8)) + u16 c.regs.y)
  · simp [cycle, cycleFrom, handler, hs, hmode, addrHandlers, indy, advanceState, ramEnv,
      RamState.read, ← h]
  · simp [cycle, cycleFrom, handler, hs, hmode, addrHandlers, indy, advanceState, ramEnv,
      RamState.read, h]

/-- The CPU after the operand cycles of an indexed mode: at the handler, or, when the index
leaves the page, in the state `fix` with the flag set. -/
def indexed (c : Cpu) (base : BitVec 16) (idx : BitVec 8) (pc : BitVec 16) (fix : OpState) : Cpu :=
  if crosses base idx then
    { c with ea := base + u16 idx, pageBoundary := true, opState := fix }
  else { c with ea := base + u16 idx, regs.pc := pc, opState := .op0 }

omit s in
theorem indexed_stays (base : BitVec 16) (idx : BitVec 8) (pc : BitVec 16) (fix : OpState)
    (h : crosses base idx = false) :
    (indexed c base idx pc fix).opState = .op0 ∧
      (indexed c base idx pc fix).cycleConsumed = c.cycleConsumed ∧
      (indexed c base idx pc fix).opcode = c.opcode ∧
      (indexed c base idx pc fix).pageBoundary = c.pageBoundary := by
  rw [indexed, h, if_neg Bool.false_ne_true]
  exact ⟨rfl, rfl, rfl, rfl⟩

variable {c s} (hs : c.opState = .param0) (hc : c.cycleConsumed = false)
include hs hc

theorem absIndexed_leads {idx : CpuRegs → BitVec 8} (hidx : ∀ r pc, idx { r with pc } = idx r)
    (hmode : addrHandlers (addrtable c.opcode) = absIndexed idx) :
    Leads 2 c s
      (indexed { c with regs.pc := c.regs.pc + 1 } (s.mem.word c.regs.pc) (idx c.regs)
        (c.regs.pc + 1 + 1) .param2)
      ((s.read c.regs.pc).read (c.regs.pc + 1)) := by
  refine .step (by rw [hs]; nofun) (run_absIndexed0 c s hmode hs) ?_
  refine .step nofun (run_absIndexed1 _ _ (by exact hmode) rfl) ?_
  have hbase : u16 (s.mem c.regs.pc) ||| (u16 (s.mem (c.regs.pc + 1)) <<< 8) = s.mem.word c.regs.pc :=
    rfl
  simp only [Cpu.clearCycle, RamState.read, hbase, hidx, indexed]
  by_cases hcross : crosses (s.mem.word c.regs.pc) (idx c.regs) = true
  · simp only [hcross, if_true, hc]
    exact .refl _ _
  · simp only [hcross, hc]
    exact .refl _ _

/-- The base address of a `(zp),y` operand whose pointer is at `ptr`. -/
def zpWord (m : Mem) (ptr : BitVec 16) : BitVec 16 := joinBytes (m ptr) (m ((ptr + 1) &&& 0x00FF))

theorem indy_leads (hmode : addrtable c.opcode = .indy) :
    Leads 3 c s
      (indexed
        { c with
          regs.pc := c.regs.pc + 1
          tmpval := (u16 (s.mem c.regs.pc) + 1) &&& 0x00FF }
        (zpWord s.mem (u16 (s.mem c.regs.pc))) c.regs.y (c.regs.pc + 1) .param3)
      (((s.read c.regs.pc).read (u16 (s.mem c.regs.pc))).read
        ((u16 (s.mem c.regs.pc) + 1) &&& 0x00FF)) := by
  refine .step (by rw [hs]; nofun) (run_indy0 c s hmode hs) ?_
  refine .step nofun (run_indy1 _ _ (by exact hmode) rfl) ?_
  refine .step nofun (run_indy2 _ _ (by exact hmode) rfl) ?_
  have hbase : u16 (s.mem (u16 (s.mem c.regs.pc))) |||
      (u16 (s.mem ((u16 (s.mem c.regs.pc) + 1) &&& 0x00FF)) <<< 8) =
        zpWord s.mem (u16 (s.mem c.regs.pc)) := rfl
  simp only [Cpu.clearCycle, RamState.read, hbase, indexed]
  by_cases hcross : crosses (zpWord s.mem (u16 (s.mem c.regs.pc))) c.regs.y = true
  · simp only [hcross, if_true, hc]
    exact .refl _ _
  · simp only [hcross, hc]
    exact .refl _ _

end

/-! ## The flag decides the ticks -/

/-- The opcodes that read the page-boundary flag: `sta`, `stz`, `dec` and `inc` with an
indexed address. -/
def indexedWrites : List (BitVec 8) := [0x91, 0x99, 0x9D, 0x9E, 0xDE, 0xFE]

theorem usesPageBoundary_iff (opcode : BitVec 8) :
    usesPageBoundary opcode = true ↔ opcode ∈ indexedWrites := by
  revert opcode
  decide +kernel

section
variable {c : Cpu} (s : RamState) (hs : c.opState = .op0) (hc : c.cycleConsumed = false)
include hs hc

omit hc in
/-- `stz` is one cycle with the flag set, and two without. -/
theorem ticks_stz (hop : optable c.opcode = .stz) (hmode : addrtable c.opcode = .absx) (j : Nat) :
    ((instructionFrom (j + 2) c).run ramEnv s).1.1 = if c.pageBoundary then 1 else 2 := by
  cases hpb : c.pageBoundary with
  | true =>
    simp [instructionFrom, cycle, cycleFrom, handler, hs, hop, ops, stz, store, hpb, putvalue, hmode,
      advanceState, Cpu.clearCycle]
  | false =>
    simp [instructionFrom, cycle, cycleFrom, handler, hs, hop, ops, stz, store, hpb, putvalue, hmode,
      advanceState, Cpu.clearCycle]
    cases j <;> simp [instructionFrom]

omit hc in
/-- So is `sta`, with an indirect address as well. -/
theorem ticks_sta (hop : optable c.opcode = .sta)
    (hmode : addrtable c.opcode = .absx ∨ addrtable c.opcode = .absy ∨ addrtable c.opcode = .indy)
    (j : Nat) :
    ((instructionFrom (j + 2) c).run ramEnv s).1.1 = if c.pageBoundary then 1 else 2 := by
  rcases hmode with hmode | hmode | hmode <;> cases hpb : c.pageBoundary
  all_goals
    simp [instructionFrom, cycle, cycleFrom, handler, hs, hop, ops, sta, store, hpb, putvalue, hmode,
      advanceState, Cpu.clearCycle]
  all_goals cases j <;> simp [instructionFrom]

/-- `dec` and `inc` are three cycles with the flag set, and four without. -/
theorem ticks_incDec (f : BitVec 16 → BitVec 16) (hop : ops (optable c.opcode) = incDec f)
    (hmode : addrtable c.opcode = .absx) (j : Nat) :
    ((instructionFrom (j + 4) c).run ramEnv s).1.1 = if c.pageBoundary then 3 else 4 := by
  cases hpb : c.pageBoundary
  all_goals
    simp [instructionFrom, cycle, cycleFrom, handler, hs, hop, incDec, hpb, putvalue, getvalue, hmode,
      advanceState, Cpu.clearCycle, hc]
  cases j <;> simp [instructionFrom]

end

/-- The indexing of the instruction at `pc` leaves the page of its base address. -/
def crossesPage (m : Mem) (r : CpuRegs) : Bool :=
  match addrtable (m r.pc) with
  | .absx => crosses (m.word (r.pc + 1)) r.x
  | .absy => crosses (m.word (r.pc + 1)) r.y
  | .indy => crosses (zpWord m (u16 (m (r.pc + 1)))) r.y
  | _ => false

theorem indexedWrites_table : ∀ opcode : BitVec 8, opcode ∈ indexedWrites →
    (optable opcode = .sta ∧
      (addrtable opcode = .absx ∨ addrtable opcode = .absy ∨ addrtable opcode = .indy)) ∨
    (optable opcode = .stz ∧ addrtable opcode = .absx) ∨
    (optable opcode = .dec ∧ addrtable opcode = .absx) ∨
    (optable opcode = .inc ∧ addrtable opcode = .absx) := by
  decide +kernel

/-- The ticks these opcodes take with the flag set before their handler. -/
def writeTicks (opcode : BitVec 8) : Nat :=
  match optable opcode with
  | .dec | .inc => 6
  | _ => if addrtable opcode = .indy then 5 else 4

/-- The CPU after the fetch of `opcode`. -/
def Cpu.fetched (c : Cpu) (opcode : BitVec 8) : Cpu :=
  { c with opcode, regs.pc := c.regs.pc + 1, opState := .param0, cycleConsumed := false }

/-- The RAM after the fetch at `pc`. -/
def fetchedRam (m : Mem) (pc : BitVec 16) : RamState := ⟨m, [⟨pc, m pc, false, true⟩]⟩

section
variable {v : SigVotes} {c : Cpu} {m : Mem} (hs : c.opState = .opcode)
include hs

theorem instruction_fetch (hint : intTaken v c.regs = false) :
    (instruction v c).run ramEnv ⟨m, []⟩ =
      ((((instructionFrom 6 (c.fetched (m c.regs.pc))).run ramEnv (fetchedRam m c.regs.pc)).1.1 + 1,
        ((instructionFrom 6 (c.fetched (m c.regs.pc))).run ramEnv (fetchedRam m c.regs.pc)).1.2),
        ((instructionFrom 6 (c.fetched (m c.regs.pc))).run ramEnv (fetchedRam m c.regs.pc)).2) := by
  simp only [intTaken, Bool.or_eq_false_iff] at hint
  obtain ⟨hn, hirq⟩ := hint
  have hfirst : (tickProg v c.clearCycle).run ramEnv ⟨m, []⟩ =
      ({ c with
          opcode := m c.regs.pc, regs.pc := c.regs.pc + 1, opState := .param0
          cycleConsumed := true }, fetchedRam m c.regs.pc) := by
    simp [tickProg, hs, hn, hirq, fetch, ramEnv, fetchedRam, Cpu.clearCycle]
  rw [instruction, Prog.run_bind, Prog.run_bind, hfirst]
  rfl

/-- The cycles of an interrupt sequence do not look at the history. -/
theorem instruction_interrupt (hint : intTaken v c.regs = true) :
    (instruction v c).run ramEnv ⟨m, []⟩ =
      ((((instructionFrom 6 { c with vecSrc := intSource v, opState := .vec1, cycleConsumed := false }).run
          ramEnv (RamState.read ⟨m, []⟩ c.regs.pc)).1.1 + 1,
        ((instructionFrom 6 { c with vecSrc := intSource v, opState := .vec1, cycleConsumed := false }).run
          ramEnv (RamState.read ⟨m, []⟩ c.regs.pc)).1.2),
        ((instructionFrom 6 { c with vecSrc := intSource v, opState := .vec1, cycleConsumed := false }).run
          ramEnv (RamState.read ⟨m, []⟩ c.regs.pc)).2) := by
  have hfirst : (tickProg v c.clearCycle).run ramEnv ⟨m, []⟩ =
      ({ c with vecSrc := intSource v, opState := .vec1, cycleConsumed := true },
        RamState.read ⟨m, []⟩ c.regs.pc) := by
    cases hn : v.nmiEdgePending with
    | true =>
      simp [tickProg, hs, hn, vector, Cpu.beginVector, advanceState, intSource, ramEnv,
        RamState.read, Cpu.clearCycle]
    | false =>
      have hirq : irqTaken v c.regs = true := by simpa [intTaken, hn] using hint
      simp [tickProg, hs, hn, hirq, vector, Cpu.beginVector, advanceState, intSource, ramEnv,
        RamState.read, Cpu.clearCycle]
  rw [instruction, Prog.run_bind, Prog.run_bind, hfirst]
  rfl

theorem ticks_of_leads (hint : intTaken v c.regs = false) {n j : Nat} (hn : j + n = 6) {d : Cpu}
    {t : RamState} (h : Leads n (c.fetched (m c.regs.pc)) (fetchedRam m c.regs.pc) d t) :
    ((instruction v c).run ramEnv ⟨m, []⟩).1.1 =
      ((instructionFrom j d).run ramEnv t).1.1 + n + 1 := by
  rw [instruction_fetch hs hint, ← hn, h j]

/-- The handler's first cycle is reached after `n` operand cycles, with the flag as it was. -/
def ReachesHandler (v : SigVotes) (c : Cpu) (m : Mem) (n : Nat) : Prop :=
  ∃ d t, d.opState = .op0 ∧ d.cycleConsumed = false ∧ d.opcode = m c.regs.pc ∧
    d.pageBoundary = c.pageBoundary ∧
    ((instruction v c).run ramEnv ⟨m, []⟩).1.1 =
      ((instructionFrom (6 - n) d).run ramEnv t).1.1 + n + 1

theorem reachesHandler_absIndexed (hint : intTaken v c.regs = false) {idx : CpuRegs → BitVec 8}
    (hidx : ∀ r pc, idx { r with pc } = idx r)
    (hmode : addrHandlers (addrtable (m c.regs.pc)) = absIndexed idx)
    (hno : crosses (m.word (c.regs.pc + 1)) (idx c.regs) = false) : ReachesHandler v c m 2 := by
  have hleads := absIndexed_leads (c := c.fetched (m c.regs.pc)) (s := fetchedRam m c.regs.pc)
    rfl rfl hidx hmode
  have hno' : crosses ((fetchedRam m c.regs.pc).mem.word (c.fetched (m c.regs.pc)).regs.pc)
      (idx (c.fetched (m c.regs.pc)).regs) = false := by
    rw [Cpu.fetched, hidx]
    exact hno
  obtain ⟨h₁, h₂, h₃, h₄⟩ := indexed_stays
    { c.fetched (m c.regs.pc) with regs.pc := (c.fetched (m c.regs.pc)).regs.pc + 1 } _ _
    ((c.fetched (m c.regs.pc)).regs.pc + 1 + 1) .param2 hno'
  exact ⟨_, _, h₁, h₂, h₃, h₄, ticks_of_leads hs hint (j := 4) rfl hleads⟩

theorem reachesHandler_indy (hint : intTaken v c.regs = false)
    (hmode : addrtable (m c.regs.pc) = .indy)
    (hno : crosses (zpWord m (u16 (m (c.regs.pc + 1)))) c.regs.y = false) :
    ReachesHandler v c m 3 := by
  have hleads := indy_leads (c := c.fetched (m c.regs.pc)) (s := fetchedRam m c.regs.pc) rfl rfl hmode
  obtain ⟨h₁, h₂, h₃, h₄⟩ := indexed_stays
    { c.fetched (m c.regs.pc) with
      regs.pc := (c.fetched (m c.regs.pc)).regs.pc + 1
      tmpval := (u16 ((fetchedRam m c.regs.pc).mem (c.fetched (m c.regs.pc)).regs.pc) + 1) &&& 0x00FF }
    _ _ ((c.fetched (m c.regs.pc)).regs.pc + 1) .param3 hno
  exact ⟨_, _, h₁, h₂, h₃, h₄, ticks_of_leads hs hint (j := 3) rfl hleads⟩

theorem reachesHandler_indexedWrites (hint : intTaken v c.regs = false)
    (hop : m c.regs.pc ∈ indexedWrites) (hcross : crossesPage m c.regs = false) :
    ReachesHandler v c m (if addrtable (m c.regs.pc) = .indy then 3 else 2) := by
  have hmodes : addrtable (m c.regs.pc) = .absx ∨ addrtable (m c.regs.pc) = .absy ∨
      addrtable (m c.regs.pc) = .indy := by
    have := indexedWrites_table _ hop
    grind
  rcases hmodes with hmode | hmode | hmode
  all_goals
    rw [hmode]
    simp only [crossesPage, hmode] at hcross
  · exact reachesHandler_absIndexed hs hint (fun _ _ => rfl) (by rw [hmode]; rfl) hcross
  · exact reachesHandler_absIndexed hs hint (fun _ _ => rfl) (by rw [hmode]; rfl) hcross
  · exact reachesHandler_indy hs hint hmode hcross

/-- The ticks of an indexed write that crosses no page: one less with the flag set. -/
theorem ticks_indexedWrites (hint : intTaken v c.regs = false)
    (hop : m c.regs.pc ∈ indexedWrites) (hcross : crossesPage m c.regs = false) :
    ((instruction v c).run ramEnv ⟨m, []⟩).1.1 =
      writeTicks (m c.regs.pc) + if c.pageBoundary then 0 else 1 := by
  obtain ⟨d, t, hd, hdc, hdo, hpb, hticks⟩ := reachesHandler_indexedWrites hs hint hop hcross
  rw [hticks, ← hpb]
  rcases indexedWrites_table _ hop with ⟨hsta, hmode⟩ | ⟨hstz, hmode⟩ | ⟨hdec, hmode⟩ | ⟨hinc, hmode⟩
  · have hrest := ticks_sta t hd (by rw [hdo, hsta]) (by rw [hdo]; exact hmode)
    rcases hmode with hmode | hmode | hmode
    all_goals
      simp only [hmode, writeTicks, hsta, if_true, reduceCtorEq, if_false]
    · rw [hrest 2]
      cases d.pageBoundary <;> rfl
    · rw [hrest 2]
      cases d.pageBoundary <;> rfl
    · rw [hrest 1]
      cases d.pageBoundary <;> rfl
  · simp only [hmode, writeTicks, hstz, reduceCtorEq, if_false]
    rw [ticks_stz t hd (by rw [hdo, hstz]) (by rw [hdo, hmode]) 2]
    cases d.pageBoundary <;> rfl
  · simp only [hmode, writeTicks, hdec, reduceCtorEq, if_false]
    rw [ticks_incDec t hd hdc (· - 1) (by rw [hdo, hdec]; rfl) (by rw [hdo, hmode]) 0]
    cases d.pageBoundary <;> rfl
  · simp only [hmode, writeTicks, hinc, reduceCtorEq, if_false]
    rw [ticks_incDec t hd hdc (· + 1) (by rw [hdo, hinc]; rfl) (by rw [hdo, hmode]) 0]
    cases d.pageBoundary <;> rfl

end

/-! ## Two histories -/

/-- At the start of an addressing mode none of its fields is live. -/
theorem addrLive_param0 (mode : AddrMode) (opcode : BitVec 8) : addrLive mode opcode .param0 = {} := by
  cases mode <;> rfl

section
variable {v : SigVotes} {m : Mem} {c c' : Cpu} (hs : c.opState = .opcode)
  (hs' : c'.opState = .opcode) (hregs : c.regs = c'.regs)
include hs hs' hregs

theorem sameOutcome_interrupt (hint : intTaken v c.regs = true) :
    SameOutcome ((instruction v c).run ramEnv ⟨m, []⟩) ((instruction v c').run ramEnv ⟨m, []⟩) := by
  have hint' : intTaken v c'.regs = true := by rw [← hregs]; exact hint
  have hagree : Agree { c with vecSrc := intSource v, opState := .vec1, cycleConsumed := false }
      { c' with vecSrc := intSource v, opState := .vec1, cycleConsumed := false } :=
    ⟨hregs, rfl, rfl, dead, dead, dead, dead, dead, dead, dead, fun _ => rfl⟩
  have h := sameOutcome_of_agree 6 hagree (RamState.read ⟨m, []⟩ c.regs.pc)
  have hread : RamState.read ⟨m, []⟩ c'.regs.pc = RamState.read ⟨m, []⟩ c.regs.pc := by rw [hregs]
  rw [instruction_interrupt hs hint, instruction_interrupt hs' hint', hread]
  exact ⟨congrArg (· + 1) h.ticks, h.regs, h.ram⟩

theorem sameOutcome_fetch (hint : intTaken v c.regs = false)
    (h : SameOutcome
      ((instructionFrom 6 (c.fetched (m c.regs.pc))).run ramEnv (fetchedRam m c.regs.pc))
      ((instructionFrom 6 (c'.fetched (m c.regs.pc))).run ramEnv (fetchedRam m c.regs.pc))) :
    SameOutcome ((instruction v c).run ramEnv ⟨m, []⟩) ((instruction v c').run ramEnv ⟨m, []⟩) := by
  have hint' : intTaken v c'.regs = false := by rw [← hregs]; exact hint
  rw [instruction_fetch hs hint, instruction_fetch hs' hint', ← hregs]
  exact ⟨congrArg (· + 1) h.ticks, h.regs, h.ram⟩

/-- The histories look the same if the flags agree, or are not read. -/
theorem sameOutcome_of_flag (hint : intTaken v c.regs = false)
    (hflag : m c.regs.pc ∈ indexedWrites → c.pageBoundary = c'.pageBoundary) :
    SameOutcome ((instruction v c).run ramEnv ⟨m, []⟩) ((instruction v c').run ramEnv ⟨m, []⟩) := by
  refine sameOutcome_fetch hs hs' hregs hint (sameOutcome_of_agree 6 ?_ _)
  have hpc : c.regs.pc = c'.regs.pc := congrArg CpuRegs.pc hregs
  show AgreeOn (live (m c.regs.pc) .param0) _ _
  have hlive : live (m c.regs.pc) .param0 =
      { opcode := true, pageBoundary := usesPageBoundary (m c.regs.pc) } := by
    rw [live, addrLive_param0]
  rw [hlive]
  refine ⟨?_, rfl, rfl, fun _ => rfl, ?_, dead, dead, dead, dead, dead, dead⟩
  · simp only [Cpu.fetched, hregs]
  · intro huses
    exact hflag ((usesPageBoundary_iff _).mp huses)

omit hs hs' in
/-- After a page crossing the flags agree whatever they were. -/
theorem agree_indexed {base : BitVec 16} {idx : BitVec 8} (pc : BitVec 16) {fix : OpState}
    (hcross : crosses base idx = true) (hop : c.opcode = c'.opcode)
    (hcons : c.cycleConsumed = c'.cycleConsumed)
    (hmode : (addrtable c.opcode = .absx ∨ addrtable c.opcode = .absy) ∧ fix = .param2 ∨
      addrtable c.opcode = .indy ∧ fix = .param3 ∧ c.tmpval = c'.tmpval) :
    Agree (indexed c base idx pc fix) (indexed c' base idx pc fix) := by
  rw [indexed, indexed, if_pos hcross, if_pos hcross]
  show AgreeOn (live c.opcode fix) _ _
  rcases hmode with ⟨hmode, rfl⟩ | ⟨hmode, rfl, htmp⟩
  · have hsub : Live.sub (live c.opcode .param2)
        { opcode := true, pageBoundary := true, ea := true } = true := by
      rcases hmode with hmode | hmode <;> simp [live, addrLive, hmode, Live.sub]
    exact AgreeOn.mono ⟨hregs, rfl, hcons, fun _ => hop, fun _ => rfl, fun _ => rfl, dead, dead, dead,
      dead, dead⟩ hsub
  · have hsub : Live.sub (live c.opcode .param3)
        { opcode := true, pageBoundary := true, ea := true, tmpval := true } = true := by
      simp [live, addrLive, hmode, Live.sub]
    exact AgreeOn.mono ⟨hregs, rfl, hcons, fun _ => hop, fun _ => rfl, fun _ => rfl, dead, dead, dead,
      fun _ => htmp, dead⟩ hsub

theorem sameOutcome_of_leads (hint : intTaken v c.regs = false) {n j : Nat} (hn : j + n = 6)
    {d d' : Cpu} {t : RamState}
    (h : Leads n (c.fetched (m c.regs.pc)) (fetchedRam m c.regs.pc) d t)
    (h' : Leads n (c'.fetched (m c.regs.pc)) (fetchedRam m c.regs.pc) d' t) (hagree : Agree d d') :
    SameOutcome ((instruction v c).run ramEnv ⟨m, []⟩) ((instruction v c').run ramEnv ⟨m, []⟩) := by
  refine sameOutcome_fetch hs hs' hregs hint ?_
  have hsame := sameOutcome_of_agree j hagree t
  rw [← hn, h j, h' j]
  exact ⟨congrArg (· + n) hsame.ticks, hsame.regs, hsame.ram⟩

omit hs hs' in
theorem fetched_regs (opcode : BitVec 8) : (c.fetched opcode).regs = (c'.fetched opcode).regs := by
  simp only [Cpu.fetched, hregs]

theorem sameOutcome_absIndexed (hint : intTaken v c.regs = false) {idx : CpuRegs → BitVec 8}
    (hidx : ∀ r pc, idx { r with pc } = idx r)
    (hmode : addrHandlers (addrtable (m c.regs.pc)) = absIndexed idx)
    (hmodes : addrtable (m c.regs.pc) = .absx ∨ addrtable (m c.regs.pc) = .absy)
    (hcross : crosses (m.word (c.regs.pc + 1)) (idx c.regs) = true) :
    SameOutcome ((instruction v c).run ramEnv ⟨m, []⟩) ((instruction v c').run ramEnv ⟨m, []⟩) := by
  have hleads := absIndexed_leads (c := c.fetched (m c.regs.pc)) (s := fetchedRam m c.regs.pc)
    rfl rfl hidx hmode
  have hleads' := absIndexed_leads (c := c'.fetched (m c.regs.pc)) (s := fetchedRam m c.regs.pc)
    rfl rfl hidx hmode
  rw [← fetched_regs hregs] at hleads'
  have hcross' : crosses ((fetchedRam m c.regs.pc).mem.word (c.fetched (m c.regs.pc)).regs.pc)
      (idx (c.fetched (m c.regs.pc)).regs) = true := by
    rw [Cpu.fetched, hidx]
    exact hcross
  refine sameOutcome_of_leads hs hs' hregs hint (j := 4) rfl hleads hleads' ?_
  refine agree_indexed ?_ _ hcross' ?_ ?_ (.inl ⟨hmodes, rfl⟩)
  · rfl
  · rfl
  · rfl

theorem sameOutcome_indy (hint : intTaken v c.regs = false)
    (hmode : addrtable (m c.regs.pc) = .indy)
    (hcross : crosses (zpWord m (u16 (m (c.regs.pc + 1)))) c.regs.y = true) :
    SameOutcome ((instruction v c).run ramEnv ⟨m, []⟩) ((instruction v c').run ramEnv ⟨m, []⟩) := by
  have hleads := indy_leads (c := c.fetched (m c.regs.pc)) (s := fetchedRam m c.regs.pc) rfl rfl hmode
  have hleads' := indy_leads (c := c'.fetched (m c.regs.pc)) (s := fetchedRam m c.regs.pc) rfl rfl hmode
  rw [← fetched_regs hregs] at hleads'
  refine sameOutcome_of_leads hs hs' hregs hint (j := 3) rfl hleads hleads' ?_
  refine agree_indexed ?_ _ hcross ?_ ?_ (.inr ⟨hmode, rfl, ?_⟩)
  · rfl
  · rfl
  · rfl
  · rfl

/-- The histories look the same if the instruction sets the flag itself. -/
theorem sameOutcome_of_crossing (hint : intTaken v c.regs = false)
    (hcross : crossesPage m c.regs = true) :
    SameOutcome ((instruction v c).run ramEnv ⟨m, []⟩) ((instruction v c').run ramEnv ⟨m, []⟩) := by
  unfold crossesPage at hcross
  cases hmode : addrtable (m c.regs.pc)
  case absx =>
    rw [hmode] at hcross
    exact sameOutcome_absIndexed hs hs' hregs hint (fun _ _ => rfl) (by rw [hmode]; rfl) (.inl hmode)
      hcross
  case absy =>
    rw [hmode] at hcross
    exact sameOutcome_absIndexed hs hs' hregs hint (fun _ _ => rfl) (by rw [hmode]; rfl) (.inr hmode)
      hcross
  case indy =>
    rw [hmode] at hcross
    exact sameOutcome_indy hs hs' hregs hint hmode hcross
  all_goals
    rw [hmode] at hcross
    cases hcross

/-- When the flags of two histories make no difference to the next instruction. -/
def FlagHarmless (v : SigVotes) (m : Mem) (c c' : Cpu) : Prop :=
  c.pageBoundary = c'.pageBoundary ∨ intTaken v c.regs = true ∨ m c.regs.pc ∉ indexedWrites ∨
    crossesPage m c.regs = true

instance (v : SigVotes) (m : Mem) (c c' : Cpu) : Decidable (FlagHarmless v m c c') :=
  inferInstanceAs (Decidable (_ ∨ _ ∨ _ ∨ _))

theorem sameOutcome_of_harmless (h : FlagHarmless v m c c') :
    SameOutcome ((instruction v c).run ramEnv ⟨m, []⟩) ((instruction v c').run ramEnv ⟨m, []⟩) := by
  cases hint : intTaken v c.regs with
  | true => exact sameOutcome_interrupt hs hs' hregs hint
  | false =>
    rcases h with hflag | hint' | hop | hcross
    · exact sameOutcome_of_flag hs hs' hregs hint fun _ => hflag
    · exact absurd (hint.symm.trans hint') Bool.false_ne_true
    · exact sameOutcome_of_flag hs hs' hregs hint fun hop' => absurd hop' hop
    · exact sameOutcome_of_crossing hs hs' hregs hint hcross

/-- Otherwise the ticks tell the histories apart. -/
theorem ticks_of_not_harmless (h : ¬FlagHarmless v m c c') :
    BitVec.ofNat 8 ((instruction v c).run ramEnv ⟨m, []⟩).1.1 ≠
      BitVec.ofNat 8 ((instruction v c').run ramEnv ⟨m, []⟩).1.1 := by
  simp only [FlagHarmless, not_or, Decidable.not_not, Bool.not_eq_true] at h
  obtain ⟨hflag, hint, hop, hcross⟩ := h
  have hticks := ticks_indexedWrites hs hint hop hcross
  rw [hregs] at hint hop hcross
  have hticks' := ticks_indexedWrites hs' hint hop hcross
  rw [hticks, hticks', hregs]
  have hsmall : writeTicks (m c'.regs.pc) ≤ 6 := by
    unfold writeTicks
    split
    · omega
    · omega
    · split <;> omega
  intro heq
  have heq := congrArg BitVec.toNat heq
  simp only [BitVec.toNat_ofNat] at heq
  cases hc : c.pageBoundary <;> cases hc' : c'.pageBoundary <;> simp_all <;> omega

end

/-- Two steps look the same: their ticks, transactions, and the registers and memory after. -/
structure SameStep (R : Ram ω) (R' : Ram ω') (emu : Emu ω) (emu' : Emu ω') (r : BitVec 8 × Emu ω)
    (r' : BitVec 8 × Emu ω') : Prop where
  ticks : r.1 = r'.1
  trace : r.2.bus.trace.drop emu.bus.trace.length = r'.2.bus.trace.drop emu'.bus.trace.length
  regs : r.2.cpu.regs = r'.2.cpu.regs
  mem : R.mem r.2.bus.devs = R'.mem r'.2.bus.devs

/-- What comes before an instruction boundary matters to the next instruction through the
page-boundary flag alone. From two boundaries with the same registers, memory and votes and
RDY not held, the next instruction or interrupt sequence, run by `cpu_step`, ends, and is the
same in both if and only if the flags are the same, or an interrupt is taken, or the opcode
is not an indexed `sta`, `stz`, `dec` or `inc`, or its own indexing crosses a page. -/
theorem history_independent (emu : Emu ω) (emu' : Emu ω') (hram : emu.bus.OnRam R)
    (hram' : emu'.bus.OnRam R') (hs : emu.cpu.opState = .opcode) (hs' : emu'.cpu.opState = .opcode)
    (hregs : emu.cpu.regs = emu'.cpu.regs) (hmem : R.mem emu.bus.devs = R'.mem emu'.bus.devs)
    (hvotes : emu.bus.sigvotes = emu'.bus.sigvotes) (hrdy : emu.bus.sigvotes.rdy = 0) :
    ∃ r r', cpuStep 4 7 emu = some r ∧ cpuStep 4 7 emu' = some r' ∧
      r.2.cpu.opState = .opcode ∧ r'.2.cpu.opState = .opcode ∧
      (SameStep R R' emu emu' r r' ↔
        FlagHarmless emu.bus.sigvotes (R.mem emu.bus.devs) emu.cpu emu'.cpu) := by
  obtain ⟨e, k, hrun, hstep, he⟩ := cpuStep_ram emu hram hrdy hs
  obtain ⟨e', k', hrun', hstep', he'⟩ := cpuStep_ram emu' hram' (by rw [← hvotes]; exact hrdy) hs'
  rw [← hmem, ← hvotes] at hrun'
  refine ⟨_, _, hstep, hstep', he, he', ?_, ?_⟩
  · intro hsame
    refine Decidable.byContradiction ?_
    intro hharm
    have hne := ticks_of_not_harmless hs hs' hregs hharm
    rw [hrun, hrun'] at hne
    exact hne hsame.ticks
  · intro hharm
    have hsame := sameOutcome_of_harmless hs hs' hregs hharm
    rw [hrun, hrun'] at hsame
    exact ⟨congrArg (BitVec.ofNat 8) hsame.ticks, congrArg RamState.log hsame.ram, hsame.regs,
      congrArg RamState.mem hsame.ram⟩

/-- A RAM full of `LDA a`, with the CPU at a boundary and the flag `pageBoundary`. -/
def ldaEmu (pageBoundary : Bool) : Emu Mem :=
  { bus := Bus.init flatRam.conns [] fun _ => 0xAD
    cpu := { regs := { pc := 0x0200, sp := 0xFF, status := 0x20 }, pageBoundary } }

theorem history_independent_of_lda :
    ∃ r r', cpuStep 4 7 (ldaEmu true) = some r ∧ cpuStep 4 7 (ldaEmu false) = some r' ∧
      SameStep flatRam flatRam (ldaEmu true) (ldaEmu false) r r' := by
  have hram : ∀ b, (ldaEmu b).bus.OnRam flatRam := fun _ => ⟨rfl, rfl, trivial⟩
  obtain ⟨r, r', hstep, hstep', -, -, hiff⟩ :=
    history_independent (ldaEmu true) (ldaEmu false) (hram true) (hram false) rfl rfl rfl rfl rfl rfl
  exact ⟨r, r', hstep, hstep', hiff.mpr (.inr (.inr (.inl (by decide))))⟩

/-- `LDX #1; LDA a,X; LDA #$FF; STA $0203; STA $2000,X` at `$0200`, where the reset vector
points; `lo` is the low byte of the first indexed operand `$10lo`, which the program then
overwrites with `$FF`. -/
def staleFlagProgram (lo : BitVec 8) : Mem :=
  Function.update
    (fun addr =>
      if addr = 0xFFFD then 0x02
      else [0xA2, 0x01, 0xBD, 0x00, 0x10, 0xA9, 0xFF, 0x8D, 0x03, 0x02, 0x9D, 0x00, 0x20].getD
        (addr - 0x0200).toNat 0x00)
    0x0203 lo

def staleFlagStart (lo : BitVec 8) : Emu Mem :=
  { bus := Bus.init flatRam.conns [] (staleFlagProgram lo), cpu := cpuInit }

theorem staleFlagStart_wrote (lo : BitVec 8) :
    (staleFlagStart lo).bus.Wrote flatRam (staleFlagProgram lo) := ⟨⟨rfl, rfl, trivial⟩, rfl⟩

/-- What both programs have written when they come to the last instruction. -/
def staleFlagWrites : List BusOp :=
  [⟨0x0100, 0x00, true, false⟩, ⟨0x01FF, 0x00, true, false⟩, ⟨0x01FE, 0x20, true, false⟩,
    ⟨0x0203, 0xFF, true, false⟩]

/-- The byte the programs differ in is overwritten last. -/
theorem staleFlagWrites_mem (lo : BitVec 8) :
    staleFlagWrites.foldl Mem.apply (staleFlagProgram lo) =
      staleFlagWrites.foldl Mem.apply (staleFlagProgram 0xFF) := by
  funext addr
  simp only [staleFlagWrites, List.foldl_cons, List.foldl_nil, Mem.apply, if_true, staleFlagProgram,
    Function.update_apply]
  split <;> rfl

theorem staleFlag_devs :
    (Nat.repeat Emu.tick 20 (staleFlagStart 0xFF)).bus.devs =
      (Nat.repeat Emu.tick 19 (staleFlagStart 0xFE)).bus.devs := by
  have h := (wrote_repeat (staleFlagStart_wrote 0xFF) 20).mem_writes
  have h' := (wrote_repeat (staleFlagStart_wrote 0xFE) 19).mem_writes
  have hwrites : (Nat.repeat Emu.tick 20 (staleFlagStart 0xFF)).bus.trace.filter (·.write) =
      staleFlagWrites := by decide +kernel
  have hwrites' : (Nat.repeat Emu.tick 19 (staleFlagStart 0xFE)).bus.trace.filter (·.write) =
      staleFlagWrites := by decide +kernel
  rw [hwrites] at h
  rw [hwrites', staleFlagWrites_mem] at h'
  exact h.trans h'.symm

/-- A load that crossed a page earlier makes `STA $2000,X` one tick shorter. -/
theorem stale_flag_shortens_store :
    ∃ emu emu' : Emu Mem, Reachable emu ∧ Reachable emu' ∧
      emu.bus.OnRam flatRam ∧ emu'.bus.OnRam flatRam ∧
      emu.cpu.opState = .opcode ∧ emu'.cpu.opState = .opcode ∧ emu.cpu.regs = emu'.cpu.regs ∧
      emu.bus.devs = emu'.bus.devs ∧ emu.bus.sigvotes = emu'.bus.sigvotes ∧
      emu.bus.sigvotes.rdy = 0 ∧
      (cpuStep 4 7 emu).map (·.1) = some 4 ∧ (cpuStep 4 7 emu').map (·.1) = some 5 := by
  refine ⟨Nat.repeat Emu.tick 20 (staleFlagStart 0xFF), Nat.repeat Emu.tick 19 (staleFlagStart 0xFE),
    (Reachable.init _).iterate_tick 20, (Reachable.init _).iterate_tick 19,
    (wrote_repeat (staleFlagStart_wrote 0xFF) 20).toOnRam,
    (wrote_repeat (staleFlagStart_wrote 0xFE) 19).toOnRam, ?_, ?_, ?_, staleFlag_devs, ?_, ?_, ?_, ?_⟩
  all_goals decide +kernel

end Cb6502
