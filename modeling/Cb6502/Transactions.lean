import Cb6502.Execution

/- The transactions of an instruction. `BusRun` is an `InstructionRun` that keeps what its ticks
   put on the bus; a tick that RDY stalls repeats the last transaction and is not counted.
   `BusRun.rule` is the rule of `Executes` with the record of the transactions in it: the
   modes only read, so when the opcode handler is called first, nothing has been written. -/
namespace Cb6502
open Dialogue

variable {ω : Type} {R : Ram ω}

/-! ## Runs with their transactions -/

/-- A run to the boundary or to the middle of the instruction, with the transactions of the
ticks that were not stalled. -/
inductive BusRun (emu : Emu ω) : List BusOp → Emu ω → Prop where
  | first {log : List BusOp} {e : Emu ω} (fuel : Nat) (hrdy : emu.bus.sigvotes.rdy = 0)
      (ht : cpuTick fuel emu = some e) (hlog : e.bus.trace = emu.bus.trace ++ log) : BusRun emu log e
  | votes {log : List BusOp} {e : Emu ω} (v : SigVotes) (h : BusRun emu log e) :
      BusRun emu log { e with bus.sigvotes := v }
  | stalled {log : List BusOp} {e e' : Emu ω} (fuel : Nat) (h : BusRun emu log e)
      (hrdy : e.bus.sigvotes.rdy ≠ 0) (ht : cpuTick fuel e = some e') : BusRun emu log e'
  | tick {log more : List BusOp} {e e' : Emu ω} (fuel : Nat) (h : BusRun emu log e)
      (hs : e.cpu.opState ≠ .opcode) (hrdy : e.bus.sigvotes.rdy = 0) (ht : cpuTick fuel e = some e')
      (hlog : e'.bus.trace = e.bus.trace ++ more) : BusRun emu (log ++ more) e'

theorem BusRun.instructionRun {emu e : Emu ω} {log : List BusOp} (h : BusRun emu log e) :
    ∃ n, InstructionRun emu n e := by
  induction h with
  | first fuel hrdy ht _ => exact ⟨1, .first fuel hrdy ht⟩
  | votes v _ ih =>
    obtain ⟨n, hrun⟩ := ih
    exact ⟨n, hrun.votes v⟩
  | stalled fuel _ hrdy ht ih =>
    obtain ⟨n, hrun⟩ := ih
    exact ⟨n, hrun.stalled fuel hrdy ht⟩
  | tick fuel _ hs hrdy ht _ ih =>
    obtain ⟨n, hrun⟩ := ih
    exact ⟨n + 1, hrun.tick fuel hs hrdy ht⟩

/-- The record does not decide anything. -/
theorem run_ramEnv_log {α : Type} (p : BusM α) (m : Mem) (log : List BusOp) :
    p.run ramEnv ⟨m, log⟩ =
      ((p.run ramEnv ⟨m, []⟩).1, ⟨(p.run ramEnv ⟨m, []⟩).2.mem, log ++ (p.run ramEnv ⟨m, []⟩).2.log⟩) := by
  induction p generalizing m log with
  | done a => simp
  | ask q k ih =>
    have hask : ∀ l, (Prog.ask q k).run ramEnv ⟨m, l⟩ =
        (k (m q.addr)).run ramEnv ⟨m, l ++ [⟨q.addr, m q.addr, false, q.sync⟩]⟩ := fun _ => rfl
    rw [hask, hask, ih _ m (log ++ [_]), ih _ m ([] ++ [_])]
    simp
  | tell c k ih =>
    have htell : ∀ l, (Prog.tell c k).run ramEnv ⟨m, l⟩ =
        k.run ramEnv ⟨Function.update m c.addr c.val, l ++ [⟨c.addr, c.val, true, false⟩]⟩ := fun _ => rfl
    rw [htell, htell, ih _ (log ++ [_]), ih _ ([] ++ [_])]
    simp

/-- The transactions of a tick. -/
theorem trace_tick {emu : Emu ω} (h : emu.bus.OnRam R) (hrdy : emu.bus.sigvotes.rdy = 0) :
    emu.tick.bus.trace = emu.bus.trace ++
      ((tickProg emu.bus.sigvotes emu.cpu.clearCycle).run ramEnv ⟨R.mem emu.bus.devs, []⟩).2.log := by
  obtain ⟨-, hafter⟩ := (h.ackNmi emu.cpu).run (tickProg emu.bus.sigvotes emu.cpu.clearCycle)
  rw [Bus.ackNmi_devs] at hafter
  rw [tick_unstalled emu hrdy]
  calc emu.tickRun.2.trace = (emu.bus.ackNmi emu.cpu).trace ++ _ := hafter.trace
    _ = emu.bus.trace ++ _ := by rw [Bus.ackNmi_trace]

section
variable {emu : Emu ω} (hram : emu.bus.OnRam R) (hs : emu.cpu.opState = .opcode)
include hram hs

/-- Every run has its transactions. -/
theorem InstructionRun.busRun {n : Nat} {e : Emu ω} (h : InstructionRun emu n e) :
    ∃ log, BusRun emu log e := by
  induction h with
  | first fuel hrdy ht =>
    have htick := eq_tick_of_cpuTick (fresh_of_boundary hs) ht
    exact ⟨_, .first fuel hrdy ht (by rw [htick, trace_tick hram hrdy])⟩
  | votes v _ ih =>
    obtain ⟨log, hrun⟩ := ih
    exact ⟨log, hrun.votes v⟩
  | stalled fuel _ hrdy ht ih =>
    obtain ⟨log, hrun⟩ := ih
    exact ⟨log, hrun.stalled fuel hrdy ht⟩
  | tick fuel hbefore hoff hrdy ht ih =>
    obtain ⟨log, hrun⟩ := ih
    obtain ⟨k, -, hafter⟩ := hbefore.after hram hs
    have htick := eq_tick_of_cpuTick hafter.fresh ht
    exact ⟨_, hrun.tick fuel hoff hrdy ht (by rw [htick, trace_tick hafter.steady.toOnRam hrdy])⟩

/-- What handler calls keep from the first tick of an instruction on, record included, holds in
its run. -/
theorem BusRun.keeps {P : Cpu → RamState → Prop} {log : List BusOp} {e : Emu ω} (h : BusRun emu log e)
    (hhandler : ∀ (c : Cpu) (s : RamState), P c s →
      P ((handler c).run ramEnv s).1 ((handler c).run ramEnv s).2)
    (hclear : ∀ c s, P c s → P c.clearCycle s)
    (hfirst : P ((tickProg emu.bus.sigvotes emu.cpu.clearCycle).run ramEnv
        ⟨R.mem emu.bus.devs, []⟩).1.clearCycle
      ((tickProg emu.bus.sigvotes emu.cpu.clearCycle).run ramEnv ⟨R.mem emu.bus.devs, []⟩).2) :
    P e.cpu.clearCycle ⟨R.mem e.bus.devs, log⟩ := by
  induction h with
  | @first log e fuel hrdy ht hlog =>
    have htick := eq_tick_of_cpuTick (fresh_of_boundary hs) ht
    subst htick
    rw [trace_tick hram hrdy, List.append_cancel_left_eq] at hlog
    have hcore := (core_tick hram hrdy).2.1
    have hcpu : emu.tick.cpu.clearCycle = _ := congrArg Core.cpu hcore
    have hmem : R.mem emu.tick.bus.devs = _ := congrArg Core.mem hcore
    rw [hcpu, hmem, ← hlog]
    exact hfirst
  | votes v _ ih => exact ih
  | @stalled log e e' fuel hbefore hrdy ht ih =>
    obtain ⟨n, hrun⟩ := hbefore.instructionRun
    obtain ⟨k, -, hafter⟩ := hrun.after hram hs
    have htick := eq_tick_of_cpuTick hafter.fresh ht
    subst htick
    have hcore := (core_tick_stalled hafter.steady hrdy).2
    have hcpu : e.tick.cpu.clearCycle = e.cpu.clearCycle := congrArg Core.cpu hcore
    have hmem : R.mem e.tick.bus.devs = R.mem e.bus.devs := congrArg Core.mem hcore
    rw [hcpu, hmem]
    exact ih
  | @tick log more e e' fuel hbefore hoff hrdy ht hlog ih =>
    obtain ⟨n, hrun⟩ := hbefore.instructionRun
    obtain ⟨k, -, hafter⟩ := hrun.after hram hs
    have htick := eq_tick_of_cpuTick hafter.fresh ht
    subst htick
    have hprog : tickProg e.bus.sigvotes e.cpu.clearCycle = cycle e.cpu.clearCycle :=
      tickProg_inside _ _ hoff
    rw [trace_tick hafter.steady.toOnRam hrdy, List.append_cancel_left_eq, hprog] at hlog
    have hcore := (core_tick hafter.steady.toOnRam hrdy).2.1
    have hcpu : e.tick.cpu.clearCycle = _ := congrArg Core.cpu hcore
    have hmem : R.mem e.tick.bus.devs = _ := congrArg Core.mem hcore
    have hcycle := hclear _ _ (cycleFrom_keeps hhandler 3 ih)
    rw [run_ramEnv_log] at hcycle
    rw [hcpu, hmem, ← hlog]
    simp only [Core.tick, Core.after, Emu.core, hprog]
    exact hcycle

end

/-! ## Writes -/

/-- The writes on record. -/
def RamState.writes (s : RamState) : List BusOp := s.log.filter (·.write)

@[simp] theorem writes_answer (q : BusRead) (s : RamState) : (ramEnv.answer q s).2.writes = s.writes := by
  simp [RamState.writes, ramEnv]

@[simp] theorem writes_obey (c : BusWrite) (s : RamState) :
    (ramEnv.obey c s).writes = s.writes ++ [⟨c.addr, c.val, true, false⟩] := by
  simp [RamState.writes, ramEnv]

/-- What the first call of the opcode handler establishes, the instruction having written nothing
yet, and its later calls keep, holds at the end of the instruction. -/
theorem BusRun.rule {emu e : Emu ω} {log : List BusOp} (hrun : BusRun emu log e)
    (he : e.cpu.opState = .opcode) (h : Fetches R emu) {op : Op}
    (hop : optable (R.mem emu.bus.devs emu.cpu.regs.pc) = op) (hbrk : op ≠ .brk) (hjsr : op ≠ .jsr)
    {X : Cpu → RamState → Prop}
    (hready : ∀ (c : Cpu) (s : RamState), HandlerReady (R.mem emu.bus.devs) emu.cpu.regs c s.mem →
      s.writes = [] → X ((ops op c).run ramEnv s).1 ((ops op c).run ramEnv s).2)
    (hstep : ∀ (c : Cpu) (s : RamState), X c s → c.opcode = R.mem emu.bus.devs emu.cpu.regs.pc →
      c.opState ∈ [OpState.op1, .op2, .op3, .op4] →
      X ((ops op c).run ramEnv s).1 ((ops op c).run ramEnv s).2)
    (hclear : ∀ c s, X c s → X c.clearCycle s) :
    X e.cpu.clearCycle ⟨R.mem e.bus.devs, log⟩ := by
  subst hop
  have hne : R.mem emu.bus.devs emu.cpu.regs.pc ≠ 0x20 := by
    intro h
    rw [h] at hjsr
    exact hjsr (by decide)
  have hphase := hrun.keeps h.ram h.boundary (P := PhaseWith (R.mem emu.bus.devs) emu.cpu.regs
    (fun s => s.writes = []) X) ?_ ?_ ?_
  · rcases hphase with ⟨h, -⟩ | ⟨-, -, hX⟩
    · -- the mode ends before the boundary
      have hboundary : e.cpu.clearCycle.opState = .opcode := he
      rcases h.phase with ⟨hparam, -⟩ | ⟨h0, -⟩
      · rw [hboundary] at hparam
        exact absurd hparam (by decide)
      · exact absurd (h0.symm.trans hboundary) (by decide)
    · exact hX
  · exact phaseWith_handler hbrk hne (fun q s hw => by rw [writes_answer]; exact hw) hready hstep
  · intro c s hphase
    rcases hphase with ⟨h, hbytes, hw⟩ | ⟨hopcode, hstate, hX⟩
    · exact .inl ⟨h.clearCycle, fun hs => ⟨(hbytes hs).imm, (hbytes hs).reladdr⟩, hw⟩
    · exact .inr ⟨hopcode, hstate, hclear c s hX⟩
  · -- the fetch is a read
    have hfirst := operand_first (R := R) h.boundary h.noInt
    have hstate : (emu.firstCore R).cpu.opState = .param0 := by
      rw [Emu.firstCore, core_tick_fetch (by exact h.boundary) (by exact h.noInt)]
    refine .inl ⟨hfirst, ?_, ?_⟩
    · intro h0
      exact absurd (hstate.symm.trans h0) (by decide)
    · obtain ⟨q, f, hprog⟩ := tickProg_boundary emu.bus.sigvotes emu.cpu.clearCycle h.boundary
      rw [hprog, Prog.run_ask, Prog.run_done, writes_answer]
      rfl

end Cb6502
