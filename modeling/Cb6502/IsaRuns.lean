import Cb6502.IsaTiming

/- Whole runs of the emulator are runs of the instruction set. From `cpu_init` on any RAM, with
   the votes changing at will and RDY stalling the CPU at will, what a program sees at the
   instruction boundaries is a `MachineRun`: the reset, then instructions and interrupt
   entries, each with its cycles. Between two boundaries the emulator is in the middle of one of
   them.

   What is proved:
   1. `reset_reaches`: the sequence that `cpu_init` starts.
   2. `InstructionRun.machineRun`: the next boundary is one step of the machine away.
   3. `RamRun.places`: the simulation over any run. -/
namespace Cb6502
open Dialogue

variable {ω : Type} {R : Ram ω}

/-! ## Runs of the machine -/

/-- What decides the instructions to come and their cycles. -/
structure TimedMachine where
  machine : Machine
  pageBoundary : Bool

def Emu.timed (R : Ram ω) (emu : Emu ω) : TimedMachine := ⟨emu.machine R, emu.cpu.pageBoundary⟩

namespace TimedMachine

def step (s : TimedMachine) : TimedMachine :=
  ⟨s.machine.step, s.pageBoundary || indexCrosses s.machine.mem s.machine.regs⟩

def cycles (s : TimedMachine) : Nat := instructionCycles s.machine.mem s.machine.regs s.pageBoundary

def interrupt (src : VecSrc) (s : TimedMachine) : TimedMachine := ⟨s.machine.interrupt src, s.pageBoundary⟩

end TimedMachine

/-- In `n` cycles, with interrupts between the instructions; an IRQ is entered with I clear only. -/
inductive MachineRun (s : TimedMachine) : Nat → TimedMachine → Prop where
  | start : MachineRun s 0 s
  | step {n : Nat} {t : TimedMachine} (h : MachineRun s n t) : MachineRun s (n + t.cycles) t.step
  | nmi {n : Nat} {t : TimedMachine} (h : MachineRun s n t) : MachineRun s (n + 7) (t.interrupt .nmi)
  | irq {n : Nat} {t : TimedMachine} (h : MachineRun s n t)
      (hI : hasFlag flagInterrupt t.machine.regs.status = false) :
      MachineRun s (n + 7) (t.interrupt .irq)

/-! ## The reset sequence -/

section
variable (cpu : Cpu) (m : Mem) (hc : cpu.cycleConsumed = false)
include hc

theorem core_cycle_vec0 (hs : cpu.opState = .vec0) :
    Core.cycle ⟨cpu, m⟩ = ⟨{ cpu with opState := .vec1 }, m⟩ := by
  simp [Core.cycle, Core.after, cycle, cycleFrom, handler, vector, hs, advanceState, ramEnv, Cpu.clearCycle, hc]

/-- The reset clears D where an interrupt does not. -/
theorem core_cycle_vec4_rst (hs : cpu.opState = .vec4) (hsrc : cpu.vecSrc = .rst) :
    Core.cycle ⟨cpu, m⟩ =
      ⟨{ cpu with
          regs.sp := cpu.regs.sp - 1
          regs.status := setFlag flagInterrupt (clearFlag flagDecimal cpu.regs.status)
          opState := .vec5 },
        Function.update m (stackAddr cpu.regs.sp) cpu.regs.status⟩ := by
  rw [Core.cycle, cycle_vector cpu hc (by rw [hs]; decide)]
  simp [Core.after, vector, hs, hsrc, push8, stackAddr, advanceState, ramEnv, Cpu.clearCycle, hc]

end

/-- The core that the sequence of `cpu_init` ends in. -/
def resetCore (m : Mem) : Core :=
  { cpu :=
      { cpuInit with
        regs := (Machine.reset ⟨cpuInit.regs, m⟩).regs
        tmpval := 0xFFFC
        ea := m.word 0xFFFC
        opState := .opcode }
    mem := (Machine.reset ⟨cpuInit.regs, m⟩).mem }

theorem reset_reaches (m : Mem) : Core.Reaches 7 ⟨cpuInit, m⟩ (resetCore m) := by
  obtain ⟨hlo, hhi⟩ := vector_off_frame .rst 0
  have hlo' : pushFrame m 0 0 flagConstant (vectorAddr .rst) = m 0xFFFC := pushFrame_off m 0 0 _ hlo
  have hhi' : pushFrame m 0 0 flagConstant (vectorAddr .rst + 1) = m (0xFFFC + 1) :=
    pushFrame_off m 0 0 _ hhi
  refine .cycle nofun ?_
  rw [core_cycle_vec0 _ _ rfl rfl]
  refine .cycle nofun ?_
  rw [core_cycle_vec1 _ _ rfl rfl]
  refine .cycle nofun ?_
  rw [core_cycle_vec2 _ _ rfl rfl]
  refine .cycle nofun ?_
  rw [core_cycle_vec3 _ _ rfl rfl]
  refine .cycle nofun ?_
  rw [core_cycle_vec4_rst _ _ rfl rfl rfl]
  refine .cycle nofun ?_
  rw [core_cycle_vec5 _ _ rfl rfl]
  refine .cycle nofun ?_
  rw [core_cycle_vec6 _ _ rfl rfl]
  show Core.Reaches 0 ⟨{ cpuInit with
      regs := { cpuInit.regs with
        pc := u16 (pushFrame m 0 0 flagConstant (vectorAddr .rst)) |||
          (u16 (pushFrame m 0 0 flagConstant (vectorAddr .rst + 1)) <<< 8)
        sp := 0 - 1 - 1 - 1
        status := setFlag flagInterrupt (clearFlag flagDecimal flagConstant) }
      tmpval := 0xFFFC
      ea := u16 (pushFrame m 0 0 flagConstant (vectorAddr .rst)) |||
        (u16 (pushFrame m 0 0 flagConstant (vectorAddr .rst + 1)) <<< 8)
      opState := .opcode }, pushFrame m 0 0 flagConstant⟩ _
  have hsp : (0 : BitVec 8) - 1 - 1 - 1 = 0 - 3 := by decide
  rw [hlo', hhi', hsp]
  exact .done _

/-! ## From one boundary to the next -/

section
variable {emu e : Emu ω} {n : Nat}

theorem InstructionRun.rdy (h : InstructionRun emu n e) : emu.bus.sigvotes.rdy = 0 := by
  induction h with
  | first fuel hrdy _ => exact hrdy
  | votes v _ ih => exact ih
  | stalled fuel _ _ _ ih => exact ih
  | tick fuel _ _ _ _ ih => exact ih

/-- The first tick leaves the boundary. -/
theorem InstructionRun.first_inside (hram : emu.bus.OnRam R) (hs : emu.cpu.opState = .opcode)
    (hrdy : emu.bus.sigvotes.rdy = 0) : emu.tick.cpu.opState ≠ .opcode := by
  have hcore := (core_tick hram hrdy).2.1
  have hstate : emu.tick.cpu.opState = ((emu.core R).tick emu.bus.sigvotes).cpu.opState :=
    congrArg (fun c => c.cpu.opState) hcore
  rw [hstate]
  cases hint : intTaken emu.bus.sigvotes emu.cpu.regs with
  | true =>
    rw [core_tick_interrupt (c := emu.core R) hs hint]
    exact nofun
  | false =>
    rw [core_tick_fetch (c := emu.core R) hs hint]
    exact nofun

theorem intTaken_irq {v : SigVotes} {regs : CpuRegs} (hint : intTaken v regs = true)
    (hsrc : intSource v = .irq) : hasFlag flagInterrupt regs.status = false := by
  have hnmi : v.nmiEdgePending = false := by
    unfold intSource at hsrc
    split at hsrc
    · exact absurd hsrc (by decide)
    · exact Bool.eq_false_iff.mpr ‹_›
  rw [intTaken, hnmi, Bool.false_or, irqTaken, Bool.and_eq_true] at hint
  exact bne_eq_false_iff_eq.mpr (beq_iff_eq.mp hint.2)

/-- An instruction takes the cycles of the machine and does what the machine does. -/
theorem InstructionRun.timed_step (hrun : InstructionRun emu n e) (hram : emu.bus.OnRam R)
    (hs : emu.cpu.opState = .opcode) (he : e.cpu.opState = .opcode)
    (hint : intTaken emu.bus.sigvotes emu.cpu.regs = false) :
    n = (emu.timed R).cycles ∧ e.timed R = (emu.timed R).step := by
  have hfetch : Fetches R emu := ⟨hram, hs, hrun.rdy, hint⟩
  have hmachine := executes_step_machine (R := R) ⟨n, hrun, he⟩ hfetch
  obtain ⟨hn, hflag⟩ := hrun.cycles hfetch he
  refine ⟨hn, ?_⟩
  rw [Emu.timed, hmachine, hflag]
  rfl

/-- The entry of an interrupt takes seven. -/
theorem InstructionRun.timed_interrupt (hrun : InstructionRun emu n e) (hram : emu.bus.OnRam R)
    (hs : emu.cpu.opState = .opcode) (he : e.cpu.opState = .opcode)
    (hint : intTaken emu.bus.sigvotes emu.cpu.regs = true) :
    n = 7 ∧ e.timed R = (emu.timed R).interrupt (intSource emu.bus.sigvotes) := by
  obtain ⟨hn, hcore, -⟩ := (InstructionRun.interrupt hram hs hint).2 n e hrun he
  have hregs : e.cpu.regs = _ := congrArg (fun c => c.cpu.regs) hcore
  have hmem : R.mem e.bus.devs = _ := congrArg Core.mem hcore
  have hflag : e.cpu.pageBoundary = _ := congrArg (fun c => c.cpu.pageBoundary) hcore
  refine ⟨hn, ?_⟩
  rw [Emu.timed, Emu.machine, hregs, hmem, hflag]
  rfl

/-- What happens between two boundaries is an instruction or the entry of an interrupt. -/
theorem InstructionRun.machineRun {s : TimedMachine} {k : Nat} (hrun : InstructionRun emu n e)
    (hram : emu.bus.OnRam R) (hs : emu.cpu.opState = .opcode) (he : e.cpu.opState = .opcode)
    (h : MachineRun s k (emu.timed R)) : MachineRun s (k + n) (e.timed R) := by
  cases hint : intTaken emu.bus.sigvotes emu.cpu.regs with
  | false =>
    obtain ⟨hn, hstep⟩ := hrun.timed_step hram hs he hint
    rw [hstep, hn]
    exact h.step
  | true =>
    obtain ⟨hn, hentry⟩ := hrun.timed_interrupt hram hs he hint
    rw [hentry, hn]
    rcases intSource_cases emu.bus.sigvotes with hsrc | hsrc <;> rw [hsrc]
    · exact h.nmi
    · exact h.irq (intTaken_irq hint hsrc)

end

/-! ## Whole runs -/

/-- The runs of the emulator from `cpu_init` on the RAM `R`, with `devs` behind it: changes of the
votes, stalled ticks, and `n` ticks that were not stalled. -/
inductive RamRun (R : Ram ω) (devs : ω) : Nat → Emu ω → Prop where
  | init : RamRun R devs 0 { bus := Bus.init R.conns [] devs, cpu := cpuInit }
  | votes {n : Nat} {e : Emu ω} (v : SigVotes) (h : RamRun R devs n e) :
      RamRun R devs n { e with bus.sigvotes := v }
  | stalled {n : Nat} {e e' : Emu ω} (fuel : Nat) (h : RamRun R devs n e)
      (hrdy : e.bus.sigvotes.rdy ≠ 0) (ht : cpuTick fuel e = some e') : RamRun R devs n e'
  | tick {n : Nat} {e e' : Emu ω} (fuel : Nat) (h : RamRun R devs n e)
      (hrdy : e.bus.sigvotes.rdy = 0) (ht : cpuTick fuel e = some e') : RamRun R devs (n + 1) e'

/-- What a program finds after the reset. -/
def resetMachine (m : Mem) : TimedMachine := ⟨Machine.reset ⟨cpuInit.regs, m⟩, false⟩

/-- The reset takes this many cycles. -/
def resetCycles : Nat := 7

/-- In the middle of the reset sequence. -/
structure InReset (R : Ram ω) (devs : ω) (n : Nat) (e : Emu ω) : Prop where
  steady : e.bus.RamSteady R
  fresh : e.cpu.ctl.fresh = true
  core : e.core R = Core.cycle^[n] ⟨cpuInit, R.mem devs⟩
  early : n < resetCycles

/-- At an instruction boundary. -/
structure AtBoundary (R : Ram ω) (devs : ω) (n : Nat) (e : Emu ω) : Prop where
  steady : e.bus.RamSteady R
  boundary : e.cpu.opState = .opcode
  run : ∃ k, MachineRun (resetMachine (R.mem devs)) k (e.timed R) ∧ n = resetCycles + k

/-- In the middle of what began at the boundary `b`. -/
structure InInstruction (R : Ram ω) (devs : ω) (n : Nat) (b e : Emu ω) : Prop where
  onRam : b.bus.OnRam R
  boundary : b.cpu.opState = .opcode
  inside : e.cpu.opState ≠ .opcode
  run : ∃ k i, MachineRun (resetMachine (R.mem devs)) k (b.timed R) ∧ InstructionRun b i e ∧
    n = resetCycles + k + i

/-- Where a run is. -/
def Places (R : Ram ω) (devs : ω) (n : Nat) (e : Emu ω) : Prop :=
  InReset R devs n e ∨ AtBoundary R devs n e ∨ ∃ b, InInstruction R devs n b e

section
variable {devs : ω} {n : Nat} {e : Emu ω}

theorem ramSteady_votes (h : e.bus.RamSteady R) (v : SigVotes) :
    ({ e.bus with sigvotes := v } : Bus ω).RamSteady R :=
  ⟨⟨h.conns, h.tracers, h.inv⟩, h.last⟩

theorem places_votes (h : Places R devs n e) (v : SigVotes) :
    Places R devs n { e with bus.sigvotes := v } := by
  rcases h with h | h | ⟨b, h⟩
  · exact .inl ⟨ramSteady_votes h.steady v, h.fresh, h.core, h.early⟩
  · exact .inr (.inl ⟨ramSteady_votes h.steady v, h.boundary, h.run⟩)
  · obtain ⟨k, i, hrun, hinstr, hn⟩ := h.run
    exact .inr (.inr ⟨b, h.onRam, h.boundary, h.inside, k, i, hrun, hinstr.votes v, hn⟩)

theorem places_stalled (h : Places R devs n e) (hrdy : e.bus.sigvotes.rdy ≠ 0) {fuel : Nat}
    {e' : Emu ω} (ht : cpuTick fuel e = some e') : Places R devs n e' := by
  rcases h with h | h | ⟨b, h⟩
  · obtain ⟨hsteady, hcore⟩ := core_tick_stalled h.steady hrdy
    rw [eq_tick_of_cpuTick h.fresh ht]
    exact .inl ⟨hsteady, fresh_tick e h.fresh, hcore.trans h.core, h.early⟩
  · obtain ⟨hsteady, hcore⟩ := core_tick_stalled h.steady hrdy
    rw [eq_tick_of_cpuTick (fresh_of_boundary h.boundary) ht]
    have htimed : e.tick.timed R = e.timed R :=
      congrArg (fun c : Core => (⟨⟨c.cpu.regs, c.mem⟩, c.cpu.pageBoundary⟩ : TimedMachine)) hcore
    refine .inr (.inl ⟨hsteady, (congrArg (fun c => c.cpu.opState) hcore).trans h.boundary, ?_⟩)
    rw [htimed]
    exact h.run
  · obtain ⟨k, i, hrun, hinstr, hn⟩ := h.run
    have hinstr' := hinstr.stalled fuel hrdy ht
    have hinside : e'.cpu.opState ≠ .opcode := by
      obtain ⟨j, -, hafter⟩ := hinstr.after h.onRam h.boundary
      rw [eq_tick_of_cpuTick hafter.fresh ht, tick_stalled _ hrdy]
      exact h.inside
    exact .inr (.inr ⟨b, h.onRam, h.boundary, hinside, k, i, hrun, hinstr', hn⟩)

theorem InReset.inside (h : InReset R devs n e) : e.cpu.opState ≠ .opcode := by
  have hin := (reset_reaches (R.mem devs)).iterate.2 n h.early
  rw [← h.core] at hin
  exact hin

/-- The reset goes on, or ends at the first boundary. -/
theorem InReset.tick (h : InReset R devs n e) (hrdy : e.bus.sigvotes.rdy = 0) :
    InReset R devs (n + 1) e.tick ∨ n + 1 = resetCycles ∧ e.tick.bus.RamSteady R ∧
      e.tick.cpu.opState = .opcode ∧ e.tick.timed R = resetMachine (R.mem devs) := by
  have hends := (reset_reaches (R.mem devs)).iterate.1
  have hcycle : (e.core R).tick e.bus.sigvotes = (e.core R).cycle := by
    show Core.after _ _ = Core.after _ _
    rw [tickProg_inside _ (e.core R).cpu h.inside]
  have hcore : e.tick.core R = Core.cycle^[n + 1] ⟨cpuInit, R.mem devs⟩ := by
    rw [(core_tick h.steady.toOnRam hrdy).2.1, hcycle, h.core, Function.iterate_succ_apply']
  have hsteady := ramSteady_tick h.steady
  by_cases hlast : n + 1 < resetCycles
  · exact .inl ⟨hsteady, fresh_tick e h.fresh, hcore, hlast⟩
  · have hn : n + 1 = resetCycles := by
      have hearly := h.early
      omega
    rw [hn, show resetCycles = 7 from rfl, hends] at hcore
    have htimed : e.tick.timed R = resetMachine (R.mem devs) :=
      congrArg (fun c : Core => (⟨⟨c.cpu.regs, c.mem⟩, c.cpu.pageBoundary⟩ : TimedMachine)) hcore
    exact .inr ⟨hn, hsteady, congrArg (fun c => c.cpu.opState) hcore, htimed⟩

theorem places_reset (h : InReset R devs n e) (hrdy : e.bus.sigvotes.rdy = 0) :
    Places R devs (n + 1) e.tick := by
  rcases h.tick hrdy with hreset | ⟨hn, hsteady, hs, htimed⟩
  · exact .inl hreset
  · refine .inr (.inl ⟨hsteady, hs, 0, ?_, hn⟩)
    rw [htimed]
    exact .start

theorem places_tick (h : Places R devs n e) (hrdy : e.bus.sigvotes.rdy = 0) {fuel : Nat} {e' : Emu ω}
    (ht : cpuTick fuel e = some e') : Places R devs (n + 1) e' := by
  rcases h with h | h | ⟨b, h⟩
  · rw [eq_tick_of_cpuTick h.fresh ht]
    exact places_reset h hrdy
  · obtain ⟨k, hrun, hn⟩ := h.run
    have hfirst : InstructionRun e 1 e' := .first fuel hrdy ht
    have hinside := InstructionRun.first_inside h.steady.toOnRam h.boundary hrdy
    rw [← eq_tick_of_cpuTick (fresh_of_boundary h.boundary) ht] at hinside
    refine .inr (.inr ⟨e, h.steady.toOnRam, h.boundary, hinside, k, 1, hrun, hfirst, ?_⟩)
    omega
  · obtain ⟨k, i, hrun, hinstr, hn⟩ := h.run
    have hnext := hinstr.tick fuel h.inside hrdy ht
    by_cases he : e'.cpu.opState = .opcode
    · obtain ⟨j, -, hafter⟩ := hnext.after h.onRam h.boundary
      refine .inr (.inl ⟨hafter.steady, he, k + (i + 1), hnext.machineRun h.onRam h.boundary he hrun, ?_⟩)
      omega
    · refine .inr (.inr ⟨b, h.onRam, h.boundary, he, k, i + 1, hrun, hnext, ?_⟩)
      omega

/-- A run is in the reset, or some cycles into an instruction that the machine has come to. -/
theorem RamRun.places (h : RamRun R devs n e) (hinv : R.inv devs) : Places R devs n e := by
  induction h with
  | init => exact .inl ⟨⟨⟨rfl, rfl, hinv⟩, nofun⟩, rfl, rfl, by decide⟩
  | votes v _ ih => exact places_votes ih v
  | stalled fuel _ hrdy ht ih => exact places_stalled ih hrdy ht
  | tick fuel _ hrdy ht ih => exact places_tick ih hrdy ht

/-- At a boundary the run is one of the machine. -/
theorem RamRun.machineRun (h : RamRun R devs n e) (hinv : R.inv devs) (hs : e.cpu.opState = .opcode) :
    ∃ k, MachineRun (resetMachine (R.mem devs)) k (e.timed R) ∧ n = resetCycles + k := by
  rcases h.places hinv with hreset | hboundary | ⟨b, hinside⟩
  · exact absurd hs hreset.inside
  · exact hboundary.run
  · exact absurd hs hinside.inside

end

/-- Every run of the emulator is a run of the instruction set. From `cpu_init` on a RAM, with the
votes and the stalls at will: at a boundary, the registers, the bytes and the page-crossing flag
are those of a run of the machine from the reset, and the ticks that were not stalled are the
cycles of that run behind the seven of the reset; elsewhere the reset sequence is not over, or
such a boundary is behind and the emulator in the middle of what began there. -/
theorem runs_machine {devs : ω} (hinv : R.inv devs) {n : Nat} {e : Emu ω} (h : RamRun R devs n e) :
    (e.cpu.opState = .opcode →
      ∃ k, MachineRun (resetMachine (R.mem devs)) k (e.timed R) ∧ n = resetCycles + k) ∧
    (e.cpu.opState ≠ .opcode → n < resetCycles ∨ ∃ (b : Emu ω) (k i : Nat), b.cpu.opState = .opcode ∧
      MachineRun (resetMachine (R.mem devs)) k (b.timed R) ∧ InstructionRun b i e ∧
        n = resetCycles + k + i) := by
  refine ⟨h.machineRun hinv, fun hoff => ?_⟩
  rcases h.places hinv with hreset | hboundary | ⟨b, hinside⟩
  · exact .inl hreset.early
  · exact absurd hboundary.boundary hoff
  · right
    obtain ⟨k, i, hrun, hinstr, hn⟩ := hinside.run
    exact ⟨b, k, i, hinside.boundary, hrun, hinstr, hn⟩

/-- Ticks without votes. -/
theorem ramRun_ticks {devs : ω} (hinv : R.inv devs) (n : Nat) :
    RamRun R devs n (Nat.repeat Emu.tick n { bus := Bus.init R.conns [] devs, cpu := cpuInit }) ∧
      (Nat.repeat Emu.tick n { bus := Bus.init R.conns [] devs, cpu := cpuInit }).bus.sigvotes = {} ∧
      (Nat.repeat Emu.tick n { bus := Bus.init R.conns [] devs, cpu := cpuInit }).bus.OnRam R ∧
      (Nat.repeat Emu.tick n { bus := Bus.init R.conns [] devs, cpu := cpuInit }).cpu.ctl.fresh = true := by
  induction n with
  | zero => exact ⟨.init, rfl, ⟨rfl, rfl, hinv⟩, rfl⟩
  | succ n ih =>
    obtain ⟨hrun, hvotes, hram, hfresh⟩ := ih
    rw [Nat.repeat]
    generalize Nat.repeat Emu.tick n { bus := Bus.init R.conns [] devs, cpu := cpuInit } = e at *
    have hrdy : e.bus.sigvotes.rdy = 0 := by rw [hvotes]
    obtain ⟨hram', -, hvotes'⟩ := core_tick hram hrdy
    refine ⟨.tick 4 hrun hrdy (cpuTick_eq 0 e hfresh), ?_, hram', fresh_tick e hfresh⟩
    rw [hvotes', Bus.ackNmi_of_not_pending _ _ (by rw [hvotes]), hvotes]

/-- Two of the `NOP`s that fill a memory. -/
theorem runs_machine_of_nops :
    ∃ e : Emu Mem, RamRun flatRam (fun _ => 0xEA) 11 e ∧ e.cpu.opState = .opcode ∧
      ∃ k, MachineRun (resetMachine fun _ => 0xEA) k (e.timed flatRam) ∧ k = 4 := by
  obtain ⟨hrun, -⟩ := ramRun_ticks (R := flatRam) (show flatRam.inv fun _ => 0xEA from trivial) 11
  have hs : (Nat.repeat Emu.tick 11 ({ bus := Bus.init flatRam.conns [] fun _ => 0xEA
                                       cpu := cpuInit } : Emu Mem)).cpu.opState = .opcode := by
    decide +kernel
  obtain ⟨k, hmachine, hn⟩ := (runs_machine (R := flatRam) trivial hrun).1 hs
  refine ⟨_, hrun, hs, k, hmachine, ?_⟩
  have hreset : resetCycles = 7 := rfl
  omega

end Cb6502
