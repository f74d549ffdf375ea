import Mathlib.Logic.Function.Iterate
import Cb6502.Ram
import Cb6502.Runs

/- Interrupts on a RAM. `InstructionRun` is a run of `cpu_tick` from one instruction
   boundary to the next, with the votes changing and RDY stalling the CPU on the way. The
   stalls do nothing, so where such a run ends is decided by the CPU and the bytes at its
   start (`InstructionRun.ends`). For the interrupt sequence that is the frame pushed on the
   stack, for `RTI` the frame pulled again; the two compose to the identity on the registers
   (`interrupt_transparent`). -/
namespace Cb6502
open Dialogue

variable {ω : Type} {R : Ram ω}

/-! ## Runs from a boundary to the next -/

/-- From the boundary `emu` with RDY not held, `n` ticks that were not stalled, any number
of stalled ones, and changes of the votes; no tick follows the return to a boundary. -/
inductive InstructionRun (emu : Emu ω) : Nat → Emu ω → Prop where
  | first {e : Emu ω} (fuel : Nat) (hrdy : emu.bus.sigvotes.rdy = 0)
      (ht : cpuTick fuel emu = some e) : InstructionRun emu 1 e
  | votes {n : Nat} {e : Emu ω} (v : SigVotes) (h : InstructionRun emu n e) :
      InstructionRun emu n { e with bus.sigvotes := v }
  | stalled {n : Nat} {e e' : Emu ω} (fuel : Nat) (h : InstructionRun emu n e)
      (hrdy : e.bus.sigvotes.rdy ≠ 0) (ht : cpuTick fuel e = some e') : InstructionRun emu n e'
  | tick {n : Nat} {e e' : Emu ω} (fuel : Nat) (h : InstructionRun emu n e)
      (hs : e.cpu.opState ≠ .opcode) (hrdy : e.bus.sigvotes.rdy = 0)
      (ht : cpuTick fuel e = some e') : InstructionRun emu (n + 1) e'

/-- The core after one cycle past the first. -/
def Core.cycle (c : Core) : Core := c.after (Cb6502.cycle c.cpu)

/-- The core after the first tick from `emu`. -/
def Emu.firstCore (R : Ram ω) (emu : Emu ω) : Core := (emu.core R).tick emu.bus.sigvotes

/-- `k` cycles lead from `c` to `d`, and the boundary is not met before. -/
inductive Core.Reaches : Nat → Core → Core → Prop where
  | done (c : Core) : Reaches 0 c c
  | cycle {k : Nat} {c d : Core} (hs : c.cpu.opState ≠ .opcode) (h : Reaches k c.cycle d) :
      Reaches (k + 1) c d

theorem Core.Reaches.iterate {k : Nat} {c d : Core} (h : Core.Reaches k c d) :
    Core.cycle^[k] c = d ∧ ∀ j < k, (Core.cycle^[j] c).cpu.opState ≠ .opcode := by
  induction h with
  | done c => exact ⟨rfl, nofun⟩
  | cycle hs _ ih =>
    obtain ⟨hend, hin⟩ := ih
    refine ⟨hend, ?_⟩
    intro j hj
    cases j with
    | zero => exact hs
    | succ j => exact hin j (Nat.lt_of_succ_lt_succ hj)

/-- Where `k` cycles past the first tick lead; the boundary is not met on the way. -/
structure After (R : Ram ω) (emu : Emu ω) (k : Nat) (e : Emu ω) : Prop where
  steady : e.bus.RamSteady R
  fresh : e.cpu.ctl.fresh = true
  core : e.core R = Core.cycle^[k] (emu.firstCore R)
  inside : ∀ j < k, (Core.cycle^[j] (emu.firstCore R)).cpu.opState ≠ .opcode

/-- The first tick from a boundary makes one request, a read. -/
theorem tickProg_boundary (v : SigVotes) (cpu : Cpu) (hs : cpu.opState = .opcode) :
    ∃ (q : BusRead) (f : BitVec 8 → Cpu), tickProg v cpu = .ask q fun r => .done (f r) := by
  simp only [tickProg, hs, if_true]
  split
  · exact ⟨_, _, rfl⟩
  · split
    · exact ⟨_, _, rfl⟩
    · exact ⟨_, _, rfl⟩

theorem ramSteady_first {emu : Emu ω} (h : emu.bus.OnRam R) (hs : emu.cpu.opState = .opcode)
    (hrdy : emu.bus.sigvotes.rdy = 0) : emu.tick.bus.RamSteady R := by
  obtain ⟨q, f, hprog⟩ := tickProg_boundary emu.bus.sigvotes emu.cpu.clearCycle hs
  rw [tick_unstalled emu hrdy, Emu.tickRun, hprog]
  show (busEnv.answer q (emu.bus.ackNmi emu.cpu)).2.RamSteady R
  have hack := h.ackNmi emu.cpu
  simp only [busEnv]
  split
  · exact (hack.read q.addr true).1
  · exact (hack.read q.addr false).1

theorem fresh_of_boundary {cpu : Cpu} (hs : cpu.opState = .opcode) : cpu.ctl.fresh = true := by
  simp [Ctl.fresh, Ctl.ok, Cpu.ctl, hs]

/-- What a handler call keeps, a cycle keeps. -/
theorem cycleFrom_keeps {P : Cpu → RamState → Prop}
    (hhandler : ∀ (c : Cpu) (s : RamState), P c s →
      P ((handler c).run ramEnv s).1 ((handler c).run ramEnv s).2)
    (n : Nat) {c : Cpu} {s : RamState} (h : P c s) :
    P ((cycleFrom n c).run ramEnv s).1 ((cycleFrom n c).run ramEnv s).2 := by
  induction n generalizing c s with
  | zero => exact h
  | succ n ih =>
    have hstep := hhandler c s h
    rw [cycleFrom, Prog.run_bind, Prog.run_ite]
    split
    · exact hstep
    · exact ih hstep

section
variable {emu : Emu ω} (hram : emu.bus.OnRam R) (hs : emu.cpu.opState = .opcode)
include hram hs

theorem After.first (hrdy : emu.bus.sigvotes.rdy = 0) : After R emu 0 emu.tick :=
  ⟨ramSteady_first hram hs hrdy, fresh_tick emu (fresh_of_boundary hs), (core_tick hram hrdy).2.1,
    nofun⟩

omit hram hs in
theorem After.votes {k : Nat} {e : Emu ω} (h : After R emu k e) (v : SigVotes) :
    After R emu k { e with bus.sigvotes := v } :=
  ⟨⟨⟨h.steady.conns, h.steady.tracers, h.steady.inv⟩, h.steady.last⟩, h.fresh, h.core, h.inside⟩

omit hram hs in
theorem After.stalled {k : Nat} {e : Emu ω} (h : After R emu k e) (hrdy : e.bus.sigvotes.rdy ≠ 0) :
    After R emu k e.tick := by
  obtain ⟨hsteady, hcore⟩ := core_tick_stalled h.steady hrdy
  exact ⟨hsteady, fresh_tick e h.fresh, hcore.trans h.core, h.inside⟩

omit hram hs in
theorem After.tick {k : Nat} {e : Emu ω} (h : After R emu k e) (hoff : e.cpu.opState ≠ .opcode)
    (hrdy : e.bus.sigvotes.rdy = 0) : After R emu (k + 1) e.tick := by
  have hcycle : (e.core R).tick e.bus.sigvotes = (e.core R).cycle := by
    show Core.after _ _ = Core.after _ _
    rw [tickProg_inside _ (e.core R).cpu hoff]
  refine ⟨ramSteady_tick h.steady, fresh_tick e h.fresh, ?_, ?_⟩
  · rw [(core_tick h.steady.toOnRam hrdy).2.1, hcycle, h.core, Function.iterate_succ_apply']
  · intro j hj
    rcases Nat.lt_succ_iff_lt_or_eq.mp hj with hlt | rfl
    · exact h.inside j hlt
    · rw [← h.core]
      exact hoff

theorem InstructionRun.after {n : Nat} {e : Emu ω} (h : InstructionRun emu n e) :
    ∃ k, n = k + 1 ∧ After R emu k e := by
  induction h with
  | first fuel hrdy ht =>
    rw [eq_tick_of_cpuTick (fresh_of_boundary hs) ht]
    exact ⟨0, rfl, After.first hram hs hrdy⟩
  | votes v _ ih =>
    obtain ⟨k, hn, h⟩ := ih
    exact ⟨k, hn, h.votes v⟩
  | stalled fuel _ hrdy ht ih =>
    obtain ⟨k, hn, h⟩ := ih
    rw [eq_tick_of_cpuTick h.fresh ht]
    exact ⟨k, hn, h.stalled hrdy⟩
  | tick fuel _ hoff hrdy ht ih =>
    obtain ⟨k, rfl, h⟩ := ih
    rw [eq_tick_of_cpuTick h.fresh ht]
    exact ⟨k + 1, rfl, h.tick hoff hrdy⟩

theorem InstructionRun.onRam {n : Nat} {e : Emu ω} (h : InstructionRun emu n e) : e.bus.OnRam R := by
  obtain ⟨k, -, hafter⟩ := h.after hram hs
  exact hafter.steady.toOnRam

/-- What handler calls keep from the first tick of an instruction on holds in its run. -/
theorem InstructionRun.keeps {P : Cpu → Mem → Prop} {n : Nat} {e : Emu ω} (h : InstructionRun emu n e)
    (hhandler : ∀ (c : Cpu) (s : RamState), P c s.mem →
      P ((handler c).run ramEnv s).1 ((handler c).run ramEnv s).2.mem)
    (hclear : ∀ c mem, P c mem → P c.clearCycle mem)
    (hfirst : P (emu.firstCore R).cpu (emu.firstCore R).mem) :
    P e.cpu.clearCycle (R.mem e.bus.devs) := by
  have hiterate : ∀ k, P (Core.cycle^[k] (emu.firstCore R)).cpu (Core.cycle^[k] (emu.firstCore R)).mem := by
    intro k
    induction k with
    | zero => exact hfirst
    | succ k ih =>
      rw [Function.iterate_succ_apply']
      exact hclear _ _ (cycleFrom_keeps (P := fun c s => P c s.mem) hhandler 3 (s := ⟨_, []⟩) ih)
  obtain ⟨k, -, hafter⟩ := h.after hram hs
  have hphase := hiterate k
  rw [← hafter.core] at hphase
  exact hphase

/-- A run to the next boundary ends where the cycles first meet one. -/
theorem InstructionRun.ends {m n : Nat} {e : Emu ω} {d : Core} (h : InstructionRun emu n e)
    (he : e.cpu.opState = .opcode) (hreach : Core.Reaches m (emu.firstCore R) d)
    (hd : d.cpu.opState = .opcode) : n = m + 1 ∧ e.core R = d ∧ e.bus.RamSteady R := by
  obtain ⟨rfl, hin⟩ := hreach.iterate
  obtain ⟨k, rfl, hafter⟩ := h.after hram hs
  have hk : (Core.cycle^[k] (emu.firstCore R)).cpu.opState = .opcode := by
    rw [← hafter.core]
    exact he
  obtain hlt | rfl | hgt := Nat.lt_trichotomy k m
  · exact absurd hk (hin k hlt)
  · exact ⟨rfl, hafter.core, hafter.steady⟩
  · exact absurd hd (hafter.inside m hgt)

/-- Without stalls the run gets there, and the votes are those of its first tick. -/
theorem InstructionRun.exists {m : Nat} {d : Core} (hrdy : emu.bus.sigvotes.rdy = 0)
    (hreach : Core.Reaches m (emu.firstCore R) d) :
    ∃ e, InstructionRun emu (m + 1) e ∧ e.core R = d ∧
      e.bus.sigvotes = (emu.bus.ackNmi emu.cpu).sigvotes := by
  obtain ⟨rfl, hin⟩ := hreach.iterate
  have hacked : (emu.bus.ackNmi emu.cpu).sigvotes.rdy = 0 := by
    rw [Bus.ackNmi, if_pos hs]
    exact hrdy
  suffices key : ∀ k ≤ m, ∃ e, InstructionRun emu (k + 1) e ∧ After R emu k e ∧
      e.bus.sigvotes = (emu.bus.ackNmi emu.cpu).sigvotes by
    obtain ⟨e, hrun, hafter, hvotes⟩ := key m (Nat.le_refl m)
    exact ⟨e, hrun, hafter.core, hvotes⟩
  intro k
  induction k with
  | zero =>
    intro _
    exact ⟨emu.tick, .first 4 hrdy (cpuTick_eq 0 emu (fresh_of_boundary hs)),
      After.first hram hs hrdy, (core_tick hram hrdy).2.2⟩
  | succ k ih =>
    intro hk
    obtain ⟨e, hrun, hafter, hvotes⟩ := ih (Nat.le_of_succ_le hk)
    have hoff : e.cpu.opState ≠ .opcode := by
      have := hin k hk
      rw [← hafter.core] at this
      exact this
    have hr : e.bus.sigvotes.rdy = 0 := by rw [hvotes]; exact hacked
    refine ⟨e.tick, .tick 4 hrun hoff hr (cpuTick_eq 0 e hafter.fresh), hafter.tick hoff hr, ?_⟩
    rw [(core_tick hafter.steady.toOnRam hr).2.2, Bus.ackNmi, if_neg hoff]
    exact hvotes

end

/-! ## The frame on the stack -/

/-- The address `push8` writes to at the stack pointer `sp`. -/
def stackAddr (sp : BitVec 8) : BitVec 16 := baseStack + u16 sp

theorem stackAddr_inj {sp sp' : BitVec 8} (h : stackAddr sp = stackAddr sp') : sp = sp' := by
  unfold stackAddr baseStack at h
  bv_omega

/-- The bytes an interrupt at `pc` with `status` pushes. -/
def pushFrame (m : Mem) (sp : BitVec 8) (pc : BitVec 16) (status : BitVec 8) : Mem :=
  Function.update
    (Function.update (Function.update m (stackAddr sp) (u8 (pc >>> 8))) (stackAddr (sp - 1)) (u8 pc))
    (stackAddr (sp - 2)) status

/-- The addresses of the frame pushed at the stack pointer `sp`. -/
def frameAddrs (sp : BitVec 8) : List (BitVec 16) :=
  [stackAddr sp, stackAddr (sp - 1), stackAddr (sp - 2)]

theorem pushFrame_off (m : Mem) (sp : BitVec 8) (pc : BitVec 16) (status : BitVec 8)
    {addr : BitVec 16} (h : addr ∉ frameAddrs sp) : pushFrame m sp pc status addr = m addr := by
  simp only [frameAddrs, List.mem_cons, List.not_mem_nil, or_false, not_or] at h
  obtain ⟨h0, h1, h2⟩ := h
  rw [pushFrame, Function.update_of_ne h2, Function.update_of_ne h1, Function.update_of_ne h0]

/-- What the frame holds, from the top of the stack down. -/
theorem pushFrame_on (m : Mem) (sp : BitVec 8) (pc : BitVec 16) (status : BitVec 8) :
    pushFrame m sp pc status (stackAddr (sp - 2)) = status ∧
      pushFrame m sp pc status (stackAddr (sp - 1)) = u8 pc ∧
      pushFrame m sp pc status (stackAddr sp) = u8 (pc >>> 8) := by
  have h12 : stackAddr (sp - 1) ≠ stackAddr (sp - 2) := fun h => by
    have := stackAddr_inj h
    bv_omega
  have h02 : stackAddr sp ≠ stackAddr (sp - 2) := fun h => by
    have := stackAddr_inj h
    bv_omega
  have h01 : stackAddr sp ≠ stackAddr (sp - 1) := fun h => by
    have := stackAddr_inj h
    bv_omega
  refine ⟨?_, ?_, ?_⟩
  · rw [pushFrame, Function.update_self]
  · rw [pushFrame, Function.update_of_ne h12, Function.update_self]
  · rw [pushFrame, Function.update_of_ne h02, Function.update_of_ne h01, Function.update_self]

/-- The vectors are not on the stack. -/
theorem vector_off_frame (src : VecSrc) (sp : BitVec 8) :
    vectorAddr src ∉ frameAddrs sp ∧ vectorAddr src + 1 ∉ frameAddrs sp := by
  have hlow : ∀ addr ∈ frameAddrs sp, addr < 0x200 := by
    simp only [frameAddrs, List.forall_mem_cons, stackAddr, baseStack]
    refine ⟨?_, ?_, ?_, nofun⟩ <;> bv_omega
  refine ⟨fun h => ?_, fun h => ?_⟩
  all_goals
    have := hlow _ h
    revert this
    cases src <;> decide

/-- The two bytes of a word, low byte first, put together as the handlers do. -/
def joinBytes (lo hi : BitVec 8) : BitVec 16 := u16 lo ||| (u16 hi <<< 8)

theorem joinBytes_split (w : BitVec 16) : joinBytes (u8 w) (u8 (w >>> 8)) = w := by
  unfold joinBytes
  ext i hi
  simp only [BitVec.getElem_or, BitVec.getElem_setWidth, BitVec.getLsbD_setWidth,
    BitVec.getElem_shiftLeft, BitVec.getLsbD_ushiftRight]
  by_cases hlow : i < 8
  · simp [hlow, hi]
  · have hhigh : i - 8 < 8 := by omega
    have hi' : 8 + (i - 8) = i := by omega
    simp [hlow, hhigh, hi', hi]

/-! ## The interrupt sequence -/

/-- The source of the interrupt taken when the votes are `v`. -/
def intSource (v : SigVotes) : VecSrc := if v.nmiEdgePending then .nmi else .irq

/-- An interrupt is taken at the next boundary. -/
def intTaken (v : SigVotes) (regs : CpuRegs) : Bool := v.nmiEdgePending || irqTaken v regs

theorem core_tick_interrupt {v : SigVotes} {c : Core} (hs : c.cpu.opState = .opcode)
    (hint : intTaken v c.cpu.regs = true) :
    c.tick v = ⟨{ c.cpu with vecSrc := intSource v, opState := .vec1, cycleConsumed := false },
      c.mem⟩ := by
  cases hn : v.nmiEdgePending with
  | true =>
    simp [Core.tick, Core.after, tickProg, hs, hn, vector, Cpu.beginVector, advanceState, intSource,
      ramEnv, Cpu.clearCycle]
  | false =>
    have hirq : irqTaken v c.cpu.regs = true := by simpa [intTaken, hn] using hint
    simp [Core.tick, Core.after, tickProg, hs, hn, hirq, vector, Cpu.beginVector, advanceState,
      intSource, ramEnv, Cpu.clearCycle]

/-- The status that the sequence pushes: as it is, and with the break flag for BRK. -/
def pushedStatus (src : VecSrc) (status : BitVec 8) : BitVec 8 :=
  if src = .brk then status ||| flagBreak else status

/-- The states of the vector sequence past its first cycle. -/
def vecStates : List OpState := [.vec1, .vec2, .vec3, .vec4, .vec5, .vec6]

theorem cycle_vector (cpu : Cpu) (hc : cpu.cycleConsumed = false) (hs : cpu.opState ∈ vecStates) :
    cycle cpu = vector cpu := by
  obtain ⟨regs, ea, reladdr, value, result, opcode, tmpval, src, s, pb, cc⟩ := cpu
  obtain rfl : cc = false := hc
  simp only [vecStates, List.mem_cons, List.not_mem_nil, or_false] at hs
  rcases hs with rfl | rfl | rfl | rfl | rfl | rfl <;>
    simp [cycle, cycleFrom, handler, vector, push8, advanceState]

section
variable (cpu : Cpu) (m : Mem) (hc : cpu.cycleConsumed = false)
include hc

theorem core_cycle_vec1 (hs : cpu.opState = .vec1) :
    Core.cycle ⟨cpu, m⟩ = ⟨{ cpu with opState := .vec2 }, m⟩ := by
  rw [Core.cycle, cycle_vector cpu hc (by rw [hs]; decide)]
  simp [Core.after, vector, hs, advanceState, ramEnv, Cpu.clearCycle, hc]

theorem core_cycle_vec2 (hs : cpu.opState = .vec2) :
    Core.cycle ⟨cpu, m⟩ = ⟨{ cpu with regs.sp := cpu.regs.sp - 1, opState := .vec3 },
      Function.update m (stackAddr cpu.regs.sp) (u8 (cpu.regs.pc >>> 8))⟩ := by
  rw [Core.cycle, cycle_vector cpu hc (by rw [hs]; decide)]
  simp [Core.after, vector, hs, push8, stackAddr, advanceState, ramEnv, Cpu.clearCycle, hc]

theorem core_cycle_vec3 (hs : cpu.opState = .vec3) :
    Core.cycle ⟨cpu, m⟩ = ⟨{ cpu with regs.sp := cpu.regs.sp - 1, opState := .vec4 },
      Function.update m (stackAddr cpu.regs.sp) (u8 cpu.regs.pc)⟩ := by
  rw [Core.cycle, cycle_vector cpu hc (by rw [hs]; decide)]
  simp [Core.after, vector, hs, push8, stackAddr, advanceState, ramEnv, Cpu.clearCycle, hc]

theorem core_cycle_vec4 (hs : cpu.opState = .vec4) (hsrc : cpu.vecSrc ≠ .rst) :
    Core.cycle ⟨cpu, m⟩ =
      ⟨{ cpu with
          regs.sp := cpu.regs.sp - 1
          regs.status := setFlag flagInterrupt cpu.regs.status
          opState := .vec5 },
        Function.update m (stackAddr cpu.regs.sp) (pushedStatus cpu.vecSrc cpu.regs.status)⟩ := by
  rw [Core.cycle, cycle_vector cpu hc (by rw [hs]; decide)]
  simp [Core.after, vector, hs, hsrc, push8, stackAddr, pushedStatus, advanceState, ramEnv, Cpu.clearCycle, hc]

theorem core_cycle_vec5 (hs : cpu.opState = .vec5) :
    Core.cycle ⟨cpu, m⟩ =
      ⟨{ cpu with
          tmpval := vectorAddr cpu.vecSrc
          ea := u16 (m (vectorAddr cpu.vecSrc))
          opState := .vec6 }, m⟩ := by
  rw [Core.cycle, cycle_vector cpu hc (by rw [hs]; decide)]
  simp [Core.after, vector, hs, advanceState, ramEnv, Cpu.clearCycle, hc]

theorem core_cycle_vec6 (hs : cpu.opState = .vec6) :
    Core.cycle ⟨cpu, m⟩ =
      ⟨{ cpu with
          ea := cpu.ea ||| (u16 (m (cpu.tmpval + 1)) <<< 8)
          regs.pc := cpu.ea ||| (u16 (m (cpu.tmpval + 1)) <<< 8)
          opState := .opcode }, m⟩ := by
  rw [Core.cycle, cycle_vector cpu hc (by rw [hs]; decide)]
  simp [Core.after, vector, hs, advanceState, ramEnv, Cpu.clearCycle, hc]

end

/-! ## RTI -/

section
variable (cpu : Cpu) (m : Mem) (hc : cpu.cycleConsumed = false) (hop : cpu.opcode = 0x40#8)
include hc hop

/-- The dropped read of the byte after the opcode, and the first cycle of the handler. -/
theorem core_cycle_rti0 (hs : cpu.opState = .param0) :
    Core.cycle ⟨cpu, m⟩ = ⟨{ cpu with opState := .op1 }, m⟩ := by
  have hmode : addrtable 0x40#8 = .imp := by decide
  have hrti : optable 0x40#8 = .rti := by decide
  simp [Core.cycle, Core.after, cycle, cycleFrom, handler, hs, hop, hmode, addrHandlers, imp, hrti,
    ops, rti, advanceState, ramEnv, Cpu.clearCycle, hc]

theorem cycle_rti (hs : cpu.opState ∈ [OpState.op1, .op2, .op3, .op4]) : cycle cpu = rti cpu := by
  obtain ⟨regs, ea, reladdr, value, result, opcode, tmpval, src, s, pb, cc⟩ := cpu
  obtain rfl : cc = false := hc
  obtain rfl : opcode = 0x40#8 := hop
  have hrti : optable 0x40#8 = .rti := by decide
  simp only [List.mem_cons, List.not_mem_nil, or_false] at hs
  rcases hs with rfl | rfl | rfl | rfl <;>
    simp [cycle, cycleFrom, handler, hrti, ops, rti, pull8, advanceState]

theorem core_cycle_rti1 (hs : cpu.opState = .op1) :
    Core.cycle ⟨cpu, m⟩ = ⟨{ cpu with opState := .op2 }, m⟩ := by
  rw [Core.cycle, cycle_rti cpu hc hop (by rw [hs]; decide)]
  simp [Core.after, rti, hs, advanceState, ramEnv, Cpu.clearCycle, hc]

theorem core_cycle_rti2 (hs : cpu.opState = .op2) :
    Core.cycle ⟨cpu, m⟩ =
      ⟨{ cpu with
          regs.sp := cpu.regs.sp + 1
          regs.status := m (stackAddr (cpu.regs.sp + 1))
          opState := .op3 }, m⟩ := by
  rw [Core.cycle, cycle_rti cpu hc hop (by rw [hs]; decide)]
  simp [Core.after, rti, hs, pull8, stackAddr, advanceState, ramEnv, Cpu.clearCycle, hc]

theorem core_cycle_rti3 (hs : cpu.opState = .op3) :
    Core.cycle ⟨cpu, m⟩ =
      ⟨{ cpu with
          regs.sp := cpu.regs.sp + 1
          tmpval := u16 (m (stackAddr (cpu.regs.sp + 1)))
          opState := .op4 }, m⟩ := by
  rw [Core.cycle, cycle_rti cpu hc hop (by rw [hs]; decide)]
  simp [Core.after, rti, hs, pull8, stackAddr, advanceState, ramEnv, Cpu.clearCycle, hc]

theorem core_cycle_rti4 (hs : cpu.opState = .op4) :
    Core.cycle ⟨cpu, m⟩ =
      ⟨{ cpu with
          regs.sp := cpu.regs.sp + 1
          tmpval := cpu.tmpval ||| (u16 (m (stackAddr (cpu.regs.sp + 1))) <<< 8)
          regs.pc := cpu.tmpval ||| (u16 (m (stackAddr (cpu.regs.sp + 1))) <<< 8)
          opState := .opcode }, m⟩ := by
  rw [Core.cycle, cycle_rti cpu hc hop (by rw [hs]; decide)]
  simp [Core.after, rti, hs, pull8, stackAddr, advanceState, ramEnv, Cpu.clearCycle, hc]

end

/-! ## Entry and return -/

/-- The word at `addr`, low byte first. -/
def Mem.word (m : Mem) (addr : BitVec 16) : BitVec 16 := joinBytes (m addr) (m (addr + 1))

/-- The core after the interrupt sequence. -/
def Core.entered (c : Core) (src : VecSrc) : Core :=
  { cpu :=
      { c.cpu with
        regs := { c.cpu.regs with
          pc := c.mem.word (vectorAddr src)
          sp := c.cpu.regs.sp - 3
          status := setFlag flagInterrupt c.cpu.regs.status }
        vecSrc := src
        tmpval := vectorAddr src
        ea := c.mem.word (vectorAddr src)
        opState := .opcode
        cycleConsumed := false }
    mem := pushFrame c.mem c.cpu.regs.sp c.cpu.regs.pc c.cpu.regs.status }

/-- From its pushes on, the sequence is the same for interrupts and BRK. -/
theorem vector_reaches (cpu : Cpu) (m : Mem) (hc : cpu.cycleConsumed = false) (hs : cpu.opState = .vec2)
    (hsrc : cpu.vecSrc ≠ .rst) :
    Core.Reaches 5 ⟨cpu, m⟩
      ⟨{ cpu with
          regs := { cpu.regs with
            pc := m.word (vectorAddr cpu.vecSrc)
            sp := cpu.regs.sp - 3
            status := setFlag flagInterrupt cpu.regs.status }
          tmpval := vectorAddr cpu.vecSrc
          ea := m.word (vectorAddr cpu.vecSrc)
          opState := .opcode },
        pushFrame m cpu.regs.sp cpu.regs.pc (pushedStatus cpu.vecSrc cpu.regs.status)⟩ := by
  obtain ⟨⟨pc, sp, a, x, y, status⟩, ea, reladdr, value, result, opcode, tmpval, src, s, pb, cc⟩ := cpu
  obtain rfl : cc = false := hc
  obtain rfl : s = .vec2 := hs
  have hsrc' : src ≠ .rst := hsrc
  have hsp2 : sp - 1 - 1 = sp - 2 := by bv_omega
  have hsp3 : sp - 2 - 1 = sp - 3 := by bv_omega
  obtain ⟨hlo, hhi⟩ := vector_off_frame src sp
  refine .cycle nofun ?_
  rw [core_cycle_vec2 _ _ rfl rfl]
  refine .cycle nofun ?_
  rw [core_cycle_vec3 _ _ rfl rfl]
  refine .cycle nofun ?_
  rw [core_cycle_vec4 _ _ rfl rfl hsrc']
  refine .cycle nofun ?_
  rw [core_cycle_vec5 _ _ rfl rfl]
  refine .cycle nofun ?_
  rw [core_cycle_vec6 _ _ rfl rfl]
  dsimp only
  rw [hsp2, hsp3]
  have hframe : Function.update (Function.update (Function.update m (stackAddr sp) (u8 (pc >>> 8)))
      (stackAddr (sp - 1)) (u8 pc)) (stackAddr (sp - 2)) (pushedStatus src status) =
        pushFrame m sp pc (pushedStatus src status) := rfl
  rw [hframe, pushFrame_off m sp pc _ hlo, pushFrame_off m sp pc _ hhi]
  exact .done _

theorem interrupt_reaches (c : Core) {src : VecSrc} (hsrc : src = .nmi ∨ src = .irq) :
    Core.Reaches 6
      ⟨{ c.cpu with vecSrc := src, opState := .vec1, cycleConsumed := false }, c.mem⟩
      (c.entered src) := by
  refine .cycle nofun ?_
  rw [core_cycle_vec1 _ _ rfl rfl]
  rcases hsrc with rfl | rfl
  · exact vector_reaches _ _ rfl rfl nofun
  · exact vector_reaches _ _ rfl rfl nofun

theorem core_tick_fetch {v : SigVotes} {c : Core} (hs : c.cpu.opState = .opcode)
    (hint : intTaken v c.cpu.regs = false) :
    c.tick v =
      ⟨{ c.cpu with
          opcode := c.mem c.cpu.regs.pc
          regs.pc := c.cpu.regs.pc + 1
          opState := .param0
          cycleConsumed := false }, c.mem⟩ := by
  simp only [intTaken, Bool.or_eq_false_iff] at hint
  obtain ⟨hn, hirq⟩ := hint
  simp [Core.tick, Core.after, tickProg, hs, hn, hirq, fetch, ramEnv, Cpu.clearCycle]

/-- The core after `RTI`, from the core after its fetch. -/
def Core.returned (c : Core) : Core :=
  { c with
    cpu :=
      { c.cpu with
        regs := { c.cpu.regs with
          pc := joinBytes (c.mem (stackAddr (c.cpu.regs.sp + 2))) (c.mem (stackAddr (c.cpu.regs.sp + 3)))
          sp := c.cpu.regs.sp + 3
          status := c.mem (stackAddr (c.cpu.regs.sp + 1)) }
        tmpval :=
          joinBytes (c.mem (stackAddr (c.cpu.regs.sp + 2))) (c.mem (stackAddr (c.cpu.regs.sp + 3)))
        opState := .opcode } }

theorem rti_reaches (c : Core) (hc : c.cpu.cycleConsumed = false) (hop : c.cpu.opcode = 0x40#8)
    (hs : c.cpu.opState = .param0) : Core.Reaches 5 c c.returned := by
  obtain ⟨⟨⟨pc, sp, a, x, y, status⟩, ea, reladdr, value, result, opcode, tmpval, src, s, pb, cc⟩, m⟩ := c
  obtain rfl : cc = false := hc
  obtain rfl : opcode = 0x40#8 := hop
  obtain rfl : s = .param0 := hs
  have hsp2 : sp + 1 + 1 = sp + 2 := by bv_omega
  have hsp3 : sp + 2 + 1 = sp + 3 := by bv_omega
  refine .cycle nofun ?_
  rw [core_cycle_rti0 _ _ rfl rfl rfl]
  refine .cycle nofun ?_
  rw [core_cycle_rti1 _ _ rfl rfl rfl]
  refine .cycle nofun ?_
  rw [core_cycle_rti2 _ _ rfl rfl rfl]
  refine .cycle nofun ?_
  rw [core_cycle_rti3 _ _ rfl rfl rfl]
  refine .cycle nofun ?_
  rw [core_cycle_rti4 _ _ rfl rfl rfl]
  dsimp only
  rw [hsp2, hsp3]
  exact .done _

theorem intSource_cases (v : SigVotes) : intSource v = .nmi ∨ intSource v = .irq := by
  unfold intSource
  split
  · exact .inl rfl
  · exact .inr rfl

/-- An interrupt taken at a boundary: seven ticks, after which the frame is pushed. -/
theorem InstructionRun.interrupt {emu : Emu ω} (hram : emu.bus.OnRam R)
    (hs : emu.cpu.opState = .opcode)
    (hint : intTaken emu.bus.sigvotes emu.cpu.regs = true) :
    Core.Reaches 6 (emu.firstCore R) ((emu.core R).entered (intSource emu.bus.sigvotes)) ∧
    ∀ n e, InstructionRun emu n e → e.cpu.opState = .opcode →
      n = 7 ∧ e.core R = (emu.core R).entered (intSource emu.bus.sigvotes) ∧
      e.bus.RamSteady R := by
  have hfirst := core_tick_interrupt (c := emu.core R) hs hint
  have hreach := interrupt_reaches (emu.core R) (intSource_cases emu.bus.sigvotes)
  rw [← hfirst] at hreach
  exact ⟨hreach, fun n e hrun he => hrun.ends hram hs he hreach rfl⟩

/-- An `RTI` fetched at a boundary: six ticks, after which the frame is pulled. -/
theorem InstructionRun.rti {emu : Emu ω} (hram : emu.bus.OnRam R)
    (hs : emu.cpu.opState = .opcode) (hint : intTaken emu.bus.sigvotes emu.cpu.regs = false)
    (hrti : R.mem emu.bus.devs emu.cpu.regs.pc = 0x40) :
    Core.Reaches 5 (emu.firstCore R) (emu.firstCore R).returned ∧
    ∀ n e, InstructionRun emu n e → e.cpu.opState = .opcode →
      e.core R = (emu.firstCore R).returned := by
  have hfirst := core_tick_fetch (c := emu.core R) hs hint
  have hreach : Core.Reaches 5 (emu.firstCore R) (emu.firstCore R).returned := by
    refine rti_reaches _ ?_ ?_ ?_
    · rw [Emu.firstCore, hfirst]
    · rw [Emu.firstCore, hfirst]
      exact hrti
    · rw [Emu.firstCore, hfirst]
  exact ⟨hreach, fun n e hrun he => (hrun.ends hram hs he hreach rfl).2.1⟩

/-! ## Handlers -/

/-- The run of an interrupt handler: ticks and changes of the votes. -/
inductive HandlerRun (entered : Emu ω) : Emu ω → Prop where
  | start : HandlerRun entered entered
  | votes {e : Emu ω} (v : SigVotes) (h : HandlerRun entered e) :
      HandlerRun entered { e with bus.sigvotes := v }
  | tick {e e' : Emu ω} (fuel : Nat) (h : HandlerRun entered e) (ht : cpuTick fuel e = some e') :
      HandlerRun entered e'

/-- The handler entered at `entered` comes to an `RTI`, which the next tick fetches, with
the registers of its entry and the frame pushed at `top` as it was. -/
structure ReachesRti (R : Ram ω) (top : BitVec 8) (entered atRti : Emu ω) : Prop where
  run : HandlerRun entered atRti
  boundary : atRti.cpu.opState = .opcode
  rti : R.mem atRti.bus.devs atRti.cpu.regs.pc = 0x40
  fetched : intTaken atRti.bus.sigvotes atRti.cpu.regs = false
  a : atRti.cpu.regs.a = entered.cpu.regs.a
  x : atRti.cpu.regs.x = entered.cpu.regs.x
  y : atRti.cpu.regs.y = entered.cpu.regs.y
  sp : atRti.cpu.regs.sp = entered.cpu.regs.sp
  frame : ∀ addr ∈ frameAddrs top, R.mem atRti.bus.devs addr = R.mem entered.bus.devs addr

theorem HandlerRun.onRam {entered e : Emu ω} (h : HandlerRun entered e)
    (hram : entered.bus.RamSteady R) (hs : entered.cpu.opState = .opcode) :
    e.bus.RamSteady R ∧ e.cpu.ctl.fresh = true := by
  induction h with
  | start => exact ⟨hram, fresh_of_boundary hs⟩
  | votes v _ ih => exact ⟨⟨⟨ih.1.conns, ih.1.tracers, ih.1.inv⟩, ih.1.last⟩, ih.2⟩
  | tick fuel _ ht ih =>
    rw [eq_tick_of_cpuTick ih.2 ht]
    exact ⟨ramSteady_tick ih.1, fresh_tick _ ih.2⟩

/-- `RTI` undoes the interrupt sequence: from the frame it pushed, with the other registers
as they were, it restores them all. -/
theorem returned_entered (c d : Core) (src : VecSrc)
    (ha : d.cpu.regs.a = c.cpu.regs.a) (hx : d.cpu.regs.x = c.cpu.regs.x)
    (hy : d.cpu.regs.y = c.cpu.regs.y) (hsp : d.cpu.regs.sp = (c.entered src).cpu.regs.sp)
    (hframe : ∀ addr ∈ frameAddrs c.cpu.regs.sp, d.mem addr = (c.entered src).mem addr) :
    d.returned.cpu.regs = c.cpu.regs := by
  obtain ⟨⟨⟨pc, sp, a, x, y, status⟩, ea, reladdr, value, result, opcode, tmpval, src', s, pb, cc⟩, m⟩ := c
  obtain ⟨hstatus, hlo, hhi⟩ := pushFrame_on m sp pc status
  simp only [frameAddrs, List.forall_mem_cons, Core.entered] at hframe hsp ha hx hy
  obtain ⟨h0, h1, h2, -⟩ := hframe
  have hsp1 : sp - 3 + 1 = sp - 2 := by bv_omega
  have hsp2 : sp - 3 + 2 = sp - 1 := by bv_omega
  have hsp3 : sp - 3 + 3 = sp := by bv_omega
  simp only [Core.returned, hsp, hsp1, hsp2, hsp3, h0, h1, h2, hstatus, hlo, hhi, joinBytes_split, ha,
    hx, hy]

/-- The `RTI` that the handler comes to pulls the frame that the entry pushed. -/
theorem ReachesRti.returns {entered atRti : Emu ω} {c : Core} {src : VecSrc}
    (h : ReachesRti R c.cpu.regs.sp entered atRti) (hsteady : entered.bus.RamSteady R)
    (he : entered.cpu.opState = .opcode) (hcore : entered.core R = c.entered src) :
    (atRti.bus.sigvotes.rdy = 0 →
      ∃ back, InstructionRun atRti 6 back ∧ back.cpu.opState = .opcode) ∧
    ∀ m back, InstructionRun atRti m back → back.cpu.opState = .opcode →
      back.cpu.regs = c.cpu.regs ∧ R.mem back.bus.devs = R.mem atRti.bus.devs := by
  have hregs : entered.cpu.regs = (c.entered src).cpu.regs := congrArg (·.cpu.regs) hcore
  have hmem : R.mem entered.bus.devs = (c.entered src).mem := congrArg Core.mem hcore
  -- the handler may have voted, so the votes at RTI are not those of the entry
  obtain ⟨hram, -⟩ := h.run.onRam hsteady he
  obtain ⟨hreach, hends⟩ := InstructionRun.rti hram.toOnRam h.boundary h.fetched h.rti
  constructor
  · intro hrdy
    obtain ⟨back, hrun, hback, -⟩ := InstructionRun.exists hram.toOnRam h.boundary hrdy hreach
    exact ⟨back, hrun, congrArg (·.cpu.opState) hback⟩
  · intro m back hrun hboundary
    have hback := hends m back hrun hboundary
    rw [Emu.firstCore, core_tick_fetch (c := atRti.core R) h.boundary h.fetched] at hback
    have hbackRegs : back.cpu.regs = _ := congrArg (·.cpu.regs) hback
    refine ⟨?_, congrArg Core.mem hback⟩
    rw [hbackRegs]
    refine returned_entered c _ src ?_ ?_ ?_ ?_ ?_
    · exact h.a.trans (by rw [hregs]; rfl)
    · exact h.x.trans (by rw [hregs]; rfl)
    · exact h.y.trans (by rw [hregs]; rfl)
    · exact h.sp.trans (by rw [hregs])
    · intro addr haddr
      exact (h.frame addr haddr).trans (by rw [hmem])

/-- Interrupts are transparent on a RAM. From a boundary where an interrupt is taken, the
entry takes seven ticks that are not stalled and changes the three bytes of the frame only.
If the handler comes to an `RTI` with the registers and the frame as on its entry, then once
that `RTI` is done, six ticks later, every register is as it was before the interrupt, and
`RTI` has changed no byte. -/
theorem interrupt_transparent (emu : Emu ω) (hram : emu.bus.OnRam R)
    (hs : emu.cpu.opState = .opcode) (hrdy : emu.bus.sigvotes.rdy = 0)
    (hint : intTaken emu.bus.sigvotes emu.cpu.regs = true) :
    (∃ entered, InstructionRun emu 7 entered ∧ entered.cpu.opState = .opcode ∧
      entered.bus.sigvotes = (emu.bus.ackNmi emu.cpu).sigvotes) ∧
    ∀ n entered, InstructionRun emu n entered → entered.cpu.opState = .opcode →
      n = 7 ∧
      entered.cpu.regs =
        { emu.cpu.regs with
          pc := (R.mem emu.bus.devs).word (vectorAddr (intSource emu.bus.sigvotes))
          sp := emu.cpu.regs.sp - 3
          status := setFlag flagInterrupt emu.cpu.regs.status } ∧
      (∀ addr, addr ∉ frameAddrs emu.cpu.regs.sp →
        R.mem entered.bus.devs addr = R.mem emu.bus.devs addr) ∧
      ∀ atRti, ReachesRti R emu.cpu.regs.sp entered atRti →
        (atRti.bus.sigvotes.rdy = 0 →
          ∃ back, InstructionRun atRti 6 back ∧ back.cpu.opState = .opcode) ∧
        ∀ m back, InstructionRun atRti m back → back.cpu.opState = .opcode →
          back.cpu.regs = emu.cpu.regs ∧ R.mem back.bus.devs = R.mem atRti.bus.devs := by
  obtain ⟨hreach, hends⟩ := InstructionRun.interrupt hram hs hint
  refine ⟨?_, ?_⟩
  -- the entry takes place
  · obtain ⟨e, hrun, hcore, hvotes⟩ := InstructionRun.exists hram hs hrdy hreach
    exact ⟨e, hrun, congrArg (·.cpu.opState) hcore, hvotes⟩
  · intro n entered hrun he
    -- and there is no other way for it to go
    obtain ⟨hn, hcore, hsteady⟩ := hends n entered hrun he
    have hregs : entered.cpu.regs = ((emu.core R).entered (intSource emu.bus.sigvotes)).cpu.regs :=
      congrArg (·.cpu.regs) hcore
    have hmem : R.mem entered.bus.devs = ((emu.core R).entered (intSource emu.bus.sigvotes)).mem :=
      congrArg Core.mem hcore
    refine ⟨hn, hregs, ?_, ?_⟩
    · intro addr haddr
      rw [hmem]
      exact pushFrame_off _ _ _ _ haddr
    · intro atRti hrti
      exact hrti.returns (c := emu.core R) hsteady he hcore

/-- A RAM full of `RTI`, at a boundary with the stack pointer about to wrap and IRQ voted. -/
def irqEmu : Emu Mem :=
  { bus := { Bus.init flatRam.conns [] (fun _ => 0x40) with sigvotes := { allocated := 1, irq := 1 } }
    cpu := { regs := { pc := 0xFFFF, sp := 0x01, a := 1, x := 2, y := 3, status := 0xFB } } }

theorem interrupt_transparent_at_stack_wrap :
    ∃ entered back, InstructionRun irqEmu 7 entered ∧ entered.cpu.regs.pc = 0x4040 ∧
      entered.cpu.regs.sp = 0xFE ∧ InstructionRun entered 6 back ∧
      back.cpu.regs = irqEmu.cpu.regs := by
  have hram : irqEmu.bus.OnRam flatRam := ⟨rfl, rfl, trivial⟩
  obtain ⟨⟨entered, hrun, he, hvotes⟩, hall⟩ :=
    interrupt_transparent irqEmu hram rfl rfl (by decide)
  obtain ⟨-, hregs, hmem, hrti⟩ := hall 7 entered hrun he
  have hvotes' : entered.bus.sigvotes = { allocated := 1, irq := 1 } := hvotes
  have hreaches : ReachesRti flatRam irqEmu.cpu.regs.sp entered entered := by
    refine ⟨.start, he, ?_, ?_, rfl, rfl, rfl, rfl, fun _ _ => rfl⟩
    · rw [hregs]
      exact hmem _ (by decide)
    · rw [hvotes', hregs]
      decide
  obtain ⟨hback, hsame⟩ := hrti entered hreaches
  obtain ⟨back, hrun', hs'⟩ := hback (by rw [hvotes'])
  exact ⟨entered, back, hrun, by rw [hregs]; decide, by rw [hregs]; decide, hrun',
    (hsame 6 back hrun' hs').1⟩

end Cb6502
