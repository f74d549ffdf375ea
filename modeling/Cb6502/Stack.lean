import Cb6502.Execution

/- The stack. A push writes at the stack pointer and lowers it, a pull raises it and reads
   there, in 8 bits, so that both stay in page 1 for every stack pointer. JSR pushes the
   address of its own last byte and RTS adds one to what it pulls; between them any code may
   run that leaves the two bytes. -/
namespace Cb6502
open Dialogue

variable {ω : Type} {R : Ram ω}

/-! ## Page 1 -/

theorem page_stackAddr (sp : BitVec 8) : page (stackAddr sp) = 0x0100 := by
  revert sp
  decide +kernel

/-- The bytes of `w` pushed from the stack pointer `sp` on, the high one first. -/
def pushWord (m : Mem) (sp : BitVec 8) (w : BitVec 16) : Mem :=
  Function.update (Function.update m (stackAddr sp) (u8 (w >>> 8))) (stackAddr (sp - 1)) (u8 w)

theorem pushWord_on (m : Mem) (sp : BitVec 8) (w : BitVec 16) :
    pushWord m sp w (stackAddr (sp - 1)) = u8 w ∧ pushWord m sp w (stackAddr sp) = u8 (w >>> 8) := by
  have hne : stackAddr sp ≠ stackAddr (sp - 1) := by
    intro h
    have hsp := stackAddr_inj h
    bv_omega
  refine ⟨Function.update_self .., ?_⟩
  rw [pushWord, Function.update_of_ne hne, Function.update_self]

theorem pushWord_off (m : Mem) (sp : BitVec 8) (w : BitVec 16) {addr : BitVec 16}
    (h : page addr ≠ 0x0100) : pushWord m sp w addr = m addr := by
  have hoff : ∀ sp', addr ≠ stackAddr sp' := by
    rintro sp' rfl
    exact h (page_stackAddr sp')
  rw [pushWord, Function.update_of_ne (hoff _), Function.update_of_ne (hoff _)]

/-! ## JSR -/

section
variable (cpu : Cpu) (m : Mem) (hc : cpu.cycleConsumed = false) (hop : cpu.opcode = 0x20#8)
include hc hop

/-- JSR reads the low byte of its target in the cycle that its mode leaves to it. -/
theorem core_cycle_jsr0 (hs : cpu.opState = .param0) :
    Core.cycle ⟨cpu, m⟩ =
      ⟨{ cpu with ea := u16 (m cpu.regs.pc), regs.pc := cpu.regs.pc + 1, opState := .op1 }, m⟩ := by
  have hjsr : optable 0x20#8 = .jsr := by decide
  have habso : addrtable 0x20#8 = .abso := by decide
  simp [Core.cycle, Core.after, Cb6502.cycle, cycleFrom, handler, hs, hop, hjsr, habso, addrHandlers, abso, ops,
    jsr, advanceState, ramEnv, Cpu.clearCycle, hc]

theorem cycle_jsr (hs : cpu.opState ∈ [OpState.op1, .op2, .op3, .op4]) : cycle cpu = jsr cpu := by
  obtain ⟨regs, ea, reladdr, value, result, opcode, tmpval, src, s, pb, cc⟩ := cpu
  obtain rfl : cc = false := hc
  obtain rfl : opcode = 0x20#8 := hop
  have hjsr : optable 0x20#8 = .jsr := by decide
  simp only [List.mem_cons, List.not_mem_nil, or_false] at hs
  rcases hs with rfl | rfl | rfl | rfl <;>
    simp [cycle, cycleFrom, handler, hjsr, ops, jsr, push8, advanceState]

theorem core_cycle_jsr1 (hs : cpu.opState = .op1) :
    Core.cycle ⟨cpu, m⟩ = ⟨{ cpu with opState := .op2 }, m⟩ := by
  rw [Core.cycle, cycle_jsr cpu hc hop (by rw [hs]; decide)]
  simp [Core.after, jsr, hs, advanceState, ramEnv, Cpu.clearCycle, hc]

theorem core_cycle_jsr2 (hs : cpu.opState = .op2) :
    Core.cycle ⟨cpu, m⟩ =
      ⟨{ cpu with regs.sp := cpu.regs.sp - 1, opState := .op3 },
        Function.update m (stackAddr cpu.regs.sp) (u8 (cpu.regs.pc >>> 8))⟩ := by
  rw [Core.cycle, cycle_jsr cpu hc hop (by rw [hs]; decide)]
  simp [Core.after, jsr, hs, push8, stackAddr, advanceState, ramEnv, Cpu.clearCycle, hc]

theorem core_cycle_jsr3 (hs : cpu.opState = .op3) :
    Core.cycle ⟨cpu, m⟩ =
      ⟨{ cpu with regs.sp := cpu.regs.sp - 1, opState := .op4 },
        Function.update m (stackAddr cpu.regs.sp) (u8 cpu.regs.pc)⟩ := by
  rw [Core.cycle, cycle_jsr cpu hc hop (by rw [hs]; decide)]
  simp [Core.after, jsr, hs, push8, stackAddr, advanceState, ramEnv, Cpu.clearCycle, hc]

/-- The high byte of the target is read after the pushes. -/
theorem core_cycle_jsr4 (hs : cpu.opState = .op4) :
    Core.cycle ⟨cpu, m⟩ =
      ⟨{ cpu with
          ea := cpu.ea ||| (u16 (m cpu.regs.pc) <<< 8)
          regs.pc := cpu.ea ||| (u16 (m cpu.regs.pc) <<< 8)
          opState := .opcode }, m⟩ := by
  rw [Core.cycle, cycle_jsr cpu hc hop (by rw [hs]; decide)]
  simp [Core.after, jsr, hs, advanceState, ramEnv, Cpu.clearCycle, hc]

end

/-- The core after `JSR`, from the core after its fetch. -/
def Core.called (c : Core) : Core :=
  let mem := pushWord c.mem c.cpu.regs.sp (c.cpu.regs.pc + 1)
  let target := joinBytes (c.mem c.cpu.regs.pc) (mem (c.cpu.regs.pc + 1))
  { cpu := { c.cpu with
      regs := { c.cpu.regs with pc := target, sp := c.cpu.regs.sp - 2 }
      ea := target
      opState := .opcode }
    mem }

theorem jsr_reaches (c : Core) (hc : c.cpu.cycleConsumed = false) (hop : c.cpu.opcode = 0x20#8)
    (hs : c.cpu.opState = .param0) : Core.Reaches 5 c c.called := by
  obtain ⟨⟨⟨pc, sp, a, x, y, status⟩, ea, reladdr, value, result, opcode, tmpval, src, s, pb, cc⟩, m⟩ := c
  obtain rfl : cc = false := hc
  obtain rfl : opcode = 0x20#8 := hop
  obtain rfl : s = .param0 := hs
  have hsp2 : sp - 1 - 1 = sp - 2 := by bv_omega
  refine .cycle nofun ?_
  rw [core_cycle_jsr0 _ _ rfl rfl rfl]
  refine .cycle nofun ?_
  rw [core_cycle_jsr1 _ _ rfl rfl rfl]
  refine .cycle nofun ?_
  rw [core_cycle_jsr2 _ _ rfl rfl rfl]
  refine .cycle nofun ?_
  rw [core_cycle_jsr3 _ _ rfl rfl rfl]
  refine .cycle nofun ?_
  rw [core_cycle_jsr4 _ _ rfl rfl rfl]
  dsimp only
  rw [hsp2]
  exact .done _

/-- JSR at `A` pushes `A + 2`. -/
theorem Executes.jsr {emu e : Emu ω} (hrun : Executes emu e) (h : Fetches R emu)
    (hop : R.mem emu.bus.devs emu.cpu.regs.pc = 0x20) :
    R.mem e.bus.devs = pushWord (R.mem emu.bus.devs) emu.cpu.regs.sp (emu.cpu.regs.pc + 2) ∧
      e.cpu.regs = { emu.cpu.regs with
        pc := joinBytes (R.mem emu.bus.devs (emu.cpu.regs.pc + 1)) (R.mem e.bus.devs (emu.cpu.regs.pc + 2))
        sp := emu.cpu.regs.sp - 2 } := by
  obtain ⟨n, hrun, he⟩ := hrun
  have hfirst : emu.firstCore R = _ := core_tick_fetch (c := emu.core R) h.boundary h.noInt
  have hreach : Core.Reaches 5 (emu.firstCore R) (emu.firstCore R).called := by
    apply jsr_reaches <;> rw [hfirst]
    exact hop
  have hcore := (hrun.ends h.ram h.boundary he hreach rfl).2.1
  rw [hfirst] at hcore
  have hmem : R.mem e.bus.devs =
      pushWord (R.mem emu.bus.devs) emu.cpu.regs.sp (emu.cpu.regs.pc + 1 + 1) := congrArg Core.mem hcore
  have hregs : e.cpu.regs = { emu.cpu.regs with
      pc := joinBytes (R.mem emu.bus.devs (emu.cpu.regs.pc + 1))
        (pushWord (R.mem emu.bus.devs) emu.cpu.regs.sp (emu.cpu.regs.pc + 1 + 1) (emu.cpu.regs.pc + 1 + 1))
      sp := emu.cpu.regs.sp - 2 } := congrArg (fun c => c.cpu.regs) hcore
  rw [← hmem] at hregs
  rw [pc_add_two] at hmem hregs
  exact ⟨hmem, hregs⟩

/-! ## RTS -/

/-- RTS in the middle of its cycles, or done. -/
def RtsAt (m : Mem) (sp : BitVec 8) (c : Cpu) (mem : Mem) : Prop :=
  mem = m ∧
    match c.opState with
    | .op1 | .op2 => c.regs.sp = sp
    | .op3 => c.regs.sp = sp + 1 ∧ c.tmpval = u16 (m (stackAddr (sp + 1)))
    | .op4 => c.regs.sp = sp + 2 ∧
        c.regs.pc = joinBytes (m (stackAddr (sp + 1))) (m (stackAddr (sp + 2)))
    | .opcode => c.regs.sp = sp + 2 ∧
        c.regs.pc = joinBytes (m (stackAddr (sp + 1))) (m (stackAddr (sp + 2))) + 1
    | _ => False

theorem rtsAt_rts {m : Mem} {sp : BitVec 8} {c : Cpu} {s : RamState} (h : RtsAt m sp c s.mem)
    (hs : c.opState ∈ [OpState.op1, .op2, .op3, .op4]) :
    RtsAt m sp ((rts c).run ramEnv s).1 ((rts c).run ramEnv s).2.mem := by
  have hsp2 : sp + 1 + 1 = sp + 2 := by bv_omega
  obtain ⟨hmem, h⟩ := h
  simp only [List.mem_cons, List.not_mem_nil, or_false] at hs
  unfold rts
  rcases hs with hs | hs | hs | hs <;> rw [hs] at h ⊢
  · exact ⟨hmem, h⟩
  · refine ⟨hmem, ?_, ?_⟩
    · exact congrArg (· + 1) h
    · show u16 (s.mem (stackAddr (c.regs.sp + 1))) = _
      rw [hmem, h]
  · obtain ⟨hsp, htmp⟩ := h
    have hnext : c.regs.sp + 1 = sp + 2 := by rw [hsp, hsp2]
    refine ⟨hmem, hnext, ?_⟩
    show c.tmpval ||| (u16 (s.mem (stackAddr (c.regs.sp + 1))) <<< 8) = _
    rw [hmem, hnext, htmp]
    rfl
  · obtain ⟨hsp, hpc⟩ := h
    exact ⟨hmem, hsp, congrArg (· + 1) hpc⟩

/-- RTS pulls two bytes and adds one. -/
theorem Executes.rts {emu e : Emu ω} (hrun : Executes emu e) (h : Fetches R emu)
    (hop : R.mem emu.bus.devs emu.cpu.regs.pc = 0x60) :
    R.mem e.bus.devs = R.mem emu.bus.devs ∧ e.cpu.regs.sp = emu.cpu.regs.sp + 2 ∧
      e.cpu.regs.pc = joinBytes (R.mem emu.bus.devs (stackAddr (emu.cpu.regs.sp + 1)))
        (R.mem emu.bus.devs (stackAddr (emu.cpu.regs.sp + 2))) + 1 := by
  have hrts : optable (R.mem emu.bus.devs emu.cpu.regs.pc) = .rts := by
    rw [hop]
    decide
  have hX := hrun.rule h hrts (by decide) (by decide)
    (X := RtsAt (R.mem emu.bus.devs) emu.cpu.regs.sp) ?_ (fun c s hat _ hs => rtsAt_rts hat hs)
    fun c mem hat => hat
  · obtain ⟨n, -, he⟩ := hrun
    obtain ⟨hmem, hat⟩ := hX
    rw [show e.cpu.clearCycle.opState = .opcode from he] at hat
    exact ⟨hmem, hat⟩
  · intro c s hready
    have hsp : c.regs.sp = emu.cpu.regs.sp := by rw [hready.regs]
    show RtsAt _ _ ((Cb6502.rts c).run ramEnv s).1 ((Cb6502.rts c).run ramEnv s).2.mem
    unfold Cb6502.rts
    rw [hready.state]
    exact ⟨hready.mem, hsp⟩

/-- RTI pulls the status and two bytes. -/
theorem Executes.rti_regs {emu e : Emu ω} (hrun : Executes emu e) (h : Fetches R emu)
    (hop : R.mem emu.bus.devs emu.cpu.regs.pc = 0x40) :
    e.cpu.regs = { emu.cpu.regs with
        pc := joinBytes (R.mem emu.bus.devs (stackAddr (emu.cpu.regs.sp + 2)))
          (R.mem emu.bus.devs (stackAddr (emu.cpu.regs.sp + 3)))
        sp := emu.cpu.regs.sp + 3
        status := R.mem emu.bus.devs (stackAddr (emu.cpu.regs.sp + 1)) } ∧
      R.mem e.bus.devs = R.mem emu.bus.devs := by
  obtain ⟨n, hrun, he⟩ := hrun
  have hcore := (InstructionRun.rti h.ram h.boundary h.noInt hop).2 n e hrun he
  rw [Emu.firstCore, core_tick_fetch (c := emu.core R) h.boundary h.noInt] at hcore
  exact ⟨congrArg (fun c => c.cpu.regs) hcore, congrArg Core.mem hcore⟩

theorem Executes.rti {emu e : Emu ω} (hrun : Executes emu e) (h : Fetches R emu)
    (hop : R.mem emu.bus.devs emu.cpu.regs.pc = 0x40) :
    e.cpu.regs.sp = emu.cpu.regs.sp + 3 ∧
      e.cpu.regs.pc = joinBytes (R.mem emu.bus.devs (stackAddr (emu.cpu.regs.sp + 2)))
        (R.mem emu.bus.devs (stackAddr (emu.cpu.regs.sp + 3))) := by
  rw [(hrun.rti_regs h hop).1]
  exact ⟨rfl, rfl⟩

/-! ## Pushes and pulls of the registers -/

/-- The registers that have instructions to push and pull them. -/
inductive StackReg where
  | a | x | y
  deriving DecidableEq

namespace StackReg

def get : StackReg → CpuRegs → BitVec 8
  | .a, r => r.a
  | .x, r => r.x
  | .y, r => r.y

/-- `PHA`, `PHX`, `PHY`. -/
def pushOpcode : StackReg → BitVec 8
  | .a => 0x48
  | .x => 0xDA
  | .y => 0x5A

/-- `PLA`, `PLX`, `PLY`. -/
def pullOpcode : StackReg → BitVec 8
  | .a => 0x68
  | .x => 0xFA
  | .y => 0x7A

end StackReg

theorem phPush_reg (reg : StackReg) {c : Cpu} (hop : c.opcode = reg.pushOpcode) :
    phPush c = push8 c (reg.get c.regs) := by
  unfold phPush
  cases reg <;> simp [hop, StackReg.pushOpcode, StackReg.get]

theorem run_plPull {reg : StackReg} {c : Cpu} (s : RamState) (hop : c.opcode = reg.pullOpcode) :
    ((plPull c).run ramEnv s).1.regs.sp = c.regs.sp + 1 ∧ ((plPull c).run ramEnv s).2.mem = s.mem ∧
      reg.get ((plPull c).run ramEnv s).1.regs = s.mem (stackAddr (c.regs.sp + 1)) := by
  unfold plPull
  cases reg <;> simp [hop, StackReg.pullOpcode, StackReg.get, pullReg, pull8, ramEnv, stackAddr]

/-- A push of a register. -/
theorem Executes.push {emu e : Emu ω} (hrun : Executes emu e) (h : Fetches R emu) {reg : StackReg}
    (hop : R.mem emu.bus.devs emu.cpu.regs.pc = reg.pushOpcode) :
    e.cpu.regs.sp = emu.cpu.regs.sp - 1 ∧
      R.mem e.bus.devs =
        Function.update (R.mem emu.bus.devs) (stackAddr emu.cpu.regs.sp) (reg.get emu.cpu.regs) := by
  have hph : optable (R.mem emu.bus.devs emu.cpu.regs.pc) = .ph := by
    rw [hop]
    cases reg <;> decide
  have hX := hrun.rule h hph (by decide) (by decide)
    (X := fun c mem =>
      (c.opState = .op1 ∧ c.regs.sp = emu.cpu.regs.sp ∧ reg.get c.regs = reg.get emu.cpu.regs ∧
          mem = R.mem emu.bus.devs) ∨
        (c.opState = .opcode ∧ c.regs.sp = emu.cpu.regs.sp - 1 ∧ mem = Function.update
          (R.mem emu.bus.devs) (stackAddr emu.cpu.regs.sp) (reg.get emu.cpu.regs)))
    ?_ ?_ fun c mem hat => hat
  · obtain ⟨n, -, he⟩ := hrun
    rcases hX with ⟨h1, -⟩ | ⟨-, hsp, hmem⟩
    · exact absurd (h1.symm.trans he) (by decide)
    · exact ⟨hsp, hmem⟩
  · intro c s hready
    have hget : reg.get c.regs = reg.get emu.cpu.regs := by
      rw [hready.regs]
      cases reg <;> rfl
    have hsp : c.regs.sp = emu.cpu.regs.sp := by rw [hready.regs]
    show _ ∨ _
    simp only [ops, ph, hready.state, if_true]
    exact .inl ⟨rfl, hsp, hget, hready.mem⟩
  · intro c s hat hopcode hs
    rcases hat with ⟨h1, hsp, hget, hmem⟩ | ⟨hend, -⟩
    · have hne : ¬c.opState = .op0 := by
        rw [h1]
        decide
      simp only [ops, ph, hne, if_false, phPush_reg reg (hopcode.trans hop), push8]
      refine .inr ⟨rfl, congrArg (· - 1) hsp, ?_⟩
      show Function.update s.mem (stackAddr c.regs.sp) (reg.get c.regs) = _
      rw [hmem, hsp, hget]
    · rw [hend] at hs
      exact absurd hs (by decide)

/-- A pull of a register. -/
theorem Executes.pull {emu e : Emu ω} (hrun : Executes emu e) (h : Fetches R emu) {reg : StackReg}
    (hop : R.mem emu.bus.devs emu.cpu.regs.pc = reg.pullOpcode) :
    e.cpu.regs.sp = emu.cpu.regs.sp + 1 ∧
      reg.get e.cpu.regs = R.mem emu.bus.devs (stackAddr (emu.cpu.regs.sp + 1)) := by
  have hpl : optable (R.mem emu.bus.devs emu.cpu.regs.pc) = .pl := by
    rw [hop]
    cases reg <;> decide
  have hX := hrun.rule h hpl (by decide) (by decide)
    (X := fun c mem => mem = R.mem emu.bus.devs ∧
      ((c.opState ∈ [OpState.op1, .op2] ∧ c.regs.sp = emu.cpu.regs.sp) ∨
        (c.opState = .opcode ∧ c.regs.sp = emu.cpu.regs.sp + 1 ∧
          reg.get c.regs = R.mem emu.bus.devs (stackAddr (emu.cpu.regs.sp + 1)))))
    ?_ ?_ fun c mem hat => hat
  · obtain ⟨n, -, he⟩ := hrun
    rcases hX with ⟨-, ⟨hinside, -⟩ | ⟨-, hend⟩⟩
    · rw [show e.cpu.clearCycle.opState = .opcode from he] at hinside
      exact absurd hinside (by decide)
    · exact hend
  · intro c s hready
    have hsp : c.regs.sp = emu.cpu.regs.sp := by rw [hready.regs]
    simp only [ops, pl, hready.state]
    exact ⟨hready.mem, .inl ⟨List.mem_cons_self, hsp⟩⟩
  · rintro c s ⟨hmem, ⟨hinside, hsp⟩ | ⟨hend, -⟩⟩ hopcode hs
    · simp only [List.mem_cons, List.not_mem_nil, or_false] at hinside
      rcases hinside with h1 | h2
      · simp only [ops, pl, h1]
        exact ⟨hmem, .inl ⟨List.mem_cons_of_mem _ List.mem_cons_self, hsp⟩⟩
      · have hbyte : s.mem (stackAddr (c.regs.sp + 1)) =
            R.mem emu.bus.devs (stackAddr (emu.cpu.regs.sp + 1)) := by rw [hmem, hsp]
        obtain ⟨hsp', hmem', hget⟩ := run_plPull s (hopcode.trans hop)
        simp only [ops, pl, h2, Prog.run_bind]
        exact ⟨hmem'.trans hmem, .inr ⟨rfl, hsp'.trans (congrArg (· + 1) hsp), hget.trans hbyte⟩⟩
    · rw [hend] at hs
      exact absurd hs (by decide)

/-! ## Every push and pull -/

/-- A handler that pushes one byte, pulls one, or leaves the stack pointer. -/
inductive StackCall (cpu : Cpu) : BusM Cpu → Prop where
  | leaves {p : BusM Cpu} (h : Prog.Ends (fun _ cpu' => cpu'.regs.sp = cpu.regs.sp) p) : StackCall cpu p
  | push (v : BitVec 8) (cpu' : Cpu) (h : cpu'.regs.sp = cpu.regs.sp - 1) :
      StackCall cpu (.tell ⟨stackAddr cpu.regs.sp, v⟩ (.done cpu'))
  | pull (f : BitVec 8 → Cpu) (h : ∀ b, (f b).regs.sp = cpu.regs.sp + 1) :
      StackCall cpu (.ask ⟨stackAddr (cpu.regs.sp + 1), false⟩ fun b => .done (f b))

section StackCalls
variable (cpu : Cpu)
attribute [local simp] Prog.Ends advanceState

theorem addrHandlers_stackCall (mode : AddrMode) : StackCall cpu (addrHandlers mode cpu) := by
  apply StackCall.leaves
  refine (addrHandlers_sameButPc mode cpu).mono ?_
  intro n cpu' h
  rw [h]

theorem branch_stackCall (taken : Cpu → Bool) : StackCall cpu (branch taken cpu) := by
  unfold branch branchTaken
  apply StackCall.leaves
  cases cpu.opState <;> simp

theorem regsOp_stackCall (f : CpuRegs → CpuRegs) (hf : (f cpu.regs).sp = cpu.regs.sp) :
    StackCall cpu (regsOp f cpu) := .leaves hf

theorem jsr_stackCall : StackCall cpu (jsr cpu) := by
  unfold jsr
  cases cpu.opState with
  | op2 | op3 => exact .push _ _ rfl
  | _ => exact .leaves (by simp)

theorem rti_stackCall : StackCall cpu (rti cpu) := by
  unfold rti
  cases cpu.opState with
  | op2 | op3 | op4 => exact .pull _ fun _ => rfl
  | _ => exact .leaves (by simp)

theorem rts_stackCall : StackCall cpu (rts cpu) := by
  unfold rts
  cases cpu.opState with
  | op2 | op3 => exact .pull _ fun _ => rfl
  | _ => exact .leaves (by simp)

theorem ph_stackCall : StackCall cpu (ph cpu) := by
  unfold ph phPush
  split
  · exact .leaves rfl
  · repeat' split
    all_goals first | exact .push _ _ rfl | exact .leaves rfl

theorem pl_stackCall : StackCall cpu (pl cpu) := by
  unfold pl plPull
  cases cpu.opState with
  | op2 =>
    dsimp only
    repeat' split
    all_goals first | exact .pull _ fun _ => rfl | exact .leaves rfl
  | _ => exact .leaves (by simp)

/-- `TXS` loads the stack pointer; the other handlers push, pull, or leave it. -/
theorem ops_stackCall {op : Op} (h : op ≠ .txs) : StackCall cpu (ops op cpu) := by
  have of_keeps : ∀ {p : BusM Cpu}, Prog.Ends (fun _ => cpu.Keeps) p → StackCall cpu p :=
    fun h => .leaves (h.mono fun _ _ h => h.sp)
  cases op <;> simp only [ops]
  case txs => exact absurd rfl h
  case jsr => exact jsr_stackCall cpu
  case rti => exact rti_stackCall cpu
  case rts => exact rts_stackCall cpu
  case ph => exact ph_stackCall cpu
  case pl => exact pl_stackCall cpu
  case bxx | bra | bbr | bbs => exact branch_stackCall cpu _
  case adc => exact of_keeps (adc_keeps cpu)
  case sbc => exact of_keeps (sbc_keeps cpu)
  case and | eor | ora => exact of_keeps (logical_keeps cpu _)
  case cmp | cpx | cpy => exact of_keeps (compare_keeps cpu _)
  case bit => exact of_keeps (bit_keeps cpu)
  case asl | lsr | rol | ror => exact of_keeps (shift_keeps cpu _ _)
  case dec | inc => exact of_keeps (incDec_keeps cpu _)
  case trb | tsb => exact of_keeps (modifyBits_keeps cpu _ _ fun v => sourceBits_testStatus v cpu)
  case rmb | smb => exact of_keeps (modifyBits_keeps cpu _ _ fun _ => rfl)
  case lda | ldx | ldy => exact of_keeps (load_keeps cpu _ fun _ _ => ⟨rfl, rfl⟩)
  case sta => exact of_keeps (sta_keeps cpu)
  case stx | sty | stz => exact of_keeps (store_keeps cpu _)
  case brk | jmp => exact .leaves rfl
  case clc | cld | cli | clv | sec | sed | sei | dex | dey | inx | iny | tax | tay | tsx | txa | tya
      | nop | wai =>
    exact regsOp_stackCall cpu _ rfl

theorem vector_stackCall : StackCall cpu (vector cpu) := by
  unfold vector
  cases cpu.opState with
  | vec2 | vec3 | vec4 => exact .push _ _ rfl
  | _ => exact .leaves (by simp)

end StackCalls

/-- The call of the opcode handler of `TXS`. -/
def Cpu.atTxs (cpu : Cpu) : Bool := cpu.opState ∈ handlerStates && optable cpu.opcode == .txs

theorem handler_stackCall {cpu : Cpu} (h : cpu.atTxs = false) : StackCall cpu (handler cpu) := by
  unfold Cpu.atTxs at h
  unfold handler
  cases hs : cpu.opState
  case opcode => exact .leaves rfl
  case param0 | param1 | param2 | param3 | param4 => exact addrHandlers_stackCall cpu _
  case vec0 | vec1 | vec2 | vec3 | vec4 | vec5 | vec6 => exact vector_stackCall cpu
  all_goals
    apply ops_stackCall
    intro htxs
    rw [hs, htxs] at h
    exact absurd h (by decide)

/-- One bus operation, at the byte that the stack pointer points to or, in a pull, at the one
that it then points to. -/
def StackAccess (emu e : Emu ω) : Prop :=
  ∃ op, e.bus.trace = emu.bus.trace ++ [op] ∧
    ((op.write = true ∧ op.addr = stackAddr emu.cpu.regs.sp ∧ e.cpu.regs.sp = emu.cpu.regs.sp - 1) ∨
      (op.write = false ∧ op.addr = stackAddr e.cpu.regs.sp ∧ e.cpu.regs.sp = emu.cpu.regs.sp + 1))

theorem stackAccess_call {emu : Emu ω} {p : BusM Cpu} (h : StackCall emu.cpu p)
    (hsp : (emu.call p).cpu.regs.sp ≠ emu.cpu.regs.sp) : StackAccess emu (emu.call p) := by
  cases h with
  | leaves h => exact absurd (Prog.Ends.result h busEnv emu.bus) hsp
  | push v cpu' hpush =>
    have hcommit := committed_write emu.bus (stackAddr emu.cpu.regs.sp) v
    exact ⟨_, hcommit.trace, .inl ⟨rfl, rfl, hpush⟩⟩
  | pull f hpull =>
    have hcommit := committed_read emu.bus (stackAddr (emu.cpu.regs.sp + 1)) false
    refine ⟨_, hcommit.trace, .inr ⟨rfl, ?_, hpull _⟩⟩
    exact congrArg stackAddr (hpull _).symm

/-- Whatever moves the stack pointer, in an instruction or an interrupt sequence, is a push or a
pull, or `TXS`. -/
theorem stackAccess_tickBody {emu : Emu ω} (htxs : emu.cpu.atTxs = false)
    (hsp : (cpuTickBody emu).cpu.regs.sp ≠ emu.cpu.regs.sp) : StackAccess emu (cpuTickBody emu) := by
  have hcases : (cpuTickBody emu).cpu.regs.sp = emu.cpu.regs.sp ∨
      cpuTickBody emu = emu.call (handler emu.cpu) := by
    unfold cpuTickBody
    split
    · left
      split
      · rfl
      · split <;> rfl
    · exact .inr rfl
  rcases hcases with hleft | hcall
  · exact absurd hleft hsp
  · rw [hcall] at hsp ⊢
    exact stackAccess_call (handler_stackCall htxs) hsp

theorem StackAccess.page {emu e : Emu ω} (h : StackAccess emu e) :
    ∃ op, e.bus.trace = emu.bus.trace ++ [op] ∧ Cb6502.page op.addr = 0x0100 := by
  obtain ⟨op, htrace, ⟨-, haddr, -⟩ | ⟨-, haddr, -⟩⟩ := h
  · exact ⟨op, htrace, by rw [haddr, page_stackAddr]⟩
  · exact ⟨op, htrace, by rw [haddr, page_stackAddr]⟩

/-! ## Calls and returns -/

/-- Later on, at the stack pointer of `e` and with the bytes at `addrs` as `e` has them. -/
structure Resumes (R : Ram ω) (e later : Emu ω) (opcode : BitVec 8) (addrs : List (BitVec 16)) : Prop
    extends Fetches R later where
  opcode : R.mem later.bus.devs later.cpu.regs.pc = opcode
  sp : later.cpu.regs.sp = e.cpu.regs.sp
  bytes : ∀ addr ∈ addrs, R.mem later.bus.devs addr = R.mem e.bus.devs addr

/-- RTS at the stack pointer that a push of `w` from `sp` on left. -/
theorem Executes.rts_pushed {ret e e' : Emu ω} {m : Mem} {sp : BitVec 8} {w : BitVec 16}
    (hrun : Executes ret e') (hret : Resumes R e ret 0x60 [stackAddr sp, stackAddr (sp - 1)])
    (hmem : R.mem e.bus.devs = pushWord m sp w) (hsp : e.cpu.regs.sp = sp - 2) :
    e'.cpu.regs.pc = w + 1 ∧ e'.cpu.regs.sp = sp := by
  obtain ⟨-, hsp', hpc⟩ := hrun.rts hret.toFetches hret.opcode
  obtain ⟨hlow, hhigh⟩ := pushWord_on m sp w
  have hone : ret.cpu.regs.sp + 1 = sp - 1 := by
    rw [hret.sp, hsp]
    bv_omega
  have htwo : ret.cpu.regs.sp + 2 = sp := by
    rw [hret.sp, hsp]
    bv_omega
  have hbytes := hret.bytes
  rw [hmem] at hbytes
  rw [hone, htwo, hbytes _ (List.mem_cons_of_mem _ List.mem_cons_self), hbytes _ List.mem_cons_self,
    hlow, hhigh, joinBytes_split] at hpc
  refine ⟨hpc, ?_⟩
  calc e'.cpu.regs.sp = ret.cpu.regs.sp + 2 := hsp'
    _ = sp := htwo

/-- On a RAM, JSR pushes the two bytes of the address of its last byte, and an RTS at the stack
pointer it leaves goes on behind it; a pull returns the register pushed. On any bus, what moves
the stack pointer and is not TXS makes one access, in page 1. -/
theorem stack_discipline :
    (∀ emu : Emu ω, Fetches R emu → R.mem emu.bus.devs emu.cpu.regs.pc = 0x20 →
      (∃ e, Executes emu e) ∧ ∀ e, Executes emu e →
        R.mem e.bus.devs =
            pushWord (R.mem emu.bus.devs) emu.cpu.regs.sp (emu.cpu.regs.pc + 2) ∧
          page (stackAddr emu.cpu.regs.sp) = 0x0100 ∧
          page (stackAddr (emu.cpu.regs.sp - 1)) = 0x0100 ∧
          e.cpu.regs.sp = emu.cpu.regs.sp - 2 ∧
          ∀ ret, Resumes R e ret 0x60 [stackAddr emu.cpu.regs.sp, stackAddr (emu.cpu.regs.sp - 1)] →
            (∃ e', Executes ret e') ∧ ∀ e', Executes ret e' →
              e'.cpu.regs.pc = emu.cpu.regs.pc + 3 ∧ e'.cpu.regs.sp = emu.cpu.regs.sp) ∧
    (∀ (reg : StackReg) (emu : Emu ω), Fetches R emu →
      R.mem emu.bus.devs emu.cpu.regs.pc = reg.pushOpcode →
      (∃ e, Executes emu e) ∧ ∀ e, Executes emu e →
        ∀ later, Resumes R e later reg.pullOpcode [stackAddr emu.cpu.regs.sp] →
          (∃ e', Executes later e') ∧ ∀ e', Executes later e' →
            reg.get e'.cpu.regs = reg.get emu.cpu.regs ∧ e'.cpu.regs.sp = emu.cpu.regs.sp) ∧
    ∀ emu : Emu ω, emu.cpu.atTxs = false →
      (cpuTickBody emu).cpu.regs.sp ≠ emu.cpu.regs.sp →
        ∃ op, (cpuTickBody emu).bus.trace = emu.bus.trace ++ [op] ∧ page op.addr = 0x0100 := by
  refine ⟨?_, ?_, ?_⟩
  · intro emu h hop
    refine ⟨h.exists, fun e hrun => ?_⟩
    obtain ⟨hmem, hregs⟩ := hrun.jsr h hop
    have hsp : e.cpu.regs.sp = emu.cpu.regs.sp - 2 := by rw [hregs]
    refine ⟨hmem, page_stackAddr _, page_stackAddr _, hsp, fun ret hret => ?_⟩
    refine ⟨hret.toFetches.exists, fun e' hrun' => ?_⟩
    obtain ⟨hpc, hsp'⟩ := hrun'.rts_pushed hret hmem hsp
    refine ⟨?_, hsp'⟩
    calc e'.cpu.regs.pc = emu.cpu.regs.pc + 2 + 1 := hpc
      _ = emu.cpu.regs.pc + 3 := by bv_omega
  · intro reg emu h hop
    refine ⟨h.exists, fun e hrun later hlater => ?_⟩
    obtain ⟨hsp, hmem⟩ := hrun.push h hop
    refine ⟨hlater.toFetches.exists, fun e' hrun' => ?_⟩
    obtain ⟨hsp', hget⟩ := hrun'.pull hlater.toFetches hlater.opcode
    have hback : later.cpu.regs.sp + 1 = emu.cpu.regs.sp := by
      rw [hlater.sp, hsp]
      bv_omega
    rw [hback] at hsp' hget
    rw [hlater.bytes _ List.mem_cons_self, hmem, Function.update_self] at hget
    exact ⟨hget, hsp'⟩
  · intro emu htxs hsp
    exact (stackAccess_tickBody htxs hsp).page

/-- `JSR $0300` at `$0200` with the stack pointer 0, and `RTS` at `$0300`. -/
def callEmu : Emu Mem :=
  { bus := Bus.init flatRam.conns [] fun addr =>
      if addr = 0x0200 then 0x20 else if addr = 0x0202 then 0x03 else if addr = 0x0300 then 0x60 else 0
    cpu := { regs := { pc := 0x0200, sp := 0 } } }

/-- The RTS that `callEmu` gets to. -/
def returnEmu : Emu Mem :=
  { bus := Bus.init flatRam.conns [] (pushWord callEmu.bus.devs 0 0x0202)
    cpu := { regs := { pc := 0x0300, sp := 0xFE } } }

theorem stack_discipline_at_zero :
    ∃ e e', Executes callEmu e ∧ Executes returnEmu e' ∧ e.cpu.regs.sp = 0xFE ∧
      e'.cpu.regs.pc = 0x0203 ∧ e'.cpu.regs.sp = 0 := by
  have hcall : Fetches flatRam callEmu := ⟨⟨rfl, rfl, trivial⟩, rfl, rfl, by decide⟩
  have hreturn : Fetches flatRam returnEmu := ⟨⟨rfl, rfl, trivial⟩, rfl, rfl, by decide⟩
  obtain ⟨⟨e, hrun⟩, hall⟩ := (stack_discipline (R := flatRam)).1 callEmu hcall (by decide)
  obtain ⟨hmem, -, -, hsp, hret⟩ := hall e hrun
  have hresumes : Resumes flatRam e returnEmu 0x60 [stackAddr 0, stackAddr (0 - 1)] :=
    ⟨hreturn, by decide, hsp.symm, fun addr _ => (congrFun hmem addr).symm⟩
  obtain ⟨⟨e', hrun'⟩, hall'⟩ := hret returnEmu hresumes
  exact ⟨e, e', hrun, hrun', hsp, hall' e' hrun'⟩

end Cb6502
