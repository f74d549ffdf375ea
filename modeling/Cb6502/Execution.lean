import Cb6502.Operands

/- What one instruction does to a RAM. `HandlerReady` is the state in which the opcode handler
   is called first: the mode is done, and the registers are those of the instruction's start
   but for the program counter. A property that this call establishes and the later calls of
   the handler keep holds where the instruction ends (`InstructionRun.executes`), whatever the
   votes and the stalls on the way. -/
namespace Cb6502
open Dialogue

variable {ω : Type} {R : Ram ω}

/-! ## From the mode to the opcode handler -/

/-- The address of the operand. An immediate one follows the opcode. -/
def operandAddress (m : Mem) (r : CpuRegs) (mode : AddrMode) : Option (BitVec 16) :=
  if mode = .imm then some (r.pc + 1) else effectiveAddress m r mode

/-- The byte that the instruction at `r.pc` works on. -/
def operandByte (m : Mem) (r : CpuRegs) : Option (BitVec 8) :=
  let mode := addrtable (m r.pc)
  if mode = .acc then some r.a else (operandAddress m r mode).map m

/-- The modes that leave an address to the handler. -/
def AddrMode.hasAddress : AddrMode → Bool
  | .imp | .acc | .rel | .zprel => false
  | _ => true

section
variable {m : Mem} {r : CpuRegs} {c : Cpu}

theorem operandAddress_of_hasAddress {mode : AddrMode} (h : mode.hasAddress = true) :
    ∃ ea, operandAddress m r mode = some ea := by
  cases mode
  case imp | acc | rel | zprel => exact absurd h (by decide)
  all_goals exact ⟨_, rfl⟩

theorem operandByte_of_hasAddress (h : (addrtable (m r.pc)).hasAddress = true) {ea : BitVec 16}
    (hea : operandAddress m r (addrtable (m r.pc)) = some ea) : operandByte m r = some (m ea) := by
  have hacc : addrtable (m r.pc) ≠ .acc := by
    intro hacc
    rw [hacc] at h
    exact absurd h (by decide)
  rw [operandByte, if_neg hacc, hea]
  rfl

/-- What two of the modes leave besides `OperandReady`. -/
structure OperandBytes (m : Mem) (r : CpuRegs) (c : Cpu) : Prop where
  imm : addrtable (m r.pc) = .imm → c.ea = r.pc + 1
  reladdr : addrtable (m r.pc) = .zprel → c.reladdr = u16 (m (r.pc + 2))

/-- The instruction at `r.pc` when its opcode handler is called first. -/
structure HandlerReady (m : Mem) (r : CpuRegs) (c : Cpu) (mem : Mem) : Prop where
  mem : mem = m
  opcode : c.opcode = m r.pc
  state : c.opState = .op0
  regs : c.regs = { r with pc := r.pc + bytesRead (addrtable (m r.pc)) }
  ea : ∀ a, operandAddress m r (addrtable (m r.pc)) = some a → c.ea = a
  value : addrtable (m r.pc) = .zprel → c.value = u16 (m (u16 (m (r.pc + 1))))
  reladdr : addrtable (m r.pc) = .zprel → c.reladdr = u16 (m (r.pc + 2))

theorem handlerReady_of_operand {mem : Mem} (h : Operand m r c mem) (hs : c.opState = .op0)
    (hbytes : OperandBytes m r c) : HandlerReady m r c mem := by
  rcases h.phase with ⟨hparam, -⟩ | ⟨-, hready⟩
  · rw [hs] at hparam
    exact absurd hparam (by decide)
  · refine ⟨h.mem, h.opcode, hs, ?_, ?_, hready.value, hbytes.reladdr⟩
    · rw [h.regs, hready.pc]
    · intro a ha
      unfold operandAddress at ha
      split at ha
      · rename_i himm
        exact (hbytes.imm himm).trans (Option.some.inj ha)
      · exact hready.ea a ha

/-- The operand that the handler reads. -/
theorem HandlerReady.getvalue {s : RamState} (h : HandlerReady m r c s.mem) {v : BitVec 8}
    (hv : operandByte m r = some v) :
    ((Cb6502.getvalue c).run ramEnv s).1 = u16 v ∧ ((Cb6502.getvalue c).run ramEnv s).2.mem = m := by
  unfold operandByte at hv
  unfold Cb6502.getvalue
  rw [h.opcode]
  by_cases hacc : addrtable (m r.pc) = .acc
  · rw [if_pos hacc] at hv ⊢
    have ha : c.regs.a = v := by
      rw [h.regs]
      exact Option.some.inj hv
    exact ⟨congrArg u16 ha, h.mem⟩
  · simp only [hacc, if_false, Option.map_eq_some_iff] at hv ⊢
    obtain ⟨ea, hea, rfl⟩ := hv
    rw [← h.ea ea hea, ← h.mem]
    exact ⟨rfl, rfl⟩

/-- The last call of the mode. -/
theorem operandBytes_handler {s : RamState} (h : Operand m r c s.mem) (hs : c.opState ∈ paramStates)
    (hat : operandAt m r (addrtable (m r.pc)) c.opState c)
    (hnext : ((handler c).run ramEnv s).1.opState = .op0) :
    OperandBytes m r ((handler c).run ramEnv s).1 := by
  rw [handler_params hs, h.opcode] at hnext ⊢
  refine ⟨?_, ?_⟩
  · intro himm
    rw [himm] at hat ⊢
    exact hat.2
  · intro hzprel
    rw [hzprel] at hat hnext ⊢
    have hpc2 : r.pc + 1#16 + 1#16 = r.pc + 2#16 := pc_add_two r.pc
    cases hstate : c.opState <;> simp only [operandAt, zprelAt, hstate] at hat
    case param3 =>
      simp [addrHandlers, zprel, hstate, ramEnv, advanceState, hat.1, hpc2, h.mem]
    all_goals simp [addrHandlers, zprel, hstate, advanceState] at hnext

/-! ## The execution -/

/-- The mode, or the calls of the opcode handler with `X` from the first one on. -/
def ExecutionPhase (m : Mem) (r : CpuRegs) (X : Cpu → Mem → Prop) (c : Cpu) (mem : Mem) : Prop :=
  (Operand m r c mem ∧ (c.opState = .op0 → OperandBytes m r c)) ∨
    (c.opcode = m r.pc ∧ c.opState ∈ [OpState.op1, .op2, .op3, .op4, .opcode] ∧ X c mem)

/-- The same with what has been read and written: the mode with `Y` of it, the calls of the
opcode handler with `X`. -/
def PhaseWith (m : Mem) (r : CpuRegs) (Y : RamState → Prop) (X : Cpu → RamState → Prop) (c : Cpu)
    (s : RamState) : Prop :=
  (Operand m r c s.mem ∧ (c.opState = .op0 → OperandBytes m r c) ∧ Y s) ∨
    (c.opcode = m r.pc ∧ c.opState ∈ [OpState.op1, .op2, .op3, .op4, .opcode] ∧ X c s)

theorem phaseWith_handler {Y : RamState → Prop} {X : Cpu → RamState → Prop}
    (hbrk : optable (m r.pc) ≠ .brk) (hjsr : m r.pc ≠ 0x20)
    (hread : ∀ q s, Y s → Y (ramEnv.answer q s).2)
    (hready : ∀ (c : Cpu) (s : RamState), HandlerReady m r c s.mem → Y s →
      X ((ops (optable (m r.pc)) c).run ramEnv s).1 ((ops (optable (m r.pc)) c).run ramEnv s).2)
    (hstep : ∀ (c : Cpu) (s : RamState), X c s → c.opcode = m r.pc →
      c.opState ∈ [OpState.op1, .op2, .op3, .op4] →
      X ((ops (optable (m r.pc)) c).run ramEnv s).1 ((ops (optable (m r.pc)) c).run ramEnv s).2)
    (c : Cpu) (s : RamState) (h : PhaseWith m r Y X c s) :
    PhaseWith m r Y X ((handler c).run ramEnv s).1 ((handler c).run ramEnv s).2 := by
  rcases h with ⟨h, hbytes, hY⟩ | ⟨hopcode, hstate, hX⟩
  · rcases h.phase with ⟨hs, hat⟩ | ⟨hs, -⟩
    · refine .inl ⟨operand_handler hjsr h hs hat, operandBytes_handler h hs hat, ?_⟩
      rw [handler_params hs]
      exact (addrHandlers_asks _ c).run ramEnv hread s hY
    · have hmem : c.opState ∈ handlerStates := by
        rw [hs]
        decide
      obtain ⟨hopcode, hstate⟩ := run_handler_next hbrk s h.opcode hmem
      refine .inr ⟨hopcode, hstate, ?_⟩
      rw [handler_ops hmem, h.opcode]
      exact hready c s (handlerReady_of_operand h hs (hbytes hs)) hY
  · by_cases hs : c.opState = .opcode
    · rw [handler, hs]
      exact .inr ⟨hopcode, hstate, hX⟩
    · have hinside : c.opState ∈ [OpState.op1, .op2, .op3, .op4] := by
        simp only [List.mem_cons, List.not_mem_nil, or_false, hs] at hstate ⊢
        exact hstate
      have hmem : c.opState ∈ handlerStates := List.mem_cons_of_mem _ hinside
      obtain ⟨hopcode', hstate'⟩ := run_handler_next hbrk s hopcode hmem
      refine .inr ⟨hopcode', hstate', ?_⟩
      rw [handler_ops hmem, hopcode]
      exact hstep c s hX hopcode hinside

variable {X : Cpu → Mem → Prop}

theorem executionPhase_iff (c : Cpu) (s : RamState) : ExecutionPhase m r X c s.mem ↔
    PhaseWith m r (fun _ => True) (fun c s => X c s.mem) c s := by
  simp [ExecutionPhase, PhaseWith]

theorem executionPhase_handler (hbrk : optable (m r.pc) ≠ .brk) (hjsr : m r.pc ≠ 0x20)
    (hready : ∀ (c : Cpu) (s : RamState), HandlerReady m r c s.mem →
      X ((ops (optable (m r.pc)) c).run ramEnv s).1 ((ops (optable (m r.pc)) c).run ramEnv s).2.mem)
    (hstep : ∀ (c : Cpu) (s : RamState), X c s.mem → c.opcode = m r.pc →
      c.opState ∈ [OpState.op1, .op2, .op3, .op4] →
      X ((ops (optable (m r.pc)) c).run ramEnv s).1 ((ops (optable (m r.pc)) c).run ramEnv s).2.mem)
    (c : Cpu) (s : RamState) (h : ExecutionPhase m r X c s.mem) :
    ExecutionPhase m r X ((handler c).run ramEnv s).1 ((handler c).run ramEnv s).2.mem := by
  rw [executionPhase_iff] at h ⊢
  exact phaseWith_handler hbrk hjsr (fun _ _ h => h) (fun c s hc _ => hready c s hc) hstep c s h

theorem ExecutionPhase.clearCycle (hclear : ∀ c mem, X c mem → X c.clearCycle mem) {mem : Mem}
    (h : ExecutionPhase m r X c mem) : ExecutionPhase m r X c.clearCycle mem := by
  rcases h with ⟨h, hbytes⟩ | ⟨hopcode, hstate, hX⟩
  · exact .inl ⟨h.clearCycle, fun hs => ⟨(hbytes hs).imm, (hbytes hs).reladdr⟩⟩
  · exact .inr ⟨hopcode, hstate, hclear c mem hX⟩

end

/-- A boundary on a RAM at which the next tick fetches an instruction. -/
structure Fetches (R : Ram ω) (emu : Emu ω) : Prop where
  ram : emu.bus.OnRam R
  boundary : emu.cpu.opState = .opcode
  rdy : emu.bus.sigvotes.rdy = 0
  noInt : intTaken emu.bus.sigvotes emu.cpu.regs = false

/-- The instruction at the boundary `emu` ends at the boundary `e`. -/
def Executes (emu e : Emu ω) : Prop := ∃ n, InstructionRun emu n e ∧ e.cpu.opState = .opcode

theorem Fetches.exists {emu : Emu ω} (h : Fetches R emu) : ∃ e, Executes emu e := by
  obtain ⟨n, e, hrun, he⟩ := InstructionRun.exists_boundary h.ram h.boundary h.rdy h.noInt
  exact ⟨e, n, hrun, he⟩

/-- What the first call of the opcode handler establishes, and its later calls keep, holds at
the end of the instruction. -/
theorem Executes.rule {emu e : Emu ω} (hrun : Executes emu e) (h : Fetches R emu) {op : Op}
    (hop : optable (R.mem emu.bus.devs emu.cpu.regs.pc) = op) (hbrk : op ≠ .brk) (hjsr : op ≠ .jsr)
    {X : Cpu → Mem → Prop}
    (hready : ∀ (c : Cpu) (s : RamState), HandlerReady (R.mem emu.bus.devs) emu.cpu.regs c s.mem →
      X ((ops op c).run ramEnv s).1 ((ops op c).run ramEnv s).2.mem)
    (hstep : ∀ (c : Cpu) (s : RamState), X c s.mem → c.opcode = R.mem emu.bus.devs emu.cpu.regs.pc →
      c.opState ∈ [OpState.op1, .op2, .op3, .op4] →
      X ((ops op c).run ramEnv s).1 ((ops op c).run ramEnv s).2.mem)
    (hclear : ∀ c mem, X c mem → X c.clearCycle mem) :
    X e.cpu.clearCycle (R.mem e.bus.devs) := by
  subst hop
  obtain ⟨n, hrun, he⟩ := hrun
  have hne : R.mem emu.bus.devs emu.cpu.regs.pc ≠ 0x20 := by
    intro h
    rw [h] at hjsr
    exact hjsr (by decide)
  have hphase := hrun.keeps h.ram h.boundary (executionPhase_handler hbrk hne hready hstep)
    (fun c mem h => h.clearCycle hclear) (.inl ⟨operand_first h.boundary h.noInt, ?_⟩)
  · rcases hphase with ⟨h, -⟩ | ⟨-, -, hX⟩
    · -- the mode ends before the boundary
      have hboundary : e.cpu.clearCycle.opState = .opcode := he
      rcases h.phase with ⟨hparam, -⟩ | ⟨h0, -⟩
      · rw [hboundary] at hparam
        exact absurd hparam (by decide)
      · exact absurd (h0.symm.trans hboundary) (by decide)
    · exact hX
  · intro h0
    rw [Emu.firstCore, core_tick_fetch (by exact h.boundary) (by exact h.noInt)] at h0
    exact OpState.noConfusion h0

/-- An instruction whose handler ends with its first call. -/
theorem Executes.once {emu e : Emu ω} (hrun : Executes emu e) (h : Fetches R emu) {op : Op}
    (hop : optable (R.mem emu.bus.devs emu.cpu.regs.pc) = op) (hbrk : op ≠ .brk) (hjsr : op ≠ .jsr)
    {Q : CpuRegs → Mem → Prop}
    (hready : ∀ (c : Cpu) (s : RamState), HandlerReady (R.mem emu.bus.devs) emu.cpu.regs c s.mem →
      ((ops op c).run ramEnv s).1.opState = .opcode ∧
        Q ((ops op c).run ramEnv s).1.regs ((ops op c).run ramEnv s).2.mem) :
    Q e.cpu.regs (R.mem e.bus.devs) := by
  have hX := hrun.rule h hop hbrk hjsr (X := fun c mem => c.opState = .opcode ∧ Q c.regs mem) hready
    ?_ fun c mem h => h
  · exact hX.2
  · intro c s hend hopcode hstate
    rw [hend.1] at hstate
    exact absurd hstate (by decide)

end Cb6502
