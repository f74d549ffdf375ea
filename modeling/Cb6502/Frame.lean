import Cb6502.Cycle

/- What the handlers leave alone. An addressing mode changes no register but the program
   counter; an opcode handler leaves the program counter, the effective address and the
   bits 4 and 5 of the status as they were, unless its instruction is there to change
   them. `Cpu.Stays` and `Cpu.Keeps` name what most handlers keep, `OpFrame` adds the exceptions. -/
namespace Cb6502
open Dialogue

/-- Bits 4 and 5 of a status byte. -/
def sourceBits (status : BitVec 8) : BitVec 8 := status &&& (flagBreak ||| flagConstant)

/-! ## Flags other than bits 4 and 5 -/

section Flags
variable (status : BitVec 8)

theorem sourceBits_or (flag : BitVec 8) :
    sourceBits (status ||| flag) = sourceBits status ||| sourceBits flag :=
  BitVec.and_or_distrib_right

theorem sourceBits_setFlag {flag : BitVec 8} (h : sourceBits flag = 0) :
    sourceBits (setFlag flag status) = sourceBits status := by
  rw [setFlag, sourceBits_or, h]
  exact BitVec.or_zero

theorem sourceBits_clearFlag {flag : BitVec 8} (h : sourceBits flag = 0) :
    sourceBits (clearFlag flag status) = sourceBits status := by
  apply BitVec.eq_of_getLsbD_eq
  intro i hi
  have hbit := congrArg (·.getLsbD i) h
  simp only [sourceBits, clearFlag, BitVec.getLsbD_and, BitVec.getLsbD_not, hi, decide_true,
    Bool.true_and] at hbit ⊢
  cases hf : flag.getLsbD i <;> simp_all

theorem sourceBits_flagIf {flag : BitVec 8} (b : Bool) (h : sourceBits flag = 0) :
    sourceBits (flagIf flag b status) = sourceBits status := by
  unfold flagIf
  split
  · exact sourceBits_setFlag status h
  · exact sourceBits_clearFlag status h

/-- The second cycle of decimal mode. -/
theorem sourceBits_adjust {α : Type} (c : Prop) [Decidable c] (a b : α) :
    sourceBits (if c then (a, setFlag flagCarry (clearFlag flagCarry status))
      else (b, clearFlag flagCarry status)).2 = sourceBits status := by
  have hclear := sourceBits_clearFlag status (show sourceBits flagCarry = 0 from rfl)
  split
  · exact (sourceBits_setFlag _ rfl).trans hclear
  · exact hclear

/-- `bit` copies bits 6 and 7 of its operand. -/
theorem sourceBits_bit (value : BitVec 16) :
    sourceBits ((status &&& 0x3F) ||| u8 (value &&& 0xC0)) = sourceBits status := by
  rw [sourceBits, u8, BitVec.setWidth_and, BitVec.and_or_distrib_right, BitVec.and_assoc,
    BitVec.and_assoc]
  simp [sourceBits, flagBreak, flagConstant]

@[simp] theorem sourceBits_zerocalc (n : BitVec 16) :
    sourceBits (zerocalc status n) = sourceBits status := sourceBits_flagIf status _ rfl

@[simp] theorem sourceBits_signcalc (n : BitVec 16) :
    sourceBits (signcalc status n) = sourceBits status := sourceBits_flagIf status _ rfl

@[simp] theorem sourceBits_carrycalc (n : BitVec 16) :
    sourceBits (carrycalc status n) = sourceBits status := sourceBits_flagIf status _ rfl

@[simp] theorem sourceBits_overflowcalc (n : BitVec 16) (m : BitVec 8) (o : BitVec 16) :
    sourceBits (overflowcalc status n m o) = sourceBits status := sourceBits_flagIf status _ rfl

@[simp] theorem sourceBits_zncalc (n : BitVec 16) :
    sourceBits (zncalc status n) = sourceBits status := by
  rw [zncalc, sourceBits_signcalc, sourceBits_zerocalc]

@[simp] theorem sourceBits_testStatus (value : BitVec 16) (cpu : Cpu) :
    sourceBits (testStatus value cpu) = sourceBits cpu.regs.status := sourceBits_zerocalc _ _

end Flags

/-! ## Address modes -/

/-- The cycle of an addressing mode changes no register but the program counter. -/
def Cpu.SameButPc (cpu cpu' : Cpu) : Prop := cpu'.regs = { cpu.regs with pc := cpu'.regs.pc }

theorem addrHandlers_sameButPc (mode : AddrMode) (cpu : Cpu) :
    Prog.Ends (fun _ => cpu.SameButPc) (addrHandlers mode cpu) := by
  cases mode
  case imp | acc | imm | zp | rel =>
    simp [addrHandlers, imp, acc, imm, zp, rel, Prog.Ends, Cpu.SameButPc, advanceState]
  case zpx | zpy =>
    simp [addrHandlers, zpx, zpy, zpIndexed, Prog.Ends, Cpu.SameButPc, advanceState]
  case absx | absy =>
    simp [addrHandlers, absx, absy, absIndexed, Prog.Ends, Cpu.SameButPc, advanceState]
  case abso => simp [addrHandlers, abso, Prog.Ends, Cpu.SameButPc, advanceState]
  all_goals
    simp only [addrHandlers, ind, indx, indy, indz, abin, zprel]
    cases cpu.opState <;> simp [Prog.Ends, Cpu.SameButPc, advanceState]

/-! ## Opcode handlers -/

/-- What a handler keeps when its instruction is not there to change it. -/
structure Cpu.Stays (cpu cpu' : Cpu) : Prop where
  pc : cpu'.regs.pc = cpu.regs.pc
  ea : cpu'.ea = cpu.ea
  bits : sourceBits cpu'.regs.status = sourceBits cpu.regs.status

/-- What the handlers off the stack keep. -/
structure Cpu.Keeps (cpu cpu' : Cpu) : Prop extends Cpu.Stays cpu cpu' where
  sp : cpu'.regs.sp = cpu.regs.sp

theorem Cpu.stays_iff (cpu cpu' : Cpu) : cpu.Stays cpu' ↔ cpu'.regs.pc = cpu.regs.pc ∧
    cpu'.ea = cpu.ea ∧ sourceBits cpu'.regs.status = sourceBits cpu.regs.status :=
  ⟨fun h => ⟨h.pc, h.ea, h.bits⟩, fun ⟨h₁, h₂, h₃⟩ => ⟨h₁, h₂, h₃⟩⟩

theorem Cpu.keeps_iff (cpu cpu' : Cpu) : cpu.Keeps cpu' ↔ cpu.Stays cpu' ∧ cpu'.regs.sp = cpu.regs.sp :=
  ⟨fun h => ⟨h.toStays, h.sp⟩, fun ⟨h₁, h₂⟩ => ⟨h₁, h₂⟩⟩

section Ops
variable (cpu : Cpu)
attribute [local simp] Cpu.stays_iff Cpu.keeps_iff Prog.Ends advanceState

/-- The read of the operand is followed by something that keeps `P`. -/
theorem getvalue_keeps {P : Cpu → Prop} {k : BitVec 16 → BusM Cpu}
    (hk : ∀ v, Prog.Ends (fun _ => P) (k v)) : Prog.Ends (fun _ => P) (getvalue cpu >>= k) := by
  have hends : Prog.Ends (fun _ _ => True) (getvalue cpu) :=
    (getvalue_ends cpu).mono fun _ _ _ => trivial
  refine Prog.EndsFrom.bind hends ?_
  intro n v _
  exact (Prog.EndsFrom.shift (hk v) n).mono fun m cpu' ⟨_, _, h⟩ => h

theorem putvalue_keeps (v : BitVec 16) (next : OpState) (consumes : Bool) :
    Prog.Ends (fun _ => cpu.Keeps)
      (putvalue cpu v >>= fun c => pure (advanceState c next consumes)) := by
  unfold putvalue
  split <;> simp

theorem addWithFlags_keeps (value : BitVec 16) : cpu.Keeps (addWithFlags cpu value) := by
  simp [addWithFlags]

theorem adc_keeps : Prog.Ends (fun _ => cpu.Keeps) (adc cpu) := by
  unfold adc
  split
  · refine getvalue_keeps cpu fun v => ?_
    obtain ⟨⟨hpc, hea, hbits⟩, hsp⟩ := addWithFlags_keeps cpu v
    simp only [Prog.pure_eq, Prog.Ends, Prog.endsFrom_ite, Prog.endsFrom_done]
    exact ⟨fun _ => ⟨⟨hpc, hea, hbits⟩, hsp⟩, fun _ => ⟨⟨hpc, hea, hbits⟩, hsp⟩⟩
  · simp [sourceBits_adjust]

theorem sbc_keeps : Prog.Ends (fun _ => cpu.Keeps) (sbc cpu) := by
  unfold sbc
  split
  · refine getvalue_keeps cpu fun v => ?_
    obtain ⟨⟨hpc, hea, hbits⟩, hsp⟩ := addWithFlags_keeps cpu (v ^^^ 0x00FF)
    simp only [Prog.pure_eq, Prog.Ends, Prog.endsFrom_ite, Prog.endsFrom_done]
    exact ⟨fun _ => ⟨⟨hpc, hea, hbits⟩, hsp⟩, fun _ => ⟨⟨hpc, hea, hbits⟩, hsp⟩⟩
  · simp [sourceBits_adjust]

theorem logical_keeps (f : BitVec 16 → BitVec 16 → BitVec 16) :
    Prog.Ends (fun _ => cpu.Keeps) (logical f cpu) :=
  getvalue_keeps cpu fun v => by simp

theorem compare_keeps (reg : CpuRegs → BitVec 8) :
    Prog.Ends (fun _ => cpu.Keeps) (compare reg cpu) :=
  getvalue_keeps cpu fun v => by
    simp [sourceBits_flagIf _ _ (show sourceBits flagCarry = 0 from rfl),
      sourceBits_flagIf _ _ (show sourceBits flagZero = 0 from rfl)]

theorem bit_keeps : Prog.Ends (fun _ => cpu.Keeps) (bit cpu) :=
  getvalue_keeps cpu fun v => by
    have hbits := sourceBits_bit (zerocalc cpu.regs.status (u16 cpu.regs.a &&& v)) v
    rw [sourceBits_zerocalc] at hbits
    exact ⟨⟨rfl, rfl, hbits⟩, rfl⟩

theorem shift_keeps (f : BitVec 16 → BitVec 8 → BitVec 16) (carry : BitVec 16 → BitVec 16 → Bool) :
    Prog.Ends (fun _ => cpu.Keeps) (shift f carry cpu) := by
  have hcarry : ∀ b status, sourceBits (flagIf flagCarry b status) = sourceBits status :=
    fun b status => sourceBits_flagIf status b rfl
  unfold shift
  cases cpu.opState with
  | op0 =>
    refine getvalue_keeps cpu fun v => ?_
    by_cases hacc : addrtable cpu.opcode = .acc
    · simp [putvalue, hacc, hcarry]
    · simp [hacc, hcarry]
  | op2 => exact putvalue_keeps cpu _ _ _
  | _ => simp

theorem incDec_keeps (f : BitVec 16 → BitVec 16) : Prog.Ends (fun _ => cpu.Keeps) (incDec f cpu) := by
  unfold incDec
  cases cpu.opState with
  | op0 => by_cases hp : addrtable cpu.opcode = .absx ∧ cpu.pageBoundary = false <;> simp [hp]
  | op1 =>
    refine getvalue_keeps cpu fun v => ?_
    by_cases hacc : addrtable cpu.opcode = .acc
    · simp [putvalue, hacc]
    · simp [hacc]
  | op3 => exact putvalue_keeps cpu _ _ _
  | _ => simp

theorem modifyBits_keeps (f : BitVec 16 → Cpu → BitVec 16) (status : BitVec 16 → Cpu → BitVec 8)
    (hstatus : ∀ v, sourceBits (status v cpu) = sourceBits cpu.regs.status) :
    Prog.Ends (fun _ => cpu.Keeps) (modifyBits f status cpu) := by
  unfold modifyBits
  cases cpu.opState with
  | op0 => exact getvalue_keeps cpu fun v => by simp [hstatus]
  | op2 => exact putvalue_keeps cpu _ _ _
  | _ => simp

theorem load_keeps (put : BitVec 8 → CpuRegs → CpuRegs)
    (hput : ∀ b r, (put b r).pc = r.pc ∧ (put b r).sp = r.sp) :
    Prog.Ends (fun _ => cpu.Keeps) (load put cpu) :=
  getvalue_keeps cpu fun v => by simp [hput]

theorem store_keeps (reg : CpuRegs → BitVec 8) : Prog.Ends (fun _ => cpu.Keeps) (store reg cpu) := by
  unfold store
  dsimp only
  split
  · simp
  · exact putvalue_keeps cpu _ _ _

theorem sta_keeps : Prog.Ends (fun _ => cpu.Keeps) (sta cpu) := by
  unfold sta
  split
  · simp
  · exact store_keeps cpu _

theorem phPush_stays : Prog.Ends (fun _ => cpu.Stays) (phPush cpu) := by
  simp [phPush, push8]

theorem ph_stays : Prog.Ends (fun _ => cpu.Stays) (ph cpu) := by
  unfold ph
  split
  · simp
  · refine Prog.EndsFrom.bind (phPush_stays cpu) ?_
    rintro n c ⟨hpc, hea, hbits⟩
    exact ⟨hpc, hea, hbits⟩

theorem plPull_stays (h : cpu.opcode ≠ 0x28) : Prog.Ends (fun _ => cpu.Stays) (plPull cpu) := by
  rw [plPull, if_neg h]
  simp [pullReg, pull8]

/-- `PLP` apart, a pull leaves bits 4 and 5. -/
theorem pl_stays (h : ¬(cpu.opState = .op2 ∧ cpu.opcode = 0x28)) :
    Prog.Ends (fun _ => cpu.Stays) (pl cpu) := by
  unfold pl
  cases hs : cpu.opState with
  | op2 =>
    have hplp : cpu.opcode ≠ 0x28 := fun hop => h ⟨hs, hop⟩
    refine Prog.EndsFrom.bind (plPull_stays cpu hplp) ?_
    rintro n c ⟨hpc, hea, hbits⟩
    exact ⟨hpc, hea, hbits⟩
  | _ => simp

theorem regsOp_stays (f : CpuRegs → CpuRegs) (hpc : (f cpu.regs).pc = cpu.regs.pc)
    (hbits : sourceBits (f cpu.regs).status = sourceBits cpu.regs.status) :
    Prog.Ends (fun _ => cpu.Stays) (regsOp f cpu) := by
  simp [regsOp, hpc, hbits]

/-- A branch in its first cycle. -/
theorem branch_stays (taken : Cpu → Bool) (h : cpu.opState = .op0) :
    Prog.Ends (fun _ => cpu.Stays) (branch taken cpu) := by
  simp [branch, h]

end Ops

/-! ## The instruction's frame -/

/-- The instructions that set the program counter themselves. -/
def Op.jumps : Op → Bool
  | .jmp | .jsr | .rts | .rti => true
  | _ => false

/-- The relative branches. -/
def Op.branches : Op → Bool
  | .bxx | .bra | .bbr | .bbs => true
  | _ => false

/-- What an opcode handler keeps, with the instructions excepted that exist to change it. -/
structure OpFrame (op : Op) (cpu cpu' : Cpu) : Prop where
  pc : op.jumps = false → (op.branches = true → cpu.opState = .op0) → cpu'.regs.pc = cpu.regs.pc
  ea : op ≠ .jsr → cpu'.ea = cpu.ea
  bits : (op = .rti → cpu.opState ≠ .op2) → ¬(cpu.opState = .op2 ∧ cpu.opcode = 0x28) →
    sourceBits cpu'.regs.status = sourceBits cpu.regs.status

theorem Cpu.Stays.opFrame {op : Op} {cpu cpu' : Cpu} (h : cpu.Stays cpu') : OpFrame op cpu cpu' :=
  ⟨fun _ _ => h.pc, fun _ => h.ea, fun _ _ => h.bits⟩

section OpFrames
variable (cpu : Cpu)
attribute [local simp] Prog.Ends advanceState push8 pull8

theorem branchTaken_ends : Prog.Ends (fun _ cpu' => cpu'.ea = cpu.ea ∧
    sourceBits cpu'.regs.status = sourceBits cpu.regs.status) (branchTaken cpu) := by
  unfold branchTaken
  cases cpu.opState <;> simp

theorem branch_opFrame {op : Op} (hop : op.branches = true) (taken : Cpu → Bool) :
    Prog.Ends (fun _ => OpFrame op cpu) (branch taken cpu) := by
  by_cases h0 : cpu.opState = .op0
  · exact (branch_stays cpu taken h0).mono fun _ _ h => h.opFrame
  · have hlater : branch taken cpu = branchTaken cpu := by
      unfold branch
      split
      · exact absurd ‹_› h0
      · rfl
    rw [hlater]
    refine (branchTaken_ends cpu).mono ?_
    rintro n cpu' ⟨hea, hbits⟩
    exact ⟨fun _ hfirst => absurd (hfirst hop) h0, fun _ => hea, fun _ _ => hbits⟩

theorem jmp_opFrame : Prog.Ends (fun _ => OpFrame .jmp cpu) (jmp cpu) :=
  ⟨nofun, fun _ => rfl, fun _ _ => rfl⟩

theorem jsr_opFrame : Prog.Ends (fun _ => OpFrame .jsr cpu) (jsr cpu) := by
  have hbits : Prog.Ends (fun _ cpu' => sourceBits cpu'.regs.status = sourceBits cpu.regs.status)
      (jsr cpu) := by
    unfold jsr
    cases cpu.opState <;> simp
  exact hbits.mono fun _ _ h => ⟨nofun, fun hjsr => absurd rfl hjsr, fun _ _ => h⟩

theorem rts_opFrame : Prog.Ends (fun _ => OpFrame .rts cpu) (rts cpu) := by
  have hends : Prog.Ends (fun _ cpu' => cpu'.ea = cpu.ea ∧
      sourceBits cpu'.regs.status = sourceBits cpu.regs.status) (rts cpu) := by
    unfold rts
    cases cpu.opState <;> simp
  exact hends.mono fun _ _ h => ⟨nofun, fun _ => h.1, fun _ _ => h.2⟩

theorem rti_opFrame : Prog.Ends (fun _ => OpFrame .rti cpu) (rti cpu) := by
  have hends : Prog.Ends (fun _ cpu' => cpu'.ea = cpu.ea ∧ (cpu.opState ≠ .op2 →
      sourceBits cpu'.regs.status = sourceBits cpu.regs.status)) (rti cpu) := by
    unfold rti
    cases cpu.opState <;> simp
  exact hends.mono fun _ _ h => ⟨nofun, fun _ => h.1, fun hrti _ => h.2 (hrti rfl)⟩

theorem pl_opFrame : Prog.Ends (fun _ => OpFrame .pl cpu) (pl cpu) := by
  by_cases h : cpu.opState = .op2 ∧ cpu.opcode = 0x28
  · have hends : Prog.Ends (fun _ cpu' => cpu'.regs.pc = cpu.regs.pc ∧ cpu'.ea = cpu.ea) (pl cpu) := by
      simp [pl, plPull, h.1, h.2]
    exact hends.mono fun _ _ hkeep => ⟨fun _ _ => hkeep.1, fun _ => hkeep.2, fun _ hplp => absurd h hplp⟩
  · exact (pl_stays cpu h).mono fun _ _ h => h.opFrame

theorem ops_frame (op : Op) : Prog.Ends (fun _ => OpFrame op cpu) (ops op cpu) := by
  have of_stays : ∀ {op : Op} {p : BusM Cpu}, Prog.Ends (fun _ => cpu.Stays) p →
      Prog.Ends (fun _ => OpFrame op cpu) p := fun h => h.mono fun _ _ h => h.opFrame
  have of_keeps : ∀ {op : Op} {p : BusM Cpu}, Prog.Ends (fun _ => cpu.Keeps) p →
      Prog.Ends (fun _ => OpFrame op cpu) p := fun h => h.mono fun _ _ h => h.toStays.opFrame
  cases op <;> simp only [ops]
  case bxx | bra | bbr | bbs => exact branch_opFrame cpu rfl _
  case jmp => exact jmp_opFrame cpu
  case jsr => exact jsr_opFrame cpu
  case rts => exact rts_opFrame cpu
  case rti => exact rti_opFrame cpu
  case pl => exact pl_opFrame cpu
  case adc => exact of_keeps (adc_keeps cpu)
  case sbc => exact of_keeps (sbc_keeps cpu)
  case and | eor | ora => exact of_keeps (logical_keeps cpu _)
  case cmp | cpx | cpy => exact of_keeps (compare_keeps cpu _)
  case bit => exact of_keeps (bit_keeps cpu)
  case asl | lsr | rol | ror => exact of_keeps (shift_keeps cpu _ _)
  case dec | inc => exact of_keeps (incDec_keeps cpu _)
  case trb | tsb => exact of_keeps (modifyBits_keeps cpu _ _ fun v => sourceBits_testStatus v cpu)
  case rmb | smb => exact of_keeps (modifyBits_keeps cpu _ _ fun _ => rfl)
  case ph => exact of_stays (ph_stays cpu)
  case lda | ldx | ldy => exact of_keeps (load_keeps cpu _ fun _ _ => ⟨rfl, rfl⟩)
  case sta => exact of_keeps (sta_keeps cpu)
  case stx | sty | stz => exact of_keeps (store_keeps cpu _)
  case brk => exact of_stays ⟨rfl, rfl, rfl⟩
  case clc | cld | cli | clv =>
    exact of_stays (regsOp_stays cpu _ rfl (sourceBits_clearFlag _ rfl))
  case sec | sed | sei =>
    exact of_stays (regsOp_stays cpu _ rfl (sourceBits_setFlag _ rfl))
  case dex | dey | inx | iny | tax | tay | tsx | txa | tya =>
    exact of_stays (regsOp_stays cpu _ rfl (sourceBits_zncalc _ _))
  case txs | nop | wai => exact of_stays (regsOp_stays cpu _ rfl rfl)

/-- The vector sequence sets the interrupt flag and clears the decimal flag, no more. -/
theorem vector_bits : Prog.Ends (fun _ cpu' =>
    sourceBits cpu'.regs.status = sourceBits cpu.regs.status) (vector cpu) := by
  have hset : ∀ status, sourceBits (setFlag flagInterrupt status) = sourceBits status :=
    fun status => sourceBits_setFlag status rfl
  have hclear : ∀ status, sourceBits (clearFlag flagDecimal status) = sourceBits status :=
    fun status => sourceBits_clearFlag status rfl
  unfold vector
  cases cpu.opState
  case vec4 =>
    by_cases hrst : cpu.vecSrc = .rst
    · simp [hrst, hset, hclear]
    · simp [hrst, hset]
  all_goals simp

end OpFrames

end Cb6502
