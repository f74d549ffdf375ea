import Cb6502.Decimal

/- ADC, SBC and the comparisons with D clear. All of them end with the first call of their
   handler. `binaryAdd` is the documented addition; SBC is the same with the operand
   complemented, which is a subtraction (`AddWithCarry.sum_not`), and a comparison has the C, Z
   and N of that subtraction with the carry set, from handlers that compute them in another
   way: C by comparing bytes, Z by an equality, N from a 16-bit difference. -/
namespace Cb6502
open Dialogue

variable {ω : Type} {R : Ram ω}

/-! ## What the instructions are to do -/

/-- The flags of a comparison. -/
def compareFlags : BitVec 8 := flagCarry ||| flagZero ||| flagSign

/-- The registers of the subtraction of `v` from `reg` with the carry set. -/
def fullSubtract (r : CpuRegs) (reg v : BitVec 8) : CpuRegs :=
  binaryAdd { r with a := reg, status := setFlag flagCarry r.status } (~~~v)

/-- From the registers `r`, a comparison of `reg` with `v` changes C, Z and N only, and sets them
as the subtraction does. -/
structure Compares (reg : BitVec 8) (r : CpuRegs) (v : BitVec 8) (r' : CpuRegs) : Prop where
  regs : r' = { r with status := r'.status }
  flags : r'.status &&& compareFlags = (fullSubtract r reg v).status &&& compareFlags
  kept : r'.status &&& ~~~compareFlags = r.status &&& ~~~compareFlags

/-- The instruction `op` on the byte `v`, from the registers `r` to `r'`. -/
def Computes (op : Op) (r : CpuRegs) (v : BitVec 8) (r' : CpuRegs) : Prop :=
  match op with
  | .adc => r' = binaryAdd r v
  | .sbc => r' = binaryAdd r (~~~v)
  | .cmp => Compares r.a r v r'
  | .cpx => Compares r.x r v r'
  | .cpy => Compares r.y r v r'
  | _ => False

def arithmeticOps : List Op := [.adc, .sbc, .cmp, .cpx, .cpy]

/-! ## The handlers -/

theorem arithmetic_table : ∀ opcode : BitVec 8, optable opcode ∈ arithmeticOps →
    (addrtable opcode).hasAddress = true ∧
      bytesRead (addrtable opcode) = BitVec.ofNat 16 (addrLengths (addrtable opcode)) := by
  decide +kernel

theorem not_u16 (v : BitVec 8) : u16 v ^^^ 0x00FF = u16 (~~~v) := by
  revert v
  decide +kernel

section Calls
variable {c : Cpu} {s : RamState} {v : BitVec 8} (hv : ((getvalue c).run ramEnv s).1 = u16 v)
include hv

theorem run_adc_binary (hs : c.opState = .op0) (hd : c.regs.status &&& flagDecimal = 0) :
    ((adc c).run ramEnv s).1.opState = .opcode ∧
      ((adc c).run ramEnv s).1.regs = binaryAdd c.regs v ∧
      ((adc c).run ramEnv s).2 = ((getvalue c).run ramEnv s).2 := by
  obtain ⟨hsum, hregs⟩ := addWithFlags_binary c v
  have hbinary : ¬(addWithFlags c (u16 v)).regs.status &&& flagDecimal ≠ 0 := by
    rw [addWithFlags_decimal, hd]
    simp
  unfold adc
  rw [if_pos hs, Prog.run_bind, hv, if_neg hbinary]
  refine ⟨rfl, ?_, rfl⟩
  show { (addWithFlags c (u16 v)).regs with a := u8 (addWithFlags c (u16 v)).result } = _
  rw [hsum, hregs]

theorem run_sbc_binary (hs : c.opState = .op0) (hd : c.regs.status &&& flagDecimal = 0) :
    ((sbc c).run ramEnv s).1.opState = .opcode ∧
      ((sbc c).run ramEnv s).1.regs = binaryAdd c.regs (~~~v) ∧
      ((sbc c).run ramEnv s).2 = ((getvalue c).run ramEnv s).2 := by
  obtain ⟨hsum, hregs⟩ := addWithFlags_binary c (~~~v)
  have hbinary : ¬(addWithFlags c (u16 (~~~v))).regs.status &&& flagDecimal ≠ 0 := by
    rw [addWithFlags_decimal, hd]
    simp
  unfold sbc
  rw [if_pos hs, Prog.run_bind, hv, not_u16, if_neg hbinary]
  refine ⟨rfl, ?_, rfl⟩
  show { (addWithFlags c (u16 (~~~v))).regs with a := u8 (addWithFlags c (u16 (~~~v))).result } = _
  rw [hsum, hregs]

end Calls

/-- The status of a comparison, and of the subtraction. -/
theorem compare_status : ∀ (status : BitVec 8) (n z c o : Bool),
    let compared := flagIf flagSign n (flagIf flagZero z (flagIf flagCarry c status))
    let subtracted := flagIf flagSign n (flagIf flagOverflow o (flagIf flagZero z
      (flagIf flagCarry c (setFlag flagCarry status))))
    compared &&& compareFlags = subtracted &&& compareFlags ∧
      compared &&& ~~~compareFlags = status &&& ~~~compareFlags := by
  decide +kernel

theorem u8_sub (r v : BitVec 8) : u8 (u16 r - u16 v) = r - v := by
  apply BitVec.eq_of_toNat_eq
  simp only [BitVec.toNat_setWidth, BitVec.toNat_sub]
  omega

/-- The flags of the subtraction, by the comparison of the bytes. -/
theorem fullSubtract_status (r : CpuRegs) (reg v : BitVec 8) :
    (fullSubtract r reg v).status =
      flagIf flagSign (reg - v).msb
        (flagIf flagOverflow (AddWithCarry.overflows reg (~~~v) true)
          (flagIf flagZero (reg == v)
            (flagIf flagCarry (decide (v ≤ reg)) (setFlag flagCarry r.status)))) := by
  have hset : hasFlag flagCarry (setFlag flagCarry r.status) = true :=
    hasFlag_flagIf (by decide) true r.status
  have hzero : (reg - v == 0) = (reg == v) := by
    rw [Bool.eq_iff_iff, beq_iff_eq, beq_iff_eq]
    exact sub_eq_zero
  unfold fullSubtract binaryAdd
  simp only [hset, AddWithCarry.sum_not, AddWithCarry.carries_not, hzero]

/-- The status that `compare` computes. -/
def comparedStatus (reg v status : BitVec 8) : BitVec 8 :=
  flagIf flagSign (reg - v).msb (flagIf flagZero (reg == v) (flagIf flagCarry (decide (v ≤ reg)) status))

theorem run_compare {c : Cpu} {s : RamState} {v : BitVec 8} (reg : CpuRegs → BitVec 8)
    (hv : ((getvalue c).run ramEnv s).1 = u16 v) :
    ((compare reg c).run ramEnv s).1.opState = .opcode ∧
      Compares (reg c.regs) c.regs v ((compare reg c).run ramEnv s).1.regs ∧
      ((compare reg c).run ramEnv s).2 = ((getvalue c).run ramEnv s).2 := by
  have hcall : (compare reg c).run ramEnv s =
      (advanceState { c with regs.status := comparedStatus (reg c.regs) v c.regs.status } .opcode true,
        ((getvalue c).run ramEnv s).2) := by
    unfold compare comparedStatus
    rw [Prog.run_bind, hv, ← u8_sub, ← signcalc_eq, u8_u16]
    rfl
  obtain ⟨hflags, hkept⟩ := compare_status c.regs.status (reg c.regs - v).msb (reg c.regs == v)
    (decide (v ≤ reg c.regs)) (AddWithCarry.overflows (reg c.regs) (~~~v) true)
  rw [hcall]
  refine ⟨rfl, ⟨rfl, ?_, hkept⟩, rfl⟩
  rw [fullSubtract_status]
  exact hflags

/-! ## The instructions -/

/-- The one call of the handler. -/
theorem computes_call {op : Op} (hop : op ∈ arithmeticOps) {c : Cpu} {s : RamState} {v : BitVec 8}
    (hs : c.opState = .op0) (hd : c.regs.status &&& flagDecimal = 0)
    (hv : ((getvalue c).run ramEnv s).1 = u16 v) :
    ((ops op c).run ramEnv s).1.opState = .opcode ∧
      Computes op c.regs v ((ops op c).run ramEnv s).1.regs ∧
      ((ops op c).run ramEnv s).2 = ((getvalue c).run ramEnv s).2 := by
  simp only [arithmeticOps, List.mem_cons, List.not_mem_nil, or_false] at hop
  rcases hop with rfl | rfl | rfl | rfl | rfl
  · exact run_adc_binary hv hs hd
  · exact run_sbc_binary hv hs hd
  · exact run_compare CpuRegs.a hv
  · exact run_compare CpuRegs.x hv
  · exact run_compare CpuRegs.y hv

/-- With D clear, in every addressing mode, ADC adds the operand and the carry, SBC adds its
complement, and CMP, CPX and CPY set C, Z and N of a subtraction with the carry set. The program
counter goes to the next instruction; the memory stays. -/
theorem binary_arithmetic {emu : Emu ω} (h : Fetches R emu) {m : Mem} (hm : R.mem emu.bus.devs = m)
    (hd : emu.cpu.regs.status &&& flagDecimal = 0)
    (hop : optable (m emu.cpu.regs.pc) ∈ arithmeticOps) :
    (∃ e, Executes emu e) ∧ ∃ v, operandByte m emu.cpu.regs = some v ∧ ∀ e, Executes emu e →
      Computes (optable (m emu.cpu.regs.pc))
        { emu.cpu.regs with
          pc := emu.cpu.regs.pc + BitVec.ofNat 16 (addrLengths (addrtable (m emu.cpu.regs.pc))) }
        v e.cpu.regs ∧
      R.mem e.bus.devs = m := by
  subst hm
  obtain ⟨hmode, hlength⟩ := arithmetic_table _ hop
  obtain ⟨ea, hea⟩ := operandAddress_of_hasAddress (m := R.mem emu.bus.devs) (r := emu.cpu.regs) hmode
  have hbyte := operandByte_of_hasAddress hmode hea
  refine ⟨h.exists, _, hbyte, ?_⟩
  intro e hrun
  have hne : optable (R.mem emu.bus.devs emu.cpu.regs.pc) ≠ .brk ∧
      optable (R.mem emu.bus.devs emu.cpu.regs.pc) ≠ .jsr := by
    generalize optable (R.mem emu.bus.devs emu.cpu.regs.pc) = op at hop
    revert op
    decide
  refine hrun.once h rfl hne.1 hne.2 (Q := fun r' m' => Computes _ _ _ r' ∧ m' = R.mem emu.bus.devs) ?_
  intro c s hready
  obtain ⟨hv, hmem⟩ := hready.getvalue hbyte
  have hdecimal : c.regs.status &&& flagDecimal = 0 := by
    rw [hready.regs]
    exact hd
  obtain ⟨hend, hcomputes, hstate⟩ := computes_call hop hready.state hdecimal hv
  rw [hready.regs, hlength] at hcomputes
  exact ⟨hend, hcomputes, by rw [hstate, hmem]⟩

/-- `$7F + $01` overflows, and `$00 - $01` borrows. -/
theorem binary_arithmetic_of_immediates :
    (∃ e, Executes (immEmu 0x69 0x7F 0x01 0x00) e ∧ e.cpu.regs.a = 0x80 ∧ e.cpu.regs.status = 0xC0) ∧
      ∃ e, Executes (immEmu 0xE9 0x00 0x01 0x01) e ∧ e.cpu.regs.a = 0xFF ∧ e.cpu.regs.status = 0x80 := by
  have hfetches : ∀ opcode a m status, Fetches flatRam (immEmu opcode a m status) :=
    fun _ _ _ _ => ⟨⟨rfl, rfl, trivial⟩, rfl, rfl, rfl⟩
  refine ⟨?_, ?_⟩
  · obtain ⟨⟨e, hrun⟩, v, hv, hall⟩ := binary_arithmetic (hfetches 0x69 0x7F 0x01 0x00) rfl (by decide)
      (by decide)
    obtain rfl : 0x01 = v := Option.some.inj hv
    have hregs : e.cpu.regs = _ := (hall e hrun).1
    exact ⟨e, hrun, by rw [hregs]; decide, by rw [hregs]; decide⟩
  · obtain ⟨⟨e, hrun⟩, v, hv, hall⟩ := binary_arithmetic (hfetches 0xE9 0x00 0x01 0x01) rfl (by decide)
      (by decide)
    obtain rfl : 0x01 = v := Option.some.inj hv
    have hregs : e.cpu.regs = _ := (hall e hrun).1
    exact ⟨e, hrun, by rw [hregs]; decide, by rw [hregs]; decide⟩

end Cb6502
