import Cb6502.Lib.AddWithCarry
import Cb6502.Instructions

/- The status flags. The macros of the source test bits of a 16-bit scratch value; each is
   `flagIf` on a property of the byte in it, and `flagIf` sets its own bit and keeps the
   others. -/
namespace Cb6502

/-! ## One flag -/

/-- The flag `flag` of a status. -/
def hasFlag (flag status : BitVec 8) : Bool := status &&& flag != 0

theorem flagIf_and {flag mask : BitVec 8} (h : flag &&& mask = 0) (b : Bool) (status : BitVec 8) :
    flagIf flag b status &&& mask = status &&& mask := by
  unfold flagIf setFlag clearFlag
  apply BitVec.eq_of_getLsbD_eq
  intro i hi
  have hbit := congrArg (·.getLsbD i) h
  simp only [BitVec.getLsbD_and] at hbit
  split <;> cases hf : flag.getLsbD i <;> simp_all

theorem hasFlag_flagIf {flag : BitVec 8} (h : flag ≠ 0) (b : Bool) (status : BitVec 8) :
    hasFlag flag (flagIf flag b status) = b := by
  unfold hasFlag flagIf setFlag clearFlag
  cases b with
  | true =>
    have hand : (status ||| flag) &&& flag = flag := by
      ext i hi
      simp only [BitVec.getElem_and, BitVec.getElem_or]
      cases flag[i] <;> simp
    show ((status ||| flag) &&& flag != 0) = true
    rw [hand, bne_iff_ne]
    exact h
  | false =>
    have hand : (status &&& ~~~flag) &&& flag = 0 := by
      ext i hi
      simp only [BitVec.getElem_and, BitVec.getElem_not]
      cases flag[i] <;> simp
    simp [hand]

/-- The carry flag as a number. -/
def CpuRegs.carry (r : CpuRegs) : Nat := (r.status &&& flagCarry).toNat

theorem CpuRegs.carry_le (r : CpuRegs) : r.carry ≤ 1 := by
  unfold CpuRegs.carry
  rw [BitVec.toNat_and]
  exact Nat.and_le_right

theorem CpuRegs.carry_eq (r : CpuRegs) : r.carry = (hasFlag flagCarry r.status).toNat := by
  have hall : ∀ status : BitVec 8, (status &&& flagCarry).toNat = (hasFlag flagCarry status).toNat := by
    decide +kernel
  exact hall r.status

/-! ## The macros -/

theorem and_u16 (x : BitVec 16) (y : BitVec 8) : x &&& u16 y = u16 (u8 x &&& y) := by
  ext i hi
  by_cases hlow : i < 8
  · simp [hlow, hi]
  · simp [hlow, BitVec.getLsbD_of_ge y i (by omega)]

theorem u8_u16 (x : BitVec 8) : u8 (u16 x) = x := by simp

theorem u16_eq_zero (x : BitVec 8) : (u16 x == 0) = (x == 0) := by
  revert x
  decide +kernel

/-- Bit 7, tested in the scratch value. -/
theorem and_sign (x : BitVec 16) : (x &&& 0x0080 != 0) = (u8 x).msb := by
  have hmsb : ∀ y : BitVec 8, (u16 (y &&& 0x80) != 0) = y.msb := by decide +kernel
  have hbyte : x &&& 0x0080 = u16 (u8 x &&& 0x80) := and_u16 x 0x80
  rw [hbyte, hmsb]

/-- The high byte, tested. -/
theorem and_page (x : BitVec 16) : (x &&& 0xFF00 != 0) = decide (256 ≤ x.toNat) := by
  have hmask : ∀ i < 16, (0xFF00#16).getLsbD i = decide (8 ≤ i) := by decide
  have hdiv : x &&& 0xFF00#16 = (x >>> 8) <<< 8 := by
    apply BitVec.eq_of_getLsbD_eq
    intro i hi
    rw [BitVec.getLsbD_and, hmask i hi, BitVec.getLsbD_shiftLeft, BitVec.getLsbD_ushiftRight]
    by_cases h8 : i < 8
    · simp [h8]
    · have hback : 8 + (i - 8) = i := by omega
      simp [h8, hback, hi, Nat.not_lt.mp h8]
  have hx := x.isLt
  have hnat : (x &&& 0xFF00#16).toNat = x.toNat / 256 * 256 := by
    rw [hdiv, BitVec.toNat_shiftLeft, BitVec.toNat_ushiftRight, Nat.shiftRight_eq_div_pow,
      Nat.shiftLeft_eq]
    omega
  have hzero : x &&& 0xFF00#16 = 0#16 ↔ x.toNat < 256 := by
    rw [← BitVec.toNat_inj, hnat]
    show _ = 0 ↔ _
    omega
  show (x &&& 0xFF00#16 != 0#16) = _
  rw [Bool.eq_iff_iff, bne_iff_ne, decide_eq_true_iff, ne_eq, hzero, Nat.not_lt]

theorem signcalc_eq (status : BitVec 8) (n : BitVec 16) :
    signcalc status n = flagIf flagSign (u8 n).msb status := by
  rw [signcalc, and_sign]

theorem zerocalc_eq (status : BitVec 8) (n : BitVec 16) :
    zerocalc status n = flagIf flagZero (u8 n == 0) status := by
  have hbyte : n &&& 0x00FF = u16 (u8 n &&& 0xFF) := and_u16 n 0xFF
  have hall : u8 n &&& 0xFF = u8 n := BitVec.and_allOnes
  rw [zerocalc, hbyte, hall, u16_eq_zero]

theorem carrycalc_eq (status : BitVec 8) (n : BitVec 16) :
    carrycalc status n = flagIf flagCarry (256 ≤ n.toNat) status := by
  rw [carrycalc, and_page]

theorem overflowcalc_eq (status : BitVec 8) (n : BitVec 16) (m o : BitVec 8) :
    overflowcalc status n m (u16 o) =
      flagIf flagOverflow (m.msb == o.msb && (u8 n).msb != m.msb) status := by
  rw [overflowcalc, and_sign]
  simp only [BitVec.setWidth_and, BitVec.setWidth_xor, BitVec.msb_and, BitVec.msb_xor, u8_u16]
  cases m.msb <;> cases o.msb <;> simp

/-! ## Sums -/

/-- The scratch value holds the whole sum. -/
theorem toNat_addWithFlags (c : Cpu) (v : BitVec 8) :
    (addWithFlags c (u16 v)).result.toNat = c.regs.a.toNat + v.toNat + c.regs.carry := by
  have hcarry := c.regs.carry_le
  have ha := c.regs.a.isLt
  have hv := v.isLt
  show (u16 c.regs.a + u16 v + u16 (c.regs.status &&& flagCarry)).toNat = _
  unfold CpuRegs.carry at hcarry ⊢
  simp only [BitVec.toNat_add, BitVec.toNat_setWidth]
  omega

/-- ADC of `m` in binary. -/
def binaryAdd (r : CpuRegs) (m : BitVec 8) : CpuRegs :=
  let c := hasFlag flagCarry r.status
  let a := AddWithCarry.sum r.a m c
  let status := flagIf flagCarry (AddWithCarry.carries r.a m c) r.status
  let status := flagIf flagZero (a == 0) status
  let status := flagIf flagOverflow (AddWithCarry.overflows r.a m c) status
  { r with a, status := flagIf flagSign a.msb status }

/-- The signs alone decide the overflow. -/
theorem binaryAdd_status (r : CpuRegs) (m : BitVec 8) :
    (binaryAdd r m).status =
      flagIf flagSign (binaryAdd r m).a.msb
        (flagIf flagOverflow (r.a.msb == m.msb && (binaryAdd r m).a.msb != r.a.msb)
          (flagIf flagZero ((binaryAdd r m).a == 0)
            (flagIf flagCarry (AddWithCarry.carries r.a m (hasFlag flagCarry r.status)) r.status))) := by
  have hoverflow := AddWithCarry.overflows_eq r.a m (hasFlag flagCarry r.status) (by decide)
  unfold binaryAdd
  dsimp only
  rw [hoverflow]

/-- The sum and the flags that the handlers compute. -/
theorem addWithFlags_binary (c : Cpu) (v : BitVec 8) :
    u8 (addWithFlags c (u16 v)).result = (binaryAdd c.regs v).a ∧
      (addWithFlags c (u16 v)).regs = { binaryAdd c.regs v with a := c.regs.a } := by
  have hnat := toNat_addWithFlags c v
  have hsum : u8 (addWithFlags c (u16 v)).result = (binaryAdd c.regs v).a := by
    apply BitVec.eq_of_toNat_eq
    rw [BitVec.toNat_setWidth, hnat, CpuRegs.carry_eq]
    exact (AddWithCarry.toNat_sum ..).symm
  refine ⟨hsum, ?_⟩
  have hcarries : decide (256 ≤ (addWithFlags c (u16 v)).result.toNat) =
      AddWithCarry.carries c.regs.a v (hasFlag flagCarry c.regs.status) := by
    rw [hnat, CpuRegs.carry_eq]
    rfl
  have hstatus : (addWithFlags c (u16 v)).regs.status = (binaryAdd c.regs v).status := by
    have hflags : ∀ n, n = (addWithFlags c (u16 v)).result → (addWithFlags c (u16 v)).regs.status =
        signcalc (overflowcalc (zerocalc (carrycalc c.regs.status n) n) n c.regs.a (u16 v)) n := by
      rintro n rfl
      rfl
    rw [hflags _ rfl, carrycalc_eq, zerocalc_eq, overflowcalc_eq, signcalc_eq, hsum, hcarries,
      binaryAdd_status]
  calc (addWithFlags c (u16 v)).regs = { c.regs with status := (addWithFlags c (u16 v)).regs.status } := rfl
    _ = { binaryAdd c.regs v with a := c.regs.a } := by rw [hstatus]; rfl

end Cb6502
