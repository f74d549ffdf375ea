import Cb6502.Lib.PackedBcd
import Cb6502.Execution
import Cb6502.Flags

/- ADC and SBC with the D flag set. Both take a second cycle that adjusts the digits of a
   binary result. ADC adjusts a digit that came out above nine, but a digit sum of 16 or more
   has left its nibble by then and looks small (`adjusted`). SBC takes `$66` from the
   accumulator instead of adjusting the difference, so the operand has no part in the
   result. -/
namespace Cb6502
open Dialogue

variable {ω : Type} {R : Ram ω}

/-! ## Nibbles -/

theorem high_nibble_table : ∀ x : BitVec 8, (x &&& 0xF0).toNat = x.toNat / 16 * 16 := by
  decide +kernel

theorem toNat_and_low (x : BitVec 16) : (x &&& 0x0F).toNat = x.toNat % 16 := by
  rw [BitVec.toNat_and]
  exact Nat.and_two_pow_sub_one_eq_mod x.toNat 4

theorem toNat_and_high (x : BitVec 16) : (x &&& 0xF0).toNat = x.toNat / 16 % 16 * 16 := by
  have hbyte : x &&& 0xF0 = u16 (u8 x &&& 0xF0) := and_u16 x 0xF0
  rw [hbyte, BitVec.toNat_setWidth, high_nibble_table, BitVec.toNat_setWidth]
  omega

/-- A nibble above nine, as the handlers test for it. -/
theorem low_above_nine (x : BitVec 16) : 0x09 < x &&& 0x0F ↔ 9 < x.toNat % 16 := by
  rw [BitVec.lt_def, toNat_and_low]
  rfl

theorem high_above_nine (x : BitVec 16) : 0x90 < x &&& 0xF0 ↔ 9 < x.toNat / 16 % 16 := by
  rw [BitVec.lt_def, toNat_and_high]
  show 144 < _ ↔ _
  omega

/-! ## The adjustments -/

/-- What the second cycle of ADC makes of the binary sum: the result, and whether the carry is
set. -/
def adcAdjust (result : BitVec 16) : BitVec 16 × Bool :=
  let result := if 0x09 < result &&& 0x0F then result + 0x06 else result
  if 0x90 < result &&& 0xF0 then (result + 0x60, true) else (result, false)

/-- What the second cycle of SBC makes of the accumulator. -/
def sbcAdjust (a : BitVec 8) : BitVec 8 × Bool :=
  let a := a - 0x66
  let a := if 0x09 < a &&& 0x0F then a + 0x06 else a
  if 0x90 < a &&& 0xF0 then (a + 0x60, true) else (a, false)

/-- The digit that ADC leaves of a digit sum. -/
def adjusted (n : Nat) : Nat := if n < 10 then n else if n < 16 then n - 10 else n - 16

/-- The digit that SBC leaves of a digit of the accumulator. -/
def lessSix (n : Nat) : Nat := if n < 6 then n else n - 6

theorem adjusted_of_lt {n : Nat} (h : n < 10) : adjusted n = n := if_pos h

theorem adjusted_of_carry {n : Nat} (h : 10 ≤ n) (h' : n < 16) : adjusted n = n - 10 := by
  unfold adjusted
  rw [if_neg (by omega), if_pos h']

theorem adjusted_of_ge {n : Nat} (h : 16 ≤ n) : adjusted n = n - 16 := by
  unfold adjusted
  rw [if_neg (by omega), if_neg (by omega)]

theorem adjusted_lt {n : Nat} (h : n < 20) : adjusted n < 10 := by
  unfold adjusted
  split
  · assumption
  · split <;> omega

theorem lessSix_lt {n : Nat} (h : n < 10) : lessSix n < 10 := by
  unfold lessSix
  split <;> omega

/-- The digit sums of an addition with carry in `c`. -/
def lowSum (a m : PackedBcd) (c : Nat) : Nat := a.low + m.low + c

def highSum (a m : PackedBcd) (c : Nat) : Nat :=
  a.high + m.high + if lowSum a m c < 10 then 0 else 1

theorem lowSum_lt (a m : PackedBcd) {c : Nat} (hc : c ≤ 1) : lowSum a m c < 20 := by
  have ha := a.low_lt_ten
  have hm := m.low_lt_ten
  unfold lowSum
  omega

theorem highSum_lt (a m : PackedBcd) (c : Nat) : highSum a m c < 20 := by
  have ha := a.high_lt_ten
  have hm := m.high_lt_ten
  unfold highSum
  split <;> omega

/-- The low digit, and the carry into the high one. -/
theorem lowAdjust_sum (a m : PackedBcd) {c : Nat} (hc : c ≤ 1) {sum : BitVec 16}
    (hsum : sum.toNat = a.byte.toNat + m.byte.toNat + c) :
    (if 0x09 < sum &&& 0x0F then sum + 0x06 else sum).toNat =
      16 * highSum a m c + adjusted (lowSum a m c) := by
  have hlow := lowSum_lt a m hc
  have ha := a.high_lt_ten
  have hm := m.high_lt_ten
  have hsplit : sum.toNat = 16 * (a.high + m.high) + lowSum a m c := by
    rw [hsum, a.toNat_byte, m.toNat_byte]
    unfold lowSum
    omega
  unfold highSum
  by_cases hten : lowSum a m c < 10
  · have hsmall : ¬0x09 < sum &&& 0x0F := by
      rw [low_above_nine]
      omega
    rw [if_neg hsmall, if_pos hten, adjusted_of_lt hten, hsplit]
    rfl
  · rw [if_neg hten]
    by_cases hsixteen : lowSum a m c < 16
    · have hlarge : 0x09 < sum &&& 0x0F := by
        rw [low_above_nine]
        omega
      rw [if_pos hlarge, adjusted_of_carry (Nat.not_lt.mp hten) hsixteen, BitVec.toNat_add]
      show (sum.toNat + 6) % 65536 = _
      omega
    · -- the sum has left the nibble
      have hsmall : ¬0x09 < sum &&& 0x0F := by
        rw [low_above_nine]
        omega
      rw [if_neg hsmall, adjusted_of_ge (Nat.not_lt.mp hsixteen), hsplit]
      omega

/-- The adjustment of ADC, digit by digit. -/
theorem adcAdjust_sum (a m : PackedBcd) {c : Nat} (hc : c ≤ 1) {sum : BitVec 16}
    (hsum : sum.toNat = a.byte.toNat + m.byte.toNat + c) :
    u8 (adcAdjust sum).1 = PackedBcd.digits (adjusted (highSum a m c)) (adjusted (lowSum a m c)) ∧
      ((adcAdjust sum).2 = true ↔ 10 ≤ highSum a m c ∧ highSum a m c < 16) := by
  have hlow := adjusted_lt (lowSum_lt a m hc)
  have hhigh := highSum_lt a m c
  have hadjusted := lowAdjust_sum a m hc hsum
  unfold adcAdjust
  dsimp only
  generalize (if 0x09 < sum &&& 0x0F then sum + 0x06 else sum) = result at hadjusted
  have hdigits := PackedBcd.toNat_digits (adjusted_lt hhigh) hlow
  by_cases hcarry : 10 ≤ highSum a m c ∧ highSum a m c < 16
  · have hlarge : 0x90 < result &&& 0xF0 := by
      rw [high_above_nine]
      omega
    rw [if_pos hlarge]
    refine ⟨BitVec.eq_of_toNat_eq ?_, iff_of_true rfl hcarry⟩
    rw [hdigits, BitVec.toNat_setWidth, BitVec.toNat_add, adjusted_of_carry hcarry.1 hcarry.2]
    show (result.toNat + 96) % 65536 % 256 = _
    omega
  · have hsmall : ¬0x90 < result &&& 0xF0 := by
      rw [high_above_nine]
      omega
    rw [if_neg hsmall]
    refine ⟨BitVec.eq_of_toNat_eq ?_, iff_of_false Bool.false_ne_true hcarry⟩
    rw [hdigits, BitVec.toNat_setWidth]
    show result.toNat % 256 = _
    by_cases hten : highSum a m c < 10
    · rw [adjusted_of_lt hten]
      omega
    · have hsixteen : 16 ≤ highSum a m c := by omega
      rw [adjusted_of_ge hsixteen]
      omega

theorem sbcAdjust_table : ∀ h < 10, ∀ l < 10,
    sbcAdjust (PackedBcd.digits h l) = (PackedBcd.digits (lessSix h) (lessSix l), decide (h < 6)) := by
  decide +kernel

/-! ## The instructions -/

/-- The flags of a sum leave D alone. -/
theorem addWithFlags_decimal (c : Cpu) (value : BitVec 16) :
    (addWithFlags c value).regs.status &&& flagDecimal = c.regs.status &&& flagDecimal := by
  unfold addWithFlags signcalc overflowcalc zerocalc carrycalc
  dsimp only
  rw [flagIf_and (by decide), flagIf_and (by decide), flagIf_and (by decide), flagIf_and (by decide)]

theorem carry_set : ∀ status : BitVec 8, setFlag flagCarry (clearFlag flagCarry status) &&& flagCarry ≠ 0 ∧
    clearFlag flagCarry status &&& flagCarry = 0 := by
  decide +kernel

theorem arith_table : ∀ opcode : BitVec 8, optable opcode = .adc ∨ optable opcode = .sbc →
    addrtable opcode ≠ .acc := by
  decide +kernel

section Calls
variable {c : Cpu} {s : RamState}

theorem run_adc_op0 (hs : c.opState = .op0) {v : BitVec 16} (hv : ((getvalue c).run ramEnv s).1 = v)
    (hdecimal : (addWithFlags c v).regs.status &&& flagDecimal ≠ 0) :
    ((adc c).run ramEnv s).1 = advanceState (addWithFlags c v) .op1 true := by
  unfold adc
  rw [if_pos hs, Prog.run_bind, hv, if_pos hdecimal]
  rfl

theorem run_sbc_op0 (hs : c.opState = .op0) {v : BitVec 16} (hv : ((getvalue c).run ramEnv s).1 = v)
    (hdecimal : (addWithFlags c (v ^^^ 0x00FF)).regs.status &&& flagDecimal ≠ 0) :
    ((sbc c).run ramEnv s).1 = advanceState (addWithFlags c (v ^^^ 0x00FF)) .op1 true := by
  unfold sbc
  rw [if_pos hs, Prog.run_bind, hv, if_pos hdecimal]
  rfl

theorem run_adc_op1 (hs : c.opState = .op1) (s : RamState) :
    ((adc c).run ramEnv s).1.opState = .opcode ∧
      ((adc c).run ramEnv s).1.regs.a = u8 (adcAdjust c.result).1 ∧
      (((adc c).run ramEnv s).1.regs.status &&& flagCarry ≠ 0 ↔ (adcAdjust c.result).2 = true) := by
  obtain ⟨hset, hclear⟩ := carry_set c.regs.status
  have hne : ¬c.opState = .op0 := by
    rw [hs]
    decide
  unfold adc adcAdjust
  rw [if_neg hne]
  dsimp only
  -- the low digit is adjusted, the high one decides
  generalize (if 0x09 < c.result &&& 0x0F then c.result + 0x06 else c.result) = result
  split
  · exact ⟨rfl, rfl, iff_of_true hset rfl⟩
  · exact ⟨rfl, rfl, iff_of_false (fun h => h hclear) Bool.false_ne_true⟩

theorem run_sbc_op1 (hs : c.opState = .op1) (s : RamState) :
    ((sbc c).run ramEnv s).1.opState = .opcode ∧
      ((sbc c).run ramEnv s).1.regs.a = (sbcAdjust c.regs.a).1 ∧
      (((sbc c).run ramEnv s).1.regs.status &&& flagCarry ≠ 0 ↔ (sbcAdjust c.regs.a).2 = true) := by
  obtain ⟨hset, hclear⟩ := carry_set c.regs.status
  have hne : ¬c.opState = .op0 := by
    rw [hs]
    decide
  unfold sbc sbcAdjust
  rw [if_neg hne]
  dsimp only
  generalize (if 0x09 < c.regs.a - 0x66 &&& 0x0F then c.regs.a - 0x66 + 0x06
    else c.regs.a - 0x66) = a
  split
  · exact ⟨rfl, rfl, iff_of_true hset rfl⟩
  · exact ⟨rfl, rfl, iff_of_false (fun h => h hclear) Bool.false_ne_true⟩

end Calls

/-- An ADC or SBC about to be fetched with D set: the accumulator is `a` and the operand, at
the address that the mode computes, is `m`. -/
structure DecimalOp (R : Ram ω) (op : Op) (emu : Emu ω) (a m : PackedBcd) : Prop
    extends Fetches R emu where
  op : optable (R.mem emu.bus.devs emu.cpu.regs.pc) = op
  decimal : emu.cpu.regs.status &&& flagDecimal ≠ 0
  acc : emu.cpu.regs.a = a.byte
  operand : ∃ ea, operandAddress (R.mem emu.bus.devs) emu.cpu.regs
    (addrtable (R.mem emu.bus.devs emu.cpu.regs.pc)) = some ea ∧ R.mem emu.bus.devs ea = m.byte

/-- The instruction waits for its second cycle with `wait`, or has ended with the accumulator
and carry of `result`. -/
def Adjusts (wait : Cpu → Prop) (result : BitVec 8 × Bool) (c : Cpu) : Prop :=
  (c.opState = .op1 ∧ wait c) ∨
    (c.opState = .opcode ∧ c.regs.a = result.1 ∧
      (c.regs.status &&& flagCarry ≠ 0 ↔ result.2 = true))

section
variable {emu e : Emu ω} {a m : PackedBcd}

theorem Adjusts.ended {wait : Cpu → Prop} {result : BitVec 8 × Bool}
    (h : Adjusts wait result e.cpu.clearCycle) (he : e.cpu.opState = .opcode) :
    e.cpu.regs.a = result.1 ∧ (e.cpu.regs.status &&& flagCarry ≠ 0 ↔ result.2 = true) := by
  rcases h with ⟨h1, -⟩ | ⟨-, hresult⟩
  · exact absurd (h1.symm.trans he) (by decide)
  · exact hresult

/-- The operand read by the first call. -/
theorem DecimalOp.getvalue {op : Op} (h : DecimalOp R op emu a m) (hop : op = .adc ∨ op = .sbc) {c : Cpu}
    {s : RamState} (hready : HandlerReady (R.mem emu.bus.devs) emu.cpu.regs c s.mem) :
    ((Cb6502.getvalue c).run ramEnv s).1 = u16 m.byte := by
  obtain ⟨ea, haddr, hread⟩ := h.operand
  have hacc := arith_table (R.mem emu.bus.devs emu.cpu.regs.pc) (by rw [h.op]; exact hop)
  have hbyte : operandByte (R.mem emu.bus.devs) emu.cpu.regs = some m.byte := by
    unfold operandByte
    rw [if_neg hacc, haddr, Option.map_some, hread]
  exact (hready.getvalue hbyte).1

theorem DecimalOp.decimal_kept {op : Op} (h : DecimalOp R op emu a m) {c : Cpu}
    (hregs : c.regs = { emu.cpu.regs with pc := c.regs.pc }) (value : BitVec 16) :
    (addWithFlags c value).regs.status &&& flagDecimal ≠ 0 := by
  rw [addWithFlags_decimal, hregs]
  exact h.decimal

/-- A decimal ADC leaves the adjusted digit sums. -/
theorem DecimalOp.adc_ends (h : DecimalOp R .adc emu a m) (hrun : Executes emu e) :
    e.cpu.regs.a = PackedBcd.digits (adjusted (highSum a m emu.cpu.regs.carry))
        (adjusted (lowSum a m emu.cpu.regs.carry)) ∧
      (e.cpu.regs.status &&& flagCarry ≠ 0 ↔
        10 ≤ highSum a m emu.cpu.regs.carry ∧ highSum a m emu.cpu.regs.carry < 16) := by
  have hX := hrun.rule h.toFetches h.op (by decide) (by decide) (X := fun c _ =>
    Adjusts (fun c => c.result.toNat = a.byte.toNat + m.byte.toNat + emu.cpu.regs.carry)
      (PackedBcd.digits (adjusted (highSum a m emu.cpu.regs.carry))
        (adjusted (lowSum a m emu.cpu.regs.carry)),
        decide (10 ≤ highSum a m emu.cpu.regs.carry ∧ highSum a m emu.cpu.regs.carry < 16)) c)
    ?_ ?_ fun c mem h => h
  · obtain ⟨n, -, he⟩ := hrun
    have hend := hX.ended he
    rwa [decide_eq_true_iff] at hend
  · -- the binary sum
    intro c s hready
    have hregs : c.regs = { emu.cpu.regs with pc := c.regs.pc } := by rw [hready.regs]
    have ha : c.regs.a = a.byte := by
      rw [hregs]
      exact h.acc
    have hcarry : c.regs.carry = emu.cpu.regs.carry := by
      rw [hregs]
      rfl
    show Adjusts _ _ ((adc c).run ramEnv s).1
    rw [run_adc_op0 hready.state (h.getvalue (.inl rfl) hready) (h.decimal_kept hregs _)]
    have hsum := toNat_addWithFlags c m.byte
    rw [ha, hcarry] at hsum
    exact .inl ⟨rfl, hsum⟩
  · -- its adjustment
    intro c s hwait hopcode hstate
    rcases hwait with ⟨h1, hsum⟩ | ⟨hend, -⟩
    · obtain ⟨hdone, hacc, hcarry⟩ := run_adc_op1 h1 s
      obtain ⟨hdigits, hadjust⟩ := adcAdjust_sum a m emu.cpu.regs.carry_le hsum
      refine .inr ⟨hdone, hacc.trans hdigits, ?_⟩
      rw [decide_eq_true_iff, ← hadjust]
      exact hcarry
    · rw [hend] at hstate
      exact absurd hstate (by decide)

/-- A decimal SBC leaves the digits of the accumulator, less six. -/
theorem DecimalOp.sbc_ends (h : DecimalOp R .sbc emu a m) (hrun : Executes emu e) :
    e.cpu.regs.a = PackedBcd.digits (lessSix a.high) (lessSix a.low) ∧
      (e.cpu.regs.status &&& flagCarry ≠ 0 ↔ a.high < 6) := by
  have hX := hrun.rule h.toFetches h.op (by decide) (by decide) (X := fun c _ =>
    Adjusts (fun c => c.regs.a = a.byte)
      (PackedBcd.digits (lessSix a.high) (lessSix a.low), decide (a.high < 6)) c)
    ?_ ?_ fun c mem h => h
  · obtain ⟨n, -, he⟩ := hrun
    have hend := hX.ended he
    rwa [decide_eq_true_iff] at hend
  · intro c s hready
    have hregs : c.regs = { emu.cpu.regs with pc := c.regs.pc } := by rw [hready.regs]
    have ha : c.regs.a = a.byte := by
      rw [hregs]
      exact h.acc
    show Adjusts _ _ ((sbc c).run ramEnv s).1
    rw [run_sbc_op0 hready.state (h.getvalue (.inr rfl) hready) (h.decimal_kept hregs _)]
    exact .inl ⟨rfl, ha⟩
  · -- the accumulator is adjusted, not the difference
    intro c s hwait hopcode hstate
    rcases hwait with ⟨h1, ha⟩ | ⟨hend, -⟩
    · obtain ⟨hdone, hacc, hcarry⟩ := run_sbc_op1 h1 s
      rw [ha, a.byte_eq, sbcAdjust_table _ a.high_lt_ten _ a.low_lt_ten] at hacc hcarry
      exact .inr ⟨hdone, hacc, hcarry⟩
    · rw [hend] at hstate
      exact absurd hstate (by decide)

end

/-! ## Addition -/

theorem adjusted_cases (n : Nat) : (n < 10 ∧ adjusted n = n) ∨
    (10 ≤ n ∧ n < 16 ∧ adjusted n = n - 10) ∨ (16 ≤ n ∧ adjusted n = n - 16) := by
  by_cases hten : n < 10
  · exact .inl ⟨hten, adjusted_of_lt hten⟩
  · have hge := Nat.not_lt.mp hten
    by_cases hsixteen : n < 16
    · exact .inr (.inl ⟨hge, hsixteen, adjusted_of_carry hge hsixteen⟩)
    · exact .inr (.inr ⟨Nat.not_lt.mp hsixteen, adjusted_of_ge (Nat.not_lt.mp hsixteen)⟩)

/-- The numbers behind the digit sums. -/
theorem value_add (a m : PackedBcd) (c : Nat) :
    a.value + m.value + c + (if lowSum a m c < 10 then 0 else 10) =
      10 * highSum a m c + lowSum a m c := by
  unfold highSum PackedBcd.value
  split <;> unfold lowSum <;> omega

/-- The adjusted digits show the sum when no digit sum has left its nibble. -/
theorem adjusted_sum_iff (a m : PackedBcd) {c : Nat} (hc : c ≤ 1) :
    (10 * adjusted (highSum a m c) + adjusted (lowSum a m c) = (a.value + m.value + c) % 100 ∧
        (10 ≤ highSum a m c ∧ highSum a m c < 16 ↔ 100 ≤ a.value + m.value + c)) ↔
      lowSum a m c < 16 ∧ highSum a m c < 16 := by
  have hlow := lowSum_lt a m hc
  have hhigh := highSum_lt a m c
  have hvalue := value_add a m c
  rcases adjusted_cases (lowSum a m c) with ⟨hl, hadj⟩ | ⟨hl, hl', hadj⟩ | ⟨hl, hadj⟩
  · rw [if_pos hl] at hvalue
    rcases adjusted_cases (highSum a m c) with ⟨hh, hadj'⟩ | ⟨hh, hh', hadj'⟩ | ⟨hh, hadj'⟩ <;> omega
  · rw [if_neg (Nat.not_lt.mpr hl)] at hvalue
    rcases adjusted_cases (highSum a m c) with ⟨hh, hadj'⟩ | ⟨hh, hh', hadj'⟩ | ⟨hh, hadj'⟩ <;> omega
  · have hten : ¬lowSum a m c < 10 := by omega
    rw [if_neg hten] at hvalue
    rcases adjusted_cases (highSum a m c) with ⟨hh, hadj'⟩ | ⟨hh, hh', hadj'⟩ | ⟨hh, hadj'⟩ <;> omega

/-- Decimal ADC adds exactly when neither digit sum, with the carry into it, leaves its nibble. -/
theorem decimal_adc {emu : Emu ω} {a m : PackedBcd} (h : DecimalOp R .adc emu a m) :
    (∃ e, Executes emu e) ∧ ∀ e, Executes emu e →
      ((e.cpu.regs.a = (PackedBcd.ofNat ((a.value + m.value + emu.cpu.regs.carry) % 100)).byte ∧
          (e.cpu.regs.status &&& flagCarry ≠ 0 ↔ 100 ≤ a.value + m.value + emu.cpu.regs.carry)) ↔
        lowSum a m emu.cpu.regs.carry < 16 ∧ highSum a m emu.cpu.regs.carry < 16) := by
  refine ⟨h.toFetches.exists, ?_⟩
  intro e hrun
  obtain ⟨hacc, hset⟩ := h.adc_ends hrun
  have hcarry := emu.cpu.regs.carry_le
  have hlow := adjusted_lt (lowSum_lt a m hcarry)
  have hhigh := adjusted_lt (highSum_lt a m emu.cpu.regs.carry)
  rw [hacc, hset, PackedBcd.digits_eq_ofNat hhigh hlow (Nat.mod_lt _ (by omega))]
  exact adjusted_sum_iff a m hcarry

/-- An instruction with an immediate operand at `$0200`, with D and carry set or clear. -/
def immEmu (opcode a m status : BitVec 8) : Emu Mem :=
  { bus := Bus.init flatRam.conns [] fun addr => if addr = 0x0200 then opcode else m
    cpu := { regs := { pc := 0x0200, a, status } } }

theorem immEmu_decimal {op : Op} (opcode status : BitVec 8) (hop : optable opcode = op)
    (himm : addrtable opcode = .imm) (hstatus : status &&& flagDecimal ≠ 0) (a m : PackedBcd) :
    DecimalOp flatRam op (immEmu opcode a.byte m.byte status) a m where
  ram := ⟨rfl, rfl, trivial⟩
  boundary := rfl
  rdy := rfl
  noInt := rfl
  op := hop
  decimal := hstatus
  acc := rfl
  operand := ⟨0x0201, if_pos himm, rfl⟩

/-- 35 + 27 = 62 -/
theorem decimal_adc_of_35_27 : ∃ e, Executes (immEmu 0x69 0x35 0x27 0x08) e ∧ e.cpu.regs.a = 0x62 := by
  have h := immEmu_decimal 0x69 0x08 rfl (by decide) (by decide) (.ofNat 35) (.ofNat 27)
  obtain ⟨⟨e, hrun⟩, hall⟩ := decimal_adc h
  exact ⟨e, hrun, ((hall e hrun).mpr (by decide)).1⟩

/-- 8 + 9 = 11 -/
theorem decimal_adc_loses_half_carry :
    ¬ ∀ (emu e : Emu Mem) (a m : PackedBcd), DecimalOp flatRam .adc emu a m → Executes emu e →
      e.cpu.regs.a = (PackedBcd.ofNat ((a.value + m.value + emu.cpu.regs.carry) % 100)).byte := by
  intro hclaim
  have h := immEmu_decimal 0x69 0x08 rfl (by decide) (by decide) (.ofNat 8) (.ofNat 9)
  obtain ⟨e, hrun⟩ := h.toFetches.exists
  have hacc := hclaim _ e _ _ h hrun
  rw [(h.adc_ends hrun).1] at hacc
  exact absurd hacc (by decide)

/-! ## Subtraction -/

/-- The accumulator less six in each digit is the difference in two cases only: from below 60,
with nothing to take away from a low digit that stays, or six from one that does not. -/
theorem lessSix_sub_iff (a m : PackedBcd) {c : Nat} (hc : c ≤ 1) :
    (10 * (lessSix a.high : Int) + lessSix a.low = ((a.value : Int) - m.value - (1 - c)) % 100 ∧
        (a.high < 6 ↔ 0 ≤ (a.value : Int) - m.value - (1 - c))) ↔
      a.high < 6 ∧ m.value + (1 - c) = if a.low < 6 then 0 else 6 := by
  have hal := a.low_lt_ten
  have hah := a.high_lt_ten
  have hml := m.low_lt_ten
  have hmh := m.high_lt_ten
  unfold PackedBcd.value lessSix
  by_cases hh : a.high < 6
  · by_cases hl : a.low < 6
    · rw [if_pos hh, if_pos hl, if_pos hl]
      omega
    · rw [if_pos hh, if_neg hl, if_neg hl]
      omega
  · by_cases hl : a.low < 6
    · rw [if_neg hh, if_pos hl, if_pos hl]
      omega
    · rw [if_neg hh, if_neg hl, if_neg hl]
      omega

/-- A digit `d` that ADC of `n` and then SBC give back. -/
def DigitKept (n d : Nat) : Prop := n = 0 ∧ d < 6 ∨ n = 6 ∧ d < 4 ∨ n = 10 ∧ d < 6

theorem lessSix_adjusted_iff {n d : Nat} (hn : n ≤ 10) (hd : d < 10) :
    lessSix (adjusted (d + n)) = d ↔ DigitKept n d := by
  unfold DigitKept lessSix
  rcases adjusted_cases (d + n) with ⟨h, hadj⟩ | ⟨h, h', hadj⟩ | ⟨h, hadj⟩
  all_goals
    rw [hadj]
    split <;> omega

/-- Decimal SBC subtracts, and undoes decimal ADC, exactly in the cases in which taking six
from each digit of the accumulator above five comes to the same. -/
theorem decimal_sbc :
    (∀ {emu : Emu ω} {a m : PackedBcd}, DecimalOp R .sbc emu a m →
      (∃ e, Executes emu e) ∧ ∀ e, Executes emu e →
        ((e.cpu.regs.a = (PackedBcd.ofNat
              (((a.value : Int) - m.value - (1 - emu.cpu.regs.carry)) % 100).toNat).byte ∧
            (e.cpu.regs.status &&& flagCarry ≠ 0 ↔
              0 ≤ (a.value : Int) - m.value - (1 - emu.cpu.regs.carry))) ↔
          a.high < 6 ∧ m.value + (1 - emu.cpu.regs.carry) = if a.low < 6 then 0 else 6)) ∧
    (∀ {emu e emu' e' : Emu ω} {a m b : PackedBcd}, DecimalOp R .adc emu a m → Executes emu e →
      DecimalOp R .sbc emu' b m → emu'.cpu.regs.a = e.cpu.regs.a →
      emu'.cpu.regs.carry = 1 - emu.cpu.regs.carry → Executes emu' e' →
        (e'.cpu.regs.a = a.byte ↔
          DigitKept (m.low + emu.cpu.regs.carry) a.low ∧
            DigitKept (m.high + if lowSum a m emu.cpu.regs.carry < 10 then 0 else 1) a.high)) := by
  refine ⟨?_, ?_⟩
  · intro emu a m h
    refine ⟨h.toFetches.exists, ?_⟩
    intro e hrun
    obtain ⟨hacc, hset⟩ := h.sbc_ends hrun
    have hhigh := lessSix_lt a.high_lt_ten
    have hlow := lessSix_lt a.low_lt_ten
    rw [hacc, hset, PackedBcd.digits_eq_ofNat hhigh hlow (by omega),
      ← lessSix_sub_iff a m emu.cpu.regs.carry_le]
    omega
  · intro emu e emu' e' a m b hadc hrun hsbc hacc hmatch hrun'
    have hcarry := emu.cpu.regs.carry_le
    have hal := a.low_lt_ten
    have hml := m.low_lt_ten
    have hmh := m.high_lt_ten
    -- the accumulator in between
    have hb : PackedBcd.digits (adjusted (highSum a m emu.cpu.regs.carry))
        (adjusted (lowSum a m emu.cpu.regs.carry)) = b.byte := by
      rw [← (hadc.adc_ends hrun).1, ← hacc, hsbc.acc]
    rw [b.byte_eq_iff (adjusted_lt (highSum_lt a m _)) (adjusted_lt (lowSum_lt a m hcarry))] at hb
    obtain ⟨hhigh, hlow⟩ := hb
    have hlowSum : lowSum a m emu.cpu.regs.carry = a.low + (m.low + emu.cpu.regs.carry) :=
      Nat.add_assoc _ _ _
    have hhighSum : highSum a m emu.cpu.regs.carry =
        a.high + (m.high + if lowSum a m emu.cpu.regs.carry < 10 then 0 else 1) := Nat.add_assoc _ _ _
    rw [(hsbc.sbc_ends hrun').1, a.byte_eq_iff (lessSix_lt b.high_lt_ten) (lessSix_lt b.low_lt_ten),
      ← hhigh, ← hlow, hlowSum, hhighSum, lessSix_adjusted_iff (by omega) hal, hlowSum,
      lessSix_adjusted_iff (by split <;> omega) a.high_lt_ten]
    exact and_comm

/-- 46 - 6 = 40, and 20 + 0 - 0 = 20 -/
theorem decimal_sbc_of_46_6 :
    (∃ e, Executes (immEmu 0xE9 0x46 0x06 0x09) e ∧ e.cpu.regs.a = 0x40) ∧
      ∃ e e', Executes (immEmu 0x69 0x20 0x00 0x08) e ∧ e.cpu.regs.a = 0x20 ∧
        Executes (immEmu 0xE9 0x20 0x00 0x09) e' ∧ e'.cpu.regs.a = 0x20 := by
  obtain ⟨hsub, hback⟩ := decimal_sbc (R := flatRam)
  refine ⟨?_, ?_⟩
  · have h := immEmu_decimal 0xE9 0x09 rfl (by decide) (by decide) (.ofNat 46) (.ofNat 6)
    obtain ⟨⟨e, hrun⟩, hall⟩ := hsub h
    exact ⟨e, hrun, ((hall e hrun).mpr (by decide)).1⟩
  · have hadc := immEmu_decimal 0x69 0x08 rfl (by decide) (by decide) (.ofNat 20) (.ofNat 0)
    have hsbc := immEmu_decimal 0xE9 0x09 rfl (by decide) (by decide) (.ofNat 20) (.ofNat 0)
    obtain ⟨e, hrun⟩ := hadc.toFetches.exists
    obtain ⟨e', hrun'⟩ := hsbc.toFetches.exists
    have hacc := (hadc.adc_ends hrun).1
    exact ⟨e, e', hrun, hacc, hrun', (hback hadc hrun hsbc hacc.symm rfl hrun').mpr
      ⟨.inl ⟨rfl, by decide⟩, .inl ⟨rfl, by decide⟩⟩⟩

/-- 50 - 10 = 50 -/
theorem decimal_sbc_ignores_operand :
    ¬ ∀ (emu e : Emu Mem) (a m : PackedBcd), DecimalOp flatRam .sbc emu a m → Executes emu e →
      e.cpu.regs.a = (PackedBcd.ofNat
        (((a.value : Int) - m.value - (1 - emu.cpu.regs.carry)) % 100).toNat).byte := by
  intro hclaim
  have h := immEmu_decimal 0xE9 0x09 rfl (by decide) (by decide) (.ofNat 50) (.ofNat 10)
  obtain ⟨e, hrun⟩ := h.toFetches.exists
  have hacc := hclaim _ e _ _ h hrun
  rw [(h.sbc_ends hrun).1] at hacc
  exact absurd hacc (by decide)

end Cb6502
