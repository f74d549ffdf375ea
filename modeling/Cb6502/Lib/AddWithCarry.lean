import Mathlib.Data.BitVec

/- Addition with a carry on words of `w` bits, as adders have it: the sum modulo `2 ^ w`, the
   carry out, and the overflow of the operands read as signed numbers. Adding the complement
   with the carry set is subtraction, and its carry out is the unsigned comparison. -/
namespace AddWithCarry

variable {w : Nat} (x y : BitVec w) (c : Bool)

/-- The sum modulo `2 ^ w`. -/
def sum : BitVec w := BitVec.ofNat w (x.toNat + y.toNat + c.toNat)

/-- The sum leaves the word. -/
def carries : Bool := 2 ^ w ≤ x.toNat + y.toNat + c.toNat

/-- The sum of the signed numbers is none of `w` bits. -/
def overflows : Bool :=
  x.toInt + y.toInt + c.toNat < -2 ^ (w - 1) ∨ 2 ^ (w - 1) ≤ x.toInt + y.toInt + c.toNat

theorem toNat_sum : (sum x y c).toNat = (x.toNat + y.toNat + c.toNat) % 2 ^ w := BitVec.toNat_ofNat ..

theorem toNat_sum_add : (sum x y c).toNat + (if carries x y c then 2 ^ w else 0) =
    x.toNat + y.toNat + c.toNat := by
  have hx := x.isLt
  have hy := y.isLt
  have hc := c.toNat_le
  rw [toNat_sum]
  unfold carries
  by_cases h : 2 ^ w ≤ x.toNat + y.toNat + c.toNat
  · have hmod : (x.toNat + y.toNat + c.toNat) % 2 ^ w = x.toNat + y.toNat + c.toNat - 2 ^ w := by
      rw [Nat.mod_eq_sub_mod h, Nat.mod_eq_of_lt]
      omega
    simp only [h, decide_true, if_true, hmod]
    omega
  · simp only [h, decide_false]
    rw [Nat.mod_eq_of_lt (Nat.not_le.mp h)]
    rfl

/-- Signed overflow: the operands have one sign and the sum the other. -/
theorem overflows_eq (hw : 0 < w) : overflows x y c = (x.msb == y.msb && (sum x y c).msb != x.msb) := by
  cases w with
  | zero => exact absurd hw (by omega)
  | succ w =>
    have hx := x.isLt
    have hy := y.isLt
    have hc := c.toNat_le
    have hsum := toNat_sum_add x y c
    have hlt := (sum x y c).isLt
    have hpow : (2 : Nat) ^ (w + 1) = 2 * 2 ^ w := Nat.pow_succ'
    have hpow' : (2 : Int) ^ w = ((2 ^ w : Nat) : Int) := by simp
    unfold overflows
    simp only [BitVec.toInt_eq_msb_cond, BitVec.msb_eq_decide, Nat.add_sub_cancel, hpow, hpow'] at *
    generalize (2 : Nat) ^ w = p at *
    rw [Bool.eq_iff_iff]
    simp only [decide_eq_true_eq, Bool.and_eq_true, beq_iff_eq, bne_iff_ne, ne_eq, decide_eq_decide]
    split at hsum <;> split <;> split <;> omega

/-- Subtraction is the addition of the complement with the carry set. -/
theorem sum_not : sum x (~~~y) true = x - y := by
  apply BitVec.eq_of_toNat_eq
  rw [toNat_sum, BitVec.toNat_not, BitVec.toNat_sub, Bool.toNat_true]
  have hy := y.isLt
  congr 1
  omega

/-- Its carry out is the comparison of the unsigned numbers. -/
theorem carries_not : carries x (~~~y) true = decide (y ≤ x) := by
  have hy := y.isLt
  unfold carries
  rw [BitVec.toNat_not, Bool.toNat_true, decide_eq_decide, BitVec.le_def]
  omega

end AddWithCarry
