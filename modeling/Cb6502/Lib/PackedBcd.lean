import Mathlib.Data.BitVec

/- Packed decimal numbers: a byte holds two decimal digits, one in each nibble. A byte with a
   digit above nine is not one of them, so the bytes that are come as a structure that carries
   the bounds of both digits.

   What is proved:
     1. `byte_eq_iff` (a packed byte is decided by its digits).
     2. `digits_eq_ofNat` (two digits are the packed form of the number they show). -/

/-- A byte whose nibbles are decimal digits. -/
structure PackedBcd where
  byte : BitVec 8
  low_lt : byte.toNat % 16 < 10
  high_lt : byte.toNat / 16 < 10

namespace PackedBcd

def low (b : PackedBcd) : Nat := b.byte.toNat % 16

def high (b : PackedBcd) : Nat := b.byte.toNat / 16

/-- The number that the digits show. -/
def value (b : PackedBcd) : Nat := 10 * b.high + b.low

theorem low_lt_ten (b : PackedBcd) : b.low < 10 := b.low_lt

theorem high_lt_ten (b : PackedBcd) : b.high < 10 := b.high_lt

theorem toNat_byte (b : PackedBcd) : b.byte.toNat = 16 * b.high + b.low := by
  unfold high low
  omega

/-- The byte with the digits `h` and `l`. -/
def digits (h l : Nat) : BitVec 8 := BitVec.ofNat 8 (16 * h + l)

theorem toNat_digits {h l : Nat} (hh : h < 10) (hl : l < 10) : (digits h l).toNat = 16 * h + l := by
  unfold digits
  rw [BitVec.toNat_ofNat]
  exact Nat.mod_eq_of_lt (by omega)

theorem digits_inj {h l h' l' : Nat} (hh : h < 10) (hl : l < 10) (hh' : h' < 10) (hl' : l' < 10) :
    digits h l = digits h' l' ↔ h = h' ∧ l = l' := by
  constructor
  · intro heq
    have hnat := congrArg BitVec.toNat heq
    rw [toNat_digits hh hl, toNat_digits hh' hl'] at hnat
    omega
  · rintro ⟨rfl, rfl⟩
    rfl

/-- The last two digits of `n`. -/
def ofNat (n : Nat) : PackedBcd where
  byte := digits (n / 10 % 10) (n % 10)
  low_lt := by
    rw [toNat_digits (Nat.mod_lt _ (by omega)) (Nat.mod_lt _ (by omega))]
    omega
  high_lt := by
    rw [toNat_digits (Nat.mod_lt _ (by omega)) (Nat.mod_lt _ (by omega))]
    omega

/-- A packed byte is its digits put together. -/
theorem byte_eq (b : PackedBcd) : b.byte = digits b.high b.low := by
  apply BitVec.eq_of_toNat_eq
  rw [toNat_digits b.high_lt_ten b.low_lt_ten]
  exact b.toNat_byte

theorem byte_eq_iff (b : PackedBcd) {h l : Nat} (hh : h < 10) (hl : l < 10) :
    digits h l = b.byte ↔ h = b.high ∧ l = b.low := by
  rw [b.byte_eq]
  exact digits_inj hh hl b.high_lt_ten b.low_lt_ten

/-- Two digits show the number `n`. -/
theorem digits_eq_ofNat {h l n : Nat} (hh : h < 10) (hl : l < 10) (hn : n < 100) :
    digits h l = (ofNat n).byte ↔ 10 * h + l = n := by
  show digits h l = digits (n / 10 % 10) (n % 10) ↔ _
  rw [digits_inj hh hl (Nat.mod_lt _ (by omega)) (Nat.mod_lt _ (by omega))]
  omega

end PackedBcd
