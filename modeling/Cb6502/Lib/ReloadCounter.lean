import Mathlib.Data.BitVec
import Mathlib.Data.Nat.ModEq

/- A counter of `w` bits that counts down through zero to all ones, spends one step there, and
   is then loaded again from its latch. From a load of `N` it repeats itself every `N + 2`
   steps. All ones is also a value the latch can hold; a counter with that latch never moves.

   What is proved:
     1. `step_value` (the counter after `n` steps is `value latch n`).
     2. `value_eq_allOnes_iff` (it is at all ones after `N + 1` steps, and every `N + 2` from
        then on). -/
namespace ReloadCounter

variable {w : Nat}

/-- One step of the counter. -/
def step (latch counter : BitVec w) : BitVec w :=
  if counter = BitVec.allOnes w then latch else counter - 1

/-- The counter `n` steps after a load. -/
def value (latch : BitVec w) (n : Nat) : BitVec w :=
  latch - BitVec.ofNat w (n % (latch.toNat + 2))

theorem value_zero (latch : BitVec w) : value latch 0 = latch := by
  unfold value
  rw [Nat.zero_mod]
  exact BitVec.sub_zero latch

variable {latch : BitVec w}

theorem toNat_lt_allOnes (hlatch : latch ≠ BitVec.allOnes w) : latch.toNat + 1 < 2 ^ w := by
  have hlt := latch.isLt
  have hne : latch.toNat ≠ 2 ^ w - 1 := by
    intro heq
    apply hlatch
    apply BitVec.eq_of_toNat_eq
    rw [heq, BitVec.toNat_allOnes]
  omega

/-- The way down to zero. -/
theorem value_of_le {n : Nat} (h : n % (latch.toNat + 2) ≤ latch.toNat) :
    (value latch n).toNat = latch.toNat - n % (latch.toNat + 2) := by
  have hlt := latch.isLt
  have hk : (BitVec.ofNat w (n % (latch.toNat + 2))).toNat = n % (latch.toNat + 2) := by
    rw [BitVec.toNat_ofNat]
    exact Nat.mod_eq_of_lt (by omega)
  unfold value
  rw [BitVec.toNat_sub_of_le, hk]
  rw [BitVec.le_def, hk]
  exact h

/-- The step past zero. -/
theorem value_of_last {n : Nat} (h : n % (latch.toNat + 2) = latch.toNat + 1) :
    value latch n = BitVec.allOnes w := by
  unfold value
  rw [h, BitVec.ofNat_add, BitVec.ofNat_toNat, BitVec.setWidth_eq, sub_add_eq_sub_sub, sub_self,
    zero_sub]
  exact BitVec.neg_one_eq_allOnes

theorem value_eq_allOnes_iff (hlatch : latch ≠ BitVec.allOnes w) (n : Nat) :
    value latch n = BitVec.allOnes w ↔ n % (latch.toNat + 2) = latch.toNat + 1 := by
  constructor
  · intro heq
    have hlt : n % (latch.toNat + 2) < latch.toNat + 2 := Nat.mod_lt _ (by omega)
    by_contra hne
    have hle : n % (latch.toNat + 2) ≤ latch.toNat := by omega
    have hval := value_of_le hle
    rw [heq, BitVec.toNat_allOnes] at hval
    have hmax := toNat_lt_allOnes hlatch
    omega
  · exact value_of_last

/-- The position in the period after one more step. -/
theorem step_value (hlatch : latch ≠ BitVec.allOnes w) (n : Nat) :
    step latch (value latch n) = value latch (n + 1) := by
  by_cases hlast : value latch n = BitVec.allOnes w
  · have hmod := (value_eq_allOnes_iff hlatch n).mp hlast
    have hnext : (n + 1) % (latch.toNat + 2) = 0 := by
      rw [← Nat.mod_add_mod, hmod]
      exact Nat.mod_self _
    unfold step
    rw [if_pos hlast]
    unfold value
    rw [hnext]
    exact (BitVec.sub_zero latch).symm
  · have hlt : n % (latch.toNat + 2) < latch.toNat + 2 := Nat.mod_lt _ (by omega)
    have hmod : n % (latch.toNat + 2) ≠ latch.toNat + 1 :=
      fun h => hlast ((value_eq_allOnes_iff hlatch n).mpr h)
    have hnext : (n + 1) % (latch.toNat + 2) = n % (latch.toNat + 2) + 1 := by
      rw [← Nat.mod_add_mod]
      exact Nat.mod_eq_of_lt (by omega)
    unfold step
    rw [if_neg hlast]
    unfold value
    rw [hnext, BitVec.ofNat_add, sub_add_eq_sub_sub]
    rfl

end ReloadCounter
