import Mathlib.Order.Basic

/- Blocks of memory that are copied into and filled. A move that would read outside its source or
   write outside its destination gives no block: what it does is undefined.

   What is proved:
     1. `copy_eq`, `fill_eq` (when a move is defined, and each cell of the block after it).
     2. `copy_none` (a move that reads or writes too much). -/
namespace Blocks

variable {α : Type} {m n : Nat}

/-- `count` cells of the source, from its first one on, into the block from `start` on. -/
def copy (dst : Vector α n) (start : Nat) (src : Vector α m) (count : Nat) :
    Option (Vector α n) :=
  if count ≤ m ∧ start + count ≤ n then
    some (.ofFn fun i =>
      if start ≤ i.val ∧ i.val < start + count then (src[i.val - start]?).getD (dst.get i)
      else dst.get i)
  else none

/-- One value in `count` cells of the block from `start` on. -/
def fill (dst : Vector α n) (start count : Nat) (val : α) : Option (Vector α n) :=
  if start + count ≤ n then
    some (.ofFn fun i =>
      if start ≤ i.val ∧ i.val < start + count then val else dst.get i)
  else none

variable {dst : Vector α n} {src : Vector α m} {start count : Nat}

/-- A block is given by its cells. -/
theorem ofFn_congr {f g : Fin n → α} (h : ∀ i, f i = g i) : Vector.ofFn f = Vector.ofFn g :=
  congrArg Vector.ofFn (funext h)

theorem get_ofFn (f : Fin n → α) (i : Fin n) : (Vector.ofFn f).get i = f i :=
  Vector.getElem_ofFn i.isLt

theorem ofFn_inj {f g : Fin n → α} : Vector.ofFn f = Vector.ofFn g ↔ ∀ i, f i = g i := by
  refine ⟨fun h i => ?_, ofFn_congr⟩
  rw [← get_ofFn f, h, get_ofFn]

theorem ofFn_get (block : Vector α n) : Vector.ofFn block.get = block := by
  ext i hi
  exact Vector.getElem_ofFn hi

theorem copy_eq (hsrc : count ≤ m) (hdst : start + count ≤ n) :
    copy dst start src count = some (.ofFn fun i =>
      if h : start ≤ i.val ∧ i.val < start + count then src.get ⟨i.val - start, by omega⟩
      else dst.get i) := by
  rw [copy, if_pos ⟨hsrc, hdst⟩]
  congr 1
  apply ofFn_congr
  intro i
  split
  · rename_i hin
    have hread : i.val - start < m := by omega
    rw [Vector.getElem?_eq_getElem hread]
    rfl
  · rfl

theorem copy_none (h : m < count ∨ n < start + count) : copy dst start src count = none := by
  rw [copy]
  apply if_neg
  rintro ⟨hsrc, hdst⟩
  omega

theorem fill_eq (val : α) (hdst : start + count ≤ n) :
    fill dst start count val = some (.ofFn fun i =>
      if start ≤ i.val ∧ i.val < start + count then val else dst.get i) :=
  if_pos hdst

/-- The cells before `count`, which may be none. -/
theorem fill_front (block : Vector α n) {count : Nat} (val : α) (h : count ≤ n) :
    (if 0 < count then fill block 0 count val else some block) =
      some (.ofFn fun i => if i.val < count then val else block.get i) := by
  split
  · rw [fill_eq val (by omega)]
    simp only [Nat.zero_le, true_and, Nat.zero_add]
  · rename_i hnone
    rw [← ofFn_get block]
    congr 1
    apply ofFn_congr
    intro i
    rw [if_neg (by omega), get_ofFn]

/-- The cells from `used` on, which may be none. -/
theorem fill_back (block : Vector α n) {used : Nat} (val : α) (h : used ≤ n) :
    (if used < n then fill block used (n - used) val else some block) =
      some (.ofFn fun i => if used ≤ i.val then val else block.get i) := by
  split
  · rw [fill_eq val (by omega)]
    congr 1
    apply ofFn_congr
    intro i
    have hall : used ≤ i.val ∧ i.val < used + (n - used) ↔ used ≤ i.val := by omega
    simp only [hall]
  · rename_i hnone
    rw [← ofFn_get block]
    congr 1
    apply ofFn_congr
    intro i
    rw [if_neg (by omega), get_ofFn]

end Blocks
