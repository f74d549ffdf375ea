import Mathlib.Algebra.GroupWithZero.Nat
import Mathlib.Data.Nat.Basic
import Mathlib.Data.List.GetD

/- Texts of bytes that are printed into memory with `snprintf`. A `Cursor` is the place where the
   next text is printed and the bytes that are left there, as C code keeps them in a pointer and
   a `size_t`.

   What is proved:
     1. `Printed.print` — as long as the texts fit, they come to lie one after another, with the
        end of the string behind the last.
     2. `hex_append`, `length_hex` — `%0nx` of a number is that of its bytes, one after another. -/
namespace Printf

abbrev Text := List (BitVec 8)

/-- The bytes of an ASCII string. -/
def ascii (s : String) : Text := s.toList.map fun c => BitVec.ofNat 8 c.toNat

/-! ## Hexadecimal -/

/-- `%0nx`: `n` digits of `x`, or more where they are needed. -/
def hex (n x : Nat) : Text :=
  ((Nat.toDigits 16 x).map fun c => BitVec.ofNat 8 c.toNat).leftpad n 0x30

theorem length_hex {n x : Nat} (hn : 0 < n) (hx : x < 16 ^ n) : (hex n x).length = n := by
  have hle := (Nat.length_toDigits_le_iff (n := x) (b := 16) (by omega) hn).mpr hx
  simp only [hex, List.leftpad, List.length_append, List.length_replicate, List.length_map]
  omega

theorem hex_digit {d : Nat} (hd : d < 16) : hex 1 d = [BitVec.ofNat 8 d.digitChar.toNat] := by
  rw [hex, Nat.toDigits_of_lt_base hd]
  rfl

/-- One digit more. -/
theorem hex_succ {n d : Nat} (hn : 0 < n) (x : Nat) (hd : d < 16) :
    hex (n + 1) (16 * x + d) = hex n x ++ hex 1 d := by
  rw [hex_digit hd]
  rcases Nat.eq_zero_or_pos x with rfl | hx
  · -- the digit of zero is one of the padding
    obtain ⟨k, rfl⟩ := Nat.exists_eq_succ_of_ne_zero (Nat.ne_of_gt hn)
    have hzero : hex (k + 1) 0 = List.replicate (k + 1) 0x30 := by
      rw [hex, Nat.toDigits_zero]
      simp [List.leftpad, List.replicate_succ']
    rw [hzero, Nat.mul_zero, Nat.zero_add, hex, Nat.toDigits_of_lt_base hd]
    simp [List.leftpad]
  · rw [hex, hex, ← Nat.toDigits_append_toDigits (by omega) hx hd, Nat.toDigits_of_lt_base hd]
    simp [List.leftpad]

/-- One byte more. -/
theorem hex_append {n lo : Nat} (hn : 0 < n) (hi : Nat) (hlo : lo < 256) :
    hex (n + 2) (256 * hi + lo) = hex n hi ++ hex 2 lo := by
  have hhigh : lo / 16 < 16 := by omega
  have hlow : lo % 16 < 16 := by omega
  calc hex (n + 2) (256 * hi + lo) = hex (n + 1 + 1) (16 * (16 * hi + lo / 16) + lo % 16) := by
        congr 1
        omega
    _ = hex n hi ++ (hex 1 (lo / 16) ++ hex 1 (lo % 16)) := by
        rw [hex_succ (Nat.succ_pos n) _ hlow, hex_succ hn hi hhigh, List.append_assoc]
    _ = hex n hi ++ hex 2 lo := by
        rw [← hex_succ Nat.one_pos (lo / 16) hlow, Nat.div_add_mod]

/-! ## Strings in memory -/

/-- The string at the start of the memory is `text`. -/
structure Holds (mem : Nat → BitVec 8) (text : Text) : Prop where
  noNul : 0 ∉ text
  bytes : ∀ i ≤ text.length, mem i = text.getD i 0

theorem Holds.unique {mem : Nat → BitVec 8} {text text' : Text} (h : Holds mem text)
    (h' : Holds mem text') : text = text' := by
  have hshort : ∀ {a b : Text}, Holds mem a → Holds mem b → a.length ≤ b.length := by
    intro a b ha hb
    by_contra hlt
    have hend : mem b.length = 0 := by
      rw [hb.bytes _ (Nat.le_refl _)]
      simp
    rw [ha.bytes _ (by omega), List.getD_eq_getElem _ _ (by omega)] at hend
    exact ha.noNul (hend ▸ List.getElem_mem _)
  have hlength := Nat.le_antisymm (hshort h h') (hshort h' h)
  apply List.ext_getElem hlength
  intro i hi hi'
  rw [← List.getD_eq_getElem _ 0 hi, ← List.getD_eq_getElem _ 0 hi', ← h.bytes i (by omega),
    ← h'.bytes i (by omega)]

/-- `snprintf(pos, size, text)`: as much of the text as fits, and the end of the string. -/
def snprintf (mem : Nat → BitVec 8) (pos size : Nat) (text : Text) : Nat → BitVec 8 := fun k =>
  if pos ≤ k ∧ k < pos + size ∧ k ≤ pos + text.length then
    if k + 1 < pos + size then text.getD (k - pos) 0 else 0
  else mem k

/-- Where the next text is printed, and the bytes that are left. -/
structure Cursor where
  mem : Nat → BitVec 8
  pos : Nat
  size : BitVec 64

/-- `written = snprintf(pos, size, text)`, then `pos += written` and `size -= written`. -/
def Cursor.print (c : Cursor) (text : Text) : Cursor where
  mem := snprintf c.mem c.pos c.size.toNat text
  pos := c.pos + text.length
  size := c.size - BitVec.ofNat 64 text.length

/-- `text` has been printed to the start of `max` bytes of `old`. -/
structure Printed (max : Nat) (old : Nat → BitVec 8) (c : Cursor) (text : Text) : Prop where
  fits : text.length < max
  noNul : 0 ∉ text
  bytes : ∀ i < text.length, c.mem i = text.getD i 0
  pos : c.pos = text.length
  size : c.size.toNat + text.length = max
  outside : ∀ k, max ≤ k → c.mem k = old k

theorem printed_nil {max : Nat} (h0 : 0 < max) (hmax : max < 2 ^ 64) (old : Nat → BitVec 8) :
    Printed max old ⟨old, 0, BitVec.ofNat 64 max⟩ [] where
  fits := h0
  noNul := by simp
  bytes := by simp
  pos := rfl
  size := by
    rw [BitVec.toNat_ofNat, Nat.mod_eq_of_lt hmax]
    rfl
  outside := fun _ _ => rfl

section
variable {max : Nat} {old : Nat → BitVec 8} {c : Cursor} {text more : Text}
  (h : Printed max old c text) (hmore : 0 ∉ more) (hfits : text.length + more.length < max)
include h hmore hfits

theorem Printed.print_holds : Holds (c.print more).mem (text ++ more) where
  noNul := by
    rw [List.mem_append, not_or]
    exact ⟨h.noNul, hmore⟩
  bytes := by
    intro i hi
    rw [List.length_append] at hi
    have hsize := h.size
    have hpos := h.pos
    simp only [Cursor.print, snprintf]
    by_cases hold : i < text.length
    · rw [if_neg (by omega), List.getD_append _ _ _ _ hold]
      exact h.bytes i hold
    · rw [if_pos (by omega), List.getD_append_right _ _ _ _ (by omega), hpos]
      by_cases hlast : i + 1 < text.length + c.size.toNat
      · rw [if_pos hlast]
      · rw [if_neg hlast, List.getD_eq_default _ _ (by omega)]

theorem Printed.print : Printed max old (c.print more) (text ++ more) where
  fits := by
    rw [List.length_append]
    exact hfits
  noNul := (h.print_holds hmore hfits).noNul
  bytes := fun i hi => (h.print_holds hmore hfits).bytes i (Nat.le_of_lt hi)
  pos := by
    rw [List.length_append, Cursor.print, h.pos]
  size := by
    have hsize := h.size
    have hlt := c.size.isLt
    have hle : (BitVec.ofNat 64 more.length).toNat = more.length := by
      rw [BitVec.toNat_ofNat, Nat.mod_eq_of_lt (by omega)]
    simp only [Cursor.print, List.length_append]
    rw [BitVec.toNat_sub_of_le (by rw [BitVec.le_def, hle]; omega), hle]
    omega
  outside := by
    intro k hk
    have hsize := h.size
    have hpos := h.pos
    simp only [Cursor.print, snprintf]
    rw [if_neg (by omega)]
    exact h.outside k hk

end

end Printf
