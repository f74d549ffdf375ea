import Cb6502.Lib.Printf
import Mathlib.Data.List.TakeWhile

/- Numerals as `strtol` of the C library reads them with base 0: white space, a sign, and digits in base
   16 behind `0x`, in base 8 behind `0`, in base 10 otherwise. A `long` has 64 bits, and a value out of
   its range is cut to the nearest end.

   What is proved:
     1. `strtol_text` (a numeral is read to its end, with its value).
     2. `numeral_of_strtol` (a text that is read to its end is a numeral).
     3. `strtol_hex` (what `0x%0nx` prints is read back). -/
namespace Numeral
open Printf (Text)

/-- `isspace` in the C locale. -/
def isSpace (c : BitVec 8) : Bool := c = 0x20 || (0x09 ≤ c && c ≤ 0x0D)

/-- The value of a digit, letters being digits from ten on. -/
def digitValue (c : BitVec 8) : Option Nat :=
  if 0x30 ≤ c ∧ c ≤ 0x39 then some (c.toNat - 0x30)
  else if 0x61 ≤ c ∧ c ≤ 0x7A then some (c.toNat - 0x61 + 10)
  else if 0x41 ≤ c ∧ c ≤ 0x5A then some (c.toNat - 0x41 + 10)
  else none

def isDigit (base : Nat) (c : BitVec 8) : Bool := (digitValue c).any (· < base)

/-- The number that digits of a base spell. -/
def digitsValue (base : Nat) (digits : Text) : Nat :=
  digits.foldl (fun n c => base * n + (digitValue c).getD 0) 0

/-- The nearest `long`. -/
def clampLong (n : Int) : Int := max (-0x8000000000000000) (min n 0x7FFFFFFFFFFFFFFF)

/-- The sign in front of a numeral: whether it is a minus, and what is behind it. -/
def takeSign : Text → Bool × Text
  | [] => (false, [])
  | c :: rest =>
    if c = 0x2D then (true, rest) else if c = 0x2B then (false, rest) else (false, c :: rest)

/-- What is behind `0x`, where a digit of base 16 is. -/
def hexDigits : Text → Option Text
  | z :: x :: c :: rest =>
    if z = 0x30 ∧ (x = 0x78 ∨ x = 0x58) ∧ isDigit 16 c = true then some (c :: rest) else none
  | _ => none

/-- The base of a numeral and its digits. -/
def takeBase (text : Text) : Nat × Text :=
  match hexDigits text with
  | some digits => (16, digits)
  | none => if text.head? = some 0x30 then (8, text) else (10, text)

/-- `strtol` with base 0: the value, and the text from `*endptr` on. -/
def strtol (text : Text) : Int × Text :=
  let (minus, unsigned) := takeSign (text.dropWhile isSpace)
  let (base, rest) := takeBase unsigned
  let digits := rest.takeWhile (isDigit base)
  if digits = [] then (0, text)
  else
    let n : Int := digitsValue base digits
    (clampLong (if minus then -n else n), rest.dropWhile (isDigit base))

/-! ## The numerals -/

/-- The digits of a numeral, with the prefix of their base. -/
inductive Digits where
  | hex (upper : Bool) (digits : Text) (h : digits ≠ []) (hall : ∀ c ∈ digits, isDigit 16 c = true)
  | octal (digits : Text) (hall : ∀ c ∈ digits, isDigit 8 c = true)
  | decimal (first : BitVec 8) (digits : Text) (hfirst : first ≠ 0x30)
    (hall : ∀ c ∈ first :: digits, isDigit 10 c = true)

namespace Digits

def text : Digits → Text
  | hex upper digits _ _ => 0x30 :: (if upper then 0x58 else 0x78) :: digits
  | octal digits _ => 0x30 :: digits
  | decimal first digits _ _ => first :: digits

def value : Digits → Nat
  | hex _ digits _ _ => digitsValue 16 digits
  | octal digits _ => digitsValue 8 (0x30 :: digits)
  | decimal first digits _ _ => digitsValue 10 (first :: digits)

end Digits

inductive Sign where
  | none | plus | minus

def Sign.text : Sign → Text
  | .none => []
  | .plus => [0x2B]
  | .minus => [0x2D]

def Sign.apply (sign : Sign) (n : Nat) : Int :=
  match sign with
  | .minus => -n
  | .none | .plus => n

end Numeral

/-- White space, a sign, and digits. -/
structure Numeral where
  space : Printf.Text
  sign : Numeral.Sign
  digits : Numeral.Digits
  hspace : ∀ c ∈ space, Numeral.isSpace c = true

namespace Numeral
open Printf (Text)

def text (n : Numeral) : Text := n.space ++ (n.sign.text ++ n.digits.text)

def value (n : Numeral) : Int := n.sign.apply n.digits.value

/-! ## Reading a numeral -/

section Read

theorem digitValue_plain : ∀ c : BitVec 8, (digitValue c).isSome = true →
    isSpace c = false ∧ c ≠ 0x2D ∧ c ≠ 0x2B := by decide

/-- No digit is taken for white space, a sign or the letter of the prefix. -/
theorem digit_plain {base : Nat} {c : BitVec 8} (h : isDigit base c = true) :
    isSpace c = false ∧ c ≠ 0x2D ∧ c ≠ 0x2B ∧ (base ≤ 10 → c ≠ 0x78 ∧ c ≠ 0x58) := by
  have hletter : ∀ x, x = 0x78#8 ∨ x = 0x58#8 → digitValue x = some 33 := by
    rintro x (rfl | rfl) <;> rfl
  obtain ⟨v, hv, hbase⟩ : ∃ v, digitValue c = some v ∧ v < base := by
    unfold isDigit at h
    cases hv : digitValue c with
    | none =>
      rw [hv] at h
      exact Bool.noConfusion h
    | some v =>
      rw [hv] at h
      exact ⟨v, rfl, of_decide_eq_true h⟩
  obtain ⟨hspace, hminus, hplus⟩ := digitValue_plain c (by rw [hv]; rfl)
  refine ⟨hspace, hminus, hplus, fun hten => ?_⟩
  have hnot : ¬(c = 0x78#8 ∨ c = 0x58#8) := by
    intro hx
    have hthirty : v = 33 := Option.some.inj (hv.symm.trans (hletter c hx))
    omega
  exact ⟨fun heq => hnot (Or.inl heq), fun heq => hnot (Or.inr heq)⟩

theorem Digits.text_head (d : Digits) : ∃ c rest, d.text = c :: rest ∧ isDigit 10 c = true := by
  cases d with
  | hex upper digits h hall => exact ⟨_, _, rfl, by decide⟩
  | octal digits hall => exact ⟨_, _, rfl, by decide⟩
  | decimal first digits hfirst hall => exact ⟨_, _, rfl, hall first List.mem_cons_self⟩

/-- The base, and the digits as a whole. -/
theorem takeBase_text (d : Digits) : ∃ base digits, takeBase d.text = (base, digits) ∧ digits ≠ [] ∧
    (∀ c ∈ digits, isDigit base c = true) ∧ digitsValue base digits = d.value := by
  cases d with
  | hex upper digits h hall =>
    obtain ⟨c, rest, rfl⟩ := List.exists_cons_of_ne_nil h
    have hc := hall c List.mem_cons_self
    refine ⟨16, c :: rest, ?_, h, hall, rfl⟩
    unfold takeBase Digits.text hexDigits
    cases upper <;> simp [hc]
  | octal digits hall =>
    have hnothex : hexDigits (0x30 :: digits) = none := by
      unfold hexDigits
      split
      · rename_i z x c rest heq
        obtain ⟨-, hdigits⟩ := List.cons.inj heq
        have hx := (digit_plain (hall x (by rw [hdigits]; exact List.mem_cons_self))).2.2.2 (by decide)
        exact if_neg fun hhex => hhex.2.1.elim hx.1 hx.2
      · rfl
    refine ⟨8, 0x30 :: digits, ?_, List.cons_ne_nil _ _, ?_, rfl⟩
    · rw [Digits.text, takeBase, hnothex]
      exact if_pos rfl
    · intro c hc
      rcases List.mem_cons.mp hc with rfl | hc
      · decide
      · exact hall c hc
  | decimal first digits hfirst hall =>
    have hnothex : hexDigits (first :: digits) = none := by
      unfold hexDigits
      split
      · rename_i z x c rest heq
        obtain ⟨rfl, -⟩ := List.cons.inj heq
        exact if_neg fun hhex => hfirst hhex.1
      · rfl
    refine ⟨10, first :: digits, ?_, List.cons_ne_nil _ _, hall, rfl⟩
    rw [Digits.text, takeBase, hnothex]
    exact if_neg fun heq => hfirst (Option.some.inj heq)

theorem takeSign_text (sign : Sign) (d : Digits) :
    takeSign (sign.text ++ d.text) = (match sign with | .minus => true | _ => false, d.text) := by
  obtain ⟨c, rest, htext, hc⟩ := d.text_head
  obtain ⟨-, hminus, hplus, -⟩ := digit_plain hc
  cases sign with
  | none => rw [htext, Sign.text, List.nil_append, takeSign, if_neg hminus, if_neg hplus]
  | plus => rfl
  | minus => rfl

theorem dropSpace_text (n : Numeral) : n.text.dropWhile isSpace = n.sign.text ++ n.digits.text := by
  obtain ⟨c, rest, htext, hc⟩ := n.digits.text_head
  rw [text, List.dropWhile_append_of_pos n.hspace]
  cases n.sign with
  | none =>
    rw [htext, Sign.text, List.nil_append]
    exact List.dropWhile_cons_of_neg (by rw [(digit_plain hc).1]; decide)
  | plus => rfl
  | minus => rfl

/-- A numeral is read to its end, with its value. -/
theorem strtol_text (n : Numeral) : strtol n.text = (clampLong n.value, []) := by
  obtain ⟨base, digits, hbase, hne, hall, hvalue⟩ := takeBase_text n.digits
  have htake : digits.takeWhile (isDigit base) = digits := List.takeWhile_eq_self_iff.mpr hall
  have hdrop : digits.dropWhile (isDigit base) = [] := List.dropWhile_eq_nil_iff.mpr hall
  unfold strtol
  rw [dropSpace_text, takeSign_text]
  dsimp only
  rw [hbase]
  dsimp only
  rw [htake, hdrop, if_neg hne, hvalue, value]
  cases n.sign <;> rfl

/-- The digits that `strtol` finds are those of a numeral. -/
theorem digits_of_takeBase {text digits : Text} {base : Nat} (h : takeBase text = (base, digits))
    (hne : digits ≠ []) (hall : ∀ c ∈ digits, isDigit base c = true) : ∃ d : Digits, d.text = text := by
  unfold takeBase at h
  split at h
  · rename_i hex hhex
    obtain ⟨rfl, rfl⟩ := Prod.mk.inj h
    unfold hexDigits at hhex
    split at hhex
    · split at hhex
      · rename_i z x c rest hprefix
        obtain ⟨rfl, hx, -⟩ := hprefix
        obtain rfl := Option.some.inj hhex
        rcases hx with rfl | rfl
        · exact ⟨.hex false _ hne hall, rfl⟩
        · exact ⟨.hex true _ hne hall, rfl⟩
      · cases hhex
    · cases hhex
  · split at h
    · rename_i hzero
      obtain ⟨rfl, rfl⟩ := Prod.mk.inj h
      obtain ⟨rest, rfl⟩ := List.head?_eq_some_iff.mp hzero
      exact ⟨.octal rest fun c hc => hall c (List.mem_cons_of_mem _ hc), rfl⟩
    · rename_i hzero
      obtain ⟨rfl, rfl⟩ := Prod.mk.inj h
      obtain ⟨first, rest, rfl⟩ := List.exists_cons_of_ne_nil hne
      exact ⟨.decimal first rest (fun heq => hzero (by rw [heq]; rfl)) hall, rfl⟩

theorem sign_of_takeSign {text rest : Text} {minus : Bool} (h : takeSign text = (minus, rest)) :
    ∃ sign : Sign, text = sign.text ++ rest := by
  unfold takeSign at h
  split at h
  · obtain ⟨rfl, rfl⟩ := Prod.mk.inj h
    exact ⟨.none, rfl⟩
  · split at h
    · rename_i hminus
      obtain ⟨rfl, rfl⟩ := Prod.mk.inj h
      exact ⟨.minus, by rw [hminus]; rfl⟩
    · split at h
      · rename_i hplus
        obtain ⟨rfl, rfl⟩ := Prod.mk.inj h
        exact ⟨.plus, by rw [hplus]; rfl⟩
      · obtain ⟨rfl, rfl⟩ := Prod.mk.inj h
        exact ⟨.none, rfl⟩

/-- What is read to its end is a numeral. -/
theorem numeral_of_strtol {text : Text} (hne : text ≠ []) (h : (strtol text).2 = []) :
    ∃ n : Numeral, n.text = text := by
  unfold strtol at h
  cases hsign : takeSign (text.dropWhile isSpace) with
  | mk minus unsigned =>
    cases hbase : takeBase unsigned with
    | mk base digits =>
      rw [hsign] at h
      dsimp only at h
      rw [hbase] at h
      dsimp only at h
      by_cases hnone : digits.takeWhile (isDigit base) = []
      · rw [if_pos hnone] at h
        exact absurd h hne
      · rw [if_neg hnone] at h
        have hall : ∀ c ∈ digits, isDigit base c = true := List.dropWhile_eq_nil_iff.mp h
        have hdigits : digits ≠ [] := fun hnil => hnone (by rw [hnil]; rfl)
        obtain ⟨d, hd⟩ := digits_of_takeBase hbase hdigits hall
        obtain ⟨sign, hs⟩ := sign_of_takeSign hsign
        refine ⟨⟨text.takeWhile isSpace, sign, d, fun c hc => List.mem_takeWhile_imp hc⟩, ?_⟩
        rw [Numeral.text, hd, ← hs]
        exact List.takeWhile_append_dropWhile

end Read

/-! ## Reading what was printed -/

theorem digitsValue_append (base : Nat) (digits : Text) (c : BitVec 8) :
    digitsValue base (digits ++ [c]) = base * digitsValue base digits + (digitValue c).getD 0 := by
  rw [digitsValue, List.foldl_append]
  rfl

theorem hexDigit_value : ∀ d < 16, digitValue (BitVec.ofNat 8 (Nat.digitChar d).toNat) = some d := by
  decide

/-- `%0nx` prints digits of base 16, with the number as their value. -/
theorem hex_digits {n : Nat} (hn : 0 < n) {x : Nat} (hx : x < 16 ^ n) :
    (∀ c ∈ Printf.hex n x, isDigit 16 c = true) ∧ digitsValue 16 (Printf.hex n x) = x := by
  have hone : ∀ d < 16, isDigit 16 (BitVec.ofNat 8 (Nat.digitChar d).toNat) = true := by decide
  induction n, hn using Nat.le_induction generalizing x with
  | base =>
    have hlt : x < 16 := hx
    rw [Printf.hex_digit hlt]
    refine ⟨fun c hc => ?_, ?_⟩
    · rw [List.mem_singleton.mp hc]
      exact hone x hlt
    · have hvalue := digitsValue_append 16 [] (BitVec.ofNat 8 (Nat.digitChar x).toNat)
      rw [hexDigit_value x hlt] at hvalue
      exact hvalue.trans (Nat.zero_add x)
  | succ n hn ih =>
    have hhigh : x / 16 < 16 ^ n := Nat.div_lt_of_lt_mul (by rw [← Nat.pow_succ']; exact hx)
    have hlow : x % 16 < 16 := Nat.mod_lt _ (by decide)
    obtain ⟨hall, hvalue⟩ := ih hhigh
    have hsplit : Printf.hex (n + 1) x =
        Printf.hex n (x / 16) ++ [BitVec.ofNat 8 (Nat.digitChar (x % 16)).toNat] := by
      rw [← Printf.hex_digit hlow, ← Printf.hex_succ hn (x / 16) hlow, Nat.div_add_mod]
    rw [hsplit]
    refine ⟨fun c hc => ?_, ?_⟩
    · rcases List.mem_append.mp hc with hc | hc
      · exact hall c hc
      · rw [List.mem_singleton.mp hc]
        exact hone _ hlow
    · rw [digitsValue_append, hvalue, hexDigit_value _ hlow]
      exact Nat.div_add_mod x 16

/-- What `0x%0nx` prints is read back. -/
theorem strtol_hex {n : Nat} (hn : 0 < n) {x : Nat} (hx : x < 16 ^ n) :
    strtol (Printf.ascii "0x" ++ Printf.hex n x) = (clampLong x, []) := by
  obtain ⟨hall, hvalue⟩ := hex_digits hn hx
  have hne : Printf.hex n x ≠ [] := by
    intro hnil
    have hlength := Printf.length_hex hn hx
    rw [hnil] at hlength
    exact absurd hlength (Nat.ne_of_lt hn)
  have hread := strtol_text ⟨[], .none, .hex false (Printf.hex n x) hne hall, by simp⟩
  rw [value, Digits.value, hvalue] at hread
  exact hread

example : strtol (Printf.ascii " -0x1fz") = (-31, Printf.ascii "z") := by decide

end Numeral
