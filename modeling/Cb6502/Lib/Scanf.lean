import Cb6502.Lib.Numeral

/- Formats as `sscanf` of the C library reads them: bytes that must come next, white space, hexadecimal
   numbers of at most some bytes, and words. A number is read into an `unsigned int`. `0x` without a
   digit behind it is no number.

   What is proved:
     1. `upperHex_digits` (what `%0nX` prints are digits of the number).
     2. `scan_prints` (what is printed in a format is scanned back, and the conversions stop there). -/
namespace Scanf
open Printf (Text)
open Numeral

/-- A directive of a format: a byte, white space, `%nX`, `%s`. -/
inductive Directive where
  | byte (c : BitVec 8)
  | space
  | hex (width : Nat)
  | word

/-- What a conversion stores. -/
inductive Value where
  | int (n : BitVec 32)
  | text (t : Text)
  deriving DecidableEq

/-- The digits of a number of base 16 behind its sign. -/
def hexBody (body : Text) : Option Text :=
  match hexDigits body with
  | some digits => some digits
  | none =>
    if body.head? = some 0x30 ∧ (body.tail.head? = some 0x78 ∨ body.tail.head? = some 0x58) then none
    else if (body.head?.any (isDigit 16)) = true then some body else none

/-- `%nX`: the number, and what is behind it. -/
def scanHex (width : Nat) (input : Text) : Option (BitVec 32 × Text) :=
  let (minus, body) := takeSign (input.take width)
  (hexBody body).map fun digits =>
    let n : Int := digitsValue 16 (digits.takeWhile (isDigit 16))
    (BitVec.ofInt 32 (if minus then -n else n),
      digits.dropWhile (isDigit 16) ++ input.drop width)

/-- `sscanf`: the values of the conversions that succeed. -/
def scan : List Directive → Text → List Value
  | [], _ => []
  | .byte c :: ds, input =>
    match input with
    | a :: rest => if a = c then scan ds rest else []
    | [] => []
  | .space :: ds, input => scan ds (input.dropWhile isSpace)
  | .hex width :: ds, input =>
    match scanHex width (input.dropWhile isSpace) with
    | some (n, rest) => .int n :: scan ds rest
    | none => []
  | .word :: ds, input =>
    let input := input.dropWhile isSpace
    let t := input.takeWhile (!isSpace ·)
    if t = [] then [] else .text t :: scan ds (input.dropWhile (!isSpace ·))

/-! ## Printing -/

/-- The capital of a letter. -/
def upper (c : BitVec 8) : BitVec 8 := if 0x61 ≤ c ∧ c ≤ 0x7A then c - 0x20 else c

/-- `%0nX` -/
def upperHex (n x : Nat) : Text := (Printf.hex n x).map upper

theorem length_upperHex {n x : Nat} (hn : 0 < n) (hx : x < 16 ^ n) : (upperHex n x).length = n := by
  rw [upperHex, List.length_map]
  exact Printf.length_hex hn hx

theorem digitValue_upper : ∀ c : BitVec 8, isDigit 16 c = true → digitValue (upper c) = digitValue c := by
  decide

theorem upperHex_digits {n : Nat} (hn : 0 < n) {x : Nat} (hx : x < 16 ^ n) :
    (∀ c ∈ upperHex n x, isDigit 16 c = true) ∧ digitsValue 16 (upperHex n x) = x := by
  obtain ⟨hall, hvalue⟩ := hex_digits hn hx
  refine ⟨fun c hc => ?_, ?_⟩
  · obtain ⟨d, hd, rfl⟩ := List.mem_map.mp hc
    rw [isDigit, digitValue_upper d (hall d hd)]
    exact hall d hd
  · have hfold : ∀ (digits : Text) (m : Nat), (∀ c ∈ digits, isDigit 16 c = true) →
        (digits.map upper).foldl (fun n c => 16 * n + (digitValue c).getD 0) m =
          digits.foldl (fun n c => 16 * n + (digitValue c).getD 0) m := by
      intro digits m hdigits
      induction digits generalizing m with
      | nil => rfl
      | cons c digits ih =>
        rw [List.map_cons, List.foldl_cons, List.foldl_cons,
          digitValue_upper c (hdigits c List.mem_cons_self)]
        exact ih _ fun d hd => hdigits d (List.mem_cons_of_mem c hd)
    exact (hfold _ 0 hall).trans hvalue

/-- Digits of base 16 as a number without sign. -/
theorem hexBody_digits {digits : Text} (hne : digits ≠ [])
    (hall : ∀ c ∈ digits, isDigit 16 c = true) :
    takeSign digits = (false, digits) ∧ hexBody digits = some digits := by
  cases digits with
  | nil => exact absurd rfl hne
  | cons c rest =>
    have hfirst := hall c List.mem_cons_self
    have hplain : ∀ c : BitVec 8, isDigit 16 c = true →
        (c ≠ 0x2D ∧ c ≠ 0x2B) ∧ c ≠ 0x78 ∧ c ≠ 0x58 := by decide
    obtain ⟨⟨hminus, hplus⟩, -⟩ := hplain c hfirst
    refine ⟨by rw [takeSign, if_neg hminus, if_neg hplus], ?_⟩
    have hmark : ∀ x ∈ rest.head?, x ≠ 0x78 ∧ x ≠ 0x58 := fun x hx =>
      (hplain x (hall x (List.mem_cons_of_mem c (List.mem_of_mem_head? hx)))).2
    have hno : hexDigits (c :: rest) = none := by
      cases rest with
      | nil => rfl
      | cons x rest =>
        cases rest with
        | nil => rfl
        | cons d more =>
          obtain ⟨hlower, hupper⟩ := hmark x rfl
          rw [hexDigits, if_neg]
          rintro ⟨-, hx | hx, -⟩
          · exact hlower hx
          · exact hupper hx
    have hnomark : ¬((c :: rest).head? = some 0x30 ∧
        ((c :: rest).tail.head? = some 0x78 ∨ (c :: rest).tail.head? = some 0x58)) := by
      rintro ⟨-, hx | hx⟩
      · exact (hmark _ hx).1 rfl
      · exact (hmark _ hx).2 rfl
    rw [hexBody, hno]
    simp only [if_neg hnomark]
    exact if_pos hfirst

theorem scanHex_upperHex {n : Nat} (hn : 0 < n) {x : Nat} (hx : x < 16 ^ n) (rest : Text) :
    scanHex n (upperHex n x ++ rest) = some (BitVec.ofNat 32 x, rest) := by
  obtain ⟨hall, hvalue⟩ := upperHex_digits hn hx
  have hlength := length_upperHex hn hx
  have hne : upperHex n x ≠ [] := by
    intro hnil
    rw [hnil] at hlength
    exact absurd hlength (Nat.ne_of_lt hn)
  obtain ⟨hsign, hbody⟩ := hexBody_digits hne hall
  unfold scanHex
  rw [List.take_append_of_le_length (Nat.le_of_eq hlength.symm), List.take_of_length_le (Nat.le_of_eq hlength),
    hsign]
  dsimp only
  rw [hbody, Option.map_some, List.takeWhile_eq_self_iff.mpr hall, List.dropWhile_eq_nil_iff.mpr hall, hvalue,
    List.drop_append_of_le_length (Nat.le_of_eq hlength.symm), List.drop_of_length_le (Nat.le_of_eq hlength)]
  rfl

theorem upperHex_head {n : Nat} (hn : 0 < n) {x : Nat} (hx : x < 16 ^ n) (text : Text) :
    ∀ c ∈ (upperHex n x ++ text).head?, isSpace c = false := by
  have hplain : ∀ c : BitVec 8, isDigit 16 c = true → isSpace c = false := by decide
  have hlength := length_upperHex hn hx
  have hall := (upperHex_digits hn hx).1
  intro c hc
  cases hdigits : upperHex n x with
  | nil =>
    rw [hdigits] at hlength
    exact absurd hlength (Nat.ne_of_lt hn)
  | cons d rest =>
    rw [hdigits] at hc hall
    obtain rfl := Option.some.inj hc
    exact hplain d (hall d List.mem_cons_self)

/-- The text is printed in the format, with the values; what comes behind it is anything that a last
word does not go on with. -/
inductive Prints : List Directive → List Value → Text → Prop where
  | nil (rest : Text) : Prints [] [] rest
  | byte {c : BitVec 8} {ds : List Directive} {vs : List Value} {text : Text}
      (h : Prints ds vs text) : Prints (.byte c :: ds) vs (c :: text)
  | space {ds : List Directive} {vs : List Value} {blank text : Text}
      (hblank : ∀ c ∈ blank, isSpace c = true) (htext : ∀ c ∈ text.head?, isSpace c = false)
      (h : Prints ds vs text) : Prints (.space :: ds) vs (blank ++ text)
  | hex {n x : Nat} {ds : List Directive} {vs : List Value} {text : Text} (hn : 0 < n) (hx : x < 16 ^ n)
      (h : Prints ds vs text) :
      Prints (.hex n :: ds) (.int (BitVec.ofNat 32 x) :: vs) (upperHex n x ++ text)
  | word {t : Text} {ds : List Directive} {vs : List Value} {text : Text} (hne : t ≠ [])
      (ht : ∀ c ∈ t, isSpace c = false) (hend : ∀ c ∈ text.head?, isSpace c = true)
      (h : Prints ds vs text) : Prints (.word :: ds) (.text t :: vs) (t ++ text)

theorem dropSpace_of_head {text : Text} (h : ∀ c ∈ text.head?, isSpace c = false) :
    text.dropWhile isSpace = text := by
  cases text with
  | nil => rfl
  | cons c rest =>
    have hc : ¬isSpace c = true := by
      rw [h c rfl]
      exact Bool.false_ne_true
    exact List.dropWhile_cons_of_neg hc

/-- What a format has printed is scanned back by it. -/
theorem scan_prints {ds : List Directive} {vs : List Value} {text : Text} (h : Prints ds vs text) :
    scan ds text = vs := by
  induction h with
  | nil => rfl
  | byte _ ih => rw [scan, if_pos rfl, ih]
  | space hblank htext _ ih => rw [scan, List.dropWhile_append_of_pos hblank, dropSpace_of_head htext, ih]
  | @hex n x ds vs text hn hx _ ih =>
    rw [scan, dropSpace_of_head (upperHex_head hn hx text), scanHex_upperHex hn hx, ← ih]
  | @word t ds vs text hne ht hend _ ih =>
    have hhead : ∀ c ∈ (t ++ text).head?, isSpace c = false := by
      intro c hc
      cases t with
      | nil => exact absurd rfl hne
      | cons d rest =>
        obtain rfl := Option.some.inj hc
        exact ht _ List.mem_cons_self
    have hplain : ∀ c ∈ t, (!isSpace c) = true := fun c hc => by rw [ht c hc]; rfl
    have hstop : text.takeWhile (!isSpace ·) = [] ∧ text.dropWhile (!isSpace ·) = text := by
      cases text with
      | nil => exact ⟨rfl, rfl⟩
      | cons c rest =>
        have hc : ¬(!isSpace c) = true := by
          rw [hend c rfl]
          exact Bool.false_ne_true
        exact ⟨List.takeWhile_cons_of_neg hc, List.dropWhile_cons_of_neg hc⟩
    rw [scan, dropSpace_of_head hhead, List.takeWhile_append_of_pos hplain, List.dropWhile_append_of_pos hplain, hstop.1, hstop.2,
      List.append_nil, if_neg hne, ih]

end Scanf
