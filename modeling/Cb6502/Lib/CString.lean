import Cb6502.Lib.Printf
import Mathlib.Data.List.TakeWhile

/- Strings in a buffer of bytes, as the C library reads and cuts them: `strtok_r` puts an end of string
   into the buffer behind each token and gives the place where the token starts.

   What is proved:
     1. `At.str_eq`, `At.set` (a string in a buffer, and what leaves it alone).
     2. `strtokR_word`, `strtokR_end` (one call cuts the first word off).
     3. `strtokAll_words` (further calls give the further words, each of them at its place in the
        buffer afterwards). -/
namespace CString
open Printf (Text)

/-- The bytes from a place to the end of the string. -/
def str (buf : Text) (p : Nat) : Text := (buf.drop p).takeWhile (· ≠ 0)

/-- At this place of the buffer the string starts. -/
def At (buf : Text) (p : Nat) (text : Text) : Prop :=
  0 ∉ text ∧ ∃ rest, buf.drop p = text ++ 0 :: rest

section At
variable {buf : Text} {p : Nat} {text : Text}

theorem takeWhile_append_stop {α : Type} {P : α → Bool} {l : List α} (h : ∀ a ∈ l, P a = true) {b : α}
    (hb : P b = false) (rest : List α) : (l ++ b :: rest).takeWhile P = l := by
  rw [List.takeWhile_append_of_pos h, List.takeWhile_cons_of_neg (by rw [hb]; exact Bool.false_ne_true),
    List.append_nil]

theorem At.str_eq (h : At buf p text) : str buf p = text := by
  obtain ⟨hnul, rest, hrest⟩ := h
  rw [str, hrest]
  apply takeWhile_append_stop
  · intro a ha
    exact decide_eq_true fun hzero => hnul (hzero ▸ ha)
  · rfl

/-- A byte behind the end of a string is not of it. -/
theorem At.set (h : At buf p text) {i : Nat} (hi : p + text.length < i) (byte : BitVec 8) :
    At (buf.set i byte) p text := by
  obtain ⟨hnul, rest, hrest⟩ := h
  obtain ⟨k, rfl⟩ := Nat.exists_eq_add_of_lt hi
  refine ⟨hnul, rest.set k byte, ?_⟩
  rw [List.drop_set, if_neg (by omega), hrest, List.set_append, if_neg (by omega)]
  have hindex : p + text.length + k + 1 - p - text.length = k + 1 := by omega
  rw [hindex]
  rfl

/-- The rest of a string behind its first bytes. -/
theorem At.behind {lead : Text} (h : At buf p (lead ++ text)) : At buf (p + lead.length) text := by
  obtain ⟨hnul, rest, hrest⟩ := h
  refine ⟨fun hzero => hnul (List.mem_append_right _ hzero), rest, ?_⟩
  rw [← List.drop_drop, hrest, List.append_assoc, List.drop_left]

theorem At.getD_end (h : At buf p []) : buf.getD p 0 = 0 := by
  obtain ⟨-, rest, hrest⟩ := h
  rw [List.getD_eq_getElem?_getD, ← Nat.add_zero p, ← List.getElem?_drop, hrest]
  rfl

theorem At.getD_head {a : BitVec 8} (h : At buf p (a :: text)) : buf.getD p 0 = a ∧ a ≠ 0 := by
  obtain ⟨hnul, rest, hrest⟩ := h
  refine ⟨?_, fun hzero => hnul (hzero ▸ List.mem_cons_self)⟩
  rw [List.getD_eq_getElem?_getD, ← Nat.add_zero p, ← List.getElem?_drop, hrest]
  rfl

/-- An end of string cuts a string in two. -/
theorem At.cut {a : BitVec 8} {rest : Text} (h : At buf p (text ++ a :: rest)) :
    At (buf.set (p + text.length) 0) p text ∧
      At (buf.set (p + text.length) 0) (p + text.length + 1) rest := by
  obtain ⟨hnul, more, hmore⟩ := h
  have hcut : (buf.set (p + text.length) 0).drop p = text ++ 0 :: (rest ++ 0 :: more) := by
    rw [List.drop_set, if_neg (by omega), hmore, List.append_assoc, List.set_append, if_neg (by omega)]
    have hindex : p + text.length - p - text.length = 0 := by omega
    rw [hindex]
    rfl
  refine ⟨⟨fun hzero => hnul (List.mem_append_left _ hzero), _, hcut⟩,
    fun hzero => hnul (List.mem_append_right _ (List.mem_cons_of_mem _ hzero)), more, ?_⟩
  rw [Nat.add_assoc, ← List.drop_drop, hcut, ← List.drop_drop, List.drop_left]
  rfl

end At

/-! ## Words -/

/-- The words of a text, which one or more delimiters separate. -/
def words (delim : BitVec 8) (text : Text) : List Text :=
  (text.splitOnP (· = delim)).filter (· ≠ [])

section Words
variable {delim : BitVec 8}

@[simp] theorem words_nil : words delim [] = [] := rfl

@[simp] theorem words_delim (text : Text) : words delim (delim :: text) = words delim text := by
  rw [words, List.splitOnP_cons_eq_if_modifyHead, if_pos (decide_eq_true rfl), List.filter_cons_of_neg]
  · rfl
  · exact fun hne => absurd hne (by decide)

theorem noDelim {w : Text} (h : delim ∉ w) : ∀ a ∈ w, decide (a = delim) = false := by
  intro a ha
  exact decide_eq_false fun heq => h (heq ▸ ha)

theorem words_word {w : Text} (hw : w ≠ []) (h : delim ∉ w) : words delim w = [w] := by
  rw [words, List.splitOnP_eq_singleton (noDelim h)]
  exact List.filter_cons_of_pos (decide_eq_true hw)

theorem words_append {w : Text} (hw : w ≠ []) (h : delim ∉ w) (rest : Text) :
    words delim (w ++ delim :: rest) = w :: words delim rest := by
  rw [words, List.splitOnP_append_cons_of_forall_mem (noDelim h) delim (decide_eq_true rfl)]
  exact List.filter_cons_of_pos (decide_eq_true hw)

/-- The first word, in front of the end or of a delimiter. -/
inductive FirstWord (delim : BitVec 8) : Text → Text → List Text → Prop where
  | last (k : Nat) {w : Text} (hw : w ≠ []) (hdelim : delim ∉ w) :
    FirstWord delim (List.replicate k delim ++ w) w []
  | more (k : Nat) {w : Text} (hw : w ≠ []) (hdelim : delim ∉ w) (rest : Text) :
    FirstWord delim (List.replicate k delim ++ (w ++ delim :: rest)) w (words delim rest)

/-- A text is all delimiters, or has a first word. -/
theorem words_cases (delim : BitVec 8) (text : Text) : (∃ k, text = List.replicate k delim ∧ words delim text = []) ∨
    ∃ w ws, words delim text = w :: ws ∧ FirstWord delim text w ws := by
  induction text with
  | nil => exact Or.inl ⟨0, rfl, rfl⟩
  | cons a text ih =>
    by_cases ha : a = delim
    · subst ha
      rw [words_delim]
      rcases ih with ⟨k, hall, hnone⟩ | ⟨w, ws, hwords, hfirst⟩
      · exact Or.inl ⟨k + 1, by rw [List.replicate_succ, ← hall], hnone⟩
      · refine Or.inr ⟨w, ws, hwords, ?_⟩
        cases hfirst with
        | last k hw hdelim => exact .last (k + 1) hw hdelim
        | more k hw hdelim rest => exact .more (k + 1) hw hdelim rest
    · right
      by_cases hmem : delim ∈ a :: text
      · obtain ⟨w, rest, htext, hdelim⟩ := List.eq_append_cons_of_mem hmem
        have hw : w ≠ [] := by
          rintro rfl
          exact ha (List.cons.inj htext).1
        rw [htext]
        exact ⟨w, _, words_append hw hdelim rest, .more 0 hw hdelim rest⟩
      · exact ⟨a :: text, [], words_word (List.cons_ne_nil a text) hmem, .last 0 (List.cons_ne_nil a text) hmem⟩

end Words

/-! ## Tokens -/

/-- `strtok_r` with one delimiter, called with a string or with the place that it kept: the token, the
place to go on at, and the buffer. -/
def strtokR (delim : BitVec 8) (buf : Text) (p : Nat) : Option Nat × Nat × Text :=
  let start := p + ((str buf p).takeWhile (· = delim)).length
  if buf.getD start 0 = 0 then (none, start, buf)
  else
    let stop := start + ((str buf start).takeWhile (· ≠ delim)).length
    if buf.getD stop 0 = 0 then (some start, stop, buf)
    else (some start, stop + 1, buf.set stop 0)

/-- The tokens as a loop `while((token = strtok_r(NULL, ...)) != NULL && n < max)` takes them, which asks
for one more than it has room for. `take` is what it makes of a token, from its place and its text. -/
def strtokAll {β : Type} (delim : BitVec 8) (take : Nat → Text → β) : Nat → Text → Nat → List β × Text
  | 0, buf, p => ([], (strtokR delim buf p).2.2)
  | n + 1, buf, p =>
    match strtokR delim buf p with
    | (none, _, buf) => ([], buf)
    | (some start, p, buf) =>
      let (taken, rest) := strtokAll delim take n buf p
      (take start (str buf start) :: taken, rest)

/-- Strings in front of `p` are left alone, and all strings where there is nothing to cut. -/
def Behind (buf : Text) (p : Nat) (text : Text) (buf' : Text) : Prop :=
  ∀ q t, At buf q t → q + t.length < p ∨ text = [] → At buf' q t

section Tokens
variable {delim : BitVec 8} {buf : Text} {p : Nat} {text : Text}

/-- The delimiters in front of a word, or of the end. -/
theorem takeWhile_delims (k : Nat) {rest : Text} (h : ∀ a ∈ rest.head?, a ≠ delim) :
    (List.replicate k delim ++ rest).takeWhile (· = delim) = List.replicate k delim := by
  have hall : ∀ a ∈ List.replicate k delim, decide (a = delim) = true := by
    intro a ha
    exact decide_eq_true (List.eq_of_mem_replicate ha)
  rw [List.takeWhile_append_of_pos hall]
  cases rest with
  | nil => rw [List.takeWhile_nil, List.append_nil]
  | cons a rest =>
    have ha : decide (a = delim) = false := decide_eq_false (h a rfl)
    have hnone : (a :: rest).takeWhile (· = delim) = [] := List.takeWhile_cons_of_neg (by rw [ha]; decide)
    rw [hnone, List.append_nil]

theorem head_ne_delim {w : Text} (hdelim : delim ∉ w) (rest : Text) (hw : w ≠ []) :
    ∀ a ∈ (w ++ rest).head?, a ≠ delim := by
  obtain ⟨b, w, rfl⟩ := List.exists_cons_of_ne_nil hw
  rintro a ⟨⟩ rfl
  exact hdelim List.mem_cons_self

theorem word_ne_delim {w : Text} (hdelim : delim ∉ w) : ∀ a ∈ w, decide (a ≠ delim) = true := by
  intro a ha
  exact decide_eq_true fun heq => hdelim (heq ▸ ha)

/-- The first byte of a word is not an end of string. -/
theorem At.getD_word {w rest : Text} (h : At buf p (w ++ rest)) (hw : w ≠ []) : buf.getD p 0 ≠ 0 := by
  obtain ⟨a, w, rfl⟩ := List.exists_cons_of_ne_nil hw
  rw [List.cons_append] at h
  rw [h.getD_head.1]
  exact h.getD_head.2

/-- There is no token left. -/
theorem strtokR_end (h : At buf p text) (hwords : words delim text = []) :
    ∃ p', strtokR delim buf p = (none, p', buf) := by
  rcases words_cases delim text with ⟨k, rfl, -⟩ | ⟨w, ws, hsome, -⟩
  · have hskip : (List.replicate k delim ++ []).takeWhile (· = delim) = List.replicate k delim :=
      takeWhile_delims k (by simp)
    rw [List.append_nil] at hskip
    have hend : At buf (p + (List.replicate k delim).length) [] := by
      rw [← List.append_nil (List.replicate k delim)] at h
      exact h.behind
    refine ⟨p + (List.replicate k delim).length, ?_⟩
    unfold strtokR
    rw [h.str_eq, hskip, if_pos hend.getD_end]
  · rw [hwords] at hsome
    exact absurd hsome (by simp)

/-- The first word is the token; behind it the buffer goes on with the other words. -/
theorem strtokR_word (h : At buf p text) {w : Text} {ws : List Text} (hwords : words delim text = w :: ws) :
    ∃ start p' buf' rest, strtokR delim buf p = (some start, p', buf') ∧ p ≤ start ∧ start ≤ p' ∧ At buf' start w ∧
      At buf' p' rest ∧ words delim rest = ws ∧ (start + w.length < p' ∨ rest = []) ∧
      Behind buf p text buf' := by
  rcases words_cases delim text with ⟨k, -, hnone⟩ | ⟨w', ws', hsome, hfirst⟩
  · rw [hwords] at hnone
    exact absurd hnone (by simp)
  · obtain ⟨rfl, rfl⟩ := List.cons.inj (hwords.symm.trans hsome)
    cases hfirst with
    | last k hw hdelim =>
      have hskip := takeWhile_delims k (head_ne_delim hdelim [] hw)
      rw [List.append_nil] at hskip
      have hword := h.behind
      have hstop : (p + (List.replicate k delim).length + w.length) = _ := rfl
      have hend : At buf (p + (List.replicate k delim).length + w.length) [] := by
        rw [← List.append_nil w] at hword
        exact hword.behind
      have hsome : buf.getD (p + (List.replicate k delim).length) 0 ≠ 0 := by
        rw [← List.append_nil w] at hword
        exact hword.getD_word hw
      refine ⟨_, _, _, [], ?_, Nat.le_add_right _ _, Nat.le_add_right _ _, hword, hend, rfl, Or.inr rfl, fun q t hat _ => hat⟩
      unfold strtokR
      rw [h.str_eq, hskip, if_neg hsome, hword.str_eq, List.takeWhile_eq_self_iff.mpr (word_ne_delim hdelim),
        if_pos hend.getD_end]
    | more k hw hdelim rest =>
      have hskip := takeWhile_delims k (head_ne_delim hdelim (delim :: rest) hw)
      have hword := h.behind
      have hsome := hword.getD_word hw
      have hstop : buf.getD (p + (List.replicate k delim).length + w.length) 0 ≠ 0 := by
        have hat := hword.behind.getD_head
        rw [hat.1]
        exact hat.2
      obtain ⟨hat, hrest⟩ := hword.cut
      refine ⟨_, _, _, rest, ?_, Nat.le_add_right _ _, by omega, hat, hrest, rfl,
        Or.inl (Nat.lt_succ_self _), ?_⟩
      · unfold strtokR
        rw [h.str_eq, hskip, if_neg hsome, hword.str_eq,
          takeWhile_append_stop (word_ne_delim hdelim) (by simp), if_neg hstop]
      · rintro q t hq (hlt | hnil)
        · exact hq.set (by omega) 0
        · simp at hnil

/-- Any call. -/
theorem strtokR_behind (h : At buf p text) : Behind buf p text (strtokR delim buf p).2.2 := by
  cases hwords : words delim text with
  | nil =>
    obtain ⟨p', htok⟩ := strtokR_end h hwords
    rw [htok]
    exact fun q t hat _ => hat
  | cons w ws =>
    obtain ⟨start, p', buf', rest, htok, -, -, -, -, -, -, hbehind⟩ := strtokR_word h hwords
    rw [htok]
    exact hbehind

/-- Each word is taken, up to the number that there is room for, and is at its place in the buffer in
the end. -/
theorem strtokAll_words {β : Type} (delim : BitVec 8) (take : Nat → Text → β) (n : Nat) (h : At buf p text) :
    ∃ starts, List.Forall₂ (At (strtokAll delim take n buf p).2) starts ((words delim text).take n) ∧
      (strtokAll delim take n buf p).1 = List.zipWith take starts ((words delim text).take n) ∧
      (∀ start ∈ starts, p ≤ start) ∧ Behind buf p text (strtokAll delim take n buf p).2 := by
  induction n generalizing buf p text with
  | zero => exact ⟨[], .nil, rfl, by simp, strtokR_behind h⟩
  | succ n ih =>
    cases hwords : words delim text with
    | nil =>
      obtain ⟨p', htok⟩ := strtokR_end h hwords
      rw [strtokAll, htok]
      exact ⟨[], .nil, rfl, by simp, fun q t hat _ => hat⟩
    | cons w ws =>
      obtain ⟨start, p', buf', rest, htok, hstart, hnext, hat, hrest, hws, hfar, hbehind⟩ :=
        strtokR_word h hwords
      obtain ⟨starts, hlater, htaken, hle, hkept⟩ := ih hrest
      rw [strtokAll, htok]
      dsimp only
      rw [List.take_succ_cons, ← hws, hat.str_eq, htaken]
      refine ⟨start :: starts, .cons (hkept start w hat hfar) hlater, rfl, ?_, ?_⟩
      · intro start' hin
        rcases List.mem_cons.mp hin with rfl | hin
        · exact hstart
        · exact Nat.le_trans (Nat.le_trans hstart hnext) (hle start' hin)
      · rintro q t hq (hlt | hnil)
        · exact hkept q t (hbehind q t hq (Or.inl hlt)) (Or.inl (by omega))
        · rw [hnil, words_nil] at hwords
          exact absurd hwords (by simp)

end Tokens
end CString
