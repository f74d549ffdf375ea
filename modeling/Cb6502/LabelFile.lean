import Cb6502.DbgCli
import Cb6502.Labels
import Cb6502.Lib.Scanf

/- Label files (core/src/debugger.c): the bytes of a file as `fgets` and `sscanf` take them apart, and
   what a breakpoint at a name then comes to. The linker writes a line `al 00ABCD .name` for each
   label; other lines do not begin with an `a`.

   What is proved:
     1. `fgetsAll_lines` (lines that have room in the buffer are delivered one by one).
     2. `scanLine_label`, `scanLine_other` (a label line is read back, other lines are nothing).
     3. `label_file_breakpoints` (after a file whose labels fit, a breakpoint at a name is one at the
        first address that the file has for it). -/
namespace Cb6502

open CString Scanf
open Printf (ascii Text)

/-! ## The file -/

/-- The size of `line` in `debug_load_labels`. -/
def lineSize : Nat := 256

/-- `"al %06X .%s"` -/
def labelFormat : List Directive :=
  [.byte 0x61, .byte 0x6C, .space, .hex 6, .space, .byte 0x2E, .word]

/-- What `sscanf` reads from a line, when it reads both. -/
def scanLine (line : Text) : LabelLine :=
  match scan labelFormat line with
  | [.int addr, .text name] => some (addr, name)
  | _ => none

/-- `debug_load_labels`, with the contents of the file if it opens. -/
def debugLoadLabelsFile (handle : Debug) : Option Text → Option (Bool × Debug)
  | none => some (false, handle)
  | some contents =>
    (debugLoadLabels handle ((fgetsAll lineSize contents).map fun got => scanLine (got.takeWhile (· ≠ 0)))).map
      fun handle => (true, handle)

/-- A line of a label file. -/
inductive FileLine where
  | label (name : CString) (addr : BitVec 24)
  | other (text : Text)

def FileLine.text : FileLine → Text
  | .label name addr => ascii "al " ++ (upperHex 6 addr.toNat ++ (ascii " ." ++ name))
  | .other text => text

/-- A label line has a name without blanks, other lines do not look like one; and the line has room
in the buffer. -/
structure FileLine.Fine (line : FileLine) : Prop where
  plain : newline ∉ line.text ∧ 0 ∉ line.text
  short : line.text.length + 2 ≤ lineSize
  form :
    match line with
    | .label name _ => name ≠ [] ∧ ∀ c ∈ name, Numeral.isSpace c = false
    | .other text => text.head? ≠ some 0x61

/-- What the line says. -/
def FileLine.read : FileLine → LabelLine
  | .label name addr => some (addr.setWidth 32, name)
  | .other _ => none

def fileText (lines : List FileLine) : Text := lines.flatMap fun line => line.text ++ [newline]

/-- The labels of the file that `debug_load_labels` takes. -/
def fileLabels (lines : List FileLine) : List Label :=
  lines.filterMap fun line => line.read.accepted

/-! ## Lines -/

theorem fgetsAll_lines {lines : List FileLine} (h : ∀ line ∈ lines, line.Fine) :
    fgetsAll lineSize (fileText lines) = lines.map fun line => line.text ++ [newline] := by
  induction lines with
  | nil => rfl
  | cons line lines ih =>
    have hline := h line List.mem_cons_self
    have hrest := ih fun other hother => h other (List.mem_cons_of_mem line hother)
    have htext : fileText (line :: lines) = line.text ++ newline :: fileText lines := by
      rw [fileText, List.flatMap_cons, List.append_assoc]
      rfl
    have hshort : ([] : Text).length + line.text.length + 2 ≤ lineSize := by
      simpa using hline.short
    rw [htext, fgetsAll, fgetsAll_line hline.plain.1 hshort, List.nil_append]
    exact congrArg (_ :: ·) hrest

/-- A label line is read back. -/
theorem scanLine_label {name : CString} {addr : BitVec 24} (hne : name ≠ [])
    (hname : ∀ c ∈ name, Numeral.isSpace c = false) :
    scanLine ((FileLine.label name addr).text ++ [newline]) = some (addr.setWidth 32, name) := by
  have hword : Prints [.word] [.text name] (name ++ [newline]) := by
    refine .word hne hname ?_ (.nil _)
    intro c hc
    obtain rfl := Option.some.inj hc
    rfl
  have hdot : Prints [.space, .byte 0x2E, .word] [.text name]
      ([0x20] ++ 0x2E :: (name ++ [newline])) := by
    refine .space (by decide) ?_ (.byte hword)
    intro c hc
    obtain rfl := Option.some.inj hc
    rfl
  have hhex := Prints.hex (by decide) addr.isLt hdot (n := 6)
  have hblank := upperHex_head (by decide) addr.isLt ([0x20] ++ 0x2E :: (name ++ [newline])) (n := 6)
  have hline : Prints labelFormat [.int (BitVec.ofNat 32 addr.toNat), .text name]
      (0x61 :: 0x6C :: ([0x20] ++ (upperHex 6 addr.toNat ++ ([0x20] ++ 0x2E :: (name ++ [newline]))))) :=
    .byte (.byte (.space (by decide) hblank hhex))
  have htext : (FileLine.label name addr).text ++ [newline] =
      0x61 :: 0x6C :: ([0x20] ++ (upperHex 6 addr.toNat ++ ([0x20] ++ 0x2E :: (name ++ [newline])))) := by
    simp [FileLine.text, ascii]
  rw [scanLine, htext, scan_prints hline]
  dsimp only
  rw [BitVec.ofNat_toNat]

/-- Any other line is nothing. -/
theorem scanLine_other {text : Text} (h : text.head? ≠ some 0x61) : scanLine (text ++ [newline]) = none := by
  have hscan : scan labelFormat (text ++ [newline]) = [] := by
    cases text with
    | nil => rfl
    | cons c rest =>
      have hc : c ≠ 0x61 := fun heq => h (congrArg some heq)
      rw [labelFormat, List.cons_append, scan]
      exact if_neg hc
  rw [scanLine, hscan]

theorem FileLine.Fine.scan {line : FileLine} (h : line.Fine) :
    scanLine ((line.text ++ [newline]).takeWhile (· ≠ 0)) = line.read := by
  have hwhole : (line.text ++ [newline]).takeWhile (· ≠ 0) = line.text ++ [newline] := by
    refine List.takeWhile_eq_self_iff.mpr fun c hc => decide_eq_true ?_
    rcases List.mem_append.mp hc with hc | hc
    · exact fun heq => h.plain.2 (heq ▸ hc)
    · rw [List.mem_singleton.mp hc]
      decide
  have hform := h.form
  rw [hwhole]
  cases line with
  | label name addr => exact scanLine_label hform.1 hform.2
  | other text => exact scanLine_other hform

/-! ## Breakpoints at names -/

/-- Loading labels writes the label table only. -/
theorem debugLoadLabels_frame {lines : List LabelLine} {d d' : Debug} (h : debugLoadLabels d lines = some d') :
    d'.breakpoints = d.breakpoints ∧ d'.dbginfo = d.dbginfo := by
  induction lines generalizing d with
  | nil => exact Option.some.inj h ▸ ⟨rfl, rfl⟩
  | cons line lines ih =>
    cases haccepted : line.accepted with
    | none =>
      rw [debugLoadLabels_skipped haccepted] at h
      exact ih h
    | some label =>
      rw [debugLoadLabels_accepted haccepted] at h
      obtain ⟨next, hadd, hnext⟩ := Option.bind_eq_some_iff.mp h
      obtain ⟨i, -, rfl⟩ := Option.map_eq_some_iff.mp hadd
      have hrest := ih hnext
      exact hrest

/-- Without debug info, a breakpoint at a name is at the address of its label. -/
theorem debugSetBreakpointLabel_found {d : Debug} (hinfo : d.dbginfo = none) {index : Fin maxBreakpoints}
    (hindex : d.unused = some index) (bh : BitVec 32) (name : CString) :
    match foundAddress d name with
    | some addr => ∃ label, debugSetBreakpointLabel d bh name = (true, BitVec.ofNat 32 index,
        d.setBreakpoint index { d.breakpoints index with used := true, addr := addr, label := some label })
    | none => debugSetBreakpointLabel d bh name = (false, bh, d) := by
  have hsymbol : labelSymbol d name = none := by rw [labelSymbol, hinfo, Option.bind_none]
  rw [debugSetBreakpointLabel, hindex, foundAddress]
  simp only [hsymbol]
  cases findLabel d name with
  | none => rfl
  | some label => exact ⟨label, rfl⟩

/-- The breakpoint that is used first. -/
def firstBreakpoint : Fin maxBreakpoints := ⟨0, by decide⟩

/-- From `debug_init`, and every file of fine lines whose labels fit: a breakpoint at a name is put at
the first address that the file has for it; a name that is not in the file gets none. -/
theorem label_file_breakpoints {lines : List FileLine} (hfine : ∀ line ∈ lines, line.Fine)
    (hfits : LabelsFit (fileLabels lines)) :
    ∃ d, debugLoadLabelsFile debugInit (some (fileText lines)) = some (true, d) ∧
      ∀ name : CString, name.length ≤ maxLabelSize → ∀ bh,
        match (fileLabels lines).find? fun l => l.1 = name with
        | some (_, addr) => ∃ label, debugSetBreakpointLabel d bh name = (true, 0,
            d.setBreakpoint firstBreakpoint { d.breakpoints firstBreakpoint with
              used := true, addr := addr, label := some label })
        | none => debugSetBreakpointLabel d bh name = (false, bh, d) := by
  have hread : (fgetsAll lineSize (fileText lines)).map (fun got => scanLine (got.takeWhile (· ≠ 0))) =
      lines.map FileLine.read := by
    rw [fgetsAll_lines hfine, List.map_map]
    exact List.map_congr_left fun line hline => (hfine line hline).scan
  have hlabels : fileLabels lines = (lines.map FileLine.read).filterMap LabelLine.accepted := by
    rw [fileLabels, List.filterMap_map]
    rfl
  have hload : ∃ d, debugLoadLabels debugInit (lines.map FileLine.read) = some d ∧
      LabelsHold d ([] ++ (lines.map FileLine.read).filterMap LabelLine.accepted) := by
    refine debugInit_holds.load ?_
    rw [← hlabels]
    exact hfits
  obtain ⟨d, hload, hd⟩ := hload
  obtain ⟨hpoints, hinfo⟩ := debugLoadLabels_frame hload
  have hindex : d.unused = some firstBreakpoint := by
    rw [Debug.unused, hpoints]
    decide
  refine ⟨d, ?_, fun name hname bh => ?_⟩
  · rw [debugLoadLabelsFile, hread, hload]
    rfl
  · have hfound := hd.foundAddress hname
    rw [List.nil_append, ← hlabels] at hfound
    have hset := debugSetBreakpointLabel_found hinfo hindex bh name
    rw [hfound] at hset
    cases hfind : (fileLabels lines).find? fun l => l.1 = name with
    | none =>
      rw [hfind] at hset
      exact hset
    | some label =>
      rw [hfind] at hset
      exact hset

/-- The name `main` twice, and a line of another kind. -/
def mainTwice : List FileLine :=
  [.label (ascii "main") 0x8010, .other (ascii "# end"), .label (ascii "main") 0x9000]

/-- The first of the two is taken. -/
theorem label_file_breakpoints_twice :
    ∃ d, debugLoadLabelsFile debugInit (some (fileText mainTwice)) = some (true, d) ∧
      ∃ label, debugSetBreakpointLabel d 7 (ascii "main") = (true, 0,
        d.setBreakpoint firstBreakpoint { d.breakpoints firstBreakpoint with
          used := true, addr := 0x8010, label := some label }) := by
  have hfine : ∀ line ∈ mainTwice, line.Fine := by
    simp only [mainTwice, List.forall_mem_cons]
    exact ⟨⟨by decide, by decide, by decide⟩, ⟨by decide, by decide, by decide⟩,
      ⟨by decide, by decide, by decide⟩, fun _ hmem => absurd hmem List.not_mem_nil⟩
  have hfits : LabelsFit (fileLabels mainTwice) := fun b =>
    (List.length_filter_le _ _).trans (by decide)
  obtain ⟨d, hload, hset⟩ := label_file_breakpoints hfine hfits
  exact ⟨d, hload, hset (ascii "main") (by decide) 7⟩

end Cb6502
