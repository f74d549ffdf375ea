import Cb6502.Debugger
import Cb6502.Lib.BucketTable

/- The label table of the debugger (core/src/debugger.c). A label file is the list of what `sscanf`
   reads from its lines: the address and the name, or nothing.

   `add_label` finds a free entry in the bucket of the name. If there is none it writes through a
   pointer that was never assigned; such a run has no result here.

   What is proved:
     1. `addLabel_free`, `addLabel_full` (the entry that is written, and when there is none).
     2. `findLabel_eq` (the search is that of a table of buckets).
     3. `LabelsHold.load`, `LabelsHold.of_load` (a file is read to its end exactly if its labels fit).
     4. `labels_lossless_iff` (labels are stored and found exactly if no bucket gets more than four). -/
namespace Cb6502

open BucketTable

/-- What `sscanf` reads from a line: `addr` and `name`. -/
abbrev LabelLine := Option (BitVec 32 × CString)

def Debug.setLabel (handle : Debug) (ref : LabelRef) (entry : DbgLabel) : Debug :=
  { handle with
    labels := Function.update handle.labels ref.1
      (Function.update (handle.labels ref.1) ref.2 entry) }

/-- `add_label` -/
def addLabel (handle : Debug) (name : CString) (addr : BitVec 16) : Option Debug :=
  let hash := hashStr name
  let bucket := labelBucket hash
  let label := (List.finRange labelEntriesPerBucket).find? fun i => !(handle.labels bucket i).used
  label.map fun i =>
    let handle := handle.setLabel (bucket, i)
      { hash, label := name.take maxLabelSize, address := addr, used := true }
    -- after the loop, through the same pointer
    handle.setLabel (bucket, i)
      { handle.labels bucket i with hash, label := name.take maxLabelSize, address := addr }

/-- `debug_load_labels`, once the file is open. -/
def debugLoadLabels (handle : Debug) : List LabelLine → Option Debug
  | [] => some handle
  | none :: lines => debugLoadLabels handle lines
  | some (addr, name) :: lines =>
    if name.length > maxLabelSize ∨ addr.toNat > 0xFFFF then debugLoadLabels handle lines
    else if name ≠ [] ∧ name.head? ≠ some 0x40 then
      (addLabel handle name (addr.setWidth 16)).bind fun handle => debugLoadLabels handle lines
    else debugLoadLabels handle lines

/-! ## What is asked of the table -/

abbrev Label := CString × BitVec 16

/-- The label of an accepted line. -/
def LabelLine.accepted : LabelLine → Option Label
  | none => none
  | some (addr, name) =>
    if (name.length ≤ maxLabelSize ∧ addr.toNat ≤ 0xFFFF) ∧ name ≠ [] ∧ name.head? ≠ some 0x40 then
      some (name, addr.setWidth 16)
    else none

def nameBucket (name : CString) : Fin labelTableSize := labelBucket (hashStr name)

/-- The entry of a label. -/
def labelEntry (name : CString) (addr : BitVec 16) : DbgLabel :=
  { hash := hashStr name, label := name, address := addr, used := true }

/-- The label goes to a free entry of its bucket; a full bucket leaves the table as it is. -/
def AddsLabel (d : Debug) (name : CString) (addr : BitVec 16) : Prop :=
  (∃ i, (d.labels (nameBucket name) i).used = false ∧
    addLabel d name addr = some (d.setLabel (nameBucket name, i) (labelEntry name addr))) ∨
  (∀ i, (d.labels (nameBucket name) i).used = true) ∧ addLabel d name addr = some d

/-- The labels that there is room for. -/
def storedLabels (labels : List Label) : List Label :=
  labels.foldl (fun stored label =>
    if (chain nameBucket stored (nameBucket label.1)).length < labelEntriesPerBucket
    then stored ++ [label] else stored) []

/-- The address that `find_label` leads to. -/
def foundAddress (d : Debug) (name : CString) : Option (BitVec 16) :=
  (findLabel d name).map fun ref => (d.labels ref.1 ref.2).address

/-- Each accepted line is added safely, and after the last one every name leads to its first label
that was stored. -/
structure LabelsLossless (lines : List LabelLine) : Prop where
  adds : ∀ before line name addr, before ++ [line] <+: lines → line.accepted = some (name, addr) →
    ∃ d, debugLoadLabels debugInit before = some d ∧ AddsLabel d name addr
  finds : ∃ d, debugLoadLabels debugInit lines = some d ∧
    ∀ name, name.length ≤ maxLabelSize → foundAddress d name =
      ((storedLabels (lines.filterMap LabelLine.accepted)).find? fun l => l.1 = name).map Prod.snd

/-! ## The table -/

/-- The labels in the table. -/
def labelTable (d : Debug) : Table (Fin labelTableSize) CString (BitVec 16) labelEntriesPerBucket :=
  fun b i => if (d.labels b i).used then some ((d.labels b i).label, (d.labels b i).address) else none

structure LabelsHold (d : Debug) (labels : List Label) : Prop where
  holds : Holds nameBucket (labelTable d) labels
  hashed : ∀ b i, (d.labels b i).used = true → (d.labels b i).hash = hashStr (d.labels b i).label
  short : ∀ b i, (d.labels b i).used = true → (d.labels b i).label.length ≤ maxLabelSize

theorem debugInit_holds : LabelsHold debugInit [] :=
  ⟨Holds.empty nameBucket, nofun, nofun⟩

section Add
variable {d : Debug} {name : CString} {addr : BitVec 16}

theorem isNone_labelTable (b : Fin labelTableSize) (i : Fin labelEntriesPerBucket) :
    (labelTable d b i).isNone = !(d.labels b i).used := by
  rw [labelTable]
  cases (d.labels b i).used <;> rfl

/-- The free entry of `add_label`. -/
theorem addLabel_eq (hname : name.length ≤ maxLabelSize) : addLabel d name addr =
    (SlotTable.firstFree (labelTable d (nameBucket name))).map fun i =>
      d.setLabel (nameBucket name, i) (labelEntry name addr) := by
  have htable : (fun i => !(d.labels (nameBucket name) i).used) =
      fun i => (labelTable d (nameBucket name) i).isNone :=
    funext fun i => (isNone_labelTable _ i).symm
  have htwice : ∀ ref entry entry',
      (d.setLabel ref entry).setLabel ref entry' = d.setLabel ref entry' := by
    intro ref entry entry'
    simp [Debug.setLabel]
  have hentry : ∀ ref entry, (d.setLabel ref entry).labels ref.1 ref.2 = entry := by
    intro ref entry
    simp [Debug.setLabel]
  rw [addLabel, List.take_of_length_le hname]
  simp only [htwice, hentry]
  rw [SlotTable.firstFree, ← htable]
  rfl

/-- What the write of an entry does to the table. -/
theorem labelTable_setLabel (i : Fin labelEntriesPerBucket) :
    labelTable (d.setLabel (nameBucket name, i) (labelEntry name addr)) =
      Function.update (labelTable d) (nameBucket name)
        (SlotTable.put (labelTable d (nameBucket name)) i (name, addr)) := by
  funext b j
  by_cases hb : b = nameBucket name
  · subst hb
    rw [Function.update_self, SlotTable.put_apply]
    by_cases hj : j = i
    · subst hj
      simp [labelTable, Debug.setLabel, labelEntry]
    · simp [labelTable, Debug.setLabel, hj]
  · simp [labelTable, Debug.setLabel, hb]

theorem addLabel_table (hname : name.length ≤ maxLabelSize) :
    (addLabel d name addr).map labelTable = add nameBucket (labelTable d) (name, addr) := by
  rw [addLabel_eq hname, add, Option.map_map]
  congr 1
  funext i
  exact labelTable_setLabel i

variable {labels : List Label}

/-- What holds of every used entry is kept by the write of an entry. -/
theorem setLabel_used {P : DbgLabel → Prop} (h : ∀ b i, (d.labels b i).used = true → P (d.labels b i))
    (ref : LabelRef) {entry : DbgLabel} (hentry : P entry) (b : Fin labelTableSize)
    (i : Fin labelEntriesPerBucket) (hused : ((d.setLabel ref entry).labels b i).used = true) :
    P ((d.setLabel ref entry).labels b i) := by
  by_cases hb : b = ref.1
  · subst hb
    by_cases hi : i = ref.2
    · subst hi
      simpa [Debug.setLabel] using hentry
    · simp only [Debug.setLabel, Function.update_self, Function.update_of_ne hi] at hused ⊢
      exact h _ _ hused
  · simp only [Debug.setLabel, Function.update_of_ne hb] at hused ⊢
    exact h _ _ hused

theorem LabelsHold.addLabel_free (h : LabelsHold d labels) (addr : BitVec 16)
    (hname : name.length ≤ maxLabelSize)
    (hfree : (chain nameBucket labels (nameBucket name)).length < labelEntriesPerBucket) :
    AddsLabel d name addr ∧
      ∃ d', addLabel d name addr = some d' ∧ LabelsHold d' (labels ++ [(name, addr)]) := by
  obtain ⟨t, hadd, ht⟩ := h.holds.add (name, addr) hfree
  rw [← addLabel_table hname] at hadd
  cases hslot : SlotTable.firstFree (labelTable d (nameBucket name)) with
  | none =>
    rw [addLabel_eq hname, hslot] at hadd
    exact nomatch hadd
  | some i =>
    have hstored : addLabel d name addr =
        some (d.setLabel (nameBucket name, i) (labelEntry name addr)) := by
      rw [addLabel_eq hname, hslot]
      rfl
    have hunused : (d.labels (nameBucket name) i).used = false := by
      have hnone := isNone_labelTable (d := d) (nameBucket name) i
      rw [SlotTable.firstFree_eq_some hslot] at hnone
      simpa using hnone
    have htable : labelTable (d.setLabel (nameBucket name, i) (labelEntry name addr)) = t := by
      rw [hstored] at hadd
      exact Option.some.inj hadd
    refine ⟨Or.inl ⟨i, hunused, hstored⟩, _, hstored, htable ▸ ht, ?_, ?_⟩
    · exact setLabel_used (P := fun e => e.hash = hashStr e.label) h.hashed _ rfl
    · exact setLabel_used (P := fun e => e.label.length ≤ maxLabelSize) h.short _ hname

/-- A full bucket: the pointer is not assigned. -/
theorem LabelsHold.addLabel_full (h : LabelsHold d labels) (addr : BitVec 16)
    (hname : name.length ≤ maxLabelSize)
    (hfull : labelEntriesPerBucket ≤ (chain nameBucket labels (nameBucket name)).length) :
    addLabel d name addr = none := by
  have hnone := h.holds.add_full (name, addr) hfull
  rw [← addLabel_table hname] at hnone
  exact Option.map_eq_none_iff.mp hnone

/-- `find_label` is the search in the table of buckets: the hash of an entry is that of its name. -/
theorem LabelsHold.findLabel_eq (h : LabelsHold d labels) (hname : name.length ≤ maxLabelSize) :
    findLabel d name = (find nameBucket (labelTable d) name).map fun i => (nameBucket name, i) := by
  have hmatch : ∀ i, ((d.labels (nameBucket name) i).used &&
      (d.labels (nameBucket name) i).hash == hashStr name &&
      name.take maxLabelSize == (d.labels (nameBucket name) i).label.take maxLabelSize) =
      (labelTable d (nameBucket name) i).any fun e => e.1 = name := by
    intro i
    cases hused : (d.labels (nameBucket name) i).used with
    | false => simp [labelTable, hused]
    | true =>
      have hhash := h.hashed _ i hused
      have hshort := h.short _ i hused
      rw [List.take_of_length_le hname, List.take_of_length_le hshort, hhash]
      by_cases heq : (d.labels (nameBucket name) i).label = name
      · simp [labelTable, hused, heq]
      · have hne : ¬name = (d.labels (nameBucket name) i).label := fun hc => heq hc.symm
        simp [labelTable, hused, heq, hne]
  rw [findLabel, find]
  exact congrArg (fun p => ((List.finRange labelEntriesPerBucket).find? p).map
    fun i => (nameBucket name, i)) (funext hmatch)

theorem LabelsHold.foundAddress (h : LabelsHold d labels) (hname : name.length ≤ maxLabelSize) :
    foundAddress d name = (labels.find? fun l => l.1 = name).map Prod.snd := by
  rw [Cb6502.foundAddress, h.findLabel_eq hname, ← h.holds.find name, Option.map_map, Option.map_bind]
  cases hfind : find nameBucket (labelTable d) name with
  | none => rfl
  | some i =>
    rw [find] at hfind
    have hany := List.find?_some hfind
    have hused : (d.labels (nameBucket name) i).used = true := by
      cases hu : (d.labels (nameBucket name) i).used with
      | true => rfl
      | false => simp [labelTable, hu] at hany
    simp [labelTable, hused]

end Add

/-! ## A whole file -/

theorem LabelLine.accepted_eq_some {line : LabelLine} {name : CString} {addr : BitVec 16}
    (h : line.accepted = some (name, addr)) : name.length ≤ maxLabelSize := by
  cases line with
  | none => exact nomatch h
  | some read =>
    obtain ⟨raw, text⟩ := read
    rw [accepted] at h
    split at h
    · rename_i hok
      obtain ⟨rfl, -⟩ := Prod.mk.inj (Option.some.inj h)
      exact hok.1.1
    · exact nomatch h

theorem debugLoadLabels_cons (d : Debug) (line : LabelLine) (lines : List LabelLine) :
    debugLoadLabels d (line :: lines) =
      match line.accepted with
      | none => debugLoadLabels d lines
      | some (name, addr) => (addLabel d name addr).bind fun d => debugLoadLabels d lines := by
  cases line with
  | none => rfl
  | some read =>
    obtain ⟨raw, name⟩ := read
    rw [debugLoadLabels, LabelLine.accepted]
    by_cases hbounds : name.length ≤ maxLabelSize ∧ raw.toNat ≤ 0xFFFF
    · have hnot : ¬(name.length > maxLabelSize ∨ raw.toNat > 0xFFFF) := by omega
      rw [if_neg hnot]
      by_cases htext : name ≠ [] ∧ name.head? ≠ some 0x40
      · rw [if_pos htext, if_pos ⟨hbounds, htext⟩]
      · rw [if_neg htext, if_neg fun h => htext h.2]
    · have hbad : name.length > maxLabelSize ∨ raw.toNat > 0xFFFF := by omega
      rw [if_pos hbad, if_neg fun h => hbounds h.1]

/-- A line that is not accepted is passed over. -/
theorem debugLoadLabels_skipped {line : LabelLine} (h : line.accepted = none) (d : Debug)
    (lines : List LabelLine) : debugLoadLabels d (line :: lines) = debugLoadLabels d lines := by
  rw [debugLoadLabels_cons, h]

theorem debugLoadLabels_accepted {line : LabelLine} {name : CString} {addr : BitVec 16}
    (h : line.accepted = some (name, addr)) (d : Debug) (lines : List LabelLine) :
    debugLoadLabels d (line :: lines) =
      (addLabel d name addr).bind fun d => debugLoadLabels d lines := by
  rw [debugLoadLabels_cons, h]

section File
variable {d : Debug} {labels : List Label} {lines : List LabelLine}

/-- Where no bucket overflows, the lines are all loaded, behind the labels that the table has. -/
theorem LabelsHold.load (h : LabelsHold d labels)
    (hfits : ∀ b, (chain nameBucket (labels ++ lines.filterMap LabelLine.accepted) b).length ≤
      labelEntriesPerBucket) :
    ∃ d', debugLoadLabels d lines = some d' ∧
      LabelsHold d' (labels ++ lines.filterMap LabelLine.accepted) := by
  induction lines generalizing d labels with
  | nil =>
    refine ⟨d, rfl, ?_⟩
    rw [List.filterMap_nil, List.append_nil]
    exact h
  | cons line lines ih =>
    cases haccepted : line.accepted with
    | none =>
      rw [List.filterMap_cons_none haccepted] at hfits ⊢
      rw [debugLoadLabels_skipped haccepted]
      exact ih h hfits
    | some label =>
      obtain ⟨name, addr⟩ := label
      rw [List.filterMap_cons_some haccepted] at hfits ⊢
      obtain ⟨-, d', hadd, hd'⟩ := h.addLabel_free addr
        (LabelLine.accepted_eq_some haccepted) (chain_lt_of_fits hfits)
      rw [List.append_cons] at hfits ⊢
      obtain ⟨d'', hload, hd''⟩ := ih hd' hfits
      refine ⟨d'', ?_, hd''⟩
      rw [debugLoadLabels_accepted haccepted, hadd]
      exact hload

theorem LabelsHold.of_load {d' : Debug} (h : LabelsHold d labels)
    (hload : debugLoadLabels d lines = some d') :
    LabelsHold d' (labels ++ lines.filterMap LabelLine.accepted) := by
  induction lines generalizing d labels with
  | nil =>
    rw [List.filterMap_nil, List.append_nil]
    exact Option.some.inj hload ▸ h
  | cons line lines ih =>
    cases haccepted : line.accepted with
    | none =>
      rw [debugLoadLabels_skipped haccepted] at hload
      rw [List.filterMap_cons_none haccepted]
      exact ih h hload
    | some label =>
      obtain ⟨name, addr⟩ := label
      rw [debugLoadLabels_accepted haccepted] at hload
      rw [List.filterMap_cons_some haccepted, List.append_cons]
      have hname := LabelLine.accepted_eq_some haccepted
      by_cases hfree : (chain nameBucket labels (nameBucket name)).length < labelEntriesPerBucket
      · obtain ⟨-, next, hadd, hnext⟩ := h.addLabel_free addr hname hfree
        rw [hadd] at hload
        exact ih hnext hload
      · rw [h.addLabel_full addr hname (Nat.not_lt.mp hfree)] at hload
        exact nomatch hload

end File

/-- No bucket gets more labels than it has entries. -/
def LabelsFit (labels : List Label) : Prop :=
  ∀ b, (chain nameBucket labels b).length ≤ labelEntriesPerBucket

theorem LabelsFit.stored {labels : List Label} (h : LabelsFit labels) :
    storedLabels labels = labels := by
  have hrun : ∀ stored rest : List Label, LabelsFit (stored ++ rest) →
      rest.foldl (fun stored label =>
        if (chain nameBucket stored (nameBucket label.1)).length < labelEntriesPerBucket
        then stored ++ [label] else stored) stored = stored ++ rest := by
    intro stored rest
    induction rest generalizing stored with
    | nil => exact fun _ => (List.append_nil _).symm
    | cons label rest ih =>
      intro hfits
      have hfree := chain_lt_of_fits hfits
      rw [List.append_cons] at hfits
      rw [List.foldl_cons, if_pos hfree, ih _ hfits, ← List.append_cons]
  exact hrun [] labels h

theorem LabelsFit.before {labels after : List Label} (h : LabelsFit (labels ++ after)) :
    LabelsFit labels := fun b =>
  ((List.sublist_append_left labels after).filter _).length_le.trans (h b)

/-- From `debug_init`, and every label file. -/
theorem labels_lossless_iff (lines : List LabelLine) :
    LabelsLossless lines ↔ LabelsFit (lines.filterMap LabelLine.accepted) := by
  constructor
  · intro h
    obtain ⟨d, hload, -⟩ := h.finds
    exact (debugInit_holds.of_load hload).holds.fits
  · intro hfits
    refine ⟨?_, ?_⟩
    · rintro before line name addr ⟨after, rfl⟩ haccepted
      rw [List.filterMap_append, List.filterMap_append, List.filterMap_cons_some haccepted,
        List.filterMap_nil, ← List.append_cons] at hfits
      obtain ⟨d, hload, hd⟩ := debugInit_holds.load hfits.before
      have hname := LabelLine.accepted_eq_some haccepted
      exact ⟨d, hload, (hd.addLabel_free addr hname (chain_lt_of_fits hfits)).1⟩
    · obtain ⟨d, hload, hd⟩ := debugInit_holds.load hfits
      refine ⟨d, hload, fun name hname => ?_⟩
      rw [hfits.stored]
      exact hd.foundAddress hname

/-- The same label five times. -/
def sameLabels : List LabelLine := List.replicate 5 (some (0x1000, [0x78]))

/-- The fifth is written through the pointer that is not assigned. -/
theorem fifth_label_unassigned : ¬LabelsLossless sameLabels ∧
    debugLoadLabels debugInit sameLabels = none := by
  have hnone : debugLoadLabels debugInit sameLabels = none := by decide +kernel
  refine ⟨fun h => ?_, hnone⟩
  obtain ⟨d, hload, -⟩ := h.finds
  rw [hnone] at hload
  exact nomatch hload

end Cb6502
