import Cb6502.Debugger
import Cb6502.Lib.SlotTable

/- The breakpoint table as a map from handles to addresses. `RunOk` is what a caller relies on:
   a set that succeeds gives it a new handle, one that fails changes nothing and the table is
   full or the label unknown, and the listing is what was set and not cleared. The table is
   an allocation table (`SlotTable`), so this holds as long as the caller gets its handle. A set
   through the debug info does not store it, and the exact condition is that the caller's
   variable has it already. -/
namespace Cb6502

open SlotTable

/-! ## Handles and addresses -/

abbrev HandleMap := BitVec 32 → Option (BitVec 16)

def HandleMap.set (m : HandleMap) (h : BitVec 32) (addr : Option (BitVec 16)) : HandleMap :=
  Function.update m h addr

/-- The addresses of the used breakpoints. -/
def Debug.slots (d : Debug) : Table maxBreakpoints (BitVec 16) := fun index =>
  if (d.breakpoints index).used then some (d.breakpoints index).addr else none

/-- A handle is the number of a slot. -/
def handleMap (t : Table maxBreakpoints (BitVec 16)) : HandleMap := fun h =>
  if hlt : h.toNat < maxBreakpoints then t ⟨h.toNat, hlt⟩ else none

/-- The listing of all breakpoints is the map. -/
def Debug.Lists (d : Debug) (m : HandleMap) : Prop :=
  ∀ h addr, (h, addr) ∈ (debugGetBreakpoints d maxBreakpoints).1.map
    (fun info => (info.handle, info.address)) ↔ m h = some addr

section Maps
variable (t : Table maxBreakpoints (BitVec 16)) (index : Fin maxBreakpoints)

theorem toNat_handle : (BitVec.ofNat 32 index).toNat = index := by
  have hlt : index.val < maxBreakpoints := index.isLt
  have hmax : maxBreakpoints = 8 := rfl
  rw [BitVec.toNat_ofNat, Nat.mod_eq_of_lt (by omega)]

theorem handle_eq_iff (h : BitVec 32) : h = BitVec.ofNat 32 index ↔ h.toNat = index := by
  rw [← BitVec.toNat_inj, toNat_handle]

@[simp] theorem handleMap_handle : handleMap t (BitVec.ofNat 32 index) = t index := by
  unfold handleMap
  have hlt : (BitVec.ofNat 32 index).toNat < maxBreakpoints := by
    rw [toNat_handle]
    exact index.isLt
  rw [dif_pos hlt]
  congr 1
  exact Fin.ext (toNat_handle index)

/-- A change of one slot is a change at its handle. -/
theorem handleMap_update (addr : Option (BitVec 16)) :
    handleMap (Function.update t index addr) = (handleMap t).set (BitVec.ofNat 32 index) addr := by
  funext h
  show handleMap (Function.update t index addr) h = Function.update (handleMap t) _ addr h
  rw [Function.update_apply]
  by_cases heq : h = BitVec.ofNat 32 index
  · subst heq
    rw [if_pos rfl, handleMap_handle, Function.update_self]
  · rw [if_neg heq]
    unfold handleMap
    split
    · rename_i hlt
      apply Function.update_of_ne
      intro hindex
      apply heq
      apply (handle_eq_iff index h).mpr
      exact congrArg Fin.val hindex
    · rfl

theorem handleMap_entries (h : BitVec 32) (addr : BitVec 16) :
    (h, addr) ∈ (entries t).map (fun e => (BitVec.ofNat 32 e.1, e.2)) ↔ handleMap t h = some addr := by
  rw [List.mem_map]
  constructor
  · intro hmem
    obtain ⟨⟨i, a⟩, hentry, heq⟩ := hmem
    obtain ⟨rfl, rfl⟩ := Prod.mk.inj heq
    rw [handleMap_handle]
    exact (mem_entries t i a).mp hentry
  · intro hmap
    unfold handleMap at hmap
    split at hmap
    · rename_i hlt
      refine ⟨(⟨h.toNat, hlt⟩, addr), (mem_entries t _ addr).mpr hmap, ?_⟩
      have hhandle : h = BitVec.ofNat 32 h.toNat := (handle_eq_iff ⟨h.toNat, hlt⟩ h).mpr rfl
      exact Prod.ext hhandle.symm rfl
    · cases hmap

end Maps

section Listing
variable (d : Debug)

theorem unused_eq_firstFree : d.unused = firstFree d.slots := by
  unfold Debug.unused firstFree
  congr 1
  funext index
  unfold Debug.slots
  cases (d.breakpoints index).used <;> rfl

/-- The listing has the used slots, in order. -/
theorem getBreakpoints_entries :
    (debugGetBreakpoints d maxBreakpoints).1.map (fun info => (info.handle, info.address)) =
      (entries d.slots).map fun e => (BitVec.ofNat 32 e.1, e.2) := by
  have hlength : ((List.finRange maxBreakpoints).filter
      fun index => (d.breakpoints index).used).length ≤ maxBreakpoints :=
    Nat.le_trans (List.length_filter_le _ _) (Nat.le_of_eq List.length_finRange)
  unfold debugGetBreakpoints entries
  dsimp only
  rw [List.take_of_length_le hlength, List.map_map, ← List.filterMap_eq_map, List.filterMap_filter,
    List.map_filterMap]
  congr 1
  funext index
  unfold Debug.slots
  cases (d.breakpoints index).used <;> rfl

theorem lists_handleMap : d.Lists (handleMap d.slots) := by
  intro h addr
  rw [getBreakpoints_entries]
  exact handleMap_entries d.slots h addr

/-- There is one map that the listing agrees with. -/
theorem Debug.Lists.eq {d : Debug} {m : HandleMap} (hlists : d.Lists m) : m = handleMap d.slots := by
  funext h
  apply Option.ext
  intro addr
  exact (hlists h addr).symm.trans (lists_handleMap d h addr)

theorem slots_setBreakpoint (index : Fin maxBreakpoints) (bp : Breakpoint) :
    (d.setBreakpoint index bp).slots =
      Function.update d.slots index (if bp.used then some bp.addr else none) := by
  funext i
  rw [Function.update_apply]
  show (if (Function.update d.breakpoints index bp i).used then
    some (Function.update d.breakpoints index bp i).addr else none) = _
  rw [Function.update_apply]
  by_cases hi : i = index
  · rw [if_pos hi, if_pos hi]
  · rw [if_neg hi, if_neg hi]
    rfl

theorem slots_release (index : Fin maxBreakpoints) {bp : Breakpoint} (hused : bp.used = false) :
    (d.setBreakpoint index bp).slots = release d.slots index := by
  rw [slots_setBreakpoint, hused]
  rfl

theorem slots_setDbginfo (numDbginfo : Nat) (dbginfo : Option (CString → Option (List CC65SymbolData))) :
    (debugSetDbginfo d numDbginfo dbginfo).slots = d.slots := by
  unfold debugSetDbginfo
  split
  · rfl
  · split <;> rfl

end Listing

/-! ## Operations -/

inductive DebugOp where
  | setAddr (breakpointHandle : BitVec 32) (addr : BitVec 16)
  | setLabel (breakpointHandle : BitVec 32) (label : CString)
  | clear (breakpointHandle : BitVec 32)
  | setDbginfo (numDbginfo : Nat) (dbginfo : Option (CString → Option (List CC65SymbolData)))

/-- The state after the operation. -/
def DebugOp.step (op : DebugOp) (d : Debug) : Debug :=
  match op with
  | .setAddr bh addr => (debugSetBreakpointAddr d bh addr).2.2
  | .setLabel bh label => (debugSetBreakpointLabel d bh label).2.2
  | .clear bh => debugClearBreakpoint d bh
  | .setDbginfo numDbginfo dbginfo => debugSetDbginfo d numDbginfo dbginfo

/-- The address of a label: by the debug info, or else by the label table. -/
def labelAddress (d : Debug) (label : CString) : Option (BitVec 16) :=
  match labelSymbol d label with
  | some data => some (BitVec.ofInt 16 data.symbolValue)
  | none => (findLabel d label).map fun r => (d.labels r.1 r.2).address

/-- The map after a set: with the handle the caller has, if it succeeds. -/
def recordSet (r : Bool × BitVec 32 × Debug) (addr : Option (BitVec 16)) (m : HandleMap) : HandleMap :=
  if r.1 then m.set r.2.1 addr else m

/-- What the caller knows after the operation. -/
def DebugOp.record (op : DebugOp) (d : Debug) (m : HandleMap) : HandleMap :=
  match op with
  | .setAddr bh addr => recordSet (debugSetBreakpointAddr d bh addr) (some addr) m
  | .setLabel bh label => recordSet (debugSetBreakpointLabel d bh label) (labelAddress d label) m
  | .clear bh => m.set bh none
  | .setDbginfo _ _ => m

/-- A set succeeds with a handle that was not in use, or fails, without effect, on a full table
or an unknown label. -/
def SetOk (r : Bool × BitVec 32 × Debug) (bh : BitVec 32) (d : Debug) (addr : Option (BitVec 16))
    (m : HandleMap) : Prop :=
  if r.1 then r.2.1.toNat < maxBreakpoints ∧ m r.2.1 = none
  else r.2 = (bh, d) ∧ ((∀ h : BitVec 32, h.toNat < maxBreakpoints → (m h).isSome = true) ∨ addr = none)

def DebugOp.Ok (op : DebugOp) (d : Debug) (m : HandleMap) : Prop :=
  match op with
  | .setAddr bh addr => SetOk (debugSetBreakpointAddr d bh addr) bh d (some addr) m
  | .setLabel bh label => SetOk (debugSetBreakpointLabel d bh label) bh d (labelAddress d label) m
  | .clear _ | .setDbginfo _ _ => True

/-- The set is not through the debug info, or the caller's variable has the handle already. -/
def DebugOp.KnowsHandle (op : DebugOp) (d : Debug) : Prop :=
  match op with
  | .setLabel bh label => (labelSymbol d label).isSome = true →
      ∀ index, d.unused = some index → bh = BitVec.ofNat 32 index
  | .setAddr _ _ | .clear _ | .setDbginfo _ _ => True

/-- In every state of the run the listing is the caller's map, and every set is as it should be. -/
def RunOk : List DebugOp → Debug → HandleMap → Prop
  | [], d, m => d.Lists m
  | op :: ops, d, m => d.Lists m ∧ op.Ok d m ∧ RunOk ops (op.step d) (op.record d m)

/-- Each set of the run leaves the caller with the handle. -/
def EachKnows : List DebugOp → Debug → Prop
  | [], _ => True
  | op :: ops, d => op.KnowsHandle d ∧ EachKnows ops (op.step d)

/-! ## What a set does -/

section Sets
variable (d : Debug) (bh : BitVec 32)

/-- A set on a free slot, with the handle stored. -/
structure SetsSlot (r : Bool × BitVec 32 × Debug) (d : Debug) (index : Fin maxBreakpoints)
    (addr : BitVec 16) : Prop where
  succeeds : r.1 = true
  handle : r.2.1 = BitVec.ofNat 32 index
  slots : r.2.2.slots = put d.slots index addr

theorem SetsSlot.ok {d : Debug} {bh : BitVec 32} {r : Bool × BitVec 32 × Debug}
    {index : Fin maxBreakpoints} {addr : BitVec 16} (h : SetsSlot r d index addr)
    (hunused : d.unused = some index) :
    SetOk r bh d (some addr) (handleMap d.slots) ∧
      handleMap r.2.2.slots = recordSet r (some addr) (handleMap d.slots) := by
  rw [unused_eq_firstFree] at hunused
  constructor
  · rw [SetOk, if_pos h.succeeds, h.handle, toNat_handle, handleMap_handle]
    exact ⟨index.isLt, firstFree_eq_some hunused⟩
  · rw [recordSet, if_pos h.succeeds, h.handle, h.slots]
    exact handleMap_update d.slots index (some addr)

/-- A set that fails. -/
theorem setOk_failed (addr : Option (BitVec 16)) (h : d.unused = none ∨ addr = none) :
    SetOk (false, bh, d) bh d addr (handleMap d.slots) ∧
      handleMap d.slots = recordSet (false, bh, d) addr (handleMap d.slots) := by
  refine ⟨?_, (if_neg Bool.false_ne_true).symm⟩
  rw [SetOk, if_neg Bool.false_ne_true]
  refine ⟨rfl, ?_⟩
  rcases h with hfull | hunknown
  · left
    intro h hlt
    -- no slot is free, so every handle below the maximum is in the map
    rw [unused_eq_firstFree] at hfull
    rw [handleMap, dif_pos hlt]
    exact firstFree_eq_none hfull ⟨h.toNat, hlt⟩
  · exact .inr hunknown

theorem setBreakpointAddr_ok (addr : BitVec 16) :
    SetOk (debugSetBreakpointAddr d bh addr) bh d (some addr) (handleMap d.slots) ∧
      handleMap (debugSetBreakpointAddr d bh addr).2.2.slots =
        recordSet (debugSetBreakpointAddr d bh addr) (some addr) (handleMap d.slots) := by
  unfold debugSetBreakpointAddr
  cases hunused : d.unused with
  | none => exact setOk_failed d bh (some addr) (.inl hunused)
  | some index =>
    apply SetsSlot.ok _ hunused
    exact ⟨rfl, rfl, slots_setBreakpoint d index _⟩

/-- A set through the debug info leaves the caller's variable as it was. -/
theorem setBreakpointLabel_symbol {label : CString} {data : CC65SymbolData}
    (hsymbol : labelSymbol d label = some data) {index : Fin maxBreakpoints}
    (hunused : d.unused = some index) :
    (debugSetBreakpointLabel d bh label).1 = true ∧ (debugSetBreakpointLabel d bh label).2.1 = bh ∧
      (debugSetBreakpointLabel d bh label).2.2.slots =
        put d.slots index (BitVec.ofInt 16 data.symbolValue) := by
  unfold debugSetBreakpointLabel
  rw [hunused, hsymbol]
  exact ⟨rfl, rfl, slots_setBreakpoint d index _⟩

theorem setBreakpointLabel_ok (label : CString) (hknows : DebugOp.KnowsHandle (.setLabel bh label) d) :
    SetOk (debugSetBreakpointLabel d bh label) bh d (labelAddress d label) (handleMap d.slots) ∧
      handleMap (debugSetBreakpointLabel d bh label).2.2.slots =
        recordSet (debugSetBreakpointLabel d bh label) (labelAddress d label) (handleMap d.slots) := by
  cases hunused : d.unused with
  | none =>
    have hfail : debugSetBreakpointLabel d bh label = (false, bh, d) := by
      rw [debugSetBreakpointLabel, hunused]
    rw [hfail]
    exact setOk_failed d bh _ (.inl hunused)
  | some index =>
    cases hsymbol : labelSymbol d label with
    | some data =>
      obtain ⟨hsucceeds, hhandle, hslots⟩ := setBreakpointLabel_symbol d bh hsymbol hunused
      -- the caller's variable has the handle before the call
      have hsome : (labelSymbol d label).isSome = true := by
        rw [hsymbol]
        rfl
      rw [labelAddress, hsymbol]
      apply SetsSlot.ok _ hunused
      exact ⟨hsucceeds, hhandle.trans (hknows hsome index hunused), hslots⟩
    | none =>
      unfold debugSetBreakpointLabel
      rw [hunused, labelAddress, hsymbol]
      dsimp only
      cases findLabel d label with
      | none => exact setOk_failed d bh none (.inr rfl)
      | some labelInfo =>
        apply SetsSlot.ok _ hunused
        exact ⟨rfl, rfl, slots_setBreakpoint d index _⟩

theorem clearBreakpoint_map :
    handleMap (debugClearBreakpoint d bh).slots = (handleMap d.slots).set bh none := by
  unfold debugClearBreakpoint
  by_cases hlt : bh.toNat < maxBreakpoints
  · have hhandle : bh = BitVec.ofNat 32 bh.toNat := (handle_eq_iff ⟨bh.toNat, hlt⟩ bh).mpr rfl
    rw [dif_pos hlt]
    dsimp only
    rw [slots_release d _ rfl, release, handleMap_update]
    exact congrArg (fun h => (handleMap d.slots).set h none) hhandle.symm
  · -- no slot has the handle
    rw [dif_neg hlt]
    have hnone : handleMap d.slots bh = none := dif_neg hlt
    show handleMap d.slots = Function.update (handleMap d.slots) bh none
    rw [← hnone, Function.update_eq_self]

end Sets

/-! ## Runs -/

/-- An operation that leaves the caller with the handle keeps the map in step. -/
theorem DebugOp.ok_of_knows (op : DebugOp) (d : Debug) (h : op.KnowsHandle d) :
    op.Ok d (handleMap d.slots) ∧ handleMap (op.step d).slots = op.record d (handleMap d.slots) := by
  cases op with
  | setAddr bh addr => exact setBreakpointAddr_ok d bh addr
  | setLabel bh label => exact setBreakpointLabel_ok d bh label h
  | clear bh => exact ⟨trivial, clearBreakpoint_map d bh⟩
  | setDbginfo numDbginfo dbginfo =>
    exact ⟨trivial, congrArg handleMap (slots_setDbginfo d numDbginfo dbginfo)⟩

/-- After one that does not, the listing has a breakpoint that the caller does not know of. -/
theorem DebugOp.not_lists_of_not_knows (op : DebugOp) (d : Debug) (h : ¬op.KnowsHandle d) :
    ¬(op.step d).Lists (op.record d (handleMap d.slots)) := by
  cases op with
  | setAddr bh addr => exact absurd trivial h
  | clear bh => exact absurd trivial h
  | setDbginfo numDbginfo dbginfo => exact absurd trivial h
  | setLabel bh label =>
    obtain ⟨hsome, hindex⟩ := Classical.not_imp.mp h
    obtain ⟨index, hindex⟩ := Classical.not_forall.mp hindex
    obtain ⟨hunused, hne⟩ := Classical.not_imp.mp hindex
    obtain ⟨data, hsymbol⟩ := Option.isSome_iff_exists.mp hsome
    obtain ⟨hsucceeds, hhandle, hslots⟩ := setBreakpointLabel_symbol d bh hsymbol hunused
    intro hlists
    -- the slot is free in the caller's map and used in the table
    have hfree : d.slots index = none := firstFree_eq_some ((unused_eq_firstFree d).symm.trans hunused)
    have hmaps := congrFun hlists.eq (BitVec.ofNat 32 index)
    have hknown : DebugOp.record (.setLabel bh label) d (handleMap d.slots) (BitVec.ofNat 32 index) =
        none := by
      show recordSet _ _ _ _ = none
      rw [recordSet, if_pos hsucceeds, hhandle]
      show Function.update (handleMap d.slots) bh _ (BitVec.ofNat 32 index) = none
      rw [Function.update_of_ne (fun heq => hne heq.symm), handleMap_handle, hfree]
    have hused : handleMap (DebugOp.step (.setLabel bh label) d).slots (BitVec.ofNat 32 index) =
        some (BitVec.ofInt 16 data.symbolValue) := by
      show handleMap (debugSetBreakpointLabel d bh label).2.2.slots _ = _
      rw [hslots, handleMap_handle, put_apply, if_pos rfl]
    rw [hknown, hused] at hmaps
    cases hmaps

theorem RunOk.lists {ops : List DebugOp} {d : Debug} {m : HandleMap} (h : RunOk ops d m) : d.Lists m := by
  cases ops with
  | nil => exact h
  | cons op ops => exact h.1

theorem runOk_iff (ops : List DebugOp) (d : Debug) :
    RunOk ops d (handleMap d.slots) ↔ EachKnows ops d := by
  induction ops generalizing d with
  | nil => exact iff_of_true (lists_handleMap d) trivial
  | cons op ops ih =>
    show (_ ∧ _ ∧ _) ↔ (_ ∧ _)
    by_cases hknows : op.KnowsHandle d
    -- the caller's map is the table again after the operation
    · obtain ⟨hok, hrecord⟩ := op.ok_of_knows d hknows
      rw [← hrecord, ih (op.step d)]
      exact ⟨fun h => ⟨hknows, h.2.2⟩, fun h => ⟨lists_handleMap d, hok, h.2⟩⟩
    · exact iff_of_false (fun h => op.not_lists_of_not_knows d hknows h.2.2.lists)
        fun h => hknows h.1

/-- From `debug_init`, with any labels and debug info loaded, the breakpoint table is the
caller's map from handles to addresses exactly on the runs where every set through the debug
info finds its handle in the caller's variable. -/
theorem breakpoint_table_is_map
    (labels : Fin labelTableSize → Fin labelEntriesPerBucket → DbgLabel)
    (dbginfo : Option (CString → Option (List CC65SymbolData))) (ops : List DebugOp) :
    RunOk ops { debugInit with labels, dbginfo } (fun _ => none) ↔
      EachKnows ops { debugInit with labels, dbginfo } := by
  have hempty : handleMap (Debug.slots { debugInit with labels, dbginfo }) = fun _ => none := by
    funext h
    unfold handleMap
    split <;> rfl
  rw [← hempty]
  exact runOk_iff ops _

/-- A debug info that has one symbol, the label `m` at `$8000`. -/
def mainInfo : CString → Option (List CC65SymbolData) := fun name =>
  if name = [0x6D] then some [{ symbolName := [0x6D], symbolType := .symLabel, symbolValue := 0x8000 }]
  else none

/-- A breakpoint at `$1234`, then one at the label, with the first handle left in the variable. -/
theorem symbol_breakpoint_has_no_handle :
    ¬ ∀ dbginfo ops, RunOk ops { debugInit with dbginfo } (fun _ => none) := by
  intro h
  have hlists := (h (some mainInfo) [.setAddr 0 0x1234, .setLabel 0 [0x6D]]).2.2.2.2
  exact absurd ((hlists 1 0x8000).mp (by decide)) (by decide)

end Cb6502
