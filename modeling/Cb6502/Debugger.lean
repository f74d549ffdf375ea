import Mathlib.Logic.Function.Basic

/- The debugger's breakpoint and label tables (core/src/debugger.c).

   Names are the bytes of a C string, without its end. The cc65 debug info is a function from
   names to symbol lists, as `cc65_symbol_byname` returns them. -/
namespace Cb6502

/-- `MAX_BREAKPOINTS` -/
def maxBreakpoints : Nat := 8

/-- `FNV1a_OFFSET_BASIS` -/
def fnv1aOffsetBasis : BitVec 32 := 2166136261

/-- `FNV1a_PRIME` -/
def fnv1aPrime : BitVec 32 := 16777619

/-- `LABEL_TABLE_SIZE` -/
def labelTableSize : Nat := 1024

/-- `LABEL_ENTRIES_PER_BUCKET` -/
def labelEntriesPerBucket : Nat := 4

/-- `MAX_LABEL_SIZE` -/
def maxLabelSize : Nat := 64

abbrev CString := List (BitVec 8)

/-- `dbg_label_t`; `label` has at most `MAX_LABEL_SIZE` bytes. -/
structure DbgLabel where
  hash : BitVec 32 := 0
  label : CString := []
  address : BitVec 16 := 0
  used : Bool := false
  deriving DecidableEq

/-- `cc65_symbol_type` -/
inductive CC65SymbolType where
  | symEquate | symLabel | symImport
  deriving DecidableEq

/-- `cc65_symboldata`, the fields the debugger reads. -/
structure CC65SymbolData where
  symbolName : CString
  symbolType : CC65SymbolType
  symbolValue : Int
  deriving DecidableEq

/-- A place in the label table. -/
abbrev LabelRef := Fin labelTableSize × Fin labelEntriesPerBucket

/-- `breakpoint_t` -/
structure Breakpoint where
  used : Bool := false
  symValid : Bool := false
  addr : BitVec 16 := 0
  label : Option LabelRef := none
  sym : Option CC65SymbolData := none
  deriving DecidableEq

/-- `struct debug_s`: the tables and the debug info. -/
structure Debug where
  breakpoints : Fin maxBreakpoints → Breakpoint := fun _ => {}
  labels : Fin labelTableSize → Fin labelEntriesPerBucket → DbgLabel := fun _ _ => {}
  dbginfo : Option (CString → Option (List CC65SymbolData)) := none

/-- `debug_init`: everything is zero. -/
def debugInit : Debug := {}

/-! ## Labels -/

/-- `hash_str`; the characters are signed. -/
def hashStr (str : CString) : BitVec 32 :=
  str.foldl (fun hash c => (hash ^^^ c.signExtend 32) * fnv1aPrime) fnv1aOffsetBasis

/-- The bucket of a hash. -/
def labelBucket (hash : BitVec 32) : Fin labelTableSize :=
  ⟨hash.toNat % labelTableSize, Nat.mod_lt _ (by decide)⟩

/-- `find_label` -/
def findLabel (handle : Debug) (name : CString) : Option LabelRef :=
  let hash := hashStr name
  let bucket := labelBucket hash
  ((List.finRange labelEntriesPerBucket).find? fun i =>
    let entry := handle.labels bucket i
    entry.used && entry.hash == hash && name.take maxLabelSize == entry.label.take maxLabelSize).map
      fun i => (bucket, i)

/-! ## Breakpoints -/

/-- The search for a breakpoint that is not used. -/
def Debug.unused (handle : Debug) : Option (Fin maxBreakpoints) :=
  (List.finRange maxBreakpoints).find? fun index => !(handle.breakpoints index).used

def Debug.setBreakpoint (handle : Debug) (index : Fin maxBreakpoints) (bp : Breakpoint) : Debug :=
  { handle with breakpoints := Function.update handle.breakpoints index bp }

/-- `debug_set_breakpoint_addr`: whether it succeeds, and `*breakpoint_handle` after it. -/
def debugSetBreakpointAddr (handle : Debug) (breakpointHandle : BitVec 32) (addr : BitVec 16) :
    Bool × BitVec 32 × Debug :=
  match handle.unused with
  | some index =>
    (true, BitVec.ofNat 32 index,
      handle.setBreakpoint index { handle.breakpoints index with used := true, addr, label := none })
  | none => (false, breakpointHandle, handle)

/-- The first label symbol that the debug info has for a name. -/
def labelSymbol (handle : Debug) (label : CString) : Option CC65SymbolData :=
  handle.dbginfo.bind fun symbolByname =>
    (symbolByname label).bind fun syminfo =>
      syminfo.find? fun data => data.symbolType == .symLabel

/-- `debug_set_breakpoint_label` -/
def debugSetBreakpointLabel (handle : Debug) (breakpointHandle : BitVec 32) (label : CString) :
    Bool × BitVec 32 × Debug :=
  match handle.unused with
  | none => (false, breakpointHandle, handle)
  | some index =>
    match labelSymbol handle label with
    | some data =>
      -- the handle is not stored on this path
      (true, breakpointHandle, handle.setBreakpoint index { handle.breakpoints index with
        used := true
        addr := BitVec.ofInt 16 data.symbolValue
        label := none
        symValid := true
        sym := some data })
    | none =>
      match findLabel handle label with
      | none => (false, breakpointHandle, handle)
      | some labelInfo =>
        match handle.unused with
        | some index =>
          (true, BitVec.ofNat 32 index, handle.setBreakpoint index { handle.breakpoints index with
            used := true
            addr := (handle.labels labelInfo.1 labelInfo.2).address
            label := some labelInfo })
        | none => (false, breakpointHandle, handle)

/-- `debug_clear_breakpoint` -/
def debugClearBreakpoint (handle : Debug) (breakpointHandle : BitVec 32) : Debug :=
  if h : breakpointHandle.toNat < maxBreakpoints then
    let index : Fin maxBreakpoints := ⟨breakpointHandle.toNat, h⟩
    handle.setBreakpoint index { handle.breakpoints index with
      used := false, label := none, symValid := false }
  else handle

/-- `breakpoint_info_t` -/
structure BreakpointInfo where
  handle : BitVec 32
  address : BitVec 16
  label : Option CString
  deriving DecidableEq

/-- The entry of a used breakpoint. -/
def breakpointInfo (handle : Debug) (index : Fin maxBreakpoints) : BreakpointInfo :=
  let bp := handle.breakpoints index
  { handle := BitVec.ofNat 32 index
    address := bp.addr
    label :=
      match bp.label with
      | some labelInfo => some (handle.labels labelInfo.1 labelInfo.2).label
      | none => if bp.symValid then bp.sym.map (·.symbolName) else none }

/-- `debug_get_breakpoints` with a buffer of `numBreakpoints` entries: the entries filled in and
the total. -/
def debugGetBreakpoints (handle : Debug) (numBreakpoints : Nat) : List BreakpointInfo × Nat :=
  let used := (List.finRange maxBreakpoints).filter fun index => (handle.breakpoints index).used
  ((used.take numBreakpoints).map (breakpointInfo handle), used.length)

/-- `debug_set_dbginfo`: more than one debug info is ignored, none removes it. -/
def debugSetDbginfo (handle : Debug) (numDbginfo : Nat)
    (dbginfo : Option (CString → Option (List CC65SymbolData))) : Debug :=
  if numDbginfo > 1 then handle
  else if numDbginfo = 0 then
    { handle with
      breakpoints := fun index => { handle.breakpoints index with symValid := false }
      dbginfo := none }
  else { handle with dbginfo }

end Cb6502
