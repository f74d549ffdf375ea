import Cb6502.Arbitration
import Cb6502.IsaRuns

/- Memory maps: boards of RAM, ROM and holes. A map says which byte a read of an address finds and
   whether a write of it is kept; a RAM is a map that keeps every write. Any memories connected
   through decoders of ranges and masks are one (`boardMap`): the connection that answers first
   decides what an address is, and as each memory maps its addresses by a subtraction, no two
   addresses share a byte.

   What is proved:
     1. `Bus.Mapped.kept`, `hold_eq`; so `board_reads_last_write` (in every run every read finds
        the last write that its address kept, or the byte that was there first).
     2. `onFlat_read`, `onFlat_write`, `onFlat_tick`; so `map_runs_machine` (every run of a program
        that writes where writes are kept is a run of the instruction set). -/
namespace Cb6502

open Dialogue

variable {ω : Type}

/-- Connections that hold a byte at each address while the devices satisfy `inv`; `keeps` tells which
addresses a write changes. -/
structure MemoryMap (ω : Type) where
  conns : List (BusConn ω)
  inv : ω → Prop
  mem : ω → Mem
  keeps : BitVec 16 → Bool
  stores : StoreConns conns
  read : ∀ d, inv d → ∀ addr sync, storeRead conns d addr false sync = mem d addr
  stays : ∀ d, inv d → ∀ addr value, inv (storeWrite conns d addr value)
  write : ∀ d, inv d → ∀ addr value, mem (storeWrite conns d addr value) =
    if keeps addr then Function.update (mem d) addr value else mem d

/-- The bus has the connections of the map and no tracer. -/
structure Bus.Mapped (M : MemoryMap ω) (bus : Bus ω) : Prop where
  conns : bus.connlist = M.conns
  tracers : bus.tracelist = []
  inv : M.inv bus.devs

section Transactions
variable {M : MemoryMap ω} {bus : Bus ω}

theorem Bus.Mapped.stores (h : bus.Mapped M) : bus.Stores :=
  ⟨by rw [h.conns]; exact M.stores, h.tracers⟩

theorem Bus.Mapped.read_eq (h : bus.Mapped M) (addr : BitVec 16) (sync : Bool) :
    busReadPeekI bus addr false sync =
      (M.mem bus.devs addr, bus.commit ⟨addr, M.mem bus.devs addr, false, sync⟩) := by
  rw [h.stores.busReadPeekI, h.conns, M.read _ h.inv]

theorem Bus.Mapped.write_eq (h : bus.Mapped M) (addr : BitVec 16) (value : BitVec 8) :
    busWrite bus addr value =
      Bus.commit { bus with devs := storeWrite M.conns bus.devs addr value } ⟨addr, value, true, false⟩ := by
  rw [h.stores.busWrite, h.conns]

theorem Bus.Mapped.kept : Bus.Kept (Bus.Mapped M) where
  read h addr sync := by
    rw [h.read_eq]
    exact ⟨h.conns, h.tracers, h.inv⟩
  write h addr value := by
    rw [h.write_eq]
    exact ⟨h.conns, h.tracers, M.stays _ h.inv addr value⟩

theorem Bus.Mapped.ackNmi (h : bus.Mapped M) (cpu : Cpu) : (bus.ackNmi cpu).Mapped M := by
  refine ⟨by rw [Bus.ackNmi_connlist]; exact h.conns, ?_, by rw [Bus.ackNmi_devs]; exact h.inv⟩
  exact (h.stores.ackNmi cpu).tracers

end Transactions

/-! ## Runs -/

/-- The runs of the emulator from `cpu_init` on a map, with `devs` behind it: changes of the votes,
stalled ticks, and `n` ticks that were not stalled. -/
inductive MapRun (M : MemoryMap ω) (devs : ω) : Nat → Emu ω → Prop where
  | init : MapRun M devs 0 { bus := Bus.init M.conns [] devs, cpu := cpuInit }
  | votes {n : Nat} {e : Emu ω} (v : SigVotes) (h : MapRun M devs n e) :
      MapRun M devs n { e with bus.sigvotes := v }
  | stalled {n : Nat} {e e' : Emu ω} (fuel : Nat) (h : MapRun M devs n e)
      (hrdy : e.bus.sigvotes.rdy ≠ 0) (ht : cpuTick fuel e = some e') : MapRun M devs n e'
  | tick {n : Nat} {e e' : Emu ω} (fuel : Nat) (h : MapRun M devs n e)
      (hrdy : e.bus.sigvotes.rdy = 0) (ht : cpuTick fuel e = some e') : MapRun M devs (n + 1) e'

section
variable {M : MemoryMap ω} {devs : ω} {n : Nat} {e : Emu ω}

theorem MapRun.fresh (h : MapRun M devs n e) : e.cpu.ctl.fresh = true := by
  induction h with
  | init => rfl
  | votes _ _ ih => exact ih
  | stalled fuel _ _ ht ih =>
    rw [eq_tick_of_cpuTick ih ht]
    exact fresh_tick _ ih
  | tick fuel _ _ ht ih =>
    rw [eq_tick_of_cpuTick ih ht]
    exact fresh_tick _ ih

/-- A property of the bus that its transactions and changes of the votes keep holds in every run. -/
theorem MapRun.bus {I : Bus ω → Prop} (h : MapRun M devs n e) (hI : Bus.Kept I)
    (hvotes : ∀ {bus}, I bus → ∀ v, I { bus with sigvotes := v }) (hinit : I (Bus.init M.conns [] devs)) :
    I e.bus := by
  have htick : ∀ {e : Emu ω}, I e.bus → I e.tick.bus := by
    intro e he
    refine hI.tick he ?_
    unfold Bus.ackNmi
    split
    · exact hvotes he _
    · exact he
  induction h with
  | init => exact hinit
  | votes v _ ih => exact hvotes ih v
  | stalled fuel h _ ht ih =>
    rw [eq_tick_of_cpuTick h.fresh ht]
    exact htick ih
  | tick fuel h _ ht ih =>
    rw [eq_tick_of_cpuTick h.fresh ht]
    exact htick ih

theorem MapRun.mapped (h : MapRun M devs n e) (hinv : M.inv devs) : e.bus.Mapped M :=
  h.bus Bus.Mapped.kept (fun hm _ => ⟨hm.conns, hm.tracers, hm.inv⟩) ⟨rfl, rfl, hinv⟩

end

/-! ## Reads find the last write -/

/-- The bytes after the transactions on record. -/
def MemoryMap.hold (M : MemoryMap ω) (m : Mem) (trace : List BusOp) : Mem :=
  trace.foldl (fun m op => if op.write ∧ M.keeps op.addr then Function.update m op.addr op.val else m) m

/-- The value of the last write to `addr`. -/
def lastWrite (addr : BitVec 16) (trace : List BusOp) : Option (BitVec 8) :=
  trace.foldl (fun last op => if op.write ∧ op.addr = addr then some op.val else last) none

theorem hold_concat (M : MemoryMap ω) (m : Mem) (trace : List BusOp) (op : BusOp) :
    M.hold m (trace ++ [op]) = if op.write ∧ M.keeps op.addr then
      Function.update (M.hold m trace) op.addr op.val else M.hold m trace := by
  rw [MemoryMap.hold, List.foldl_append]
  rfl

theorem lastWrite_concat (addr : BitVec 16) (trace : List BusOp) (op : BusOp) :
    lastWrite addr (trace ++ [op]) = if op.write ∧ op.addr = addr then some op.val else lastWrite addr trace := by
  rw [lastWrite, List.foldl_append]
  rfl

/-- The byte at an address: the last one written to it, where the memory keeps it. -/
theorem hold_eq (M : MemoryMap ω) (m : Mem) (trace : List BusOp) (addr : BitVec 16) :
    M.hold m trace addr = if M.keeps addr then (lastWrite addr trace).getD (m addr) else m addr := by
  induction trace using List.reverseRecOn with
  | nil =>
    show m addr = if M.keeps addr then m addr else m addr
    rw [ite_self]
  | append_singleton trace op ih =>
    rw [hold_concat, lastWrite_concat]
    by_cases hhere : op.write = true ∧ op.addr = addr
    · obtain ⟨hwrite, rfl⟩ := hhere
      by_cases hkeeps : M.keeps op.addr = true
      · simp [hwrite, hkeeps]
      · simp [hkeeps, ih]
    · rw [if_neg hhere, ← ih]
      split
      · rename_i hkept
        exact Function.update_of_ne (fun haddr => hhere ⟨hkept.1, haddr.symm⟩) _ _
      · rfl

/-- The record accounts for the bytes and for every read on it. -/
structure Bus.Recalls (M : MemoryMap ω) (m : Mem) (bus : Bus ω) : Prop extends bus.Mapped M where
  bytes : M.mem bus.devs = M.hold m bus.trace
  reads : ∀ pre op post, bus.trace = pre ++ op :: post → op.write = false → op.val = M.hold m pre op.addr

/-- A list that ends in `x` is cut before `x` or further to the front. -/
theorem concat_cut {α : Type} {xs pre post : List α} {x y : α} (h : xs ++ [x] = pre ++ y :: post) :
    (xs = pre ∧ x = y) ∨ ∃ rest, xs = pre ++ y :: rest := by
  rcases List.eq_nil_or_concat post with rfl | ⟨rest, z, rfl⟩
  · exact .inl (List.append_inj' h rfl |>.imp id fun hx => (List.cons.inj hx).1)
  · rw [List.concat_eq_append, ← List.cons_append, ← List.append_assoc] at h
    exact .inr ⟨rest, (List.append_inj' h rfl).1⟩

theorem Bus.Recalls.kept (M : MemoryMap ω) (m : Mem) : Bus.Kept (Bus.Recalls M m) where
  read {bus} h addr sync := by
    have hmapped := Bus.Mapped.kept.read h.toMapped addr sync
    rw [h.read_eq] at hmapped ⊢
    refine ⟨hmapped, ?_, ?_⟩
    · show M.mem bus.devs = M.hold m (bus.trace ++ [_])
      rw [hold_concat, if_neg (fun hw => Bool.false_ne_true hw.1), h.bytes]
    · intro pre op post hcut hread
      rcases concat_cut hcut with ⟨rfl, rfl⟩ | ⟨rest, hrest⟩
      · exact congrFun h.bytes addr
      · exact h.reads pre op rest hrest hread
  write {bus} h addr value := by
    have hmapped := Bus.Mapped.kept.write h.toMapped addr value
    rw [h.write_eq] at hmapped ⊢
    refine ⟨hmapped, ?_, ?_⟩
    · show M.mem (storeWrite M.conns bus.devs addr value) = M.hold m (bus.trace ++ [_])
      rw [hold_concat, M.write _ h.inv, h.bytes]
      simp only [true_and]
    · intro pre op post hcut hread
      rcases concat_cut hcut with ⟨-, rfl⟩ | ⟨rest, hrest⟩
      · exact Bool.noConfusion hread
      · exact h.reads pre op rest hrest hread

theorem MapRun.recalls {M : MemoryMap ω} {devs : ω} {n : Nat} {e : Emu ω} (h : MapRun M devs n e)
    (hinv : M.inv devs) : e.bus.Recalls M (M.mem devs) := by
  refine h.bus (Bus.Recalls.kept M (M.mem devs)) (fun hr _ => ⟨⟨hr.conns, hr.tracers, hr.inv⟩, hr.bytes, hr.reads⟩) ?_
  refine ⟨⟨rfl, rfl, hinv⟩, rfl, ?_⟩
  intro pre op post hcut
  exact absurd (List.append_eq_nil_iff.mp hcut.symm).2 (List.cons_ne_nil op post)

/-! ## Boards of memories -/

/-- A memory connected through a decoder of a range or a mask. -/
structure MapConn where
  handle : Nat
  params : BusDecodeParams Heap
  id : Nat
  fixed : params.isFixed = true

namespace MapConn

/-- The connection of `memory_register`. -/
def conn (c : MapConn) : BusConn Heap :=
  { handle := c.handle, params := c.params, handlers := memBusHandlers c.id }

def covers (c : MapConn) (addr : BitVec 16) : Bool := c.params.decodes addr

theorem busMatchAddr_conn (c : MapConn) (addr : BitVec 16) (write : Bool) (h : Heap) :
    busMatchAddr c.conn.params addr write h = c.covers addr := busMatchAddr_of_isFixed c.fixed addr write h

end MapConn

/-- The memory that answers for `addr`. -/
def ownerAt (conns : List MapConn) (addr : BitVec 16) : Option Nat :=
  (conns.find? (·.covers addr)).map (·.id)

theorem memoryConns_map (conns : List MapConn) : MemoryConns (conns.map MapConn.conn) := by
  intro conn hconn
  obtain ⟨c, -, rfl⟩ := List.mem_map.mp hconn
  refine ⟨fun addr write d d' => ?_, c.id, rfl⟩
  rw [c.busMatchAddr_conn, c.busMatchAddr_conn]

/-- The first connection that covers an address answers for it, the others are not heard. -/
theorem boardRead_eq (conns : List MapConn) (h : Heap) (addr : BitVec 16) (sync : Bool) :
    storeRead (conns.map MapConn.conn) h addr false sync =
      ((ownerAt conns addr).map fun id => memBusReadCb (h id) addr).getD 0xFF := by
  have hturn : ∀ (c : MapConn) (ret : Option (BitVec 8)),
      readStoreConn addr false sync h ret c.conn =
        if c.covers addr then some (ret.getD (memBusReadCb (h c.id) addr)) else ret := by
    intro c ret
    rw [readStoreConn, c.busMatchAddr_conn]
    rfl
  have hheard : ∀ (conns : List MapConn) (value : BitVec 8),
      (conns.map MapConn.conn).foldl (readStoreConn addr false sync h) (some value) = some value := by
    intro conns value
    induction conns with
    | nil => rfl
    | cons c conns ih =>
      rw [List.map_cons, List.foldl_cons, hturn]
      split <;> exact ih
  rw [storeRead]
  induction conns with
  | nil => rfl
  | cons c conns ih =>
    rw [List.map_cons, List.foldl_cons, hturn, ownerAt, List.find?_cons]
    cases c.covers addr with
    | true => exact congrArg (Option.getD · 0xFF) (hheard conns _)
    | false => exact ih

/-- Each memory that some connection leads to takes the write, once or several times over. -/
theorem boardWrite_eq (conns : List MapConn) (h : Heap) (addr : BitVec 16) (value : BitVec 8) (id : Nat) :
    storeWrite (conns.map MapConn.conn) h addr value id =
      if ∃ c ∈ conns, c.covers addr = true ∧ c.id = id then memBusWriteCb (h id) addr value else h id := by
  have hturn : ∀ (c : MapConn) (h : Heap), writeStoreConn addr value h c.conn id =
      if c.covers addr = true ∧ c.id = id then memBusWriteCb (h id) addr value else h id := by
    intro c h
    rw [writeStoreConn_board rfl, c.busMatchAddr_conn]
    by_cases hcovers : c.covers addr = true
    · rw [if_pos hcovers, Heap.put]
      by_cases hid : id = c.id
      · subst hid
        rw [if_pos rfl, if_pos ⟨hcovers, rfl⟩]
      · rw [if_neg hid, if_neg fun hc => hid hc.2.symm]
    · rw [if_neg hcovers, if_neg fun hc => hcovers hc.1]
  induction conns generalizing h with
  | nil =>
    refine (if_neg ?_).symm
    rintro ⟨c, hc, -⟩
    exact List.not_mem_nil hc
  | cons c conns ih =>
    show storeWrite (conns.map MapConn.conn) (writeStoreConn addr value h c.conn) addr value id = _
    rw [ih, hturn]
    simp only [List.exists_mem_cons_iff]
    by_cases hhere : c.covers addr = true ∧ c.id = id
    · simp only [hhere, and_self, true_or, if_true, memBusWriteCb_idem, ite_self]
    · simp only [hhere, if_false, false_or]

/-- The memory keeps a write of `addr`. -/
def Memory.keepsAt (m : Memory) (addr : BitVec 16) : Bool := !m.rom && decide (addr - m.base < m.size)

/-- A write changes no other byte. -/
theorem memBusReadCb_after (m : Memory) (addr : BitVec 16) (value : BitVec 8) (addr' : BitVec 16) :
    memBusReadCb (memBusWriteCb m addr value) addr' =
      if addr' = addr ∧ m.keepsAt addr then value else memBusReadCb m addr' := by
  by_cases hkeeps : m.rom = false ∧ addr - m.base < m.size
  · rw [memBusReadCb_write hkeeps.1 hkeeps.2]
    have hat : m.keepsAt addr = true := by
      rw [Memory.keepsAt, hkeeps.1, decide_eq_true hkeeps.2]
      rfl
    simp only [hat, and_true]
  · have hdropped : m.rom = true ∨ ¬addr - m.base < m.size := by
      cases hrom : m.rom with
      | true => exact .inl rfl
      | false => exact .inr fun hin => hkeeps ⟨hrom, hin⟩
    have hat : ¬m.keepsAt addr = true := by
      rw [Memory.keepsAt, Bool.and_eq_true, Bool.not_eq_true', decide_eq_true_eq]
      exact hkeeps
    rw [memBusWriteCb_dropped m addr value hdropped, if_neg fun h => hat h.2]

/-- The parts of a memory that no write changes. -/
structure Memory.SameShape (m m' : Memory) : Prop where
  size : m'.size = m.size
  rom : m'.rom = m.rom
  base : m'.base = m.base

theorem Memory.SameShape.write {m m' : Memory} (h : m.SameShape m') (addr : BitVec 16) (value : BitVec 8) :
    m.SameShape (memBusWriteCb m' addr value) := by
  unfold memBusWriteCb
  split
  · exact h
  · dsimp only
    split <;> exact ⟨h.size, h.rom, h.base⟩

theorem Memory.SameShape.keepsAt {m m' : Memory} (h : m.SameShape m') (addr : BitVec 16) :
    m'.keepsAt addr = m.keepsAt addr := by
  rw [Memory.keepsAt, Memory.keepsAt, h.size, h.rom, h.base]

/-- What the memories of a board hold: the owner's byte, or what an undriven bus reads. -/
def boardByte (conns : List MapConn) (h : Heap) (addr : BitVec 16) : BitVec 8 :=
  ((ownerAt conns addr).map fun id => memBusReadCb (h id) addr).getD 0xFF

/-- The owner of the address keeps writes of it. -/
def boardKeeps (conns : List MapConn) (h : Heap) (addr : BitVec 16) : Bool :=
  ((ownerAt conns addr).map fun id => (h id).keepsAt addr).getD false

theorem ownerAt_covers {conns : List MapConn} {addr : BitVec 16} {id : Nat} (h : ownerAt conns addr = some id) :
    ∃ c ∈ conns, c.covers addr = true ∧ c.id = id := by
  obtain ⟨c, hfind, hid⟩ := Option.map_eq_some_iff.mp h
  have hcovers := List.find?_some hfind
  exact ⟨c, List.mem_of_find?_eq_some hfind, hcovers, hid⟩

theorem boardByte_write (conns : List MapConn) (h : Heap) (addr : BitVec 16) (value : BitVec 8) :
    boardByte conns (storeWrite (conns.map MapConn.conn) h addr value) =
      if boardKeeps conns h addr then Function.update (boardByte conns h) addr value else boardByte conns h := by
  have hafter : ∀ id addr', memBusReadCb (storeWrite (conns.map MapConn.conn) h addr value id) addr' =
      if addr' = addr ∧ (h id).keepsAt addr ∧ ∃ c ∈ conns, c.covers addr = true ∧ c.id = id then value
      else memBusReadCb (h id) addr' := by
    intro id addr'
    rw [boardWrite_eq]
    by_cases hreached : ∃ c ∈ conns, c.covers addr = true ∧ c.id = id
    · simp only [hreached, if_true, memBusReadCb_after, and_true]
    · simp only [hreached, and_false, if_false]
  funext addr'
  by_cases haddr : addr' = addr
  · subst haddr
    rw [boardByte, boardKeeps]
    cases howner : ownerAt conns addr' with
    | none => simp [boardByte, howner]
    | some id =>
      have hreached := ownerAt_covers howner
      simp only [Option.map_some, Option.getD_some, hafter, hreached, and_true, true_and]
      by_cases hkeeps : (h id).keepsAt addr' = true
      · simp [hkeeps]
      · simp [hkeeps, boardByte, howner]
  · have hsame : boardByte conns (storeWrite (conns.map MapConn.conn) h addr value) addr' =
        boardByte conns h addr' := by
      simp only [boardByte, hafter, haddr, false_and, if_false]
    rw [hsame]
    split
    · exact (Function.update_of_ne haddr _ _).symm
    · rfl

/-- The board of the memories `h₀`. -/
def boardMap (conns : List MapConn) (h₀ : Heap) : MemoryMap Heap where
  conns := conns.map MapConn.conn
  inv h := ∀ id, (h₀ id).SameShape (h id)
  mem := boardByte conns
  keeps := boardKeeps conns h₀
  stores := (memoryConns_map conns).stores
  read h _ addr sync := boardRead_eq conns h addr sync
  stays h hinv addr value id := by
    rw [boardWrite_eq]
    split
    · exact (hinv id).write addr value
    · exact hinv id
  write h hinv addr value := by
    have hkeeps : boardKeeps conns h addr = boardKeeps conns h₀ addr := by
      rw [boardKeeps, boardKeeps]
      exact congrArg (Option.getD · false) (Option.map_congr fun id _ => (hinv id).keepsAt addr)
    rw [boardByte_write, hkeeps]

/-- Ticks without votes. -/
theorem mapRun_ticks (M : MemoryMap ω) {devs : ω} (hinv : M.inv devs) (n : Nat) :
    MapRun M devs n (Nat.repeat Emu.tick n { bus := Bus.init M.conns [] devs, cpu := cpuInit }) ∧
      (Nat.repeat Emu.tick n { bus := Bus.init M.conns [] devs, cpu := cpuInit }).bus.sigvotes = {} := by
  induction n with
  | zero => exact ⟨.init, rfl⟩
  | succ n ih =>
    obtain ⟨hrun, hvotes⟩ := ih
    rw [Nat.repeat]
    generalize Nat.repeat Emu.tick n { bus := Bus.init M.conns [] devs, cpu := cpuInit } = e at *
    have hrdy : e.bus.sigvotes.rdy = 0 := by rw [hvotes]
    refine ⟨.tick 4 hrun hrdy (cpuTick_eq 0 e hrun.fresh), ?_⟩
    rw [tick_store e (hrun.mapped hinv).stores hrdy, Bus.after_sigvotes,
      Bus.ackNmi_of_not_pending _ _ (by rw [hvotes]), hvotes]

/-- Every read finds the last write. On every board of memories, with any decoders of ranges and
masks, overlaps and holes included, and in every run from `cpu_init` with any votes and stalls: a
read of an address that keeps writes returns what the last write to it before, by the program or by
a repeated bus cycle, wrote, or the first byte if there was none; a read of any other address
always returns the byte that was there at the start, `$FF` where nothing answers. -/
theorem board_reads_last_write (conns : List MapConn) (h₀ : Heap) {n : Nat} {e : Emu Heap}
    (h : MapRun (boardMap conns h₀) h₀ n e) {pre post : List BusOp} {op : BusOp}
    (hop : e.bus.trace = pre ++ op :: post) (hread : op.write = false) :
    op.val = if boardKeeps conns h₀ op.addr then (lastWrite op.addr pre).getD (boardByte conns h₀ op.addr)
      else boardByte conns h₀ op.addr := by
  have hinv : (boardMap conns h₀).inv h₀ := fun _ => ⟨rfl, rfl, rfl⟩
  rw [(h.recalls hinv).reads pre op post hop hread, hold_eq]
  rfl

/-- `INC $00` and `LDA $00` in a ROM at the end of the memory, where the reset leads to. -/
def incRom : Memory where
  size := 0x10
  rom := true
  base := 0xFFF0
  buffer := #v[0xE6, 0x00, 0xA5, 0x00, 0xEA, 0xEA, 0xEA, 0xEA, 0xEA, 0xEA, 0xEA, 0xEA, 0xF0, 0xFF, 0xEA, 0xEA]

/-- The ROM, a small RAM, and nothing in between. -/
def incHeap : Heap := fun id =>
  if id = 1 then incRom else { size := 0x200, rom := false, base := 0x0000, buffer := .replicate _ 0x41 }

def incConns : List MapConn :=
  [{ handle := 1, params := .range 0xFFF0 0xFFFF, id := 1, fixed := rfl },
   { handle := 2, params := .range 0x0000 0x01FF, id := 0, fixed := rfl }]

/-- After `n` ticks. -/
def incEmu (n : Nat) : Emu Heap :=
  Nat.repeat Emu.tick n { bus := Bus.init (boardMap incConns incHeap).conns [] incHeap, cpu := cpuInit }

theorem incEmu_run (n : Nat) : MapRun (boardMap incConns incHeap) incHeap n (incEmu n) :=
  (mapRun_ticks (boardMap incConns incHeap) (fun _ => ⟨rfl, rfl, rfl⟩) n).1

/-- `LDA` reads what `INC` wrote. -/
theorem board_reads_last_write_of_inc :
    ∃ pre op, (incEmu 15).bus.trace = pre ++ [op] ∧ op.write = false ∧ op.addr = 0x0000 ∧
      lastWrite 0x0000 pre = some 0x42 ∧ op.val = 0x42 := by
  have hcut : (incEmu 15).bus.trace = (incEmu 15).bus.trace.dropLast ++ [⟨0x0000, 0x42, false, false⟩] := by
    decide +kernel
  have hlast : lastWrite 0x0000 (incEmu 15).bus.trace.dropLast = some 0x42 := by decide +kernel
  have hval := board_reads_last_write incConns incHeap (incEmu_run 15) hcut rfl
  rw [hlast, if_pos (by decide)] at hval
  exact ⟨_, _, hcut, rfl, rfl, hlast, hval⟩

/-! ## Programs that write where writes are kept -/

/-- The bus with a RAM of the same bytes in place of the map. -/
def Bus.onFlat (M : MemoryMap ω) (bus : Bus ω) : Bus Mem :=
  { bus with connlist := flatRam.conns, tracelist := [], devs := M.mem bus.devs }

def Emu.onFlat (M : MemoryMap ω) (e : Emu ω) : Emu Mem := ⟨e.bus.onFlat M, e.cpu⟩

/-- No transaction writes where writes are dropped. -/
def KeptWrites (M : MemoryMap ω) (trace : List BusOp) : Prop :=
  ∀ op ∈ trace, op.write = true → M.keeps op.addr = true

theorem KeptWrites.of_prefix {M : MemoryMap ω} {pre trace : List BusOp} (h : KeptWrites M trace)
    (hpre : pre <+: trace) : KeptWrites M pre :=
  fun op hop => h op (hpre.subset hop)

/-- The record only grows. -/
theorem trace_kept (trace : List BusOp) : Bus.Kept fun bus : Bus ω => trace <+: bus.trace where
  read {bus} h addr sync := by
    rw [(committed_read bus addr sync).trace]
    exact h.trans (List.prefix_append _ _)
  write {bus} h addr value := by
    rw [(committed_write bus addr value).trace]
    exact h.trans (List.prefix_append _ _)

theorem prefix_tick (e : Emu ω) : e.bus.trace <+: e.tick.bus.trace :=
  (trace_kept e.bus.trace).tick (List.prefix_refl _) (by rw [Bus.ackNmi_trace])

theorem flatRead {bus : Bus Mem} (h : bus.OnRam flatRam) (addr : BitVec 16) (sync : Bool) :
    busReadPeekI bus addr false sync = (bus.devs addr, bus.commit ⟨addr, bus.devs addr, false, sync⟩) := by
  have hbyte : storeRead flatRam.conns bus.devs addr false sync = bus.devs addr := flatRam.read _ trivial addr sync
  rw [h.stores.busReadPeekI, h.conns, hbyte]

theorem flatWrite {bus : Bus Mem} (h : bus.OnRam flatRam) (addr : BitVec 16) (value : BitVec 8) :
    busWrite bus addr value =
      Bus.commit { bus with devs := Function.update bus.devs addr value } ⟨addr, value, true, false⟩ := by
  have hbytes : storeWrite flatRam.conns bus.devs addr value = Function.update bus.devs addr value :=
    flatRam.write _ trivial addr value
  rw [h.stores.busWrite, h.conns, hbytes]

/-- Buses that stand for a RAM while every transaction is `ok`, whatever value a read finds. -/
structure Flattens (I : Bus ω → Prop) (ok : BusOp → Prop) (flat : Bus ω → Bus Mem) : Prop where
  sigvotes : ∀ bus, (flat bus).sigvotes = bus.sigvotes
  lastop : ∀ bus, (flat bus).lastop = bus.lastop
  value : ∀ {addr sync value value'}, ok ⟨addr, value, false, sync⟩ → ok ⟨addr, value', false, sync⟩
  ackNmi : ∀ {bus}, I bus → ∀ cpu, I (bus.ackNmi cpu) ∧ (flat bus).ackNmi cpu = flat (bus.ackNmi cpu)
  read : ∀ {bus}, I bus → ∀ addr sync, ok ⟨addr, (busReadPeekI bus addr false sync).1, false, sync⟩ →
    I (busReadPeekI bus addr false sync).2 ∧ busReadPeekI (flat bus) addr false sync =
      ((busReadPeekI bus addr false sync).1, flat (busReadPeekI bus addr false sync).2)
  write : ∀ {bus}, I bus → ∀ addr value, ok ⟨addr, value, true, false⟩ →
    I (busWrite bus addr value) ∧ busWrite (flat bus) addr value = flat (busWrite bus addr value)

/-- Every transaction on record is `ok`, on the bus or on the RAM that stands for it. -/
def EitherOk (ok : BusOp → Prop) (bus : Bus ω) (flat : Bus Mem) : Prop :=
  (∀ op ∈ bus.trace, ok op) ∨ ∀ op ∈ flat.trace, ok op

theorem EitherOk.of_prefix {ok : BusOp → Prop} {bus bus' : Bus ω} {flat flat' : Bus Mem}
    (h : EitherOk ok bus' flat') (hbus : bus.trace <+: bus'.trace) (hflat : flat.trace <+: flat'.trace) :
    EitherOk ok bus flat :=
  h.imp (fun hok op hop => hok op (hbus.subset hop)) fun hok op hop => hok op (hflat.subset hop)

namespace Flattens
variable {I : Bus ω → Prop} {ok : BusOp → Prop} {flat : Bus ω → Bus Mem} {bus : Bus ω}

theorem read_recorded (F : Flattens I ok flat) (h : I bus) (addr : BitVec 16) (sync : Bool)
    (hok : EitherOk ok (busReadPeekI bus addr false sync).2 (busReadPeekI (flat bus) addr false sync).2) :
    I (busReadPeekI bus addr false sync).2 ∧ busReadPeekI (flat bus) addr false sync =
      ((busReadPeekI bus addr false sync).1, flat (busReadPeekI bus addr false sync).2) := by
  refine F.read h addr sync ?_
  rcases hok with hok | hok
  all_goals
    rw [(committed_read _ addr sync).trace] at hok
    exact F.value (hok _ (List.mem_append_right _ (List.mem_singleton.mpr rfl)))

theorem write_recorded (F : Flattens I ok flat) (h : I bus) (addr : BitVec 16) (value : BitVec 8)
    (hok : EitherOk ok (busWrite bus addr value) (busWrite (flat bus) addr value)) :
    I (busWrite bus addr value) ∧ busWrite (flat bus) addr value = flat (busWrite bus addr value) := by
  refine F.write h addr value ?_
  rcases hok with hok | hok
  all_goals
    rw [(committed_write _ addr value).trace] at hok
    exact hok _ (List.mem_append_right _ (List.mem_singleton.mpr rfl))

theorem run {α : Type} (F : Flattens I ok flat) (p : BusM α) (h : I bus)
    (hok : EitherOk ok (p.run busEnv bus).2 (p.run busEnv (flat bus)).2) :
    I (p.run busEnv bus).2 ∧ p.run busEnv (flat bus) = ((p.run busEnv bus).1, flat (p.run busEnv bus).2) := by
  have hgrown : ∀ {ω : Type} (b : Bus ω) (p : BusM α), b.trace <+: (p.run busEnv b).2.trace :=
    fun b p => (trace_kept b.trace).run (List.prefix_refl _) p
  induction p generalizing bus with
  | done a => exact ⟨h, rfl⟩
  | ask q k ih =>
    have hanswer : ∀ {ω : Type} (b : Bus ω), busEnv.answer q b = busReadPeekI b q.addr false q.sync := by
      intro ω b
      simp only [busEnv, busSyncRead, busRead]
      cases q.sync <;> rfl
    simp only [Prog.run_ask, hanswer] at hok ⊢
    obtain ⟨hafter, hread⟩ :=
      F.read_recorded h q.addr q.sync (hok.of_prefix (hgrown _ (k _)) (hgrown _ (k _)))
    rw [hread] at hok ⊢
    exact ih _ hafter hok
  | tell c k ih =>
    simp only [Prog.run_tell] at hok ⊢
    have hhere : EitherOk ok (busWrite bus c.addr c.val) (busWrite (flat bus) c.addr c.val) :=
      hok.of_prefix (hgrown _ k) (hgrown _ k)
    obtain ⟨hafter, hwrite⟩ := F.write_recorded h c.addr c.val hhere
    show I (k.run busEnv (busWrite bus c.addr c.val)).2 ∧ k.run busEnv (busWrite (flat bus) c.addr c.val) = _
    have hrest : EitherOk ok (k.run busEnv (busWrite bus c.addr c.val)).2
        (k.run busEnv (busWrite (flat bus) c.addr c.val)).2 := hok
    rw [hwrite] at hrest ⊢
    exact ih hafter hrest

theorem replay (F : Flattens I ok flat) (h : I bus) (hok : EitherOk ok (busReplay bus) (busReplay (flat bus))) :
    I (busReplay bus) ∧ busReplay (flat bus) = flat (busReplay bus) := by
  unfold busReplay at hok ⊢
  rw [F.lastop] at hok ⊢
  split
  · rename_i hwrite
    rw [if_pos hwrite, if_pos hwrite] at hok
    exact F.write_recorded h _ _ hok
  · rename_i hread
    rw [if_neg hread, if_neg hread] at hok
    obtain ⟨hafter, hflat⟩ := F.read_recorded h _ _ hok
    rw [hflat]
    exact ⟨hafter, rfl⟩

/-- A tick on the bus is a tick on the RAM. -/
theorem tick (F : Flattens I ok flat) {e : Emu ω} (h : I e.bus)
    (hok : EitherOk ok e.tick.bus (Emu.mk (flat e.bus) e.cpu).tick.bus) :
    I e.tick.bus ∧ (Emu.mk (flat e.bus) e.cpu).tick = ⟨flat e.tick.bus, e.tick.cpu⟩ := by
  by_cases hrdy : e.bus.sigvotes.rdy = 0
  · have hflat : (flat e.bus).sigvotes.rdy = 0 := by
      rw [F.sigvotes]
      exact hrdy
    obtain ⟨hack, hackFlat⟩ := F.ackNmi h e.cpu
    have hrun : (Emu.mk (flat e.bus) e.cpu).tickRun =
        (tickProg e.bus.sigvotes e.cpu.clearCycle).run busEnv (flat (e.bus.ackNmi e.cpu)) := by
      rw [Emu.tickRun]
      show (tickProg (flat e.bus).sigvotes e.cpu.clearCycle).run busEnv ((flat e.bus).ackNmi e.cpu) = _
      rw [F.sigvotes, hackFlat]
    rw [tick_unstalled e hrdy, tick_unstalled (Emu.mk (flat e.bus) e.cpu) hflat, hrun] at hok
    rw [tick_unstalled e hrdy, tick_unstalled (Emu.mk (flat e.bus) e.cpu) hflat, hrun]
    obtain ⟨hafter, hsame⟩ := F.run _ hack hok
    rw [hsame]
    exact ⟨hafter, rfl⟩
  · have hflat : ¬(flat e.bus).sigvotes.rdy = 0 := by
      rw [F.sigvotes]
      exact hrdy
    rw [tick_stalled e hrdy, tick_stalled (Emu.mk (flat e.bus) e.cpu) hflat] at hok ⊢
    obtain ⟨hafter, hreplay⟩ := F.replay h hok
    refine ⟨hafter, ?_⟩
    show Emu.mk (busReplay (flat e.bus)) _ = _
    rw [hreplay]

end Flattens

section Flat
variable {M : MemoryMap ω} {bus : Bus ω}

theorem onFlat_onRam (bus : Bus ω) : (bus.onFlat M).OnRam flatRam := ⟨rfl, rfl, trivial⟩

theorem onFlat_read (h : bus.Mapped M) (addr : BitVec 16) (sync : Bool) :
    busReadPeekI (bus.onFlat M) addr false sync =
      ((busReadPeekI bus addr false sync).1, (busReadPeekI bus addr false sync).2.onFlat M) := by
  rw [h.read_eq, flatRead (onFlat_onRam bus)]
  rfl

theorem onFlat_write (h : bus.Mapped M) {addr : BitVec 16} (hkeeps : M.keeps addr = true) (value : BitVec 8) :
    busWrite (bus.onFlat M) addr value = (busWrite bus addr value).onFlat M := by
  have hbytes : Function.update (M.mem bus.devs) addr value = M.mem (storeWrite M.conns bus.devs addr value) := by
    rw [M.write _ h.inv, if_pos hkeeps]
  rw [h.write_eq, flatWrite (onFlat_onRam bus)]
  show Bus.commit { bus.onFlat M with devs := Function.update (M.mem bus.devs) addr value } _ = _
  rw [hbytes]
  rfl

theorem onFlat_ackNmi (bus : Bus ω) (cpu : Cpu) : (bus.onFlat M).ackNmi cpu = (bus.ackNmi cpu).onFlat M := by
  unfold Bus.ackNmi
  split <;> rfl

theorem Bus.Mapped.flattens :
    Flattens (Bus.Mapped M) (fun op => op.write = true → M.keeps op.addr = true) (Bus.onFlat M) where
  sigvotes _ := rfl
  lastop _ := rfl
  value hok := hok
  ackNmi {bus} h cpu := ⟨h.ackNmi cpu, onFlat_ackNmi bus cpu⟩
  read h addr sync _ := ⟨Bus.Mapped.kept.read h addr sync, onFlat_read h addr sync⟩
  write h addr value hok := ⟨Bus.Mapped.kept.write h addr value, onFlat_write h (hok rfl) value⟩

/-- A tick on the map is a tick on the RAM. -/
theorem onFlat_tick {e : Emu ω} (h : e.bus.Mapped M) (hkept : KeptWrites M e.tick.bus.trace) :
    (e.onFlat M).tick = e.tick.onFlat M :=
  (Bus.Mapped.flattens.tick h (.inl hkept)).2

variable {devs : ω} {n : Nat} {e : Emu ω}

/-- The run on the RAM of the same bytes. -/
theorem MapRun.onFlat (h : MapRun M devs n e) (hinv : M.inv devs) (hkept : KeptWrites M e.bus.trace) :
    RamRun flatRam (M.mem devs) n (e.onFlat M) := by
  induction h with
  | init => exact .init
  | votes v _ ih => exact .votes v (ih hkept)
  | @stalled n e e' fuel h hrdy ht ih =>
    obtain rfl := eq_tick_of_cpuTick h.fresh ht
    refine .stalled 4 (ih (hkept.of_prefix (prefix_tick e))) hrdy ?_
    rw [← onFlat_tick (h.mapped hinv) hkept]
    exact cpuTick_eq 0 (e.onFlat M) h.fresh
  | @tick n e e' fuel h hrdy ht ih =>
    obtain rfl := eq_tick_of_cpuTick h.fresh ht
    refine .tick 4 (ih (hkept.of_prefix (prefix_tick e))) hrdy ?_
    rw [← onFlat_tick (h.mapped hinv) hkept]
    exact cpuTick_eq 0 (e.onFlat M) h.fresh

end Flat

/-- At a boundary the run is one of the machine. -/
theorem MapRun.machineRun {M : MemoryMap ω} {devs : ω} {n : Nat} {e : Emu ω} (h : MapRun M devs n e)
    (hinv : M.inv devs) (hkept : KeptWrites M e.bus.trace) (hs : e.cpu.opState = .opcode) :
    ∃ k, MachineRun (resetMachine (M.mem devs)) k ⟨⟨e.cpu.regs, M.mem e.bus.devs⟩, e.cpu.pageBoundary⟩ ∧
      n = resetCycles + k :=
  (h.onFlat hinv hkept).machineRun trivial hs

/-- Programs in ROM run on the machine too. On any map, so on every board of memories: in every run
from `cpu_init`, with any votes and stalls, that has not written where writes are dropped, the state
at a boundary is that of a run of the instruction set on the bytes of the map, and the ticks that were
not stalled are the cycles of that run behind the seven of the reset. -/
theorem map_runs_machine {M : MemoryMap ω} {devs : ω} (hinv : M.inv devs) {n : Nat} {e : Emu ω}
    (h : MapRun M devs n e) (hkept : KeptWrites M e.bus.trace) (hs : e.cpu.opState = .opcode) :
    ∃ k, MachineRun (resetMachine (M.mem devs)) k ⟨⟨e.cpu.regs, M.mem e.bus.devs⟩, e.cpu.pageBoundary⟩ ∧
      n = resetCycles + k :=
  h.machineRun hinv hkept hs

instance (M : MemoryMap ω) (trace : List BusOp) : Decidable (KeptWrites M trace) :=
  inferInstanceAs (Decidable (∀ op ∈ trace, op.write = true → M.keeps op.addr = true))

theorem map_runs_machine_of_inc :
    ∃ k, MachineRun (resetMachine (boardByte incConns incHeap)) k
        ⟨⟨(incEmu 15).cpu.regs, boardByte incConns (incEmu 15).bus.devs⟩, (incEmu 15).cpu.pageBoundary⟩ ∧
      (incEmu 15).cpu.regs.a = 0x42 ∧ k = 8 := by
  have hinv : (boardMap incConns incHeap).inv incHeap := fun _ => ⟨rfl, rfl, rfl⟩
  obtain ⟨k, hrun, hn⟩ := map_runs_machine hinv (incEmu_run 15) (by decide +kernel) (by decide +kernel)
  have hreset : resetCycles = 7 := rfl
  exact ⟨k, hrun, by decide +kernel, by omega⟩

end Cb6502
