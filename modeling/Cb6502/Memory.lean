import Cb6502.StoreBus

/- RAM and ROM instances on the bus (io/memory/src/memory.c), and boards that hold
   nothing else. `Heap` is the emulator's devices by number; a board connects some of
   them, each any number of times, through decoders that look at the address and the
   direction. -/
namespace Cb6502

/-- `struct memory_s`: `rom` is the flag `MEMFLAG_ROM`. -/
structure Memory where
  size : BitVec 16
  rom : Bool
  base : BitVec 16
  buffer : Vector (BitVec 8) size.toNat

/-- `mem_bus_read_cb`. -/
def memBusReadCb (m : Memory) (addr : BitVec 16) : BitVec 8 :=
  let internalAddr := addr - m.base
  if h : internalAddr < m.size then m.buffer.get ⟨internalAddr.toNat, h⟩ else 0xFF

/-- `mem_bus_write_cb`. -/
def memBusWriteCb (m : Memory) (addr : BitVec 16) (value : BitVec 8) : Memory :=
  if m.rom then m
  else
    let internalAddr := addr - m.base
    if h : internalAddr < m.size then
      { m with buffer := m.buffer.set internalAddr.toNat value h }
    else m

theorem memBusWriteCb_stored (m : Memory) (addr : BitVec 16) (value : BitVec 8)
    (hrom : m.rom = false) (h : addr - m.base < m.size) :
    memBusWriteCb m addr value =
      { m with buffer := m.buffer.set (addr - m.base).toNat value h } := by
  simp only [memBusWriteCb, hrom, Bool.false_eq_true, if_false, dif_pos h]

theorem memBusWriteCb_dropped (m : Memory) (addr : BitVec 16) (value : BitVec 8)
    (hd : m.rom = true ∨ ¬ addr - m.base < m.size) : memBusWriteCb m addr value = m := by
  rcases hd with hrom | hout
  · simp only [memBusWriteCb, hrom, if_true]
  · simp only [memBusWriteCb, dif_neg hout, ite_self]

/-- Writing the same byte again changes nothing. -/
theorem memBusWriteCb_idem (m : Memory) (addr : BitVec 16) (value : BitVec 8) :
    memBusWriteCb (memBusWriteCb m addr value) addr value = memBusWriteCb m addr value := by
  by_cases hstored : m.rom = false ∧ addr - m.base < m.size
  · obtain ⟨hrom, h⟩ := hstored
    rw [memBusWriteCb_stored m addr value hrom h]
    have hagain := memBusWriteCb_stored
      { m with buffer := m.buffer.set (addr - m.base).toNat value h } addr value hrom h
    rw [hagain]
    simp only [Vector.set_set]
  · have hdropped : m.rom = true ∨ ¬ addr - m.base < m.size := by
      cases hrom : m.rom with
      | true => exact .inl rfl
      | false => exact .inr fun h => hstored ⟨hrom, h⟩
    rw [memBusWriteCb_dropped m addr value hdropped, memBusWriteCb_dropped m addr value hdropped]

/-! ## Boards of memories -/

/-- The memories of an emulator, by number. -/
abbrev Heap := Nat → Memory

/-- The heap with one memory replaced. -/
def Heap.put (h : Heap) (id : Nat) (m : Memory) : Heap := fun i => if i = id then m else h i

/-- `mem_bus_handlers` for the memory `id`. -/
def memBusHandlers (id : Nat) : BusHandlers Heap where
  write := some fun addr value _ h => (h.put id (memBusWriteCb (h id) addr value), [])
  read := some fun addr _ h => (memBusReadCb (h id) addr, h, [])
  peek := some fun addr _ h => (memBusReadCb (h id) addr, h, [])

/-- Every connection is one of `memory_register`. -/
def MemoryConns (conns : List (BusConn Heap)) : Prop :=
  ∀ conn ∈ conns, conn.params.Stateless ∧ ∃ id, conn.handlers = memBusHandlers id

theorem MemoryConns.stores {conns : List (BusConn Heap)} (h : MemoryConns conns) :
    StoreConns conns := by
  intro conn hc
  obtain ⟨hdec, id, hh⟩ := h conn hc
  refine ⟨hdec, ?_, ?_, ?_⟩
  all_goals
    intro cb hcb
    rw [hh] at hcb
    obtain rfl := Option.some.inj hcb
    intros
    rfl

theorem Heap.put_self (h : Heap) (id : Nat) : h.put id (h id) = h := by
  funext i
  unfold Heap.put
  split
  · rename_i hi
    rw [hi]
  · rfl

/-- The memory has the byte already, or drops it. -/
def HasByte (addr : BitVec 16) (value : BitVec 8) (m : Memory) : Prop :=
  memBusWriteCb m addr value = m

theorem writeStoreConn_board {conn : BusConn Heap} {id : Nat}
    (hh : conn.handlers = memBusHandlers id) (addr : BitVec 16) (value : BitVec 8) (h : Heap) :
    writeStoreConn addr value h conn =
      if busMatchAddr conn.params addr false h then h.put id (memBusWriteCb (h id) addr value)
      else h := by
  simp only [writeStoreConn, hh, memBusHandlers]

/-- A write keeps the memories that have the byte already. -/
theorem HasByte.writeStoreConn {addr : BitVec 16} {value : BitVec 8} {h : Heap} {i : Nat}
    (hb : HasByte addr value (h i)) {conn : BusConn Heap} {id : Nat}
    (hh : conn.handlers = memBusHandlers id) :
    HasByte addr value (Cb6502.writeStoreConn addr value h conn i) := by
  rw [writeStoreConn_board hh]
  split
  · unfold Heap.put
    split
    · exact memBusWriteCb_idem _ _ _
    · exact hb
  · exact hb

theorem HasByte.storeWrite {conns : List (BusConn Heap)} (hc : MemoryConns conns)
    {addr : BitVec 16} {value : BitVec 8} {h : Heap} {i : Nat} (hb : HasByte addr value (h i)) :
    HasByte addr value (Cb6502.storeWrite conns h addr value i) := by
  induction conns generalizing h with
  | nil => exact hb
  | cons conn conns ih =>
    obtain ⟨-, id, hh⟩ := hc conn (List.mem_cons_self ..)
    exact ih (fun c hm => hc c (List.mem_cons_of_mem _ hm)) (hb.writeStoreConn hh)

/-- After a write every memory it reached has the byte. -/
theorem hasByte_storeWrite {conns : List (BusConn Heap)} (hc : MemoryConns conns)
    (addr : BitVec 16) (value : BitVec 8) (h : Heap) {conn : BusConn Heap} (hm : conn ∈ conns)
    {id : Nat} (hh : conn.handlers = memBusHandlers id)
    (hmatch : busMatchAddr conn.params addr false h = true) :
    HasByte addr value (storeWrite conns h addr value id) := by
  induction conns generalizing h with
  | nil => cases hm
  | cons c conns ih =>
    have hrest : MemoryConns conns := fun c' hm' => hc c' (List.mem_cons_of_mem _ hm')
    rcases List.mem_cons.mp hm with rfl | hm
    · have hfirst : HasByte addr value (writeStoreConn addr value h conn id) := by
        rw [writeStoreConn_board hh, if_pos hmatch]
        simp only [Heap.put, if_true]
        exact memBusWriteCb_idem _ _ _
      exact hfirst.storeWrite hrest
    · have hmatch' := hmatch
      rw [(hc conn (List.mem_cons_of_mem _ hm)).1 addr false h (writeStoreConn addr value h c)] at hmatch'
      exact ih hrest _ hm hmatch'

/-- A write to memories that have the byte already changes nothing. -/
theorem storeWrite_of_hasByte {conns : List (BusConn Heap)} (hc : MemoryConns conns)
    (addr : BitVec 16) (value : BitVec 8) (h : Heap)
    (hb : ∀ conn ∈ conns, busMatchAddr conn.params addr false h = true →
      ∀ id, conn.handlers = memBusHandlers id → HasByte addr value (h id)) :
    storeWrite conns h addr value = h := by
  induction conns with
  | nil => rfl
  | cons conn conns ih =>
    obtain ⟨-, id, hh⟩ := hc conn (List.mem_cons_self ..)
    have hfirst : writeStoreConn addr value h conn = h := by
      rw [writeStoreConn_board hh]
      split
      · rename_i hmatch
        rw [hb conn (List.mem_cons_self ..) hmatch id hh]
        exact h.put_self id
      · rfl
    rw [storeWrite, List.foldl_cons, hfirst]
    exact ih (fun c hm => hc c (List.mem_cons_of_mem _ hm))
      (fun c hm => hb c (List.mem_cons_of_mem _ hm))

/-- A board of memories can repeat a write. -/
theorem storeWrite_idem {conns : List (BusConn Heap)} (hc : MemoryConns conns) (addr : BitVec 16)
    (value : BitVec 8) (h : Heap) :
    storeWrite conns (storeWrite conns h addr value) addr value = storeWrite conns h addr value := by
  refine storeWrite_of_hasByte hc addr value _ ?_
  intro conn hm hmatch id hh
  rw [(hc conn hm).1 addr false _ h] at hmatch
  exact hasByte_storeWrite hc addr value h hm hh hmatch

end Cb6502
