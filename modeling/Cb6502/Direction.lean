import Cb6502.Arbitration

/- Decoders that look at the direction. An access is meant for the connections whose decoder
   accepts its address and its direction, each asked in its turn (`BusAccess.intended`); it
   reaches those whose handlers it calls (`Transaction.reached`, read off the bus that writes
   down its calls). The bus asks every decoder about the opposite direction
   (`Transaction.reached_eq`), so the two agree exactly when no decoder with a handler for
   the access tells the directions apart. -/
namespace Cb6502

variable {ω : Type}

/-! ## Accesses -/

/-- A read or peek, or a write. -/
inductive BusAccess where
  | read (addr : BitVec 16) (peek sync : Bool)
  | write (addr : BitVec 16) (value : BitVec 8)

/-- `bus_read`, `bus_sync_read`, `bus_peek`, `bus_write` and `bus_replay`. -/
inductive Transaction where
  | read (addr : BitVec 16)
  | syncRead (addr : BitVec 16)
  | peek (addr : BitVec 16)
  | write (addr : BitVec 16) (value : BitVec 8)
  | replay

def Transaction.run (bus : Bus ω) : Transaction → Bus ω
  | .read addr => (busRead bus addr).2
  | .syncRead addr => (busSyncRead bus addr).2
  | .peek addr => (busPeek bus addr).2
  | .write addr value => busWrite bus addr value
  | .replay => busReplay bus

namespace BusAccess

def run (bus : Bus ω) : BusAccess → Bus ω
  | .read addr peek sync => (busReadPeekI bus addr peek sync).2
  | .write addr value => busWrite bus addr value

def addr : BusAccess → BitVec 16
  | .read addr _ _ => addr
  | .write addr _ => addr

def isWrite : BusAccess → Bool
  | .read _ _ _ => false
  | .write _ _ => true

/-- What the handler that the access calls does to the devices. -/
def handler (conn : BusConn ω) : BusAccess → Option (ω → ω)
  | .read addr peek sync => (conn.handlers.reader peek).map fun cb d => (cb addr sync d).2.1
  | .write addr value => conn.handlers.write.map fun cb d => (cb addr value false d).1

/-- A connection's turn when the decoders are asked about `write`: the devices, and the
connections called. -/
def turn (a : BusAccess) (write : Bool) (acc : ω × List Nat) (conn : BusConn ω) : ω × List Nat :=
  if busMatchAddr conn.params a.addr write acc.1 then
    match a.handler conn with
    | some f => (f acc.1, acc.2 ++ [conn.handle])
    | none => acc
  else acc

/-- The connections whose decoder accepts the address and the direction of the access. -/
def intended (a : BusAccess) (bus : Bus ω) : List Nat :=
  (bus.connlist.foldl (a.turn a.isWrite) (bus.devs, [])).2

/-- No decoder of a connection with a handler for the access tells the directions apart, each
asked in its turn. -/
def Undirected (a : BusAccess) : List (BusConn ω) → ω → Prop
  | [], _ => True
  | conn :: conns, d =>
    ((a.handler conn).isSome = true →
      busMatchAddr conn.params a.addr true d = busMatchAddr conn.params a.addr false d) ∧
    a.Undirected conns (a.turn a.isWrite (d, []) conn).1

end BusAccess

namespace Transaction

/-- The access that the transaction makes; a replay is an access like the last one. -/
def access (bus : Bus ω) : Transaction → BusAccess
  | .read addr => .read addr false false
  | .syncRead addr => .read addr false true
  | .peek addr => .read addr true false
  | .write addr value => .write addr value
  | .replay =>
    if bus.lastop.write then .write bus.lastop.addr bus.lastop.val
    else .read bus.lastop.addr false bus.lastop.sync

theorem run_eq (t : Transaction) (bus : Bus ω) : t.run bus = (t.access bus).run bus := by
  cases t with
  | replay =>
    simp only [run, access, busReplay]
    split <;> rfl
  | _ => rfl

end Transaction

/-- The connection of a handler call. -/
def BusCall.conn? : BusCall → Option Nat
  | .read handle _ _ | .peek handle _ _ | .write handle _ _ => some handle
  | .trace _ _ => none

/-- The connections whose handlers the transaction calls, in order. -/
def Transaction.reached (t : Transaction) (bus : Bus ω) : List Nat :=
  (t.run (bus.logged [])).devs.2.filterMap BusCall.conn?

/-! ## What the bus asks -/

/-- The devices and the connections called, of a bus that writes down its calls. -/
def calledView (d : ω × List BusCall) : ω × List Nat := (d.1, d.2.filterMap BusCall.conn?)

@[simp] theorem Bus.afterCallback_devs (bus : Bus ω) (r : ω × List SigVote) :
    (bus.afterCallback r).devs = r.1 := by
  obtain ⟨v, n, h⟩ := bus.afterCallback_frame r
  rw [h]

theorem conn?_readCall (peek : Bool) (handle : Nat) (addr : BitVec 16) (sync : Bool) :
    (readCall peek handle addr sync).conn? = some handle := by
  cases peek <;> rfl

/-- A read asks the decoder about a write. -/
theorem busReadConn_turn (addr : BitVec 16) (peek sync : Bool)
    (acc : Option (BitVec 8) × Bus (ω × List BusCall)) (conn : BusConn ω) :
    calledView (busReadConn addr peek sync acc conn.logged).2.devs =
      (BusAccess.read addr peek sync).turn true (calledView acc.2.devs) conn := by
  have hmatch : busMatchAddr conn.logged.params addr true acc.2.devs =
      busMatchAddr conn.params addr true acc.2.devs.1 := busMatchAddr_logged _ _ _ _ _
  rw [BusAccess.turn]
  cases hm : busMatchAddr conn.params addr true acc.2.devs.1 with
  | false =>
    rw [hm] at hmatch
    rw [busReadConn, if_neg (by rw [hmatch]; exact Bool.false_ne_true)]
    exact (if_neg (by rw [BusAccess.addr, calledView, hm]; exact Bool.false_ne_true)).symm
  | true =>
    rw [hm] at hmatch
    rw [if_pos (by exact hm)]
    cases hcb : conn.handlers.reader peek with
    | none =>
      have hcb' : conn.logged.handlers.reader peek = none := by rw [reader_logged, hcb]; rfl
      rw [BusHandlers.reader] at hcb'
      simp only [busReadConn, hmatch, if_true, hcb', BusAccess.handler, hcb, Option.map_none]
    | some cb =>
      have hcb' : conn.logged.handlers.reader peek =
          some (BusReadCb.logged (readCall peek conn.handle) cb) := by rw [reader_logged, hcb]; rfl
      rw [busReadConn_of_match sync acc hmatch hcb']
      simp only [Bus.afterCallback_devs, calledView, BusReadCb.logged, BusAccess.handler, hcb,
        Option.map_some, List.filterMap_append, List.filterMap_cons, conn?_readCall,
        List.filterMap_nil]

/-- A write asks the decoder about a read. -/
theorem busWriteConn_turn (addr : BitVec 16) (value : BitVec 8) (bus : Bus (ω × List BusCall))
    (conn : BusConn ω) :
    calledView (busWriteConn addr value bus conn.logged).devs =
      (BusAccess.write addr value).turn false (calledView bus.devs) conn := by
  have hmatch : busMatchAddr conn.logged.params addr false bus.devs =
      busMatchAddr conn.params addr false bus.devs.1 := busMatchAddr_logged _ _ _ _ _
  cases hm : busMatchAddr conn.params addr false bus.devs.1 with
  | false => simp [BusAccess.turn, BusAccess.addr, busWriteConn, calledView, hmatch, hm]
  | true =>
    rw [hm] at hmatch
    cases hcb : conn.handlers.write with
    | none =>
      have hcb' : conn.logged.handlers.write = none := by simp [BusConn.logged, hcb]
      simp [BusAccess.turn, BusAccess.addr, BusAccess.handler, busWriteConn, calledView, hm, hcb, hcb']
    | some cb =>
      have hcb' : conn.logged.handlers.write = some (BusWriteCb.logged (.write conn.handle) cb) := by
        simp [BusConn.logged, hcb]
      simp [BusAccess.turn, BusAccess.addr, BusAccess.handler, busWriteConn, calledView, hmatch, hm,
        hcb, hcb', BusWriteCb.logged, BusCall.conn?]

theorem readConns_turns (addr : BitVec 16) (peek sync : Bool) (conns : List (BusConn ω))
    (acc : Option (BitVec 8) × Bus (ω × List BusCall)) :
    calledView ((conns.map BusConn.logged).foldl (busReadConn addr peek sync) acc).2.devs =
      conns.foldl ((BusAccess.read addr peek sync).turn true) (calledView acc.2.devs) := by
  induction conns generalizing acc with
  | nil => rfl
  | cons conn conns ih => rw [List.map_cons, List.foldl_cons, List.foldl_cons, ih, busReadConn_turn]

theorem writeConns_turns (addr : BitVec 16) (value : BitVec 8) (conns : List (BusConn ω))
    (bus : Bus (ω × List BusCall)) :
    calledView ((conns.map BusConn.logged).foldl (busWriteConn addr value) bus).devs =
      conns.foldl ((BusAccess.write addr value).turn false) (calledView bus.devs) := by
  induction conns generalizing bus with
  | nil => rfl
  | cons conn conns ih => rw [List.map_cons, List.foldl_cons, List.foldl_cons, ih, busWriteConn_turn]

/-- The tracers call no connection. -/
theorem callTracers_called (tracers : List (BusTraceCb ω)) (bus : Bus (ω × List BusCall)) (op : BusOp)
    (htracers : bus.tracelist = logTracers 0 tracers) :
    (bus.callTracers op).devs.2.filterMap BusCall.conn? = bus.devs.2.filterMap BusCall.conn? := by
  have key : ∀ (tracers : List (BusTraceCb ω)) (index : Nat) (b : Bus (ω × List BusCall)),
      ((logTracers index tracers).foldl
        (fun b cb => b.afterCallback (cb op.addr op.val op.write op.sync b.devs)) b).devs.2.filterMap
          BusCall.conn? = b.devs.2.filterMap BusCall.conn? := by
    intro tracers
    induction tracers with
    | nil => exact fun _ _ => rfl
    | cons cb tracers ih =>
      intro index b
      rw [logTracers, List.foldl_cons, ih]
      simp [BusTraceCb.logged, BusCall.conn?]
  rw [Bus.callTracers, htracers]
  exact key tracers 0 _

/-- The bus asks every decoder about the opposite direction. -/
theorem Transaction.reached_eq (t : Transaction) (bus : Bus ω) :
    t.reached bus =
      (bus.connlist.foldl ((t.access bus).turn !(t.access bus).isWrite) (bus.devs, [])).2 := by
  have haccess : t.access (bus.logged []) = t.access bus := by cases t <;> rfl
  rw [reached, run_eq, haccess]
  cases t.access bus with
  | read addr peek sync =>
    have hturns := congrArg Prod.snd (readConns_turns addr peek sync bus.connlist (none, bus.logged []))
    have hsame := sameRecord_readConns addr peek sync (bus.connlist.map BusConn.logged)
      (none, bus.logged [])
    refine Eq.trans ?_ hturns
    cases peek with
    | true => rfl
    | false => exact callTracers_called bus.tracelist _ _ hsame.tracelist
  | write addr value =>
    have hturns := congrArg Prod.snd (writeConns_turns addr value bus.connlist (bus.logged []))
    have hsame := sameRecord_writeConns addr value (bus.connlist.map BusConn.logged) (bus.logged [])
    exact Eq.trans (callTracers_called bus.tracelist _ _ hsame.tracelist) hturns

/-! ## The two directions -/

section Turns
variable (a : BusAccess)

/-- The connections called come behind those called before. -/
theorem turns_append (write : Bool) (conns : List (BusConn ω)) (d : ω) (called : List Nat) :
    conns.foldl (a.turn write) (d, called) =
      ((conns.foldl (a.turn write) (d, [])).1, called ++ (conns.foldl (a.turn write) (d, [])).2) := by
  induction conns generalizing d called with
  | nil => simp
  | cons conn conns ih =>
    have hturn : a.turn write (d, called) conn =
        ((a.turn write (d, []) conn).1, called ++ (a.turn write (d, []) conn).2) := by
      unfold BusAccess.turn
      dsimp only
      split
      · split
        · rfl
        · simp
      · simp
    have hrest := ih (a.turn write (d, []) conn).1 (a.turn write (d, []) conn).2
    rw [List.foldl_cons, List.foldl_cons, hturn, ih, hrest, List.append_assoc]

theorem turns_mem (write : Bool) (conns : List (BusConn ω)) (d : ω) :
    ∀ handle ∈ (conns.foldl (a.turn write) (d, [])).2, handle ∈ conns.map (·.handle) := by
  induction conns generalizing d with
  | nil => exact fun _ h => h
  | cons conn conns ih =>
    intro handle h
    rw [List.foldl_cons, turns_append] at h
    rcases List.mem_append.mp h with h | h
    · have hconn : handle ∈ [conn.handle] := by
        revert h
        unfold BusAccess.turn
        split
        · split
          · exact id
          · exact fun h => absurd h List.not_mem_nil
        · exact fun h => absurd h List.not_mem_nil
      rw [List.mem_singleton.mp hconn]
      exact List.mem_cons_self
    · exact List.mem_cons_of_mem _ (ih _ _ h)

/-- A turn calls the connection when it has a handler and its decoder accepts. -/
theorem turn_called (write : Bool) (d : ω) (conn : BusConn ω) :
    (a.turn write (d, []) conn).2 =
      if (a.handler conn).isSome ∧ busMatchAddr conn.params a.addr write d then [conn.handle] else [] := by
  unfold BusAccess.turn
  cases a.handler conn with
  | none => simp
  | some f => cases busMatchAddr conn.params a.addr write d <;> simp

theorem turn_eq_of_match {write : Bool} {d : ω} {conn : BusConn ω}
    (h : (a.handler conn).isSome = true →
      busMatchAddr conn.params a.addr true d = busMatchAddr conn.params a.addr false d) :
    a.turn (!write) (d, []) conn = a.turn write (d, []) conn := by
  unfold BusAccess.turn
  cases hh : a.handler conn with
  | none => simp
  | some f =>
    rw [hh] at h
    have hmatch := h rfl
    cases write <;> simp [hmatch]

/-- Asked about the opposite direction, the decoders choose the same connections if and only
if none of them tells the directions apart. -/
theorem turns_eq_iff (conns : List (BusConn ω)) (hhandles : (conns.map (·.handle)).Nodup) (d : ω) :
    (conns.foldl (a.turn !a.isWrite) (d, [])).2 = (conns.foldl (a.turn a.isWrite) (d, [])).2 ↔
      a.Undirected conns d := by
  induction conns generalizing d with
  | nil => exact iff_of_true rfl trivial
  | cons conn conns ih =>
    obtain ⟨hfresh, hrest⟩ := List.nodup_cons.mp hhandles
    rw [List.foldl_cons, List.foldl_cons, turns_append, turns_append a a.isWrite, BusAccess.Undirected]
    by_cases hsame : (a.handler conn).isSome = true →
        busMatchAddr conn.params a.addr true d = busMatchAddr conn.params a.addr false d
    · rw [turn_eq_of_match a hsame, ← ih hrest]
      exact ⟨fun h => ⟨hsame, List.append_cancel_left h⟩, fun h => congrArg (_ ++ ·) h.2⟩
    -- the connection is called on one side, and later turns do not call it
    · refine iff_of_false ?_ fun h => hsame h.1
      intro heq
      have hnot : ∀ write d', conn.handle ∉ (conns.foldl (a.turn write) (d', [])).2 :=
        fun write d' h => hfresh (turns_mem a write conns d' _ h)
      have hmem := congrArg (conn.handle ∈ ·) heq
      simp only [List.mem_append, hnot, or_false, turn_called] at hmem
      simp only [Classical.not_imp] at hsame
      obtain ⟨hsome, hne⟩ := hsame
      cases hw : a.isWrite <;> cases ht : busMatchAddr conn.params a.addr true d <;>
        cases hf : busMatchAddr conn.params a.addr false d <;> simp_all

end Turns

/-- Registration gives every connection a handle of its own. -/
theorem emuBusRegister_nodup {bus : Bus ω} (h : (bus.connlist.map (·.handle)).Nodup)
    (params : BusDecodeParams ω) (handlers : BusHandlers ω) :
    ((emuBusRegister bus params handlers).2.connlist.map (·.handle)).Nodup := by
  unfold emuBusRegister
  split
  · rw [List.map_append, List.nodup_append]
    refine ⟨h, List.nodup_cons.mpr ⟨List.not_mem_nil, List.nodup_nil⟩, ?_⟩
    intro a ha b hb
    obtain ⟨conn, hconn, rfl⟩ := List.mem_map.mp ha
    obtain rfl := List.mem_singleton.mp hb
    exact Nat.ne_of_lt (handle_lt_freeHandle bus hconn)
  · exact h

/-- Direction-sensitive decoders. On any bus, with connections of any decoders, a transaction
calls the handlers of exactly the connections whose decoder accepts its address and its
direction if and only if no decoder of a connection with such a handler tells a read and a
write of the address apart. -/
theorem decoders_see_direction (bus : Bus ω) (hhandles : (bus.connlist.map (·.handle)).Nodup)
    (t : Transaction) :
    t.reached bus = (t.access bus).intended bus ↔
      (t.access bus).Undirected bus.connlist bus.devs := by
  rw [t.reached_eq bus]
  exact turns_eq_iff (t.access bus) bus.connlist hhandles bus.devs

/-- A read-only ROM and a write-only latch at the addresses from `$8000` on. -/
def romAndLatch : Bus (BitVec 8) :=
  Bus.init
    [{ handle := 1
       params := .custom fun addr write _ => addr.getLsbD 15 && !write
       handlers := { write := none, read := some fun _ _ d => (0xEA, d, []), peek := none } },
     { handle := 2
       params := .custom fun addr write _ => addr.getLsbD 15 && write
       handlers := { write := some fun _ val _ _ => (val, []), read := none, peek := none } }]
    [] 0

/-- The two, and a register at `$4000` that is read and written. -/
def romLatchRegister : Bus (BitVec 8) :=
  Bus.init
    (romAndLatch.connlist ++
      [{ handle := 3
         params := .custom fun addr _ _ => addr == 0x4000
         handlers := { write := some fun _ val _ _ => (val, []), read := some fun _ _ d => (d, d, []), peek := none } }])
    [] 0

/-- A write of the register reaches it, and the latch, which tells the directions apart elsewhere, not. -/
theorem decoders_see_direction_of_register :
    (Transaction.write 0x4000 0x01).reached romLatchRegister =
        (BusAccess.write 0x4000 0x01).intended romLatchRegister ∧
      (BusAccess.write 0x4000 0x01).intended romLatchRegister = [3] := by
  refine ⟨(decoders_see_direction romLatchRegister (by decide) (.write 0x4000 0x01)).mpr ?_, by decide⟩
  exact ⟨fun _ => rfl, fun _ => rfl, fun _ => rfl, trivial⟩

/-- A read of the ROM does not reach it. -/
theorem rom_read_misses :
    ¬ ∀ bus : Bus (BitVec 8), (bus.connlist.map (·.handle)).Nodup → ∀ t : Transaction,
      t.reached bus = (t.access bus).intended bus := by
  intro h
  have hread := h romAndLatch (by decide) (.read 0x8000)
  exact absurd hread (by decide)

end Cb6502
