import Cb6502.Cycle

/- Buses that only store bytes. On such a bus a read changes nothing but the record of
   the transaction, a write changes only what the devices store, nothing votes and no
   tracer is called; the operations of the bus then have the closed forms
   `busReadPeekI_store` and `busWrite_store`. A tick with RDY not held depends on the
   CPU, the stored bytes and the votes alone (`tick_store`). -/
namespace Cb6502
open Dialogue

variable {ω : Type}

/-- The decoder looks at the address and the direction only. -/
def BusDecodeParams.Stateless (params : BusDecodeParams ω) : Prop :=
  ∀ addr write d d', busMatchAddr params addr write d = busMatchAddr params addr write d'

/-- A connection to a device that stores bytes: reads change nothing, nothing votes. -/
structure BusConn.Stores (conn : BusConn ω) : Prop where
  decode : conn.params.Stateless
  read : ∀ cb, conn.handlers.read = some cb → ∀ addr sync d, (cb addr sync d).2 = (d, [])
  peek : ∀ cb, conn.handlers.peek = some cb → ∀ addr sync d, (cb addr sync d).2 = (d, [])
  write : ∀ cb, conn.handlers.write = some cb → ∀ addr val sync d, (cb addr val sync d).2 = []

/-- Every connection stores bytes. -/
def StoreConns (conns : List (BusConn ω)) : Prop := ∀ conn ∈ conns, conn.Stores

/-! ## Closed forms of the bus operations -/

/-- One connection's turn in a read, without its state. -/
def readStoreConn (addr : BitVec 16) (peek sync : Bool) (d : ω) (ret : Option (BitVec 8))
    (conn : BusConn ω) : Option (BitVec 8) :=
  if busMatchAddr conn.params addr true d then
    match if peek then conn.handlers.peek else conn.handlers.read with
    | some cb => some (ret.getD (cb addr sync d).1)
    | none => ret
  else ret

/-- The byte a read returns. -/
def storeRead (conns : List (BusConn ω)) (d : ω) (addr : BitVec 16) (peek sync : Bool) : BitVec 8 :=
  (conns.foldl (readStoreConn addr peek sync d) none).getD 0xFF

/-- One connection's turn in a write. -/
def writeStoreConn (addr : BitVec 16) (value : BitVec 8) (d : ω) (conn : BusConn ω) : ω :=
  if busMatchAddr conn.params addr false d then
    match conn.handlers.write with
    | some cb => (cb addr value false d).1
    | none => d
  else d

/-- What a write leaves stored. -/
def storeWrite (conns : List (BusConn ω)) (d : ω) (addr : BitVec 16) (value : BitVec 8) : ω :=
  conns.foldl (writeStoreConn addr value) d

theorem busReadConn_store {conn : BusConn ω} (h : conn.Stores) (addr : BitVec 16) (peek sync : Bool)
    (ret : Option (BitVec 8)) (bus : Bus ω) :
    busReadConn addr peek sync (ret, bus) conn =
      (readStoreConn addr peek sync bus.devs ret conn, bus) := by
  have hcb : ∀ cb, (if peek then conn.handlers.peek else conn.handlers.read) = some cb →
      (cb addr sync bus.devs).2 = (bus.devs, []) := by
    intro cb hc
    cases peek with
    | true => exact h.peek cb hc addr sync bus.devs
    | false => exact h.read cb hc addr sync bus.devs
  unfold busReadConn readStoreConn
  split
  · cases hsel : (if peek then conn.handlers.peek else conn.handlers.read) with
    | none => rfl
    | some cb =>
      have hquiet := hcb cb hsel
      cases ret with
      | none => simp [hquiet, Bus.afterCallback]
      | some r =>
        simp only [hquiet, Bus.afterCallback, List.foldl_nil, Option.getD_some, ne_eq]
        split
        · rfl
        · rename_i heq
          rw [Decidable.not_not.mp heq]
  · rfl

theorem busWriteConn_store {conn : BusConn ω} (h : conn.Stores) (addr : BitVec 16)
    (value : BitVec 8) (bus : Bus ω) :
    busWriteConn addr value bus conn =
      { bus with devs := writeStoreConn addr value bus.devs conn } := by
  unfold busWriteConn writeStoreConn
  split
  · cases hw : conn.handlers.write with
    | none => rfl
    | some cb => simp [Bus.afterCallback, h.write cb hw]
  · rfl

theorem readConns_store {conns : List (BusConn ω)} (h : StoreConns conns) (addr : BitVec 16)
    (peek sync : Bool) (ret : Option (BitVec 8)) (bus : Bus ω) :
    conns.foldl (busReadConn addr peek sync) (ret, bus) =
      (conns.foldl (readStoreConn addr peek sync bus.devs) ret, bus) := by
  induction conns generalizing ret with
  | nil => rfl
  | cons conn conns ih =>
    have hconn := h conn (List.mem_cons_self ..)
    have hrest : StoreConns conns := fun c hc => h c (List.mem_cons_of_mem _ hc)
    rw [List.foldl_cons, List.foldl_cons, busReadConn_store hconn, ih hrest]

theorem writeConns_store {conns : List (BusConn ω)} (h : StoreConns conns) (addr : BitVec 16)
    (value : BitVec 8) (bus : Bus ω) :
    conns.foldl (busWriteConn addr value) bus =
      { bus with devs := conns.foldl (writeStoreConn addr value) bus.devs } := by
  induction conns generalizing bus with
  | nil => rfl
  | cons conn conns ih =>
    have hconn := h conn (List.mem_cons_self ..)
    have hrest : StoreConns conns := fun c hc => h c (List.mem_cons_of_mem _ hc)
    rw [List.foldl_cons, List.foldl_cons, busWriteConn_store hconn, ih hrest]

/-- A bus that only stores bytes. -/
structure Bus.Stores (bus : Bus ω) : Prop where
  conns : StoreConns bus.connlist
  tracers : bus.tracelist = []

/-- The bus after the transaction `op`. -/
def Bus.commit (bus : Bus ω) (op : BusOp) : Bus ω :=
  { bus with
    trace := bus.trace ++ [op]
    lastop := if op.write then op else { bus.lastop with write := false, addr := op.addr, sync := op.sync } }

theorem Bus.Stores.busReadPeekI {bus : Bus ω} (h : bus.Stores) (addr : BitVec 16) (sync : Bool) :
    Cb6502.busReadPeekI bus addr false sync =
      (storeRead bus.connlist bus.devs addr false sync,
        bus.commit ⟨addr, storeRead bus.connlist bus.devs addr false sync, false, sync⟩) := by
  simp only [Cb6502.busReadPeekI, readConns_store h.conns, Bool.false_eq_true, if_false,
    Bus.callTracers, h.tracers, List.foldl_nil, storeRead, Bus.commit]

theorem Bus.Stores.busWrite {bus : Bus ω} (h : bus.Stores) (addr : BitVec 16) (value : BitVec 8) :
    Cb6502.busWrite bus addr value =
      Bus.commit { bus with devs := storeWrite bus.connlist bus.devs addr value }
        ⟨addr, value, true, false⟩ := by
  simp only [Cb6502.busWrite, writeConns_store h.conns, Bus.callTracers, h.tracers, List.foldl_nil,
    storeWrite, Bus.commit, if_true]

/-! ## The store as an environment -/

/-- A store with the transactions made on it. -/
structure StoreState (ω : Type) where
  devs : ω
  log : List BusOp

/-- The environment that `busEnv` is on a bus that only stores bytes. -/
def storeEnv (conns : List (BusConn ω)) : Prog.Env BusRead BusWrite (BitVec 8) (StoreState ω) where
  answer q s :=
    let b := storeRead conns s.devs q.addr false q.sync
    (b, { s with log := s.log ++ [⟨q.addr, b, false, q.sync⟩] })
  obey c s :=
    { devs := storeWrite conns s.devs c.addr c.val, log := s.log ++ [⟨c.addr, c.val, true, false⟩] }

/-- The bus with the store's bytes and its transactions made. -/
def Bus.after (bus : Bus ω) (s : StoreState ω) : Bus ω :=
  s.log.foldl Bus.commit { bus with devs := s.devs }

theorem Bus.foldl_commit_frame (l : List BusOp) (bus : Bus ω) :
    ∃ op, l.foldl Bus.commit bus = { bus with trace := bus.trace ++ l, lastop := op } := by
  induction l generalizing bus with
  | nil => exact ⟨bus.lastop, by rw [List.foldl_nil, List.append_nil]⟩
  | cons op l ih =>
    obtain ⟨lastop, h⟩ := ih (bus.commit op)
    refine ⟨lastop, ?_⟩
    rw [List.foldl_cons, h]
    simp only [Bus.commit, List.append_assoc, List.singleton_append]

/-- What the transactions leave alone. -/
theorem Bus.after_frame (bus : Bus ω) (s : StoreState ω) :
    ∃ op, bus.after s = { bus with devs := s.devs, trace := bus.trace ++ s.log, lastop := op } :=
  foldl_commit_frame s.log { bus with devs := s.devs }

@[simp] theorem Bus.after_connlist (bus : Bus ω) (s : StoreState ω) :
    (bus.after s).connlist = bus.connlist := by
  obtain ⟨op, h⟩ := bus.after_frame s
  rw [h]

@[simp] theorem Bus.after_tracelist (bus : Bus ω) (s : StoreState ω) :
    (bus.after s).tracelist = bus.tracelist := by
  obtain ⟨op, h⟩ := bus.after_frame s
  rw [h]

@[simp] theorem Bus.after_devs (bus : Bus ω) (s : StoreState ω) : (bus.after s).devs = s.devs := by
  obtain ⟨op, h⟩ := bus.after_frame s
  rw [h]

@[simp] theorem Bus.after_sigvotes (bus : Bus ω) (s : StoreState ω) :
    (bus.after s).sigvotes = bus.sigvotes := by
  obtain ⟨op, h⟩ := bus.after_frame s
  rw [h]

@[simp] theorem Bus.after_trace (bus : Bus ω) (s : StoreState ω) :
    (bus.after s).trace = bus.trace ++ s.log := by
  obtain ⟨op, h⟩ := bus.after_frame s
  rw [h]

theorem Bus.Stores.after {bus : Bus ω} (h : bus.Stores) (s : StoreState ω) : (bus.after s).Stores :=
  ⟨by rw [after_connlist]; exact h.conns, by rw [after_tracelist]; exact h.tracers⟩

/-- The last operation of the bus after `log`. -/
def lastOpAfter (lastop : BusOp) (log : List BusOp) : BusOp :=
  log.foldl (fun l op => if op.write then op else { l with write := false, addr := op.addr, sync := op.sync })
    lastop

theorem Bus.after_lastop (bus : Bus ω) (s : StoreState ω) :
    (bus.after s).lastop = lastOpAfter bus.lastop s.log := by
  have key : ∀ (l : List BusOp) (b : Bus ω),
      (l.foldl Bus.commit b).lastop = lastOpAfter b.lastop l := by
    intro l
    induction l with
    | nil => exact fun b => rfl
    | cons op l ih => exact fun b => ih (b.commit op)
  exact key s.log _

theorem Bus.after_read (bus : Bus ω) (s : StoreState ω) (op : BusOp) :
    (bus.after s).commit op = bus.after { s with log := s.log ++ [op] } := by
  simp only [Bus.after, List.foldl_append, List.foldl_cons, List.foldl_nil]

theorem Bus.after_write (bus : Bus ω) (s : StoreState ω) (d : ω) (op : BusOp) :
    Bus.commit { bus.after s with devs := d } op = bus.after { devs := d, log := s.log ++ [op] } := by
  have key : ∀ (l : List BusOp) (b : Bus ω),
      { l.foldl Bus.commit b with devs := d } = l.foldl Bus.commit { b with devs := d } := by
    intro l
    induction l with
    | nil => exact fun b => rfl
    | cons op l ih => exact fun b => ih (b.commit op)
  simp only [Bus.after, key, List.foldl_append, List.foldl_cons, List.foldl_nil]

/-- On a bus that only stores bytes, `busEnv` is `storeEnv`. -/
theorem simulates_store (bus : Bus ω) (h : bus.Stores) :
    Prog.Simulates busEnv (storeEnv bus.connlist) fun b s => b = bus.after s := by
  refine ⟨?_, ?_⟩
  · rintro q b s rfl
    have hs := h.after s
    have hread := hs.busReadPeekI q.addr q.sync
    rw [Bus.after_connlist, Bus.after_devs, Bus.after_read] at hread
    have hq : busEnv.answer q (bus.after s) = busReadPeekI (bus.after s) q.addr false q.sync := by
      simp only [busEnv, busSyncRead, busRead]
      cases q.sync <;> rfl
    rw [hq, hread]
    exact ⟨rfl, rfl⟩
  · rintro c b s rfl
    have hwrite := (h.after s).busWrite c.addr c.val
    have hd : storeWrite (bus.after s).connlist (bus.after s).devs c.addr c.val =
        storeWrite bus.connlist s.devs c.addr c.val := by
      rw [Bus.after_connlist, Bus.after_devs]
    rw [hd] at hwrite
    exact hwrite.trans (bus.after_write s _ _)

theorem run_store {α : Type} {bus : Bus ω} (h : bus.Stores) (p : BusM α) :
    p.run busEnv bus = ((p.run (storeEnv bus.connlist) ⟨bus.devs, []⟩).1,
      bus.after (p.run (storeEnv bus.connlist) ⟨bus.devs, []⟩).2) := by
  have hrun := (simulates_store bus h).run (Prog.Match.refl (S := Eq) (fun _ => rfl) p)
    (s := bus) (t := ⟨bus.devs, []⟩) rfl
  exact Prod.ext hrun.1 hrun.2

/-- The run of one tick on the stored bytes `d`. -/
def storeTick (conns : List (BusConn ω)) (v : SigVotes) (cpu : Cpu) (d : ω) : Cpu × StoreState ω :=
  (tickProg v cpu.clearCycle).run (storeEnv conns) ⟨d, []⟩

theorem Bus.Stores.ackNmi {bus : Bus ω} (h : bus.Stores) (cpu : Cpu) : (bus.ackNmi cpu).Stores := by
  unfold Bus.ackNmi
  split
  · exact ⟨h.conns, h.tracers⟩
  · exact h

@[simp] theorem Bus.ackNmi_connlist (bus : Bus ω) (cpu : Cpu) :
    (bus.ackNmi cpu).connlist = bus.connlist := by
  unfold Bus.ackNmi
  split <;> rfl

@[simp] theorem Bus.ackNmi_devs (bus : Bus ω) (cpu : Cpu) : (bus.ackNmi cpu).devs = bus.devs := by
  unfold Bus.ackNmi
  split <;> rfl

@[simp] theorem Bus.ackNmi_trace (bus : Bus ω) (cpu : Cpu) : (bus.ackNmi cpu).trace = bus.trace := by
  unfold Bus.ackNmi
  split <;> rfl

@[simp] theorem Bus.ackNmi_lastop (bus : Bus ω) (cpu : Cpu) :
    (bus.ackNmi cpu).lastop = bus.lastop := by
  unfold Bus.ackNmi
  split <;> rfl

/-- A tick with RDY not held depends on the connections, the votes, the CPU and the
stored bytes alone. -/
theorem tick_store (emu : Emu ω) (h : emu.bus.Stores) (hrdy : emu.bus.sigvotes.rdy = 0) :
    emu.tick =
      { bus := (emu.bus.ackNmi emu.cpu).after
          (storeTick emu.bus.connlist emu.bus.sigvotes emu.cpu emu.bus.devs).2
        cpu := (storeTick emu.bus.connlist emu.bus.sigvotes emu.cpu emu.bus.devs).1.clearCycle } := by
  have hrun : emu.tickRun =
      ((storeTick emu.bus.connlist emu.bus.sigvotes emu.cpu emu.bus.devs).1,
        (emu.bus.ackNmi emu.cpu).after
          (storeTick emu.bus.connlist emu.bus.sigvotes emu.cpu emu.bus.devs).2) := by
    rw [Emu.tickRun, run_store (h.ackNmi emu.cpu), Bus.ackNmi_connlist, Bus.ackNmi_devs]
    rfl
  rw [tick_unstalled emu hrdy, hrun]

end Cb6502
