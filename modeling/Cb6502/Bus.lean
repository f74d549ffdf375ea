/- The emulator bus (core/src/bus.c): connections and their decoders, reads,
   peeks and writes, tracers, the replay of the last operation, and the votes on
   the IRQ, NMI, RDY and BE signals.

   A C callback with its `userdata` is a function on `ω`, the state of everything
   the callbacks own (`devs`). A callback reaches back into the emulator only
   through `emu_bus_sig_vote`, so it returns the votes it casts, in order, and the
   bus applies them. Tracer callbacks are of the same kind.

   Two fields are history variables that no modelled function reads: `trace`, the
   committed transactions so far as a tracer sees them, and `nmiEdges`, the number
   of times the NMI vote mask has gone from zero to non-zero. -/
namespace Cb6502

/-- `(uint16_t)` of a byte. -/
abbrev u16 (b : BitVec 8) : BitVec 16 := b.setWidth 16

/-- `(uint8_t)` of a word. -/
abbrev u8 (w : BitVec 16) : BitVec 8 := w.setWidth 8

/-! ## Signal votes -/

inductive BusSignal where
  | irq | nmi | rdy | be
  deriving DecidableEq

def BUS_SIGNAL_INVALID_VOTER : BitVec 32 := 0xFFFFFFFF

/-- `MAX_SIG_VOTERS`: the bits of `bus_signal_voter_t`. -/
def maxSigVoters : Nat := 32

/-- `bus_sigvotes_t`; `nmiEdgePending` is the flag `SV_NMI_EDGE_PENDING`. -/
structure SigVotes where
  allocated : BitVec 32 := 0
  irq : BitVec 32 := 0
  nmi : BitVec 32 := 0
  rdy : BitVec 32 := 0
  be : BitVec 32 := 0
  nmiEdgePending : Bool := false
  deriving DecidableEq

/-- The vote mask of a signal. -/
def SigVotes.mask (v : SigVotes) : BusSignal → BitVec 32
  | .irq => v.irq
  | .nmi => v.nmi
  | .rdy => v.rdy
  | .be => v.be

def SigVotes.setMask (v : SigVotes) (signal : BusSignal) (m : BitVec 32) : SigVotes :=
  match signal with
  | .irq => { v with irq := m }
  | .nmi => { v with nmi := m }
  | .rdy => { v with rdy := m }
  | .be => { v with be := m }

/-- `emu_bus_register_sig_voter`: the first free bit, or the invalid voter. -/
def emuBusRegisterSigVoter (v : SigVotes) : BitVec 32 × SigVotes :=
  match (List.range maxSigVoters).find? fun index => v.allocated &&& (1#32 <<< index) == 0 with
  | some index => (1#32 <<< index, { v with allocated := v.allocated ||| (1#32 <<< index) })
  | none => (BUS_SIGNAL_INVALID_VOTER, v)

/-- `emu_bus_unregister_sig_voter`. -/
def emuBusUnregisterSigVoter (v : SigVotes) (voter : BitVec 32) : SigVotes :=
  { v with allocated := v.allocated &&& ~~~voter }

/-- `emu_bus_sig_vote`. -/
def emuBusSigVote (v : SigVotes) (voter : BitVec 32) (signal : BusSignal) (voted : Bool) :
    SigVotes :=
  if v.allocated &&& voter = 0 then v
  else
    -- The first vote for NMI is the edge the CPU core detects.
    let v := if signal = .nmi ∧ voted = true ∧ v.nmi = 0 then { v with nmiEdgePending := true } else v
    v.setMask signal (if voted then v.mask signal ||| voter else v.mask signal &&& ~~~voter)

/-- A call of `emu_bus_sig_vote`. -/
structure SigVote where
  voter : BitVec 32
  signal : BusSignal
  voted : Bool
  deriving DecidableEq

/-! ## Connections, tracers and the bus state -/

/-- `bus_decode_params_t`. -/
inductive BusDecodeParams (ω : Type) where
  | range (addrStart addrEnd : BitVec 16)
  | mask (addrMask addrValue : BitVec 16)
  | custom (cb : BitVec 16 → Bool → ω → Bool)

/-- `bus_read_cb_t`: address and SYNC flag. -/
abbrev BusReadCb (ω : Type) := BitVec 16 → Bool → ω → BitVec 8 × ω × List SigVote

/-- `bus_write_cb_t`. -/
abbrev BusWriteCb (ω : Type) := BitVec 16 → BitVec 8 → Bool → ω → ω × List SigVote

/-- `bus_trace_cb_t`: address, value, write flag and SYNC flag. -/
abbrev BusTraceCb (ω : Type) := BitVec 16 → BitVec 8 → Bool → Bool → ω → ω × List SigVote

/-- `bus_handlers_t`; `none` is the null callback. -/
structure BusHandlers (ω : Type) where
  write : Option (BusWriteCb ω)
  read : Option (BusReadCb ω)
  peek : Option (BusReadCb ω)

/-- `bus_conn_t`; `handle` names the structure. -/
structure BusConn (ω : Type) where
  handle : Nat
  params : BusDecodeParams ω
  handlers : BusHandlers ω

/-- `bus_op_t`. -/
structure BusOp where
  addr : BitVec 16 := 0
  val : BitVec 8 := 0
  write : Bool := false
  sync : Bool := false
  deriving DecidableEq

/-- `bus_t`, with the state of the callbacks' owners and the history variables. -/
structure Bus (ω : Type) where
  connlist : List (BusConn ω)
  tracelist : List (BusTraceCb ω)
  sigvotes : SigVotes
  lastop : BusOp
  devs : ω
  trace : List BusOp
  nmiEdges : Nat

/-- The bus of a fresh emulator, with its connections and tracers made. -/
def Bus.init {ω : Type} (connlist : List (BusConn ω)) (tracelist : List (BusTraceCb ω)) (devs : ω) :
    Bus ω :=
  { connlist, tracelist, sigvotes := {}, lastop := {}, devs, trace := [], nmiEdges := 0 }

variable {ω : Type}

/-- A vote on the bus, with the edge count kept. -/
def Bus.sigVote (bus : Bus ω) (c : SigVote) : Bus ω :=
  let v := emuBusSigVote bus.sigvotes c.voter c.signal c.voted
  { bus with
    sigvotes := v
    nmiEdges := if bus.sigvotes.nmi = 0 ∧ v.nmi ≠ 0 then bus.nmiEdges + 1 else bus.nmiEdges }

/-- What a callback leaves behind: its owner's new state, then the votes it cast. -/
def Bus.afterCallback (bus : Bus ω) (r : ω × List SigVote) : Bus ω :=
  r.2.foldl Bus.sigVote { bus with devs := r.1 }

/-! ## Connections -/

/-- `bus_validate_params`. -/
def busValidateParams (params : BusDecodeParams ω) : Bool :=
  match params with
  | .range addrStart addrEnd => decide (addrEnd ≥ addrStart)
  | .mask addrMask _ => addrMask != 0
  | .custom _ => true

/-- A handle that no connection has. -/
def Bus.freeHandle (bus : Bus ω) : Nat :=
  (bus.connlist.map (·.handle)).foldl max 0 + 1

/-- `emu_bus_register`: the new connection goes to the tail of the list. -/
def emuBusRegister (bus : Bus ω) (params : BusDecodeParams ω) (handlers : BusHandlers ω) :
    Option Nat × Bus ω :=
  if busValidateParams params then
    let handle := bus.freeHandle
    (some handle, { bus with connlist := bus.connlist ++ [{ handle, params, handlers }] })
  else (none, bus)

/-- `emu_bus_unregister`. -/
def emuBusUnregister (bus : Bus ω) (handle : Nat) : Bus ω :=
  { bus with connlist := bus.connlist.filter fun conn => conn.handle != handle }

/-! ## Reads, peeks and writes -/

/-- `bus_match_addr`. -/
def busMatchAddr (params : BusDecodeParams ω) (addr : BitVec 16) (write : Bool) (devs : ω) : Bool :=
  match params with
  | .range addrStart addrEnd => decide (addrStart ≤ addr) && decide (addr ≤ addrEnd)
  | .mask addrMask addrValue => addr &&& addrMask == addrValue
  | .custom cb => cb addr write devs

/-- One connection's turn in the loop of `bus_read_peek_i`: `ret` is `none` until
some connection has matched. The decoder is passed `true` as its write flag. -/
def busReadConn (addr : BitVec 16) (peek sync : Bool) (acc : Option (BitVec 8) × Bus ω)
    (conn : BusConn ω) : Option (BitVec 8) × Bus ω :=
  if busMatchAddr conn.params addr true acc.2.devs then
    match if peek then conn.handlers.peek else conn.handlers.read with
    | some cb =>
      let (connReadVal, r) := cb addr sync acc.2.devs
      match acc.1 with
      | some ret => (if connReadVal ≠ ret then some ret else some connReadVal, acc.2.afterCallback r)
      | none => (some connReadVal, acc.2.afterCallback r)
    | none => acc
  else acc

/-- Every tracer is called with the transaction. -/
def Bus.callTracers (bus : Bus ω) (op : BusOp) : Bus ω :=
  bus.tracelist.foldl (fun b cb => b.afterCallback (cb op.addr op.val op.write op.sync b.devs))
    { bus with trace := bus.trace ++ [op] }

/-- `bus_read_peek_i`. -/
def busReadPeekI (bus : Bus ω) (addr : BitVec 16) (peek sync : Bool) : BitVec 8 × Bus ω :=
  let (matched, bus) := bus.connlist.foldl (busReadConn addr peek sync) (none, bus)
  let ret := matched.getD 0xFF
  if peek then (ret, bus)
  else
    let bus := bus.callTracers { addr, val := ret, write := false, sync }
    (ret, { bus with lastop := { bus.lastop with write := false, addr, sync } })

/-- `bus_read`. -/
def busRead (bus : Bus ω) (addr : BitVec 16) : BitVec 8 × Bus ω := busReadPeekI bus addr false false

/-- `bus_sync_read`. -/
def busSyncRead (bus : Bus ω) (addr : BitVec 16) : BitVec 8 × Bus ω :=
  busReadPeekI bus addr false true

/-- `bus_peek`. -/
def busPeek (bus : Bus ω) (addr : BitVec 16) : BitVec 8 × Bus ω := busReadPeekI bus addr true false

/-- One connection's turn in the loop of `bus_write`. -/
def busWriteConn (addr : BitVec 16) (value : BitVec 8) (bus : Bus ω) (conn : BusConn ω) : Bus ω :=
  if busMatchAddr conn.params addr false bus.devs then
    match conn.handlers.write with
    | some cb => bus.afterCallback (cb addr value false bus.devs)
    | none => bus
  else bus

/-- `bus_write`. -/
def busWrite (bus : Bus ω) (addr : BitVec 16) (value : BitVec 8) : Bus ω :=
  let bus := bus.connlist.foldl (busWriteConn addr value) bus
  let bus := bus.callTracers { addr, val := value, write := true, sync := false }
  { bus with lastop := { write := true, addr, val := value, sync := false } }

/-- `bus_replay`. -/
def busReplay (bus : Bus ω) : Bus ω :=
  if bus.lastop.write then busWrite bus bus.lastop.addr bus.lastop.val
  else (busReadPeekI bus bus.lastop.addr false bus.lastop.sync).2

/-! ## What the operations leave alone -/

theorem Bus.foldl_sigVote_frame (l : List SigVote) (bus : Bus ω) :
    ∃ v n, l.foldl Bus.sigVote bus = { bus with sigvotes := v, nmiEdges := n } := by
  induction l generalizing bus with
  | nil => exact ⟨bus.sigvotes, bus.nmiEdges, rfl⟩
  | cons c l ih =>
    obtain ⟨v, n, h⟩ := ih (bus.sigVote c)
    exact ⟨v, n, by rw [List.foldl_cons, h]; rfl⟩

/-- A callback changes its owner's state and the votes, nothing else. -/
theorem Bus.afterCallback_frame (bus : Bus ω) (r : ω × List SigVote) :
    ∃ v n, bus.afterCallback r = { bus with devs := r.1, sigvotes := v, nmiEdges := n } := by
  obtain ⟨v, n, h⟩ := foldl_sigVote_frame r.2 { bus with devs := r.1 }
  exact ⟨v, n, h⟩

/-- `b'` differs from `b` in what callbacks own and vote only. -/
structure Bus.SameRecord (b b' : Bus ω) : Prop where
  connlist : b'.connlist = b.connlist
  tracelist : b'.tracelist = b.tracelist
  lastop : b'.lastop = b.lastop
  trace : b'.trace = b.trace

theorem Bus.SameRecord.refl (b : Bus ω) : b.SameRecord b := ⟨rfl, rfl, rfl, rfl⟩

theorem Bus.SameRecord.trans {b b' b'' : Bus ω} (h : b.SameRecord b') (h' : b'.SameRecord b'') :
    b.SameRecord b'' :=
  ⟨h'.connlist.trans h.connlist, h'.tracelist.trans h.tracelist, h'.lastop.trans h.lastop,
    h'.trace.trans h.trace⟩

theorem Bus.sameRecord_afterCallback (bus : Bus ω) (r : ω × List SigVote) :
    bus.SameRecord (bus.afterCallback r) := by
  obtain ⟨v, n, h⟩ := bus.afterCallback_frame r
  rw [h]
  exact ⟨rfl, rfl, rfl, rfl⟩

theorem sameRecord_busReadConn (addr : BitVec 16) (peek sync : Bool)
    (acc : Option (BitVec 8) × Bus ω) (conn : BusConn ω) :
    acc.2.SameRecord (busReadConn addr peek sync acc conn).2 := by
  unfold busReadConn
  split
  · split
    · dsimp only
      split <;> exact acc.2.sameRecord_afterCallback _
    · exact Bus.SameRecord.refl _
  · exact Bus.SameRecord.refl _

theorem sameRecord_busWriteConn (addr : BitVec 16) (value : BitVec 8) (bus : Bus ω)
    (conn : BusConn ω) : bus.SameRecord (busWriteConn addr value bus conn) := by
  unfold busWriteConn
  split
  · split
    · exact bus.sameRecord_afterCallback _
    · exact Bus.SameRecord.refl _
  · exact Bus.SameRecord.refl _

theorem sameRecord_readConns (addr : BitVec 16) (peek sync : Bool) (conns : List (BusConn ω))
    (acc : Option (BitVec 8) × Bus ω) :
    acc.2.SameRecord (conns.foldl (busReadConn addr peek sync) acc).2 := by
  induction conns generalizing acc with
  | nil => exact Bus.SameRecord.refl _
  | cons conn conns ih =>
    rw [List.foldl_cons]
    exact (sameRecord_busReadConn addr peek sync acc conn).trans (ih _)

theorem sameRecord_writeConns (addr : BitVec 16) (value : BitVec 8) (conns : List (BusConn ω))
    (bus : Bus ω) : bus.SameRecord (conns.foldl (busWriteConn addr value) bus) := by
  induction conns generalizing bus with
  | nil => exact Bus.SameRecord.refl _
  | cons conn conns ih =>
    rw [List.foldl_cons]
    exact (sameRecord_busWriteConn addr value bus conn).trans (ih _)

/-- The tracers see one more transaction. -/
theorem Bus.sameRecord_callTracers (bus : Bus ω) (op : BusOp) :
    Bus.SameRecord { bus with trace := bus.trace ++ [op] } (bus.callTracers op) := by
  unfold Bus.callTracers
  have key : ∀ (tracers : List (BusTraceCb ω)) (b : Bus ω), b.SameRecord
      (tracers.foldl (fun b cb => b.afterCallback (cb op.addr op.val op.write op.sync b.devs)) b) := by
    intro tracers
    induction tracers with
    | nil => exact fun b => Bus.SameRecord.refl b
    | cons cb tracers ih => exact fun b => (b.sameRecord_afterCallback _).trans (ih _)
  exact key _ _

/-! ## What a transaction records -/

/-- `b'` is `b` after the transaction `op`. -/
structure Bus.Committed (b : Bus ω) (op : BusOp) (b' : Bus ω) : Prop where
  connlist : b'.connlist = b.connlist
  tracelist : b'.tracelist = b.tracelist
  trace : b'.trace = b.trace ++ [op]
  addr : b'.lastop.addr = op.addr
  write : b'.lastop.write = op.write
  sync : b'.lastop.sync = op.sync
  val : op.write = true → b'.lastop.val = op.val

theorem committed_read (bus : Bus ω) (addr : BitVec 16) (sync : Bool) :
    bus.Committed { addr, val := (busReadPeekI bus addr false sync).1, write := false, sync }
      (busReadPeekI bus addr false sync).2 := by
  simp only [busReadPeekI, Bool.false_eq_true, if_false]
  have hconns := sameRecord_readConns addr false sync bus.connlist (none, bus)
  have htrace := (bus.connlist.foldl (busReadConn addr false sync) (none, bus)).2.sameRecord_callTracers
    { addr, val := (bus.connlist.foldl (busReadConn addr false sync) (none, bus)).1.getD 0xFF,
      write := false, sync }
  exact ⟨htrace.connlist.trans hconns.connlist, htrace.tracelist.trans hconns.tracelist,
    htrace.trace.trans (by rw [hconns.trace]), rfl, rfl, rfl, nofun⟩

theorem committed_write (bus : Bus ω) (addr : BitVec 16) (value : BitVec 8) :
    bus.Committed { addr, val := value, write := true, sync := false } (busWrite bus addr value) := by
  have hconns := sameRecord_writeConns addr value bus.connlist bus
  have htrace := (bus.connlist.foldl (busWriteConn addr value) bus).sameRecord_callTracers
    { addr, val := value, write := true, sync := false }
  exact ⟨htrace.connlist.trans hconns.connlist, htrace.tracelist.trans hconns.tracelist,
    htrace.trace.trans (by rw [hconns.trace]), rfl, rfl, rfl, fun _ => rfl⟩

/-- A replay is one more transaction like the last. -/
theorem committed_replay (bus : Bus ω) :
    ∃ op, bus.Committed op (busReplay bus) ∧ op.addr = bus.lastop.addr ∧
      op.write = bus.lastop.write ∧ (op.write = true → op.val = bus.lastop.val) ∧
      (op.write = false → op.sync = bus.lastop.sync) := by
  unfold busReplay
  cases hw : bus.lastop.write with
  | true =>
    rw [if_pos rfl]
    exact ⟨_, committed_write bus bus.lastop.addr bus.lastop.val, rfl, rfl, fun _ => rfl,
      nofun⟩
  | false =>
    rw [if_neg Bool.false_ne_true]
    exact ⟨_, committed_read bus bus.lastop.addr bus.lastop.sync, rfl, rfl, nofun,
      fun _ => rfl⟩

/-- A property of the bus that every read and write keeps. -/
structure Bus.Kept (I : Bus ω → Prop) : Prop where
  read : ∀ {bus}, I bus → ∀ addr sync, I (busReadPeekI bus addr false sync).2
  write : ∀ {bus}, I bus → ∀ addr value, I (busWrite bus addr value)

theorem Bus.Kept.replay {I : Bus ω → Prop} (hI : Bus.Kept I) {bus : Bus ω} (h : I bus) :
    I (busReplay bus) := by
  unfold busReplay
  split
  · exact hI.write h _ _
  · exact hI.read h _ _

theorem kept_connlist (conns : List (BusConn ω)) : Bus.Kept fun bus => bus.connlist = conns :=
  ⟨fun h addr sync => (committed_read _ addr sync).connlist.trans h,
    fun h addr value => (committed_write _ addr value).connlist.trans h⟩

/-! ## Invariants of the votes -/

/-- A property of the votes and the edge count that every vote keeps. -/
structure Bus.VoteStable (I : Bus ω → Prop) : Prop where
  frame : ∀ (b : Bus ω) d t o, I b → I { b with devs := d, trace := t, lastop := o }
  sigVote : ∀ b c, I b → I (b.sigVote c)

namespace Bus.VoteStable
variable {I : Bus ω → Prop} (hI : Bus.VoteStable I)
include hI

theorem afterCallback (bus : Bus ω) (r : ω × List SigVote) (h : I bus) : I (bus.afterCallback r) := by
  have key : ∀ (l : List SigVote) (b : Bus ω), I b → I (l.foldl Bus.sigVote b) := by
    intro l
    induction l with
    | nil => exact fun b hb => hb
    | cons c l ih => exact fun b hb => ih _ (hI.sigVote b c hb)
  exact key r.2 _ (hI.frame bus r.1 bus.trace bus.lastop h)

theorem busReadConn (addr : BitVec 16) (peek sync : Bool) (acc : Option (BitVec 8) × Bus ω)
    (conn : BusConn ω) (h : I acc.2) : I (Cb6502.busReadConn addr peek sync acc conn).2 := by
  unfold Cb6502.busReadConn
  split
  · split
    · dsimp only
      split <;> exact hI.afterCallback _ _ h
    · exact h
  · exact h

theorem readConns (addr : BitVec 16) (peek sync : Bool) (conns : List (BusConn ω))
    (acc : Option (BitVec 8) × Bus ω) (h : I acc.2) :
    I (conns.foldl (Cb6502.busReadConn addr peek sync) acc).2 := by
  induction conns generalizing acc with
  | nil => exact h
  | cons conn conns ih => exact ih _ (hI.busReadConn addr peek sync acc conn h)

theorem busWriteConn (addr : BitVec 16) (value : BitVec 8) (bus : Bus ω) (conn : BusConn ω)
    (h : I bus) : I (Cb6502.busWriteConn addr value bus conn) := by
  unfold Cb6502.busWriteConn
  split
  · split
    · exact hI.afterCallback _ _ h
    · exact h
  · exact h

theorem writeConns (addr : BitVec 16) (value : BitVec 8) (conns : List (BusConn ω)) (bus : Bus ω)
    (h : I bus) : I (conns.foldl (Cb6502.busWriteConn addr value) bus) := by
  induction conns generalizing bus with
  | nil => exact h
  | cons conn conns ih => exact ih _ (hI.busWriteConn addr value bus conn h)

theorem callTracers (bus : Bus ω) (op : BusOp) (h : I bus) : I (bus.callTracers op) := by
  have key : ∀ (tracers : List (BusTraceCb ω)) (b : Bus ω), I b → I (tracers.foldl
      (fun b cb => b.afterCallback (cb op.addr op.val op.write op.sync b.devs)) b) := by
    intro tracers
    induction tracers with
    | nil => exact fun b hb => hb
    | cons cb tracers ih => exact fun b hb => ih _ (hI.afterCallback b _ hb)
  exact key _ _ (hI.frame bus bus.devs (bus.trace ++ [op]) bus.lastop h)

theorem busReadPeekI (bus : Bus ω) (addr : BitVec 16) (peek sync : Bool) (h : I bus) :
    I (Cb6502.busReadPeekI bus addr peek sync).2 := by
  have hconns := hI.readConns addr peek sync bus.connlist (none, bus) h
  unfold Cb6502.busReadPeekI
  dsimp only
  split
  · exact hconns
  · exact hI.frame _ _ _ _ (hI.callTracers _ _ hconns)

theorem busWrite (bus : Bus ω) (addr : BitVec 16) (value : BitVec 8) (h : I bus) :
    I (Cb6502.busWrite bus addr value) :=
  hI.frame _ _ _ _ (hI.callTracers _ _ (hI.writeConns addr value bus.connlist bus h))

theorem kept : Bus.Kept I :=
  ⟨fun h addr sync => hI.busReadPeekI _ addr false sync h,
    fun h addr value => hI.busWrite _ addr value h⟩

end Bus.VoteStable

end Cb6502
