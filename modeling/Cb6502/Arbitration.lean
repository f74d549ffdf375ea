import Cb6502.Bus

/- Who answers on the bus. `Registrations` is a history of registrations and
   unregistrations, with the connections that are still registered and the number each
   was given when it came. `Bus.logged` is the same bus with handlers and tracers that
   also write down their calls; the logged bus computes the same values
   (`busReadPeekI_logged`), so its log is the calls of the bus itself. -/
namespace Cb6502

variable {ω : Type}

/-! ## Decoders -/

/-- The decoder is a range or a mask. -/
def BusDecodeParams.isFixed : BusDecodeParams ω → Bool
  | .range _ _ | .mask _ _ => true
  | .custom _ => false

/-- The addresses of a range or a mask. -/
def BusDecodeParams.decodes (addr : BitVec 16) : BusDecodeParams ω → Bool
  | .range addrStart addrEnd => decide (addrStart ≤ addr) && decide (addr ≤ addrEnd)
  | .mask addrMask addrValue => addr &&& addrMask == addrValue
  | .custom _ => false

theorem busMatchAddr_of_isFixed {params : BusDecodeParams ω} (h : params.isFixed = true)
    (addr : BitVec 16) (write : Bool) (devs : ω) :
    busMatchAddr params addr write devs = params.decodes addr := by
  cases params with
  | range addrStart addrEnd => rfl
  | mask addrMask addrValue => rfl
  | custom cb => exact Bool.noConfusion h

/-! ## Registration histories -/

/-- The connections registered and not unregistered since, each with the number of its
registration; `next` is the number of the next one. -/
inductive Registrations : Bus ω → List (Nat × BusConn ω) → Nat → Prop where
  | init (tracelist : List (BusTraceCb ω)) (devs : ω) : Registrations (Bus.init [] tracelist devs) [] 0
  | register {bus : Bus ω} {live : List (Nat × BusConn ω)} {next : Nat} (params : BusDecodeParams ω)
      (handlers : BusHandlers ω) (h : Registrations bus live next) (hfixed : params.isFixed = true)
      (hvalid : busValidateParams params = true) :
      Registrations (emuBusRegister bus params handlers).2
        (live ++ [(next, { handle := bus.freeHandle, params, handlers })]) (next + 1)
  | rejected {bus : Bus ω} {live : List (Nat × BusConn ω)} {next : Nat} (params : BusDecodeParams ω)
      (handlers : BusHandlers ω) (h : Registrations bus live next)
      (hvalid : busValidateParams params = false) :
      Registrations (emuBusRegister bus params handlers).2 live next
  | unregister {bus : Bus ω} {live : List (Nat × BusConn ω)} {next : Nat} (handle : Nat)
      (h : Registrations bus live next) :
      Registrations (emuBusUnregister bus handle) (live.filter fun e => e.2.handle != handle) next
  | access {bus : Bus ω} {live : List (Nat × BusConn ω)} {next : Nat} (bus' : Bus ω)
      (h : Registrations bus live next) (hconns : bus'.connlist = bus.connlist) :
      Registrations bus' live next

/-- What the history says about the list of connections. -/
structure Registered (conns : List (BusConn ω)) (live : List (Nat × BusConn ω)) (next : Nat) : Prop where
  conns : conns = live.map Prod.snd
  handles : (live.map fun e => e.2.handle).Nodup
  numbers : (live.map Prod.fst).Pairwise (· < ·)
  next : ∀ e ∈ live, e.1 < next
  fixed : ∀ e ∈ live, e.2.params.isFixed = true

theorem le_foldl_max (l : List Nat) (n : Nat) : n ≤ l.foldl max n ∧ ∀ k ∈ l, k ≤ l.foldl max n := by
  induction l generalizing n with
  | nil => exact ⟨Nat.le_refl n, fun _ h => absurd h List.not_mem_nil⟩
  | cons a l ih =>
    obtain ⟨hn, hl⟩ := ih (max n a)
    refine ⟨Nat.le_trans (Nat.le_max_left n a) hn, ?_⟩
    intro k hk
    rcases List.mem_cons.mp hk with rfl | hk
    · exact Nat.le_trans (Nat.le_max_right n k) hn
    · exact hl k hk

/-- The handle of a new connection is free. -/
theorem handle_lt_freeHandle (bus : Bus ω) {conn : BusConn ω} (h : conn ∈ bus.connlist) :
    conn.handle < bus.freeHandle :=
  Nat.lt_succ_of_le ((le_foldl_max _ 0).2 _ (List.mem_map_of_mem h))

namespace Registered
variable {conns : List (BusConn ω)} {live : List (Nat × BusConn ω)} {next : Nat}

/-- A connection whose handle is above all that are in use. -/
theorem append {conn : BusConn ω} (h : Registered conns live next)
    (hfree : ∀ e ∈ live, e.2.handle < conn.handle) (hfixed : conn.params.isFixed = true) :
    Registered (conns ++ [conn]) (live ++ [(next, conn)]) (next + 1) where
  conns := by
    rw [List.map_append, ← h.conns]
    rfl
  handles := by
    rw [List.map_append, List.nodup_append]
    refine ⟨h.handles, List.nodup_cons.mpr ⟨List.not_mem_nil, List.nodup_nil⟩, ?_⟩
    intro a ha b hb
    obtain ⟨e, he, rfl⟩ := List.mem_map.mp ha
    obtain rfl := List.mem_singleton.mp hb
    exact Nat.ne_of_lt (hfree e he)
  numbers := by
    rw [List.map_append, List.pairwise_append]
    refine ⟨h.numbers, List.pairwise_singleton _ _, ?_⟩
    intro a ha b hb
    obtain ⟨e, he, rfl⟩ := List.mem_map.mp ha
    obtain rfl := List.mem_singleton.mp hb
    exact h.next e he
  next e he := by
    rcases List.mem_append.mp he with he | he
    · exact Nat.lt_succ_of_lt (h.next e he)
    · obtain rfl := List.mem_singleton.mp he
      exact Nat.lt_succ_self next
  fixed e he := by
    rcases List.mem_append.mp he with he | he
    · exact h.fixed e he
    · obtain rfl := List.mem_singleton.mp he
      exact hfixed

theorem remove (h : Registered conns live next) (handle : Nat) :
    Registered (conns.filter fun conn => conn.handle != handle)
      (live.filter fun e => e.2.handle != handle) next where
  conns := by
    rw [h.conns, List.filter_map]
    rfl
  handles := h.handles.sublist (List.filter_sublist.map _)
  numbers := h.numbers.sublist (List.filter_sublist.map _)
  next e he := h.next e (List.mem_filter.mp he).1
  fixed e he := h.fixed e (List.mem_filter.mp he).1

end Registered

theorem Registrations.registered {bus : Bus ω} {live : List (Nat × BusConn ω)} {next : Nat}
    (h : Registrations bus live next) : Registered bus.connlist live next := by
  induction h with
  | init tracelist devs =>
    exact ⟨rfl, List.nodup_nil, List.Pairwise.nil, fun _ h => absurd h List.not_mem_nil,
      fun _ h => absurd h List.not_mem_nil⟩
  | @register bus live next params handlers h hfixed hvalid ih =>
    have hnew : (emuBusRegister bus params handlers).2.connlist =
        bus.connlist ++ [{ handle := bus.freeHandle, params, handlers }] := by
      rw [emuBusRegister, if_pos hvalid]
    rw [hnew]
    refine ih.append (fun e he => handle_lt_freeHandle bus ?_) hfixed
    rw [ih.conns]
    exact List.mem_map_of_mem he
  | rejected params handlers _ hvalid ih =>
    rw [emuBusRegister, hvalid, if_neg Bool.false_ne_true]
    exact ih
  | unregister handle _ ih => exact ih.remove handle
  | access bus' _ hconns ih =>
    rw [hconns]
    exact ih

/-! ## The bus with its calls written down -/

/-- A call of a handler of the connection `handle`, or of the tracer at `index`. -/
inductive BusCall where
  | read (handle : Nat) (addr : BitVec 16) (sync : Bool)
  | peek (handle : Nat) (addr : BitVec 16) (sync : Bool)
  | write (handle : Nat) (addr : BitVec 16) (val : BitVec 8)
  | trace (index : Nat) (op : BusOp)
  deriving DecidableEq

/-- A read or peek callback that writes down its call. -/
def BusReadCb.logged (call : BitVec 16 → Bool → BusCall) (cb : BusReadCb ω) :
    BusReadCb (ω × List BusCall) := fun addr sync d =>
  let (val, devs, votes) := cb addr sync d.1
  (val, (devs, d.2 ++ [call addr sync]), votes)

def BusWriteCb.logged (call : BitVec 16 → BitVec 8 → BusCall) (cb : BusWriteCb ω) :
    BusWriteCb (ω × List BusCall) := fun addr val sync d =>
  let (devs, votes) := cb addr val sync d.1
  ((devs, d.2 ++ [call addr val]), votes)

def BusTraceCb.logged (index : Nat) (cb : BusTraceCb ω) : BusTraceCb (ω × List BusCall) :=
  fun addr val write sync d =>
    let (devs, votes) := cb addr val write sync d.1
    ((devs, d.2 ++ [.trace index { addr, val, write, sync }]), votes)

def BusDecodeParams.lift : BusDecodeParams ω → BusDecodeParams (ω × List BusCall)
  | .range addrStart addrEnd => .range addrStart addrEnd
  | .mask addrMask addrValue => .mask addrMask addrValue
  | .custom cb => .custom fun addr write d => cb addr write d.1

/-- The connection with handlers that write down their calls. -/
def BusConn.logged (conn : BusConn ω) : BusConn (ω × List BusCall) where
  handle := conn.handle
  params := conn.params.lift
  handlers :=
    { write := conn.handlers.write.map (BusWriteCb.logged (.write conn.handle))
      read := conn.handlers.read.map (BusReadCb.logged (.read conn.handle))
      peek := conn.handlers.peek.map (BusReadCb.logged (.peek conn.handle)) }

/-- The tracers from the one at `index` on. -/
def logTracers (index : Nat) : List (BusTraceCb ω) → List (BusTraceCb (ω × List BusCall))
  | [] => []
  | cb :: tracers => BusTraceCb.logged index cb :: logTracers (index + 1) tracers

/-- The bus that writes down its calls, behind those of `log`. -/
def Bus.logged (bus : Bus ω) (log : List BusCall) : Bus (ω × List BusCall) where
  connlist := bus.connlist.map BusConn.logged
  tracelist := logTracers 0 bus.tracelist
  sigvotes := bus.sigvotes
  lastop := bus.lastop
  devs := (bus.devs, log)
  trace := bus.trace
  nmiEdges := bus.nmiEdges

theorem sigVotes_logged (votes : List SigVote) (bus : Bus ω) (log : List BusCall) :
    votes.foldl Bus.sigVote (bus.logged log) = (votes.foldl Bus.sigVote bus).logged log := by
  induction votes generalizing bus with
  | nil => rfl
  | cons c votes ih => exact ih (bus.sigVote c)

theorem afterCallback_logged (bus : Bus ω) (log log' : List BusCall) (r : ω × List SigVote) :
    (bus.logged log).afterCallback ((r.1, log'), r.2) = (bus.afterCallback r).logged log' :=
  sigVotes_logged r.2 { bus with devs := r.1 } log'

theorem busMatchAddr_logged (params : BusDecodeParams ω) (addr : BitVec 16) (write : Bool)
    (devs : ω) (log : List BusCall) :
    busMatchAddr params.lift addr write (devs, log) = busMatchAddr params addr write devs := by
  cases params <;> rfl

/-! ## Reads and peeks -/

/-- The handler that a read or a peek calls. -/
def BusHandlers.reader (peek : Bool) (handlers : BusHandlers ω) : Option (BusReadCb ω) :=
  if peek then handlers.peek else handlers.read

def readCall (peek : Bool) (handle : Nat) (addr : BitVec 16) (sync : Bool) : BusCall :=
  if peek then .peek handle addr sync else .read handle addr sync

/-- The connection answers a read or peek of the address. -/
def BusConn.answers (addr : BitVec 16) (peek : Bool) (conn : BusConn ω) : Bool :=
  conn.params.decodes addr && (conn.handlers.reader peek).isSome

theorem busReadConn_of_match {addr : BitVec 16} {peek : Bool} (sync : Bool)
    (acc : Option (BitVec 8) × Bus ω) {conn : BusConn ω}
    (hmatch : busMatchAddr conn.params addr true acc.2.devs = true) {cb : BusReadCb ω}
    (hcb : conn.handlers.reader peek = some cb) :
    busReadConn addr peek sync acc conn =
      (some (acc.1.getD (cb addr sync acc.2.devs).1),
        acc.2.afterCallback (cb addr sync acc.2.devs).2) := by
  rw [busReadConn, if_pos hmatch]
  rw [BusHandlers.reader] at hcb
  rw [hcb]
  cases h : acc.1 with
  | none => rfl
  | some ret =>
    dsimp only
    split
    · rfl
    · rename_i hsame
      rw [Decidable.not_not.mp hsame]
      rfl

theorem busReadConn_of_answers {addr : BitVec 16} {peek : Bool} (sync : Bool)
    (acc : Option (BitVec 8) × Bus ω) {conn : BusConn ω} (hfixed : conn.params.isFixed = true)
    (hdec : conn.params.decodes addr = true) {cb : BusReadCb ω}
    (hcb : conn.handlers.reader peek = some cb) :
    busReadConn addr peek sync acc conn =
      (some (acc.1.getD (cb addr sync acc.2.devs).1),
        acc.2.afterCallback (cb addr sync acc.2.devs).2) :=
  busReadConn_of_match sync acc (by rw [busMatchAddr_of_isFixed hfixed, hdec]) hcb

theorem busReadConn_of_not_answers {addr : BitVec 16} {peek : Bool} (sync : Bool)
    (acc : Option (BitVec 8) × Bus ω) {conn : BusConn ω} (hfixed : conn.params.isFixed = true)
    (h : conn.answers addr peek = false) : busReadConn addr peek sync acc conn = acc := by
  rw [busReadConn, busMatchAddr_of_isFixed hfixed]
  split
  · rename_i hdec
    have hnone : conn.handlers.reader peek = none := by
      simpa [BusConn.answers, hdec] using h
    rw [BusHandlers.reader] at hnone
    rw [hnone]
  · rfl

theorem reader_logged (conn : BusConn ω) (peek : Bool) :
    conn.logged.handlers.reader peek =
      (conn.handlers.reader peek).map (BusReadCb.logged (readCall peek conn.handle)) := by
  cases peek <;> rfl

theorem isFixed_logged (conn : BusConn ω) : conn.logged.params.isFixed = conn.params.isFixed := by
  show conn.params.lift.isFixed = _
  cases conn.params <;> rfl

theorem decodes_logged (addr : BitVec 16) (conn : BusConn ω) :
    conn.logged.params.decodes addr = conn.params.decodes addr := by
  show conn.params.lift.decodes addr = _
  cases conn.params <;> rfl

theorem answers_logged (addr : BitVec 16) (peek : Bool) (conn : BusConn ω) :
    conn.logged.answers addr peek = conn.answers addr peek := by
  rw [BusConn.answers, decodes_logged, reader_logged, Option.isSome_map, BusConn.answers]

/-- The calls of the connections that answer, in order. -/
def readCalls (conns : List (BusConn ω)) (addr : BitVec 16) (peek sync : Bool) : List BusCall :=
  (conns.filter (BusConn.answers addr peek)).map fun conn => readCall peek conn.handle addr sync

section Reads
variable (addr : BitVec 16) (peek sync : Bool)

theorem busReadConn_logged (acc : Option (BitVec 8) × Bus ω) (log : List BusCall)
    (conn : BusConn ω) (hfixed : conn.params.isFixed = true) :
    busReadConn addr peek sync (acc.1, acc.2.logged log) conn.logged =
      ((busReadConn addr peek sync acc conn).1,
        (busReadConn addr peek sync acc conn).2.logged (log ++ readCalls [conn] addr peek sync)) := by
  have hfixed' := (isFixed_logged conn).trans hfixed
  have hanswers' := answers_logged addr peek conn
  cases hanswers : conn.answers addr peek with
  | false =>
    rw [hanswers] at hanswers'
    rw [busReadConn_of_not_answers sync acc hfixed hanswers,
      busReadConn_of_not_answers sync _ hfixed' hanswers', readCalls, List.filter_cons, hanswers]
    simp
  | true =>
    obtain ⟨hdec, hsome⟩ := Bool.and_eq_true_iff.mp hanswers
    obtain ⟨cb, hcb⟩ := Option.isSome_iff_exists.mp hsome
    have hcb' : conn.logged.handlers.reader peek =
        some (BusReadCb.logged (readCall peek conn.handle) cb) := by
      rw [reader_logged, hcb]
      rfl
    rw [busReadConn_of_answers sync acc hfixed hdec hcb,
      busReadConn_of_answers sync _ hfixed' ((decodes_logged addr conn).trans hdec) hcb']
    have hcalls : readCalls [conn] addr peek sync = [readCall peek conn.handle addr sync] := by
      rw [readCalls, List.filter_cons, hanswers]
      rfl
    rw [hcalls]
    exact Prod.ext rfl (afterCallback_logged acc.2 log _ (cb addr sync acc.2.devs).2)

theorem readConns_logged (conns : List (BusConn ω)) (hfixed : ∀ conn ∈ conns, conn.params.isFixed = true)
    (acc : Option (BitVec 8) × Bus ω) (log : List BusCall) :
    (conns.map BusConn.logged).foldl (busReadConn addr peek sync) (acc.1, acc.2.logged log) =
      ((conns.foldl (busReadConn addr peek sync) acc).1,
        (conns.foldl (busReadConn addr peek sync) acc).2.logged
          (log ++ readCalls conns addr peek sync)) := by
  induction conns generalizing acc log with
  | nil => simp [readCalls]
  | cons conn conns ih =>
    obtain ⟨hconn, hrest⟩ := List.forall_mem_cons.mp hfixed
    have hcalls : readCalls (conn :: conns) addr peek sync =
        readCalls [conn] addr peek sync ++ readCalls conns addr peek sync := by
      rw [readCalls, readCalls, readCalls, ← List.map_append, ← List.filter_append]
      rfl
    rw [List.map_cons, List.foldl_cons, List.foldl_cons,
      busReadConn_logged addr peek sync acc log conn hconn, ih hrest, hcalls, List.append_assoc]

/-- Once a connection has answered, the value stands. -/
theorem readConns_some (conns : List (BusConn ω)) (hfixed : ∀ conn ∈ conns, conn.params.isFixed = true)
    (ret : BitVec 8) (bus : Bus ω) :
    (conns.foldl (busReadConn addr peek sync) (some ret, bus)).1 = some ret := by
  induction conns generalizing bus with
  | nil => rfl
  | cons conn conns ih =>
    obtain ⟨hconn, hrest⟩ := List.forall_mem_cons.mp hfixed
    rw [List.foldl_cons]
    cases hanswers : conn.answers addr peek with
    | false =>
      rw [busReadConn_of_not_answers sync _ hconn hanswers]
      exact ih hrest bus
    | true =>
      obtain ⟨hdec, hsome⟩ := Bool.and_eq_true_iff.mp hanswers
      obtain ⟨cb, hcb⟩ := Option.isSome_iff_exists.mp hsome
      rw [busReadConn_of_answers sync _ hconn hdec hcb]
      exact ih hrest _

/-- The value is that of the first connection that answers. -/
theorem readConns_value (conns : List (BusConn ω)) (hfixed : ∀ conn ∈ conns, conn.params.isFixed = true)
    (bus : Bus ω) :
    (conns.foldl (busReadConn addr peek sync) (none, bus)).1 =
      (conns.find? (BusConn.answers addr peek)).bind fun conn =>
        (conn.handlers.reader peek).map fun cb => (cb addr sync bus.devs).1 := by
  induction conns with
  | nil => rfl
  | cons conn conns ih =>
    obtain ⟨hconn, hrest⟩ := List.forall_mem_cons.mp hfixed
    rw [List.foldl_cons, List.find?_cons]
    cases hanswers : conn.answers addr peek with
    | false =>
      rw [busReadConn_of_not_answers sync _ hconn hanswers]
      exact ih hrest
    | true =>
      obtain ⟨hdec, hsome⟩ := Bool.and_eq_true_iff.mp hanswers
      obtain ⟨cb, hcb⟩ := Option.isSome_iff_exists.mp hsome
      rw [busReadConn_of_answers sync _ hconn hdec hcb, readConns_some addr peek sync conns hrest]
      simp [hcb]

end Reads

/-! ## Tracers -/

/-- The calls of the `n` tracers from the one at `index` on. -/
def traceCalls (index n : Nat) (op : BusOp) : List BusCall :=
  (List.range' index n).map fun i => .trace i op

theorem callTracers_logged (bus : Bus ω) (log : List BusCall) (op : BusOp) :
    (bus.logged log).callTracers op =
      (bus.callTracers op).logged (log ++ traceCalls 0 bus.tracelist.length op) := by
  have key : ∀ (tracers : List (BusTraceCb ω)) (index : Nat) (b : Bus ω) (log : List BusCall),
      (logTracers index tracers).foldl
          (fun b cb => b.afterCallback (cb op.addr op.val op.write op.sync b.devs)) (b.logged log) =
        (tracers.foldl (fun b cb => b.afterCallback (cb op.addr op.val op.write op.sync b.devs)) b).logged
          (log ++ traceCalls index tracers.length op) := by
    intro tracers
    induction tracers with
    | nil =>
      intro index b log
      rw [List.length_nil, traceCalls, List.range'_zero, List.map_nil, List.append_nil]
      rfl
    | cons cb tracers ih =>
      intro index b log
      have hcalls : traceCalls index (cb :: tracers).length op =
          [.trace index op] ++ traceCalls (index + 1) tracers.length op := by
        rw [List.length_cons, traceCalls, List.range'_succ]
        rfl
      rw [logTracers, List.foldl_cons, List.foldl_cons, hcalls, ← List.append_assoc]
      have hstep := afterCallback_logged b log (log ++ [.trace index op])
        (cb op.addr op.val op.write op.sync b.devs)
      refine Eq.trans ?_ (ih (index + 1) _ (log ++ [.trace index op]))
      exact congrArg ((logTracers (index + 1) tracers).foldl _) hstep
  exact key bus.tracelist 0 { bus with trace := bus.trace ++ [op] } log

/-! ## Transactions -/

/-- The calls that a write makes of the connections, in order. -/
def writeCalls (conns : List (BusConn ω)) (addr : BitVec 16) (value : BitVec 8) : List BusCall :=
  (conns.filter fun conn => conn.params.decodes addr && conn.handlers.write.isSome).map fun conn =>
    .write conn.handle addr value

/-- The tracers see a read, and no peek. -/
def readTraces (n : Nat) (peek : Bool) (op : BusOp) : List BusCall :=
  if peek then [] else traceCalls 0 n op

theorem busReadPeekI_logged (bus : Bus ω) (hfixed : ∀ conn ∈ bus.connlist, conn.params.isFixed = true)
    (addr : BitVec 16) (peek sync : Bool) :
    busReadPeekI (bus.logged []) addr peek sync =
      ((busReadPeekI bus addr peek sync).1,
        (busReadPeekI bus addr peek sync).2.logged
          (readCalls bus.connlist addr peek sync ++ readTraces bus.tracelist.length peek
            { addr, val := (busReadPeekI bus addr peek sync).1, write := false, sync })) := by
  have hconns := readConns_logged addr peek sync bus.connlist hfixed (none, bus) []
  rw [List.nil_append] at hconns
  have hbus : (bus.logged []).connlist.foldl (busReadConn addr peek sync) (none, bus.logged []) = _ :=
    hconns
  cases peek with
  | true => simp only [busReadPeekI, readTraces, if_true, hbus, List.append_nil]
  | false =>
    have hsame := sameRecord_readConns addr false sync bus.connlist (none, bus)
    have htrace := callTracers_logged
      (bus.connlist.foldl (busReadConn addr false sync) (none, bus)).2
      (readCalls bus.connlist addr false sync)
      { addr, val := (bus.connlist.foldl (busReadConn addr false sync) (none, bus)).1.getD 0xFF,
        write := false, sync }
    rw [hsame.tracelist] at htrace
    simp only [busReadPeekI, readTraces, Bool.false_eq_true, if_false, hbus, htrace]
    rfl

theorem busWriteConn_logged (addr : BitVec 16) (value : BitVec 8) (bus : Bus ω)
    (log : List BusCall) (conn : BusConn ω) (hfixed : conn.params.isFixed = true) :
    busWriteConn addr value (bus.logged log) conn.logged =
      (busWriteConn addr value bus conn).logged (log ++ writeCalls [conn] addr value) := by
  have hmatch := busMatchAddr_of_isFixed hfixed addr false bus.devs
  have hmatch' := (busMatchAddr_logged conn.params addr false bus.devs log).trans hmatch
  unfold busWriteConn
  rw [hmatch]
  have hif : busMatchAddr conn.logged.params addr false (bus.logged log).devs =
      conn.params.decodes addr := hmatch'
  rw [hif]
  cases hdec : conn.params.decodes addr with
  | false => simp [writeCalls, hdec]
  | true =>
    cases hcb : conn.handlers.write with
    | none => simp [writeCalls, hdec, hcb, BusConn.logged]
    | some cb =>
      have hcalls : writeCalls [conn] addr value = [.write conn.handle addr value] := by
        simp [writeCalls, hdec, hcb]
      have hcb' : conn.logged.handlers.write = some (BusWriteCb.logged (.write conn.handle) cb) := by
        simp [BusConn.logged, hcb]
      rw [hcb', hcalls]
      exact afterCallback_logged bus log _ (cb addr value false bus.devs)

theorem writeConns_logged (addr : BitVec 16) (value : BitVec 8) (conns : List (BusConn ω))
    (hfixed : ∀ conn ∈ conns, conn.params.isFixed = true) (bus : Bus ω) (log : List BusCall) :
    (conns.map BusConn.logged).foldl (busWriteConn addr value) (bus.logged log) =
      (conns.foldl (busWriteConn addr value) bus).logged (log ++ writeCalls conns addr value) := by
  induction conns generalizing bus log with
  | nil => simp [writeCalls]
  | cons conn conns ih =>
    obtain ⟨hconn, hrest⟩ := List.forall_mem_cons.mp hfixed
    have hcalls : writeCalls (conn :: conns) addr value =
        writeCalls [conn] addr value ++ writeCalls conns addr value := by
      rw [writeCalls, writeCalls, writeCalls, ← List.map_append, ← List.filter_append]
      rfl
    rw [List.map_cons, List.foldl_cons, List.foldl_cons,
      busWriteConn_logged addr value bus log conn hconn, ih hrest, hcalls, List.append_assoc]

theorem busWrite_logged (bus : Bus ω) (hfixed : ∀ conn ∈ bus.connlist, conn.params.isFixed = true)
    (addr : BitVec 16) (value : BitVec 8) :
    busWrite (bus.logged []) addr value =
      (busWrite bus addr value).logged
        (writeCalls bus.connlist addr value ++ traceCalls 0 bus.tracelist.length
          { addr, val := value, write := true, sync := false }) := by
  have hconns := writeConns_logged addr value bus.connlist hfixed bus []
  have hsame := sameRecord_writeConns addr value bus.connlist bus
  have htrace := callTracers_logged (bus.connlist.foldl (busWriteConn addr value) bus)
    (writeCalls bus.connlist addr value) { addr, val := value, write := true, sync := false }
  rw [hsame.tracelist] at htrace
  rw [List.nil_append] at hconns
  have hbus : (bus.logged []).connlist.foldl (busWriteConn addr value) (bus.logged []) = _ := hconns
  simp only [busWrite, hbus, htrace]
  rfl

/-! ## Without one connection -/

theorem foldl_filter_of_idle {α β : Type} (f : β → α → β) (p : α → Bool) (l : List α)
    (h : ∀ a ∈ l, p a = false → ∀ b, f b a = b) (b : β) : (l.filter p).foldl f b = l.foldl f b := by
  induction l generalizing b with
  | nil => rfl
  | cons a l ih =>
    obtain ⟨ha, hl⟩ := List.forall_mem_cons.mp h
    rw [List.filter_cons]
    cases hp : p a with
    | true =>
      rw [if_pos rfl, List.foldl_cons, List.foldl_cons]
      exact ih hl (f b a)
    | false =>
      rw [if_neg Bool.false_ne_true, List.foldl_cons, ha hp]
      exact ih hl b

/-- The bus with other connections. -/
def Bus.withConns (bus : Bus ω) (conns : List (BusConn ω)) : Bus ω := { bus with connlist := conns }

section WithConns
variable (conns : List (BusConn ω))

theorem afterCallback_withConns (bus : Bus ω) (r : ω × List SigVote) :
    (bus.withConns conns).afterCallback r = (bus.afterCallback r).withConns conns := by
  have key : ∀ (votes : List SigVote) (b : Bus ω),
      votes.foldl Bus.sigVote (b.withConns conns) = (votes.foldl Bus.sigVote b).withConns conns := by
    intro votes
    induction votes with
    | nil => exact fun b => rfl
    | cons c votes ih => exact fun b => ih (b.sigVote c)
  exact key r.2 { bus with devs := r.1 }

theorem readConns_withConns (addr : BitVec 16) (peek sync : Bool) (l : List (BusConn ω))
    (acc : Option (BitVec 8) × Bus ω) :
    l.foldl (busReadConn addr peek sync) (acc.1, acc.2.withConns conns) =
      ((l.foldl (busReadConn addr peek sync) acc).1,
        (l.foldl (busReadConn addr peek sync) acc).2.withConns conns) := by
  induction l generalizing acc with
  | nil => rfl
  | cons conn l ih =>
    have hstep : busReadConn addr peek sync (acc.1, acc.2.withConns conns) conn =
        ((busReadConn addr peek sync acc conn).1,
          (busReadConn addr peek sync acc conn).2.withConns conns) := by
      have hdevs : (acc.2.withConns conns).devs = acc.2.devs := rfl
      rw [busReadConn, busReadConn, hdevs]
      by_cases hm : busMatchAddr conn.params addr true acc.2.devs = true
      · rw [if_pos hm, if_pos hm]
        cases hcb : if peek then conn.handlers.peek else conn.handlers.read with
        | none => rfl
        | some cb => cases acc.1 <;> exact Prod.ext rfl (afterCallback_withConns conns acc.2 _)
      · rw [if_neg hm, if_neg hm]
    rw [List.foldl_cons, List.foldl_cons, hstep]
    exact ih _

theorem callTracers_withConns (bus : Bus ω) (op : BusOp) :
    (bus.withConns conns).callTracers op = (bus.callTracers op).withConns conns := by
  have key : ∀ (tracers : List (BusTraceCb ω)) (b : Bus ω),
      tracers.foldl (fun b cb => b.afterCallback (cb op.addr op.val op.write op.sync b.devs))
          (b.withConns conns) =
        (tracers.foldl (fun b cb => b.afterCallback (cb op.addr op.val op.write op.sync b.devs))
          b).withConns conns := by
    intro tracers
    induction tracers with
    | nil => exact fun b => rfl
    | cons cb tracers ih =>
      intro b
      refine Eq.trans ?_ (ih (b.afterCallback (cb op.addr op.val op.write op.sync b.devs)))
      exact congrArg (tracers.foldl _) (afterCallback_withConns conns b _)
  exact key bus.tracelist { bus with trace := bus.trace ++ [op] }

theorem writeConns_withConns (addr : BitVec 16) (value : BitVec 8) (l : List (BusConn ω))
    (bus : Bus ω) :
    l.foldl (busWriteConn addr value) (bus.withConns conns) =
      (l.foldl (busWriteConn addr value) bus).withConns conns := by
  induction l generalizing bus with
  | nil => rfl
  | cons conn l ih =>
    have hstep : busWriteConn addr value (bus.withConns conns) conn =
        (busWriteConn addr value bus conn).withConns conns := by
      have hdevs : (bus.withConns conns).devs = bus.devs := rfl
      rw [busWriteConn, busWriteConn, hdevs]
      by_cases hm : busMatchAddr conn.params addr false bus.devs = true
      · rw [if_pos hm, if_pos hm]
        cases hcb : conn.handlers.write with
        | none => rfl
        | some cb => exact afterCallback_withConns conns bus _
      · rw [if_neg hm, if_neg hm]
    rw [List.foldl_cons, List.foldl_cons, hstep]
    exact ih _

end WithConns

/-- A read or peek where the connection removed does not decode. -/
theorem busReadPeekI_unregister (bus : Bus ω) (hfixed : ∀ conn ∈ bus.connlist, conn.params.isFixed = true)
    (handle : Nat) (addr : BitVec 16) (peek sync : Bool)
    (hother : ∀ conn ∈ bus.connlist, conn.handle = handle → conn.params.decodes addr = false) :
    busReadPeekI (emuBusUnregister bus handle) addr peek sync =
      ((busReadPeekI bus addr peek sync).1,
        emuBusUnregister (busReadPeekI bus addr peek sync).2 handle) := by
  have hidle : ∀ conn ∈ bus.connlist, (conn.handle != handle) = false →
      ∀ acc, busReadConn addr peek sync acc conn = acc := by
    intro conn hc hh acc
    have hdec := hother conn hc (by simpa using hh)
    exact busReadConn_of_not_answers sync acc (hfixed conn hc) (by rw [BusConn.answers, hdec]; rfl)
  -- the connection removed is never called, so the walk may leave it out
  have hfold := foldl_filter_of_idle _ _ bus.connlist hidle (none, bus)
  have hwith := readConns_withConns (bus.connlist.filter fun conn => conn.handle != handle) addr peek
    sync (bus.connlist.filter fun conn => conn.handle != handle) (none, bus)
  rw [hfold] at hwith
  have hsame := sameRecord_readConns addr peek sync bus.connlist (none, bus)
  have hbus : (emuBusUnregister bus handle).connlist.foldl (busReadConn addr peek sync)
      (none, emuBusUnregister bus handle) = _ := hwith
  have hafter : ∀ b : Bus ω, b.connlist = bus.connlist →
      b.withConns (bus.connlist.filter fun conn => conn.handle != handle) =
        emuBusUnregister b handle := by
    intro b hb
    rw [emuBusUnregister, hb]
    rfl
  cases peek with
  | true =>
    -- a peek calls no tracer
    simp only [busReadPeekI, if_true, hbus]
    rw [hafter _ hsame.connlist]
  | false =>
    have htrace := callTracers_withConns
      (bus.connlist.filter fun conn => conn.handle != handle)
      (bus.connlist.foldl (busReadConn addr false sync) (none, bus)).2
      { addr, val := (bus.connlist.foldl (busReadConn addr false sync) (none, bus)).1.getD 0xFF,
        write := false, sync }
    rw [← hafter _ (committed_read bus addr sync).connlist]
    simp only [busReadPeekI, Bool.false_eq_true, if_false, hbus, htrace]
    rfl

/-- A write where the connection removed does not decode. -/
theorem busWrite_unregister (bus : Bus ω) (hfixed : ∀ conn ∈ bus.connlist, conn.params.isFixed = true)
    (handle : Nat) (addr : BitVec 16) (value : BitVec 8)
    (hother : ∀ conn ∈ bus.connlist, conn.handle = handle → conn.params.decodes addr = false) :
    busWrite (emuBusUnregister bus handle) addr value =
      emuBusUnregister (busWrite bus addr value) handle := by
  have hidle : ∀ conn ∈ bus.connlist, (conn.handle != handle) = false →
      ∀ b, busWriteConn addr value b conn = b := by
    intro conn hc hh b
    have hdec := hother conn hc (by simpa using hh)
    rw [busWriteConn, busMatchAddr_of_isFixed (hfixed conn hc), hdec, if_neg Bool.false_ne_true]
  have hfold := foldl_filter_of_idle _ _ bus.connlist hidle bus
  have hwith := writeConns_withConns (bus.connlist.filter fun conn => conn.handle != handle) addr
    value (bus.connlist.filter fun conn => conn.handle != handle) bus
  rw [hfold] at hwith
  have hbus : (emuBusUnregister bus handle).connlist.foldl (busWriteConn addr value)
      (emuBusUnregister bus handle) = _ := hwith
  have htrace := callTracers_withConns
    (bus.connlist.filter fun conn => conn.handle != handle)
    (bus.connlist.foldl (busWriteConn addr value) bus) { addr, val := value, write := true, sync := false }
  have hconns := (committed_write bus addr value).connlist
  have hafter : (busWrite bus addr value).withConns
      (bus.connlist.filter fun conn => conn.handle != handle) =
        emuBusUnregister (busWrite bus addr value) handle := by
    rw [emuBusUnregister, hconns]
    rfl
  rw [← hafter]
  simp only [busWrite, hbus, htrace]
  rfl

/-! ## Arbitration -/

/-- How the bus answers a read or peek, the connections of `live` being registered: with
`$FF` if nobody answers, with the value of the earliest of those who do, and with one call
of each of them. -/
structure Arbitrated (bus : Bus ω) (live : List (Nat × BusConn ω)) (addr : BitVec 16)
    (peek sync : Bool) : Prop where
  nobody : (∀ e ∈ live, e.2.answers addr peek = false) → (busReadPeekI bus addr peek sync).1 = 0xFF
  earliest : ∀ e ∈ live, e.2.answers addr peek = true →
    (∀ e' ∈ live, e'.2.answers addr peek = true → e.1 ≤ e'.1) →
    ∀ cb, e.2.handlers.reader peek = some cb →
      (busReadPeekI bus addr peek sync).1 = (cb addr sync bus.devs).1
  -- Then the tracers, if this is no peek.
  calls : busReadPeekI (bus.logged []) addr peek sync =
    ((busReadPeekI bus addr peek sync).1,
      (busReadPeekI bus addr peek sync).2.logged
        (((live.filter fun e => e.2.answers addr peek).map fun e =>
            readCall peek e.2.handle addr sync) ++
          readTraces bus.tracelist.length peek
            { addr, val := (busReadPeekI bus addr peek sync).1, write := false, sync }))

theorem busReadPeekI_value (bus : Bus ω) (addr : BitVec 16) (peek sync : Bool) :
    (busReadPeekI bus addr peek sync).1 =
      (bus.connlist.foldl (busReadConn addr peek sync) (none, bus)).1.getD 0xFF := by
  unfold busReadPeekI
  cases peek <;> rfl

/-- The connection with the least number among those that answer is found first. -/
theorem find_earliest {conns : List (BusConn ω)} {live : List (Nat × BusConn ω)} {next : Nat}
    (h : Registered conns live next) {p : BusConn ω → Bool} {e : Nat × BusConn ω} (he : e ∈ live)
    (hp : p e.2 = true) (hleast : ∀ e' ∈ live, p e'.2 = true → e.1 ≤ e'.1) :
    conns.find? p = some e.2 := by
  obtain ⟨before, after, rfl⟩ := List.append_of_mem he
  have hnumbers := h.numbers
  rw [List.map_append, List.map_cons, List.pairwise_append] at hnumbers
  have hbefore : ∀ conn ∈ before.map Prod.snd, ¬p conn = true := by
    intro conn hconn hpc
    obtain ⟨e', he', rfl⟩ := List.mem_map.mp hconn
    have hlt := hnumbers.2.2 e'.1 (List.mem_map_of_mem he') e.1 List.mem_cons_self
    have hle := hleast e' (List.mem_append_left _ he') hpc
    exact absurd hlt (Nat.not_lt_of_le hle)
  rw [h.conns, List.map_append, List.map_cons, List.find?_append, List.find?_eq_none.mpr hbefore,
    List.find?_cons, hp]
  rfl

/-- What holds of the live connections holds of those on the bus. -/
theorem Registered.forall_conns {conns : List (BusConn ω)} {live : List (Nat × BusConn ω)} {next : Nat}
    (h : Registered conns live next) {P : BusConn ω → Prop} (hP : ∀ e ∈ live, P e.2) :
    ∀ conn ∈ conns, P conn := by
  rw [h.conns]
  exact List.forall_mem_map.mpr hP

theorem Registered.fixedConns {conns : List (BusConn ω)} {live : List (Nat × BusConn ω)} {next : Nat}
    (h : Registered conns live next) : ∀ conn ∈ conns, conn.params.isFixed = true :=
  h.forall_conns h.fixed

theorem arbitrated {bus : Bus ω} {live : List (Nat × BusConn ω)} {next : Nat}
    (h : Registered bus.connlist live next) (addr : BitVec 16) (peek sync : Bool) :
    Arbitrated bus live addr peek sync := by
  have hvalue := readConns_value addr peek sync bus.connlist h.fixedConns bus
  refine ⟨?_, ?_, ?_⟩
  · intro hnobody
    have hnone : bus.connlist.find? (BusConn.answers addr peek) = none := by
      refine List.find?_eq_none.mpr (h.forall_conns fun e he => ?_)
      rw [hnobody e he]
      exact Bool.false_ne_true
    rw [busReadPeekI_value, hvalue, hnone]
    rfl
  · intro e he hanswers hleast cb hcb
    rw [busReadPeekI_value, hvalue, find_earliest h he hanswers hleast, Option.bind_some, hcb]
    rfl
  · have hcalls : readCalls bus.connlist addr peek sync =
        (live.filter fun e => e.2.answers addr peek).map fun e =>
          readCall peek e.2.handle addr sync := by
      rw [readCalls, h.conns, List.filter_map, List.map_map]
      rfl
    rw [← hcalls]
    exact busReadPeekI_logged bus h.fixedConns addr peek sync

/-- Bus arbitration, after every history of registrations with range or mask decoders. Reads
and SYNC reads and peeks are answered by the earliest connection that is registered, decodes
the address and has the handler, and by `$FF` if there is none; each connection that decodes
and has the handler is called exactly once (handles are distinct), as is each tracer with
the transaction, but for a peek. A write calls each connection that decodes and has the
handler once, then each tracer. An unregistration takes away the calls of that connection
only, and changes nothing where it does not decode, nor the value where another supplied it. -/
theorem bus_arbitration (bus : Bus ω) (live : List (Nat × BusConn ω)) (next : Nat)
    (h : Registrations bus live next) (addr : BitVec 16) :
    (live.map fun e => e.2.handle).Nodup ∧
    (∀ sync, Arbitrated bus live addr false sync) ∧
    Arbitrated bus live addr true false ∧
    (∀ value, busWrite (bus.logged []) addr value = (busWrite bus addr value).logged
      (((live.filter fun e => e.2.params.decodes addr && e.2.handlers.write.isSome).map fun e =>
          .write e.2.handle addr value) ++
        traceCalls 0 bus.tracelist.length { addr, val := value, write := true, sync := false })) ∧
    (∀ handle,
      Registrations (emuBusUnregister bus handle) (live.filter fun e => e.2.handle != handle) next ∧
      ((∀ e ∈ live, e.2.handle = handle → e.2.params.decodes addr = false) →
        (∀ peek sync, busReadPeekI (emuBusUnregister bus handle) addr peek sync =
          ((busReadPeekI bus addr peek sync).1,
            emuBusUnregister (busReadPeekI bus addr peek sync).2 handle)) ∧
        (∀ value, busWrite (emuBusUnregister bus handle) addr value =
          emuBusUnregister (busWrite bus addr value) handle)) ∧
      (∀ peek sync, ∀ e ∈ live, e.2.answers addr peek = true →
        (∀ e' ∈ live, e'.2.answers addr peek = true → e.1 ≤ e'.1) → e.2.handle ≠ handle →
        (busReadPeekI (emuBusUnregister bus handle) addr peek sync).1 =
          (busReadPeekI bus addr peek sync).1)) := by
  have hlive := h.registered
  refine ⟨hlive.handles, fun sync => arbitrated hlive addr false sync,
    arbitrated hlive addr true false, ?_, ?_⟩
  · intro value
    have hcalls : writeCalls bus.connlist addr value =
        (live.filter fun e => e.2.params.decodes addr && e.2.handlers.write.isSome).map fun e =>
          .write e.2.handle addr value := by
      rw [writeCalls, hlive.conns, List.filter_map, List.map_map]
      rfl
    rw [← hcalls]
    exact busWrite_logged bus hlive.fixedConns addr value
  · intro handle
    refine ⟨h.unregister handle, fun hother => ?_, ?_⟩
    · have hconns : ∀ conn ∈ bus.connlist, conn.handle = handle → conn.params.decodes addr = false :=
        hlive.forall_conns hother
      refine ⟨fun peek sync => ?_, fun value => ?_⟩
      · exact busReadPeekI_unregister bus hlive.fixedConns handle addr peek sync hconns
      · exact busWrite_unregister bus hlive.fixedConns handle addr value hconns
    · intro peek sync e he hanswers hleast hne
      obtain ⟨cb, hcb⟩ := Option.isSome_iff_exists.mp (Bool.and_eq_true_iff.mp hanswers).2
      have hkept : e ∈ live.filter fun e => e.2.handle != handle :=
        List.mem_filter.mpr ⟨he, bne_iff_ne.mpr hne⟩
      -- the one that answered is still there, and still the earliest
      have hleast' : ∀ e' ∈ live.filter fun e => e.2.handle != handle,
          e'.2.answers addr peek = true → e.1 ≤ e'.1 :=
        fun e' he' => hleast e' (List.mem_filter.mp he').1
      have hafter := arbitrated (h.unregister handle).registered addr peek sync
      rw [hafter.earliest e hkept hanswers hleast' cb hcb,
        (arbitrated hlive addr peek sync).earliest e he hanswers hleast cb hcb]
      rfl

/-- A device that reads as `val`. -/
def readingHandlers (val : BitVec 8) : BusHandlers Unit :=
  { write := none, read := some fun _ _ d => (val, d, []), peek := none }

/-- Three connections on overlapping ranges: the one registered first, which reads 1, is gone. -/
def overlapBus : Bus Unit :=
  let bus := (emuBusRegister (Bus.init [] [] ()) (.range 0x00 0xFF) (readingHandlers 1)).2
  let bus := (emuBusRegister bus (.mask 0xFFF0 0x0010) (readingHandlers 2)).2
  let bus := (emuBusRegister bus (.range 0x00 0x1F) (readingHandlers 3)).2
  emuBusUnregister bus 1

/-- The connections of `overlapBus` with their numbers. -/
def overlapLive : List (Nat × BusConn Unit) :=
  [(1, { handle := 2, params := .mask 0xFFF0 0x0010, handlers := readingHandlers 2 }),
   (2, { handle := 3, params := .range 0x00 0x1F, handlers := readingHandlers 3 })]

theorem overlapBus_registrations : Registrations overlapBus overlapLive 3 :=
  .unregister 1 (.register _ _ (.register _ _ (.register _ _ (.init [] ()) rfl rfl) rfl rfl) rfl rfl)

/-- The earlier one of the two supplies the value, and both are called. -/
theorem bus_arbitration_of_overlap :
    (busRead overlapBus 0x10).1 = 2 ∧ busRead (overlapBus.logged []) 0x10 =
      (2, (busRead overlapBus 0x10).2.logged [.read 2 0x10 false, .read 3 0x10 false]) := by
  obtain ⟨-, hreads, -⟩ := bus_arbitration overlapBus overlapLive 3 overlapBus_registrations 0x10
  have hfirst : (busReadPeekI overlapBus 0x10 false false).1 = 2 :=
    (hreads false).earliest _ (List.mem_cons_self ..) (by decide) (by decide) _ rfl
  have hcalls := (hreads false).calls
  rw [hfirst] at hcalls
  exact ⟨hfirst, hcalls⟩

end Cb6502
