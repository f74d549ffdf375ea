import Cb6502.Quiet
import Cb6502.CpuTick
import Cb6502.Lib.Erasure

/- Peeks, and what they disturb.

   Every device registers its read callback as its peek callback, so a peek at a register
   with side effects has them: `PeekQuiet` says when there are none to have.

   What is proved:
     1. `Device.peekQuiet_iff` — a device's peek callback leaves the bus as it was exactly if
        the device is quiet.
     2. `peek_invisible` — so does a peek, exactly if every device that decodes the address is
        quiet; and a run with any quiet inspections put in ends in the same emulator as the
        run without them.
     3. `peek_clears_interrupt_flag` — a peek at port A of a VIA clears its CA1 flag. -/
namespace Cb6502

/-! ## Votes cast by peeks -/

/-- `bus'` is `bus` with IRQ votes released and other devices. -/
structure Bus.Lowered {ω : Type} (bus bus' : Bus ω) : Prop where
  connlist : bus'.connlist = bus.connlist
  tracelist : bus'.tracelist = bus.tracelist
  lastop : bus'.lastop = bus.lastop
  trace : bus'.trace = bus.trace
  nmiEdges : bus'.nmiEdges = bus.nmiEdges
  sigvotes : ∃ m, bus'.sigvotes = { bus.sigvotes with irq := bus.sigvotes.irq &&& m }

section
variable {ω : Type}

theorem Bus.Lowered.refl (bus : Bus ω) : bus.Lowered bus :=
  ⟨rfl, rfl, rfl, rfl, rfl, bus.sigvotes.irq, by rw [BitVec.and_self]⟩

theorem Bus.Lowered.trans {b b' b'' : Bus ω} (h : b.Lowered b') (h' : b'.Lowered b'') :
    b.Lowered b'' := by
  obtain ⟨m, hm⟩ := h.sigvotes
  obtain ⟨m', hm'⟩ := h'.sigvotes
  refine ⟨h'.connlist.trans h.connlist, h'.tracelist.trans h.tracelist,
    h'.lastop.trans h.lastop, h'.trace.trans h.trace, h'.nmiEdges.trans h.nmiEdges,
    m &&& m', ?_⟩
  rw [hm', hm]
  simp only [BitVec.and_assoc]

/-- Votes that were released and are back at the end were never released. -/
theorem Bus.Lowered.antisymm {b b' b'' : Bus ω} (h : b.Lowered b') (h' : b'.Lowered b'')
    (hback : b''.sigvotes = b.sigvotes) : b'.sigvotes = b.sigvotes := by
  obtain ⟨m, hm⟩ := h.sigvotes
  obtain ⟨m', hm'⟩ := h'.sigvotes
  have hirq : b.sigvotes.irq &&& m &&& m' = b.sigvotes.irq := by
    have hlast := congrArg SigVotes.irq (hm'.symm.trans hback)
    rw [hm] at hlast
    exact hlast
  have hkeep : b.sigvotes.irq &&& m = b.sigvotes.irq := by
    calc b.sigvotes.irq &&& m
        = b.sigvotes.irq &&& m &&& m' &&& m := by rw [hirq]
      _ = b.sigvotes.irq &&& m &&& m' := by
          rw [BitVec.and_assoc _ m' m, BitVec.and_comm m' m, ← BitVec.and_assoc,
            BitVec.and_assoc _ m m, BitVec.and_self]
      _ = b.sigvotes.irq := hirq
  rw [hm, hkeep]

/-- The vote of a peek. -/
theorem Bus.sigVote_release (bus : Bus ω) (voter : BitVec 32) :
    bus.sigVote { voter, signal := .irq, voted := false } =
      { bus with sigvotes := { bus.sigvotes with
          irq := if bus.sigvotes.allocated &&& voter = 0#32 then bus.sigvotes.irq
            else bus.sigvotes.irq &&& ~~~voter } } := by
  have hvotes : emuBusSigVote bus.sigvotes voter .irq false = { bus.sigvotes with
      irq := if bus.sigvotes.allocated &&& voter = 0#32 then bus.sigvotes.irq
        else bus.sigvotes.irq &&& ~~~voter } := by
    unfold emuBusSigVote
    by_cases hfree : bus.sigvotes.allocated &&& voter = 0#32
    · rw [if_pos hfree, if_pos (show bus.sigvotes.allocated &&& voter = 0 from hfree)]
    · rw [if_neg hfree, if_neg (show ¬ bus.sigvotes.allocated &&& voter = 0 from hfree)]
      rfl
  have hedges : ¬ (bus.sigvotes.nmi = 0 ∧ bus.sigvotes.nmi ≠ 0) := fun h => h.2 h.1
  unfold Bus.sigVote
  simp only [hvotes]
  rw [if_neg hedges]

theorem Bus.lowered_release (bus : Bus ω) (voter : BitVec 32) :
    bus.Lowered (bus.sigVote { voter, signal := .irq, voted := false }) := by
  rw [bus.sigVote_release]
  refine ⟨rfl, rfl, rfl, rfl, rfl, ?_⟩
  by_cases hfree : bus.sigvotes.allocated &&& voter = 0#32
  · exact ⟨bus.sigvotes.irq, by simp [hfree]⟩
  · exact ⟨~~~voter, by simp [hfree]⟩

theorem and_not_eq_self_iff (x m : BitVec 32) : x &&& ~~~m = x ↔ x &&& m = 0#32 := by
  constructor
  · intro h
    calc x &&& m = x &&& ~~~m &&& m := by rw [h]
      _ = 0#32 := by simp [BitVec.and_assoc, BitVec.not_and_self]
  · intro h
    apply BitVec.eq_of_getLsbD_eq
    intro i hi
    have hget := congrArg (fun w => BitVec.getLsbD w i) h
    simp only [BitVec.getLsbD_and, BitVec.getLsbD_zero] at hget
    simp only [BitVec.getLsbD_and, BitVec.getLsbD_not, hi, decide_true, Bool.true_and]
    cases hx : x.getLsbD i with
    | false => rfl
    | true =>
      rw [hx, Bool.true_and] at hget
      rw [hget]
      rfl

/-- The release changes nothing exactly if it is quiet. -/
theorem Bus.sigVote_release_eq_iff (bus : Bus ω) (voter : BitVec 32) :
    (bus.sigVote { voter, signal := .irq, voted := false }).sigvotes = bus.sigvotes ↔
      bus.sigvotes.allocated &&& voter = 0#32 ∨ bus.sigvotes.irq &&& voter = 0#32 := by
  rw [bus.sigVote_release]
  by_cases hfree : bus.sigvotes.allocated &&& voter = 0#32
  · simp [hfree]
  · simp only [hfree, if_false, false_or]
    rw [← and_not_eq_self_iff]
    constructor
    · intro h
      exact congrArg SigVotes.irq h
    · intro h
      rw [h]

end

/-! ## One connection -/

section
variable {τ : Type}

/-- The peek callback of a device. -/
def Device.peekCb : Device → BusReadCb (Board τ)
  | .memory id => fun addr _ b => (memBusReadCb (b.memory id) addr, b, [])
  | .via id => viaReadOnBoard id
  | .acia id => aciaReadOnBoard id
  | .eeprom id => eepromReadOnBoard id

theorem Device.handlers_peek (d : Device) :
    (d.handlers : BusHandlers (Board τ)).peek = some d.peekCb := by
  cases d <;> rfl

/-- The device decodes the address without disturbance. -/
def Device.PeekQuiet (d : Device) (addr : BitVec 16) (bus : Bus (Board τ)) : Prop :=
  match d with
  | .memory _ => True
  | .via id => (bus.devs.via id).PeekQuiet addr
  | .acia id => (bus.devs.acia id).PeekQuiet bus.sigvotes addr
  | .eeprom id => (bus.devs.eeprom id).PeekQuiet addr

/-- The bus after a device's peek callback. -/
def Device.peeked (d : Device) (addr : BitVec 16) (bus : Bus (Board τ)) : Bus (Board τ) :=
  bus.afterCallback (d.peekCb addr false bus.devs).2

/-- One connection's turn in a peek. -/
def peekConn (addr : BitVec 16) (bus : Bus (Board τ)) (c : DeviceConn τ) : Bus (Board τ) :=
  if busMatchAddr c.params addr true bus.devs then c.device.peeked addr bus else bus

theorem busReadConn_peek (addr : BitVec 16) (acc : Option (BitVec 8) × Bus (Board τ))
    (c : DeviceConn τ) :
    (busReadConn addr true false acc c.conn).2 = peekConn addr acc.2 c := by
  unfold busReadConn peekConn
  simp only [DeviceConn.conn, if_true, Device.handlers_peek, Device.peeked]
  split
  · split <;> rfl
  · rfl

/-- A peek is the peek callbacks of the devices that match, in turn. -/
theorem busPeek_bus {bus : Bus (Board τ)} {conns : List (DeviceConn τ)}
    (hconns : bus.connlist = conns.map DeviceConn.conn) (addr : BitVec 16) :
    (busPeek bus addr).2 = conns.foldl (peekConn addr) bus := by
  have hfold : ∀ (l : List (DeviceConn τ)) (acc : Option (BitVec 8) × Bus (Board τ)),
      ((l.map DeviceConn.conn).foldl (busReadConn addr true false) acc).2 =
        l.foldl (peekConn addr) acc.2 := by
    intro l
    induction l with
    | nil => exact fun _ => rfl
    | cons c l ih =>
      intro acc
      rw [List.map_cons, List.foldl_cons, List.foldl_cons, ih, busReadConn_peek]
  unfold busPeek busReadPeekI
  simp only [if_true]
  rw [hconns, hfold]

theorem Bus.afterCallback_nil {ω : Type} (bus : Bus ω) (devs : ω) :
    bus.afterCallback (devs, []) = { bus with devs } := rfl

theorem Bus.afterCallback_release {ω : Type} (bus : Bus ω) (devs : ω) (voter : BitVec 32) :
    bus.afterCallback (devs, [{ voter, signal := .irq, voted := false }]) =
      Bus.sigVote { bus with devs } { voter, signal := .irq, voted := false } := rfl

/-- A read of a VIA votes at most the release of its own IRQ. -/
theorem viaBusReadCb_votes (v : Via) (addr : BitVec 16) :
    (viaBusReadCb v addr).2.votes = [] ∨
      (viaBusReadCb v addr).2.votes = [{ voter := v.voter, signal := .irq, voted := false }] := by
  have hclear : ∀ bit, (viaClearIfr { via := v } bit).votes = [] ∨
      (viaClearIfr { via := v } bit).votes =
        [{ voter := v.voter, signal := .irq, voted := false }] := by
    intro bit
    unfold viaClearIfr ViaStep.voteIrq
    dsimp only
    split
    · split
      · split
        · exact Or.inr rfl
        · exact Or.inl rfl
      · exact Or.inl rfl
    · exact Or.inl rfl
  -- the handshake of a read of port A drives CA2, and votes nothing
  have hshake : ∀ s, (readHandshake s).votes = s.votes := by
    intro s
    have hwrite : (viaWriteC2State s true false).votes = s.votes := by
      unfold viaWriteC2State
      dsimp only
      split
      · rfl
      · split <;> rfl
    unfold readHandshake
    split
    · dsimp only
      split <;> exact hwrite
    · rfl
  rw [viaBusReadCb_step]
  cases v.window addr with
  | none => exact Or.inl rfl
  | some reg =>
    cases reg with
    | dataa =>
      simp only [hshake]
      exact hclear _
    | datab => exact hclear _
    | t1cl => exact hclear _
    | _ => exact Or.inl rfl

theorem voteIrq_cases (a : Acia τ) : a.voteIrq false = [] ∨
    a.voteIrq false = [{ voter := a.voter, signal := .irq, voted := false }] := by
  unfold Acia.voteIrq
  split
  · exact Or.inr rfl
  · exact Or.inl rfl

/-- The ACIA's release of IRQ changes nothing exactly if it is quiet. -/
theorem voteQuiet_iff {ω : Type} (a : Acia τ) (bus : Bus ω) :
    VoteQuiet bus.sigvotes a.voter ↔ bus.afterCallback (bus.devs, a.voteIrq false) = bus := by
  unfold VoteQuiet Acia.voteIrq
  by_cases hinvalid : a.voter = BUS_SIGNAL_INVALID_VOTER
  · rw [if_neg (Decidable.not_not.2 hinvalid)]
    exact ⟨fun _ => rfl, fun _ => Or.inl hinvalid⟩
  · rw [if_pos hinvalid, Bus.afterCallback_release]
    have hiff := Bus.sigVote_release_eq_iff { bus with devs := bus.devs } a.voter
    constructor
    · intro h
      have hsame := hiff.2 (h.resolve_left hinvalid)
      rw [Bus.sigVote_release] at hsame ⊢
      simp only at hsame
      rw [hsame]
    · intro h
      exact Or.inr (hiff.1 (congrArg Bus.sigvotes h))

/-- What a device's peek does to the bus: new devices, and at most a release of IRQ. -/
theorem Device.peeked_cases (d : Device) (addr : BitVec 16) (bus : Bus (Board τ)) :
    d.peeked addr bus = { bus with devs := (d.peekCb addr false bus.devs).2.1 } ∨
    ∃ voter, d.peeked addr bus =
      Bus.sigVote { bus with devs := (d.peekCb addr false bus.devs).2.1 }
        { voter, signal := .irq, voted := false } := by
  unfold Device.peeked
  have hcases : (d.peekCb addr false bus.devs).2.2 = [] ∨
      ∃ voter, (d.peekCb addr false bus.devs).2.2 =
        [{ voter, signal := .irq, voted := false }] := by
    cases d with
    | memory id => exact Or.inl rfl
    | via id =>
      rcases viaBusReadCb_votes (bus.devs.via id) addr with hnone | hvote
      · exact Or.inl hnone
      · exact Or.inr ⟨_, hvote⟩
    | acia id =>
      have hvotes := aciaBusReadCb_votes (bus.devs.acia id) addr
      split at hvotes
      · rcases voteIrq_cases (bus.devs.acia id) with hnone | hvote
        · exact Or.inl (hvotes.trans hnone)
        · exact Or.inr ⟨_, hvotes.trans hvote⟩
      · exact Or.inl hvotes
    | eeprom id => exact Or.inl rfl
  revert hcases
  generalize (d.peekCb addr false bus.devs).2 = r
  obtain ⟨devs, votes⟩ := r
  rintro (rfl | ⟨voter, rfl⟩)
  · exact Or.inl rfl
  · exact Or.inr ⟨voter, rfl⟩

theorem Device.peeked_devs (d : Device) (addr : BitVec 16) (bus : Bus (Board τ)) :
    (d.peeked addr bus).devs = (d.peekCb addr false bus.devs).2.1 := by
  rcases d.peeked_cases addr bus with h | ⟨voter, h⟩ <;> rw [h]
  rfl

theorem Device.lowered_peeked (d : Device) (addr : BitVec 16) (bus : Bus (Board τ)) :
    bus.Lowered (d.peeked addr bus) := by
  have hdevs : bus.Lowered { bus with devs := (d.peekCb addr false bus.devs).2.1 } :=
    ⟨rfl, rfl, rfl, rfl, rfl, bus.sigvotes.irq, by rw [BitVec.and_self]⟩
  rcases d.peeked_cases addr bus with h | ⟨voter, h⟩
  · rw [h]
    exact hdevs
  · rw [h]
    exact hdevs.trans (Bus.lowered_release _ voter)

/-- Only the device's own slot is touched. -/
theorem Device.peeked_slots (d : Device) (addr : BitVec 16) (bus : Bus (Board τ)) {d' : Device}
    (hne : d' ≠ d) : bus.devs.AgreeAt (d.peeked addr bus).devs d' := by
  rw [d.peeked_devs]
  cases d with
  | memory id => exact Board.AgreeAt.refl _ _
  | via id =>
    cases d' with
    | via id' =>
      have hid : id' ≠ id := fun heq => hne (by rw [heq])
      exact (Function.update_of_ne hid _ _).symm
    | _ => exact rfl
  | acia id =>
    cases d' with
    | acia id' =>
      have hid : id' ≠ id := fun heq => hne (by rw [heq])
      exact (Function.update_of_ne hid _ _).symm
    | _ => exact rfl
  | eeprom id =>
    cases d' with
    | eeprom id' =>
      have hid : id' ≠ id := fun heq => hne (by rw [heq])
      exact (Function.update_of_ne hid _ _).symm
    | _ => exact rfl

theorem viaPeekQuiet_iff (id : Nat) (addr : BitVec 16) (bus : Bus (Board τ)) :
    Device.PeekQuiet (.via id) addr bus ↔ Device.peeked (.via id) addr bus = bus := by
  constructor
  · intro h
    have hstep := Via.PeekQuiet.votes h
    unfold Device.peeked
    simp only [Device.peekCb, viaReadOnBoard, hstep]
    rw [Bus.afterCallback_nil, Board.putVia, Function.update_eq_self]
  · intro h
    have hslot := congrArg (fun b => b.devs.via id) h
    rw [Device.peeked_devs] at hslot
    have hself : (viaBusReadCb (bus.devs.via id) addr).2.via = bus.devs.via id :=
      (Function.update_self id _ _).symm.trans hslot
    exact ((bus.devs.via id).peekQuiet_iff addr).2 hself

/-- Where the peek leaves the ACIA as it was, only its vote is to be seen. -/
theorem aciaPeeked_of_same (id : Nat) (addr : BitVec 16) (bus : Bus (Board τ))
    (hstate : (aciaBusReadCb (bus.devs.acia id) addr).2.1 = bus.devs.acia id) :
    Device.peeked (.acia id) addr bus = bus.afterCallback (bus.devs,
      if addr - (bus.devs.acia id).base = 1#16 then (bus.devs.acia id).voteIrq false else []) := by
  have hboard : bus.devs.putAcia id (aciaBusReadCb (bus.devs.acia id) addr).2.1 = bus.devs := by
    rw [hstate, Board.putAcia, Function.update_eq_self]
  unfold Device.peeked
  simp only [Device.peekCb, aciaReadOnBoard, hboard, aciaBusReadCb_votes]

theorem aciaPeekQuiet_iff (id : Nat) (addr : BitVec 16) (bus : Bus (Board τ)) :
    Device.PeekQuiet (.acia id) addr bus ↔ Device.peeked (.acia id) addr bus = bus := by
  constructor
  · rintro ⟨hdata, hstatus⟩
    have hstate := ((bus.devs.acia id).state_eq_iff addr).2 ⟨hdata, fun hreg => (hstatus hreg).1⟩
    rw [aciaPeeked_of_same id addr bus hstate]
    split
    · rename_i hreg
      exact (voteQuiet_iff _ bus).1 (hstatus hreg).2
    · rfl
  · intro h
    have hslot := congrArg (fun b => b.devs.acia id) h
    rw [Device.peeked_devs] at hslot
    have hself : (aciaBusReadCb (bus.devs.acia id) addr).2.1 = bus.devs.acia id :=
      (Function.update_self id _ _).symm.trans hslot
    obtain ⟨hdata, hstatus⟩ := ((bus.devs.acia id).state_eq_iff addr).1 hself
    refine ⟨hdata, fun hreg => ⟨hstatus hreg, ?_⟩⟩
    rw [aciaPeeked_of_same id addr bus hself, if_pos hreg] at h
    exact (voteQuiet_iff _ bus).2 h

theorem eepromPeekQuiet_iff (id : Nat) (addr : BitVec 16) (bus : Bus (Board τ)) :
    Device.PeekQuiet (.eeprom id) addr bus ↔ Device.peeked (.eeprom id) addr bus = bus := by
  constructor
  · intro h
    have hstate := ((bus.devs.eeprom id).peekQuiet_iff addr).1 h
    unfold Device.peeked
    simp only [Device.peekCb, eepromReadOnBoard, hstate]
    rw [Bus.afterCallback_nil, Board.putEeprom, Function.update_eq_self]
  · intro h
    have hslot := congrArg (fun b => b.devs.eeprom id) h
    rw [Device.peeked_devs] at hslot
    have hself : (at28c256ReadCb (bus.devs.eeprom id) addr).2 = bus.devs.eeprom id :=
      (Function.update_self id _ _).symm.trans hslot
    exact ((bus.devs.eeprom id).peekQuiet_iff addr).2 hself

/-- A device's peek leaves the bus as it was exactly if the device is quiet. -/
theorem Device.peekQuiet_iff (d : Device) (addr : BitVec 16) (bus : Bus (Board τ)) :
    d.PeekQuiet addr bus ↔ d.peeked addr bus = bus := by
  cases d with
  | memory id => exact ⟨fun _ => rfl, fun _ => trivial⟩
  | via id => exact viaPeekQuiet_iff id addr bus
  | acia id => exact aciaPeekQuiet_iff id addr bus
  | eeprom id => exact eepromPeekQuiet_iff id addr bus

/-! ## One peek -/

/-- Every device that decodes the address is quiet there. -/
def PeekQuiet (conns : List (DeviceConn τ)) (addr : BitVec 16) (bus : Bus (Board τ)) : Prop :=
  ∀ c ∈ conns, busMatchAddr c.params addr true bus.devs = true → c.device.PeekQuiet addr bus

theorem peekConn_eq_iff (addr : BitVec 16) (bus : Bus (Board τ)) (c : DeviceConn τ) :
    peekConn addr bus c = bus ↔
      (busMatchAddr c.params addr true bus.devs = true → c.device.PeekQuiet addr bus) := by
  unfold peekConn
  rw [Device.peekQuiet_iff]
  split
  · rename_i hmatch
    exact ⟨fun h _ => h, fun h => h hmatch⟩
  · rename_i hmatch
    exact ⟨fun _ h => absurd h hmatch, fun _ => rfl⟩

theorem lowered_peekConn (addr : BitVec 16) (bus : Bus (Board τ)) (c : DeviceConn τ) :
    bus.Lowered (peekConn addr bus c) := by
  unfold peekConn
  split
  · exact c.device.lowered_peeked addr bus
  · exact Bus.Lowered.refl bus

theorem peekConn_slots (addr : BitVec 16) (bus : Bus (Board τ)) (c : DeviceConn τ) {d : Device}
    (hne : d ≠ c.device) : bus.devs.AgreeAt (peekConn addr bus c).devs d := by
  unfold peekConn
  split
  · exact c.device.peeked_slots addr bus hne
  · exact Board.AgreeAt.refl _ _

theorem lowered_peekConns (addr : BitVec 16) (conns : List (DeviceConn τ)) (bus : Bus (Board τ)) :
    bus.Lowered (conns.foldl (peekConn addr) bus) := by
  induction conns generalizing bus with
  | nil => exact Bus.Lowered.refl bus
  | cons c conns ih => exact (lowered_peekConn addr bus c).trans (ih _)

theorem peekConns_slots (addr : BitVec 16) (conns : List (DeviceConn τ)) {d : Device}
    (hd : ∀ c ∈ conns, d ≠ c.device) (bus : Bus (Board τ)) :
    bus.devs.AgreeAt (conns.foldl (peekConn addr) bus).devs d := by
  induction conns generalizing bus with
  | nil => exact Board.AgreeAt.refl _ _
  | cons c conns ih =>
    have hfirst := peekConn_slots addr bus c (hd c List.mem_cons_self)
    exact hfirst.trans (ih (fun c' hc' => hd c' (List.mem_cons_of_mem _ hc')) _)

theorem foldl_peekConn_of_quiet {addr : BitVec 16} {conns : List (DeviceConn τ)}
    {bus : Bus (Board τ)} (h : PeekQuiet conns addr bus) :
    conns.foldl (peekConn addr) bus = bus := by
  induction conns with
  | nil => rfl
  | cons c conns ih =>
    have hfirst := (peekConn_eq_iff addr bus c).2 (h c List.mem_cons_self)
    rw [List.foldl_cons, hfirst]
    exact ih fun c' hc' => h c' (List.mem_cons_of_mem _ hc')

/-- With every device on the bus once, a disturbance by one connection is not undone by the
    others: they do not touch the device, and a released vote is not taken again. -/
theorem quiet_of_foldl_peekConn {addr : BitVec 16} {conns : List (DeviceConn τ)}
    (hnodup : (conns.map (·.device)).Nodup) {bus : Bus (Board τ)}
    (h : conns.foldl (peekConn addr) bus = bus) : PeekQuiet conns addr bus := by
  induction conns with
  | nil =>
    intro c hc
    cases hc
  | cons c conns ih =>
    rw [List.map_cons, List.nodup_cons] at hnodup
    rw [List.foldl_cons] at h
    -- no later connection has the device, so what the peek did to it stays
    have hown : ∀ c' ∈ conns, c.device ≠ c'.device := fun c' hc' heq =>
      hnodup.1 (heq ▸ List.mem_map_of_mem hc')
    have hlow := lowered_peekConn addr bus c
    have hrest := lowered_peekConns addr conns (peekConn addr bus c)
    have hdevs : (peekConn addr bus c).devs = bus.devs := by
      apply Board.ext_slots
      intro d
      by_cases hd : d = c.device
      · subst hd
        have hlater := peekConns_slots addr conns hown (peekConn addr bus c)
        rw [h] at hlater
        exact hlater
      · exact (peekConn_slots addr bus c hd).symm
    -- votes only go down, and they end where they began
    have hvotes := hlow.antisymm hrest (congrArg Bus.sigvotes h)
    have hfirst : peekConn addr bus c = bus := by
      obtain ⟨hconnlist, htracelist, hlastop, htrace, hedges, _⟩ := hlow
      revert hconnlist htracelist hlastop htrace hedges hdevs hvotes
      generalize peekConn addr bus c = bus'
      obtain ⟨_, _, _, _, _, _, _⟩ := bus
      obtain ⟨_, _, _, _, _, _, _⟩ := bus'
      rintro rfl rfl rfl rfl rfl rfl rfl
      rfl
    rw [hfirst] at h
    intro c' hc'
    rcases List.mem_cons.1 hc' with rfl | hc'
    · exact (peekConn_eq_iff addr bus c').1 hfirst
    · exact ih hnodup.2 h c' hc'

end

/-! ## What the debugger peeks -/

section
variable {ω : Type}

/-- Peeks at some addresses, in order. -/
def peekAll (emu : Emu ω) : List (BitVec 16) → List (BitVec 8) × Emu ω
  | [] => ([], emu)
  | addr :: addrs =>
    let (val, bus) := busPeek emu.bus addr
    let (vals, emu) := peekAll { emu with bus } addrs
    (val :: vals, emu)

/-- `debug_peek` -/
def debugPeek (emu : Emu ω) (addr : BitVec 16) : BitVec 8 × Emu ω :=
  let (val, bus) := busPeek emu.bus addr
  (val, { emu with bus })

/-- The addresses of `debug_dump`: up to `len` of them, and not past the last one. -/
def dumpAddrs (addr len : BitVec 16) : List (BitVec 16) :=
  let endAddr := min (addr.toNat + len.toNat) 0x10000
  (List.range' addr.toNat (endAddr - addr.toNat)).map (BitVec.ofNat 16)

/-- `debug_dump`: the bytes copied into the buffer. -/
def debugDump (emu : Emu ω) (addr len : BitVec 16) : List (BitVec 8) × Emu ω :=
  peekAll emu (dumpAddrs addr len)

/-- The addresses of `disassemble_pc_string`: up to three, and not past the last one. -/
def disassemblyAddrs (pc : BitVec 16) : List (BitVec 16) :=
  pc :: (if pc < 0xFFFF then [pc + 1] else []) ++ if pc < 0xFFFE then [pc + 2] else []

/-- The code bytes that `disassemble_pc_string` collects. -/
def disassemblePcBuf (emu : Emu ω) : List (BitVec 8) × Emu ω :=
  peekAll emu (disassemblyAddrs emu.cpu.regs.pc)

/-- The opcode look-ahead of `debug_finish`. -/
def debugFinishLookahead (emu : Emu ω) : BitVec 8 × Emu ω :=
  let (opcode, bus) := busPeek emu.bus emu.cpu.regs.pc
  (opcode, { emu with bus })

/-- The debugger's inspections of the machine. -/
inductive Inspection where
  | peek (addr : BitVec 16)
  | dump (addr len : BitVec 16)
  | disassemblePc
  | isSubroutine
  | finishLookahead

/-- What an inspection leaves behind. -/
def Inspection.run : Inspection → Emu ω → Emu ω
  | .peek addr, emu => (debugPeek emu addr).2
  | .dump addr len, emu => (debugDump emu addr len).2
  | .disassemblePc, emu => (disassemblePcBuf emu).2
  | .isSubroutine, emu => (cpuIsSubroutine emu).2
  | .finishLookahead, emu => (debugFinishLookahead emu).2

/-- The addresses an inspection peeks at. -/
def Inspection.addrs : Inspection → BitVec 16 → List (BitVec 16)
  | .peek addr, _ => [addr]
  | .dump addr len, _ => dumpAddrs addr len
  | .disassemblePc, pc => disassemblyAddrs pc
  | .isSubroutine, pc | .finishLookahead, pc => [pc]

theorem Inspection.run_eq (i : Inspection) (emu : Emu ω) :
    i.run emu = (peekAll emu (i.addrs emu.cpu.regs.pc)).2 := by
  cases i <;> rfl

end

section
variable {τ : Type}

theorem peekAll_of_quiet {conns : List (DeviceConn τ)} {emu : Emu (Board τ)}
    (hconns : emu.bus.connlist = conns.map DeviceConn.conn) {addrs : List (BitVec 16)}
    (h : ∀ addr ∈ addrs, PeekQuiet conns addr emu.bus) : (peekAll emu addrs).2 = emu := by
  induction addrs with
  | nil => rfl
  | cons addr addrs ih =>
    have hpeek : (busPeek emu.bus addr).2 = emu.bus := by
      rw [busPeek_bus hconns]
      exact foldl_peekConn_of_quiet (h addr List.mem_cons_self)
    rw [peekAll]
    simp only [hpeek]
    exact ih fun a ha => h a (List.mem_cons_of_mem _ ha)

/-! ## Runs with inspections put in -/

/-- What happens to an emulator: ticks, votes, whatever the owners of the devices do to them
    (clock edges, pins, transports), and inspections. -/
inductive HostAct (τ : Type) where
  | tick
  | vote (c : SigVote)
  | device (f : Board τ → Board τ × List SigVote)
  | inspect (i : Inspection)

def HostAct.step : HostAct τ → Emu (Board τ) → Option (Emu (Board τ))
  | .tick, emu => cpuTick 4 emu
  | .vote c, emu => some { emu with bus := emu.bus.sigVote c }
  | .device f, emu => some { emu with bus := emu.bus.afterCallback (f emu.bus.devs) }
  | .inspect i, emu => some (i.run emu)

def HostAct.inspects : HostAct τ → Bool
  | .inspect _ => true
  | _ => false

/-- An inspection peeks at quiet devices only. -/
def HostAct.QuietIn (conns : List (DeviceConn τ)) : HostAct τ → Emu (Board τ) → Prop
  | .inspect i, emu => ∀ addr ∈ i.addrs emu.cpu.regs.pc, PeekQuiet conns addr emu.bus
  | _, _ => True

/-- Every inspection of the run is quiet in the state it is made in. -/
def QuietRun (conns : List (DeviceConn τ)) : List (HostAct τ) → Emu (Board τ) → Prop
  | [], _ => True
  | a :: acts, emu => a.QuietIn conns emu ∧ ∀ emu', a.step emu = some emu' → QuietRun conns acts emu'

end

section
variable {ω : Type}

theorem connlist_call (emu : Emu ω) (p : BusM Cpu) :
    (emu.call p).bus.connlist = emu.bus.connlist :=
  (kept_connlist emu.bus.connlist).run rfl p

theorem connlist_cpuTickBody (emu : Emu ω) :
    (cpuTickBody emu).bus.connlist = emu.bus.connlist := by
  unfold cpuTickBody
  split
  · split
    · rfl
    · split
      · rfl
      · exact connlist_call emu _
  · exact connlist_call emu _

theorem connlist_cpuTickLoop {fuel : Nat} {emu emu' : Emu ω}
    (h : cpuTickLoop fuel emu = some emu') : emu'.bus.connlist = emu.bus.connlist := by
  induction fuel generalizing emu with
  | zero => cases h
  | succ fuel ih =>
    rw [cpuTickLoop] at h
    split at h
    · rw [Option.some.inj h]
    · exact (ih h).trans (connlist_cpuTickBody emu)

theorem connlist_cpuTick {fuel : Nat} {emu emu' : Emu ω} (h : cpuTick fuel emu = some emu') :
    emu'.bus.connlist = emu.bus.connlist := by
  unfold cpuTick at h
  dsimp only at h
  split at h
  · obtain rfl := Option.some.inj h
    obtain ⟨op, hop, _⟩ := committed_replay emu.bus
    exact hop.connlist
  · obtain ⟨e, he, rfl⟩ := Option.map_eq_some_iff.1 h
    have hloop := connlist_cpuTickLoop he
    exact hloop

theorem connlist_afterCallback (bus : Bus ω) (r : ω × List SigVote) :
    (bus.afterCallback r).connlist = bus.connlist :=
  (bus.sameRecord_afterCallback r).connlist

end

section
variable {τ : Type}

/-- Nothing that happens to an emulator changes its connections. -/
theorem HostAct.connlist_step {conns : List (DeviceConn τ)} {a : HostAct τ}
    {emu emu' : Emu (Board τ)} (hconns : emu.bus.connlist = conns.map DeviceConn.conn)
    (hquiet : a.QuietIn conns emu) (h : a.step emu = some emu') :
    emu'.bus.connlist = conns.map DeviceConn.conn := by
  cases a with
  | tick => exact (connlist_cpuTick h).trans hconns
  | vote c =>
    obtain rfl := Option.some.inj h
    exact hconns
  | device f =>
    obtain rfl := Option.some.inj h
    exact (connlist_afterCallback emu.bus _).trans hconns
  | inspect i =>
    obtain rfl := Option.some.inj h
    rw [i.run_eq, peekAll_of_quiet hconns hquiet]
    exact hconns

/-- A run without its quiet inspections ends in the same emulator. -/
theorem runActs_without_inspections {conns : List (DeviceConn τ)} (acts : List (HostAct τ))
    {emu : Emu (Board τ)} (hconns : emu.bus.connlist = conns.map DeviceConn.conn)
    (hquiet : QuietRun conns acts emu) :
    Erasure.runActs HostAct.step (acts.filter (!·.inspects)) emu =
      Erasure.runActs HostAct.step acts emu := by
  induction acts generalizing emu with
  | nil => rfl
  | cons a acts ih =>
    obtain ⟨hnow, hlater⟩ := hquiet
    have hrest : ∀ emu', a.step emu = some emu' →
        Erasure.runActs HostAct.step (acts.filter (!·.inspects)) emu' =
          Erasure.runActs HostAct.step acts emu' := fun emu' hstep =>
      ih (HostAct.connlist_step hconns hnow hstep) (hlater emu' hstep)
    cases hinspects : a.inspects with
    | true =>
      cases a with
      | inspect i =>
        have hsame : (HostAct.inspect i).step emu = some emu := by
          show some (i.run emu) = some emu
          rw [i.run_eq, peekAll_of_quiet hconns hnow]
        rw [List.filter_cons_of_neg (by rw [hinspects]; decide), hrest emu hsame,
          Erasure.runActs_cons _ _ _ _ _ hsame]
      | tick => cases hinspects
      | vote c => cases hinspects
      | device f => cases hinspects
    | false =>
      rw [List.filter_cons_of_pos (by rw [hinspects]; rfl), Erasure.runActs, Erasure.runActs]
      cases hstep : a.step emu with
      | none => rfl
      | some emu' => exact hrest emu' hstep

/-- Peeking is invisible where the devices are quiet: a peek at an address leaves the emulator
    as it was if every device that decodes the address is quiet there, and, with each device on
    the bus once, only then. A run with any quiet inspections put in ends in the same emulator,
    its trace and registers included, as the run without them. -/
theorem peek_invisible {conns : List (DeviceConn τ)} {emu : Emu (Board τ)}
    (hconns : emu.bus.connlist = conns.map DeviceConn.conn) :
    (∀ addr, PeekQuiet conns addr emu.bus → (debugPeek emu addr).2 = emu) ∧
    ((conns.map (·.device)).Nodup → ∀ addr, (debugPeek emu addr).2 = emu →
      PeekQuiet conns addr emu.bus) ∧
    (∀ acts, QuietRun conns acts emu →
      Erasure.runActs HostAct.step (acts.filter (!·.inspects)) emu =
        Erasure.runActs HostAct.step acts emu) := by
  have hbus := busPeek_bus hconns
  refine ⟨?_, ?_, ?_⟩
  · intro addr hquiet
    unfold debugPeek
    simp only [hbus addr, foldl_peekConn_of_quiet hquiet]
  · intro hnodup addr hsame
    have hfold : conns.foldl (peekConn addr) emu.bus = emu.bus := by
      rw [← hbus addr]
      exact congrArg Emu.bus hsame
    exact quiet_of_foldl_peekConn hnodup hfold
  · intro acts hquiet
    exact runActs_without_inspections acts hconns hquiet

end

/-- A board with one of each device: RAM at `$0000`, a VIA at `$6000`, an ACIA at `$5000` and
    an EEPROM at `$8000`. -/
def smallBoard : Board Unit where
  memory _ := { size := 0x10, rom := false, base := 0, buffer := .replicate _ 0 }
  via _ := { viaInit with busHandle := some 1, base := 0x6000 }
  acia _ := { aciaInit () with busHandle := some 2, base := 0x5000 }
  eeprom _ := { at28c256Init false with busHandle := some 3, base := 0x8000 }

def smallConns : List (DeviceConn Unit) :=
  [{ handle := 0, params := .range 0x0000 0x000F, device := .memory 0 },
    { handle := 1, params := .range 0x6000 0x600F, device := .via 0 },
    { handle := 2, params := .range 0x5000 0x5003, device := .acia 0 },
    { handle := 3, params := .range 0x8000 0xFFFF, device := .eeprom 0 }]

/-- The emulator of `smallBoard` after `cpu_init`. -/
def smallEmu : Emu (Board Unit) :=
  { bus := Bus.init (smallConns.map DeviceConn.conn) [] smallBoard, cpu := cpuInit }

theorem peek_invisible_on_small_board : (debugPeek smallEmu 0x6001).2 = smallEmu := by
  have hconns : smallEmu.bus.connlist = smallConns.map DeviceConn.conn := rfl
  refine (peek_invisible hconns).1 0x6001 ?_
  intro c hc hmatch
  simp only [smallConns, List.mem_cons, List.not_mem_nil, or_false] at hc
  rcases hc with rfl | rfl | rfl | rfl
  · exact absurd hmatch (by decide)
  · exact ⟨⟨by decide, by decide⟩, fun hshake => absurd hshake (by decide)⟩
  · exact absurd hmatch (by decide)
  · exact absurd hmatch (by decide)

/-- The CA1 pin of the VIA driven from outside. -/
def driveCa1 (val : Bool) : HostAct Unit :=
  .device fun b =>
    let s := viaWriteCtrl (b.via 0) .ca1 val
    (b.putVia 0 s.via, s.votes)

/-- A pulse on CA1 sets its flag; a debugger's look at port A clears it again. -/
theorem peek_clears_interrupt_flag :
    ∃ emu, Erasure.runActs HostAct.step [driveCa1 true, driveCa1 false] smallEmu = some emu ∧
      (emu.bus.devs.via 0).ifr = 0x82#8 ∧
      ((debugPeek emu 0x6001).2.bus.devs.via 0).ifr = 0x00#8 :=
  ⟨_, rfl, by decide, by decide⟩

end Cb6502
