import Cb6502.Arbitration
import Cb6502.Voters

/- Registrations that fail (`via_register` of io/via/src/via.c, `acia_register` of
   io/acia/src/acia.c). Each acquires a bus connection and then a voter, and gives the connection
   back if there is no voter left; the VIA goes on pointing to it then.

   What is proved:
     1. `connlist_unregister` (the connection list as it was before a connection that is given
        back).
     2. `leavesNoTrace_of_unregistered` (a handle without connection and voter can be registered,
        and its cleanup leaves the bus alone).
     3. `failed_registration_iff` (a failed registration leaves no trace, exactly unless it is of a
        VIA that got its connection). -/
namespace Cb6502

variable {ω τ : Type}

/-! ## The two drivers -/

/-- The device that is registered. -/
inductive Driver (τ : Type) where
  | via (v : Via)
  | acia (a : Acia τ)

def Driver.busHandle : Driver τ → Option Nat
  | .via v => v.busHandle
  | .acia a => a.busHandle

def Driver.voter : Driver τ → BitVec 32
  | .via v => v.voter
  | .acia a => a.voter

/-- `via_register`, which wants a decoder, or `acia_register`. -/
def Driver.register (d : Driver τ) (bus : Bus ω) (decoder : Option (BusDecodeParams ω))
    (handlers : BusHandlers ω) (base : BitVec 16) (irq : Bool) : Bool × Driver τ × Bus ω :=
  match d, decoder with
  | .via v, none => (false, .via v, bus)
  | .via v, some decoder =>
    let (ok, v, bus) := viaRegister v bus decoder handlers base irq
    (ok, .via v, bus)
  | .acia a, decoder =>
    let (ok, a, bus) := aciaRegister a bus decoder handlers base irq
    (ok, .acia a, bus)

/-- `via_cleanup` or `acia_cleanup`. -/
def Driver.cleanup (d : Driver τ) (bus : Bus ω) : Bus ω :=
  match d with
  | .via v => viaCleanup v bus
  | .acia a => aciaCleanup a bus

/-- Neither a connection nor a voter. -/
structure Driver.Unregistered (d : Driver τ) : Prop where
  busHandle : d.busHandle = none
  voter : d.voter = BUS_SIGNAL_INVALID_VOTER

/-- There is a voter to be had. -/
def Bus.VoterLeft (bus : Bus ω) : Prop :=
  (emuBusRegisterSigVoter bus.sigvotes).1 ≠ BUS_SIGNAL_INVALID_VOTER

/-- The connections are as before and the handle has none; so that a later registration succeeds,
and a later cleanup has nothing to unregister. -/
structure LeavesNoTrace (bus bus' : Bus ω) (d' : Driver τ) : Prop where
  conns : bus'.connlist = bus.connlist
  unregistered : d'.Unregistered
  retry : ∀ (later : Bus ω) decoder handlers base irq, busValidateParams decoder = true →
    later.VoterLeft → (d'.register later (some decoder) handlers base irq).1 = true
  cleanup : ∀ later : Bus ω, d'.cleanup later = later

/-- A VIA whose decoder is accepted. -/
def Driver.ConnectsVia (d : Driver τ) (decoder : Option (BusDecodeParams ω)) : Prop :=
  match d, decoder with
  | .via _, some decoder => busValidateParams decoder = true
  | .via _, none | .acia _, _ => False

section Failed
variable {bus : Bus ω} {decoder : BusDecodeParams ω} {handlers : BusHandlers ω} {base : BitVec 16}
  {irq : Bool} {v : Via} {a : Acia τ} {d : Driver τ}

/-! ## The two resources -/

/-- What `emu_bus_register` does to the list. -/
def Bus.connect (bus : Bus ω) (params : BusDecodeParams ω) (handlers : BusHandlers ω) : Bus ω :=
  { bus with connlist := bus.connlist ++ [{ handle := bus.freeHandle, params, handlers }] }

/-- A connection that is given back was the only one with its handle. -/
theorem connlist_unregister (bus : Bus ω) (params : BusDecodeParams ω) (handlers : BusHandlers ω)
    (sigvotes : SigVotes) :
    (emuBusUnregister { bus.connect params handlers with sigvotes } bus.freeHandle).connlist =
      bus.connlist := by
  have hkept : ∀ conn ∈ bus.connlist, (conn.handle != bus.freeHandle) = true := fun conn hconn =>
    bne_iff_ne.mpr (Nat.ne_of_lt (handle_lt_freeHandle bus hconn))
  simp only [emuBusUnregister, Bus.connect, List.filter_append, List.filter_eq_self.mpr hkept]
  simp

theorem emuBusRegister_accepted (h : busValidateParams decoder = true) :
    emuBusRegister bus decoder handlers = (some bus.freeHandle, bus.connect decoder handlers) :=
  if_pos h

theorem emuBusRegister_rejected (h : busValidateParams decoder = false) :
    emuBusRegister bus decoder handlers = (none, bus) := by
  rw [emuBusRegister, h]
  rfl

/-- Without a voter the votes are as before. -/
theorem noVoter_eq (h : ¬bus.VoterLeft) :
    emuBusRegisterSigVoter bus.sigvotes = (BUS_SIGNAL_INVALID_VOTER, bus.sigvotes) := by
  rcases emuBusRegisterSigVoter_cases bus.sigvotes with hnone | ⟨i, -, hsome⟩
  · exact hnone
  · rw [Bus.VoterLeft, hsome, Decidable.not_not] at h
    exact absurd h (voterHandle_ne_invalid i)

/-! ## The VIA -/

theorem viaRegister_unregistered (hnew : (Driver.via v : Driver τ).Unregistered) :
    ¬(v.busHandle.isSome ∨ v.voter ≠ BUS_SIGNAL_INVALID_VOTER) := by
  have hhandle : v.busHandle = none := hnew.busHandle
  have hvoter : v.voter = BUS_SIGNAL_INVALID_VOTER := hnew.voter
  simp [hhandle, hvoter]

theorem viaRegister_rejected (hnew : (Driver.via v : Driver τ).Unregistered)
    (h : busValidateParams decoder = false) :
    viaRegister v bus decoder handlers base irq = (false, v, bus) := by
  rw [viaRegister, if_neg (viaRegister_unregistered hnew), emuBusRegister_rejected h]

/-- With a connection but no voter, the connection is given back and the VIA keeps its handle. -/
theorem viaRegister_accepted (hnew : (Driver.via v : Driver τ).Unregistered)
    (h : busValidateParams decoder = true) :
    (viaRegister v bus decoder handlers base irq).2.1.busHandle = some bus.freeHandle ∧
      ((viaRegister v bus decoder handlers base irq).1 = true ↔ irq = false ∨ bus.VoterLeft) := by
  rw [viaRegister, if_neg (viaRegister_unregistered hnew), emuBusRegister_accepted h]
  cases irq with
  | false => exact ⟨rfl, iff_of_true rfl (.inl rfl)⟩
  | true =>
    simp only [if_true]
    have hvoter : (bus.connect decoder handlers).VoterLeft ↔ bus.VoterLeft := Iff.rfl
    split
    · rename_i hnone
      exact ⟨rfl, iff_of_false Bool.false_ne_true fun h => h.elim Bool.noConfusion fun hleft => hleft hnone⟩
    · rename_i hsome
      exact ⟨rfl, iff_of_true rfl (.inr hsome)⟩

/-! ## The ACIA -/

theorem aciaRegister_accepted (h : busValidateParams decoder = true) :
    (aciaRegister a bus (some decoder) handlers base irq).1 = true ↔ irq = false ∨ bus.VoterLeft := by
  rw [aciaRegister, emuBusRegister_accepted h]
  cases irq with
  | false => exact iff_of_true rfl (.inl rfl)
  | true =>
    simp only [Bool.not_false, Bool.and_self, if_true, beq_iff_eq]
    split
    · rename_i hnone
      exact iff_of_false Bool.false_ne_true fun h =>
        h.elim Bool.noConfusion fun hleft => hleft hnone
    · rename_i hsome
      exact iff_of_true rfl (.inr hsome)

theorem aciaRegister_noVoter (hleft : ¬bus.VoterLeft) (h : busValidateParams decoder = true) :
    aciaRegister a bus (some decoder) handlers base true =
      (false, { a with busHandle := none, base, voter := BUS_SIGNAL_INVALID_VOTER },
        emuBusUnregister (bus.connect decoder handlers) bus.freeHandle) := by
  have hnone : emuBusRegisterSigVoter (bus.connect decoder handlers).sigvotes =
      (BUS_SIGNAL_INVALID_VOTER, bus.sigvotes) := noVoter_eq hleft
  rw [aciaRegister, emuBusRegister_accepted h]
  simp only [hnone]
  rfl

theorem aciaRegister_rejected (hvalid : busValidateParams decoder = false) :
    aciaRegister a bus (some decoder) handlers base irq =
      (false, { a with busHandle := none }, bus) := by
  rw [aciaRegister, emuBusRegister_rejected hvalid]
  simp

/-- Without a decoder only the voter can fail. -/
theorem aciaRegister_undecoded (hnew : (Driver.acia a).Unregistered) :
    (aciaRegister a bus none handlers base irq).1 = true ∨
      aciaRegister a bus none handlers base irq =
        (false, { a with voter := BUS_SIGNAL_INVALID_VOTER }, bus) := by
  have hhandle : a.busHandle = none := hnew.busHandle
  cases irq with
  | false => exact .inl rfl
  | true =>
    by_cases hleft : bus.VoterLeft
    · left
      have hok : ((emuBusRegisterSigVoter bus.sigvotes).1 == BUS_SIGNAL_INVALID_VOTER) = false :=
        beq_false_of_ne hleft
      simp [aciaRegister, hok]
    · right
      simp [aciaRegister, noVoter_eq hleft, hhandle]

/-- Whatever fails, the connection is given back and forgotten. -/
theorem aciaRegister_failed (hnew : (Driver.acia a).Unregistered)
    {decoder : Option (BusDecodeParams ω)}
    (hfail : (aciaRegister a bus decoder handlers base irq).1 = false) :
    (aciaRegister a bus decoder handlers base irq).2.2.connlist = bus.connlist ∧
      (Driver.acia (aciaRegister a bus decoder handlers base irq).2.1).Unregistered := by
  cases decoder with
  | none =>
    rcases aciaRegister_undecoded hnew with hok | heq
    · exact absurd (hok.symm.trans hfail) Bool.noConfusion
    · rw [heq]
      exact ⟨rfl, hnew.busHandle, rfl⟩
  | some decoder =>
    cases hvalid : busValidateParams decoder with
    | false =>
      rw [aciaRegister_rejected hvalid]
      exact ⟨rfl, rfl, hnew.voter⟩
    | true =>
      have hnone : ¬(irq = false ∨ bus.VoterLeft) := by
        rw [← aciaRegister_accepted hvalid, hfail]
        exact Bool.false_ne_true
      obtain ⟨hirq, hleft⟩ := not_or.mp hnone
      rw [Bool.not_eq_false] at hirq
      subst hirq
      rw [aciaRegister_noVoter hleft hvalid]
      exact ⟨connlist_unregister bus decoder handlers bus.sigvotes, rfl, rfl⟩

/-! ## Both -/

theorem leavesNoTrace_of_unregistered {bus' : Bus ω} (hconns : bus'.connlist = bus.connlist)
    (hnew : d.Unregistered) : LeavesNoTrace bus bus' d := by
  refine ⟨hconns, hnew, ?_, ?_⟩
  · intro later decoder handlers base irq haccepted hleft
    cases d with
    | via v => exact (viaRegister_accepted hnew haccepted).2.mpr (.inr hleft)
    | acia a => exact (aciaRegister_accepted haccepted).mpr (.inr hleft)
  · intro later
    have hhandle := hnew.busHandle
    have hvoter := hnew.voter
    cases d with
    | via v => simp_all [Driver.cleanup, viaCleanup, Driver.busHandle, Driver.voter]
    | acia a => simp_all [Driver.cleanup, aciaCleanup, Driver.busHandle, Driver.voter]

/-- A registration that fails leaves no trace, exactly unless it is that of a VIA whose decoder was
accepted. -/
theorem failed_registration_iff {decoder : Option (BusDecodeParams ω)} (hnew : d.Unregistered)
    (hfail : (d.register bus decoder handlers base irq).1 = false) :
    LeavesNoTrace bus (d.register bus decoder handlers base irq).2.2
      (d.register bus decoder handlers base irq).2.1 ↔ ¬d.ConnectsVia decoder := by
  cases d with
  | acia a =>
    obtain ⟨hconns, hforgets⟩ := aciaRegister_failed hnew hfail
    exact iff_of_true (leavesNoTrace_of_unregistered hconns hforgets) id
  | via v =>
    cases decoder with
    | none => exact iff_of_true (leavesNoTrace_of_unregistered rfl hnew) id
    | some decoder =>
      cases h : busValidateParams decoder with
      | false =>
        have hkeeps : ¬(Driver.via v : Driver τ).ConnectsVia (some decoder) := by
          simp [Driver.ConnectsVia, h]
        refine iff_of_true ?_ hkeeps
        simp only [Driver.register, viaRegister_rejected hnew h]
        exact leavesNoTrace_of_unregistered rfl hnew
      | true =>
        refine iff_of_false ?_ (not_not_intro h)
        intro htrace
        have hforgets : (viaRegister v bus decoder handlers base irq).2.1.busHandle = none :=
          htrace.unregistered.busHandle
        rw [(viaRegister_accepted hnew h).1] at hforgets
        exact absurd hforgets (Option.some_ne_none _)

/-- A bus with all of its voters taken. -/
def votersTaken : Bus Unit := { Bus.init [] [] () with sigvotes := { allocated := 0xFFFFFFFF } }

def noHandlers : BusHandlers Unit := { write := none, read := none, peek := none }

theorem failed_registration_iff_votersTaken :
    LeavesNoTrace votersTaken
      ((Driver.acia (aciaInit ())).register votersTaken (some (.mask 0xFFFC 0x5000)) noHandlers 0x5000
        true).2.2
      ((Driver.acia (aciaInit ())).register votersTaken (some (.mask 0xFFFC 0x5000)) noHandlers 0x5000
        true).2.1 :=
  (failed_registration_iff ⟨rfl, rfl⟩ (by decide)).mpr id

/-- The VIA that finds no voter, and what is left of its registration. -/
def strandedVia : Bool × Driver Unit × Bus Unit :=
  (Driver.via viaInit).register votersTaken (some (.mask 0xFFF0 0x6000)) noHandlers 0x6000 true

/-- It keeps the handle of the connection it gave back, and is refused when there are voters. -/
theorem strandedVia_keeps_handle :
    (Driver.via viaInit : Driver Unit).Unregistered ∧ strandedVia.1 = false ∧
      ¬LeavesNoTrace votersTaken strandedVia.2.2 strandedVia.2.1 ∧
      strandedVia.2.1.busHandle = some 1 ∧ strandedVia.2.2.connlist.length = 0 ∧
      (strandedVia.2.1.register (Bus.init [] [] ()) (some (.mask 0xFFF0 0x6000)) noHandlers 0x6000
        true).1 = false := by
  have hkept : strandedVia.2.1.busHandle = some 1 := by decide
  refine ⟨⟨rfl, rfl⟩, by decide, ?_, hkept, by decide, by decide⟩
  intro htrace
  exact absurd (hkept.symm.trans htrace.unregistered.busHandle) (Option.some_ne_none _)

end Failed

end Cb6502
