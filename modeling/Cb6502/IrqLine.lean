import Cb6502.AciaTransmit
import Cb6502.AciaWindow
import Cb6502.Registration
import Cb6502.ViaIrq

/- The IRQ line of one device over whole runs: the flag that the device has for its interrupt, and
   its bit in the vote mask. The two agree after every operation if they agree after the
   registration; a voter that is handed out again can have a vote from its last owner, as it is
   not cleared with the allocation.

   What is proved:
     1. `DeviceRun.keeps` (an invariant of the operations of a device, and of what others do with
        their own votes, holds in each state).
     2. `via_in_step_iff`, `acia_in_step_iff` (the VIA's IFR, and the ACIA's status bit, agree with
        the vote in each state, exactly if the voter came without a vote). -/
namespace Cb6502

/-! ## Runs of a device -/

section DeviceRun
variable {D Op : Type}

/-- What is reached from a registered device and the votes on its bus, by operations of the device
and whatever others do with their votes in between. -/
inductive DeviceRun (step : D → Op → D) (calls : D → Op → List SigVote) (voter : D → BitVec 32)
    (d₀ : D) (votes₀ : SigVotes) : D → SigVotes → Prop where
  | start : DeviceRun step calls voter d₀ votes₀ d₀ votes₀
  | op {d : D} {votes : SigVotes} (op : Op) (h : DeviceRun step calls voter d₀ votes₀ d votes) :
      DeviceRun step calls voter d₀ votes₀ (step d op) (votes.cast (calls d op))
  | other {d : D} {votes : SigVotes} (votes' : SigVotes)
      (h : DeviceRun step calls voter d₀ votes₀ d votes)
      (hkeeps : votes.KeepsVoter votes' (voter d)) : DeviceRun step calls voter d₀ votes₀ d votes'

theorem DeviceRun.keeps {step : D → Op → D} {calls : D → Op → List SigVote} {voter : D → BitVec 32}
    {d₀ d : D} {votes₀ votes : SigVotes} {P : D → SigVotes → Prop}
    (hop : ∀ d votes op, P d votes → P (step d op) (votes.cast (calls d op)))
    (hother : ∀ d votes votes', votes.KeepsVoter votes' (voter d) → P d votes → P d votes')
    (hstart : P d₀ votes₀) (h : DeviceRun step calls voter d₀ votes₀ d votes) : P d votes := by
  induction h with
  | start => exact hstart
  | op op _ ih => exact hop _ _ op ih
  | other votes' _ hkeeps ih => exact hother _ _ votes' hkeeps ih

end DeviceRun

/-- The mask has the bit of the voter. -/
def SigVotes.Asserts (votes : SigVotes) (voter : BitVec 32) : Prop := votes.irq &&& voter ≠ 0#32

instance (votes : SigVotes) (voter : BitVec 32) : Decidable (votes.Asserts voter) :=
  inferInstanceAs (Decidable (_ ≠ _))

theorem asserts_iff {votes : SigVotes} {voter : BitVec 32} {i : Fin 32}
    (h : voter = voterHandle i) : votes.Asserts voter ↔ votes.irq.getLsbD i = true := by
  rw [SigVotes.Asserts, h]
  exact and_voterHandle_ne_zero votes.irq i

/-! ## The VIA -/

/-- The VIA's operations on the bus. -/
def ViaRun : Via → SigVotes → Via → SigVotes → Prop :=
  DeviceRun (fun v (op : ViaOp) => (op.step v).via) (fun v op => (op.step v).votes) Via.voter

/-- IFR has a flag or is zero, and bit 7 is the vote. -/
structure ViaInStep (v : Via) (votes : SigVotes) : Prop where
  flags : v.ifr = 0 ∨ v.ifr.getLsbD 7 = true ∧ v.ifr &&& 0x7F ≠ 0
  vote : votes.Asserts v.voter ↔ v.ifr.getLsbD 7 = true

theorem flags_iff_bit7 : ∀ ifr : BitVec 8, (ifr = 0 ∨ ifr.getLsbD 7 = true ∧ ifr &&& 0x7F ≠ 0) ↔
    (ifr.getLsbD 7 = true ↔ ifr &&& 0x7F ≠ 0) := by
  decide

section Via
variable {ω : Type} {v v' w : Via} {bus bus' : Bus ω} {votes : SigVotes} {i : Fin 32}

theorem Synced.inStep (h : Synced votes i { via := v }) : ViaInStep v votes := by
  refine ⟨(flags_iff_bit7 v.ifr).mpr h.bit7, ?_⟩
  rw [asserts_iff h.voter]
  exact h.vote.trans h.bit7.symm

/-- After a registration for interrupts with no flag set: IFR and the vote agree in every state,
exactly if the voter came without a vote. -/
theorem via_in_step_iff {decoder : BusDecodeParams ω} {handlers : BusHandlers ω} {base : BitVec 16}
    (hregister : viaRegister v bus decoder handlers base true = (true, v', bus'))
    (hflags : v.ifr = 0) :
    (∀ w votes, ViaRun v' bus'.sigvotes w votes → ViaInStep w votes) ↔
      ¬bus.sigvotes.Asserts v'.voter := by
  obtain ⟨hifr, hirq, i, hvoter, -, hlive⟩ := viaRegister_voter hregister
  have hclear : v'.ifr = 0 := hifr.trans hflags
  have hvote : bus'.sigvotes.Asserts v'.voter ↔ bus.sigvotes.Asserts v'.voter := by
    rw [SigVotes.Asserts, SigVotes.Asserts, hirq]
  constructor
  · intro h hstale
    have hstart := (h v' bus'.sigvotes .start).vote.mp (hvote.mpr hstale)
    rw [hclear] at hstart
    exact absurd hstart (by decide)
  · intro hfree w votes hrun
    have hnone : ¬((0 : BitVec 8) &&& 0x7F ≠ 0) := fun hne => hne rfl
    have hstart : Synced bus'.sigvotes i { via := v' } := by
      refine ⟨hvoter, hlive, ?_, ?_⟩
      · show v'.ifr.getLsbD 7 = true ↔ v'.ifr &&& 0x7F ≠ 0
        rw [hclear]
        exact iff_of_false (by decide) hnone
      · show bus'.sigvotes.irq.getLsbD i = true ↔ v'.ifr &&& 0x7F ≠ 0
        rw [hclear, ← asserts_iff hvoter, hvote]
        exact iff_of_false hfree hnone
    have hreached : Synced votes i { via := w } :=
      hrun.keeps (P := fun w votes => Synced votes i { via := w }) (fun _ _ op h => h.op op)
        (fun _ _ _ hkeeps h => h.other hkeeps) hstart
    exact hreached.inStep

end Via

/-! ## The ACIA -/

section Acia
variable {τ : Type}

/-- The calls of `emu_bus_sig_vote` in an operation. -/
def AciaOp.calls (transport : AciaTransInterface τ) (a : Acia τ) : AciaOp → List SigVote
  | .tick => (aciaTick transport a).2
  | .read reg => (aciaRead a reg).2.2
  | .write _ _ => []

/-- The ACIA's operations on the bus. -/
def AciaRunOnBus (transport : AciaTransInterface τ) : Acia τ → SigVotes → Acia τ → SigVotes → Prop :=
  DeviceRun (aciaStep transport) (AciaOp.calls transport) Acia.voter

/-- Bit 7 of the status register. -/
def Acia.irqBit (a : Acia τ) : Bool := a.statReg.getLsbD 7

/-- The tick that completes a byte, into an empty receive register and with receiver interrupts
enabled. -/
def AciaOp.Completes (a : Acia τ) (op : AciaOp) : Prop :=
  op = .tick ∧ a.rxTicks = 1 ∧ a.rdrf = false ∧ a.cmdReg &&& ACIA_CMD_IRD_MASK = 0

/-- The status bit is the vote; a status read returns it and leaves both clear; and either is set by
a byte that completes, and by nothing else. -/
structure AciaInStep (transport : AciaTransInterface τ) (a : Acia τ) (votes : SigVotes) : Prop where
  vote : votes.Asserts a.voter ↔ a.irqBit = true
  returns : (aciaRead a ACIA_RS_STATUS).1.getLsbD 7 = a.irqBit
  clears : (aciaRead a ACIA_RS_STATUS).2.1.irqBit = false ∧
    ¬(votes.cast (aciaRead a ACIA_RS_STATUS).2.2).Asserts a.voter
  sets : a.irqBit = false →
    ∀ op : AciaOp, (aciaStep transport a op).irqBit = true ↔ op.Completes a
  asserts : ¬votes.Asserts a.voter →
    ∀ op : AciaOp, (votes.cast (op.calls transport a)).Asserts a.voter ↔ op.Completes a

variable (transport : AciaTransInterface τ) (a : Acia τ)

/-- What an operation does to the status bit, and its vote. -/
inductive LineCase (a : Acia τ) (op : AciaOp) : Acia τ → List SigVote → Prop where
  | completes {a' : Acia τ} (h : op.Completes a) (hvalid : a.voter ≠ BUS_SIGNAL_INVALID_VOTER)
      (hbit : a'.irqBit = true) (hvoter : a'.voter = a.voter) : LineCase a op a' (a.voteIrq true)
  | status {a' : Acia τ} (h : op = .read ACIA_RS_STATUS) (hbit : a'.irqBit = false)
      (hvoter : a'.voter = a.voter) : LineCase a op a' (a.voteIrq false)
  | keeps {a' : Acia τ} (h : op.Completes a → a.voter = BUS_SIGNAL_INVALID_VOTER)
      (hother : op ≠ .read ACIA_RS_STATUS) (hbit : a'.irqBit = a.irqBit)
      (hvoter : a'.voter = a.voter) : LineCase a op a' []

theorem status_irq : ∀ x : BitVec 8,
    ((x ||| ACIA_STATUS_RDRF) ||| ACIA_STATUS_IRQ).getLsbD 7 = true ∧
    (x ||| ACIA_STATUS_RDRF).getLsbD 7 = x.getLsbD 7 ∧
    (x ||| ACIA_STATUS_OVER).getLsbD 7 = x.getLsbD 7 ∧
    (x &&& ~~~aciaRxReadClearBits).getLsbD 7 = x.getLsbD 7 ∧
    (x &&& ~~~ACIA_STATUS_IRQ).getLsbD 7 = false ∧
    (x &&& ~~~ACIA_STATUS_SW_RESET_MASK).getLsbD 7 = x.getLsbD 7 := by
  decide

theorem lineCase_tickRx :
    LineCase a .tick (aciaTickRx transport a).1 (aciaTickRx transport a).2 := by
  obtain ⟨hset, hrdrf, hover, -⟩ := status_irq a.statReg
  have hread : AciaOp.tick ≠ .read ACIA_RS_STATUS := AciaOp.noConfusion
  unfold aciaTickRx
  dsimp only
  split
  · split
    · split
      · split
        · rename_i hempty henabled
          have hfree := (rdrf_eq_false a).mpr hempty
          exact .completes ⟨rfl, by omega, hfree, henabled.2⟩ henabled.1 hset rfl
        · rename_i hno
          refine .keeps (fun h => ?_) hread hrdrf rfl
          exact Decidable.byContradiction fun hvalid => hno ⟨hvalid, h.2.2.2⟩
      · rename_i hfull
        exact .keeps (fun h => absurd ((rdrf_eq_false a).mp h.2.2.1) hfull) hread hover rfl
    · rename_i hmore
      exact .keeps (fun h => absurd h.2.1 (by omega)) hread rfl rfl
  · split <;> exact .keeps (fun h => absurd h.2.1 (by omega)) hread rfl rfl

theorem LineCase.frame {a a' a'' : Acia τ} {op : AciaOp} {calls : List SigVote}
    (h : LineCase a op a' calls) (hstat : a''.statReg = a'.statReg) (hvoter : a''.voter = a'.voter) :
    LineCase a op a'' calls := by
  have hbit : a''.irqBit = a'.irqBit := by rw [Acia.irqBit, Acia.irqBit, hstat]
  cases h with
  | completes h hvalid hb hv => exact .completes h hvalid (hbit.trans hb) (hvoter.trans hv)
  | status h hb hv => exact .status h (hbit.trans hb) (hvoter.trans hv)
  | keeps h hother hb hv => exact .keeps h hother (hbit.trans hb) (hvoter.trans hv)

theorem lineCase (op : AciaOp) : LineCase a op (aciaStep transport a op) (op.calls transport a) := by
  obtain ⟨-, -, -, hdata, hstatus, hreset⟩ := status_irq a.statReg
  cases op with
  | tick =>
    have hrx := lineCase_tickRx transport a
    show LineCase a .tick (aciaTick transport a).1 (aciaTick transport a).2
    unfold aciaTick
    dsimp only
    split
    · split <;> exact hrx.frame rfl rfl
    · exact hrx
  | read reg =>
    have hno : ¬AciaOp.Completes a (.read reg) := fun h => AciaOp.noConfusion h.1
    have hkeeps : ∀ a' : Acia τ, reg ≠ ACIA_RS_STATUS → a'.irqBit = a.irqBit → a'.voter = a.voter →
        LineCase a (.read reg) a' [] := fun a' hreg hbit hvoter =>
      .keeps (fun h => absurd h hno) (fun heq => hreg (AciaOp.read.inj heq)) hbit hvoter
    show LineCase a (.read reg) (aciaRead a reg).2.1 (aciaRead a reg).2.2
    unfold aciaRead
    split
    · rename_i hreg
      have hother : reg ≠ ACIA_RS_STATUS := by rw [hreg]; decide
      split
      · exact hkeeps _ hother hdata rfl
      · exact hkeeps _ hother rfl rfl
    · split
      · rename_i hreg
        exact .status (by rw [hreg]) hstatus rfl
      · rename_i hother
        split
        · exact hkeeps _ hother rfl rfl
        · split <;> exact hkeeps _ hother rfl rfl
  | write reg val =>
    have hno : ¬AciaOp.Completes a (.write reg val) := fun h => AciaOp.noConfusion h.1
    have hkeeps : ∀ a' : Acia τ, a'.irqBit = a.irqBit → a'.voter = a.voter →
        LineCase a (.write reg val) a' [] := fun a' hbit hvoter =>
      .keeps (fun h => absurd h hno) AciaOp.noConfusion hbit hvoter
    show LineCase a (.write reg val) (aciaWrite a reg val) []
    unfold aciaWrite
    split
    · split
      · split <;> exact hkeeps _ rfl rfl
      · exact hkeeps _ rfl rfl
    · split
      · exact hkeeps _ hreset rfl
      · split
        · exact hkeeps _ rfl rfl
        · split <;> exact hkeeps _ rfl rfl

/-- A registered ACIA whose vote is its status bit. -/
structure AciaSynced (i : Fin 32) (a : Acia τ) (votes : SigVotes) : Prop where
  voter : a.voter = voterHandle i
  live : votes.allocated.getLsbD i = true
  vote : votes.irq.getLsbD i = a.irqBit

theorem irq_vote {votes : SigVotes} {i : Fin 32} (hlive : votes.allocated.getLsbD i = true)
    (voted : Bool) :
    (votes.cast [{ voter := voterHandle i, signal := .irq, voted }]).irq.getLsbD i = voted := by
  show ((emuBusSigVote votes (voterHandle i) .irq voted).mask .irq).getLsbD i = voted
  rw [getLsbD_mask_vote, if_pos ⟨hlive, rfl, rfl⟩]

variable {a} {i : Fin 32} {votes : SigVotes}

/-- The calls of an ACIA with the voter `i`. -/
theorem voteIrq_eq (hvoter : a.voter = voterHandle i) (voted : Bool) :
    a.voteIrq voted = [{ voter := voterHandle i, signal := .irq, voted }] := by
  rw [Acia.voteIrq, hvoter, if_pos (voterHandle_ne_invalid i)]

theorem AciaSynced.step (h : AciaSynced i a votes) (op : AciaOp) :
    AciaSynced i (aciaStep transport a op) (votes.cast (op.calls transport a)) := by
  have hcase := lineCase transport a op
  have hlive : (votes.cast (op.calls transport a)).allocated.getLsbD i = true := by
    rw [SigVotes.cast_allocated]
    exact h.live
  generalize aciaStep transport a op = a' at hcase ⊢
  generalize op.calls transport a = calls at hcase hlive ⊢
  cases hcase with
  | completes _ _ hbit hvoter =>
    refine ⟨hvoter.trans h.voter, hlive, ?_⟩
    rw [voteIrq_eq h.voter, irq_vote h.live, hbit]
  | status _ hbit hvoter =>
    refine ⟨hvoter.trans h.voter, hlive, ?_⟩
    rw [voteIrq_eq h.voter, irq_vote h.live, hbit]
  | keeps _ _ hbit hvoter => exact ⟨hvoter.trans h.voter, hlive, h.vote.trans hbit.symm⟩

theorem AciaSynced.other {votes' : SigVotes} (h : AciaSynced i a votes)
    (hkeeps : votes.KeepsVoter votes' a.voter) : AciaSynced i a votes' := by
  obtain ⟨halloc, hirq⟩ := KeepsVoter.bits hkeeps h.voter
  exact ⟨h.voter, halloc.trans h.live, hirq.trans h.vote⟩

theorem AciaSynced.vote_iff (h : AciaSynced i a votes) : votes.Asserts a.voter ↔ a.irqBit = true := by
  rw [asserts_iff h.voter, h.vote]

/-- An operation sets a status bit that is clear when it completes a byte. -/
theorem sets_iff (hvalid : a.voter ≠ BUS_SIGNAL_INVALID_VOTER) (hclear : a.irqBit = false)
    (op : AciaOp) : (aciaStep transport a op).irqBit = true ↔ op.Completes a := by
  have hcase := lineCase transport a op
  generalize aciaStep transport a op = a' at hcase ⊢
  generalize op.calls transport a = calls at hcase
  cases hcase with
  | completes h _ hbit => exact iff_of_true hbit h
  | status h hbit =>
    rw [hbit, h]
    exact iff_of_false Bool.false_ne_true fun hcompletes => AciaOp.noConfusion hcompletes.1
  | keeps h _ hbit =>
    rw [hbit, hclear]
    exact iff_of_false Bool.false_ne_true fun hcompletes => hvalid (h hcompletes)

theorem AciaSynced.inStep (h : AciaSynced i a votes) : AciaInStep transport a votes := by
  have hvalid : a.voter ≠ BUS_SIGNAL_INVALID_VOTER := by
    rw [h.voter]
    exact voterHandle_ne_invalid i
  have hstep : ∀ op : AciaOp, (votes.cast (op.calls transport a)).Asserts a.voter ↔
      (aciaStep transport a op).irqBit = true := by
    intro op
    have hnext := h.step transport op
    rw [asserts_iff h.voter, hnext.vote]
  have hread : (aciaRead a ACIA_RS_STATUS).2.1.irqBit = false := (status_irq a.statReg).2.2.2.2.1
  refine ⟨h.vote_iff, rfl, ⟨hread, ?_⟩, sets_iff transport hvalid, ?_⟩
  · intro hasserts
    have hset : (aciaRead a ACIA_RS_STATUS).2.1.irqBit = true :=
      (hstep (.read ACIA_RS_STATUS)).mp hasserts
    rw [hread] at hset
    exact Bool.noConfusion hset
  · intro hquiet op
    rw [hstep]
    apply sets_iff transport hvalid
    rw [← Bool.not_eq_true, ← h.vote_iff]
    exact hquiet

/-! ### Registration -/

/-- Before it is registered the ACIA has no voter, and sets no status bit. -/
theorem irqBit_unregistered (t : τ) (ops : List AciaOp) :
    (ops.foldl (aciaStep transport) (aciaInit t)).irqBit = false := by
  have hinit : ACIA_STATUS_TDRE.getLsbD 7 = false := by decide
  have hboth : (ops.foldl (aciaStep transport) (aciaInit t)).irqBit = false ∧
      (ops.foldl (aciaStep transport) (aciaInit t)).voter = BUS_SIGNAL_INVALID_VOTER := by
    refine List.foldlRecOn (motive := fun a : Acia τ => a.irqBit = false ∧
      a.voter = BUS_SIGNAL_INVALID_VOTER) ops _ ⟨hinit, rfl⟩ ?_
    rintro a ⟨hbit, hvoter⟩ op -
    have hcase := lineCase transport a op
    generalize aciaStep transport a op = a' at hcase ⊢
    generalize op.calls transport a = calls at hcase
    cases hcase with
    | completes _ hvalid => exact absurd hvoter hvalid
    | status _ hbit' hvoter' => exact ⟨hbit', hvoter'.trans hvoter⟩
    | keeps _ _ hbit' hvoter' => exact ⟨hbit'.trans hbit, hvoter'.trans hvoter⟩
  exact hboth.1

variable {transport} {ω : Type} {bus bus' : Bus ω} {a' : Acia τ}

/-- An ACIA registered for interrupts has a voter, and its status is as before. -/
theorem aciaRegister_voter {decoder : Option (BusDecodeParams ω)} {handlers : BusHandlers ω}
    {base : BitVec 16} (h : aciaRegister a bus decoder handlers base true = (true, a', bus')) :
    a'.statReg = a.statReg ∧ bus'.sigvotes.irq = bus.sigvotes.irq ∧ ∃ i : Fin 32,
      a'.voter = voterHandle i ∧ bus'.sigvotes.allocated.getLsbD i = true := by
  have hlive : ∀ i : Fin 32, (bus.sigvotes.allocated ||| voterHandle i).getLsbD i = true := by
    intro i
    rw [BitVec.getLsbD_or, getLsbD_voterHandle, decide_eq_true rfl, Bool.or_true]
  have hvalid : ∀ i : Fin 32, (voterHandle i == BUS_SIGNAL_INVALID_VOTER) = false := fun i =>
    beq_false_of_ne (voterHandle_ne_invalid i)
  unfold aciaRegister emuBusRegister at h
  rcases emuBusRegisterSigVoter_cases bus.sigvotes with hnone | ⟨i, -, hsome⟩
  · -- without a voter it fails, decoder or not
    cases decoder with
    | none =>
      simp [hnone] at h
      split at h <;> exact absurd (congrArg Prod.fst h) Bool.false_ne_true
    | some decoder => cases hdec : busValidateParams decoder <;> simp [hdec, hnone] at h
  · cases decoder with
    | none =>
      simp [hsome, hvalid] at h
      obtain ⟨rfl, rfl⟩ := h
      exact ⟨rfl, rfl, i, rfl, hlive i⟩
    | some decoder =>
      cases hdec : busValidateParams decoder with
      | false => simp [hdec] at h
      | true =>
        simp [hdec, hsome, hvalid] at h
        obtain ⟨rfl, rfl⟩ := h
        exact ⟨rfl, rfl, i, rfl, hlive i⟩

/-- After any operations and a registration for interrupts: the status bit and the vote agree in
every state, exactly if the voter came without a vote. -/
theorem acia_in_step_iff {decoder : Option (BusDecodeParams ω)} {handlers : BusHandlers ω}
    {base : BitVec 16} {t : τ} {before : List AciaOp}
    (hregister : aciaRegister (before.foldl (aciaStep transport) (aciaInit t)) bus decoder handlers
      base true = (true, a', bus')) :
    (∀ b votes, AciaRunOnBus transport a' bus'.sigvotes b votes → AciaInStep transport b votes) ↔
      ¬bus.sigvotes.Asserts a'.voter := by
  obtain ⟨hstat, hirq, i, hvoter, hlive⟩ := aciaRegister_voter hregister
  have hclear : a'.irqBit = false := by
    rw [Acia.irqBit, hstat]
    exact irqBit_unregistered transport t before
  have hvote : bus'.sigvotes.Asserts a'.voter ↔ bus.sigvotes.Asserts a'.voter := by
    rw [SigVotes.Asserts, SigVotes.Asserts, hirq]
  constructor
  · intro h hstale
    have hstart := (h a' bus'.sigvotes .start).vote.mp (hvote.mpr hstale)
    rw [hclear] at hstart
    exact Bool.noConfusion hstart
  · intro hfree b votes hrun
    have hstart : AciaSynced i a' bus'.sigvotes := by
      refine ⟨hvoter, hlive, ?_⟩
      rw [hclear, ← Bool.not_eq_true, ← asserts_iff hvoter, hvote]
      exact hfree
    have hreached : AciaSynced i b votes :=
      hrun.keeps (fun _ _ op h => h.step transport op) (fun _ _ _ hkeeps h => h.other hkeeps) hstart
    exact hreached.inStep transport

end Acia

/-! ## A voter with a vote from its last owner -/

/-- The votes on a bus with one VIA, whose CA1 asks for an interrupt, after that VIA is cleaned up.
-/
def staleBus : Bus Unit :=
  viaCleanup irqVia { bareBus with
    sigvotes := SigVotes.cast { allocated := 1 } [{ voter := 1, signal := .irq, voted := true }] }

example : staleBus.sigvotes = { irq := 1 } := by decide

/-- On a bus without votes the VIA is in step from its registration on. -/
theorem via_in_step_iff_bareBus :
    viaRegister viaInit bareBus (.range 0x1000 0x100F) noHandlers 0x1000 true = (true, irqVia,
        { bareBus with
          connlist := [{ handle := 1, params := .range 0x1000 0x100F, handlers := noHandlers }]
          sigvotes := { allocated := 1 } }) ∧
      ∀ w votes, ViaRun irqVia { allocated := 1 } w votes → ViaInStep w votes := by
  have hregister : viaRegister viaInit bareBus (.range 0x1000 0x100F) noHandlers 0x1000 true =
      (true, irqVia, { bareBus with
        connlist := [{ handle := 1, params := .range 0x1000 0x100F, handlers := noHandlers }]
        sigvotes := { allocated := 1 } }) := rfl
  exact ⟨hregister, (via_in_step_iff hregister rfl).mpr (by decide)⟩

/-- The next VIA has the vote as soon as it is registered, with IFR clear. -/
theorem via_out_of_step :
    viaRegister viaInit staleBus (.range 0x1000 0x100F) noHandlers 0x1000 true = (true, irqVia,
        { staleBus with
          connlist := [{ handle := 1, params := .range 0x1000 0x100F, handlers := noHandlers }]
          sigvotes := { allocated := 1, irq := 1 } }) ∧
      ¬∀ w votes, ViaRun irqVia { allocated := 1, irq := 1 } w votes → ViaInStep w votes := by
  refine ⟨rfl, fun h => ?_⟩
  have hstale : SigVotes.Asserts { allocated := 1, irq := 1 } irqVia.voter := by decide
  have hstart := (h irqVia _ .start).vote.mp hstale
  exact absurd hstart (by decide)

/-- An ACIA registered for interrupts with no decoder. -/
def irqAcia : Acia Unit := { aciaInit () with voter := 1 }

theorem acia_in_step_iff_bareBus :
    aciaRegister (aciaInit ()) bareBus none noHandlers 0 true =
        (true, irqAcia, { bareBus with sigvotes := { allocated := 1 } }) ∧
      ∀ b votes, AciaRunOnBus silentTransport irqAcia { allocated := 1 } b votes →
        AciaInStep silentTransport b votes := by
  have hregister : aciaRegister ([].foldl (aciaStep silentTransport) (aciaInit ())) bareBus none
      noHandlers 0 true = (true, irqAcia, { bareBus with sigvotes := { allocated := 1 } }) := rfl
  exact ⟨hregister, (acia_in_step_iff hregister).mpr (by decide)⟩

theorem acia_out_of_step :
    aciaRegister (aciaInit ()) staleBus none noHandlers 0 true =
        (true, irqAcia, { staleBus with sigvotes := { allocated := 1, irq := 1 } }) ∧
      ¬∀ b votes, AciaRunOnBus silentTransport irqAcia { allocated := 1, irq := 1 } b votes →
        AciaInStep silentTransport b votes := by
  refine ⟨rfl, fun h => ?_⟩
  have hstale : SigVotes.Asserts { allocated := 1, irq := 1 } irqAcia.voter := by decide
  have hstart := (h irqAcia _ .start).vote.mp hstale
  exact absurd hstart (by decide)

end Cb6502
