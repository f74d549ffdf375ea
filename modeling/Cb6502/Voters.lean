import Cb6502.Via
import Cb6502.Acia

/- The signal lines over whole runs of registrations, votes and clean-ups.

   `Ledger` says what the votes are for: who is registered, and what each registered voter
   has last voted on each signal since its registration.

   What is proved:
     1. `votes_follow_ledger` — in a run in which voters release their votes before they
        unregister, a line is driven exactly when some live voter has voted for it, a new
        voter holds no vote, and no voter moves the votes of another.
     2. `unregistered_voter_drives_irq` — without that, a line stays driven after its only
        voter is gone: the vote masks are not cleared with the allocation. -/
namespace Cb6502

/-! ## Handles -/

/-- The handle of a voter: one bit of the masks. -/
def voterHandle (i : Fin 32) : BitVec 32 := 1#32 <<< i.val

theorem getLsbD_voterHandle (i j : Fin 32) : (voterHandle i).getLsbD j = decide (i = j) := by
  unfold voterHandle
  rw [BitVec.getLsbD_shiftLeft, BitVec.getLsbD_one]
  have hi := i.isLt
  have hj := j.isLt
  by_cases hij : i = j
  · subst hij
    simp
  · have hne : i.val ≠ j.val := fun h => hij (Fin.eq_of_val_eq h)
    simp only [hij, decide_false]
    grind

theorem voterHandle_inj {i j : Fin 32} (h : voterHandle i = voterHandle j) : i = j := by
  have hbit : (voterHandle i).getLsbD j = (voterHandle j).getLsbD j := by rw [h]
  rw [getLsbD_voterHandle, getLsbD_voterHandle] at hbit
  simpa using hbit

theorem voterHandle_ne_invalid (i : Fin 32) : voterHandle i ≠ BUS_SIGNAL_INVALID_VOTER := by
  revert i
  decide

/-- A mask holds the bit of a voter. -/
theorem and_voterHandle_ne_zero (m : BitVec 32) (i : Fin 32) :
    m &&& voterHandle i ≠ 0#32 ↔ m.getLsbD i = true := by
  constructor
  · intro hne
    refine Decidable.byContradiction fun hbit => hne ?_
    apply BitVec.eq_of_getLsbD_eq
    intro j hj
    rw [BitVec.getLsbD_and, getLsbD_voterHandle i ⟨j, hj⟩]
    by_cases hij : i = ⟨j, hj⟩
    · subst hij
      simpa using hbit
    · simp [hij]
  · intro hbit hzero
    have hget := congrArg (fun w => BitVec.getLsbD w i) hzero
    simp only [BitVec.getLsbD_and, getLsbD_voterHandle, hbit, decide_true, Bool.and_self,
      BitVec.getLsbD_zero] at hget
    cases hget

theorem ne_zero_iff_voter (m : BitVec 32) : m ≠ 0#32 ↔ ∃ i : Fin 32, m.getLsbD i = true := by
  constructor
  · intro hne
    refine Decidable.byContradiction fun hnone => hne ?_
    apply BitVec.eq_of_getLsbD_eq
    intro j hj
    have hbit : ¬ m.getLsbD j = true := fun h => hnone ⟨⟨j, hj⟩, h⟩
    simpa using hbit
  · rintro ⟨i, hbit⟩ rfl
    simp at hbit

/-- Registration gives out a free bit and allocates it, or changes nothing. -/
theorem emuBusRegisterSigVoter_cases (v : SigVotes) :
    emuBusRegisterSigVoter v = (BUS_SIGNAL_INVALID_VOTER, v) ∨
    ∃ i : Fin 32, v.allocated.getLsbD i = false ∧
      emuBusRegisterSigVoter v =
        (voterHandle i, { v with allocated := v.allocated ||| voterHandle i }) := by
  unfold emuBusRegisterSigVoter
  cases hfind : (List.range maxSigVoters).find?
      (fun index => v.allocated &&& (1#32 <<< index) == 0) with
  | none => exact Or.inl rfl
  | some index =>
    have hlt : index < 32 := List.mem_range.1 (List.mem_of_find?_eq_some hfind)
    have hfree : (v.allocated &&& (1#32 <<< index) == 0) = true :=
      List.find?_some (p := fun index => v.allocated &&& (1#32 <<< index) == 0) hfind
    refine Or.inr ⟨⟨index, hlt⟩, ?_, rfl⟩
    rw [← Bool.not_eq_true, ← and_voterHandle_ne_zero, Decidable.not_not]
    exact eq_of_beq hfree

/-! ## The ledger -/

/-- Of every live voter, its last votes. -/
abbrev Ledger := Fin 32 → Option (BusSignal → Bool)

def Ledger.set (l : Ledger) (i : Fin 32) (votes : Option (BusSignal → Bool)) : Ledger :=
  fun j => if j = i then votes else l j

/-- The ledger after a vote of `i`, which counts if `i` is registered. -/
def Ledger.vote (l : Ledger) (i : Fin 32) (signal : BusSignal) (voted : Bool) : Ledger :=
  l.set i ((l i).map fun votes s => if s = signal then voted else votes s)

/-- The ledger after a device with the voter `voter` is cleaned up. -/
def Ledger.drop (l : Ledger) (voter : BitVec 32) : Ledger :=
  fun j => if voterHandle j = voter then none else l j

/-- The voter holds no vote on any signal. -/
def Released (v : SigVotes) (voter : BitVec 32) : Prop := ∀ s, v.mask s &&& voter = 0#32

/-- An operation of voter `i` leaves the votes of the others alone. -/
def KeepsOthers (v v' : SigVotes) (i : Fin 32) : Prop :=
  ∀ (j : Fin 32) s, j ≠ i → (v'.mask s).getLsbD j = (v.mask s).getLsbD j

/-- The voter of a device: none, or one that was registered. -/
def IsVoter (voter : BitVec 32) : Prop :=
  voter = BUS_SIGNAL_INVALID_VOTER ∨ ∃ i, voter = voterHandle i

section
variable {ω τ : Type}

/-- Runs of registrations, votes, and clean-ups that meet `P`. The ledger is kept along. -/
inductive VoterRun (P : SigVotes → BitVec 32 → Prop) : Bus ω → Ledger → Prop where
  | init (conns : List (BusConn ω)) (tracers : List (BusTraceCb ω)) (devs : ω) :
      VoterRun P (Bus.init conns tracers devs) fun _ => none
  | register {bus : Bus ω} {l : Ledger} (i : Fin 32) (v : SigVotes) :
      VoterRun P bus l → emuBusRegisterSigVoter bus.sigvotes = (voterHandle i, v) →
      VoterRun P { bus with sigvotes := v } (l.set i (some fun _ => false))
  | registerFailed {bus : Bus ω} {l : Ledger} (v : SigVotes) :
      VoterRun P bus l →
      emuBusRegisterSigVoter bus.sigvotes = (BUS_SIGNAL_INVALID_VOTER, v) →
      VoterRun P { bus with sigvotes := v } l
  | unregister {bus : Bus ω} {l : Ledger} (i : Fin 32) :
      VoterRun P bus l → P bus.sigvotes (voterHandle i) →
      VoterRun P
        { bus with sigvotes := emuBusUnregisterSigVoter bus.sigvotes (voterHandle i) }
        (l.set i none)
  | vote {bus : Bus ω} {l : Ledger} (i : Fin 32) (signal : BusSignal) (voted : Bool) :
      VoterRun P bus l →
      VoterRun P (bus.sigVote { voter := voterHandle i, signal, voted }) (l.vote i signal voted)
  | viaCleanup {bus : Bus ω} {l : Ledger} (via : Via) :
      VoterRun P bus l → IsVoter via.voter →
      (via.voter ≠ BUS_SIGNAL_INVALID_VOTER → P bus.sigvotes via.voter) →
      VoterRun P (viaCleanup via bus) (l.drop via.voter)
  | aciaCleanup {bus : Bus ω} {l : Ledger} (acia : Acia τ) :
      VoterRun P bus l → IsVoter acia.voter →
      (acia.voter ≠ BUS_SIGNAL_INVALID_VOTER → P bus.sigvotes acia.voter) →
      VoterRun P (aciaCleanup acia bus) (l.drop acia.voter)

end

/-- The votes are those of the ledger. -/
structure SigVotes.Follows (v : SigVotes) (l : Ledger) : Prop where
  allocated : ∀ i : Fin 32, v.allocated.getLsbD i = (l i).isSome
  live : ∀ (i : Fin 32) votes, l i = some votes → ∀ s, (v.mask s).getLsbD i = votes s
  gone : ∀ i : Fin 32, l i = none → ∀ s, (v.mask s).getLsbD i = false

theorem SigVotes.Follows.init : SigVotes.Follows {} fun _ => none := by
  refine ⟨?_, ?_, ?_⟩
  · intro i
    simp
  · intro i votes h
    cases h
  · intro i _ s
    cases s <;> simp [SigVotes.mask]

/-- A free voter gets its bit and an empty page. -/
theorem SigVotes.Follows.register {v v' : SigVotes} {l : Ledger} {i : Fin 32}
    (h : v.Follows l) (hreg : emuBusRegisterSigVoter v = (voterHandle i, v')) :
    v'.Follows (l.set i (some fun _ => false)) := by
  obtain hfail | ⟨j, hfree, hok⟩ := emuBusRegisterSigVoter_cases v
  · rw [hfail] at hreg
    exact absurd (Prod.mk.inj hreg).1.symm (voterHandle_ne_invalid i)
  · rw [hok] at hreg
    obtain ⟨hhandle, rfl⟩ := Prod.mk.inj hreg
    obtain rfl := voterHandle_inj hhandle
    have hgone : l j = none := by
      rw [← Option.not_isSome_iff_eq_none, ← h.allocated, hfree]
      exact Bool.false_ne_true
    refine ⟨?_, ?_, ?_⟩
    · intro k
      rw [BitVec.getLsbD_or, getLsbD_voterHandle, h.allocated, Ledger.set]
      by_cases hkj : k = j
      · subst hkj
        simp
      · have hjk : j ≠ k := fun heq => hkj heq.symm
        simp [hkj, hjk]
    · intro k votes hk s
      unfold Ledger.set at hk
      split at hk
      · rename_i hkj
        obtain rfl := Option.some.inj hk
        subst hkj
        exact h.gone k hgone s
      · exact h.live k votes hk s
    · intro k hk s
      unfold Ledger.set at hk
      split at hk
      · cases hk
      · exact h.gone k hk s

/-- A voter that holds no vote leaves nothing behind. -/
theorem SigVotes.Follows.unregister {v : SigVotes} {l : Ledger} {i : Fin 32} (h : v.Follows l)
    (hreleased : Released v (voterHandle i)) :
    (emuBusUnregisterSigVoter v (voterHandle i)).Follows (l.set i none) := by
  have hbit : ∀ s, (v.mask s).getLsbD i = false := by
    intro s
    rw [← Bool.not_eq_true, ← and_voterHandle_ne_zero, Decidable.not_not]
    exact hreleased s
  have hmask : ∀ s, (emuBusUnregisterSigVoter v (voterHandle i)).mask s = v.mask s := by
    intro s
    cases s <;> rfl
  refine ⟨?_, ?_, ?_⟩
  · intro k
    have hk := k.isLt
    -- only the bit of the voter is cleared
    rw [emuBusUnregisterSigVoter, BitVec.getLsbD_and, BitVec.getLsbD_not, getLsbD_voterHandle,
      h.allocated, Ledger.set]
    by_cases hki : k = i
    · subst hki
      simp
    · have hik : i ≠ k := fun heq => hki heq.symm
      simp [hki, hik, hk]
  · intro k votes hk s
    unfold Ledger.set at hk
    split at hk
    · cases hk
    · rw [hmask]
      exact h.live k votes hk s
  · intro k hk s
    rw [hmask]
    unfold Ledger.set at hk
    split at hk
    -- the voter itself is gone now, and its bits were clear
    · rename_i hki
      subst hki
      exact hbit s
    · exact h.gone k hk s

/-- What a vote does to the masks. -/
theorem mask_emuBusSigVote (v : SigVotes) (voter : BitVec 32) (signal : BusSignal)
    (voted : Bool) (s : BusSignal) :
    (emuBusSigVote v voter signal voted).mask s =
      if v.allocated &&& voter ≠ 0#32 ∧ s = signal then
        if voted then v.mask s ||| voter else v.mask s &&& ~~~voter
      else v.mask s := by
  unfold emuBusSigVote
  by_cases hfree : v.allocated &&& voter = 0#32
  · have hdead : ¬ (v.allocated &&& voter ≠ 0#32 ∧ s = signal) := fun h => h.1 hfree
    rw [if_pos (show v.allocated &&& voter = 0 from hfree), if_neg hdead]
  · rw [if_neg (show ¬ v.allocated &&& voter = 0 from hfree)]
    have hlive : v.allocated &&& voter ≠ 0#32 := hfree
    cases signal <;> cases s <;>
      simp only [SigVotes.mask, SigVotes.setMask, hlive, ne_eq, not_false_eq_true, true_and,
        reduceCtorEq, false_and, if_true, if_false]
    -- for NMI, the edge flag may be set as well
    all_goals
      split
      all_goals first | rfl | (split <;> rfl)

theorem allocated_emuBusSigVote (v : SigVotes) (voter : BitVec 32) (signal : BusSignal)
    (voted : Bool) : (emuBusSigVote v voter signal voted).allocated = v.allocated := by
  unfold emuBusSigVote
  split
  · rfl
  · cases signal <;> simp only [SigVotes.setMask] <;> split <;> rfl

/-- The bit of voter `k` after a vote of voter `i`. -/
theorem getLsbD_mask_vote (v : SigVotes) (i k : Fin 32) (signal s : BusSignal) (voted : Bool) :
    ((emuBusSigVote v (voterHandle i) signal voted).mask s).getLsbD k =
      if v.allocated.getLsbD i = true ∧ s = signal ∧ k = i then voted
      else (v.mask s).getLsbD k := by
  have hk := k.isLt
  simp only [mask_emuBusSigVote, and_voterHandle_ne_zero]
  by_cases hlive : v.allocated.getLsbD i = true ∧ s = signal
  · have hcond : (v.allocated.getLsbD i = true ∧ s = signal ∧ k = i) ↔ k = i :=
      ⟨fun h => h.2.2, fun h => ⟨hlive.1, hlive.2, h⟩⟩
    simp only [if_pos hlive, hcond]
    by_cases hki : k = i
    · subst hki
      cases voted <;> simp only [BitVec.getLsbD_or, BitVec.getLsbD_and, BitVec.getLsbD_not,
        getLsbD_voterHandle, hk, decide_true, Bool.not_true, Bool.and_false, Bool.or_true,
        if_true, if_false, Bool.false_eq_true]
    · have hik : i ≠ k := fun heq => hki heq.symm
      cases voted <;> simp only [BitVec.getLsbD_or, BitVec.getLsbD_and, BitVec.getLsbD_not,
        getLsbD_voterHandle, hki, hik, hk, decide_true, decide_false, Bool.not_false,
        Bool.and_true, Bool.or_false, if_true, if_false, Bool.false_eq_true]
  · have hcond : ¬ (v.allocated.getLsbD i = true ∧ s = signal ∧ k = i) := fun h =>
      hlive ⟨h.1, h.2.1⟩
    rw [if_neg hlive, if_neg hcond]

theorem SigVotes.Follows.vote {v : SigVotes} {l : Ledger} (h : v.Follows l) (i : Fin 32)
    (signal : BusSignal) (voted : Bool) :
    (emuBusSigVote v (voterHandle i) signal voted).Follows (l.vote i signal voted) := by
  have hother : ∀ k, k ≠ i → l.vote i signal voted k = l k := by
    intro k hki
    simp [Ledger.vote, Ledger.set, hki]
  have hself : l.vote i signal voted i =
      (l i).map fun votes s => if s = signal then voted else votes s := by
    simp [Ledger.vote, Ledger.set]
  refine ⟨?_, ?_, ?_⟩
  · intro k
    rw [allocated_emuBusSigVote, h.allocated]
    by_cases hki : k = i
    · subst hki
      rw [hself, Option.isSome_map]
    · rw [hother k hki]
  · intro k votes hk s
    rw [getLsbD_mask_vote, h.allocated]
    by_cases hki : k = i
    · subst hki
      rw [hself] at hk
      obtain ⟨votes₀, hvotes, rfl⟩ := Option.map_eq_some_iff.1 hk
      rw [hvotes, h.live k votes₀ hvotes]
      by_cases hs : s = signal <;> simp [hs]
    · rw [hother k hki] at hk
      rw [if_neg (by rintro ⟨_, _, heq⟩; exact hki heq)]
      exact h.live k votes hk s
  · intro k hk s
    rw [getLsbD_mask_vote, h.allocated]
    by_cases hki : k = i
    · subst hki
      rw [hself] at hk
      have hnone := Option.map_eq_none_iff.1 hk
      rw [hnone, if_neg (by rintro ⟨hsome, _⟩; cases hsome)]
      exact h.gone k hnone s
    · rw [hother k hki] at hk
      rw [if_neg (by rintro ⟨_, _, heq⟩; exact hki heq)]
      exact h.gone k hk s

/-- The clean-up of a device unregisters its voter, if it has one. -/
theorem SigVotes.Follows.cleanup {v : SigVotes} {l : Ledger} {voter : BitVec 32}
    (h : v.Follows l) (hvoter : IsVoter voter)
    (hreleased : voter ≠ BUS_SIGNAL_INVALID_VOTER → Released v voter) :
    (if voter ≠ BUS_SIGNAL_INVALID_VOTER then emuBusUnregisterSigVoter v voter else v).Follows
      (l.drop voter) := by
  rcases hvoter with rfl | ⟨i, rfl⟩
  · have hdrop : l.drop BUS_SIGNAL_INVALID_VOTER = l := by
      funext j
      exact if_neg (voterHandle_ne_invalid j)
    rw [hdrop]
    exact h
  · have hne := voterHandle_ne_invalid i
    have hdrop : l.drop (voterHandle i) = l.set i none := by
      funext j
      have hiff : voterHandle j = voterHandle i ↔ j = i :=
        ⟨voterHandle_inj, fun heq => by rw [heq]⟩
      simp only [Ledger.drop, Ledger.set, hiff]
    rw [hdrop, if_pos hne]
    exact h.unregister (hreleased hne)

section
variable {ω τ : Type}

@[simp] theorem sigvotes_emuBusUnregister (bus : Bus ω) (handle : Nat) :
    (emuBusUnregister bus handle).sigvotes = bus.sigvotes := rfl

theorem sigvotes_viaCleanup (via : Via) (bus : Bus ω) :
    (viaCleanup via bus).sigvotes = if via.voter ≠ BUS_SIGNAL_INVALID_VOTER then
      emuBusUnregisterSigVoter bus.sigvotes via.voter else bus.sigvotes := by
  unfold viaCleanup
  cases via.busHandle <;> by_cases h : via.voter = BUS_SIGNAL_INVALID_VOTER <;> simp [h]

theorem sigvotes_aciaCleanup (acia : Acia τ) (bus : Bus ω) :
    (aciaCleanup acia bus).sigvotes = if acia.voter ≠ BUS_SIGNAL_INVALID_VOTER then
      emuBusUnregisterSigVoter bus.sigvotes acia.voter else bus.sigvotes := by
  unfold aciaCleanup
  cases acia.busHandle <;> by_cases h : acia.voter = BUS_SIGNAL_INVALID_VOTER <;> simp [h]

/-- In a run whose voters release their votes before they go, the votes follow the ledger. -/
theorem VoterRun.follows {bus : Bus ω} {l : Ledger} (h : VoterRun (τ := τ) Released bus l) :
    bus.sigvotes.Follows l := by
  induction h with
  | init conns tracers devs => exact SigVotes.Follows.init
  | register i v _ hreg ih => exact ih.register hreg
  | @registerFailed bus l v _ hreg ih =>
    obtain hfail | ⟨j, _, hok⟩ := emuBusRegisterSigVoter_cases bus.sigvotes
    · rw [hfail] at hreg
      rw [← (Prod.mk.inj hreg).2]
      exact ih
    · rw [hok] at hreg
      exact absurd (Prod.mk.inj hreg).1 (voterHandle_ne_invalid j)
  | unregister i _ hreleased ih => exact ih.unregister hreleased
  | vote i signal voted _ ih => exact ih.vote i signal voted
  | viaCleanup via _ hvoter hreleased ih =>
    rw [sigvotes_viaCleanup]
    exact ih.cleanup hvoter hreleased
  | aciaCleanup acia _ hvoter hreleased ih =>
    rw [sigvotes_aciaCleanup]
    exact ih.cleanup hvoter hreleased

/-- In a run whose voters release their votes before they unregister or are cleaned up, a line
    is driven exactly when some live voter's last vote on it was true; no operation of a voter
    changes the vote of another, and a new voter holds no vote. -/
theorem votes_follow_ledger {bus : Bus ω} {l : Ledger}
    (h : VoterRun (τ := τ) Released bus l) :
    (∀ s, bus.sigvotes.mask s ≠ 0#32 ↔ ∃ i votes, l i = some votes ∧ votes s = true) ∧
    (∀ i signal voted, KeepsOthers bus.sigvotes
      (emuBusSigVote bus.sigvotes (voterHandle i) signal voted) i) ∧
    (∀ i, KeepsOthers bus.sigvotes
      (emuBusUnregisterSigVoter bus.sigvotes (voterHandle i)) i) ∧
    (∀ i v, emuBusRegisterSigVoter bus.sigvotes = (voterHandle i, v) →
      KeepsOthers bus.sigvotes v i ∧ Released v (voterHandle i)) := by
  have hfollows := h.follows
  refine ⟨?_, ?_, ?_, ?_⟩
  · intro s
    -- a bit that is set is the vote of a live voter
    rw [ne_zero_iff_voter]
    constructor
    · rintro ⟨i, hbit⟩
      cases hl : l i with
      | none =>
        rw [hfollows.gone i hl s] at hbit
        cases hbit
      | some votes =>
        rw [hfollows.live i votes hl s] at hbit
        exact ⟨i, votes, hl, hbit⟩
    · rintro ⟨i, votes, hl, hvote⟩
      exact ⟨i, by rw [hfollows.live i votes hl s]; exact hvote⟩
  · intro i signal voted j s hji
    rw [getLsbD_mask_vote, if_neg fun hcond => hji hcond.2.2]
  · intro i j s _
    cases s <;> rfl
  · intro i v hreg
    have hnew := hfollows.register hreg
    refine ⟨?_, ?_⟩
    -- a handle of a voter is not what a failed registration returns
    · obtain hfail | ⟨k, _, hok⟩ := emuBusRegisterSigVoter_cases bus.sigvotes
      · rw [hfail] at hreg
        exact absurd (Prod.mk.inj hreg).1.symm (voterHandle_ne_invalid i)
      · rw [hok] at hreg
        rw [← (Prod.mk.inj hreg).2]
        intro j s _
        cases s <;> rfl
    · intro s
      have hempty := hnew.live i (fun _ => false) (if_pos rfl) s
      rw [← Decidable.not_not (p := v.mask s &&& voterHandle i = 0#32)]
      intro hheld
      rw [(and_voterHandle_ne_zero _ i).1 hheld] at hempty
      cases hempty

end

/-- One voter that asserts IRQ. -/
def oneVoter : Ledger := Ledger.vote (Ledger.set (fun _ => none) 0 (some fun _ => false)) 0 .irq true

/-- The bus of `oneVoter`. -/
def oneVoterBus : Bus Unit :=
  { (Bus.init [] [] () : Bus Unit) with sigvotes := { allocated := 1, irq := 1 } }

theorem voterRun_oneVoter (P : SigVotes → BitVec 32 → Prop) :
    VoterRun (τ := Unit) P oneVoterBus oneVoter := by
  have hinit : VoterRun (τ := Unit) P (Bus.init [] [] ()) fun _ => none := .init [] [] ()
  exact (hinit.register 0 { allocated := 1 } rfl).vote 0 .irq true

/-- The voter of `oneVoter` withdraws and is unregistered; the next one gets its handle, and asserts RDY. -/
def nextVoter : Ledger :=
  Ledger.vote (Ledger.set (Ledger.set (oneVoter.vote 0 .irq false) 0 none) 0 (some fun _ => false)) 0 .rdy true

/-- The bus of `nextVoter`. -/
def nextVoterBus : Bus Unit :=
  { (Bus.init [] [] () : Bus Unit) with sigvotes := { allocated := 1, rdy := 1 } }

theorem voterRun_nextVoter : VoterRun (τ := Unit) Released nextVoterBus nextVoter := by
  have hwithdrawn := (voterRun_oneVoter Released).vote 0 .irq false
  have hreleased : Released (oneVoterBus.sigVote ⟨voterHandle 0, .irq, false⟩).sigvotes (voterHandle 0) := by
    intro s
    cases s <;> decide
  have hgone := hwithdrawn.unregister 0 hreleased
  exact (hgone.register 0 { allocated := 1 } rfl).vote 0 .rdy true

theorem votes_follow_ledger_of_next_voter :
    nextVoterBus.sigvotes.mask .rdy ≠ 0#32 ∧ ¬nextVoterBus.sigvotes.mask .irq ≠ 0#32 := by
  have hledger := (votes_follow_ledger voterRun_nextVoter).1
  refine ⟨(hledger .rdy).2 ⟨0, _, rfl, rfl⟩, fun hdriven => ?_⟩
  obtain ⟨i, votes, hlive, hvote⟩ := (hledger .irq).1 hdriven
  by_cases hi : i = 0
  · subst hi
    obtain rfl := Option.some.inj hlive
    exact Bool.noConfusion hvote
  · simp [nextVoter, oneVoter, Ledger.vote, Ledger.set, hi] at hlive

/-- A VIA is cleaned up while it asserts IRQ. The line stays driven with no voter left, and
    the next voter to register drives it without having voted. -/
theorem unregistered_voter_drives_irq :
    ∃ (bus : Bus Unit) (l : Ledger), VoterRun (τ := Unit) (fun _ _ => True) bus l ∧
      bus.sigvotes.irq ≠ 0#32 ∧ (∀ i, l i = none) ∧
      emuBusRegisterSigVoter bus.sigvotes =
        (voterHandle 0, { allocated := 1, irq := voterHandle 0 }) := by
  let via : Via := { viaInit with voter := voterHandle 0, ifr := 0x82, ier := 0x02 }
  refine ⟨_, _, (voterRun_oneVoter fun _ _ => True).viaCleanup via (Or.inr ⟨0, rfl⟩)
    (fun _ => trivial), by decide, by decide, by decide⟩

end Cb6502
