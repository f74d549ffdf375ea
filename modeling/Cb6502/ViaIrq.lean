import Cb6502.Quiet
import Cb6502.Voters

/- The interrupt request of a VIA. Every operation changes IFR by `via_set_ifr` and
   `via_clear_ifr` only (`ViaOp.irqSteps`), and these two keep bit 7 and the vote in step with
   the seven flags (`IrqSteps.synced`). IER is stored and read back; nothing else consults
   it, so the vote does not depend on it. -/
namespace Cb6502

/-! ## Operations -/

/-- An operation on a VIA: a register access, a port or control pin driven from outside, or
an edge of the clock. -/
inductive ViaOp where
  | write (reg val : BitVec 8)
  | read (reg : BitVec 8)
  | dataPort (porta : Bool) (mask data : BitVec 8)
  | ctrl (pin : ViaCtrlPin) (val : Bool)
  | clock (edge : ClockEdge)
  deriving DecidableEq

def ViaOp.step (op : ViaOp) (v : Via) : ViaStep :=
  match op with
  | .write reg val => viaWrite v reg val
  | .read reg => (viaRead v reg).2
  | .dataPort porta mask data => { via := viaWriteDataPort v porta mask data }
  | .ctrl pin val => viaWriteCtrl v pin val
  | .clock edge => viaClockTick v edge

/-- The votes after a device's calls of `emu_bus_sig_vote`. -/
def SigVotes.cast (votes : SigVotes) (calls : List SigVote) : SigVotes :=
  calls.foldl (fun v c => emuBusSigVote v c.voter c.signal c.voted) votes

/-! ## The parts of an operation -/

/-- A relation between the states before and after that the parts of an operation have. What is
left for each relation is the timer, whose own parts differ. -/
structure ViaRule (R : ViaStep → ViaStep → Prop) : Prop where
  refl : ∀ s, R s s
  trans : ∀ {s s' s''}, R s s' → R s' s'' → R s s''
  flags : ∀ s f, R s (s.mapFlags f)
  set : ∀ s bits, bits &&& 0x7F ≠ 0 → R s (viaSetIfr s bits)
  clear : ∀ s bits, R s (viaClearIfr s bits)
  latch : ∀ s porta ir, R s { s with via := s.via.setPort porta { s.via.port porta with ir } }
  c2 : ∀ s porta state, R s (viaWriteC2State s porta state)

/-- The same for a relation that depends on the timer, whose flags and bit of IFR no other part
touches. -/
structure HandshakeRule (R : ViaStep → ViaStep → Prop) : Prop where
  refl : ∀ s, R s s
  trans : ∀ {s s' s''}, R s s' → R s' s'' → R s s''
  flags : ∀ s f, (∀ x, (f x).t1Armed = x.t1Armed ∧ (f x).t1WritePend = x.t1WritePend) →
    R s (s.mapFlags f)
  set : ∀ s bits, bits &&& 0x7F ≠ 0 → bits.getLsbD 6 = false → R s (viaSetIfr s bits)
  clear : ∀ s bits, R s (viaClearIfr s bits)
  latch : ∀ s porta ir, R s { s with via := s.via.setPort porta { s.via.port porta with ir } }
  c2 : ∀ s porta state, R s (viaWriteC2State s porta state)

theorem ViaRule.handshake {R : ViaStep → ViaStep → Prop} (h : ViaRule R) : HandshakeRule R where
  refl := h.refl
  trans := h.trans
  flags s f _ := h.flags s f
  set s bits hbits _ := h.set s bits hbits
  clear := h.clear
  latch := h.latch
  c2 := h.c2

namespace HandshakeRule
variable {R : ViaStep → ViaStep → Prop} (h : HandshakeRule R)
include h

/-- A part that is there in some states only. -/
theorem ite {s s' : ViaStep} {p : Prop} [Decidable p] (hpart : R s s') :
    R s (if p then s' else s) := by
  split
  · exact hpart
  · exact h.refl s

theorem c1Edge (s : ViaStep) (porta : Bool) : R s (viaHandleC1Edge s porta) := by
  unfold viaHandleC1Edge
  dsimp only
  split
  · -- the latch, the flag, and the end of a handshake
    apply h.trans _ (h.ite (h.c2 _ porta true))
    apply h.trans _ (h.set _ _ (by cases porta <;> decide) (by cases porta <;> decide))
    exact h.ite (h.latch s porta (s.via.port porta).pinIn)
  · exact h.refl s

/-- A level on a C2 line, and the pulse flag that goes with it. -/
theorem pulse (s : ViaStep) (porta state : Bool) {f : ViaFlags → ViaFlags}
    (hf : ∀ x, (f x).t1Armed = x.t1Armed ∧ (f x).t1WritePend = x.t1WritePend) :
    R s ((viaWriteC2State s porta state).mapFlags f) :=
  h.trans (h.c2 s porta state) (h.flags _ f hf)

theorem trigger (s : ViaStep) (porta state : Bool) {f g : ViaFlags → ViaFlags} (p : Prop)
    [Decidable p] (hf : ∀ x, (f x).t1Armed = x.t1Armed ∧ (f x).t1WritePend = x.t1WritePend)
    (hg : ∀ x, (g x).t1Armed = x.t1Armed ∧ (g x).t1WritePend = x.t1WritePend) :
    R s (if p then ((viaWriteC2State s porta state).mapFlags f).mapFlags g
      else (viaWriteC2State s porta state).mapFlags f) := by
  split
  · exact h.trans (h.pulse s porta state hf) (h.flags _ g hg)
  · exact h.pulse s porta state hf

/-- The level that a write of PCR puts on a C2 line. -/
theorem c2Mode (s : ViaStep) (porta : Bool) (p q : Prop) [Decidable p] [Decidable q] :
    R s (if p then viaWriteC2State s porta true
      else if q then viaWriteC2State s porta false else s) := by
  split
  · exact h.c2 s porta true
  · exact h.ite (h.c2 s porta false)

/-- The handshake lines come before the timer's part of an edge. -/
theorem posedge (v : Via) :
    ∃ s, R { via := v } s ∧ viaClockTick v .posedge = viaT1Posedge s := by
  refine ⟨_, ?_, rfl⟩
  dsimp only
  apply h.trans _ (h.ite (h.trigger _ false false _ (by simp) (by simp)))
  apply h.trans _ (h.ite (h.trigger _ true false _ (by simp) (by simp)))
  exact h.trans (h.ite (h.pulse _ true true (by simp))) (h.ite (h.pulse _ false true (by simp)))

theorem negedge (v : Via) :
    ∃ s, R { via := v } s ∧ viaClockTick v .negedge = viaT1Negedge s := by
  refine ⟨_, ?_, rfl⟩
  dsimp only
  split
  · split
    · exact h.flags _ _ (by simp)
    · exact h.pulse _ true true (by simp)
  · exact h.refl _

/-- A clock edge, with what the relation has for the timer. -/
theorem clockTick (hpos : ∀ s, R s (viaT1Posedge s)) (hneg : ∀ s, R s (viaT1Negedge s)) (v : Via)
    (edge : ClockEdge) : R { via := v } (viaClockTick v edge) := by
  cases edge with
  | posedge =>
    obtain ⟨s, hs, htick⟩ := h.posedge v
    rw [htick]
    exact h.trans hs (hpos s)
  | negedge =>
    obtain ⟨s, hs, htick⟩ := h.negedge v
    rw [htick]
    exact h.trans hs (hneg s)

theorem readReg (s : ViaStep) (reg : ViaReg) : R s (viaReadReg s reg).2 := by
  cases reg with
  | dataa =>
    unfold viaReadReg
    dsimp only
    apply h.trans (h.clear s IFR_CA1)
    split
    · split
      · exact h.pulse _ true false (by simp)
      · exact h.c2 _ true false
    · exact h.refl _
  | datab => exact h.clear s _
  | t1cl => exact h.clear s _
  | ddra | ddrb | t1ch | t1ll | t1lh | acr | pcr | ier | ifr | t2cl | t2ch | sr | da2 =>
    exact h.refl s

theorem read (v : Via) (reg : BitVec 8) : R { via := v } (viaRead v reg).2 := by
  unfold viaRead
  split
  · exact h.refl _
  · exact h.readReg _ _

/-- What the switch of `via_write` does, and the event that it asks for. -/
theorem dispatch (hcall : ∀ s event, R s (viaMakeCallbacks s event)) {s : ViaStep}
    {r : ViaStep × Option ViaPortData} : R s r.1 → R s
      (match r with
      | (s, some port) => viaMakeCallbacks s port
      | (s, none) => s) := by
  intro hswitch
  obtain ⟨s', event⟩ := r
  cases event with
  | none => exact hswitch
  | some port => exact h.trans hswitch (hcall s' port)

section Pins
variable (hport : ∀ (s : ViaStep) (porta : Bool) (p : ViaPortState),
  R s { s with via := s.via.setPort porta p })
include hport

/-- For a relation that does not look at the ports. -/
theorem dataPort (v : Via) (porta : Bool) (mask data : BitVec 8) :
    R { via := v } { via := viaWriteDataPort v porta mask data } := by
  unfold viaWriteDataPort
  split
  · exact h.refl _
  · exact hport { via := v } porta _

theorem ctrl (v : Via) (pin : ViaCtrlPin) (val : Bool) : R { via := v } (viaWriteCtrl v pin val) := by
  unfold viaWriteCtrl
  cases pin with
  | ca1 =>
    dsimp only
    split
    · exact h.refl _
    · exact h.trans (hport { via := v } true { v.porta with c1In := val }) (h.c1Edge _ true)
  | ca2 => exact hport { via := v } true { v.porta with c2In := val }
  | cb1 =>
    dsimp only
    split
    · exact h.refl _
    · exact h.trans (hport { via := v } false { v.portb with c1In := val }) (h.c1Edge _ false)
  | cb2 => exact hport { via := v } false { v.portb with c2In := val }

end Pins

end HandshakeRule

/-! ## How IFR changes -/

/-- From `s` to `s'` IFR is only changed by `via_set_ifr` and `via_clear_ifr`, and the votes
are theirs. -/
inductive IrqSteps (s : ViaStep) : ViaStep → Prop where
  | refl : IrqSteps s s
  | frame {s' s'' : ViaStep} (h : IrqSteps s s') (hifr : s''.via.ifr = s'.via.ifr)
      (hvoter : s''.via.voter = s'.via.voter) (hvotes : s''.votes = s'.votes) : IrqSteps s s''
  | set {s' : ViaStep} (h : IrqSteps s s') (bits : BitVec 8) (hbits : bits &&& 0x7F ≠ 0) :
      IrqSteps s (viaSetIfr s' bits)
  | clear {s' : ViaStep} (h : IrqSteps s s') (bits : BitVec 8) : IrqSteps s (viaClearIfr s' bits)

theorem IrqSteps.trans {s s' s'' : ViaStep} (h : IrqSteps s s') (h' : IrqSteps s' s'') :
    IrqSteps s s'' := by
  induction h' with
  | refl => exact h
  | frame _ hifr hvoter hvotes ih => exact ih.frame hifr hvoter hvotes
  | set _ bits hbits ih => exact ih.set bits hbits
  | clear _ bits ih => exact ih.clear bits

/-- An operation that is made in some states only. -/
theorem IrqSteps.ite {s s' : ViaStep} {p : Prop} [Decidable p] (h : IrqSteps s s') :
    IrqSteps s (if p then s' else s) := by
  split
  · exact h
  · exact .refl

section Operations
variable (s : ViaStep)

theorem mapFlags_irqSteps (f : ViaFlags → ViaFlags) : IrqSteps s (s.mapFlags f) :=
  IrqSteps.refl.frame rfl rfl rfl

theorem viaMakeCallbacks_irqSteps (event : ViaPortData) : IrqSteps s (viaMakeCallbacks s event) :=
  IrqSteps.refl.frame rfl rfl rfl

theorem viaWriteC2State_irqSteps (porta state : Bool) :
    IrqSteps s (viaWriteC2State s porta state) := by
  unfold viaWriteC2State
  by_cases hsame : state = (s.via.port porta).c2Out
  · rw [if_pos hsame]
    exact .refl
  · rw [if_neg hsame]
    dsimp only
    split <;> cases porta <;> exact IrqSteps.refl.frame rfl rfl rfl

theorem irqSteps_rule : ViaRule IrqSteps where
  refl _ := .refl
  trans h h' := h.trans h'
  flags s f := mapFlags_irqSteps s f
  set _ bits hbits := IrqSteps.refl.set bits hbits
  clear _ bits := IrqSteps.refl.clear bits
  latch s porta ir := by cases porta <;> exact IrqSteps.refl.frame rfl rfl rfl
  c2 s porta state := viaWriteC2State_irqSteps s porta state

theorem viaT1Posedge_irqSteps : IrqSteps s (viaT1Posedge s) := by
  have hset := (IrqSteps.refl (s := s)).set IFR_T1 (by decide)
  unfold viaT1Posedge
  split
  · split
    · dsimp only
      -- PB7 toggles, its callbacks, and the end of a one-shot
      have hpb7 : ∀ s : ViaStep, IrqSteps s { s with via := { s.via with t1pb7 := !s.via.t1pb7 } } :=
        fun s => IrqSteps.refl.frame rfl rfl rfl
      apply (hset.trans (hpb7 _)).trans
      split
      · split
        · exact viaMakeCallbacks_irqSteps _ _
        · exact (viaMakeCallbacks_irqSteps _ _).trans (mapFlags_irqSteps _ _)
      · split
        · exact .refl
        · exact mapFlags_irqSteps _ _
    · exact .refl
  · exact .refl

theorem viaT1Negedge_irqSteps : IrqSteps s (viaT1Negedge s) := by
  unfold viaT1Negedge
  split
  · split <;> exact IrqSteps.refl.frame rfl rfl rfl
  · exact mapFlags_irqSteps _ _

theorem viaDdrWrite_irqSteps (porta : Bool) (val : BitVec 8) :
    IrqSteps s (viaDdrWrite s porta val).1 := by
  unfold viaDdrWrite
  dsimp only
  split
  · cases porta <;> exact IrqSteps.refl.frame rfl rfl rfl
  · exact .refl

theorem viaWriteReg_irqSteps (reg : ViaReg) (val : BitVec 8) :
    IrqSteps s (viaWriteReg s reg val).1 := by
  cases reg with
  | ddra => exact viaDdrWrite_irqSteps s true val
  | ddrb => exact viaDdrWrite_irqSteps s false val
  | dataa =>
    unfold viaWriteReg
    dsimp only
    refine IrqSteps.trans ?_ (mapFlags_irqSteps _ _).ite
    refine IrqSteps.clear ?_ _
    exact IrqSteps.refl.frame rfl rfl rfl
  | datab =>
    unfold viaWriteReg
    dsimp only
    refine IrqSteps.trans ?_ (mapFlags_irqSteps _ _).ite
    refine IrqSteps.clear ?_ _
    exact IrqSteps.refl.frame rfl rfl rfl
  | t1cl => exact IrqSteps.refl.frame rfl rfl rfl
  | t1ll => exact IrqSteps.refl.frame rfl rfl rfl
  | t1ch =>
    have hload : ∀ t1l t1c, IrqSteps s { s with via := { s.via with t1l, t1c } } :=
      fun _ _ => IrqSteps.refl.frame rfl rfl rfl
    unfold viaWriteReg
    dsimp only
    split <;> exact ((hload _ _).clear IFR_T1).frame rfl rfl rfl
  | t1lh =>
    unfold viaWriteReg
    dsimp only
    refine IrqSteps.clear ?_ _
    exact IrqSteps.refl.frame rfl rfl rfl
  | acr => exact IrqSteps.refl.frame rfl rfl rfl
  | pcr =>
    unfold viaWriteReg
    dsimp only
    refine IrqSteps.trans ?_ (irqSteps_rule.handshake.c2Mode _ false _ _)
    refine IrqSteps.trans ?_ (irqSteps_rule.handshake.c2Mode _ true _ _)
    exact IrqSteps.refl.frame rfl rfl rfl
  | ier => exact IrqSteps.refl.frame rfl rfl rfl
  | ifr => exact IrqSteps.refl.clear _
  | t2cl => exact .refl
  | t2ch => exact .refl
  | sr => exact .refl
  | da2 => exact .refl

end Operations

/-- Every operation of a VIA. -/
theorem setPort_irqSteps (s : ViaStep) (porta : Bool) (p : ViaPortState) :
    IrqSteps s { s with via := s.via.setPort porta p } := by
  cases porta <;> exact IrqSteps.refl.frame rfl rfl rfl

theorem ViaOp.irqSteps (op : ViaOp) (v : Via) : IrqSteps { via := v } (op.step v) := by
  have hrule := irqSteps_rule.handshake
  cases op with
  | write reg val =>
    show IrqSteps _ (viaWrite v reg val)
    unfold viaWrite
    split
    · exact .refl
    · exact hrule.dispatch viaMakeCallbacks_irqSteps (viaWriteReg_irqSteps _ _ val)
  | read reg => exact hrule.read v reg
  | dataPort porta mask data => exact hrule.dataPort setPort_irqSteps v porta mask data
  | ctrl pin val => exact hrule.ctrl setPort_irqSteps v pin val
  | clock edge => exact hrule.clockTick viaT1Posedge_irqSteps viaT1Negedge_irqSteps v edge

/-! ## IFR and the vote -/

theorem SigVotes.cast_append (votes : SigVotes) (calls calls' : List SigVote) :
    votes.cast (calls ++ calls') = (votes.cast calls).cast calls' :=
  List.foldl_append

theorem SigVotes.cast_allocated (votes : SigVotes) (calls : List SigVote) :
    (votes.cast calls).allocated = votes.allocated := by
  induction calls generalizing votes with
  | nil => rfl
  | cons c calls ih =>
    show ((emuBusSigVote votes c.voter c.signal c.voted).cast calls).allocated = _
    rw [ih, allocated_emuBusSigVote]

/-- A VIA in the middle of an operation that began with the votes `votes`: bit 7 of IFR and
the vote of the VIA are both set exactly when some flag is. -/
structure Synced (votes : SigVotes) (i : Fin 32) (s : ViaStep) : Prop where
  voter : s.via.voter = voterHandle i
  live : votes.allocated.getLsbD i = true
  bit7 : s.via.ifr.getLsbD 7 = true ↔ s.via.ifr &&& 0x7F ≠ 0
  vote : (votes.cast s.votes).irq.getLsbD i = true ↔ s.via.ifr &&& 0x7F ≠ 0

/-- The VIA's own vote, when it is what the flags say. -/
theorem synced_voteIrq {votes : SigVotes} {i : Fin 32} {s : ViaStep}
    (hvoter : s.via.voter = voterHandle i) (hlive : votes.allocated.getLsbD i = true)
    (hbit7 : s.via.ifr.getLsbD 7 = true ↔ s.via.ifr &&& 0x7F ≠ 0) {voted : Bool}
    (hvoted : voted = true ↔ s.via.ifr &&& 0x7F ≠ 0) : Synced votes i (s.voteIrq voted) := by
  have hvalid : s.via.voter ≠ BUS_SIGNAL_INVALID_VOTER := by
    rw [hvoter]
    exact voterHandle_ne_invalid i
  have hvote : (votes.cast (s.voteIrq voted).votes).irq.getLsbD i = voted := by
    rw [ViaStep.voteIrq, if_pos hvalid, SigVotes.cast_append]
    show ((emuBusSigVote (votes.cast s.votes) s.via.voter .irq voted).mask .irq).getLsbD i = voted
    rw [hvoter, getLsbD_mask_vote, SigVotes.cast_allocated, if_pos ⟨hlive, rfl, rfl⟩]
  refine ⟨?_, hlive, ?_, ?_⟩
  · rw [ViaStep.voteIrq_via, hvoter]
  · rw [ViaStep.voteIrq_via]
    exact hbit7
  · rw [hvote, ViaStep.voteIrq_via]
    exact hvoted

/-- The flags together with the bit they force. -/
theorem set_flags (ifr bits : BitVec 8) (hbits : bits &&& 0x7F ≠ 0) :
    (ifr ||| (bits ||| 0x80)).getLsbD 7 = true ∧ (ifr ||| (bits ||| 0x80)) &&& 0x7F ≠ 0 := by
  refine ⟨by simp, ?_⟩
  intro hzero
  rw [BitVec.and_or_distrib_right, BitVec.and_or_distrib_right] at hzero
  exact hbits (BitVec.or_eq_zero_iff.mp (BitVec.or_eq_zero_iff.mp hzero).2).1

theorem clear_bit7 (ifr bits : BitVec 8) :
    (ifr &&& ~~~(bits &&& 0x7F)).getLsbD 7 = ifr.getLsbD 7 := by
  simp

/-- A flag that is left was there. -/
theorem clear_flags {ifr bits : BitVec 8} (h : (ifr &&& ~~~(bits &&& 0x7F)) &&& 0x7F ≠ 0) :
    ifr &&& 0x7F ≠ 0 := by
  intro hzero
  apply h
  rw [BitVec.and_assoc, BitVec.and_comm (~~~(bits &&& 0x7F)), ← BitVec.and_assoc, hzero]
  exact BitVec.zero_and

theorem Synced.frame {votes : SigVotes} {i : Fin 32} {s s' : ViaStep} (h : Synced votes i s)
    (hifr : s'.via.ifr = s.via.ifr) (hvoter : s'.via.voter = s.via.voter)
    (hvotes : s'.votes = s.votes) : Synced votes i s' := by
  refine ⟨?_, h.live, ?_, ?_⟩
  · rw [hvoter, h.voter]
  · rw [hifr]
    exact h.bit7
  · rw [hifr, hvotes]
    exact h.vote

theorem Synced.set {votes : SigVotes} {i : Fin 32} {s : ViaStep} (h : Synced votes i s)
    {bits : BitVec 8} (hbits : bits &&& 0x7F ≠ 0) : Synced votes i (viaSetIfr s bits) := by
  have hnonzero : bits ≠ 0 := by
    intro hzero
    rw [hzero] at hbits
    exact hbits rfl
  obtain ⟨hset7, hsetLow⟩ := set_flags s.via.ifr bits hbits
  unfold viaSetIfr
  rw [if_neg hnonzero]
  dsimp only
  split
  · -- bit 7 was clear: the VIA votes
    apply synced_voteIrq
    · exact h.voter
    · exact h.live
    · exact iff_of_true hset7 hsetLow
    · exact iff_of_true rfl hsetLow
  · -- bit 7 was set: so was the vote
    rename_i hbit7
    have hold : s.via.ifr.getLsbD 7 = true := by
      revert hbit7
      generalize s.via.ifr = ifr
      revert ifr
      decide
    exact ⟨h.voter, h.live, iff_of_true hset7 hsetLow, iff_of_true (h.vote.mpr (h.bit7.mp hold)) hsetLow⟩

theorem Synced.clear {votes : SigVotes} {i : Fin 32} {s : ViaStep} (h : Synced votes i s)
    (bits : BitVec 8) : Synced votes i (viaClearIfr s bits) := by
  unfold viaClearIfr
  dsimp only
  split
  · -- no flag is left
    have hnone : ¬(0#8 &&& 0x7F ≠ 0) := fun hne => hne rfl
    have hno7 : ¬(0#8).getLsbD 7 = true := by decide
    split
    · apply synced_voteIrq
      · exact h.voter
      · exact h.live
      · exact iff_of_false hno7 hnone
      · exact iff_of_false Bool.false_ne_true hnone
    · rename_i hzero
      -- nothing was set before either, so there is no vote to release
      have hifr : s.via.ifr = 0 := Decidable.not_not.mp hzero
      have hno : ¬(s.via.ifr &&& 0x7F ≠ 0) := by
        rw [hifr]
        exact hnone
      exact ⟨h.voter, h.live, iff_of_false hno7 hnone,
        iff_of_false (fun hvote => hno (h.vote.mp hvote)) hnone⟩
  · rename_i hleft
    have hold := clear_flags hleft
    refine ⟨h.voter, h.live, ?_, iff_of_true (h.vote.mpr hold) hleft⟩
    rw [clear_bit7]
    -- a flag is left: bit 7 and the vote stand
    exact iff_of_true (h.bit7.mpr hold) hleft

theorem IrqSteps.synced {votes : SigVotes} {i : Fin 32} {s s' : ViaStep} (h : IrqSteps s s')
    (hs : Synced votes i s) : Synced votes i s' := by
  induction h with
  | refl => exact hs
  | frame _ hifr hvoter hvotes ih => exact ih.frame hifr hvoter hvotes
  | set _ bits hbits ih => exact ih.set hbits
  | clear _ bits ih => exact ih.clear bits

/-! ## Runs of a registered VIA -/

/-- What others do on the bus leaves this voter's place and vote alone. -/
def SigVotes.KeepsVoter (votes votes' : SigVotes) (voter : BitVec 32) : Prop :=
  votes'.allocated &&& voter = votes.allocated &&& voter ∧ votes'.irq &&& voter = votes.irq &&& voter

/-- Runs of a VIA registered for interrupts with no flag set, on a bus where no free voter
has a vote, with whatever others do in between. -/
inductive IrqRun (ω : Type) : Via → SigVotes → Prop where
  | register {v v' : Via} {bus bus' : Bus ω} {decoder : BusDecodeParams ω} {handlers : BusHandlers ω}
      {base : BitVec 16} (hregister : viaRegister v bus decoder handlers base true = (true, v', bus'))
      (hflags : v.ifr = 0)
      (hfree : ∀ i : Fin 32, bus.sigvotes.allocated.getLsbD i = false →
        bus.sigvotes.irq.getLsbD i = false) : IrqRun ω v' bus'.sigvotes
  | op {v : Via} {votes : SigVotes} (op : ViaOp) (h : IrqRun ω v votes) :
      IrqRun ω (op.step v).via (votes.cast (op.step v).votes)
  | other {v : Via} {votes : SigVotes} (votes' : SigVotes) (h : IrqRun ω v votes)
      (hkeeps : votes.KeepsVoter votes' v.voter) : IrqRun ω v votes'

section Runs
variable {ω : Type}

/-- A VIA registered for interrupts has a voter, and IFR is as before. -/
theorem viaRegister_voter {v v' : Via} {bus bus' : Bus ω} {decoder : BusDecodeParams ω}
    {handlers : BusHandlers ω} {base : BitVec 16}
    (h : viaRegister v bus decoder handlers base true = (true, v', bus')) :
    v'.ifr = v.ifr ∧ bus'.sigvotes.irq = bus.sigvotes.irq ∧ ∃ i : Fin 32,
      v'.voter = voterHandle i ∧ bus.sigvotes.allocated.getLsbD i = false ∧
        bus'.sigvotes.allocated.getLsbD i = true := by
  unfold viaRegister at h
  split at h
  · exact absurd (congrArg Prod.fst h) Bool.false_ne_true
  · split at h
    · exact absurd (congrArg Prod.fst h) Bool.false_ne_true
    · rename_i handle busReg hreg
      have hvotes : busReg.sigvotes = bus.sigvotes := by
        unfold emuBusRegister at hreg
        split at hreg
        · exact congrArg (fun r => r.2.sigvotes) hreg.symm
        · exact absurd (congrArg Prod.fst hreg) (by simp)
      rw [if_pos rfl, hvotes] at h
      rcases emuBusRegisterSigVoter_cases bus.sigvotes with hnone | ⟨i, hfree, hsome⟩
      · rw [hnone] at h
        dsimp only at h
        rw [if_pos rfl] at h
        exact absurd (congrArg Prod.fst h) Bool.false_ne_true
      · rw [hsome] at h
        dsimp only at h
        rw [if_neg (voterHandle_ne_invalid i)] at h
        obtain ⟨rfl, rfl⟩ := Prod.mk.inj (Prod.mk.inj h).2
        refine ⟨rfl, rfl, i, rfl, hfree, ?_⟩
        show (bus.sigvotes.allocated ||| voterHandle i).getLsbD i = true
        rw [BitVec.getLsbD_or, getLsbD_voterHandle, decide_eq_true rfl, Bool.or_true]

theorem getLsbD_of_and_voterHandle {x y : BitVec 32} {i : Fin 32}
    (h : x &&& voterHandle i = y &&& voterHandle i) : x.getLsbD i = y.getLsbD i := by
  rw [Bool.eq_iff_iff, ← and_voterHandle_ne_zero, ← and_voterHandle_ne_zero, h]

/-- What others do leaves the voter's place and vote. -/
theorem KeepsVoter.bits {votes votes' : SigVotes} {voter : BitVec 32} {i : Fin 32}
    (h : votes.KeepsVoter votes' voter) (hvoter : voter = voterHandle i) :
    votes'.allocated.getLsbD i = votes.allocated.getLsbD i ∧
      votes'.irq.getLsbD i = votes.irq.getLsbD i := by
  obtain ⟨halloc, hirq⟩ := h
  rw [hvoter] at halloc hirq
  exact ⟨getLsbD_of_and_voterHandle halloc, getLsbD_of_and_voterHandle hirq⟩

variable {v : Via} {votes : SigVotes} {i : Fin 32}

theorem Synced.op (h : Synced votes i { via := v }) (op : ViaOp) :
    Synced (votes.cast (op.step v).votes) i { via := (op.step v).via } := by
  have hstep := (op.irqSteps v).synced h
  refine ⟨hstep.voter, ?_, hstep.bit7, hstep.vote⟩
  rw [SigVotes.cast_allocated]
  exact hstep.live

theorem Synced.other {votes' : SigVotes} (h : Synced votes i { via := v })
    (hkeeps : votes.KeepsVoter votes' v.voter) : Synced votes' i { via := v } := by
  obtain ⟨halloc, hirq⟩ := KeepsVoter.bits hkeeps h.voter
  refine ⟨h.voter, ?_, h.bit7, ?_⟩
  · rw [halloc]
    exact h.live
  · show votes'.irq.getLsbD i = true ↔ _
    rw [hirq]
    exact h.vote

/-- Between two operations every run is in step. -/
theorem IrqRun.synced (h : IrqRun ω v votes) :
    ∃ i, Synced votes i { via := v } := by
  induction h with
  | @register v v' bus bus' _ _ _ hregister hflags hfree =>
    obtain ⟨hifr, hirq, i, hvoter, hunused, hlive⟩ := viaRegister_voter hregister
    have hnone : ¬((0 : BitVec 8) &&& 0x7F ≠ 0) := fun hne => hne rfl
    refine ⟨i, hvoter, hlive, ?_, ?_⟩
    · show v'.ifr.getLsbD 7 = true ↔ v'.ifr &&& 0x7F ≠ 0
      rw [hifr, hflags]
      exact iff_of_false (by decide) hnone
    · show bus'.sigvotes.irq.getLsbD i = true ↔ v'.ifr &&& 0x7F ≠ 0
      rw [hifr, hflags, hirq, hfree i hunused]
      exact iff_of_false Bool.false_ne_true hnone
  | op op _ ih =>
    obtain ⟨i, hi⟩ := ih
    exact ⟨i, hi.op op⟩
  | other votes' _ hkeeps ih =>
    obtain ⟨i, hi⟩ := ih
    exact ⟨i, hi.other hkeeps⟩

/-- The VIA requests an interrupt, and bit 7 of IFR reads as 1, exactly while a flag is set,
whatever IER holds. -/
theorem via_irq_follows_ifr {v : Via} {votes : SigVotes} (h : IrqRun ω v votes) :
    (votes.irq &&& v.voter ≠ 0#32 ↔ v.ifr &&& 0x7F ≠ 0) ∧
      ((viaRead v 0x0D).1.getLsbD 7 = true ↔ v.ifr &&& 0x7F ≠ 0) := by
  obtain ⟨i, hi⟩ := h.synced
  have hvoter : v.voter = voterHandle i := hi.voter
  constructor
  · rw [hvoter, and_voterHandle_ne_zero]
    exact hi.vote
  · exact hi.bit7

end Runs

/-- A bus with nothing on it. -/
def bareBus : Bus Unit := Bus.init [] [] ()

/-- A VIA at `$1000`, registered for interrupts. -/
def irqVia : Via := { viaInit with busHandle := some 1, base := 0x1000, voter := 1 }

/-- CA1 set to interrupt on its rising edge, and driven high; IER is 0. -/
theorem irqRun_ca1 : IrqRun Unit (ViaOp.step (.ctrl .ca1 true) { irqVia with pcr := 0x01 }).via
    (SigVotes.cast { allocated := 1 } [{ voter := 1, signal := .irq, voted := true }]) := by
  have hregister : viaRegister viaInit bareBus (.range 0x1000 0x100F) ⟨none, none, none⟩ 0x1000 true =
      (true, irqVia, { bareBus with
        connlist := [{ handle := 1, params := .range 0x1000 0x100F, handlers := ⟨none, none, none⟩ }]
        sigvotes := { allocated := 1 } }) := rfl
  have hregistered : IrqRun Unit irqVia { allocated := 1 } := IrqRun.register hregister rfl (by decide)
  have hpcr : IrqRun Unit { irqVia with pcr := 0x01 } { allocated := 1 } := hregistered.op (.write 0x0C 0x01)
  exact hpcr.op (.ctrl .ca1 true)

theorem via_irq_follows_ifr_of_ca1 :
    (SigVotes.cast { allocated := 1 } [{ voter := 1, signal := .irq, voted := true }]).irq &&& 1 ≠ 0#32 :=
  (via_irq_follows_ifr irqRun_ca1).1.mpr (by decide)

/-- The vote stands though no flag is enabled in IER. -/
theorem via_irq_ignores_ier :
    ¬ ∀ v votes, IrqRun Unit v votes →
      ((votes.irq &&& v.voter ≠ 0#32 ∧ (viaRead v 0x0D).1.getLsbD 7 = true) ↔
        v.ifr &&& v.ier &&& 0x7F ≠ 0) := by
  intro h
  exact absurd ((h _ _ irqRun_ca1).mp ⟨by decide, by decide⟩) (by decide)

end Cb6502
