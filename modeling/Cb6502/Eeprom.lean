import Cb6502.At28c256

/- The states of the EEPROM (io/at28c256/src/at28c256.c): what each operation can do, and what
   holds of every state it can be in.

   What is proved:
     1. `at28c256Write_case`, `tickRound_case` (the outcomes of a write and of a round of the
        loop in `at28c256_tick`, each with its guard).
     2. `At28Reachable.consistent` (the two states, the flags, the timer and the page address
        agree, after any operations). -/
namespace Cb6502

/-! ## A write -/

section PageWrite
variable (s : At28c256) (addr : BitVec 16) (val : BitVec 8)

theorem handlePageWrite_eq : handlePageWrite s addr val =
    { s with
      stateElapsed := 0
      pageMask := (handlePageWrite s addr val).pageMask
      pageBuffer := (handlePageWrite s addr val).pageBuffer } := by
  simp only [handlePageWrite]
  split <;> rfl

@[simp] theorem handlePageWrite_image : (handlePageWrite s addr val).image = s.image := by
  rw [handlePageWrite_eq]

@[simp] theorem handlePageWrite_sdpEnabled :
    (handlePageWrite s addr val).sdpEnabled = s.sdpEnabled := by
  rw [handlePageWrite_eq]

@[simp] theorem handlePageWrite_sdpWritesEnabled :
    (handlePageWrite s addr val).sdpWritesEnabled = s.sdpWritesEnabled := by
  rw [handlePageWrite_eq]

@[simp] theorem handlePageWrite_writeState :
    (handlePageWrite s addr val).writeState = s.writeState := by
  rw [handlePageWrite_eq]

@[simp] theorem handlePageWrite_sdpState : (handlePageWrite s addr val).sdpState = s.sdpState := by
  rw [handlePageWrite_eq]

@[simp] theorem handlePageWrite_stateElapsed : (handlePageWrite s addr val).stateElapsed = 0 := by
  rw [handlePageWrite_eq]

@[simp] theorem handlePageWrite_pageAddr : (handlePageWrite s addr val).pageAddr = s.pageAddr := by
  rw [handlePageWrite_eq]

end PageWrite

/-- The write is remembered, for polling. -/
def At28c256.track (s : At28c256) (loc : BitVec 16) (val : BitVec 8) : At28c256 :=
  { s with lastWriteAddr := loc, lastWrite := val }

/-- A new page load, which the write is the first byte of. -/
def At28c256.newPage (s : At28c256) (loc : BitVec 16) (val : BitVec 8) : At28c256 :=
  handlePageWrite { s with pageMask := 0, pageAddr := loc &&& ADDR_PAGE_MASK } loc val

/-- A write in the middle of a sequence that its state takes. -/
def At28c256.Expects (s : At28c256) (loc : BitVec 16) (val : BitVec 8) : Prop :=
  if s.sdpState = .sdp1 then val = 0xA0 ∨ val = 0x80 else (loc, val) = sdpSeqTable s.sdpState

/-- What a write can do. -/
inductive WriteCase (s : At28c256) (loc : BitVec 16) (val : BitVec 8) : At28c256 → Prop where
  | sequence (h : s.writeState = .idle) (hloc : loc = 0x5555) (hval : val = 0xAA) :
      WriteCase s loc val
        (({ s with sdpState := .sdp0, writeState := .sdp }.newPage loc val).track loc val)
  | load (h : s.writeState = .idle) (hother : ¬(loc = 0x5555 ∧ val = 0xAA)) :
      WriteCase s loc val (({ s with writeState := .byteLoad }.newPage loc val).track loc val)
  | unlock (h : s.writeState = .sdp) (hseq : s.sdpState = .sdp1) (hval : val = 0xA0) :
      WriteCase s loc val ({ s with
        stateElapsed := 0, sdpEnabled := true, sdpWritesEnabled := true, pageMask := 0
        writeState := .sdpWriteEn, sdpState := .idle }.track loc val)
  | toDisable (h : s.writeState = .sdp) (hseq : s.sdpState = .sdp1) (hval : val = 0x80) :
      WriteCase s loc val ({ s with stateElapsed := 0, sdpState := .dis80 }.track loc val)
  | disable (h : s.writeState = .sdp) (hseq : s.sdpState = .dis55)
      (hvalid : (loc, val) = sdpSeqTable .dis55) :
      WriteCase s loc val ({ s with
        stateElapsed := 0, sdpEnabled := false, sdpState := .idle, writeState := .sdpWriteEn
        pageMask := 0 }.track loc val)
  | advance (h : s.writeState = .sdp) (hseq : s.sdpState ≠ .sdp1) (hlast : s.sdpState ≠ .dis55)
      (hvalid : (loc, val) = sdpSeqTable s.sdpState) :
      WriteCase s loc val
        ({ s with stateElapsed := 0, sdpState := incrSdpState s.sdpState }.track loc val)
  | abort (h : s.writeState = .sdp) (hinvalid : ¬s.Expects loc val) :
      WriteCase s loc val { s with stateElapsed := 0, sdpState := .idle, writeState := .idle }
  | firstByte (h : s.writeState = .sdpWriteEn) :
      WriteCase s loc val
        ({ { s with stateElapsed := 0 }.newPage loc val with writeState := .byteLoad }.track loc val)
  | otherPage (h : s.writeState = .byteLoad) (hpage : s.pageAddr ≠ loc &&& ADDR_PAGE_MASK) :
      WriteCase s loc val s
  | byte (h : s.writeState = .byteLoad) (hpage : s.pageAddr = loc &&& ADDR_PAGE_MASK) :
      WriteCase s loc val ((handlePageWrite s loc val).track loc val)
  | blocked (h : s.writeState = .writeCycle) : WriteCase s loc val (s.track loc val)

theorem at28c256Write_case (s : At28c256) (addr : BitVec 16) (val : BitVec 8) :
    WriteCase s (addr &&& IMAGE_MASK) val (at28c256Write s addr val) := by
  unfold at28c256Write
  cases h : s.writeState with
  | idle =>
    dsimp only
    split
    · rename_i hfirst
      exact .sequence h hfirst.1 hfirst.2
    · rename_i hother
      exact .load h hother
  | sdp =>
    dsimp only
    by_cases hseq : s.sdpState = .sdp1
    -- the two values that end the unlock sequence or go on to disable are not in the table
    · simp only [hseq, if_true]
      split
      · split
        · rename_i hval
          exact .unlock h hseq hval
        · rename_i hvalid hval
          have hcase : WriteCase s (addr &&& IMAGE_MASK) val _ :=
            .toDisable h hseq (hvalid.resolve_left hval)
          simpa only [At28c256.track, h] using hcase
      · rename_i hinvalid
        refine .abort h ?_
        rwa [At28c256.Expects, if_pos hseq]
    · simp only [hseq, if_false]
      split
      · rename_i hvalid
        split
        · rename_i hlast
          exact .disable h hlast (hlast ▸ hvalid)
        · rename_i hlast
          have hcase := WriteCase.advance h hseq hlast hvalid
          simpa only [At28c256.track, h] using hcase
      · rename_i hinvalid
        refine .abort h ?_
        rwa [At28c256.Expects, if_neg hseq]
  | sdpWriteEn =>
    have hcase : WriteCase s (addr &&& IMAGE_MASK) val _ := .firstByte h
    simpa only [At28c256.track, At28c256.newPage, h] using hcase
  | byteLoad =>
    dsimp only
    split
    · rename_i hpage
      exact .otherPage h hpage
    · rename_i hpage
      exact .byte h (Decidable.not_not.mp hpage)
  | writeCycle => exact .blocked h

/-! ## A round of the loop in `at28c256_tick` -/

/-- Writes are taken until `T_BLC` is over. -/
def At28c256.Loading (s : At28c256) : Prop :=
  s.writeState = .sdp ∨ s.writeState = .sdpWriteEn ∨ s.writeState = .byteLoad

/-- The time in the state, with the time given. -/
def At28c256.elapsedWith (s : At28c256) (nanos : BitVec 32) : BitVec 64 :=
  s.stateElapsed + nanos.setWidth 64

/-- The write cycle begins. -/
def At28c256.startCycle (s : At28c256) : At28c256 :=
  { s with
    sdpState := if s.writeState = .sdp then .idle else s.sdpState
    writeState := .writeCycle, stateElapsed := 0 }

/-- What a round can do. -/
inductive RoundCase (s : At28c256) (nanos : BitVec 32) : At28c256 × BitVec 32 → Prop where
  | idle (h : s.writeState = .idle) : RoundCase s nanos (s, 0)
  | loading (h : s.Loading) (htime : s.elapsedWith nanos < T_BLC) :
      RoundCase s nanos ({ s with stateElapsed := s.elapsedWith nanos }, 0)
  | loaded (h : s.Loading) (htime : T_BLC ≤ s.elapsedWith nanos) :
      RoundCase s nanos (s.startCycle, nanos - (T_BLC - s.stateElapsed).setWidth 32)
  | writing (h : s.writeState = .writeCycle) (htime : s.elapsedWith nanos < T_WC) :
      RoundCase s nanos ({ s with stateElapsed := s.elapsedWith nanos }, 0)
  | written (h : s.writeState = .writeCycle) (htime : T_WC ≤ s.elapsedWith nanos) :
      RoundCase s nanos (endWriteCycle s, nanos - (T_WC - s.stateElapsed).setWidth 32)

theorem tickRound_load {s : At28c256} (h : s.Loading) (nanos : BitVec 32) :
    tickRound s nanos = if s.elapsedWith nanos ≥ T_BLC then
      (s.startCycle, nanos - (T_BLC - s.stateElapsed).setWidth 32)
    else ({ s with stateElapsed := s.elapsedWith nanos }, 0) := by
  unfold tickRound At28c256.startCycle At28c256.elapsedWith
  rcases h with h | h | h <;> simp only [h]

theorem tickRound_idle {s : At28c256} (h : s.writeState = .idle) (nanos : BitVec 32) :
    tickRound s nanos = (s, 0) := by
  unfold tickRound
  rw [h]

theorem tickRound_case (s : At28c256) (nanos : BitVec 32) :
    RoundCase s nanos (tickRound s nanos) := by
  have hload : s.Loading → RoundCase s nanos (tickRound s nanos) := by
    intro h
    rw [tickRound_load h]
    split
    · rename_i htime
      exact .loaded h htime
    · rename_i htime
      exact .loading h (BitVec.not_le.mp htime)
  cases h : s.writeState with
  | sdp => exact hload (.inl h)
  | sdpWriteEn => exact hload (.inr (.inl h))
  | byteLoad => exact hload (.inr (.inr h))
  | idle =>
    rw [tickRound_idle h]
    exact .idle h
  | writeCycle =>
    have hround : tickRound s nanos = if s.elapsedWith nanos ≥ T_WC then
        (endWriteCycle s, nanos - (T_WC - s.stateElapsed).setWidth 32)
      else ({ s with stateElapsed := s.elapsedWith nanos }, 0) := by
      unfold tickRound At28c256.elapsedWith
      rw [h]
    rw [hround]
    split
    · rename_i htime
      exact .written h htime
    · rename_i htime
      exact .writing h (BitVec.not_le.mp htime)

/-- What each round keeps, the loop keeps. -/
theorem tickRounds_keeps {P : At28c256 → Prop}
    (hround : ∀ s nanos, P s → P (tickRound s nanos).1) (rounds : Nat) {s : At28c256} (h : P s)
    (nanos : BitVec 32) : P (tickRounds rounds s nanos).1 := by
  induction rounds generalizing s nanos with
  | zero => exact h
  | succ rounds ih =>
    rw [tickRounds]
    split
    · exact h
    · exact ih (hround s nanos h) _

theorem at28c256Tick_keeps {P : At28c256 → Prop}
    (hround : ∀ s nanos, P s → P (tickRound s nanos).1) {s : At28c256} (h : P s)
    (nanos : BitVec 32) : P (at28c256Tick s nanos) :=
  tickRounds_keeps hround _ h nanos

/-! ## Runs -/

inductive At28Op where
  | write (addr : BitVec 16) (val : BitVec 8)
  | read (addr : BitVec 16)
  | tick (nanos : BitVec 32)

def At28Op.step (s : At28c256) : At28Op → At28c256
  | .write addr val => at28c256Write s addr val
  | .read addr => (at28c256Read s addr).2
  | .tick nanos => at28c256Tick s nanos

def at28Run (s : At28c256) (ops : List At28Op) : At28c256 := ops.foldl At28Op.step s

/-- An EEPROM after `at28c256_init` and any operations. -/
inductive At28Reachable : At28c256 → Prop where
  | init (enableSdp : Bool) : At28Reachable (at28c256Init enableSdp)
  | register {s : At28c256} (bus : Option Nat) (base : BitVec 16) (h : At28Reachable s) :
      At28Reachable { s with busHandle := bus, base }
  | loadImage {s : At28c256} (image : List (BitVec 8)) (offset : BitVec 16)
      (h : At28Reachable s) : At28Reachable (at28c256LoadImage s image offset).2
  | setSdpEnable {s : At28c256} (enable : Bool) (h : At28Reachable s) :
      At28Reachable (at28c256SetSdpEnable s enable)
  | step {s : At28c256} (op : At28Op) (h : At28Reachable s) : At28Reachable (op.step s)

/-- The two states, the flags, the timer and the page address agree. -/
structure At28c256.Consistent (s : At28c256) : Prop where
  sequence : s.sdpState ≠ .idle ↔ s.writeState = .sdp
  writesEnabled : s.sdpWritesEnabled = true → s.writeState ≠ .idle ∧ s.writeState ≠ .sdp
  loadTime : s.Loading → s.stateElapsed < T_BLC
  cycleTime : s.writeState = .writeCycle → s.stateElapsed < T_WC
  page : s.pageAddr &&& ADDR_PAGE_MASK = s.pageAddr

section Consistent
variable {s s' : At28c256} {loc : BitVec 16} {val : BitVec 8} {nanos : BitVec 32}

theorem At28c256.Consistent.sequenceOff (h : s.Consistent) (hstate : s.writeState ≠ .sdp) :
    s.sdpState = .idle :=
  Decidable.byContradiction fun hseq => hstate (h.sequence.mp hseq)

theorem At28c256.Consistent.locked (h : s.Consistent)
    (hstate : s.writeState = .idle ∨ s.writeState = .sdp) : s.sdpWritesEnabled = false := by
  cases hflag : s.sdpWritesEnabled with
  | false => rfl
  | true =>
    obtain ⟨hidle, hsdp⟩ := h.writesEnabled hflag
    exact (hstate.elim hidle hsdp).elim

/-! The invariant in each state. -/

theorem consistent_idle (hstate : s.writeState = .idle) (hseq : s.sdpState = .idle)
    (hflag : s.sdpWritesEnabled = false) (hpage : s.pageAddr &&& ADDR_PAGE_MASK = s.pageAddr) :
    s.Consistent := by
  constructor <;> simp [At28c256.Loading, hstate, hseq, hflag, hpage]

theorem consistent_sdp (hstate : s.writeState = .sdp) (hseq : s.sdpState ≠ .idle)
    (hflag : s.sdpWritesEnabled = false) (htime : s.stateElapsed < T_BLC)
    (hpage : s.pageAddr &&& ADDR_PAGE_MASK = s.pageAddr) : s.Consistent := by
  constructor <;> simp [At28c256.Loading, hstate, hseq, hflag, htime, hpage]

theorem consistent_load (hstate : s.writeState = .sdpWriteEn ∨ s.writeState = .byteLoad)
    (hseq : s.sdpState = .idle) (htime : s.stateElapsed < T_BLC)
    (hpage : s.pageAddr &&& ADDR_PAGE_MASK = s.pageAddr) : s.Consistent := by
  rcases hstate with hstate | hstate <;>
    constructor <;> simp [At28c256.Loading, hstate, hseq, htime, hpage]

theorem consistent_cycle (hstate : s.writeState = .writeCycle) (hseq : s.sdpState = .idle)
    (htime : s.stateElapsed < T_WC) (hpage : s.pageAddr &&& ADDR_PAGE_MASK = s.pageAddr) :
    s.Consistent := by
  constructor <;> simp [At28c256.Loading, hstate, hseq, htime, hpage]

theorem pageMask_idem (loc : BitVec 16) :
    loc &&& ADDR_PAGE_MASK &&& ADDR_PAGE_MASK = loc &&& ADDR_PAGE_MASK := by
  rw [BitVec.and_assoc, BitVec.and_self]

theorem incrSdpState_ne_idle (q : SdpSeq) : incrSdpState q ≠ .idle := by
  cases q <;> decide

theorem At28c256.Consistent.write (h : s.Consistent) (hcase : WriteCase s loc val s') :
    s'.Consistent := by
  have hnow : 0#64 < T_BLC := by decide
  cases hcase with
  | sequence hidle =>
    apply consistent_sdp <;>
      simp [At28c256.track, At28c256.newPage, h.locked (.inl hidle), pageMask_idem, hnow]
  | load hidle =>
    have hseq := h.sequenceOff (by rw [hidle]; decide)
    apply consistent_load <;> simp [At28c256.track, At28c256.newPage, hseq, pageMask_idem, hnow]
  | unlock => exact consistent_load (.inl rfl) rfl hnow h.page
  | toDisable hsdp => exact consistent_sdp hsdp SdpSeq.noConfusion (h.locked (.inr hsdp)) hnow h.page
  | disable => exact consistent_load (.inl rfl) rfl hnow h.page
  | advance hsdp =>
    exact consistent_sdp hsdp (incrSdpState_ne_idle _) (h.locked (.inr hsdp)) hnow h.page
  | abort hsdp => exact consistent_idle rfl rfl (h.locked (.inr hsdp)) h.page
  | firstByte hen =>
    have hseq := h.sequenceOff (by rw [hen]; decide)
    apply consistent_load <;> simp [At28c256.track, At28c256.newPage, hseq, pageMask_idem, hnow]
  | otherPage => exact h
  | byte hload =>
    have hseq := h.sequenceOff (by rw [hload]; decide)
    apply consistent_load <;> simp [At28c256.track, hload, hseq, h.page, hnow]
  | blocked => exact { h with }

theorem At28c256.Consistent.read (h : s.Consistent) (addr : BitVec 16) :
    (at28c256Read s addr).2.Consistent := by
  unfold at28c256Read
  split
  · exact { h with }
  · exact h

theorem startCycle_sdpState (h : s.Consistent) : s.startCycle.sdpState = .idle := by
  unfold At28c256.startCycle
  split
  · rfl
  · exact h.sequenceOff ‹_›

theorem At28c256.Consistent.round (h : s.Consistent) (nanos : BitVec 32) :
    (tickRound s nanos).1.Consistent := by
  have hnow : 0#64 < T_WC := by decide
  have hcase := tickRound_case s nanos
  generalize tickRound s nanos = result at hcase ⊢
  cases hcase with
  | idle => exact h
  | loading _ htime =>
    -- the time of the byte load is short of the write cycle's, too
    refine { h with loadTime := fun _ => htime, cycleTime := fun hcycle => ?_ }
    exact BitVec.lt_trans htime (by decide)
  | loaded => exact consistent_cycle rfl (startCycle_sdpState h) hnow h.page
  | writing hcycle htime =>
    have hseq := h.sequenceOff (by rw [hcycle]; decide)
    exact consistent_cycle hcycle hseq htime h.page
  | written hcycle =>
    have hseq := h.sequenceOff (by rw [hcycle]; decide)
    exact consistent_idle rfl hseq rfl h.page

theorem At28c256.Consistent.step (h : s.Consistent) (op : At28Op) : (op.step s).Consistent := by
  cases op with
  | write addr val => exact h.write (at28c256Write_case s addr val)
  | read addr => exact h.read addr
  | tick nanos => exact at28c256Tick_keeps (fun _ nanos h => h.round nanos) h nanos

theorem At28c256.Consistent.run (h : s.Consistent) (ops : List At28Op) :
    (at28Run s ops).Consistent := by
  induction ops generalizing s with
  | nil => exact h
  | cons op ops ih => exact ih (h.step op)

theorem At28Reachable.consistent (h : At28Reachable s) : s.Consistent := by
  induction h with
  | init enableSdp => exact consistent_idle rfl rfl rfl (by simp [at28c256Init])
  | register _ _ _ ih => exact { ih with }
  | loadImage _ _ _ ih =>
    unfold at28c256LoadImage
    split
    · exact ih
    · exact { ih with }
  | setSdpEnable _ _ ih =>
    unfold at28c256SetSdpEnable
    split
    · exact ih
    · exact { ih with }
  | step op _ ih => exact ih.step op

end Consistent

end Cb6502
