import Cb6502.Lib.TimedWord
import Cb6502.Eeprom

/- The software data protection of the EEPROM (io/at28c256/src/at28c256.c), over runs of
   `at28c256_write`, `at28c256_read` and `at28c256_tick`. The third write of a sequence, which
   unlocks or goes on to the disable sequence, is taken at any address.

   What is proved:
     1. `sdp_protects` (while that write is made at its address, only the complete sequences
        open the image, and a temporary unlock is over after one write cycle).
     2. `disable_at_wrong_address` (a run that disables the protection without a sequence). -/
namespace Cb6502

open TimedWord

/-! ## The sequences -/

/-- The address and the value of a write, the address modulo the size of the image. -/
def At28Op.written : At28Op → Option (BitVec 16 × BitVec 8)
  | .write addr val => some (addr &&& IMAGE_MASK, val)
  | .read _ | .tick _ => none

def At28Op.time : At28Op → Nat
  | .tick nanos => nanos.toNat
  | .write _ _ | .read _ => 0

def unlockSequence : List (BitVec 16 × BitVec 8) :=
  [(0x5555, 0xAA), (0x2AAA, 0x55), (0x5555, 0xA0)]

def disableSequence : List (BitVec 16 × BitVec 8) :=
  [(0x5555, 0xAA), (0x2AAA, 0x55), (0x5555, 0x80), (0x5555, 0xAA), (0x2AAA, 0x55), (0x5555, 0x20)]

/-- Consecutive writes of the run are the sequence, in one write window. -/
abbrev Sequence (word : List (BitVec 16 × BitVec 8)) (ops : List At28Op) : Prop :=
  Contains At28Op.written At28Op.time T_BLC.toNat word ops

/-- The run has a sequence that opens the image. -/
def Authorised (ops : List At28Op) : Prop :=
  Sequence unlockSequence ops ∨ Sequence disableSequence ops

/-- The writes made so far, in each state of a sequence. -/
def SdpSeq.sofar : SdpSeq → List (BitVec 16 × BitVec 8)
  | .idle => []
  | .sdp0 => disableSequence.take 1
  | .sdp1 => disableSequence.take 2
  | .dis80 => disableSequence.take 3
  | .disAA => disableSequence.take 4
  | .dis55 => disableSequence.take 5

/-! ## What a run must do -/

/-- The write cycles that end in a round and write to the image. -/
def roundCommits (s : At28c256) (nanos : BitVec 32) : Nat :=
  if s.writeState = .writeCycle ∧ s.elapsedWith nanos ≥ T_WC ∧ sdpWriteBlocked s = false then 1
  else 0

/-- The same, in the rounds of `tickRounds`. -/
def roundsCommits : Nat → At28c256 → BitVec 32 → Nat
  | 0, _, _ => 0
  | rounds + 1, s, nanos =>
    if nanos = 0 then 0
    else roundCommits s nanos +
      roundsCommits rounds (tickRound s nanos).1 (tickRound s nanos).2

def At28Op.commits (s : At28c256) : At28Op → Nat
  | .tick nanos => roundsCommits s.writeState.roundsLeft s nanos
  | .write _ _ | .read _ => 0

/-- The page write cycles that commit in a run. -/
def commits : List At28Op → At28c256 → Nat
  | [], _ => 0
  | op :: ops, s => op.commits s + commits ops (op.step s)

/-- The protection is on, and suspended. -/
def TemporarilyOpen (s : At28c256) : Prop := s.sdpEnabled = true ∧ s.sdpWritesEnabled = true

/-- Without a sequence, the image and the protection stay as they are; and after a temporary
unlock at most one page write cycle commits before writes are blocked again. -/
structure SdpProtects (s : At28c256) (ops : List At28Op) : Prop where
  image : ∀ reached, reached <+: ops → ¬Authorised reached → (at28Run s reached).image = s.image
  enabled : ∀ reached, reached <+: ops → ¬Authorised reached →
    (at28Run s reached).sdpEnabled = true
  once : ∀ opened after, opened ++ after = ops → TemporarilyOpen (at28Run s opened) →
    (∀ reached, reached <+: after → reached ≠ after →
      sdpWriteBlocked (at28Run s (opened ++ reached)) = false) →
    commits after (at28Run s opened) ≤ 1

/-- A write that is taken as the third of a sequence is made at the address of the sequence. -/
def At28Op.WellAddressed (s : At28c256) : At28Op → Prop
  | .write addr val => s.writeState = .sdp → s.sdpState = .sdp1 → val = 0xA0 ∨ val = 0x80 →
      addr &&& IMAGE_MASK = 0x5555
  | .read _ | .tick _ => True

def AllWellAddressed : List At28Op → At28c256 → Prop
  | [], _ => True
  | op :: ops, s => op.WellAddressed s ∧ AllWellAddressed ops (op.step s)

/-! ## The image and the protection, without a sequence -/

section Locked
variable {s s' : At28c256} {image : Vector (BitVec 8) at28ImageSize}

/-- Writes are blocked, and the image is the one given. -/
structure Blocked (image : Vector (BitVec 8) at28ImageSize) (s : At28c256) : Prop where
  image : s.image = image
  enabled : s.sdpEnabled = true
  closed : s.sdpWritesEnabled = false

theorem Blocked.sdpWriteBlocked (h : Blocked image s) : sdpWriteBlocked s = true := by
  simp [Cb6502.sdpWriteBlocked, h.enabled, h.closed]

theorem Blocked.round (h : Blocked image s) (nanos : BitVec 32) :
    Blocked image (tickRound s nanos).1 := by
  have hcase := tickRound_case s nanos
  generalize tickRound s nanos = result at hcase ⊢
  cases hcase with
  | idle => exact h
  | loading | loaded | writing => exact { h with }
  | written =>
    refine ⟨?_, h.enabled, rfl⟩
    show (if Cb6502.sdpWriteBlocked s then s.image else commitPage s) = image
    rw [if_pos h.sdpWriteBlocked]
    exact h.image

/-- No tick goes on with a sequence, other than by letting time pass. -/
theorem round_not_sdp (h : s.writeState ≠ .sdp) (nanos : BitVec 32) :
    (tickRound s nanos).1.writeState ≠ .sdp := by
  have hcase := tickRound_case s nanos
  generalize tickRound s nanos = result at hcase ⊢
  cases hcase with
  | idle | loading | writing => exact h
  | loaded | written => exact WriteState.noConfusion

theorem rounds_not_sdp (rounds : Nat) (h : s.writeState ≠ .sdp) (nanos : BitVec 32) :
    (tickRounds rounds s nanos).1.writeState ≠ .sdp :=
  tickRounds_keeps (P := fun t => t.writeState ≠ .sdp) (fun _ nanos ht => round_not_sdp ht nanos)
    rounds h nanos

theorem tickRounds_zero (rounds : Nat) (s : At28c256) : tickRounds rounds s 0 = (s, 0) := by
  cases rounds <;> rfl

theorem tick_sdp (hs : s.Consistent) {nanos : BitVec 32}
    (h : (at28c256Tick s nanos).writeState = .sdp) :
    s.writeState = .sdp ∧ (at28c256Tick s nanos).sdpState = s.sdpState ∧
      (at28c256Tick s nanos).stateElapsed.toNat = s.stateElapsed.toNat + nanos.toNat := by
  by_cases hsdp : s.writeState = .sdp
  · refine ⟨hsdp, ?_⟩
    have hload : s.Loading := .inl hsdp
    have hround : at28c256Tick s nanos =
        (if nanos = 0 then (s, nanos) else
          tickRounds 2 (tickRound s nanos).1 (tickRound s nanos).2).1 := by
      unfold at28c256Tick
      rw [hsdp]
      rfl
    rw [hround] at h ⊢
    by_cases hzero : nanos = 0
    · rw [if_pos hzero, hzero]
      exact ⟨rfl, rfl⟩
    · rw [if_neg hzero, tickRound_load hload] at h ⊢
      split at h
      · -- the window is over
        have hcycle : s.startCycle.writeState ≠ .sdp := WriteState.noConfusion
        exact absurd h (rounds_not_sdp 2 hcycle _)
      · rename_i htime
        rw [if_neg htime, tickRounds_zero]
        refine ⟨rfl, ?_⟩
        have hless := BitVec.lt_def.mp (hs.loadTime hload)
        have hblc : T_BLC.toNat = 150000 := rfl
        show (s.stateElapsed + nanos.setWidth 64).toNat = _
        rw [BitVec.toNat_add, BitVec.toNat_setWidth]
        omega
  · exact absurd h (rounds_not_sdp _ hsdp nanos)

/-- Writes are blocked, and a sequence that is being made is in the operations so far. -/
structure Locked (image : Vector (BitVec 8) at28ImageSize) (past : List At28Op) (s : At28c256) :
    Prop extends Blocked image s where
  progress : s.writeState = .sdp → Recent At28Op.written At28Op.time T_BLC.toNat s.sdpState.sofar
    s.stateElapsed.toNat past

theorem Blocked.locked (h : Blocked image s) (hstate : s.writeState ≠ .sdp) (past : List At28Op) :
    Locked image past s :=
  { h with progress := fun hsdp => absurd hsdp hstate }

theorem Blocked.pageWrite (h : Blocked image s) (loc : BitVec 16) (val : BitVec 8) :
    Blocked image (handlePageWrite s loc val) := by
  rw [handlePageWrite_eq]
  exact { h with }

theorem Blocked.newPage (h : Blocked image s) (loc : BitVec 16) (val : BitVec 8) :
    Blocked image (s.newPage loc val) := by
  have hpage : Blocked image { s with pageMask := 0, pageAddr := loc &&& ADDR_PAGE_MASK } :=
    { h with }
  exact hpage.pageWrite loc val

theorem Blocked.track (h : Blocked image s) (loc : BitVec 16) (val : BitVec 8) :
    Blocked image (s.track loc val) :=
  { h with }

theorem sofar_incr {q : SdpSeq} (hseq : q ≠ .sdp1) (hlast : q ≠ .dis55) :
    (incrSdpState q).sofar = q.sofar ++ [sdpSeqTable q] := by
  cases q with
  | idle | sdp0 | dis80 | disAA => rfl
  | sdp1 => exact absurd rfl hseq
  | dis55 => exact absurd rfl hlast

section Step
variable {past : List At28Op} {op : At28Op} {loc : BitVec 16} {val : BitVec 8}

theorem Locked.since (h : Locked image past s) (hs : s.Consistent) (hsdp : s.writeState = .sdp)
    (hop : op.written = some (loc, val)) :
    Recent At28Op.written At28Op.time T_BLC.toNat (s.sdpState.sofar ++ [(loc, val)]) 0
      (past ++ [op]) :=
  (h.progress hsdp).next (BitVec.lt_def.mp (hs.loadTime (.inl hsdp))) hop

theorem Locked.write (h : Locked image past s) (hs : s.Consistent)
    (hop : op.written = some (loc, val)) (hcase : WriteCase s loc val s')
    (haddr : s.writeState = .sdp → s.sdpState = .sdp1 → val = 0xA0 ∨ val = 0x80 → loc = 0x5555)
    (hno : ¬Authorised (past ++ [op])) : Locked image (past ++ [op]) s' := by
  cases hcase with
  | sequence _ hloc hval =>
    have hstart : Recent At28Op.written At28Op.time T_BLC.toNat [(loc, val)] 0 (past ++ [op]) :=
      .start hop
    rw [hloc, hval] at hstart
    have hseq : Blocked image { s with sdpState := .sdp0, writeState := .sdp } := { h with }
    refine { (hseq.newPage loc val).track loc val with progress := fun _ => ?_ }
    simp only [At28c256.track, At28c256.newPage, handlePageWrite_sdpState,
      handlePageWrite_stateElapsed]
    exact hstart
  | load =>
    -- any other first write is a byte load
    have hload : Blocked image { s with writeState := .byteLoad } := { h with }
    apply ((hload.newPage loc val).track loc val).locked
    simp [At28c256.track, At28c256.newPage]
  | firstByte =>
    have hnew : Blocked image ({ s with stateElapsed := 0 }.newPage loc val) :=
      Blocked.newPage { h with } loc val
    have hload : Blocked image
        { { s with stateElapsed := 0 }.newPage loc val with writeState := .byteLoad } :=
      { hnew with }
    exact (hload.track loc val).locked WriteState.noConfusion _
  | byte hload =>
    apply ((h.pageWrite loc val).track loc val).locked
    simp [At28c256.track, hload]
  | unlock hsdp hseq hval =>
    -- the third write is at its address, so the run has the unlock sequence
    have hrecent := h.since hs hsdp hop
    rw [hseq, haddr hsdp hseq (.inl hval), hval] at hrecent
    exact absurd (.inl hrecent.contains) hno
  | disable hsdp hseq hvalid =>
    -- the sixth write: the run has the disable sequence
    have hrecent := h.since hs hsdp hop
    rw [hseq, hvalid] at hrecent
    exact absurd (.inr hrecent.contains) hno
  | toDisable hsdp hseq hval =>
    have hrecent := h.since hs hsdp hop
    rw [hseq, haddr hsdp hseq (.inr hval), hval] at hrecent
    exact ⟨⟨h.image, h.enabled, h.closed⟩, fun _ => hrecent⟩
  | advance hsdp hseq hlast hvalid =>
    have hrecent := h.since hs hsdp hop
    rw [hvalid, ← sofar_incr hseq hlast] at hrecent
    exact ⟨⟨h.image, h.enabled, h.closed⟩, fun _ => hrecent⟩
  | abort => exact ⟨{ h with }, WriteState.noConfusion⟩
  | otherPage hload => exact h.toBlocked.locked (by rw [hload]; decide) _
  | blocked hcycle =>
    apply (h.track loc val).locked
    simp [At28c256.track, hcycle]

theorem Locked.read (h : Locked image past s) (addr : BitVec 16) :
    Locked image (past ++ [.read addr]) (at28c256Read s addr).2 := by
  have hrecent : s.writeState = .sdp → Recent At28Op.written At28Op.time T_BLC.toNat
      s.sdpState.sofar s.stateElapsed.toNat (past ++ [.read addr]) :=
    fun hsdp => (h.progress hsdp).pass rfl
  unfold at28c256Read
  split
  · exact { h with progress := hrecent }
  · exact { h with progress := hrecent }

theorem Locked.tick (h : Locked image past s) (hs : s.Consistent) (nanos : BitVec 32) :
    Locked image (past ++ [.tick nanos]) (at28c256Tick s nanos) := by
  have hblocked : Blocked image (at28c256Tick s nanos) :=
    at28c256Tick_keeps (P := Blocked image) (fun _ nanos ht => ht.round nanos) h.toBlocked nanos
  refine { hblocked with progress := fun hsdp => ?_ }
  obtain ⟨hbefore, hstate, htime⟩ := tick_sdp hs hsdp
  rw [hstate, htime]
  exact (h.progress hbefore).pass rfl

theorem Locked.step (h : Locked image past s) (hs : s.Consistent) (haddr : op.WellAddressed s)
    (hno : ¬Authorised (past ++ [op])) : Locked image (past ++ [op]) (op.step s) := by
  cases op with
  | write addr val => exact h.write hs rfl (at28c256Write_case s addr val) haddr hno
  | read addr => exact h.read addr
  | tick nanos => exact h.tick hs nanos

theorem Authorised.append {ops : List At28Op} (h : Authorised ops) (more : List At28Op) :
    Authorised (ops ++ more) :=
  h.imp (·.append more) (·.append more)

/-- The run goes on from the operations so far. -/
theorem Locked.run (ops : List At28Op) (h : Locked image past s) (hs : s.Consistent)
    (haddr : AllWellAddressed ops s) (hno : ¬Authorised (past ++ ops)) :
    Locked image (past ++ ops) (at28Run s ops) := by
  induction ops generalizing past s with
  | nil =>
    rw [List.append_nil]
    exact h
  | cons op ops ih =>
    -- what the run so far contains, all of it contains
    have hsplit : past ++ op :: ops = past ++ [op] ++ ops := by simp
    rw [hsplit] at hno ⊢
    have hstep := h.step hs haddr.1 fun hop => hno (hop.append ops)
    exact ih hstep (hs.step op) haddr.2 hno

theorem AllWellAddressed.of_prefix {reached ops : List At28Op} (h : AllWellAddressed ops s)
    (hreached : reached <+: ops) : AllWellAddressed reached s := by
  obtain ⟨rest, rfl⟩ := hreached
  induction reached generalizing s with
  | nil => trivial
  | cons op reached ih => exact ⟨h.1, ih h.2⟩

end Step

end Locked

/-! ## A temporary unlock -/

section Unlocked
variable {s s' : At28c256} {loc : BitVec 16} {val : BitVec 8}

/-- The protection is suspended, up to the end of a write cycle. -/
structure Unlocked (s : At28c256) : Prop where
  unlocked : TemporarilyOpen s
  state : s.writeState ≠ .idle ∧ s.writeState ≠ .sdp

/-- The write cycle has ended. -/
structure Closed (s : At28c256) : Prop where
  blocked : sdpWriteBlocked s = true
  idle : s.writeState = .idle

theorem Unlocked.not_blocked (h : Unlocked s) : sdpWriteBlocked s = false := by
  simp [sdpWriteBlocked, h.unlocked.2]

theorem Unlocked.write (h : Unlocked s) (hcase : WriteCase s loc val s') : Unlocked s' := by
  obtain ⟨⟨henabled, hopen⟩, hidle, hsdp⟩ := h
  cases hcase with
  | sequence hstate | load hstate => exact absurd hstate hidle
  | unlock hstate | toDisable hstate | disable hstate | advance hstate | abort hstate =>
    exact absurd hstate hsdp
  | firstByte =>
    refine ⟨⟨?_, ?_⟩, WriteState.noConfusion, WriteState.noConfusion⟩ <;>
      simp [At28c256.track, At28c256.newPage, henabled, hopen]
  | otherPage => exact ⟨⟨henabled, hopen⟩, hidle, hsdp⟩
  | byte hload =>
    refine ⟨⟨?_, ?_⟩, ?_, ?_⟩ <;> simp [At28c256.track, henabled, hopen, hload]
  | blocked => exact ⟨⟨henabled, hopen⟩, hidle, hsdp⟩

theorem Unlocked.round (h : Unlocked s) (nanos : BitVec 32) :
    (roundCommits s nanos = 0 ∧ Unlocked (tickRound s nanos).1) ∨
      (roundCommits s nanos = 1 ∧ Closed (tickRound s nanos).1) := by
  obtain ⟨hidle, hsdp⟩ := h.state
  have hcase := tickRound_case s nanos
  generalize tickRound s nanos = result at hcase ⊢
  cases hcase with
  | idle hstate => exact absurd hstate hidle
  | loading hload =>
    refine .inl ⟨?_, ⟨h.unlocked, h.state⟩⟩
    rcases hload with hload | hload | hload <;> simp [roundCommits, hload]
  | loaded hload =>
    refine .inl ⟨?_, ⟨h.unlocked, WriteState.noConfusion, WriteState.noConfusion⟩⟩
    rcases hload with hload | hload | hload <;> simp [roundCommits, hload]
  | writing hcycle htime =>
    refine .inl ⟨if_neg fun hends => ?_, ⟨h.unlocked, h.state⟩⟩
    exact BitVec.not_le.mpr htime hends.2.1
  | written hcycle htime =>
    refine .inr ⟨if_pos ⟨hcycle, htime, h.not_blocked⟩, ?_, rfl⟩
    simp [endWriteCycle, sdpWriteBlocked, h.unlocked.1]

theorem rounds_idle (h : s.writeState = .idle) (rounds : Nat) (nanos : BitVec 32) :
    roundsCommits rounds s nanos = 0 ∧ (tickRounds rounds s nanos).1 = s := by
  induction rounds generalizing nanos with
  | zero => exact ⟨rfl, rfl⟩
  | succ rounds ih =>
    have hcommits : roundCommits s nanos = 0 := if_neg fun hends => by simp [h] at hends
    rw [roundsCommits, tickRounds, tickRound_idle h]
    split
    · exact ⟨rfl, rfl⟩
    · rw [hcommits, Nat.zero_add]
      exact ih 0

theorem Unlocked.rounds (h : Unlocked s) (rounds : Nat) (nanos : BitVec 32) :
    (roundsCommits rounds s nanos = 0 ∧ Unlocked (tickRounds rounds s nanos).1) ∨
      (roundsCommits rounds s nanos = 1 ∧ Closed (tickRounds rounds s nanos).1) := by
  induction rounds generalizing s nanos with
  | zero => exact .inl ⟨rfl, h⟩
  | succ rounds ih =>
    rw [roundsCommits, tickRounds]
    split
    · exact .inl ⟨rfl, h⟩
    · rcases h.round nanos with ⟨hcommits, hnext⟩ | ⟨hcommits, hnext⟩
      · rw [hcommits, Nat.zero_add]
        exact ih hnext _
      · -- the state is IDLE for the rest of the tick
        obtain ⟨hrest, hsame⟩ := rounds_idle hnext.idle rounds (tickRound s nanos).2
        rw [hcommits, hrest]
        exact .inr ⟨rfl, hsame.symm ▸ hnext⟩

theorem Unlocked.step (h : Unlocked s) (op : At28Op) :
    (op.commits s = 0 ∧ Unlocked (op.step s)) ∨ (op.commits s = 1 ∧ Closed (op.step s)) := by
  cases op with
  | write addr val => exact .inl ⟨rfl, h.write (at28c256Write_case s addr val)⟩
  | read addr =>
    refine .inl ⟨rfl, ?_⟩
    show Unlocked (at28c256Read s addr).2
    unfold at28c256Read
    split
    · exact ⟨h.unlocked, h.state⟩
    · exact h
  | tick nanos => exact h.rounds _ nanos

/-- One write cycle, at most, up to the state in which writes are blocked. -/
theorem Unlocked.commits_le (h : Unlocked s) (ops : List At28Op)
    (hopen : ∀ reached, reached <+: ops → reached ≠ ops →
      sdpWriteBlocked (at28Run s reached) = false) : commits ops s ≤ 1 := by
  induction ops generalizing s with
  | nil => exact Nat.zero_le 1
  | cons op ops ih =>
    show op.commits s + commits ops (op.step s) ≤ 1
    rcases h.step op with ⟨hcommits, hnext⟩ | ⟨hcommits, hnext⟩
    · rw [hcommits, Nat.zero_add]
      apply ih hnext
      intro reached hreached hpart
      exact hopen (op :: reached) (List.prefix_cons_inj op |>.mpr hreached)
        fun heq => hpart (List.cons_inj_right op |>.mp heq)
    · cases ops with
      | nil => exact Nat.le_of_eq hcommits
      | cons next rest =>
        -- writes are blocked with operations still to come, against the assumption
        have hfree := hopen [op] ⟨next :: rest, rfl⟩ (by simp)
        exact absurd hnext.blocked (by simpa [at28Run] using hfree)

end Unlocked

/-! ## Any run -/

theorem at28Run_append (s : At28c256) (ops more : List At28Op) :
    at28Run s (ops ++ more) = at28Run (at28Run s ops) more :=
  List.foldl_append

/-- From a state in IDLE with the protection on, while the third write of each sequence is made at
its address. -/
theorem sdp_protects {s : At28c256} (h : At28Reachable s) (hidle : s.writeState = .idle)
    (hsdp : s.sdpEnabled = true) (ops : List At28Op) (haddr : AllWellAddressed ops s) :
    SdpProtects s ops := by
  have hs := h.consistent
  have hblocked : Blocked s.image s := ⟨rfl, hsdp, hs.locked (.inl hidle)⟩
  have hstart : Locked s.image [] s := hblocked.locked (by rw [hidle]; decide) []
  have hrun : ∀ reached, reached <+: ops → ¬Authorised reached →
      Locked s.image reached (at28Run s reached) := fun reached hreached hno =>
    hstart.run reached hs (haddr.of_prefix hreached) hno
  refine ⟨fun reached hreached hno => (hrun reached hreached hno).image,
    fun reached hreached hno => (hrun reached hreached hno).enabled, ?_⟩
  intro opened after _ hopen hfree
  -- the flag is only set in the states up to the end of a write cycle
  have hunlocked : Unlocked (at28Run s opened) := ⟨hopen, (hs.run opened).writesEnabled hopen.2⟩
  apply hunlocked.commits_le after
  intro reached hreached hpart
  rw [← at28Run_append]
  exact hfree reached hreached hpart

/-- The unlock sequence, a byte, and the time for the write cycle. -/
def unlockAndWrite : List At28Op :=
  [.write 0x5555 0xAA, .write 0x2AAA 0x55, .write 0x5555 0xA0, .write 0 0x42, .tick 10150000]

theorem sdp_protects_unlockAndWrite : SdpProtects (at28c256Init true) unlockAndWrite := by
  apply sdp_protects (.init true) rfl rfl
  exact ⟨fun _ _ _ => rfl, fun _ hseq => absurd hseq (by decide), fun _ _ _ => rfl,
    fun hsdp => absurd hsdp (by decide), trivial, trivial⟩

/-- The disable sequence with 0x80 at another address. -/
def wrongDisable : List At28Op :=
  [.write 0x5555 0xAA, .write 0x2AAA 0x55, .write 0x1234 0x80,
    .write 0x5555 0xAA, .write 0x2AAA 0x55, .write 0x5555 0x20]

theorem wrongDisable_not_authorised : ¬Authorised wrongDisable := by
  rintro (h | h)
  · obtain ⟨op, hop, hwritten⟩ := h.letter (w := (0x5555, 0xA0)) (by decide)
    revert op
    decide
  · obtain ⟨op, hop, hwritten⟩ := h.letter (w := (0x5555, 0x80)) (by decide)
    revert op
    decide

/-- The protection is off without a sequence. -/
theorem disable_at_wrong_address : ¬∀ ops, SdpProtects (at28c256Init true) ops := by
  intro h
  have henabled := (h wrongDisable).enabled wrongDisable (List.prefix_refl _)
    wrongDisable_not_authorised
  exact absurd henabled (by decide)

end Cb6502
