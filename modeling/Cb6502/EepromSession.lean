import Cb6502.EepromTime

/- Whole sessions of the EEPROM (io/at28c256/src/at28c256.c). A host writes in bursts, each write
   less than `T_BLC` after the one before, and leaves the chip the time of a write cycle after
   each. The chip as the host knows it has cells and a protection, and a burst asks it for one
   thing: a page of data, a command sequence with or without data, or nothing.

   What is proved:
     1. `outcome_quiet`, `run_settles` (what a burst has left pending is not changed by time or
        by reads, and is the chip once the timeouts are over).
     2. `Reading.next`, `Filling.step` (what one write does to a sequence and to a page).
     3. `eeprom_session` (any bursts leave the cells and the protection that they ask for, and
        every read returns its cell). -/
namespace Cb6502

open Timeout TimedWord

/-! ## The chip, and what a burst asks of it -/

/-- The EEPROM between two bursts. -/
@[ext] structure Chip where
  cells : Fin at28ImageSize → BitVec 8
  locked : Bool

/-- The bytes given, in the cells of the page. -/
def Chip.store (c : Chip) (page : BitVec 16) (bytes : Fin at28PageSize → Option (BitVec 8)) :
    Chip :=
  { c with
    cells := fun i =>
      if BitVec.ofNat 16 i.val &&& ADDR_PAGE_MASK = page then
        (bytes (pageOffset (BitVec.ofNat 16 i.val))).getD (c.cells i)
      else c.cells i }

/-- The same without a command, which the protection blocks. -/
def Chip.program (c : Chip) (page : BitVec 16) (bytes : Fin at28PageSize → Option (BitVec 8)) :
    Chip :=
  if c.locked then c else c.store page bytes

/-- The sequence that unlocks the chip for one page and leaves it locked. The third write is
taken at any address. -/
def unlockAt (third : BitVec 16) : List (BitVec 16 × BitVec 8) :=
  [(0x5555, 0xAA), (0x2AAA, 0x55), (third, 0xA0)]

/-- The sequence that takes the protection off. -/
def disableAt (third : BitVec 16) : List (BitVec 16 × BitVec 8) :=
  [(0x5555, 0xAA), (0x2AAA, 0x55), (third, 0x80), (0x5555, 0xAA), (0x2AAA, 0x55), (0x5555, 0x20)]

/-- The writes begin a sequence. -/
def Begins (word : List (BitVec 16 × BitVec 8)) : Prop :=
  word ≠ [] ∧ ∃ third, word <+: unlockAt third ∨ word <+: disableAt third

/-- The writes are all of a sequence. -/
def Whole (word : List (BitVec 16 × BitVec 8)) : Prop :=
  ∃ third, word = unlockAt third ∨ word = disableAt third

/-- The writes are the word, and are in time for another one. -/
def Writes (word : List (BitVec 16 × BitVec 8)) (ops : List At28Op) : Prop :=
  ∃ es gap, ops = es ++ gap ∧ Spells At28Op.written At28Op.time T_BLC.toNat word es ∧
    Silent At28Op.written gap ∧ elapsed At28Op.time gap < T_BLC.toNat

/-- A sequence that a write breaks off, which drops all of it. -/
inductive Broken : List At28Op → Prop where
  | mk {word : List (BitVec 16 × BitVec 8)} {ops : List At28Op} {op : At28Op}
      {write : BitVec 16 × BitVec 8} (hbegins : Begins word) (hpart : ¬Whole word)
      (hwrites : Writes word ops) (hop : op.written = some write)
      (hother : ¬Begins (word ++ [write])) : Broken (ops ++ [op])

/-- The data after a command sequence: none, or the bytes of one page. -/
inductive Data : List At28Op → BitVec 16 → (Fin at28PageSize → Option (BitVec 8)) → Prop where
  | none {page : BitVec 16} : Data [] page fun _ => none
  | page {op : At28Op} {ops : List At28Op} {loc : BitVec 16} {val : BitVec 8}
      (hop : op.written = some (loc, val)) (hwindow : LoadWindow (loc &&& ADDR_PAGE_MASK) 0 ops) :
      Data (op :: ops) (loc &&& ADDR_PAGE_MASK) (lastWritten (loc &&& ADDR_PAGE_MASK) (op :: ops))

/-- The chip that a burst asks for. -/
inductive Chip.Burst (c : Chip) : List At28Op → Chip → Prop where
  | data {op : At28Op} {ops : List At28Op} {loc : BitVec 16} {val : BitVec 8}
      (hop : op.written = some (loc, val)) (hplain : ¬(loc = 0x5555 ∧ val = 0xAA))
      (hwindow : LoadWindow (loc &&& ADDR_PAGE_MASK) 0 ops) :
      c.Burst (op :: ops) (c.program (loc &&& ADDR_PAGE_MASK)
        (lastWritten (loc &&& ADDR_PAGE_MASK) (op :: ops)))
  | lock {third page : BitVec 16} {ops more : List At28Op}
      {bytes : Fin at28PageSize → Option (BitVec 8)} (hseq : Writes (unlockAt third) ops)
      (hdata : Data more page bytes) :
      c.Burst (ops ++ more) { c.store page bytes with locked := true }
  | unlock {third page : BitVec 16} {ops more : List At28Op}
      {bytes : Fin at28PageSize → Option (BitVec 8)} (hseq : Writes (disableAt third) ops)
      (hdata : Data more page bytes) :
      c.Burst (ops ++ more) { c.store page bytes with locked := false }
  /-- No sequence: its first write is data, and the others are not. -/
  | part {word : List (BitVec 16 × BitVec 8)} {ops : List At28Op} (hbegins : Begins word)
      (hpart : ¬Whole word) (hwrites : Writes word ops) :
      c.Burst ops (c.program (0x5555 &&& ADDR_PAGE_MASK)
        (Function.update (fun _ => none) (pageOffset 0x5555) (some 0xAA)))
  | broken {ops : List At28Op} (hbroken : Broken ops) : c.Burst ops c
  | again {ops gap more : List At28Op} {c' : Chip} (hbroken : Broken ops)
      (hgap : Silent At28Op.written gap) (hmore : c.Burst more c') : c.Burst (ops ++ gap ++ more) c'

/-- Bursts, and the time of a write cycle after each. -/
inductive Chip.Session : Chip → List At28Op → Chip → Prop where
  | rest {c : Chip} {ops : List At28Op} (hquiet : Silent At28Op.written ops) : c.Session ops c
  | burst {c c' c'' : Chip} {ops tail more : List At28Op} (hburst : c.Burst ops c')
      (hquiet : Silent At28Op.written tail)
      (htime : T_BLC.toNat + T_WC.toNat ≤ elapsed At28Op.time tail) (hmore : c'.Session more c'') :
      c.Session (ops ++ tail ++ more) c''

/-! ## What is pending -/

def At28c256.chip (s : At28c256) : Chip := ⟨s.image.get, s.sdpEnabled⟩

/-- The chip once the timeouts are over, if nothing more is written. -/
def At28c256.outcome (s : At28c256) : Chip :=
  if s.writeState = .idle ∨ sdpWriteBlocked s then s.chip else s.chip.store s.pageAddr s.loaded

/-- The time up to IDLE. -/
def At28c256.toIdle (s : At28c256) : Nat :=
  (eepromTime.left s).elim 0 fun t => if s.writeState = .writeCycle then t else t + T_WC.toNat

section Pending
variable {s s' : At28c256} {op : At28Op} {n : Nat}

theorem outcome_idle (h : s.writeState = .idle) : s.outcome = s.chip := if_pos (.inl h)

theorem outcome_endWriteCycle (h : s.writeState = .writeCycle)
    (hpage : s.pageAddr &&& ADDR_PAGE_MASK = s.pageAddr) : (endWriteCycle s).outcome = s.outcome := by
  rw [outcome_idle rfl]
  have hbusy : s.writeState ≠ .idle := by rw [h]; decide
  by_cases hblocked : sdpWriteBlocked s
  · rw [At28c256.outcome, if_pos (.inr hblocked)]
    simp [endWriteCycle, At28c256.chip, hblocked]
  · rw [At28c256.outcome, if_neg (by simp [hbusy, hblocked])]
    refine Chip.ext (funext fun i => ?_) rfl
    show (if sdpWriteBlocked s then s.image else commitPage s).get i = _
    rw [if_neg hblocked, get_commitPage hpage]
    rfl

theorem outcome_startCycle (h : s.Loading) : s.startCycle.outcome = s.outcome := by
  have hbusy : s.writeState ≠ .idle := by rcases h with h | h | h <;> rw [h] <;> decide
  have hcycle : s.startCycle.writeState ≠ .idle := WriteState.noConfusion
  simp only [At28c256.outcome, hbusy, hcycle, false_or]
  rfl

/-- The states that expire. -/
theorem eepromTime_busy {t : Nat} (h : eepromTime.left s = some t) :
    s.writeState = .writeCycle ∨ s.Loading := by
  cases hstate : s.writeState with
  | idle => simp [eepromTime, hstate, WriteState.limit] at h
  | sdp | sdpWriteEn | byteLoad => exact .inr (by simp [At28c256.Loading, hstate])
  | writeCycle => exact .inl rfl

/-- Time changes nothing that is pending, and goes by. -/
theorem passes_outcome (h : Passes eepromTime s n s')
    (hpage : s.pageAddr &&& ADDR_PAGE_MASK = s.pageAddr) :
    s'.outcome = s.outcome ∧ s'.toIdle = s.toIdle - n := by
  induction h with
  | rest hleft => exact ⟨rfl, by simp [At28c256.toIdle, hleft]⟩
  | @wait s n t hleft hn =>
    refine ⟨rfl, ?_⟩
    simp only [At28c256.toIdle, hleft, eepromTime_lawful.left_wait hleft hn, Option.elim_some]
    show (if s.writeState = .writeCycle then t - n else t - n + T_WC.toNat) = _
    split <;> omega
  | @expire s s' n t hleft hn hrest ih =>
    rcases eepromTime_busy hleft with hcycle | hload
    · have hexpire : eepromTime.expire s = endWriteCycle s := if_pos hcycle
      rw [hexpire] at ih
      obtain ⟨hout, htime⟩ := ih hpage
      refine ⟨hout.trans (outcome_endWriteCycle hcycle hpage), ?_⟩
      have hidle : (endWriteCycle s).toIdle = 0 := rfl
      rw [htime, hidle, At28c256.toIdle, hleft, Option.elim_some, if_pos hcycle]
      omega
    · have hother : s.writeState ≠ .writeCycle := by
        rcases hload with h | h | h <;> rw [h] <;> decide
      have hexpire : eepromTime.expire s = s.startCycle := if_neg hother
      rw [hexpire] at ih
      obtain ⟨hout, htime⟩ := ih hpage
      refine ⟨hout.trans (outcome_startCycle hload), ?_⟩
      have hcycle : s.startCycle.toIdle = T_WC.toNat := rfl
      rw [htime, hcycle, At28c256.toIdle, hleft, Option.elim_some, if_neg hother]
      omega

/-- A read changes the polling bits only. -/
theorem read_eq (s : At28c256) (addr : BitVec 16) :
    ∃ last, (at28c256Read s addr).2 = { s with lastWrite := last } := by
  unfold at28c256Read
  split
  · exact ⟨_, rfl⟩
  · exact ⟨s.lastWrite, rfl⟩

theorem outcome_quiet (hs : s.Consistent) (hop : op.written = none) :
    (op.step s).outcome = s.outcome ∧ (op.step s).toIdle = s.toIdle - op.time := by
  cases op with
  | write => exact absurd hop (Option.some_ne_none _)
  | read addr =>
    obtain ⟨last, hread⟩ := read_eq s addr
    show (at28c256Read s addr).2.outcome = _ ∧ (at28c256Read s addr).2.toIdle = _
    rw [hread]
    exact ⟨rfl, rfl⟩
  | tick nanos => exact passes_outcome (at28c256Tick_passes hs nanos) hs.page

theorem run_quiet {ops : List At28Op} (hs : s.Consistent) (hquiet : Silent At28Op.written ops) :
    (at28Run s ops).outcome = s.outcome ∧
      (at28Run s ops).toIdle = s.toIdle - elapsed At28Op.time ops := by
  induction ops generalizing s with
  | nil => exact ⟨rfl, rfl⟩
  | cons op ops ih =>
    obtain ⟨hout, htime⟩ := outcome_quiet hs (hquiet op (List.mem_cons_self ..))
    obtain ⟨hout', htime'⟩ :=
      ih (hs.step op) fun next hnext => hquiet next (List.mem_cons_of_mem op hnext)
    refine ⟨hout'.trans hout, ?_⟩
    show (at28Run (op.step s) ops).toIdle = _
    rw [htime', htime, elapsed]
    omega

theorem toIdle_le (s : At28c256) : s.toIdle ≤ T_BLC.toNat + T_WC.toNat := by
  cases hleft : eepromTime.left s with
  | none => simp [At28c256.toIdle, hleft]
  | some t =>
    obtain ⟨limit, hlimit, rfl⟩ := eepromTime_left hleft
    rcases eepromTime_busy hleft with hcycle | hload
    · rw [hcycle] at hlimit
      obtain rfl := Option.some.inj hlimit
      simp only [At28c256.toIdle, hleft, Option.elim_some, if_pos hcycle]
      omega
    · obtain rfl := Option.some.inj ((limit_loading hload).symm.trans hlimit)
      have hother : s.writeState ≠ .writeCycle := by
        rcases hload with h | h | h <;> rw [h] <;> decide
      simp only [At28c256.toIdle, hleft, Option.elim_some, if_neg hother]
      omega

theorem idle_of_toIdle (hs : s.Consistent) (h : s.toIdle = 0) : s.writeState = .idle := by
  cases hleft : eepromTime.left s with
  | none => cases hstate : s.writeState <;> simp [eepromTime, hstate, WriteState.limit] at hleft ⊢
  | some t =>
    have hpos := hs.left_ne_zero
    rw [hleft] at hpos
    simp only [At28c256.toIdle, hleft, Option.elim_some] at h
    split at h
    · exact absurd (congrArg some h) hpos
    · exact absurd (congrArg some (Nat.add_eq_zero_iff.mp h).1) hpos

/-- After both timeouts the chip is what was pending. -/
theorem run_settles {ops : List At28Op} (hs : s.Consistent) (hquiet : Silent At28Op.written ops)
    (htime : T_BLC.toNat + T_WC.toNat ≤ elapsed At28Op.time ops) :
    (at28Run s ops).writeState = .idle ∧ (at28Run s ops).chip = s.outcome := by
  obtain ⟨hout, hleft⟩ := run_quiet hs hquiet
  have hmost := toIdle_le s
  have hidle := idle_of_toIdle (hs.run ops) (by omega)
  exact ⟨hidle, (outcome_idle hidle).symm.trans hout⟩

end Pending

/-! ## A sequence -/

/-- The writes of a sequence up to each of its states. -/
def SdpSeq.writes (third : BitVec 16) : SdpSeq → List (BitVec 16 × BitVec 8)
  | .idle => []
  | .sdp0 => (disableAt third).take 1
  | .sdp1 => (disableAt third).take 2
  | .dis80 => (disableAt third).take 3
  | .disAA => (disableAt third).take 4
  | .dis55 => (disableAt third).take 5

theorem Begins.state {word : List (BitVec 16 × BitVec 8)} (h : Begins word) (hpart : ¬Whole word) :
    ∃ q third, q ≠ SdpSeq.idle ∧ word = q.writes third := by
  obtain ⟨hne, third, hprefix⟩ := h
  have hpos := List.length_pos_iff.mpr hne
  have hwhole : ∀ n, word.length = n → word ≠ unlockAt third ∧ word ≠ disableAt third :=
    fun _ _ => ⟨fun h => hpart ⟨third, .inl h⟩, fun h => hpart ⟨third, .inr h⟩⟩
  rcases hprefix with hprefix | hprefix
  · have hle : word.length ≤ 3 := hprefix.length_le
    have htake := List.prefix_iff_eq_take.mp hprefix
    rcases (by omega : word.length = 1 ∨ word.length = 2 ∨ word.length = 3) with hlen | hlen | hlen
    · exact ⟨.sdp0, third, by decide, by rw [htake, hlen]; rfl⟩
    · exact ⟨.sdp1, third, by decide, by rw [htake, hlen]; rfl⟩
    · rw [hlen] at htake
      exact absurd htake (hwhole 3 hlen).1
  · have hle : word.length ≤ 6 := hprefix.length_le
    have htake := List.prefix_iff_eq_take.mp hprefix
    rcases (by omega : word.length = 1 ∨ word.length = 2 ∨ word.length = 3 ∨ word.length = 4 ∨
      word.length = 5 ∨ word.length = 6) with hlen | hlen | hlen | hlen | hlen | hlen
    · exact ⟨.sdp0, third, by decide, by rw [htake, hlen]; rfl⟩
    · exact ⟨.sdp1, third, by decide, by rw [htake, hlen]; rfl⟩
    · exact ⟨.dis80, third, by decide, by rw [htake, hlen]; rfl⟩
    · exact ⟨.disAA, third, by decide, by rw [htake, hlen]; rfl⟩
    · exact ⟨.dis55, third, by decide, by rw [htake, hlen]; rfl⟩
    · rw [hlen] at htake
      exact absurd htake (hwhole 6 hlen).2

/-- The byte that the first write of a sequence loads. -/
def firstByte : Fin at28PageSize → Option (BitVec 8) :=
  Function.update (fun _ => none) (pageOffset 0x5555) (some 0xAA)

/-- A sequence is being made, from the chip given. -/
structure Reading (c : Chip) (q : SdpSeq) (age : Nat) (s : At28c256) : Prop where
  consistent : s.Consistent
  chip : s.chip = c
  state : s.writeState = .sdp
  sequence : s.sdpState = q
  page : s.pageAddr = 0x5555 &&& ADDR_PAGE_MASK
  bytes : s.loaded = firstByte
  age : s.stateElapsed.toNat = age

/-- A sequence has just been made: the next write is the first of a page. -/
structure Opened (c : Chip) (age : Nat) (s : At28c256) : Prop where
  consistent : s.Consistent
  chip : s.chip = c
  state : s.writeState = .sdpWriteEn
  sequence : s.sdpState = .idle
  bytes : s.loaded = fun _ => none
  age : s.stateElapsed.toNat = age
  unblocked : sdpWriteBlocked s = false

/-- A page is being loaded, which will be written or blocked. -/
structure Filling (c : Chip) (blocked : Bool) (page : BitVec 16) (past : List At28Op) (since : Nat)
    (s : At28c256) : Prop where
  consistent : s.Consistent
  chip : s.chip = c
  state : s.writeState = .byteLoad
  sequence : s.sdpState = .idle
  place : s.pageAddr = page
  bytes : s.loaded = lastWritten page past
  since : s.stateElapsed.toNat = since
  blocked : sdpWriteBlocked s = blocked

section Steps
variable {s s' : At28c256} {c : Chip} {blocked : Bool} {q : SdpSeq} {age since : Nat} {op : At28Op}
  {loc page : BitVec 16} {val : BitVec 8} {past : List At28Op}

/-- An operation that writes nothing, before the window is over. -/
theorem quiet_loading (hs : s.Consistent) (hload : s.Loading) (hop : op.written = none)
    (htime : s.stateElapsed.toNat + op.time < T_BLC.toNat) : ∃ last now,
      op.step s = { s with lastWrite := last, stateElapsed := now } ∧
        now.toNat = s.stateElapsed.toNat + op.time := by
  cases op with
  | write => exact absurd hop (Option.some_ne_none _)
  | read addr =>
    obtain ⟨last, hread⟩ := read_eq s addr
    exact ⟨last, s.stateElapsed, hread, rfl⟩
  | tick nanos =>
    have hsum := elapsedWith_toNat T_BLC (by decide) (BitVec.lt_def.mp (hs.loadTime hload)) nanos
    have hless : s.elapsedWith nanos < T_BLC := BitVec.lt_def.mpr (hsum.trans_lt htime)
    have hpass := passes_wait hs (limit_loading hload) hless
    exact ⟨s.lastWrite, s.elapsedWith nanos, (at28c256Tick_passes hs nanos).unique hpass, hsum⟩

theorem Reading.quiet (h : Reading c q age s) (hop : op.written = none)
    (htime : age + op.time < T_BLC.toNat) : Reading c q (age + op.time) (op.step s) := by
  have hs := h.consistent.step op
  obtain ⟨last, now, hstep, hnow⟩ :=
    quiet_loading h.consistent (.inl h.state) hop (by rwa [h.age])
  rw [hstep] at hs ⊢
  exact ⟨hs, h.chip, h.state, h.sequence, h.page, h.bytes, by rw [hnow, h.age]⟩

theorem Opened.quiet (h : Opened c age s) (hop : op.written = none)
    (htime : age + op.time < T_BLC.toNat) : Opened c (age + op.time) (op.step s) := by
  have hs := h.consistent.step op
  obtain ⟨last, now, hstep, hnow⟩ :=
    quiet_loading h.consistent (.inr (.inl h.state)) hop (by rwa [h.age])
  rw [hstep] at hs ⊢
  exact ⟨hs, h.chip, h.state, h.sequence, h.bytes, by rw [hnow, h.age], h.unblocked⟩

theorem Filling.quiet (h : Filling c blocked page past since s) (hop : op.written = none)
    (htime : since + op.time < T_BLC.toNat) :
    Filling c blocked page (past ++ [op]) (since + op.time) (op.step s) := by
  have hs := h.consistent.step op
  obtain ⟨last, now, hstep, hnow⟩ :=
    quiet_loading h.consistent (.inr (.inr h.state)) hop (by rwa [h.since])
  rw [hstep] at hs ⊢
  refine ⟨hs, h.chip, h.state, h.sequence, h.place, ?_, by rw [hnow, h.since], h.blocked⟩
  rw [lastWritten_pass (pageWrite_of_quiet hop)]
  exact h.bytes

/-- A silent stretch, by its operations. -/
theorem silent_keeps {P : Nat → At28c256 → Prop}
    (hquiet : ∀ {op age s}, P age s → op.written = none → age + op.time < T_BLC.toNat →
      P (age + op.time) (At28Op.step s op)) {gap : List At28Op} (h : P age s)
    (hgap : Silent At28Op.written gap) (htime : age + elapsed At28Op.time gap < T_BLC.toNat) :
    P (age + elapsed At28Op.time gap) (at28Run s gap) := by
  induction gap generalizing age s with
  | nil => exact h
  | cons op gap ih =>
    rw [elapsed] at htime ⊢
    have hstep := hquiet h (hgap op (List.mem_cons_self ..)) (by omega)
    rw [← Nat.add_assoc] at htime ⊢
    exact ih hstep (fun next hnext => hgap next (List.mem_cons_of_mem op hnext)) htime

/-! A write. -/

theorem loaded_firstWrite (hseq : s.sdpState = .idle ∨ s.sdpState = .sdp0) (loc : BitVec 16)
    (val : BitVec 8) : (s.newPage loc val).loaded =
      Function.update (fun _ => none) (pageOffset loc) (some val) := by
  have hclear : ({ s with sdpState := .idle, pageMask := 0, pageAddr := loc &&& ADDR_PAGE_MASK } :
      At28c256).loaded = fun _ => none := loaded_of_mask_zero rfl
  have hload := @loaded_handlePageWrite
    { s with sdpState := .idle, pageMask := 0, pageAddr := loc &&& ADDR_PAGE_MASK } rfl loc val
  rw [hclear] at hload
  rw [← hload]
  simp only [At28c256.newPage, handlePageWrite, hseq, if_true, true_or]
  rfl

theorem Reading.first (hidle : s.writeState = .idle) (hchip : s.chip = c)
    (hs' : s'.Consistent) (hcase : WriteCase s 0x5555 0xAA s') : Reading c .sdp0 0 s' := by
  cases hcase with
  | sequence =>
    refine ⟨hs', ?_, ?_, ?_, ?_, ?_, ?_⟩
    · simpa [At28c256.track, At28c256.newPage, At28c256.chip] using hchip
    · simp [At28c256.track, At28c256.newPage]
    · simp [At28c256.track, At28c256.newPage]
    · simp [At28c256.track, At28c256.newPage]
    · exact loaded_firstWrite (.inr rfl) _ _
    · simp [At28c256.track, At28c256.newPage]
  | load _ hother => exact absurd ⟨rfl, rfl⟩ hother
  | unlock hstate | toDisable hstate | disable hstate | advance hstate | abort hstate
  | firstByte hstate | otherPage hstate | byte hstate | blocked hstate =>
    simp [hidle] at hstate

/-- A write that goes on with the sequence. -/
theorem Reading.next (h : Reading c q age s) (hvalid : s.Expects loc val) (hs' : s'.Consistent)
    (hcase : WriteCase s loc val s') :
    (q ≠ .sdp1 ∧ q ≠ .dis55 ∧ Reading c (incrSdpState q) 0 s') ∨
    (q = .sdp1 ∧ val = 0xA0 ∧ Opened { c with locked := true } 0 s') ∨
    (q = .sdp1 ∧ val = 0x80 ∧ Reading c .dis80 0 s') ∨
    (q = .dis55 ∧ Opened { c with locked := false } 0 s') := by
  obtain rfl := h.chip
  obtain rfl := h.sequence
  cases hcase with
  | advance hstate hseq hlast =>
    exact .inl ⟨hseq, hlast, hs', rfl, hstate, rfl, h.page, h.bytes, rfl⟩
  | unlock hstate hseq hval =>
    refine .inr (.inl ⟨hseq, hval, hs', rfl, rfl, rfl, loaded_of_mask_zero rfl, rfl, ?_⟩)
    simp [sdpWriteBlocked, At28c256.track]
  | toDisable hstate hseq hval =>
    exact .inr (.inr (.inl ⟨hseq, hval, hs', rfl, hstate, rfl, h.page, h.bytes, rfl⟩))
  | disable hstate hseq =>
    refine .inr (.inr (.inr ⟨hseq, hs', rfl, rfl, rfl, loaded_of_mask_zero rfl, rfl, ?_⟩))
    simp [sdpWriteBlocked, At28c256.track]
  | abort hstate hinvalid => exact absurd hvalid hinvalid
  | sequence hstate | load hstate | firstByte hstate | otherPage hstate | byte hstate
  | blocked hstate => simp [h.state] at hstate

/-- Any other write drops it. -/
theorem Reading.drop (h : Reading c q age s) (hinvalid : ¬s.Expects loc val)
    (hcase : WriteCase s loc val s') : s'.writeState = .idle ∧ s'.chip = c := by
  obtain rfl := h.chip
  cases hcase with
  | abort => exact ⟨rfl, rfl⟩
  | unlock _ hseq hval | toDisable _ hseq hval => simp [At28c256.Expects, hseq, hval] at hinvalid
  | disable _ hseq hvalid => simp [At28c256.Expects, hseq, hvalid] at hinvalid
  | advance _ hseq _ hvalid => simp [At28c256.Expects, hseq, hvalid] at hinvalid
  | sequence hstate | load hstate | firstByte hstate | otherPage hstate | byte hstate
  | blocked hstate => simp [h.state] at hstate

theorem filling_first (hchip : s.chip = c) (hseq : s.sdpState = .idle)
    (hop : op.written = some (loc, val)) (hs' : s'.Consistent)
    (heq : s' = { (s.newPage loc val).track loc val with writeState := .byteLoad }) :
    Filling c (sdpWriteBlocked s) (loc &&& ADDR_PAGE_MASK) [op] 0 s' := by
  have hlast : lastWritten (loc &&& ADDR_PAGE_MASK) [op] =
      Function.update (fun _ => none) (pageOffset loc) (some val) :=
    @lastWritten_load _ [] _ _ _ (pageWrite_of_page hop rfl)
  subst heq
  refine ⟨hs', ?_, rfl, ?_, ?_, ?_, ?_, ?_⟩
  · simpa [At28c256.track, At28c256.newPage, At28c256.chip] using hchip
  · simpa [At28c256.track, At28c256.newPage] using hseq
  · simp [At28c256.track, At28c256.newPage]
  · rw [hlast]
    exact loaded_firstWrite (.inl hseq) loc val
  · simp [At28c256.track, At28c256.newPage]
  · simp [At28c256.track, At28c256.newPage, sdpWriteBlocked]

theorem Filling.write (h : Filling c blocked page past since s) (hop : op.written = some (loc, val))
    (hs' : s'.Consistent) (hcase : WriteCase s loc val s') :
    Filling c blocked page (past ++ [op]) (if (op.pageWrite page).isSome then 0 else since) s' := by
  cases hcase with
  | byte _ hown =>
    have hload := pageWrite_of_page hop (hown.symm.trans h.place)
    rw [hload]
    refine ⟨hs', ?_, ?_, ?_, ?_, ?_, ?_, ?_⟩
    · simpa [At28c256.track, At28c256.chip] using h.chip
    · simpa [At28c256.track] using h.state
    · simpa [At28c256.track] using h.sequence
    · simpa [At28c256.track] using h.place
    · rw [lastWritten_load hload, ← h.bytes]
      exact loaded_handlePageWrite h.sequence loc val
    · simp [At28c256.track]
    · simpa [At28c256.track, sdpWriteBlocked] using h.blocked
  | otherPage _ hother =>
    have hdropped : op.pageWrite page = none :=
      pageWrite_of_other hop fun heq => hother (h.place.trans heq.symm)
    rw [hdropped]
    exact ⟨hs', h.chip, h.state, h.sequence, h.place, by rw [lastWritten_pass hdropped, h.bytes],
      h.since, h.blocked⟩
  | sequence hother | load hother | unlock hother | toDisable hother | disable hother
  | advance hother | abort hother | firstByte hother | blocked hother =>
    simp [h.state] at hother

theorem Filling.step (h : Filling c blocked page past since s)
    (hwindow : since + op.time < T_BLC.toNat) :
    Filling c blocked page (past ++ [op])
      (if (op.pageWrite page).isSome then 0 else since + op.time) (op.step s) := by
  cases hop : op.written with
  | none =>
    rw [pageWrite_of_quiet hop]
    exact h.quiet hop hwindow
  | some write =>
    cases op with
    | write addr val =>
      exact h.write rfl (h.consistent.step (.write addr val)) (at28c256Write_case s addr val)
    | read | tick => exact absurd hop.symm (Option.some_ne_none _)

theorem Filling.run (ops : List At28Op) (h : Filling c blocked page past since s)
    (hwindow : LoadWindow page since ops) :
    ∃ since', Filling c blocked page (past ++ ops) since' (at28Run s ops) := by
  induction ops generalizing past since s with
  | nil =>
    rw [List.append_nil]
    exact ⟨since, h⟩
  | cons op ops ih =>
    have hrun := ih (h.step hwindow.1) hwindow.2
    rw [List.append_assoc] at hrun
    exact hrun

theorem Filling.outcome (h : Filling c blocked page past since s) :
    s.outcome = if blocked then c else c.store page (lastWritten page past) := by
  have hbusy : s.writeState ≠ .idle := by rw [h.state]; decide
  simp only [At28c256.outcome, hbusy, false_or, h.blocked, h.chip, h.place, h.bytes]

theorem Reading.outcome (h : Reading c q age s) :
    s.outcome = c.program (0x5555 &&& ADDR_PAGE_MASK) firstByte := by
  have hbusy : s.writeState ≠ .idle := by rw [h.state]; decide
  have hclosed := h.consistent.locked (.inr h.state)
  have hlocked : sdpWriteBlocked s = c.locked := by
    rw [← h.chip]
    simp [sdpWriteBlocked, At28c256.chip, hclosed]
  simp only [At28c256.outcome, hbusy, false_or, hlocked, h.chip, h.page, h.bytes, Chip.program]

theorem store_none (c : Chip) (page : BitVec 16) : (c.store page fun _ => none) = c := by
  simp [Chip.store]

theorem Opened.outcome (h : Opened c age s) : s.outcome = c := by
  have hbusy : s.writeState ≠ .idle := by rw [h.state]; decide
  simp [At28c256.outcome, hbusy, h.unblocked, h.chip, h.bytes, store_none]

/-! ## Bursts -/

/-- A write of the host, by its place. -/
theorem write_of_written {write : BitVec 16 × BitVec 8} (hop : op.written = some write) (s : At28c256) :
    WriteCase s write.1 write.2 (op.step s) := by
  cases op with
  | write addr val =>
    obtain rfl := Option.some.inj hop
    exact at28c256Write_case s addr val
  | read | tick => exact absurd hop.symm (Option.some_ne_none _)

/-- The last write of a part of a sequence that has others before it. -/
theorem writes_concat {word : List (BitVec 16 × BitVec 8)} {w : BitVec 16 × BitVec 8}
    {third : BitVec 16} (hq : q ≠ .idle) (hne : word ≠ []) (h : word ++ [w] = q.writes third) :
    ∃ p, p ≠ SdpSeq.idle ∧ word = p.writes third ∧
      ((p ≠ .sdp1 ∧ p ≠ .dis55 ∧ w = sdpSeqTable p ∧ q = incrSdpState p) ∨
        (p = .sdp1 ∧ w = (third, 0x80) ∧ q = .dis80)) := by
  have hsplit : ∀ {p : SdpSeq} {v : BitVec 16 × BitVec 8}, q.writes third = p.writes third ++ [v] →
      word = p.writes third ∧ w = v := by
    intro p v heq
    obtain ⟨hword, hw⟩ := List.append_inj' (h.trans heq) rfl
    exact ⟨hword, (List.cons.inj hw).1⟩
  cases q with
  | idle => exact absurd rfl hq
  | sdp0 => exact absurd (@hsplit .idle _ rfl).1 hne
  | sdp1 =>
    obtain ⟨hword, hw⟩ := @hsplit .sdp0 _ rfl
    exact ⟨.sdp0, by decide, hword, .inl ⟨by decide, by decide, hw, rfl⟩⟩
  | dis80 =>
    obtain ⟨hword, hw⟩ := @hsplit .sdp1 _ rfl
    exact ⟨.sdp1, by decide, hword, .inr ⟨rfl, hw, rfl⟩⟩
  | disAA =>
    obtain ⟨hword, hw⟩ := @hsplit .dis80 _ rfl
    exact ⟨.dis80, by decide, hword, .inl ⟨by decide, by decide, hw, rfl⟩⟩
  | dis55 =>
    obtain ⟨hword, hw⟩ := @hsplit .disAA _ rfl
    exact ⟨.disAA, by decide, hword, .inl ⟨by decide, by decide, hw, rfl⟩⟩

theorem spells_ne_nil {word : List (BitVec 16 × BitVec 8)} {es : List At28Op}
    (h : Spells At28Op.written At28Op.time T_BLC.toNat word es) : word ≠ [] := by
  cases h <;> simp

/-- The state after the writes of a part of a sequence. -/
theorem Reading.spells {word : List (BitVec 16 × BitVec 8)} {es : List At28Op} {third : BitVec 16}
    (hs : s.Consistent) (hidle : s.writeState = .idle)
    (h : Spells At28Op.written At28Op.time T_BLC.toNat word es) (hq : q ≠ .idle)
    (hword : word = q.writes third) : Reading s.chip q 0 (at28Run s es) := by
  induction h generalizing q with
  | @one op w hop =>
    have hstart : q = .sdp0 ∧ w = (0x5555, 0xAA) := by
      cases q with
      | idle => exact absurd rfl hq
      | sdp0 => exact ⟨rfl, (List.cons.inj hword).1⟩
      | sdp1 | dis80 | disAA | dis55 => simp [SdpSeq.writes, disableAt] at hword
    obtain ⟨rfl, rfl⟩ := hstart
    exact Reading.first hidle rfl (hs.step op) (write_of_written hop s)
  | @next word es gap op w hspells hgap htime hop ih =>
    obtain ⟨p, hp, hbefore, hlast⟩ := writes_concat hq (spells_ne_nil hspells) hword
    have hgapped := silent_keeps (fun h => h.quiet) (ih hp hbefore) hgap (by rwa [Nat.zero_add])
    have hstep := write_of_written hop (at28Run (at28Run s es) gap)
    have hexpects : (at28Run (at28Run s es) gap).Expects w.1 w.2 := by
      rw [At28c256.Expects, hgapped.sequence]
      rcases hlast with ⟨hno, -, rfl, -⟩ | ⟨rfl, rfl, -⟩
      · rw [if_neg hno]
      · exact .inr rfl
    have hnext := hgapped.next hexpects (hgapped.consistent.step op) hstep
    rw [at28Run_append, at28Run_append]
    show Reading s.chip q 0 (op.step _)
    rcases hlast with ⟨hno, hnot, hw, rfl⟩ | ⟨rfl, rfl, rfl⟩
    · rcases hnext with ⟨-, -, h⟩ | ⟨heq, -⟩ | ⟨heq, -⟩ | ⟨heq, -⟩
      · exact h
      · exact absurd heq hno
      · exact absurd heq hno
      · exact absurd heq hnot
    · rcases hnext with ⟨heq, -⟩ | ⟨-, hval, -⟩ | ⟨-, -, h⟩ | ⟨heq, -⟩
      · exact absurd rfl heq
      · exact absurd hval (show (0x80 : BitVec 8) ≠ 0xA0 by decide)
      · exact h
      · exact absurd heq (by decide)

/-- The last write of a sequence, and the state it is made in. -/
theorem Reading.last {w : BitVec 16 × BitVec 8} {es : List At28Op} {third : BitVec 16}
    (hs : s.Consistent) (hidle : s.writeState = .idle) (hq : q ≠ .idle)
    (h : Spells At28Op.written At28Op.time T_BLC.toNat (q.writes third ++ [w]) es) :
    ∃ t op age, Reading s.chip q age t ∧ WriteCase t w.1 w.2 (op.step t) ∧
      at28Run s es = At28Op.step t op := by
  generalize hword : q.writes third ++ [w] = word at h
  cases h with
  | one hop =>
    obtain ⟨hnil, -⟩ := List.append_inj' (show _ = [] ++ [_] from hword) rfl
    cases q <;> simp [SdpSeq.writes, disableAt] at hq hnil
  | @next word es gap op w' hspells hgap htime hop =>
    obtain ⟨rfl, hw⟩ := List.append_inj' hword rfl
    obtain rfl := (List.cons.inj hw).1
    have hbefore := Reading.spells hs hidle hspells hq rfl
    have hgapped := silent_keeps (fun h => h.quiet) hbefore hgap (by rwa [Nat.zero_add])
    refine ⟨_, op, _, hgapped, write_of_written hop _, ?_⟩
    rw [at28Run_append, at28Run_append]
    rfl

theorem Opened.unlock {es : List At28Op} {third : BitVec 16} (hs : s.Consistent)
    (hidle : s.writeState = .idle)
    (h : Spells At28Op.written At28Op.time T_BLC.toNat (unlockAt third) es) :
    Opened { s.chip with locked := true } 0 (at28Run s es) := by
  obtain ⟨t, op, age, hread, hcase, heq⟩ :=
    @Reading.last _ .sdp1 (third, 0xA0) es third hs hidle (by decide) h
  have hvalid : t.Expects third 0xA0 := by simp [At28c256.Expects, hread.sequence]
  rw [heq]
  rcases hread.next hvalid (hread.consistent.step op) hcase with
    ⟨hne, -⟩ | ⟨-, -, h⟩ | ⟨-, hval, -⟩ | ⟨hne, -⟩
  · exact absurd rfl hne
  · exact h
  · exact absurd hval (by decide)
  · exact absurd hne (by decide)

theorem Opened.disable {es : List At28Op} {third : BitVec 16} (hs : s.Consistent)
    (hidle : s.writeState = .idle)
    (h : Spells At28Op.written At28Op.time T_BLC.toNat (disableAt third) es) :
    Opened { s.chip with locked := false } 0 (at28Run s es) := by
  obtain ⟨t, op, age, hread, hcase, heq⟩ :=
    @Reading.last _ .dis55 (0x5555, 0x20) es third hs hidle (by decide) h
  have hvalid : t.Expects 0x5555 0x20 := by
    simp [At28c256.Expects, hread.sequence, sdpSeqTable]
  rw [heq]
  rcases hread.next hvalid (hread.consistent.step op) hcase with
    ⟨-, hne, -⟩ | ⟨hne, -⟩ | ⟨hne, -⟩ | ⟨-, h⟩
  · exact absurd rfl hne
  · exact absurd hne (by decide)
  · exact absurd hne (by decide)
  · exact h

/-- What is pending after the data behind a sequence. -/
theorem Data.outcome {more : List At28Op} {bytes : Fin at28PageSize → Option (BitVec 8)}
    (hdata : Data more page bytes) (h : Opened c age s) :
    (at28Run s more).outcome = c.store page bytes := by
  cases hdata with
  | none => exact h.outcome.trans (store_none c page).symm
  | @page op ops loc val hop hwindow =>
    have hstep := write_of_written hop s
    have hs' := h.consistent.step op
    have hfirst : op.step s =
        { (s.newPage loc val).track loc val with writeState := .byteLoad } := by
      generalize op.step s = s' at hstep
      cases hstep with
      | firstByte =>
        simp [At28c256.track, At28c256.newPage, handlePageWrite, h.sequence]
      | sequence hother | load hother | unlock hother | toDisable hother | disable hother
      | advance hother | abort hother | otherPage hother | byte hother | blocked hother =>
        simp [h.state] at hother
    have hfill := filling_first h.chip h.sequence hop hs' hfirst
    rw [h.unblocked] at hfill
    obtain ⟨since, hrun⟩ := hfill.run ops hwindow
    exact hrun.outcome

/-- A write that a sequence takes, the writes before it go on to. -/
theorem begins_of_expects {third : BitVec 16} (hq : q ≠ .idle) (hseq : s.sdpState = q)
    (h : s.Expects loc val) : Begins (q.writes third ++ [(loc, val)]) := by
  rw [At28c256.Expects, hseq] at h
  refine ⟨by simp, ?_⟩
  cases q with
  | idle => exact absurd rfl hq
  | sdp1 =>
    rcases h with rfl | rfl
    · exact ⟨loc, .inl ⟨[], rfl⟩⟩
    · exact ⟨loc, .inr ⟨(disableAt loc).drop 3, rfl⟩⟩
  | sdp0 =>
    obtain ⟨rfl, rfl⟩ := Prod.mk.inj h
    exact ⟨third, .inr ⟨(disableAt third).drop 2, rfl⟩⟩
  | dis80 =>
    obtain ⟨rfl, rfl⟩ := Prod.mk.inj h
    exact ⟨third, .inr ⟨(disableAt third).drop 4, rfl⟩⟩
  | disAA =>
    obtain ⟨rfl, rfl⟩ := Prod.mk.inj h
    exact ⟨third, .inr ⟨(disableAt third).drop 5, rfl⟩⟩
  | dis55 =>
    obtain ⟨rfl, rfl⟩ := Prod.mk.inj h
    exact ⟨third, .inr ⟨[], rfl⟩⟩

/-- A write that breaks off a sequence leaves the chip as it was. -/
theorem Broken.idle {ops : List At28Op} (h : Broken ops) (hs : s.Consistent)
    (hidle : s.writeState = .idle) :
    (at28Run s ops).writeState = .idle ∧ (at28Run s ops).chip = s.chip := by
  obtain ⟨hbegins, hpart, ⟨es, gap, rfl, hspells, hgap, htime⟩, hop, hother⟩ := h
  rename_i word op write
  obtain ⟨q, third, hq, rfl⟩ := hbegins.state hpart
  have hread := Reading.spells hs hidle hspells hq rfl
  have hgapped := silent_keeps (fun h => h.quiet) hread hgap (by rwa [Nat.zero_add])
  rw [at28Run_append, at28Run_append]
  exact hgapped.drop (fun h => hother (begins_of_expects hq hgapped.sequence h))
    (write_of_written hop _)

/-- What a burst asks for is pending when its writes are made. -/
theorem Chip.Burst.outcome {c' : Chip} {ops : List At28Op} (h : c.Burst ops c')
    (hs : s.Consistent) (hidle : s.writeState = .idle) (hchip : s.chip = c) :
    (at28Run s ops).outcome = c' := by
  have hseq := hs.sequenceOff (by rw [hidle]; decide)
  induction h generalizing s with
  | @data op ops loc val hop hplain hwindow =>
    have hstep := write_of_written hop s
    have hfirst : op.step s =
        { (s.newPage loc val).track loc val with writeState := .byteLoad } := by
      generalize op.step s = s' at hstep
      cases hstep with
      | load => simp [At28c256.track, At28c256.newPage, handlePageWrite, hseq]
      | sequence _ hloc hval => exact absurd ⟨hloc, hval⟩ hplain
      | unlock hother | toDisable hother | disable hother | advance hother | abort hother
      | firstByte hother | otherPage hother | byte hother | blocked hother => simp [hidle] at hother
    have hlocked : sdpWriteBlocked s = c.locked := by
      rw [← hchip]
      simp [sdpWriteBlocked, At28c256.chip, hs.locked (.inl hidle)]
    obtain ⟨since, hrun⟩ := (filling_first hchip hseq hop (hs.step op) hfirst).run ops hwindow
    rw [hlocked] at hrun
    exact hrun.outcome
  | @lock third page ops more bytes hwrites hdata =>
    obtain ⟨es, gap, rfl, hspells, hgap, htime⟩ := hwrites
    have hopen := silent_keeps (fun h => h.quiet) (Opened.unlock hs hidle hspells) hgap
      (by rwa [Nat.zero_add])
    rw [at28Run_append, at28Run_append, ← hchip]
    exact hdata.outcome hopen
  | @unlock third page ops more bytes hwrites hdata =>
    obtain ⟨es, gap, rfl, hspells, hgap, htime⟩ := hwrites
    have hopen := silent_keeps (fun h => h.quiet) (Opened.disable hs hidle hspells) hgap
      (by rwa [Nat.zero_add])
    rw [at28Run_append, at28Run_append, ← hchip]
    exact hdata.outcome hopen
  | part hbegins hpart hwrites =>
    obtain ⟨es, gap, rfl, hspells, hgap, htime⟩ := hwrites
    obtain ⟨q, third, hq, rfl⟩ := hbegins.state hpart
    have hread := silent_keeps (fun h => h.quiet) (Reading.spells hs hidle hspells hq rfl) hgap
      (by rwa [Nat.zero_add])
    rw [at28Run_append, ← hchip]
    exact hread.outcome
  | broken hbroken =>
    obtain ⟨hdone, hsame⟩ := hbroken.idle hs hidle
    rw [outcome_idle hdone, hsame, hchip]
  | @again ops gap more c' hbroken hgap _ ih =>
    obtain ⟨hdone, hsame⟩ := hbroken.idle hs hidle
    obtain ⟨hout, hleft⟩ := run_quiet (hs.run ops) hgap
    have hzero : (at28Run s ops).toIdle = 0 := by
      simp [At28c256.toIdle, eepromTime, hdone, WriteState.limit]
    rw [hzero, Nat.zero_sub] at hleft
    have hstill := idle_of_toIdle ((hs.run ops).run gap) hleft
    have hrest := (hs.run ops).run gap
    rw [at28Run_append, at28Run_append]
    refine ih hrest hstill ?_ (hrest.sequenceOff (by rw [hstill]; decide))
    rw [← outcome_idle hstill, hout, outcome_idle hdone, hsame, hchip]

end Steps

/-! ## Sessions -/

theorem Chip.Session.run {c c' : Chip} {ops : List At28Op} (h : c.Session ops c') {s : At28c256}
    (hs : s.Consistent) (hidle : s.writeState = .idle) (hchip : s.chip = c) :
    (at28Run s ops).writeState = .idle ∧ (at28Run s ops).chip = c' := by
  induction h generalizing s with
  | rest hquiet =>
    obtain ⟨hout, hleft⟩ := run_quiet hs hquiet
    have hzero : s.toIdle = 0 := by simp [At28c256.toIdle, eepromTime, hidle, WriteState.limit]
    rw [hzero, Nat.zero_sub] at hleft
    have hstill := idle_of_toIdle (hs.run _) hleft
    exact ⟨hstill, by rw [← outcome_idle hstill, hout, outcome_idle hidle, hchip]⟩
  | @burst c c' c'' ops tail more hburst hquiet htime _ ih =>
    have hpending := hburst.outcome hs hidle hchip
    obtain ⟨hdone, hsettled⟩ := run_settles (hs.run ops) hquiet htime
    rw [at28Run_append, at28Run_append]
    exact ih ((hs.run ops).run tail) hdone (hsettled.trans hpending)

/-- From any state in IDLE, for every session: the chip has the cells and the protection that the
bursts ask for, and a read returns its cell and changes nothing. -/
theorem eeprom_session {s : At28c256} (h : At28Reachable s) (hidle : s.writeState = .idle)
    {ops : List At28Op} {c : Chip} (hsession : s.chip.Session ops c) :
    (at28Run s ops).sdpEnabled = c.locked ∧ ∀ addr : BitVec 16,
      at28c256Read (at28Run s ops) addr =
        (c.cells ⟨addr.toNat % at28ImageSize, Nat.mod_lt _ (by decide)⟩, at28Run s ops) := by
  obtain ⟨hdone, rfl⟩ := hsession.run h.consistent hidle rfl
  refine ⟨rfl, fun addr => ?_⟩
  have hloc : (addr &&& IMAGE_MASK).toNat = addr.toNat % at28ImageSize := by
    rw [BitVec.toNat_and]
    exact Nat.and_two_pow_sub_one_eq_mod addr.toNat 15
  unfold at28c256Read
  rw [if_neg fun hbusy => hbusy.1 hdone, hloc]
  simp [At28c256.chip, Vector.get, Array.getD, at28ImageSize, Nat.mod_lt]

/-- The chip is locked with a byte, and a byte that comes without the sequence is not taken. -/
def lockWithByte : List At28Op :=
  [.write 0x5555 0xAA, .write 0x2AAA 0x55, .write 0x5555 0xA0, .write 0x8000 0x42]

def cycleWait : List At28Op := [.tick 150000, .tick 10000000]

def lockedSession : List At28Op :=
  lockWithByte ++ cycleWait ++ ([.write 0 0x99] ++ cycleWait ++ [])

theorem eeprom_session_lockedSession :
    (at28Run (at28c256Init false) lockedSession).sdpEnabled = true ∧
      (at28c256Read (at28Run (at28c256Init false) lockedSession) 0).1 = 0x42 := by
  have hwait : Silent At28Op.written cycleWait ∧
      T_BLC.toNat + T_WC.toNat ≤ elapsed At28Op.time cycleWait :=
    ⟨by simp [Silent, cycleWait, At28Op.written], by decide⟩
  have hnow : elapsed At28Op.time [] < T_BLC.toNat := by decide
  have hone : Spells At28Op.written At28Op.time T_BLC.toNat [(0x5555, 0xAA)]
      [.write 0x5555 0xAA] := .one rfl
  have htwo := hone.next (e := .write 0x2AAA 0x55) (w := (0x2AAA, 0x55)) silent_nil hnow rfl
  have hthree := htwo.next (e := .write 0x5555 0xA0) (w := (0x5555, 0xA0)) silent_nil hnow rfl
  have hlock : (at28c256Init false).chip.Burst lockWithByte _ :=
    .lock ⟨lockWithByte.take 3, [], rfl, hthree, silent_nil, hnow⟩ (.page rfl trivial)
  have hsession : (at28c256Init false).chip.Session lockedSession _ :=
    .burst hlock hwait.1 hwait.2
      (.burst (.data rfl (by decide) trivial) hwait.1 hwait.2 (.rest silent_nil))
  obtain ⟨hlocked, hread⟩ := eeprom_session (.init false) rfl hsession
  refine ⟨hlocked, ?_⟩
  rw [hread]
  rfl

end Cb6502
