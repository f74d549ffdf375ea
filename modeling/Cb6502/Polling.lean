import Cb6502.Lib.Steps
import Cb6502.EepromTime

/- The polling of a write (io/at28c256/src/at28c256.c): reads of the address that was written last,
   until the write cycle ends. `at28c256_write` remembers a write in the write cycle, too, which
   `at28c256_read` then takes for the one that is polled.

   What is proved:
     1. `Remembers.reads` (what the reads return while the last write is remembered).
     2. `blocked_unnoticed_iff` (which blocked writes no later read and no image depends on).
     3. `write_polling_iff` (the polling law holds of a run exactly if the blocked writes of the run
        repeat the write that is remembered). -/
namespace Cb6502

open Steps Timeout

/-! ## The law -/

/-- A write that is taken, into the page or as part of a sequence. -/
def At28c256.Accepts (s : At28c256) (loc : BitVec 16) (val : BitVec 8) : Prop :=
  match s.writeState with
  | .idle | .sdpWriteEn => True
  | .sdp => s.Expects loc val
  | .byteLoad => s.pageAddr = loc &&& ADDR_PAGE_MASK
  | .writeCycle => False

/-- What may come between a write and a read that polls it: reads, ticks, writes to other pages
during the byte load, and writes during the write cycle. -/
def At28Op.Between (s : At28c256) : At28Op → Prop
  | .read _ | .tick _ => True
  | .write addr _ => s.writeState = .writeCycle ∨
      s.writeState = .byteLoad ∧ s.pageAddr ≠ addr &&& IMAGE_MASK &&& ADDR_PAGE_MASK

/-- A run up to the end of the write cycle, with no more writes taken. -/
def Awaits : At28c256 → List At28Op → Prop :=
  Each At28Op.step fun s op => s.writeState ≠ .idle ∧ op.Between s

/-- What the reads of the location return. -/
def polled (loc : BitVec 16) : At28c256 → List At28Op → List (BitVec 8)
  | _, [] => []
  | s, .read addr :: ops =>
    if addr = loc then (at28c256Read s addr).1 :: polled loc (at28c256Read s addr).2 ops
    else polled loc (at28c256Read s addr).2 ops
  | s, op :: ops => polled loc (op.step s) ops

/-- Bit 6 is inverted from one read to the next. -/
def Toggled (b c : BitVec 8) : Prop := c.getLsbD 6 = !b.getLsbD 6

/-- Bit 7 is the complement of the value's, and bit 6 is inverted by each read. -/
structure PollsTo (val : BitVec 8) (values : List (BitVec 8)) : Prop where
  complement : ∀ b ∈ values, b.getLsbD 7 = !val.getLsbD 7
  toggle : values.IsChain Toggled

/-- No later read, and no image, depends on whether the operation was made. -/
def Unnoticed (s : At28c256) (op : At28Op) : Prop :=
  ∀ later, at28Observed (op.step s) later = at28Observed s later ∧
    (at28Run (op.step s) later).image = (at28Run s later).image

/-- What holds of each write of the run in the write cycle. -/
def EachBlocked (P : At28c256 → BitVec 16 → BitVec 8 → Prop) : At28c256 → List At28Op → Prop :=
  Each At28Op.step fun s op =>
    ∀ addr val, op = .write addr val → s.writeState = .writeCycle → P s addr val

/-- The write changes nothing that can be seen. -/
def BlockedUnnoticed (s : At28c256) (addr : BitVec 16) (val : BitVec 8) : Prop :=
  Unnoticed s (.write addr val)

/-- The write is the one that is remembered. -/
def RepeatsLast (s : At28c256) (addr : BitVec 16) (val : BitVec 8) : Prop :=
  addr &&& IMAGE_MASK = s.lastWriteAddr ∧ val = s.lastWrite

section Law
variable {s s' : At28c256} {loc addr : BitVec 16} {val : BitVec 8} {ops : List At28Op}

/-! ## The write that is remembered -/

/-- The location that is polled, and the value up to the bit that reads toggle. -/
structure Remembers (loc : BitVec 16) (val : BitVec 8) (s : At28c256) : Prop where
  addr : s.lastWriteAddr = loc
  poll : s.lastWrite.getLsbD 7 = val.getLsbD 7

/-- A round of time leaves the remembered write alone. -/
theorem tickRound_lastWrite (s : At28c256) (nanos : BitVec 32) :
    (tickRound s nanos).1.lastWriteAddr = s.lastWriteAddr ∧
      (tickRound s nanos).1.lastWrite = s.lastWrite := by
  have hcase := tickRound_case s nanos
  generalize tickRound s nanos = result at hcase ⊢
  cases hcase with
  | idle | loading | loaded | writing | written => exact ⟨rfl, rfl⟩

theorem at28c256Tick_lastWrite (s : At28c256) (nanos : BitVec 32) :
    (at28c256Tick s nanos).lastWriteAddr = s.lastWriteAddr ∧
      (at28c256Tick s nanos).lastWrite = s.lastWrite := by
  refine at28c256Tick_keeps (P := fun t => t.lastWriteAddr = s.lastWriteAddr ∧
    t.lastWrite = s.lastWrite) ?_ ⟨rfl, rfl⟩ nanos
  intro t nanos ht
  obtain ⟨haddr, hval⟩ := tickRound_lastWrite t nanos
  exact ⟨haddr.trans ht.1, hval.trans ht.2⟩

/-- After a read that polls. -/
def At28c256.strobe (s : At28c256) : At28c256 :=
  { s with lastWrite := s.lastWrite ^^^ STROBE_BIT }

theorem read_polling (hstate : s.writeState ≠ .idle) (h : s.lastWriteAddr = loc) :
    at28c256Read s loc = (s.strobe.lastWrite ^^^ POLL_BIT, s.strobe) := by
  unfold at28c256Read
  exact if_pos ⟨hstate, h.symm⟩

theorem read_elsewhere (h : s.writeState = .idle ∨ addr ≠ s.lastWriteAddr) :
    at28c256Read s addr = (s.image.toArray.getD (addr &&& IMAGE_MASK).toNat 0, s) := by
  unfold at28c256Read
  apply if_neg
  rintro ⟨hstate, haddr⟩
  exact h.elim hstate fun hother => hother haddr

theorem poll_bits (w : BitVec 8) :
    (w ^^^ POLL_BIT).getLsbD 7 = !w.getLsbD 7 ∧ (w ^^^ POLL_BIT).getLsbD 6 = w.getLsbD 6 := by
  simp [POLL_BIT]

theorem strobe_bits (s : At28c256) : s.strobe.lastWrite.getLsbD 7 = s.lastWrite.getLsbD 7 ∧
    s.strobe.lastWrite.getLsbD 6 = !s.lastWrite.getLsbD 6 := by
  simp [At28c256.strobe, STROBE_BIT]

theorem blocked_step (hstate : s.writeState = .writeCycle) :
    at28c256Write s addr val = s.track (addr &&& IMAGE_MASK) val := by
  unfold at28c256Write
  rw [hstate]
  rfl

/-- A blocked write that repeats the one remembered is no write at all. -/
theorem RepeatsLast.step (h : RepeatsLast s addr val) (hstate : s.writeState = .writeCycle) :
    at28c256Write s addr val = s := by
  rw [blocked_step hstate, At28c256.track, h.1, h.2]

theorem otherPage_step (hstate : s.writeState = .byteLoad)
    (hpage : s.pageAddr ≠ addr &&& IMAGE_MASK &&& ADDR_PAGE_MASK) :
    at28c256Write s addr val = s := by
  have hcase := at28c256Write_case s addr val
  generalize at28c256Write s addr val = t at hcase ⊢
  cases hcase with
  | otherPage => rfl
  | byte _ hown => exact absurd hown hpage
  | sequence hother | load hother | unlock hother | toDisable hother | disable hother
  | advance hother | abort hother | firstByte hother | blocked hother =>
    rw [hstate] at hother
    exact WriteState.noConfusion hother

/-- Any operation but a read of the location, with the blocked writes as they should be. -/
theorem At28Op.Between.lastWrite {op : At28Op} (hop : op.Between s)
    (hrepeats : ∀ addr val, op = .write addr val → s.writeState = .writeCycle →
      RepeatsLast s addr val) (hread : op ≠ .read s.lastWriteAddr) :
    (op.step s).lastWriteAddr = s.lastWriteAddr ∧ (op.step s).lastWrite = s.lastWrite := by
  cases op with
  | read addr =>
    have hother : addr ≠ s.lastWriteAddr := fun heq => hread (by rw [heq])
    rw [At28Op.step, read_elsewhere (.inr hother)]
    exact ⟨rfl, rfl⟩
  | tick nanos => exact at28c256Tick_lastWrite s nanos
  | write addr val =>
    have hsame : at28c256Write s addr val = s := by
      rcases hop with hcycle | ⟨hload, hpage⟩
      · exact (hrepeats addr val rfl hcycle).step hcycle
      · exact otherPage_step hload hpage
    rw [At28Op.step, hsame]
    exact ⟨rfl, rfl⟩

/-- Bit 6 of what was read last is that of the byte which is remembered. -/
theorem Remembers.reads (h : Remembers loc val s) (hops : Awaits s ops)
    (hrepeats : EachBlocked RepeatsLast s ops) {b : BitVec 8} (hb : b.getLsbD 6 = s.lastWrite.getLsbD 6) :
    (∀ c ∈ polled loc s ops, c.getLsbD 7 = !val.getLsbD 7) ∧
      (b :: polled loc s ops).IsChain Toggled := by
  induction ops generalizing s b with
  | nil => exact ⟨List.forall_mem_nil _, .singleton b⟩
  | cons op ops ih =>
    obtain ⟨⟨hstate, hbetween⟩, hrest⟩ := hops
    have hpass : op ≠ .read loc → (∀ c ∈ polled loc (op.step s) ops,
        c.getLsbD 7 = !val.getLsbD 7) ∧ (b :: polled loc (op.step s) ops).IsChain Toggled := by
      intro hread
      obtain ⟨haddr, hlast⟩ := At28Op.Between.lastWrite hbetween hrepeats.1 (by rw [h.addr]; exact hread)
      exact ih ⟨haddr.trans h.addr, hlast ▸ h.poll⟩ hrest hrepeats.2 (hlast ▸ hb)
    cases op with
    | write addr val => exact hpass At28Op.noConfusion
    | tick nanos => exact hpass At28Op.noConfusion
    | read addr =>
      rw [polled]
      split
      · rename_i haddr
        subst haddr
        obtain ⟨hread7, hread6⟩ := poll_bits s.strobe.lastWrite
        obtain ⟨hkept7, htoggled6⟩ := strobe_bits s
        have hnext := read_polling hstate h.addr
        have hrepeated := hrepeats.2
        simp only [At28Op.step, hnext] at hrest hrepeated ⊢
        have hremembers : Remembers addr val s.strobe := ⟨h.addr, hkept7.trans h.poll⟩
        obtain ⟨hvalues, hchain⟩ := ih hremembers hrest hrepeated hread6
        refine ⟨List.forall_mem_cons.mpr ⟨?_, hvalues⟩, .cons_cons ?_ hchain⟩
        · rw [hread7, hkept7, h.poll]
        · rw [Toggled, hread6, htoggled6, hb]
      · rename_i haddr
        exact hpass fun heq => haddr (At28Op.read.inj heq)

/-! ## The blocked writes -/

theorem observed_polling (hstate : s.writeState ≠ .idle) (h : s.lastWriteAddr = loc) :
    at28Observed s [.read loc, .read loc] =
      [some (s.strobe.lastWrite ^^^ POLL_BIT), some (s.strobe.strobe.lastWrite ^^^ POLL_BIT)] := by
  have hnext := read_polling (s := s.strobe) hstate h
  simp only [at28Observed, At28Op.returned, At28Op.step, read_polling hstate h, hnext]

theorem observed_elsewhere (h : loc ≠ s.lastWriteAddr) :
    at28Observed s [.read loc, .read loc] =
      [some (s.image.toArray.getD (loc &&& IMAGE_MASK).toNat 0),
        some (s.image.toArray.getD (loc &&& IMAGE_MASK).toNat 0)] := by
  simp only [at28Observed, At28Op.returned, At28Op.step, read_elsewhere (.inr h)]

/-- Two reads of the location tell a blocked write, unless it repeats the one remembered. -/
theorem blocked_unnoticed_iff (hstate : s.writeState = .writeCycle) :
    BlockedUnnoticed s addr val ↔ RepeatsLast s addr val := by
  have hbusy : s.writeState ≠ .idle := by rw [hstate]; exact WriteState.noConfusion
  constructor
  · intro h
    have hreads := (h [.read (addr &&& IMAGE_MASK), .read (addr &&& IMAGE_MASK)]).1
    have hstep : (At28Op.write addr val).step s = s.track (addr &&& IMAGE_MASK) val :=
      blocked_step hstate
    rw [hstep] at hreads
    have htracked : (s.track (addr &&& IMAGE_MASK) val).writeState ≠ .idle := hbusy
    have haddrs : (s.track (addr &&& IMAGE_MASK) val).lastWriteAddr = addr &&& IMAGE_MASK := rfl
    rw [observed_polling htracked haddrs] at hreads
    by_cases haddr : addr &&& IMAGE_MASK = s.lastWriteAddr
    · rw [observed_polling hbusy haddr.symm] at hreads
      have hvalue := Option.some.inj (List.cons.inj hreads).1
      exact ⟨haddr, by simpa [At28c256.strobe, At28c256.track] using hvalue⟩
    · -- the image does not toggle
      rw [observed_elsewhere haddr] at hreads
      obtain ⟨hfirst, hrest⟩ := List.cons.inj hreads
      have hsame := Option.some.inj (hfirst.trans (List.cons.inj hrest).1.symm)
      have hbit := congrArg (BitVec.getLsbD · 6) hsame
      simp only [(poll_bits _).2, (strobe_bits _).2, Bool.not_not] at hbit
      exact ((Bool.not_eq_self _).mp hbit).elim
  · intro h later
    have hsame : (At28Op.write addr val).step s = s := h.step hstate
    rw [hsame]
    exact ⟨rfl, rfl⟩

theorem eachBlocked_iff {P Q : At28c256 → BitVec 16 → BitVec 8 → Prop}
    (h : ∀ s addr val, s.writeState = .writeCycle → (P s addr val ↔ Q s addr val)) :
    EachBlocked P s ops ↔ EachBlocked Q s ops := by
  apply each_iff (I := fun _ => True)
  · intro s op _
    exact forall₂_congr fun addr val => forall₂_congr fun _ hstate => h s addr val hstate
  · exact fun _ _ _ _ => trivial
  · trivial

/-- The write that is polled. -/
theorem Accepts.remembers (h : s.Accepts (addr &&& IMAGE_MASK) val) :
    Remembers (addr &&& IMAGE_MASK) val (at28c256Write s addr val) := by
  have hcase := at28c256Write_case s addr val
  generalize at28c256Write s addr val = t at hcase ⊢
  unfold At28c256.Accepts at h
  cases hcase with
  | sequence | load | unlock | toDisable | disable | advance | firstByte | byte => exact ⟨rfl, rfl⟩
  | abort hstate hinvalid =>
    rw [hstate] at h
    exact absurd h hinvalid
  | otherPage hstate hpage =>
    rw [hstate] at h
    exact absurd h hpage
  | blocked hstate =>
    rw [hstate] at h
    exact h.elim

end Law

/-- From a write that is taken up to the end of the write cycle, reads of its address poll it and
blocked writes go unnoticed, exactly if each blocked write repeats the write that is remembered. -/
theorem write_polling_iff {s : At28c256} {loc : BitVec 16} {val : BitVec 8} {ops : List At28Op}
    (hloc : loc.toNat < at28ImageSize) (htaken : s.Accepts loc val)
    (hops : Awaits (at28c256Write s loc val) ops) :
    (PollsTo val (polled loc (at28c256Write s loc val) ops) ∧
      EachBlocked BlockedUnnoticed (at28c256Write s loc val) ops) ↔
    EachBlocked RepeatsLast (at28c256Write s loc val) ops := by
  have hself : loc &&& IMAGE_MASK = loc := by
    have hmask : (loc &&& IMAGE_MASK).toNat = loc.toNat % 0x8000 := by
      rw [BitVec.toNat_and]
      exact Nat.and_two_pow_sub_one_eq_mod loc.toNat 15
    apply BitVec.eq_of_toNat_eq
    rw [hmask]
    exact Nat.mod_eq_of_lt hloc
  rw [eachBlocked_iff fun _ _ _ hstate => blocked_unnoticed_iff hstate, and_iff_right_iff_imp]
  intro hrepeats
  have hstart : Remembers loc val (at28c256Write s loc val) := by
    have hremembers : Remembers (loc &&& IMAGE_MASK) val (at28c256Write s loc val) :=
      Accepts.remembers (by rwa [hself])
    rwa [hself] at hremembers
  obtain ⟨hvalues, hchain⟩ := hstart.reads hops hrepeats rfl
  exact ⟨hvalues, hchain.of_cons⟩

/-- A byte that is polled, and written again as it is remembered then. -/
def repeatedWrite : List At28Op :=
  [.read 0x1000, .write 0x2000 0x22, .tick 150000, .write 0x9000 0x51, .read 0x1000]

theorem write_polling_iff_repeatedWrite :
    PollsTo 0x11 (polled 0x1000 (at28c256Write (at28c256Init false) 0x1000 0x11) repeatedWrite) ∧
      EachBlocked BlockedUnnoticed (at28c256Write (at28c256Init false) 0x1000 0x11)
        repeatedWrite := by
  have htaken : (at28c256Init false).Accepts 0x1000 0x11 := trivial
  refine (write_polling_iff (by decide) htaken ?_).mpr ?_
  · refine ⟨⟨?_, trivial⟩, ⟨?_, .inr ⟨?_, ?_⟩⟩, ⟨?_, trivial⟩, ⟨?_, .inl ?_⟩, ⟨?_, trivial⟩, trivial⟩ <;>
      decide
  · refine ⟨?_, ?_, ?_, ?_, ?_, trivial⟩
    · exact fun _ _ hop => At28Op.noConfusion hop
    · exact fun _ _ _ hcycle => absurd hcycle (by decide)
    · exact fun _ _ hop => At28Op.noConfusion hop
    · rintro _ _ ⟨⟩ -
      exact ⟨by decide, by decide⟩
    · exact fun _ _ hop => At28Op.noConfusion hop

/-- A byte, and another that is written while its write cycle goes on. -/
def blockedWrite : List At28Op := [.tick 150000, .write 0x1001 0x22, .read 0x1000]

theorem blockedWrite_cycle : at28c256Tick (at28c256Write (at28c256Init false) 0x1000 0x11) 150000 =
    (at28c256Write (at28c256Init false) 0x1000 0x11).startCycle := by
  have hs := (At28Reachable.init false).consistent.step (.write 0x1000 0x11)
  have hcycle : (at28c256Write (at28c256Init false) 0x1000 0x11).startCycle.Consistent :=
    consistent_cycle rfl (by decide) (by decide) (by decide)
  have hpasses : Passes eepromTime (at28c256Write (at28c256Init false) 0x1000 0x11) 150000 _ :=
    .expire (t := 150000) (by decide) (Nat.le_refl _)
      (Passes.none eepromTime_lawful hcycle.left_ne_zero)
  exact (at28c256Tick_passes hs 150000).unique hpasses

/-- The write cycle is not over, and a read returns the byte that the image still has. -/
theorem blockedWrite_ends_polling :
    (at28c256Init false).Accepts 0x1000 0x11 ∧
      Awaits (at28c256Write (at28c256Init false) 0x1000 0x11) blockedWrite ∧
      ¬PollsTo 0x11
        (polled 0x1000 (at28c256Write (at28c256Init false) 0x1000 0x11) blockedWrite) := by
  refine ⟨trivial, ?_, ?_⟩
  · refine ⟨⟨?_, trivial⟩, ⟨?_, .inl ?_⟩, ⟨?_, trivial⟩, trivial⟩ <;> decide
  · intro h
    have hblocked := @blocked_step (at28c256Write (at28c256Init false) 0x1000 0x11).startCycle
      0x1001 0x22 rfl
    have hzero (i : Nat) : (at28c256Init false).image.toArray.getD i 0 = 0 := by
      simp only [at28c256Init, Vector.toArray_replicate, Array.getD_eq_getD_getElem?,
        Array.getElem?_replicate]
      split <;> rfl
    have himage (loc : BitVec 16) (val : BitVec 8) :
        ((at28c256Write (at28c256Init false) 0x1000 0x11).startCycle.track loc val).image =
          (at28c256Init false).image := by
      simp [at28c256Write, at28c256Init, At28c256.startCycle, At28c256.track]
    have hread : (0 : BitVec 8) ∈
        polled 0x1000 (at28c256Write (at28c256Init false) 0x1000 0x11) blockedWrite := by
      simp only [polled, blockedWrite, At28Op.step, blockedWrite_cycle, hblocked, if_true]
      rw [read_elsewhere (.inr (by decide)), List.mem_singleton]
      simp only [himage, hzero]
    exact absurd (h.complement 0 hread) (by decide)

end Cb6502
