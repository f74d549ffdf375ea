import Cb6502.Protection
import Mathlib.Algebra.GroupWithZero.Nat
import Mathlib.Logic.Function.Basic

/- A page write of the EEPROM (io/at28c256/src/at28c256.c): the page buffer and its mask, the two
   timeouts, and the loop that writes the buffer to the image.

   What is proved:
     1. `get_commitPage` (each byte of the image after the loop).
     2. `Aged.step`, `Aged.quiet` (what the page buffer holds, and how old it is, after each
        operation).
     3. `page_write_commits` (the last value of each byte that was loaded is in the image, and
        no other byte has changed). -/
namespace Cb6502

/-! ## What is loaded -/

/-- The offset and the value of a write to the page. -/
def At28Op.pageWrite (page : BitVec 16) (op : At28Op) : Option (Fin at28PageSize × BitVec 8) :=
  match op.written with
  | some (loc, val) => if loc &&& ADDR_PAGE_MASK = page then some (pageOffset loc, val) else none
  | none => none

/-- The last value that the run writes to the offset of the page. -/
def lastWritten (page : BitVec 16) (ops : List At28Op) (offset : Fin at28PageSize) :
    Option (BitVec 8) :=
  (ops.filterMap (At28Op.pageWrite page)).reverse.lookup offset

/-- From one write to the page to the next there is less than `T_BLC`, of which the given time
has passed. -/
def LoadWindow (page : BitVec 16) : Nat → List At28Op → Prop
  | _, [] => True
  | since, op :: ops => since + op.time < T_BLC.toNat ∧
      LoadWindow page (if (op.pageWrite page).isSome then 0 else since + op.time) ops

/-- The byte of the page buffer at the offset, if its bit of the mask is set. -/
def At28c256.loaded (s : At28c256) (offset : Fin at28PageSize) : Option (BitVec 8) :=
  if s.pageMask &&& (1#64 <<< offset.val) ≠ 0 then some (s.pageBuffer.get offset) else none

section Loaded
variable {s : At28c256} {page : BitVec 16} {past : List At28Op} {op : At28Op}

theorem lastWritten_load {offset : Fin at28PageSize} {val : BitVec 8}
    (h : op.pageWrite page = some (offset, val)) :
    lastWritten page (past ++ [op]) = Function.update (lastWritten page past) offset (some val) := by
  funext j
  simp only [lastWritten, List.filterMap_append, List.filterMap_cons_some h, List.filterMap_nil,
    List.reverse_append, List.reverse_singleton, List.singleton_append, List.lookup_cons]
  by_cases hj : j = offset
  · rw [hj, beq_self_eq_true, Function.update_self]
  · rw [beq_false_of_ne hj, Function.update_of_ne hj]
    rfl

theorem lastWritten_pass (h : op.pageWrite page = none) :
    lastWritten page (past ++ [op]) = lastWritten page past := by
  funext j
  simp only [lastWritten, List.filterMap_append, List.filterMap_cons_none h, List.filterMap_nil,
    List.append_nil]

theorem vector_get {α : Type} {n : Nat} (xs : Vector α n) (i : Fin n) :
    xs.get i = xs[i.val] :=
  rfl

theorem maskBit_iff (mask : BitVec 64) (offset : Fin at28PageSize) :
    mask &&& (1#64 <<< offset.val) ≠ 0 ↔ mask.getLsbD offset.val = true := by
  have hbit : BitVec.twoPow 64 offset.val ≠ 0 := by
    have hlt : offset.val < 64 := offset.isLt
    rw [Ne, ← BitVec.toNat_inj, BitVec.toNat_twoPow_of_lt hlt]
    exact Nat.ne_of_gt (Nat.two_pow_pos _)
  rw [← BitVec.twoPow_eq, BitVec.and_twoPow]
  cases mask.getLsbD offset.val with
  | false => simp
  | true => simpa using hbit

theorem loaded_of_mask_zero (h : s.pageMask = 0) : s.loaded = fun _ => none := by
  funext j
  have hclear : ¬s.pageMask &&& (1#64 <<< j.val) ≠ 0 := by simp [h]
  exact if_neg hclear

/-- A write that is taken is the byte at its offset, whatever was there. -/
theorem loaded_handlePageWrite (h : s.sdpState = .idle) (loc : BitVec 16) (val : BitVec 8) :
    (handlePageWrite s loc val).loaded =
      Function.update s.loaded (pageOffset loc) (some val) := by
  have hwrite : handlePageWrite s loc val =
      { s with
        stateElapsed := 0
        pageMask := s.pageMask ||| (1#64 <<< (pageOffset loc).val)
        pageBuffer := s.pageBuffer.set (pageOffset loc).val val (pageOffset loc).isLt } := by
    unfold handlePageWrite
    exact if_pos (.inl h)
  rw [hwrite]
  funext j
  have hlt : (pageOffset loc).val < 64 := (pageOffset loc).isLt
  have hmask : (s.pageMask ||| (1#64 <<< (pageOffset loc).val)).getLsbD j.val =
      (s.pageMask.getLsbD j.val || decide ((pageOffset loc).val = j.val)) := by
    rw [← BitVec.twoPow_eq, BitVec.getLsbD_or, BitVec.getLsbD_twoPow, decide_eq_true hlt,
      Bool.true_and]
  simp only [At28c256.loaded, maskBit_iff, hmask, vector_get]
  by_cases hj : j = pageOffset loc
  · rw [hj, Function.update_self, decide_eq_true rfl, Bool.or_true, if_pos rfl,
      Vector.getElem_set_self]
  · have hne : (pageOffset loc).val ≠ j.val := fun heq => hj (Fin.ext heq.symm)
    rw [Function.update_of_ne hj, decide_eq_false hne, Bool.or_false, Vector.getElem_set_ne _ _ hne]
    simp only [At28c256.loaded, maskBit_iff, vector_get]

end Loaded

/-! ## The loop that writes the buffer -/

section Commit
variable {s : At28c256} {page : BitVec 16}

theorem pageOffset_toNat (loc : BitVec 16) : (pageOffset loc).val = loc.toNat % 64 := by
  show (loc &&& ADDR_BYTE_MASK).toNat = _
  rw [BitVec.toNat_and]
  exact Nat.and_two_pow_sub_one_eq_mod loc.toNat 6

/-- A location in the image is the address of its page and its offset. -/
theorem page_add_offset (loc : BitVec 16) :
    (loc &&& ADDR_PAGE_MASK).toNat + loc.toNat % 64 = loc.toNat % 0x8000 := by
  have hsum : (loc &&& ADDR_PAGE_MASK) + (loc &&& ADDR_BYTE_MASK) = loc &&& IMAGE_MASK := by
    have hapart : (loc &&& ADDR_PAGE_MASK) &&& (loc &&& ADDR_BYTE_MASK) = 0 := by
      calc (loc &&& ADDR_PAGE_MASK) &&& (loc &&& ADDR_BYTE_MASK)
          = (loc &&& loc) &&& (ADDR_PAGE_MASK &&& ADDR_BYTE_MASK) := by ac_rfl
        _ = 0 := by rw [show ADDR_PAGE_MASK &&& ADDR_BYTE_MASK = 0#16 from rfl]; simp
    rw [BitVec.add_eq_or_of_and_eq_zero _ _ hapart, ← BitVec.and_or_distrib_left]
    rfl
  have hpage : (loc &&& ADDR_PAGE_MASK).toNat ≤ 0x7FC0 := by
    rw [BitVec.toNat_and]
    exact Nat.and_le_right
  have himage : (loc &&& IMAGE_MASK).toNat = loc.toNat % 0x8000 := by
    rw [BitVec.toNat_and]
    exact Nat.and_two_pow_sub_one_eq_mod loc.toNat 15
  have hoffset : (loc &&& ADDR_BYTE_MASK).toNat = loc.toNat % 64 := pageOffset_toNat loc
  have hnat := congrArg BitVec.toNat hsum
  rw [BitVec.toNat_add, himage, hoffset] at hnat
  omega

/-- The place of a byte of the page, in the image. -/
theorem pagePlace_iff (hpage : page &&& ADDR_PAGE_MASK = page) (i : Fin at28ImageSize)
    (offset : Fin at28PageSize) : page.toNat + offset.val = i.val ↔
      BitVec.ofNat 16 i.val &&& ADDR_PAGE_MASK = page ∧
        pageOffset (BitVec.ofNat 16 i.val) = offset := by
  have hi : i.val < 0x8000 := i.isLt
  have hoffset : offset.val < 64 := offset.isLt
  have hloc : (BitVec.ofNat 16 i.val).toNat = i.val := by
    rw [BitVec.toNat_ofNat]
    omega
  have hself := page_add_offset page
  have hsplit := page_add_offset (BitVec.ofNat 16 i.val)
  rw [hpage] at hself
  rw [hloc] at hsplit
  rw [Fin.ext_iff, pageOffset_toNat, hloc, ← BitVec.toNat_inj]
  omega

/-- One byte of the image, after some rounds of the loop. -/
theorem get_commitBytes (hpage : s.pageAddr &&& ADDR_PAGE_MASK = s.pageAddr)
    (offsets : List (Fin at28PageSize)) (image : Vector (BitVec 8) at28ImageSize)
    (i : Fin at28ImageSize) :
    (offsets.foldl (commitByte s) image).get i =
      if BitVec.ofNat 16 i.val &&& ADDR_PAGE_MASK = s.pageAddr ∧
          offsets.contains (pageOffset (BitVec.ofNat 16 i.val)) then
        (s.loaded (pageOffset (BitVec.ofNat 16 i.val))).getD (image.get i)
      else image.get i := by
  induction offsets generalizing image with
  | nil => simp
  | cons offset offsets ih =>
    have hbyte : (commitByte s image offset).get i =
        if BitVec.ofNat 16 i.val &&& ADDR_PAGE_MASK = s.pageAddr ∧
            pageOffset (BitVec.ofNat 16 i.val) = offset then
          (s.loaded offset).getD (image.get i)
        else image.get i := by
      simp only [← pagePlace_iff hpage, commitByte, At28c256.loaded, vector_get]
      split
      · rw [Vector.getElem_setIfInBounds]
        rfl
      · simp
    rw [List.foldl_cons, ih, hbyte]
    by_cases hown : BitVec.ofNat 16 i.val &&& ADDR_PAGE_MASK = s.pageAddr
    · by_cases hthis : pageOffset (BitVec.ofNat 16 i.val) = offset
      · -- a round that comes again writes the same byte
        cases hloaded : s.loaded offset <;> simp [hown, hthis, hloaded]
      · simp [hown, hthis]
    · simp [hown]

theorem get_commitPage (hpage : s.pageAddr &&& ADDR_PAGE_MASK = s.pageAddr)
    (i : Fin at28ImageSize) :
    (commitPage s).get i =
      if BitVec.ofNat 16 i.val &&& ADDR_PAGE_MASK = s.pageAddr then
        (s.loaded (pageOffset (BitVec.ofNat 16 i.val))).getD (s.image.get i)
      else s.image.get i := by
  unfold commitPage
  rw [get_commitBytes hpage]
  simp only [List.contains_eq_mem, List.mem_finRange, decide_true, and_true]

end Commit

/-! ## From the last write to the end of the write cycle -/

/-- A page load with the protection open: the bytes of the page that are loaded, over an image that
is still the one given. -/
structure PageLoaded (image : Vector (BitVec 8) at28ImageSize) (page : BitVec 16)
    (bytes : Fin at28PageSize → Option (BitVec 8)) (s : At28c256) : Prop where
  image : s.image = image
  unblocked : sdpWriteBlocked s = false
  sequence : s.sdpState = .idle
  page : s.pageAddr = page
  bytes : s.loaded = bytes

/-- The bytes are in the image, and no other byte has changed. -/
def PageWritten (image : Vector (BitVec 8) at28ImageSize) (page : BitVec 16)
    (bytes : Fin at28PageSize → Option (BitVec 8)) (s : At28c256) : Prop :=
  ∀ i : Fin at28ImageSize, s.image.get i =
    if BitVec.ofNat 16 i.val &&& ADDR_PAGE_MASK = page then
      (bytes (pageOffset (BitVec.ofNat 16 i.val))).getD (image.get i)
    else image.get i

/-- The states of a page write, by the time since its last byte was loaded. -/
inductive Aged (image : Vector (BitVec 8) at28ImageSize) (page : BitVec 16)
    (bytes : Fin at28PageSize → Option (BitVec 8)) : Nat → At28c256 → Prop where
  | loading {age : Nat} {s : At28c256} (h : PageLoaded image page bytes s)
      (hstate : s.writeState = .byteLoad) (hage : age < T_BLC.toNat)
      (helapsed : s.stateElapsed.toNat = age) : Aged image page bytes age s
  | writing {age : Nat} {s : At28c256} (h : PageLoaded image page bytes s)
      (hstate : s.writeState = .writeCycle) (hage : s.stateElapsed.toNat < T_WC.toNat)
      (helapsed : T_BLC.toNat + s.stateElapsed.toNat = age) : Aged image page bytes age s
  | written {age : Nat} {s : At28c256} (h : PageWritten image page bytes s)
      (hstate : s.writeState = .idle) (hage : T_BLC.toNat + T_WC.toNat ≤ age) :
      Aged image page bytes age s

section Age
variable {image : Vector (BitVec 8) at28ImageSize} {page : BitVec 16}
  {bytes : Fin at28PageSize → Option (BitVec 8)} {s s' : At28c256} {age : Nat}

/-- One more byte, whatever its place held before. -/
theorem PageLoaded.load (h : PageLoaded image page bytes s) (hstate : s.writeState = .byteLoad)
    (loc : BitVec 16) (val : BitVec 8) :
    Aged image page (Function.update bytes (pageOffset loc) (some val)) 0
      ((handlePageWrite s loc val).track loc val) := by
  have hnow : 0 < T_BLC.toNat := by decide
  refine .loading ⟨?_, ?_, ?_, ?_, ?_⟩ ?_ hnow ?_
  · simp [At28c256.track, h.image]
  · simpa [At28c256.track, sdpWriteBlocked] using h.unblocked
  · simp [At28c256.track, h.sequence]
  · simp [At28c256.track, h.page]
  · rw [← h.bytes]
    exact loaded_handlePageWrite h.sequence loc val
  · simp [At28c256.track, hstate]
  · simp [At28c256.track]

theorem elapsedWith_toNat (limit : BitVec 64) (hlimit : limit.toNat < 2 ^ 32)
    (h : s.stateElapsed.toNat < limit.toNat) (nanos : BitVec 32) :
    (s.elapsedWith nanos).toNat = s.stateElapsed.toNat + nanos.toNat := by
  have hsmall := Nat.lt_trans h hlimit
  unfold At28c256.elapsedWith
  rw [BitVec.toNat_add, BitVec.toNat_setWidth]
  omega

/-- The time that is left when a round has waited for the limit. -/
theorem left_toNat (limit : BitVec 64) (h : s.stateElapsed.toNat < limit.toNat)
    (nanos : BitVec 32) (hover : limit.toNat ≤ s.stateElapsed.toNat + nanos.toNat) :
    (nanos - (limit - s.stateElapsed).setWidth 32).toNat +
      (limit.toNat - s.stateElapsed.toNat) = nanos.toNat := by
  rw [BitVec.toNat_sub, BitVec.toNat_setWidth, BitVec.toNat_sub]
  omega

/-- A state in which a round has left some of the time, and has aged the page write by the rest. -/
def AgedAfter (image : Vector (BitVec 8) at28ImageSize) (page : BitVec 16)
    (bytes : Fin at28PageSize → Option (BitVec 8)) (age : Nat) (nanos : BitVec 32)
    (result : At28c256 × BitVec 32) : Prop :=
  ∃ used, result.2.toNat + used = nanos.toNat ∧ Aged image page bytes (age + used) result.1

theorem PageLoaded.round_loading (h : PageLoaded image page bytes s)
    (hstate : s.writeState = .byteLoad) (hage : s.stateElapsed.toNat < T_BLC.toNat)
    (nanos : BitVec 32) :
    AgedAfter image page bytes s.stateElapsed.toNat nanos (tickRound s nanos) := by
  have hsum := elapsedWith_toNat T_BLC (by decide) hage nanos
  have hcase := tickRound_case s nanos
  generalize tickRound s nanos = result at hcase ⊢
  cases hcase with
  | loading _ htime =>
    refine ⟨nanos.toNat, Nat.zero_add _, .loading { h with } hstate ?_ hsum⟩
    have hless := BitVec.lt_def.mp htime
    omega
  | loaded _ htime =>
    have hover := BitVec.le_def.mp htime
    have hleft := left_toNat T_BLC hage nanos (by omega)
    have hseq : s.startCycle.sdpState = .idle := by
      simp [At28c256.startCycle, hstate, h.sequence]
    have hnow : (0#64).toNat < T_WC.toNat := by decide
    refine ⟨T_BLC.toNat - s.stateElapsed.toNat, hleft,
      .writing { h with sequence := hseq } rfl hnow ?_⟩
    show T_BLC.toNat + (0#64).toNat = s.stateElapsed.toNat + (T_BLC.toNat - s.stateElapsed.toNat)
    simp only [BitVec.toNat_zero]
    omega
  | idle hother | writing hother | written hother => simp [hstate] at hother

theorem PageLoaded.round_writing (h : PageLoaded image page bytes s)
    (hpage : page &&& ADDR_PAGE_MASK = page) (hstate : s.writeState = .writeCycle)
    (hage : s.stateElapsed.toNat < T_WC.toNat) (nanos : BitVec 32) :
    AgedAfter image page bytes (T_BLC.toNat + s.stateElapsed.toNat) nanos (tickRound s nanos) := by
  have hsum := elapsedWith_toNat T_WC (by decide) hage nanos
  have hcase := tickRound_case s nanos
  generalize tickRound s nanos = result at hcase ⊢
  cases hcase with
  | writing _ htime =>
    refine ⟨nanos.toNat, Nat.zero_add _, .writing { h with } hstate (BitVec.lt_def.mp htime) ?_⟩
    show T_BLC.toNat + (s.elapsedWith nanos).toNat = _
    omega
  | written _ htime =>
    have hover := BitVec.le_def.mp htime
    have hleft := left_toNat T_WC hage nanos (by omega)
    refine ⟨T_WC.toNat - s.stateElapsed.toNat, hleft, .written ?_ rfl (by omega)⟩
    intro i
    have hcommit : (endWriteCycle s).image = commitPage s := by
      simp [endWriteCycle, h.unblocked]
    have hbyte := get_commitPage (s := s) (h.page ▸ hpage) i
    rw [hcommit, hbyte, h.page, h.bytes, h.image]
  | idle hother => simp [hstate] at hother
  | loading hother | loaded hother => simp [At28c256.Loading, hstate] at hother

/-- The time that a round takes is added to the age. -/
theorem Aged.round (h : Aged image page bytes age s) (hpage : page &&& ADDR_PAGE_MASK = page)
    (nanos : BitVec 32) : AgedAfter image page bytes age nanos (tickRound s nanos) := by
  cases h with
  | loading h hstate hage helapsed =>
    subst helapsed
    exact h.round_loading hstate hage nanos
  | writing h hstate hage helapsed =>
    subst helapsed
    exact h.round_writing hpage hstate hage nanos
  | written h hstate hage =>
    rw [tickRound_idle hstate]
    exact ⟨nanos.toNat, Nat.zero_add _, .written h hstate (Nat.le_add_right_of_le hage)⟩

theorem Aged.rounds (rounds : Nat) (h : Aged image page bytes age s)
    (hpage : page &&& ADDR_PAGE_MASK = page) (nanos : BitVec 32) :
    AgedAfter image page bytes age nanos (tickRounds rounds s nanos) := by
  induction rounds generalizing age s nanos with
  | zero => exact ⟨0, rfl, h⟩
  | succ rounds ih =>
    rw [tickRounds]
    split
    · exact ⟨0, rfl, h⟩
    · obtain ⟨used, hused, hround⟩ := h.round hpage nanos
      obtain ⟨more, hmore, hrest⟩ := ih hround (tickRound s nanos).2
      rw [Nat.add_assoc] at hrest
      refine ⟨used + more, ?_, hrest⟩
      calc (tickRounds rounds (tickRound s nanos).1 (tickRound s nanos).2).2.toNat + (used + more)
          = (tickRound s nanos).2.toNat + used := by rw [← hmore]; omega
        _ = nanos.toNat := hused

theorem Aged.tick (h : Aged image page bytes age s) (hpage : page &&& ADDR_PAGE_MASK = page)
    (nanos : BitVec 32) : Aged image page bytes (age + nanos.toNat) (at28c256Tick s nanos) := by
  obtain ⟨used, hused, hrounds⟩ := h.rounds s.writeState.roundsLeft hpage nanos
  have hspent := tickRounds_spent (Nat.le_refl s.writeState.roundsLeft) nanos
  have hall : used = nanos.toNat := by
    rw [hspent] at hused
    exact (Nat.zero_add used).symm.trans hused
  rw [← hall]
  exact hrounds

theorem Aged.read (h : Aged image page bytes age s) (addr : BitVec 16) :
    Aged image page bytes age (at28c256Read s addr).2 := by
  unfold at28c256Read
  split
  · -- only the polling bits change
    cases h with
    | loading h hstate hage helapsed => exact .loading { h with } hstate hage helapsed
    | writing h hstate hage helapsed => exact .writing { h with } hstate hage helapsed
    | written h hstate hage => exact .written h hstate hage
  · exact h

/-- An operation that writes nothing. -/
theorem Aged.quiet (h : Aged image page bytes age s) (hpage : page &&& ADDR_PAGE_MASK = page)
    {op : At28Op} (hop : op.written = none) :
    Aged image page bytes (age + op.time) (op.step s) := by
  cases op with
  | write => exact absurd hop (Option.some_ne_none _)
  | read addr => exact h.read addr
  | tick nanos => exact h.tick hpage nanos

theorem Aged.run_quiet (tail : List At28Op) (h : Aged image page bytes age s)
    (hpage : page &&& ADDR_PAGE_MASK = page) (hquiet : ∀ op ∈ tail, op.written = none) :
    Aged image page bytes (age + (tail.map At28Op.time).sum) (at28Run s tail) := by
  induction tail generalizing age s with
  | nil => exact h
  | cons op tail ih =>
    have hop := h.quiet hpage (hquiet op (List.mem_cons_self ..))
    rw [List.map_cons, List.sum_cons, ← Nat.add_assoc]
    exact ih hop fun next hnext => hquiet next (List.mem_cons_of_mem op hnext)

end Age

/-! ## The load -/

section Load
variable {image : Vector (BitVec 8) at28ImageSize} {page : BitVec 16} {past : List At28Op}
  {s s' : At28c256} {since : Nat} {op : At28Op} {loc : BitVec 16} {val : BitVec 8}

theorem pageWrite_of_page (hop : op.written = some (loc, val))
    (hpage : loc &&& ADDR_PAGE_MASK = page) :
    op.pageWrite page = some (pageOffset loc, val) := by
  simp only [At28Op.pageWrite, hop]
  exact if_pos hpage

theorem pageWrite_of_other (hop : op.written = some (loc, val))
    (hpage : loc &&& ADDR_PAGE_MASK ≠ page) : op.pageWrite page = none := by
  simp only [At28Op.pageWrite, hop]
  exact if_neg hpage

theorem pageWrite_of_quiet (hop : op.written = none) : op.pageWrite page = none := by
  simp only [At28Op.pageWrite, hop]

/-- A write in the window is loaded if it is to the page, and is dropped otherwise. -/
theorem Aged.write (h : Aged image page (lastWritten page past) since s)
    (hsince : since < T_BLC.toNat) (hop : op.written = some (loc, val))
    (hcase : WriteCase s loc val s') :
    Aged image page (lastWritten page (past ++ [op]))
      (if (op.pageWrite page).isSome then 0 else since) s' := by
  cases h with
  | loading h hstate hage helapsed =>
    cases hcase with
    | byte _ hown =>
      have hload := pageWrite_of_page hop (hown.symm.trans h.page)
      rw [lastWritten_load hload, hload]
      exact h.load hstate loc val
    | otherPage _ hother =>
      have hdropped : op.pageWrite page = none :=
        pageWrite_of_other hop fun heq => hother (h.page.trans heq.symm)
      rw [lastWritten_pass hdropped, hdropped]
      exact .loading h hstate hage helapsed
    | sequence hother | load hother | unlock hother | toDisable hother | disable hother
    | advance hother | abort hother | firstByte hother | blocked hother =>
      simp [hstate] at hother
  | writing | written => omega

theorem Aged.step (h : Aged image page (lastWritten page past) since s)
    (hpage : page &&& ADDR_PAGE_MASK = page) (hwindow : since + op.time < T_BLC.toNat) :
    Aged image page (lastWritten page (past ++ [op]))
      (if (op.pageWrite page).isSome then 0 else since + op.time) (op.step s) := by
  cases hop : op.written with
  | none =>
    have hdropped : op.pageWrite page = none := pageWrite_of_quiet hop
    rw [lastWritten_pass hdropped, hdropped]
    exact h.quiet hpage hop
  | some write =>
    cases op with
    | write addr val =>
      exact h.write (Nat.lt_of_le_of_lt (Nat.le_add_right ..) hwindow) rfl
        (at28c256Write_case s addr val)
    | read | tick => exact absurd hop.symm (Option.some_ne_none _)

theorem Aged.run (ops : List At28Op) (h : Aged image page (lastWritten page past) since s)
    (hpage : page &&& ADDR_PAGE_MASK = page) (hwindow : LoadWindow page since ops) :
    ∃ age, Aged image page (lastWritten page (past ++ ops)) age (at28Run s ops) := by
  induction ops generalizing past since s with
  | nil =>
    rw [List.append_nil]
    exact ⟨since, h⟩
  | cons op ops ih =>
    have hstep := ih (h.step hpage hwindow.1) hwindow.2
    rw [List.append_assoc] at hstep
    exact hstep

/-- The first write to the page, from IDLE. -/
theorem Aged.first (hs : s.Consistent) (hidle : s.writeState = .idle)
    (hopen : sdpWriteBlocked s = false) (hop : op.written = some (loc, val))
    (hother : ¬(loc = 0x5555 ∧ val = 0xAA)) (hcase : WriteCase s loc val s') :
    Aged s.image (loc &&& ADDR_PAGE_MASK) (lastWritten (loc &&& ADDR_PAGE_MASK) [op]) 0 s' := by
  have hload := pageWrite_of_page hop rfl
  have hlast : lastWritten (loc &&& ADDR_PAGE_MASK) [op] =
      Function.update (fun _ => none) (pageOffset loc) (some val) := @lastWritten_load _ [] _ _ _ hload
  have hseq := hs.sequenceOff (by rw [hidle]; decide)
  cases hcase with
  | load =>
    -- the mask is cleared, so that nothing of an earlier load is left
    have hclear : PageLoaded s.image (loc &&& ADDR_PAGE_MASK) (fun _ => none)
        { s with
          writeState := .byteLoad, pageMask := 0, pageAddr := loc &&& ADDR_PAGE_MASK } :=
      ⟨rfl, hopen, hseq, rfl, loaded_of_mask_zero rfl⟩
    rw [hlast]
    exact hclear.load rfl loc val
  | sequence _ hloc hval => exact absurd ⟨hloc, hval⟩ hother
  | unlock hstate | toDisable hstate | disable hstate | advance hstate | abort hstate
  | firstByte hstate | otherPage hstate | byte hstate | blocked hstate =>
    simp [hidle] at hstate

/-- Any writes to a page, each in time, with any reads and any writes to other pages among them,
and then the time for the write cycle. -/
theorem page_write_commits (h : At28Reachable s) (hidle : s.writeState = .idle)
    (hopen : sdpWriteBlocked s = false) {addr : BitVec 16}
    (hfirst : ¬(addr &&& IMAGE_MASK = 0x5555 ∧ val = 0xAA))
    (hpage : addr &&& IMAGE_MASK &&& ADDR_PAGE_MASK = page) {ops tail : List At28Op}
    (hwindow : LoadWindow page 0 ops) (hquiet : ∀ op ∈ tail, op.written = none)
    (htime : T_BLC.toNat + T_WC.toNat ≤ (tail.map At28Op.time).sum) :
    (at28Run s (.write addr val :: ops ++ tail)).writeState = .idle ∧
      PageWritten s.image page (lastWritten page (.write addr val :: ops))
        (at28Run s (.write addr val :: ops ++ tail)) := by
  subst hpage
  have hself := pageMask_idem (addr &&& IMAGE_MASK)
  have hop : (At28Op.write addr val).written = some (addr &&& IMAGE_MASK, val) := rfl
  have hstart := Aged.first h.consistent hidle hopen hop hfirst (at28c256Write_case s addr val)
  obtain ⟨age, hloaded⟩ := hstart.run ops hself hwindow
  have hend := hloaded.run_quiet tail hself hquiet
  rw [← at28Run_append] at hend
  -- both timeouts are over
  cases hend with
  | loading _ _ hage => omega
  | writing _ _ hage => omega
  | written hwritten hdone => exact ⟨hdone, hwritten⟩

/-- A second byte and then the first again, at its mirror, with a read and a write to another page
between. -/
def secondByte : List At28Op :=
  [.tick 100000, .write 0x103F 0x22, .read 0x1000, .write 0x2000 0x33, .tick 149999,
    .write 0x9000 0x44]

def awaitCycle : List At28Op := [.tick 150000, .read 0x1000, .tick 10000000]

theorem page_write_commits_secondByte :
    (at28Run (at28c256Init false) (.write 0x1000 0x11 :: secondByte ++ awaitCycle)).writeState =
        .idle ∧
      PageWritten (at28c256Init false).image 0x1000
        (lastWritten 0x1000 (.write 0x1000 0x11 :: secondByte))
        (at28Run (at28c256Init false) (.write 0x1000 0x11 :: secondByte ++ awaitCycle)) := by
  apply page_write_commits (.init false) rfl rfl (by decide) rfl
  · refine ⟨?_, ?_, ?_, ?_, ?_, ?_, trivial⟩ <;> decide
  · decide
  · decide

example : lastWritten 0x1000 (.write 0x1000 0x11 :: secondByte) (pageOffset 0x1000) = some 0x44 := by
  decide

end Load

end Cb6502
