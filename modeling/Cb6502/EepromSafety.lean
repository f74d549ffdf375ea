import Cb6502.EepromTime

/- The EEPROM (io/at28c256/src/at28c256.c) in every state it can be in, also between two rounds of
   the loop in `at28c256_tick`: the two state variables agree, no subtraction of the loop
   underflows, and no byte of a page is written outside the image.

   What is proved:
     1. `RoundReaches.consistent` (the invariant holds of each round of the loop).
     2. `At28c256.Consistent.inOrder`, `At28c256.Consistent.roundSafe`.
     3. `eeprom_states_in_order` (after any operations). -/
namespace Cb6502

variable {s s' : At28c256} {nanos left : BitVec 32}

/-- The state of the EEPROM is in order. -/
structure At28c256.InOrder (s : At28c256) : Prop where
  sequence : s.sdpState ≠ .idle ↔ s.writeState = .sdp
  writesEnabled : s.sdpWritesEnabled = true →
    s.writeState = .sdpWriteEn ∨ s.writeState = .byteLoad ∨ s.writeState = .writeCycle
  loadTime : s.writeState = .sdp ∨ s.writeState = .sdpWriteEn ∨ s.writeState = .byteLoad →
    s.stateElapsed < T_BLC
  cycleTime : s.writeState = .writeCycle → s.stateElapsed < T_WC
  page : 64 ∣ s.pageAddr.toNat ∧ s.pageAddr.toNat < at28ImageSize
  commits : ∀ i : Fin at28PageSize, s.pageAddr.toNat + i < at28ImageSize

/-- A round with `nanos` left that waits for the limit of the state takes no more than there is. -/
def At28c256.RoundSafe (s : At28c256) (nanos : BitVec 32) : Prop :=
  ∀ limit, s.writeState.limit = some limit → s.stateElapsed + nanos.setWidth 64 ≥ limit →
    s.stateElapsed ≤ limit ∧ limit - s.stateElapsed ≤ nanos.setWidth 64

/-- The rounds that `at28c256_tick` makes with `nanos`: the state and the time left of each. -/
inductive RoundReaches (s : At28c256) (nanos : BitVec 32) : At28c256 → BitVec 32 → Prop where
  | start : RoundReaches s nanos s nanos
  | round {s' : At28c256} {left : BitVec 32} (h : RoundReaches s nanos s' left) (hleft : left ≠ 0) :
      RoundReaches s nanos (tickRound s' left).1 (tickRound s' left).2

theorem RoundReaches.consistent (h : RoundReaches s nanos s' left) (hs : s.Consistent) :
    s'.Consistent := by
  induction h with
  | start => exact hs
  | round _ _ ih => exact ih.round _

theorem At28c256.Consistent.page_bounds (h : s.Consistent) :
    64 ∣ s.pageAddr.toNat ∧ s.pageAddr.toNat + 64 ≤ at28ImageSize := by
  have hsplit := page_add_offset s.pageAddr
  have hmask : s.pageAddr.toNat ≤ 0x7FC0 := by
    rw [← h.page, BitVec.toNat_and]
    exact Nat.and_le_right
  rw [h.page] at hsplit
  have hsize : at28ImageSize = 0x8000 := rfl
  omega

theorem At28c256.Consistent.inOrder (h : s.Consistent) : s.InOrder := by
  obtain ⟨hdvd, hroom⟩ := h.page_bounds
  refine ⟨h.sequence, fun hflag => ?_, h.loadTime, h.cycleTime, ⟨hdvd, by omega⟩, fun i => ?_⟩
  · obtain ⟨hidle, hsdp⟩ := h.writesEnabled hflag
    cases hstate : s.writeState with
    | idle => exact absurd hstate hidle
    | sdp => exact absurd hstate hsdp
    | sdpWriteEn => exact Or.inl rfl
    | byteLoad => exact Or.inr (Or.inl rfl)
    | writeCycle => exact Or.inr (Or.inr rfl)
  · have hi : i.val < 64 := i.isLt
    omega

theorem At28c256.Consistent.roundSafe (h : s.Consistent) (nanos : BitVec 32) : s.RoundSafe nanos := by
  intro limit hlimit htime
  have hshort := h.short hlimit
  have hsum := elapsedWith_toNat limit (WriteState.limit_small hlimit) hshort nanos
  have hover := BitVec.le_def.mp htime
  have hle : s.stateElapsed ≤ limit := BitVec.le_def.mpr (Nat.le_of_lt hshort)
  refine ⟨hle, BitVec.le_def.mpr ?_⟩
  rw [At28c256.elapsedWith] at hsum
  rw [BitVec.toNat_sub_of_le hle, BitVec.toNat_setWidth]
  omega

/-- From `at28c256_init`, after any writes, reads, ticks, loaded images and changes of the
protection; and in each round of a tick made then. -/
theorem eeprom_states_in_order (h : At28Reachable s) :
    s.InOrder ∧ ∀ nanos s' left, RoundReaches s nanos s' left → s'.InOrder ∧ s'.RoundSafe left := by
  have hs := h.consistent
  refine ⟨hs.inOrder, fun nanos s' left hround => ?_⟩
  have hs' := hround.consistent hs
  exact ⟨hs'.inOrder, hs'.roundSafe left⟩

/-- An image is loaded, a sequence is begun, and its time is over. -/
def sequenceExpired : At28c256 :=
  let s := (at28c256LoadImage (at28c256Init false) [0xEA] 0x7FFF).2
  let s := at28c256SetSdpEnable s true
  At28Op.step (At28Op.step s (.write 0x5555 0xAA)) (.tick 160000)

theorem sequenceExpired_in_order : sequenceExpired.writeState = .writeCycle ∧
    sequenceExpired.sdpState = .idle ∧ sequenceExpired.InOrder := by
  have hreach : At28Reachable sequenceExpired :=
    .step (.tick 160000) (.step (.write 0x5555 0xAA)
      (.setSdpEnable true (.loadImage [0xEA] 0x7FFF (.init false))))
  exact ⟨by decide, by decide, (eeprom_states_in_order hreach).1⟩

end Cb6502
