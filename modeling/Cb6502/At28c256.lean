import Cb6502.Bus

/- The AT28C256 EEPROM (io/at28c256/src/at28c256.c): software data protection, page loads,
   the write cycle and its polling. -/
namespace Cb6502

def T_BLC : BitVec 64 := 150000
def T_WC : BitVec 64 := 10000000

/-- `PAGE_SIZE` -/
def at28PageSize : Nat := 64

/-- `IMAGE_SIZE` -/
def at28ImageSize : Nat := 0x8000

def ADDR_PAGE_MASK : BitVec 16 := 0x7FC0
def ADDR_BYTE_MASK : BitVec 16 := 0x003F
def IMAGE_MASK : BitVec 16 := 0x7FFF
def STROBE_BIT : BitVec 8 := 0x40
def POLL_BIT : BitVec 8 := 0x80

/-- `write_state_t` -/
inductive WriteState where
  | idle | sdp | sdpWriteEn | byteLoad | writeCycle
  deriving DecidableEq

/-- `sdp_seq_t` -/
inductive SdpSeq where
  | idle | sdp0 | sdp1 | dis80 | disAA | dis55
  deriving DecidableEq

/-- `sdp_seq_table`: the write expected in each state. -/
def sdpSeqTable : SdpSeq → BitVec 16 × BitVec 8
  | .idle => (0x5555, 0xAA)
  | .sdp0 => (0x2AAA, 0x55)
  | .sdp1 => (0xFFFF, 0xFF)
  | .dis80 => (0x5555, 0xAA)
  | .disAA => (0x2AAA, 0x55)
  | .dis55 => (0x5555, 0x20)

/-- `incr_sdp_state`; the last state is not incremented. -/
def incrSdpState : SdpSeq → SdpSeq
  | .idle => .sdp0
  | .sdp0 => .sdp1
  | .sdp1 => .dis80
  | .dis80 => .disAA
  | .disAA => .dis55
  | .dis55 => .dis55

/-- `struct at28c256_s`. The flags are `FLAG_SDP_ENABLED` and `FLAG_SDP_WRITES_ENABLED`. -/
structure At28c256 where
  image : Vector (BitVec 8) at28ImageSize
  sdpEnabled : Bool
  sdpWritesEnabled : Bool := false
  pageBuffer : Vector (BitVec 8) at28PageSize := .replicate _ 0
  pageMask : BitVec 64 := 0
  pageAddr : BitVec 16 := 0
  lastWrite : BitVec 8 := 0
  lastWriteAddr : BitVec 16 := 0
  writeState : WriteState := .idle
  stateElapsed : BitVec 64 := 0
  sdpState : SdpSeq := .idle
  busHandle : Option Nat := none
  base : BitVec 16 := 0

/-- `at28c256_init` -/
def at28c256Init (enableSdp : Bool) : At28c256 :=
  { image := .replicate _ 0, sdpEnabled := enableSdp }

/-- The offset in a page, below `PAGE_SIZE`. -/
def pageOffset (addr : BitVec 16) : Fin at28PageSize :=
  ⟨(addr &&& ADDR_BYTE_MASK).toNat, by
    have hand : (addr &&& ADDR_BYTE_MASK).toNat ≤ ADDR_BYTE_MASK.toNat := by
      rw [BitVec.toNat_and]
      exact Nat.and_le_right
    exact Nat.lt_of_le_of_lt hand (by decide)⟩

/-- `handle_page_write` -/
def handlePageWrite (handle : At28c256) (addr : BitVec 16) (val : BitVec 8) : At28c256 :=
  let handle := { handle with stateElapsed := 0 }
  if handle.sdpState = .idle ∨ handle.sdpState = .sdp0 then
    let offset := pageOffset addr
    { handle with
      pageMask := handle.pageMask ||| (1#64 <<< offset.val)
      pageBuffer := handle.pageBuffer.set offset.val val offset.isLt }
  else handle

/-- `at28c256_write` -/
def at28c256Write (handle : At28c256) (addr : BitVec 16) (val : BitVec 8) : At28c256 :=
  let addr := addr &&& IMAGE_MASK
  let tracked (handle : At28c256) : At28c256 :=
    { handle with lastWriteAddr := addr, lastWrite := val }
  match handle.writeState with
  | .idle =>
    let handle := if addr = 0x5555 ∧ val = 0xAA then
        { handle with sdpState := .sdp0, writeState := .sdp }
      else { handle with writeState := .byteLoad }
    tracked (handlePageWrite
      { handle with pageMask := 0, pageAddr := addr &&& ADDR_PAGE_MASK } addr val)
  | .sdp =>
    let handle := { handle with stateElapsed := 0 }
    let sdpValid := if handle.sdpState = .sdp1 then val = 0xA0 ∨ val = 0x80
      else (addr, val) = sdpSeqTable handle.sdpState
    if sdpValid then
      if handle.sdpState = .sdp1 then
        if val = 0xA0 then
          tracked { handle with
            sdpEnabled := true, sdpWritesEnabled := true, pageMask := 0
            writeState := .sdpWriteEn, sdpState := .idle }
        else tracked { handle with sdpState := .dis80 }
      else if handle.sdpState = .dis55 then
        tracked { handle with
          sdpEnabled := false, sdpState := .idle, writeState := .sdpWriteEn, pageMask := 0 }
      else tracked { handle with sdpState := incrSdpState handle.sdpState }
    else { handle with sdpState := .idle, writeState := .idle }
  | .sdpWriteEn =>
    let handle := { handle with
      stateElapsed := 0, pageMask := 0, pageAddr := addr &&& ADDR_PAGE_MASK }
    tracked { handlePageWrite handle addr val with writeState := .byteLoad }
  | .byteLoad =>
    if handle.pageAddr ≠ addr &&& ADDR_PAGE_MASK then handle
    else tracked (handlePageWrite handle addr val)
  | .writeCycle => tracked handle

/-- `at28c256_read` -/
def at28c256Read (handle : At28c256) (addr : BitVec 16) : BitVec 8 × At28c256 :=
  if handle.writeState ≠ .idle ∧ addr = handle.lastWriteAddr then
    let handle := { handle with lastWrite := handle.lastWrite ^^^ STROBE_BIT }
    (handle.lastWrite ^^^ POLL_BIT, handle)
  else (handle.image.toArray.getD (addr &&& IMAGE_MASK).toNat 0, handle)

/-! ## Time -/

/-- `SDP_WRITE_BLOCKED` -/
def sdpWriteBlocked (handle : At28c256) : Bool := handle.sdpEnabled && !handle.sdpWritesEnabled

/-- One round of the loop that writes the page buffer to the image. -/
def commitByte (handle : At28c256) (image : Vector (BitVec 8) at28ImageSize)
    (i : Fin at28PageSize) : Vector (BitVec 8) at28ImageSize :=
  if handle.pageMask &&& (1#64 <<< i.val) ≠ 0 then
    image.setIfInBounds (handle.pageAddr.toNat + i.val) (handle.pageBuffer.get i)
  else image

def commitPage (handle : At28c256) : Vector (BitVec 8) at28ImageSize :=
  (List.finRange at28PageSize).foldl (commitByte handle) handle.image

/-- The end of a write cycle. -/
def endWriteCycle (handle : At28c256) : At28c256 :=
  { handle with
    image := if sdpWriteBlocked handle then handle.image else commitPage handle
    sdpWritesEnabled := false, writeState := .idle, stateElapsed := 0 }

/-- One round of the loop in `at28c256_tick`: the state, and the `nanos` that are left. -/
def tickRound (handle : At28c256) (nanos : BitVec 32) : At28c256 × BitVec 32 :=
  match handle.writeState with
  | .idle => (handle, 0)
  | .sdp | .sdpWriteEn | .byteLoad =>
    if handle.stateElapsed + nanos.setWidth 64 ≥ T_BLC then
      ({ handle with
          sdpState := if handle.writeState = .sdp then .idle else handle.sdpState
          writeState := .writeCycle, stateElapsed := 0 },
        nanos - (T_BLC - handle.stateElapsed).setWidth 32)
    else ({ handle with stateElapsed := handle.stateElapsed + nanos.setWidth 64 }, 0)
  | .writeCycle =>
    if handle.stateElapsed + nanos.setWidth 64 ≥ T_WC then
      (endWriteCycle handle, nanos - (T_WC - handle.stateElapsed).setWidth 32)
    else ({ handle with stateElapsed := handle.stateElapsed + nanos.setWidth 64 }, 0)

/-- The loop, for at most the given number of rounds. -/
def tickRounds : Nat → At28c256 → BitVec 32 → At28c256 × BitVec 32
  | 0, handle, nanos => (handle, nanos)
  | rounds + 1, handle, nanos =>
    if nanos = 0 then (handle, nanos)
    else
      let (handle, nanos) := tickRound handle nanos
      tickRounds rounds handle nanos

/-- The rounds that `at28c256_tick` takes at most: each one uses up the time or goes on to the
next of the byte load, the write cycle and IDLE. -/
def WriteState.roundsLeft : WriteState → Nat
  | .idle => 1
  | .writeCycle => 2
  | .sdp | .sdpWriteEn | .byteLoad => 3

/-- `at28c256_tick` -/
def at28c256Tick (handle : At28c256) (nanos : BitVec 32) : At28c256 :=
  (tickRounds handle.writeState.roundsLeft handle nanos).1

theorem tickRound_rounds (handle : At28c256) (nanos : BitVec 32) :
    (tickRound handle nanos).2 = 0 ∨
      (tickRound handle nanos).1.writeState.roundsLeft < handle.writeState.roundsLeft := by
  unfold tickRound
  cases handle.writeState with
  | idle => exact .inl rfl
  | sdp | sdpWriteEn | byteLoad =>
    dsimp only
    split
    · exact .inr (show 2 < 3 by decide)
    · exact .inl rfl
  | writeCycle =>
    dsimp only
    split
    · exact .inr (show 1 < 2 by decide)
    · exact .inl rfl

/-- The loop of `at28c256_tick` ends: no time is left after these rounds. -/
theorem tickRounds_spent {rounds : Nat} {handle : At28c256}
    (hrounds : handle.writeState.roundsLeft ≤ rounds) (nanos : BitVec 32) :
    (tickRounds rounds handle nanos).2 = 0 := by
  induction rounds generalizing handle nanos with
  | zero =>
    have hpos : 0 < handle.writeState.roundsLeft := by cases handle.writeState <;> decide
    omega
  | succ rounds ih =>
    rw [tickRounds]
    split
    · assumption
    · show (tickRounds rounds (tickRound handle nanos).1 (tickRound handle nanos).2).2 = 0
      rcases tickRound_rounds handle nanos with hspent | hless
      · rw [hspent]
        cases rounds <;> rfl
      · exact ih (by omega) _

/-! ## The image and the protection, set from outside -/

/-- `IMAGE_FILL` -/
def at28ImageFill : BitVec 8 := 0xFF

/-- `at28c256_load_image`: false when the bytes do not fit. -/
def at28c256LoadImage (handle : At28c256) (image : List (BitVec 8)) (offset : BitVec 16) :
    Bool × At28c256 :=
  if image.length + offset.toNat > at28ImageSize then (false, handle)
  else
    let filled := if image.length ≠ at28ImageSize then .replicate _ at28ImageFill else handle.image
    (true, { handle with
      image := (image.zipIdx offset.toNat).foldl (fun mem b => mem.setIfInBounds b.2 b.1) filled })

/-- `at28c256_set_sdp_enable`: not during a write cycle. -/
def at28c256SetSdpEnable (handle : At28c256) (enable : Bool) : At28c256 :=
  if handle.writeState ≠ .idle then handle else { handle with sdpEnabled := enable }

/-! ## The EEPROM on the bus -/

/-- `at28c256_write_cb` -/
def at28c256WriteCb (handle : At28c256) (addr : BitVec 16) (val : BitVec 8) : At28c256 :=
  let loc := addr - handle.base
  if loc.toNat ≥ at28ImageSize then handle else at28c256Write handle loc val

/-- `at28c256_read_cb` -/
def at28c256ReadCb (handle : At28c256) (addr : BitVec 16) : BitVec 8 × At28c256 :=
  let loc := addr - handle.base
  if loc.toNat ≥ at28ImageSize then (0xFF, handle) else at28c256Read handle loc

end Cb6502
