import Cb6502.Lib.Ring
import Cb6502.Bus

/- The unix socket transport of the ACIA (io/acia/src/acia_unix_sock.c): a ring buffer that
   the receive thread fills and the emulator thread empties. A step is what one of the
   threads does without the other coming in between: the accesses under the lock are one
   step, and so is everything between two accesses to `num_bytes`. An interleaving is a list
   of steps (`UnixSystem.run`), in any order that each thread's own program allows.

   `received` and `returned` are history variables: the bytes that the socket reads stored,
   and the bytes that `acia_unix_read` returned having found `num_bytes` above zero. -/
namespace Cb6502

/-- `RING_BUFFER_SIZE` -/
def ringBufferSize : BitVec 32 := 128

/-- `struct acia_unix_s`; the places of `buffer` from `RING_BUFFER_SIZE` on are outside the
array. -/
structure AciaUnix where
  readIdx : BitVec 32 := 0
  writeIdx : BitVec 32 := 0
  numBytes : BitVec 32 := 0
  buffer : Nat → BitVec 8 := fun _ => 0
  clientSock : Bool := false
  shutdown : Bool := false

/-- Where the receive thread is: at `accept4`, at `poll`, about to read the free space, about
to read the socket, behind the read with `result` bytes, and behind the advance of
`write_idx`. -/
inductive RecvState where
  | accepting | polling | waiting
  | reading (avail : BitVec 32)
  | stored (result : BitVec 32)
  | advanced (result : BitVec 32)
  deriving DecidableEq

/-- Where the emulator thread is in `acia_unix_read`. -/
inductive EmuState where
  | idle | tested
  | fetched (data : BitVec 8)
  deriving DecidableEq

/-- The transport, its two threads, and the history. -/
structure UnixSystem where
  cxt : AciaUnix := {}
  recv : RecvState := .accepting
  emu : EmuState := .idle
  received : List (BitVec 8) := []
  returned : List (BitVec 8) := []

/-! ## Steps -/

inductive UnixAct where
  | accept | pollIn | hangup | readSpace
  | socketRead (bytes : List (BitVec 8))
  | advance | addBytes
  | testBytes | fetch | dropByte | cleanup

/-- The free space up to the end of the buffer. -/
def AciaUnix.clamp (cxt : AciaUnix) (avail : BitVec 32) : BitVec 32 :=
  if cxt.writeIdx + avail ≥ ringBufferSize then ringBufferSize - cxt.writeIdx else avail

/-- `write_idx` advanced by `result`. -/
def AciaUnix.advance (cxt : AciaUnix) (result : BitVec 32) : AciaUnix :=
  let writeIdx := cxt.writeIdx + result
  { cxt with writeIdx := if writeIdx ≥ ringBufferSize then writeIdx - ringBufferSize else writeIdx }

/-- `read_idx` advanced by one. -/
def AciaUnix.nextRead (cxt : AciaUnix) : AciaUnix :=
  let readIdx := cxt.readIdx + 1
  { cxt with readIdx := if readIdx = ringBufferSize then 0 else readIdx }

/-- The client is gone, and the thread accepts the next one. -/
def UnixSystem.closeClient (s : UnixSystem) : UnixSystem :=
  { s with cxt := { s.cxt with clientSock := false }, recv := .accepting }

/-- A step of `read_thread` and `process_client`. -/
def UnixSystem.recvStep (s : UnixSystem) (act : UnixAct) : Option UnixSystem :=
  match act, s.recv with
  | .accept, .accepting =>
    if s.cxt.shutdown then none
    else some { s with cxt := { s.cxt with clientSock := true }, recv := .polling }
  | .pollIn, .polling => some { s with recv := .waiting }
  | .hangup, .polling => some s.closeClient
  | .readSpace, .waiting =>
    if s.cxt.shutdown then some s.closeClient
    else
      let avail := ringBufferSize - s.cxt.numBytes
      -- a full buffer keeps the thread waiting on the condition
      if avail = 0 then some s else some { s with recv := .reading avail }
  | .socketRead bytes, .reading avail =>
    if (s.cxt.clamp avail).toNat < bytes.length then none
    else if bytes = [] then some s.closeClient
    else
      some { s with
        cxt := { s.cxt with buffer := Ring.put s.cxt.buffer s.cxt.writeIdx.toNat bytes }
        recv := .stored (BitVec.ofNat 32 bytes.length)
        received := s.received ++ bytes }
  | .advance, .stored result => some { s with cxt := s.cxt.advance result, recv := .advanced result }
  | .addBytes, .advanced result =>
    some { s with cxt := { s.cxt with numBytes := s.cxt.numBytes + result }, recv := .polling }
  | _, _ => none

/-- A step of `acia_unix_read`, or `acia_unix_cleanup`. -/
def UnixSystem.emuStep (s : UnixSystem) (act : UnixAct) : Option UnixSystem :=
  match act, s.emu with
  | .testBytes, .idle => if s.cxt.numBytes = 0 then some s else some { s with emu := .tested }
  | .fetch, .tested =>
    some { s with cxt := s.cxt.nextRead, emu := .fetched (s.cxt.buffer s.cxt.readIdx.toNat) }
  | .dropByte, .fetched data =>
    some { s with
      cxt := { s.cxt with numBytes := s.cxt.numBytes - 1 }
      emu := .idle
      returned := s.returned ++ [data] }
  | .cleanup, .idle => some { s with cxt := { s.cxt with shutdown := true } }
  | _, _ => none

def UnixSystem.step (s : UnixSystem) (act : UnixAct) : Option UnixSystem :=
  match act with
  | .testBytes | .fetch | .dropByte | .cleanup => s.emuStep act
  | _ => s.recvStep act

def UnixSystem.run : List UnixAct → UnixSystem → Option UnixSystem
  | [], s => some s
  | act :: acts, s => (s.step act).bind (run acts)

/-! ## The queue in the buffer -/

/-- Bytes in the buffer that `num_bytes` does not count yet. -/
def RecvState.added : RecvState → Nat
  | .stored result | .advanced result => result.toNat
  | _ => 0

/-- Bytes in the buffer that `write_idx` is not behind yet. -/
def RecvState.ahead : RecvState → Nat
  | .stored result => result.toNat
  | _ => 0

/-- The byte fetched that `num_bytes` still counts. -/
def EmuState.inFlight : EmuState → List (BitVec 8)
  | .fetched data => [data]
  | _ => []

/-- The bytes that the emulator thread is about to take off `num_bytes`. -/
def EmuState.claimed : EmuState → Nat
  | .idle => 0
  | .tested | .fetched _ => 1

namespace UnixSystem

def unreadCount (s : UnixSystem) : Nat :=
  s.cxt.numBytes.toNat + s.recv.added - s.emu.inFlight.length

/-- The bytes in the buffer that are not fetched yet. -/
def unread (s : UnixSystem) : List (BitVec 8) :=
  Ring.segment ringBufferSize.toNat s.cxt.buffer s.cxt.readIdx.toNat s.unreadCount

/-- What holds at every step of every interleaving. -/
structure Inv (s : UnixSystem) : Prop where
  read : s.cxt.readIdx.toNat < ringBufferSize.toNat
  write : s.cxt.writeIdx.toNat < ringBufferSize.toNat
  claimed : s.emu.claimed ≤ s.cxt.numBytes.toNat
  room : s.cxt.numBytes.toNat + s.recv.added ≤ ringBufferSize.toNat
  space : ∀ avail, s.recv = .reading avail → s.cxt.numBytes.toNat + avail.toNat ≤ ringBufferSize.toNat
  block : s.cxt.writeIdx.toNat + s.recv.ahead ≤ ringBufferSize.toNat
  tail : (s.cxt.writeIdx.toNat + s.recv.ahead) % ringBufferSize.toNat =
    (s.cxt.readIdx.toNat + s.unreadCount) % ringBufferSize.toNat
  fifo : s.received = s.returned ++ s.emu.inFlight ++ s.unread

end UnixSystem

theorem toNat_ringBufferSize : ringBufferSize.toNat = 128 := rfl

/-- The block that a socket read may fill ends before the end of the buffer, and is no longer
than the free space. -/
theorem AciaUnix.clamp_le (cxt : AciaUnix) {avail : BitVec 32}
    (hwrite : cxt.writeIdx.toNat < ringBufferSize.toNat) (havail : avail.toNat ≤ ringBufferSize.toNat) :
    cxt.writeIdx.toNat + (cxt.clamp avail).toNat ≤ ringBufferSize.toNat ∧
      (cxt.clamp avail).toNat ≤ avail.toNat := by
  simp only [toNat_ringBufferSize] at *
  unfold clamp ringBufferSize
  split <;> refine ⟨?_, ?_⟩ <;> bv_omega

theorem AciaUnix.advance_toNat (cxt : AciaUnix) {result : BitVec 32}
    (hblock : cxt.writeIdx.toNat + result.toNat ≤ ringBufferSize.toNat) :
    (cxt.advance result).writeIdx.toNat = (cxt.writeIdx.toNat + result.toNat) % ringBufferSize.toNat := by
  simp only [toNat_ringBufferSize] at *
  unfold advance ringBufferSize
  dsimp only
  split <;> bv_omega

theorem AciaUnix.nextRead_toNat (cxt : AciaUnix) (hread : cxt.readIdx.toNat < ringBufferSize.toNat) :
    cxt.nextRead.readIdx.toNat = (cxt.readIdx.toNat + 1) % ringBufferSize.toNat := by
  simp only [toNat_ringBufferSize] at *
  unfold nextRead ringBufferSize
  dsimp only
  split <;> bv_omega

/-! ## Every step keeps the invariant -/

namespace UnixSystem
variable {s s' : UnixSystem}

theorem inFlight_le_claimed (emu : EmuState) : emu.inFlight.length ≤ emu.claimed := by
  cases emu <;> simp [EmuState.inFlight, EmuState.claimed]

theorem Inv.init : ({} : UnixSystem).Inv :=
  ⟨by decide, by decide, by decide, by decide, nofun, by decide, rfl, rfl⟩

/-- The receive thread moves on without a byte in its hands. -/
theorem Inv.moveRecv (h : s.Inv) {recv : RecvState} (client shutdown : Bool)
    (hadded : s.recv.added = 0 ∧ s.recv.ahead = 0) (hadded' : recv.added = 0 ∧ recv.ahead = 0)
    (hspace : ∀ avail, recv = .reading avail →
      s.cxt.numBytes.toNat + avail.toNat ≤ ringBufferSize.toNat) :
    Inv { s with
      cxt := { s.cxt with clientSock := client, shutdown }
      recv } := by
  have hcount : s.unreadCount = s.cxt.numBytes.toNat - s.emu.inFlight.length := by
    rw [unreadCount, hadded.1, Nat.add_zero]
  have hroom := h.room
  have hblock := h.block
  have htail := h.tail
  have hfifo := h.fifo
  rw [unread, hcount] at hfifo
  rw [hadded.1] at hroom
  rw [hadded.2] at hblock
  rw [hadded.2, hcount] at htail
  refine ⟨h.read, h.write, h.claimed, ?_, hspace, ?_, ?_, ?_⟩
  · rw [hadded'.1]
    exact hroom
  · rw [hadded'.2]
    exact hblock
  · rw [hadded'.2, unreadCount, hadded'.1]
    exact htail
  · rw [unread, unreadCount, hadded'.1]
    exact hfifo

/-- A socket read fills places behind the last unread byte, up to the first one at most. -/
theorem Inv.socketRead (h : s.Inv) {avail : BitVec 32} {bytes : List (BitVec 8)}
    (hrecv : s.recv = .reading avail) (hlen : bytes.length ≤ (s.cxt.clamp avail).toNat) :
    Inv { s with
      cxt := { s.cxt with buffer := Ring.put s.cxt.buffer s.cxt.writeIdx.toNat bytes }
      recv := .stored (BitVec.ofNat 32 bytes.length)
      received := s.received ++ bytes } := by
  have hspace := h.space avail hrecv
  have hwrite := h.write
  have havail : avail.toNat ≤ ringBufferSize.toNat := by omega
  obtain ⟨hend, hfree⟩ := s.cxt.clamp_le hwrite havail
  have htail := h.tail
  have hfifo := h.fifo
  simp only [unread, unreadCount, hrecv, RecvState.ahead, RecvState.added, Nat.add_zero] at htail hfifo
  rw [Nat.mod_eq_of_lt hwrite] at htail
  have hflight := Nat.le_trans (inFlight_le_claimed s.emu) h.claimed
  have hbytes : (BitVec.ofNat 32 bytes.length).toNat = bytes.length := by
    rw [BitVec.toNat_ofNat]
    apply Nat.mod_eq_of_lt
    rw [toNat_ringBufferSize] at hend
    omega
  have hcount : s.cxt.numBytes.toNat + bytes.length - s.emu.inFlight.length =
      s.cxt.numBytes.toNat - s.emu.inFlight.length + bytes.length := by omega
  refine ⟨h.read, h.write, h.claimed, ?_, nofun, ?_, ?_, ?_⟩
  · show s.cxt.numBytes.toNat + (BitVec.ofNat 32 bytes.length).toNat ≤ _
    omega
  · show s.cxt.writeIdx.toNat + (BitVec.ofNat 32 bytes.length).toNat ≤ _
    omega
  · simp only [unreadCount, RecvState.ahead, RecvState.added, hbytes, hcount]
    rw [htail, Nat.mod_add_mod, Nat.add_assoc]
  · simp only [unread, unreadCount, RecvState.added, hbytes, hcount]
    rw [Ring.segment_put s.cxt.buffer htail (by omega) (by omega), ← List.append_assoc, hfifo]

theorem Inv.advance (h : s.Inv) {result : BitVec 32} (hrecv : s.recv = .stored result) :
    Inv { s with cxt := s.cxt.advance result, recv := .advanced result } := by
  have hblock := h.block
  have hroom := h.room
  have htail := h.tail
  have hfifo := h.fifo
  simp only [unread, unreadCount, hrecv, RecvState.ahead, RecvState.added] at hblock hroom htail hfifo
  have hidx := s.cxt.advance_toNat hblock
  refine ⟨h.read, ?_, h.claimed, hroom, nofun, ?_, ?_, hfifo⟩
  · rw [hidx]
    exact Nat.mod_lt _ (by decide)
  · rw [hidx]
    exact Nat.le_of_lt (Nat.mod_lt _ (by decide))
  · simp only [hidx, RecvState.ahead, Nat.add_zero, Nat.mod_mod, unreadCount, RecvState.added]
    exact htail

theorem Inv.addBytes (h : s.Inv) {result : BitVec 32} (hrecv : s.recv = .advanced result) :
    Inv { s with cxt := { s.cxt with numBytes := s.cxt.numBytes + result }, recv := .polling } := by
  have hblock := h.block
  have hroom := h.room
  have htail := h.tail
  have hfifo := h.fifo
  have hclaimed := h.claimed
  simp only [unread, unreadCount, hrecv, RecvState.ahead, RecvState.added] at hblock hroom htail hfifo
  have hsum : (s.cxt.numBytes + result).toNat = s.cxt.numBytes.toNat + result.toNat := by
    rw [toNat_ringBufferSize] at hroom
    bv_omega
  refine ⟨h.read, h.write, ?_, ?_, nofun, hblock, ?_, ?_⟩
  · show s.emu.claimed ≤ (s.cxt.numBytes + result).toNat
    omega
  · show (s.cxt.numBytes + result).toNat + 0 ≤ _
    omega
  · simp only [hsum, RecvState.ahead, unreadCount, RecvState.added, Nat.add_zero] at htail ⊢
    exact htail
  · simp only [unread, hsum, unreadCount, RecvState.added, Nat.add_zero]
    exact hfifo

theorem Inv.recvStep (h : s.Inv) {act : UnixAct} (hstep : s.recvStep act = some s') : s'.Inv := by
  have hclose : s.recv.added = 0 ∧ s.recv.ahead = 0 → s.closeClient.Inv := fun hr =>
    h.moveRecv false s.cxt.shutdown hr ⟨rfl, rfl⟩ nofun
  unfold UnixSystem.recvStep at hstep
  split at hstep
  case h_1 hrecv =>
    split at hstep
    · cases hstep
    · obtain rfl := Option.some.inj hstep
      exact h.moveRecv true s.cxt.shutdown (by rw [hrecv]; exact ⟨rfl, rfl⟩) ⟨rfl, rfl⟩ nofun
  case h_2 hrecv =>
    obtain rfl := Option.some.inj hstep
    exact h.moveRecv s.cxt.clientSock s.cxt.shutdown (by rw [hrecv]; exact ⟨rfl, rfl⟩) ⟨rfl, rfl⟩ nofun
  case h_3 hrecv =>
    obtain rfl := Option.some.inj hstep
    exact hclose (by rw [hrecv]; exact ⟨rfl, rfl⟩)
  case h_4 hrecv =>
    split at hstep
    · obtain rfl := Option.some.inj hstep
      exact hclose (by rw [hrecv]; exact ⟨rfl, rfl⟩)
    · dsimp only at hstep
      split at hstep
      · obtain rfl := Option.some.inj hstep
        exact h
      · obtain rfl := Option.some.inj hstep
        refine h.moveRecv s.cxt.clientSock s.cxt.shutdown (by rw [hrecv]; exact ⟨rfl, rfl⟩) ⟨rfl, rfl⟩ ?_
        -- the free space and the bytes counted make up the buffer
        intro avail havail
        obtain rfl := RecvState.reading.inj havail
        have hroom := h.room
        simp only [toNat_ringBufferSize] at *
        unfold ringBufferSize
        bv_omega
  case h_5 bytes avail hrecv =>
    split at hstep
    · cases hstep
    · rename_i hlen
      split at hstep
      · obtain rfl := Option.some.inj hstep
        exact hclose (by rw [hrecv]; exact ⟨rfl, rfl⟩)
      · obtain rfl := Option.some.inj hstep
        exact h.socketRead hrecv (Nat.le_of_not_lt hlen)
  case h_6 result hrecv =>
    obtain rfl := Option.some.inj hstep
    exact h.advance hrecv
  case h_7 result hrecv =>
    obtain rfl := Option.some.inj hstep
    exact h.addBytes hrecv
  case h_8 => cases hstep

/-- A fetch takes the first unread byte. -/
theorem Inv.fetch (h : s.Inv) (hemu : s.emu = .tested) :
    Inv { s with
      cxt := s.cxt.nextRead, emu := .fetched (s.cxt.buffer s.cxt.readIdx.toNat) } := by
  have hclaimed := h.claimed
  have htail := h.tail
  have hfifo := h.fifo
  have hidx := s.cxt.nextRead_toNat h.read
  have hcount : s.unreadCount = s.cxt.numBytes.toNat + s.recv.added := by
    rw [unreadCount, hemu]
    rfl
  simp only [hemu, EmuState.claimed, EmuState.inFlight, List.append_nil] at hclaimed hfifo
  obtain ⟨k, hk⟩ : ∃ k, s.cxt.numBytes.toNat + s.recv.added = k + 1 :=
    ⟨s.cxt.numBytes.toNat + s.recv.added - 1, by omega⟩
  refine ⟨?_, h.write, hclaimed, h.room, h.space, h.block, ?_, ?_⟩
  · rw [hidx]
    exact Nat.mod_lt _ (by decide)
  · rw [hcount, hk] at htail
    show (s.cxt.writeIdx.toNat + s.recv.ahead) % ringBufferSize.toNat =
      (s.cxt.nextRead.readIdx.toNat + (s.cxt.numBytes.toNat + s.recv.added - 1)) % ringBufferSize.toNat
    rw [htail, hidx, hk, Nat.add_sub_cancel, Nat.mod_add_mod, Nat.add_assoc, Nat.add_comm k 1]
  · rw [unread, hcount, hk, Ring.segment_succ, Nat.mod_eq_of_lt h.read] at hfifo
    simp only [unread, unreadCount, EmuState.inFlight, List.length_singleton]
    show s.received = s.returned ++ [s.cxt.buffer s.cxt.readIdx.toNat] ++
      Ring.segment ringBufferSize.toNat s.cxt.buffer s.cxt.nextRead.readIdx.toNat
        (s.cxt.numBytes.toNat + s.recv.added - 1)
    rw [hidx, hk, Nat.add_sub_cancel, hfifo, List.append_assoc]
    rfl

theorem Inv.dropByte (h : s.Inv) {data : BitVec 8} (hemu : s.emu = .fetched data) :
    Inv { s with
      cxt := { s.cxt with numBytes := s.cxt.numBytes - 1 }
      emu := .idle
      returned := s.returned ++ [data] } := by
  have hclaimed := h.claimed
  have hroom := h.room
  have htail := h.tail
  have hfifo := h.fifo
  simp only [unread, unreadCount, hemu, EmuState.claimed, EmuState.inFlight,
    List.length_singleton] at hclaimed htail hfifo
  have hdec : (s.cxt.numBytes - 1).toNat = s.cxt.numBytes.toNat - 1 := by bv_omega
  have hcount : s.cxt.numBytes.toNat - 1 + s.recv.added = s.cxt.numBytes.toNat + s.recv.added - 1 := by
    omega
  refine ⟨h.read, h.write, Nat.zero_le _, ?_, ?_, h.block, ?_, ?_⟩
  · show (s.cxt.numBytes - 1).toNat + s.recv.added ≤ _
    omega
  · intro avail havail
    have hspace := h.space avail havail
    show (s.cxt.numBytes - 1).toNat + avail.toNat ≤ _
    omega
  · simp only [hdec, unreadCount, EmuState.inFlight, List.length_nil, Nat.sub_zero, hcount]
    exact htail
  · simp only [unread, hdec, unreadCount, EmuState.inFlight, List.length_nil, Nat.sub_zero, hcount,
      List.append_nil]
    exact hfifo

theorem Inv.emuStep (h : s.Inv) {act : UnixAct} (hstep : s.emuStep act = some s') : s'.Inv := by
  unfold UnixSystem.emuStep at hstep
  split at hstep
  case h_1 hemu =>
    split at hstep
    · obtain rfl := Option.some.inj hstep
      exact h
    · rename_i hsome
      obtain rfl := Option.some.inj hstep
      have hfifo := h.fifo
      have htail := h.tail
      simp only [unread, unreadCount, hemu, EmuState.inFlight] at hfifo htail
      refine ⟨h.read, h.write, ?_, h.room, h.space, h.block, htail, hfifo⟩
      show 1 ≤ s.cxt.numBytes.toNat
      bv_omega
  case h_2 hemu =>
    obtain rfl := Option.some.inj hstep
    exact h.fetch hemu
  case h_3 data hemu =>
    obtain rfl := Option.some.inj hstep
    exact h.dropByte hemu
  case h_4 =>
    obtain rfl := Option.some.inj hstep
    exact ⟨h.read, h.write, h.claimed, h.room, h.space, h.block, h.tail, h.fifo⟩
  case h_5 => cases hstep

theorem Inv.step (h : s.Inv) {act : UnixAct} (hstep : s.step act = some s') : s'.Inv := by
  cases act with
  | testBytes | fetch | dropByte | cleanup => exact h.emuStep hstep
  | _ => exact h.recvStep hstep

theorem Inv.run {acts : List UnixAct} (h : s.Inv) (hrun : run acts s = some s') : s'.Inv := by
  induction acts generalizing s with
  | nil =>
    obtain rfl := Option.some.inj hrun
    exact h
  | cons act acts ih =>
    obtain ⟨s1, hstep, hrest⟩ := Option.bind_eq_some_iff.mp hrun
    exact ih (h.step hstep) hrest

/-- A socket read is made with the free space in hand. -/
theorem reading_of_socketRead {bytes : List (BitVec 8)} (hstep : s.step (.socketRead bytes) = some s') :
    ∃ avail, s.recv = .reading avail ∧ bytes.length ≤ (s.cxt.clamp avail).toNat := by
  cases hrecv : s.recv with
  | reading avail =>
    refine ⟨avail, rfl, ?_⟩
    by_cases hlen : (s.cxt.clamp avail).toNat < bytes.length
    · simp [step, recvStep, hrecv, hlen] at hstep
    · exact Nat.le_of_not_lt hlen
  | _ => simp [step, recvStep, hrecv] at hstep

end UnixSystem

/-- The ring buffer is a bounded queue. After every interleaving of the two threads, with any
socket reads and any number of clients: the bytes received are those that `acia_unix_read`
returned, then the one it is about to return, then the unread ones, which stand in the buffer
from `read_idx` on; `num_bytes` is within the capacity and both indices are below it; and a
socket read writes within the buffer only. -/
theorem unix_ring_is_fifo (acts : List UnixAct) (s : UnixSystem)
    (hrun : UnixSystem.run acts {} = some s) :
    s.received = s.returned ++ s.emu.inFlight ++ s.unread ∧
    s.cxt.numBytes.toNat ≤ ringBufferSize.toNat ∧
    s.cxt.readIdx.toNat < ringBufferSize.toNat ∧
    s.cxt.writeIdx.toNat < ringBufferSize.toNat ∧
    ∀ bytes s', s.step (.socketRead bytes) = some s' →
      s.cxt.writeIdx.toNat + bytes.length ≤ ringBufferSize.toNat := by
  have h := UnixSystem.Inv.init.run hrun
  have hroom := h.room
  refine ⟨h.fifo, by omega, h.read, h.write, ?_⟩
  intro bytes s' hstep
  obtain ⟨avail, hrecv, hlen⟩ := UnixSystem.reading_of_socketRead hstep
  have hspace := h.space avail hrecv
  have hend := (s.cxt.clamp_le h.write (Nat.le_trans (Nat.le_add_left _ _) hspace)).1
  omega

/-- A client sends two bytes, the emulator reads one and then looks for the next while a
second client sends a third. -/
def twoClients : List UnixAct :=
  [.accept, .pollIn, .readSpace, .socketRead [0x41, 0x42], .advance, .testBytes, .addBytes, .testBytes,
    .fetch, .hangup, .dropByte, .accept, .pollIn, .testBytes, .readSpace, .fetch, .socketRead [0x43],
    .advance, .dropByte, .addBytes]

theorem unix_ring_is_fifo_of_two_clients :
    ∃ s, UnixSystem.run twoClients {} = some s ∧ s.returned = [0x41, 0x42] ∧
      s.received = s.returned ++ s.emu.inFlight ++ s.unread :=
  ⟨_, rfl, rfl, (unix_ring_is_fifo twoClients _ rfl).1⟩

end Cb6502
