import Cb6502.AciaReceive
import Cb6502.AciaUnix

/- The serial line from the clients of the unix socket to the program: the receive thread, the ring
   buffer, the emulator thread in `acia_unix_read` and the ACIA over it. The receive thread makes its
   steps wherever the emulator thread reads or writes what the two share, as a schedule says.

   What is proved:
     1. `Feeds.run` (any transport: what holds of it and the log of its reads holds in every run of the
        ACIA, which reads only a transport that has a byte).
     2. `aciaUnixIface_feeds` (the socket transport returns bytes of the ring only), so
        `serial_line_conserves`: every byte that any client sent has one place on the line. -/
namespace Cb6502

open Mailbox

variable {τ : Type}

/-! ## What the ACIA reads -/

/-- A property of a transport and its log that the ACIA's calls keep, a read being asked for only
while there is a byte. -/
structure Feeds (transport : AciaTransInterface τ) (J : τ → List (BitVec 8) → Prop) (full : τ → Prop) :
    Prop where
  available : ∀ {t log}, J t log → J (transport.available t).2 log ∧
    ((transport.available t).1 = true → full (transport.available t).2)
  read : ∀ {t log}, J t log → full t → J (transport.read t).2 (log ++ [(transport.read t).1])
  write : ∀ {t log} val, J t log → J (transport.write val t) log ∧ (full t → full (transport.write val t))

/-- A word is counted down only while the transport has a byte. -/
structure Acia.Fed (J : τ → List (BitVec 8) → Prop) (full : τ → Prop) (a : Acia (τ × List (BitVec 8))) :
    Prop where
  log : J a.transHandle.1 a.transHandle.2
  word : 0 < a.rxTicks → full a.transHandle.1

section Feeds
variable {transport : AciaTransInterface τ} {J : τ → List (BitVec 8) → Prop} {full : τ → Prop}
  {a : Acia (τ × List (BitVec 8))} (hfeeds : Feeds transport J full)
include hfeeds

theorem Feeds.tickRx (h : a.Fed J full) : (aciaTickRx transport.logged a).1.Fed J full := by
  unfold aciaTickRx
  dsimp only [AciaTransInterface.logged]
  split
  · rename_i hbusy
    have hfull := h.word hbusy
    split
    · -- the word is over, and its byte taken
      rename_i hdone
      have hread := hfeeds.read h.log hfull
      have hnone : ¬0 < a.rxTicks - 1 := by
        have hzero : a.rxTicks - 1 = 0 := hdone
        omega
      split
      · split
        · exact ⟨hread, fun hpos => absurd hpos hnone⟩
        · exact ⟨hread, fun hpos => absurd hpos hnone⟩
      · exact ⟨hread, fun hpos => absurd hpos hnone⟩
    · exact ⟨h.log, fun _ => hfull⟩
  · rename_i hidle
    obtain ⟨hlog, havail⟩ := hfeeds.available h.log
    split
    · rename_i hword
      exact ⟨hlog, fun _ => havail hword.1⟩
    · exact ⟨hlog, fun hpos => absurd hpos hidle⟩

theorem Feeds.tick (h : a.Fed J full) : (aciaTick transport.logged a).1.Fed J full := by
  have hrx := hfeeds.tickRx h
  unfold aciaTick
  generalize aciaTickRx transport.logged a = r at hrx
  dsimp only
  split
  · split
    · obtain ⟨hlog, hfull⟩ := hfeeds.write r.1.writeVal hrx.log
      exact ⟨hlog, fun hpos => hfull (hrx.word hpos)⟩
    · exact ⟨hrx.log, hrx.word⟩
  · exact hrx

omit hfeeds in
/-- Only ticks call the transport. -/
theorem quiet_transHandle {op : AciaOp} (h : op ≠ .tick) (transport : AciaTransInterface τ) (a : Acia τ) :
    (op.step transport a).transHandle = a.transHandle := by
  cases op with
  | tick => exact absurd rfl h
  | read reg =>
    simp only [AciaOp.step, aciaRead]
    repeat' split
    all_goals rfl
  | write reg val =>
    simp only [AciaOp.step, aciaWrite]
    repeat' split
    all_goals rfl

theorem Feeds.step (op : AciaOp) (h : a.Fed J full) : (op.step transport.logged a).Fed J full := by
  by_cases htick : op = .tick
  · subst htick
    exact hfeeds.tick h
  · have hhandle := quiet_transHandle htick transport.logged a
    refine ⟨by rw [hhandle]; exact h.log, ?_⟩
    rw [hhandle, (quietStep transport htick a).ticks]
    exact h.word

/-- In every run of the ACIA. -/
theorem Feeds.run {r : Receiving τ} (h : r.acia.Fed J full) (ops : List AciaOp) :
    (r.run transport ops).acia.Fed J full := by
  induction ops using List.reverseRecOn with
  | nil => exact h
  | append_singleton ops op ih =>
    rw [run_snoc]
    exact hfeeds.step op ih

end Feeds

/-! ## The socket as a transport -/

/-- The transport, what the receive thread is still to do, and what went to `send`. A turn of the
thread is a list of steps; one that its program does not allow is passed over. -/
structure UnixLine where
  sys : UnixSystem := {}
  schedule : List (List UnixAct) := []
  sent : List (BitVec 8) := []

namespace UnixLine

/-- A step of the receive thread. -/
def threadStep (s : UnixSystem) (act : UnixAct) : UnixSystem := (s.recvStep act).getD s

/-- A turn of the receive thread. -/
def turn (l : UnixLine) : UnixLine :=
  match l.schedule with
  | [] => l
  | acts :: rest => { l with sys := acts.foldl threadStep l.sys, schedule := rest }

/-- A step of the emulator thread. -/
def emuAct (l : UnixLine) (act : UnixAct) : UnixLine := { l with sys := (l.sys.emuStep act).getD l.sys }

end UnixLine

/-- `acia_unix_available` -/
def aciaUnixAvailable (l : UnixLine) : Bool × UnixLine :=
  let l := l.turn
  (decide (l.sys.cxt.numBytes > 0), l)

/-- `acia_unix_read`: the test of `num_bytes`, the byte and the index, and the count under the lock. -/
def aciaUnixRead (l : UnixLine) : BitVec 8 × UnixLine :=
  let l := l.turn
  if l.sys.cxt.numBytes = 0 then (0xFF, l)
  else
    let l := (l.emuAct .testBytes).turn
    let data := l.sys.cxt.buffer l.sys.cxt.readIdx.toNat
    let l := (l.emuAct .fetch).turn
    (data, l.emuAct .dropByte)

/-- `acia_unix_write`: what `send` does is left to it. -/
def aciaUnixWrite (data : BitVec 8) (l : UnixLine) : UnixLine :=
  let l := l.turn
  if l.sys.cxt.clientSock then { l with sent := l.sent ++ [data] } else l

/-- `acia_unix_iface` -/
def aciaUnixIface : AciaTransInterface UnixLine where
  available := aciaUnixAvailable
  read := aciaUnixRead
  write := aciaUnixWrite

/-! ## The bytes of the ring -/

/-- The receive thread leaves the emulator thread and its bytes alone, and takes no byte back. -/
structure ThreadKept (s s' : UnixSystem) : Prop where
  inv : s'.Inv
  emu : s'.emu = s.emu
  returned : s'.returned = s.returned
  numBytes : s.cxt.numBytes.toNat ≤ s'.cxt.numBytes.toNat

theorem ThreadKept.refl {s : UnixSystem} (h : s.Inv) : ThreadKept s s := ⟨h, rfl, rfl, Nat.le_refl _⟩

theorem ThreadKept.trans {s s' s'' : UnixSystem} (h : ThreadKept s s') (h' : ThreadKept s' s'') :
    ThreadKept s s'' :=
  ⟨h'.inv, h'.emu.trans h.emu, h'.returned.trans h.returned, Nat.le_trans h.numBytes h'.numBytes⟩

theorem recvStep_kept {s s' : UnixSystem} {act : UnixAct} (h : s.Inv) (hstep : s.recvStep act = some s') :
    ThreadKept s s' := by
  have hinv := h.recvStep hstep
  have hroom := h.room
  unfold UnixSystem.recvStep at hstep
  split at hstep
  case h_7 result hrecv =>
    -- the bytes behind `write_idx` are counted
    obtain rfl := Option.some.inj hstep
    refine ⟨hinv, rfl, rfl, ?_⟩
    rw [hrecv, RecvState.added, toNat_ringBufferSize] at hroom
    show s.cxt.numBytes.toNat ≤ (s.cxt.numBytes + result).toNat
    rw [BitVec.toNat_add_of_lt (by omega)]
    exact Nat.le_add_right _ _
  all_goals
    dsimp -failIfUnchanged only at hstep
    repeat' split at hstep
    all_goals first
      | cases hstep; done
      | obtain rfl := Option.some.inj hstep
        exact ⟨hinv, rfl, rfl, Nat.le_refl _⟩

theorem threadStep_kept {s : UnixSystem} (h : s.Inv) (act : UnixAct) :
    ThreadKept s (UnixLine.threadStep s act) := by
  unfold UnixLine.threadStep
  cases hstep : s.recvStep act with
  | none => exact .refl h
  | some s' => exact recvStep_kept h hstep

theorem turn_kept {l : UnixLine} (h : l.sys.Inv) : ThreadKept l.sys l.turn.sys := by
  unfold UnixLine.turn
  split
  · exact .refl h
  · rename_i acts rest _
    have key : ∀ (acts : List UnixAct) (s : UnixSystem), s.Inv → ThreadKept s (acts.foldl UnixLine.threadStep s) := by
      intro acts
      induction acts with
      | nil => exact fun s hs => .refl hs
      | cons act acts ih =>
        intro s hs
        have hfirst := threadStep_kept hs act
        exact hfirst.trans (ih _ hfirst.inv)
    exact key acts l.sys h

/-- Between two calls of the transport: the log is what `acia_unix_read` returned. -/
structure UnixLine.Between (l : UnixLine) (log : List (BitVec 8)) : Prop where
  inv : l.sys.Inv
  idle : l.sys.emu = .idle
  log : l.sys.returned = log

/-- The ring has a byte. -/
def UnixLine.Full (l : UnixLine) : Prop := 0 < l.sys.cxt.numBytes.toNat

theorem UnixLine.Between.turn {l : UnixLine} {log : List (BitVec 8)} (h : l.Between log) : l.turn.Between log := by
  have hkept := turn_kept h.inv
  exact ⟨hkept.inv, hkept.emu.trans h.idle, hkept.returned.trans h.log⟩

section EmuActs
variable {l : UnixLine} {s : UnixSystem}

theorem emuAct_of_step {act : UnixAct} (hstep : l.sys.emuStep act = some s) : (l.emuAct act).sys = s := by
  show (l.sys.emuStep act).getD l.sys = s
  rw [hstep]
  rfl

theorem step_testBytes (hemu : s.emu = .idle) (hbytes : s.cxt.numBytes ≠ 0) :
    s.emuStep .testBytes = some { s with emu := .tested } := by
  simp only [UnixSystem.emuStep, hemu, if_neg hbytes]

theorem step_fetch (hemu : s.emu = .tested) : s.emuStep .fetch =
    some { s with cxt := s.cxt.nextRead, emu := .fetched (s.cxt.buffer s.cxt.readIdx.toNat) } := by
  simp only [UnixSystem.emuStep, hemu]

theorem step_dropByte {data : BitVec 8} (hemu : s.emu = .fetched data) : s.emuStep .dropByte =
    some { s with
      cxt := { s.cxt with numBytes := s.cxt.numBytes - 1 }
      emu := .idle
      returned := s.returned ++ [data] } := by
  simp only [UnixSystem.emuStep, hemu]

end EmuActs

/-- The thread may come in before the test, before the byte is fetched and before it is counted off. -/
theorem aciaUnixRead_between {l : UnixLine} {log : List (BitVec 8)} (h : l.Between log) (hfull : l.Full) :
    (aciaUnixRead l).2.Between (log ++ [(aciaUnixRead l).1]) := by
  have hfirst := turn_kept h.inv
  have hbytes : l.turn.sys.cxt.numBytes ≠ 0 := by
    intro hzero
    have hle := hfirst.numBytes
    have hpos : 0 < l.sys.cxt.numBytes.toNat := hfull
    rw [hzero] at hle
    exact absurd hle (Nat.not_le_of_gt hpos)
  have htest := step_testBytes (hfirst.emu.trans h.idle) hbytes
  have hsecond := turn_kept (l := l.turn.emuAct .testBytes) (by
    rw [emuAct_of_step htest]
    exact hfirst.inv.emuStep htest)
  have htested : (l.turn.emuAct .testBytes).turn.sys.emu = .tested := by
    rw [hsecond.emu, emuAct_of_step htest]
  have hfetch := step_fetch htested
  have hthird := turn_kept (l := (l.turn.emuAct .testBytes).turn.emuAct .fetch) (by
    rw [emuAct_of_step hfetch]
    exact hsecond.inv.emuStep hfetch)
  have hfetched : ((l.turn.emuAct .testBytes).turn.emuAct .fetch).turn.sys.emu = .fetched
      ((l.turn.emuAct .testBytes).turn.sys.cxt.buffer (l.turn.emuAct .testBytes).turn.sys.cxt.readIdx.toNat) := by
    rw [hthird.emu, emuAct_of_step hfetch]
  have hdrop := step_dropByte hfetched
  have hreturned : ((l.turn.emuAct .testBytes).turn.emuAct .fetch).turn.sys.returned = log := by
    rw [hthird.returned, emuAct_of_step hfetch]
    show (l.turn.emuAct .testBytes).turn.sys.returned = log
    rw [hsecond.returned, emuAct_of_step htest]
    exact hfirst.returned.trans h.log
  unfold aciaUnixRead
  dsimp only
  rw [if_neg hbytes]
  refine ⟨?_, ?_, ?_⟩
  · rw [emuAct_of_step hdrop]
    exact hthird.inv.emuStep hdrop
  · rw [emuAct_of_step hdrop]
  · rw [emuAct_of_step hdrop, ← hreturned]

/-- The socket transport returns the bytes of the ring, and has them when it is read. -/
theorem aciaUnixIface_feeds : Feeds aciaUnixIface UnixLine.Between UnixLine.Full where
  available {l log} h := by
    refine ⟨h.turn, fun havail => ?_⟩
    have hpos : l.turn.sys.cxt.numBytes > 0 := of_decide_eq_true havail
    exact hpos
  read h hfull := aciaUnixRead_between h hfull
  write {l log} val h := by
    have hkept := turn_kept h.inv
    show (aciaUnixWrite val l).Between log ∧ (l.Full → (aciaUnixWrite val l).Full)
    unfold aciaUnixWrite
    dsimp only
    split
    · exact ⟨⟨h.turn.inv, h.turn.idle, h.turn.log⟩, fun hfull => Nat.lt_of_lt_of_le hfull hkept.numBytes⟩
    · exact ⟨h.turn, fun hfull => Nat.lt_of_lt_of_le hfull hkept.numBytes⟩

/-! ## The line -/

/-- The line before the first client, with the turns that the receive thread will have. -/
def UnixLine.start (schedule : List (List UnixAct)) : UnixLine := { schedule }

theorem UnixLine.start_between (schedule : List (List UnixAct)) : (UnixLine.start schedule).Between [] :=
  ⟨UnixSystem.Inv.init, rfl, rfl⟩

/-- Every byte that any client sent has one place on the line, in the order in which the bytes came.
For every run of the ACIA over the socket, whatever the receive thread does at its turns: the bytes
that the socket gave are those the ACIA took, each with one fate, and then those in the ring. The
bytes that the program read are the ones delivered, the receive register has the one held while RDRF
is set, all others were lost to an overrun; the `$FF` of an empty ring never gets in. -/
theorem serial_line_conserves (schedule : List (List UnixAct)) (busHandle : Option Nat) (base : BitVec 16)
    (voter : BitVec 32) (ops : List AciaOp) :
    let r := (Receiving.start (UnixLine.start schedule) busHandle base voter).run aciaUnixIface ops
    let line := r.acia.transHandle.1
    line.sys.received = r.ledger.items ++ line.sys.unread ∧
    r.ledger.withFate .delivered = r.returned ∧
    r.ledger.withFate .held = (if r.acia.rdrf then [r.acia.readVal] else []) ∧
    (0 < r.acia.rxTicks → line.sys.unread ≠ []) := by
  intro r line
  have hidle : (Receiving.start (UnixLine.start schedule) busHandle base voter).acia.rxTicks = 0 := rfl
  have hfed : r.acia.Fed UnixLine.Between UnixLine.Full := by
    refine aciaUnixIface_feeds.run ⟨UnixLine.start_between schedule, fun hpos => ?_⟩ ops
    rw [hidle] at hpos
    exact absurd hpos (Nat.lt_irrefl 0)
  have hinv : r.Inv := Receiving.Inv.run aciaUnixIface _ (Receiving.start_inv _ busHandle base voter) ops
  have hbetween : line.Between r.acia.taken := hfed.log
  have hnone : line.sys.emu.inFlight = [] := by rw [hbetween.idle]; rfl
  have hfifo := hbetween.inv.fifo
  rw [hnone, List.append_nil, hbetween.log, ← hinv.items] at hfifo
  refine ⟨hfifo, hinv.balanced.delivered, ?_, ?_⟩
  · rw [hinv.balanced.held, Acia.received]
    split <;> rfl
  · intro hword hempty
    -- the bytes counted are in the ring, and one of them starts the word
    have hlength : line.sys.unread.length = line.sys.unreadCount := Ring.length_segment ..
    have hcount : 0 < line.sys.cxt.numBytes.toNat := hfed.word hword
    rw [hempty, UnixSystem.unreadCount, hnone, List.length_nil, Nat.sub_zero] at hlength
    omega

end Cb6502
