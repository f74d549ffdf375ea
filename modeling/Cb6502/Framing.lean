import Mathlib.Algebra.GroupWithZero.Nat
import Cb6502.Sdcard

/- The command framing of the SD card. A host session is a list of exchanges: six bytes of a
   frame, with reads of the card wherever the host likes, and then reads and fill bytes. The
   sixth byte either starts a response, of a length that its kind tells, or leaves the card in
   the middle of a command, and which of the two is decided by the state of the card and the
   command (`Answers`): INIT and READY have no default. -/
namespace Cb6502

variable {φ : Type}

/-! ## Operations of the host -/

inductive SdOp where
  | write (byte : BitVec 8)
  | get
  deriving DecidableEq

def SdOp.step (file : SdImage φ) (cxt : Sdcard φ) (op : SdOp) : Sdcard φ :=
  match op with
  | .write byte => sdcardSpiWrite file cxt byte
  | .get => (sdcardSpiGet cxt).2

def sdRun (file : SdImage φ) (cxt : Sdcard φ) (ops : List SdOp) : Sdcard φ :=
  ops.foldl (SdOp.step file) cxt

/-- The bytes written. -/
def writes (ops : List SdOp) : List (BitVec 8) :=
  ops.filterMap fun op => match op with
    | .write byte => some byte
    | .get => none

/-- The number of reads. -/
def gets (ops : List SdOp) : Nat := ops.count .get

/-- Nothing but fill bytes is written. -/
def FillOnly (ops : List SdOp) : Prop := ∀ byte ∈ writes ops, byte = 0xFF

/-- A command frame: the first byte has the start bit. -/
structure SdFrame where
  cmd : BitVec 8
  arg : Fin 4 → BitVec 8
  crc : BitVec 8
  start : cmd &&& 0x80 = 0

/-- The bytes of a frame before the last. -/
def SdFrame.head (f : SdFrame) : List (BitVec 8) := [f.cmd, f.arg 0, f.arg 1, f.arg 2, f.arg 3]

/-- The 32-bit number in the argument of a frame, its most significant byte first. -/
def argNumber (arg : Fin 4 → BitVec 8) : Nat :=
  (arg 0).toNat * 2 ^ 24 + (arg 1).toNat * 2 ^ 16 + (arg 2).toNat * 2 ^ 8 + (arg 3).toNat

/-! ## Responses -/

/-- The reads it takes to clock out a response, from the state after the command. -/
def responseLength : CmdState → Nat
  | .r1 => 1
  | .r7 => 5
  | .r1Data => 516
  | .idle | .cmd | .dataStartToken | .data | .crc1 | .crc2 => 0

/-- The states a command is answered from. -/
def CmdState.responds : CmdState → Bool
  | .r1 | .r7 | .r1Data => true
  | .idle | .cmd | .dataStartToken | .data | .crc1 | .crc2 => false

/-- The card waits for the first byte of a command. -/
structure Sdcard.Listening (s : Sdcard φ) : Prop where
  init : s.init = true
  state : s.cmdState = .idle
  idx : s.cmdBufIdx = 0

/-- The state and the command that get a response. -/
def Answers (cardState : CardState) (acmdPend : Bool) (cmd : BitVec 8) : Prop :=
  match cardState, acmdPend with
  | .sdMode, _ => True
  | .init, false => cmd = CMD8 ∨ cmd = CMD55
  | .init, true => cmd = ACMD41
  | .ready, false => cmd = CMD17
  | .ready, true => True

/-! ## Writes and reads -/

/-- A byte that is stored. -/
def Sdcard.store (s : Sdcard φ) (byte : BitVec 8) : Sdcard φ :=
  { s with
    cmdState := .cmd
    cmdBuf := Function.update s.cmdBuf s.cmdBufIdx byte
    cmdBufIdx := s.cmdBufIdx + 1 }

/-- A complete command is handled. -/
def Sdcard.handle (file : SdImage φ) (u : Sdcard φ) : Sdcard φ :=
  { (if u.acmdPend then handleAcmd u else handleCmd file u) with cmdBufIdx := 0 }

/-- A byte is ignored in a response, and before a command unless it has the start bit. -/
def Sdcard.Ignores (s : Sdcard φ) (byte : BitVec 8) : Prop :=
  s.cmdState ≠ .cmd ∧ (s.cmdState = .idle → byte &&& 0x80 ≠ 0)

theorem write_of_ignores (file : SdImage φ) {s : Sdcard φ} {byte : BitVec 8} (h : s.Ignores byte) :
    sdcardSpiWrite file s byte = s := by
  unfold sdcardSpiWrite
  split
  · rfl
  · by_cases hidle : s.cmdState = .idle
    · rw [if_pos ⟨hidle, h.2 hidle⟩]
    · rw [if_neg (fun hskip => hidle hskip.1), if_neg hidle]
      exact if_pos h.1

theorem write_of_not_ignores (file : SdImage φ) {s : Sdcard φ} {byte : BitVec 8} (hinit : s.init = true)
    (h : ¬s.Ignores byte) : sdcardSpiWrite file s byte =
      if s.cmdBufIdx + 1 = 6 then (s.store byte).handle file else s.store byte := by
  have hnot : ¬(!s.init) = true := by rw [hinit]; exact Bool.false_ne_true
  have hhere : ¬(s.cmdState = .idle ∧ byte &&& 0x80 ≠ 0) := by
    intro hskip
    apply h
    refine ⟨?_, fun _ => hskip.2⟩
    rw [hskip.1]
    decide
  have hopen : (if s.cmdState = .idle then { s with cmdState := .cmd } else s) =
      { s with cmdState := .cmd } := by
    split
    · rfl
    · rename_i hidle
      have hcmd : s.cmdState = .cmd := Decidable.byContradiction fun hcmd =>
        h ⟨hcmd, fun hi => absurd hi hidle⟩
      rw [← hcmd]
  unfold sdcardSpiWrite
  rw [if_neg hnot, if_neg hhere, hopen]
  rfl

/-- A read before the response only sets the output register. -/
theorem get_of_quiet {s : Sdcard φ} (hinit : s.init = true) (h : s.cmdState = .idle ∨ s.cmdState = .cmd) :
    (sdcardSpiGet s).2 = { s with outReg := 0xFF } := by
  unfold sdcardSpiGet
  rw [hinit]
  rcases h with hstate | hstate <;> rw [hstate] <;> rfl

/-- With `n` reads to go, the card is listening again; `n = 0` is that it is. -/
structure Sdcard.Responding (s : Sdcard φ) (n : Nat) : Prop where
  init : s.init = true
  idx : s.cmdBufIdx = 0
  left :
    match s.cmdState with
    | .idle => n = 0
    | .cmd => False
    | .r1 => n = 1
    | .r7 => s.rspBufIdx ≤ 5 ∧ n = 6 - s.rspBufIdx
    | .r1Data => n = 516
    | .dataStartToken => n = 515
    | .data => s.blockCnt < 512 ∧ n = 514 - s.blockCnt
    | .crc1 => n = 2
    | .crc2 => n = 1

section Responses
variable {s : Sdcard φ} {n : Nat}

/-- A read clocks out one byte. -/
theorem Sdcard.Responding.get (h : s.Responding n) : (sdcardSpiGet s).2.Responding (n - 1) := by
  obtain ⟨hinit, hidx, hleft⟩ := h
  have hnot : (!s.init) = false := by rw [hinit]; rfl
  unfold sdcardSpiGet
  rw [hnot, if_neg Bool.false_ne_true]
  dsimp only
  cases hstate : s.cmdState with
  | idle =>
    rw [hstate] at hleft
    refine ⟨hinit, hidx, ?_⟩
    simp only
    exact congrArg (· - 1) hleft
  | cmd =>
    rw [hstate] at hleft
    exact hleft.elim
  | r1 =>
    rw [hstate] at hleft
    refine ⟨hinit, hidx, ?_⟩
    exact congrArg (· - 1) hleft
  | r7 =>
    rw [hstate] at hleft
    -- five bytes of the response buffer, the first one already in the register
    obtain ⟨hbuf, hn⟩ := hleft
    dsimp only
    split
    · rename_i hlast
      refine ⟨hinit, hidx, ?_⟩
      show n - 1 = 0
      omega
    · rename_i hmore
      refine ⟨hinit, hidx, ?_⟩
      simp only
      omega
  | r1Data =>
    rw [hstate] at hleft
    exact ⟨hinit, hidx, congrArg (· - 1) hleft⟩
  | dataStartToken =>
    rw [hstate] at hleft
    refine ⟨hinit, hidx, ?_⟩
    show 0 < 512 ∧ n - 1 = 514 - 0
    have hn : n = 515 := hleft
    omega
  | data =>
    rw [hstate] at hleft
    -- the sector, with two bytes of CRC behind it
    obtain ⟨hcnt, hn⟩ := hleft
    dsimp only
    split
    · rename_i hlast
      refine ⟨hinit, hidx, ?_⟩
      show n - 1 = 2
      have hblock : s.blockCnt + 1 = 512 := hlast
      omega
    · rename_i hmore
      have hblock : s.blockCnt + 1 ≠ 512 := hmore
      refine ⟨hinit, hidx, ?_⟩
      simp only
      omega
  | crc1 =>
    rw [hstate] at hleft
    exact ⟨hinit, hidx, congrArg (· - 1) hleft⟩
  | crc2 =>
    rw [hstate] at hleft
    exact ⟨hinit, hidx, congrArg (· - 1) hleft⟩

theorem Sdcard.Responding.not_cmd (h : s.Responding n) : s.cmdState ≠ .cmd := by
  intro hcmd
  have hleft := h.left
  rw [hcmd] at hleft
  exact hleft

/-- A fill byte is ignored, in a response and after it. -/
theorem Sdcard.Responding.fill (file : SdImage φ) (h : s.Responding n) :
    sdcardSpiWrite file s 0xFF = s := by
  apply write_of_ignores file
  exact ⟨h.not_cmd, fun _ => by decide⟩

theorem Sdcard.Responding.idle_iff (h : s.Responding n) : s.cmdState = .idle ↔ n = 0 := by
  obtain ⟨-, -, hleft⟩ := h
  cases hstate : s.cmdState <;> rw [hstate] at hleft <;> simp only at hleft <;> simp <;> omega

theorem Sdcard.Responding.listening (h : s.Responding 0) : s.Listening :=
  ⟨h.init, h.idle_iff.mpr rfl, h.idx⟩

/-- Each read of a run of fill bytes takes one byte of the response. -/
theorem Sdcard.Responding.run (file : SdImage φ) (ops : List SdOp) (h : s.Responding n)
    (hfill : FillOnly ops) : (sdRun file s ops).Responding (n - gets ops) := by
  induction ops generalizing s n with
  | nil => exact h
  | cons op ops ih =>
    cases op with
    | write byte =>
      have hbyte : byte = 0xFF := hfill byte List.mem_cons_self
      have hrest : FillOnly ops := fun b hb => hfill b (List.mem_cons_of_mem _ hb)
      have hgets : gets (.write byte :: ops) = gets ops := List.count_cons_of_ne (by simp)
      rw [hgets]
      show (sdRun file (sdcardSpiWrite file s byte) ops).Responding _
      rw [hbyte, h.fill file]
      -- a fill byte changes nothing
      exact ih h hrest
    | get =>
      have hgets : gets (.get :: ops) = gets ops + 1 := List.count_cons_self
      rw [hgets, Nat.add_comm, Nat.sub_add_eq]
      exact ih h.get hfill

end Responses

/-! ## Receiving a frame -/

/-- The card has received the bytes of a frame, the last one excepted, from the state `s₀`. -/
structure Sdcard.Collecting (s s₀ : Sdcard φ) (bytes : List (BitVec 8)) : Prop where
  init : s.init = true
  state : s.cmdState = if bytes = [] then .idle else .cmd
  idx : s.cmdBufIdx = bytes.length
  cmd : ∀ b, bytes.head? = some b → s.cmdBuf 0 = b
  cardState : s.cardState = s₀.cardState
  acmdPend : s.acmdPend = s₀.acmdPend

section Receiving
variable {s₀ s : Sdcard φ} {bytes : List (BitVec 8)}

theorem Sdcard.Listening.collecting (h : s.Listening) : s.Collecting s [] :=
  ⟨h.init, h.state, h.idx, fun _ hb => (nomatch hb), rfl, rfl⟩

theorem Sdcard.Collecting.get (h : s.Collecting s₀ bytes) : (sdcardSpiGet s).2.Collecting s₀ bytes := by
  have hquiet : s.cmdState = .idle ∨ s.cmdState = .cmd := by
    have hstate := h.state
    split at hstate
    · exact .inl hstate
    · exact .inr hstate
  rw [get_of_quiet h.init hquiet]
  exact ⟨h.init, h.state, h.idx, h.cmd, h.cardState, h.acmdPend⟩

theorem Sdcard.Collecting.write_eq (file : SdImage φ) (h : s.Collecting s₀ bytes) {byte : BitVec 8}
    (hstart : bytes = [] → byte &&& 0x80 = 0) :
    sdcardSpiWrite file s byte =
      if bytes.length + 1 = 6 then (s.store byte).handle file else s.store byte := by
  have hhere : ¬s.Ignores byte := by
    intro hskip
    have hstate := h.state
    by_cases hempty : bytes = []
    · rw [if_pos hempty] at hstate
      exact hskip.2 hstate (hstart hempty)
    · rw [if_neg hempty] at hstate
      exact hskip.1 hstate
  rw [write_of_not_ignores file h.init hhere, h.idx]

theorem Sdcard.Collecting.store (h : s.Collecting s₀ bytes) (byte : BitVec 8) :
    (s.store byte).Collecting s₀ (bytes ++ [byte]) := by
  refine ⟨h.init, ?_, ?_, ?_, h.cardState, h.acmdPend⟩
  · rw [if_neg (by simp)]
    rfl
  · rw [List.length_append]
    exact congrArg (· + 1) h.idx
  · intro b hb
    show Function.update s.cmdBuf s.cmdBufIdx byte 0 = b
    cases bytes with
    | nil =>
      have hidx : s.cmdBufIdx = 0 := h.idx
      rw [hidx, Function.update_self]
      exact Option.some.inj hb
    | cons c bytes =>
      have hidx : s.cmdBufIdx = bytes.length + 1 := h.idx
      -- the command is the byte stored first, and later ones go behind it
      rw [hidx, Function.update_of_ne (Nat.succ_ne_zero _).symm]
      exact h.cmd b hb

/-- The bytes of a command before the last one are stored, whatever reads come among them. -/
theorem Sdcard.Collecting.run (file : SdImage φ) (ops : List SdOp) (h : s.Collecting s₀ bytes)
    (hlength : bytes.length + (writes ops).length ≤ 5)
    (hstart : ∀ b, (bytes ++ writes ops).head? = some b → b &&& 0x80 = 0) :
    (sdRun file s ops).Collecting s₀ (bytes ++ writes ops) := by
  induction ops generalizing s bytes with
  | nil =>
    rw [show writes [] = [] from rfl, List.append_nil]
    exact h
  | cons op ops ih =>
    cases op with
    | get => exact ih h.get hlength hstart
    | write byte =>
      have hwrites : writes (.write byte :: ops) = byte :: writes ops := rfl
      rw [hwrites, List.length_cons] at hlength
      rw [hwrites] at hstart
      have hbyte : bytes = [] → byte &&& 0x80 = 0 := by
        intro hempty
        rw [hempty] at hstart
        exact hstart byte rfl
      have hstored : sdcardSpiWrite file s byte = s.store byte := by
        rw [h.write_eq file hbyte, if_neg (by omega)]
      rw [hwrites, List.append_cons]
      rw [List.append_cons] at hstart
      show (sdRun file (sdcardSpiWrite file s byte) ops).Collecting s₀ _
      rw [hstored]
      apply ih (h.store byte) _ hstart
      rw [List.length_append, List.length_singleton]
      omega

/-! ## The sixth byte -/

theorem responding_start {t : Sdcard φ} (hinit : t.init = true) (hidx : t.cmdBufIdx = 0)
    (hstate : t.cmdState = .r1 ∨ t.cmdState = .r1Data ∨ t.cmdState = .r7 ∧ t.rspBufIdx = 1) :
    t.cmdState.responds = true ∧ t.Responding (responseLength t.cmdState) := by
  rcases hstate with hr1 | hdata | ⟨hr7, hbuf⟩
  · rw [hr1]
    refine ⟨rfl, hinit, hidx, ?_⟩
    rw [hr1]
    rfl
  · rw [hdata]
    refine ⟨rfl, hinit, hidx, ?_⟩
    rw [hdata]
    rfl
  · rw [hr7]
    refine ⟨rfl, hinit, hidx, ?_⟩
    rw [hr7, hbuf]
    exact ⟨by decide, rfl⟩

theorem handleCmd17_state (file : SdImage φ) (u : Sdcard φ) : (handleCmd17 file u).init = u.init ∧
    ((handleCmd17 file u).cmdState = .r1 ∨ (handleCmd17 file u).cmdState = .r1Data) := by
  unfold handleCmd17
  dsimp only
  cases (file.lseek (cmdBlock u.cmdBuf) u.image).1 with
  | true =>
    rw [if_pos rfl]
    split
    · exact ⟨rfl, .inl rfl⟩
    · exact ⟨rfl, .inr rfl⟩
  | false =>
    rw [if_neg Bool.false_ne_true]
    split
    · exact ⟨rfl, .inl rfl⟩
    · exact ⟨rfl, .inl rfl⟩

/-- The state before the sixth byte is handled decides whether it is answered. -/
def Sdcard.Answered (u : Sdcard φ) : Prop := Answers u.cardState u.acmdPend (u.cmdBuf 0)

/-- What the sixth byte leaves: the start of a response, or a command that goes on. -/
structure Handled (u t : Sdcard φ) : Prop where
  init : t.init = true
  answered : u.Answered → t.cmdState = .r1 ∨ t.cmdState = .r1Data ∨ t.cmdState = .r7 ∧ t.rspBufIdx = 1
  lost : ¬u.Answered → t.cmdState = .cmd

theorem handled_cmd (file : SdImage φ) (u : Sdcard φ) (hinit : u.init = true) (hcmd : u.cmdState = .cmd)
    (hacmd : u.acmdPend = false) : Handled u (handleCmd file u) := by
  have hanswered : u.Answered ↔ Answers u.cardState false (u.cmdBuf 0) := by rw [Sdcard.Answered, hacmd]
  unfold handleCmd
  cases hcard : u.cardState with
  | sdMode =>
    rw [hcard] at hanswered
    have hyes : u.Answered := hanswered.mpr trivial
    dsimp only
    split
    · exact ⟨hinit, fun _ => .inl rfl, fun hno => absurd hyes hno⟩
    · exact ⟨hinit, fun _ => .inl rfl, fun hno => absurd hyes hno⟩
  | init =>
    rw [hcard] at hanswered
    dsimp only
    split
    · rename_i h8
      exact ⟨hinit, fun _ => .inr (.inr ⟨rfl, rfl⟩), fun hno => absurd (hanswered.mpr (.inl h8)) hno⟩
    · rename_i h8
      split
      · rename_i h55
        exact ⟨hinit, fun _ => .inl rfl, fun hno => absurd (hanswered.mpr (.inr h55)) hno⟩
      · -- the switch has no default
        rename_i h55
        refine ⟨hinit, fun hyes => ?_, fun _ => hcmd⟩
        rcases hanswered.mp hyes with h | h
        · exact absurd h h8
        · exact absurd h h55
  | ready =>
    rw [hcard] at hanswered
    dsimp only
    split
    · rename_i h17
      obtain ⟨hkept, hstate⟩ := handleCmd17_state file u
      refine ⟨hkept.trans hinit, fun _ => ?_, fun hno => absurd (hanswered.mpr h17) hno⟩
      rcases hstate with hr1 | hdata
      · exact .inl hr1
      · exact .inr (.inl hdata)
    · -- nothing jumps to the misspelt default
      rename_i h17
      exact ⟨hinit, fun hyes => absurd (hanswered.mp hyes) h17, fun _ => hcmd⟩

theorem handled_acmd (u : Sdcard φ) (hinit : u.init = true) (hcmd : u.cmdState = .cmd)
    (hacmd : u.acmdPend = true) : Handled u (handleAcmd u) := by
  have hanswered : u.Answered ↔ Answers u.cardState true (u.cmdBuf 0) := by rw [Sdcard.Answered, hacmd]
  unfold handleAcmd
  by_cases hcard : u.cardState = .init
  · rw [hcard] at hanswered
    rw [if_pos hcard]
    split
    · rename_i h41
      dsimp only
      split
      · exact ⟨hinit, fun _ => .inl rfl, fun hno => absurd (hanswered.mpr h41) hno⟩
      · exact ⟨hinit, fun _ => .inl rfl, fun hno => absurd (hanswered.mpr h41) hno⟩
    · -- another application command in INIT
      rename_i h41
      exact ⟨hinit, fun hyes => absurd (hanswered.mp hyes) h41, fun _ => hcmd⟩
  · rw [if_neg hcard]
    have hyes : u.Answered := by
      apply hanswered.mpr
      cases hstate : u.cardState with
      | sdMode => trivial
      | init => exact absurd hstate hcard
      | ready => trivial
    exact ⟨hinit, fun _ => .inl rfl, fun hno => absurd hyes hno⟩

theorem handled (file : SdImage φ) (u : Sdcard φ) (hinit : u.init = true) (hcmd : u.cmdState = .cmd) :
    Handled u (u.handle file) := by
  unfold Sdcard.handle
  cases hacmd : u.acmdPend with
  | true =>
    obtain ⟨h, hanswered, hlost⟩ := handled_acmd u hinit hcmd hacmd
    exact ⟨h, hanswered, hlost⟩
  | false =>
    obtain ⟨h, hanswered, hlost⟩ := handled_cmd file u hinit hcmd hacmd
    exact ⟨h, hanswered, hlost⟩

end Receiving

/-! ## Sessions -/

/-- A frame with reads among its bytes, and what the host does until the next frame. -/
structure Exchange where
  frame : SdFrame
  head : List SdOp
  head_writes : writes head = frame.head
  rest : List SdOp
  rest_fill : FillOnly rest

section Sessions
variable (file : SdImage φ)

/-- The state after the sixth byte. -/
def Exchange.received (e : Exchange) (s : Sdcard φ) : Sdcard φ :=
  sdcardSpiWrite file (sdRun file s e.head) e.frame.crc

/-- The host reads the whole response. -/
def Exchange.Waits (e : Exchange) (s : Sdcard φ) : Prop :=
  responseLength (e.received file s).cmdState ≤ gets e.rest

/-- The frame gets a response: the sixth byte leaves the card in a response state, and the card
is listening again as soon as the host has clocked the response out. -/
structure Served (e : Exchange) (s : Sdcard φ) : Prop where
  responds : (e.received file s).cmdState.responds = true
  returns : ∀ ops, FillOnly ops → (responseLength (e.received file s).cmdState ≤ gets ops ↔
    (sdRun file (e.received file s) ops).cmdState = .idle)
  listening : ∀ ops, FillOnly ops → responseLength (e.received file s).cmdState ≤ gets ops →
    (sdRun file (e.received file s) ops).Listening ∧
      sdcardSpiWrite file (sdRun file (e.received file s) ops) 0xFF = sdRun file (e.received file s) ops

/-- While the host waits for each response, every frame gets one. -/
def AllServed : List Exchange → Sdcard φ → Prop
  | [], _ => True
  | e :: es, s => Served file e s ∧
    (e.Waits file s → AllServed es (sdRun file (e.received file s) e.rest))

/-- While the host waits for each response, every frame has a command that is answered. -/
def AllAnswered : List Exchange → Sdcard φ → Prop
  | [], _ => True
  | e :: es, s => Answers s.cardState s.acmdPend e.frame.cmd ∧
    (e.Waits file s → AllAnswered es (sdRun file (e.received file s) e.rest))

/-- The sixth byte of a frame, from a card that listens. -/
theorem received_cases (e : Exchange) {s : Sdcard φ} (h : s.Listening) :
    (Answers s.cardState s.acmdPend e.frame.cmd →
      (e.received file s).cmdState.responds = true ∧
        (e.received file s).Responding (responseLength (e.received file s).cmdState)) ∧
    (¬Answers s.cardState s.acmdPend e.frame.cmd → (e.received file s).cmdState = .cmd) := by
  have hhead : (sdRun file s e.head).Collecting s e.frame.head := by
    have hrun := h.collecting.run file e.head
    rw [e.head_writes, List.nil_append] at hrun
    apply hrun (Nat.le_refl 5)
    intro b hb
    obtain rfl := Option.some.inj hb
    exact e.frame.start
  have hlast : e.received file s = ((sdRun file s e.head).store e.frame.crc).handle file :=
    (hhead.write_eq file fun hempty => (nomatch hempty)).trans (if_pos rfl)
  have hstored := hhead.store e.frame.crc
  have hanswered : ((sdRun file s e.head).store e.frame.crc).Answered ↔
      Answers s.cardState s.acmdPend e.frame.cmd := by
    rw [Sdcard.Answered, hstored.cardState, hstored.acmdPend, hstored.cmd e.frame.cmd rfl]
  have hhandled := handled file _ hstored.init (show Sdcard.cmdState (Sdcard.store _ _) = .cmd from rfl)
  rw [hlast]
  constructor
  · intro hyes
    exact responding_start hhandled.init rfl (hhandled.answered (hanswered.mpr hyes))
  · intro hno
    exact hhandled.lost fun hyes => hno (hanswered.mp hyes)

theorem served_of_responding {e : Exchange} {s : Sdcard φ}
    (hresponds : (e.received file s).cmdState.responds = true)
    (hleft : (e.received file s).Responding (responseLength (e.received file s).cmdState)) :
    Served file e s := by
  refine ⟨hresponds, ?_, ?_⟩
  · intro ops hfill
    rw [(hleft.run file ops hfill).idle_iff]
    omega
  · intro ops hfill hwaits
    have hrun := hleft.run file ops hfill
    have hzero : responseLength (e.received file s).cmdState - gets ops = 0 := by omega
    rw [hzero] at hrun
    exact ⟨hrun.listening, hrun.fill file⟩

/-- From a card that listens, with the host waiting for each response, every frame gets one
response, and only one, exactly if every frame has a command that its state answers. -/
theorem sdcard_framing (es : List Exchange) {s : Sdcard φ} (h : s.Listening) :
    AllServed file es s ↔ AllAnswered file es s := by
  induction es generalizing s with
  | nil => exact Iff.rfl
  | cons e es ih =>
    obtain ⟨hyes, hno⟩ := received_cases file e h
    by_cases hanswers : Answers s.cardState s.acmdPend e.frame.cmd
    · obtain ⟨hresponds, hleft⟩ := hyes hanswers
      -- the card listens again once the host has waited, so the rest is by induction
      have hserved := served_of_responding file hresponds hleft
      have hnext : e.Waits file s →
          (AllServed file es (sdRun file (e.received file s) e.rest) ↔
            AllAnswered file es (sdRun file (e.received file s) e.rest)) := fun hwaits =>
        ih (hserved.listening e.rest e.rest_fill hwaits).1
      exact ⟨fun hall => ⟨hanswers, fun hwaits => (hnext hwaits).mp (hall.2 hwaits)⟩,
        fun hall => ⟨hserved, fun hwaits => (hnext hwaits).mpr (hall.2 hwaits)⟩⟩
    -- the sixth byte has left the card in CMD
    · refine iff_of_false (fun hall => ?_) fun hall => hanswers hall.1
      have hresponds := hall.1.responds
      rw [hno hanswers] at hresponds
      cases hresponds

end Sessions

/-! ## Reachable cards -/

/-- A card after `sdcard_init` and any operations. -/
inductive SdReachable (file : SdImage φ) : Sdcard φ → Prop where
  | init (image : φ) : SdReachable file (sdcardInit image)
  | step {s : Sdcard φ} (op : SdOp) (h : SdReachable file s) : SdReachable file (op.step file s)

/-- The card is in the middle of a command, or some reads away from listening. -/
def Sdcard.InStep (s : Sdcard φ) : Prop := s.init = true ∧ (s.cmdState = .cmd ∨ ∃ n, s.Responding n)

theorem Sdcard.InStep.step {file : SdImage φ} {s : Sdcard φ} (h : s.InStep) (op : SdOp) :
    (op.step file s).InStep := by
  obtain ⟨hinit, hstate⟩ := h
  cases op with
  | get =>
    show (sdcardSpiGet s).2.InStep
    rcases hstate with hcmd | ⟨n, hn⟩
    · rw [get_of_quiet hinit (.inr hcmd)]
      exact ⟨hinit, .inl hcmd⟩
    · exact ⟨hn.get.init, .inr ⟨n - 1, hn.get⟩⟩
  | write byte =>
    show (sdcardSpiWrite file s byte).InStep
    by_cases hskip : s.Ignores byte
    · rw [write_of_ignores file hskip]
      exact ⟨hinit, hstate⟩
    · rw [write_of_not_ignores file hinit hskip]
      split
      · -- the sixth byte
        have hhandled := handled file (s.store byte) hinit rfl
        refine ⟨hhandled.init, ?_⟩
        by_cases hanswered : (s.store byte).Answered
        · exact .inr ⟨_, (responding_start hhandled.init rfl (hhandled.answered hanswered)).2⟩
        · exact .inl (hhandled.lost hanswered)
      · exact ⟨hinit, .inl rfl⟩

theorem SdReachable.inStep {file : SdImage φ} {s : Sdcard φ} (h : SdReachable file s) : s.InStep := by
  induction h with
  | init image => exact ⟨rfl, .inr ⟨0, rfl, rfl, rfl⟩⟩
  | step op _ ih => exact ih.step op

/-- A reachable card whose command state is IDLE listens for the first byte of a command. -/
theorem SdReachable.listening {file : SdImage φ} {s : Sdcard φ} (h : SdReachable file s)
    (hidle : s.cmdState = .idle) : s.Listening := by
  obtain ⟨hinit, hcmd | ⟨n, hn⟩⟩ := h.inStep
  · rw [hidle] at hcmd
    cases hcmd
  · exact ⟨hinit, hidle, hn.idx⟩

/-! ## Sessions from the reset -/

/-- An image of one block. -/
def blockImage : SdImage Unit where
  lseek _ f := (true, f)
  read f := (some (List.replicate 512 0xE5), f)

/-- A frame without argument, written byte by byte, and the reads after it. -/
def plainExchange (cmd : BitVec 8) (start : cmd &&& 0x80 = 0) (reads : Nat) : Exchange where
  frame := { cmd, arg := fun _ => 0, crc := 0x95, start }
  head := [.write cmd, .write 0, .write 0, .write 0, .write 0]
  head_writes := rfl
  rest := List.replicate reads .get
  rest_fill := by
    intro byte hbyte
    obtain ⟨op, hop, hsome⟩ := List.mem_filterMap.mp hbyte
    rw [List.eq_of_mem_replicate hop] at hsome
    cases hsome

theorem sdcardInit_listening {φ : Type} (image : φ) : (sdcardInit image).Listening := ⟨rfl, rfl, rfl⟩

/-- Reset, and the version of the interface. -/
theorem sdcard_framing_of_reset :
    AllServed blockImage [plainExchange CMD0 (by decide) 1, plainExchange CMD8 (by decide) 5]
      (sdcardInit ()) :=
  (sdcard_framing blockImage _ (sdcardInit_listening ())).mpr
    ⟨trivial, fun _ => ⟨.inl rfl, fun _ => trivial⟩⟩

/-- Reset, and then a read of a block before the card is initialised: no response, and the card
goes on with the command. -/
theorem read_in_init_has_no_response :
    ¬ ∀ es, AllServed blockImage es (sdcardInit ()) := by
  intro h
  have hserved := h [plainExchange CMD0 (by decide) 1, plainExchange CMD17 (by decide) 1]
  have hwaits : responseLength CmdState.r1 ≤ 1 := by decide
  have hresponds := (hserved.2 hwaits).1.responds
  exact absurd hresponds (by decide)

end Cb6502
