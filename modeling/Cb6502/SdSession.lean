import Cb6502.SpiBoard

/- Whole sessions of the SD card (io/sdcard/src/sdcard.c) as a server of command frames: what it
   answers to each frame, in each of its phases, with the failures of the image file and a read
   that comes short. A frame without an answer leaves the card in the middle of a command, so that
   the host must not write anything before the next frame.

   What is proved:
     1. `Gathers.quiet` (the reads among the bytes of a frame return `$FF`).
     2. `handle_answers` (the sixth byte leaves the card with the server's answer to send).
     3. `sd_session` (from `sdcard_init`, the reads of every session are those of the server).
     4. `sd_session_over_via` (the same through the VIA and the bus). -/
namespace Cb6502

open Duplex

variable {φ : Type}

/-! ## The server -/

/-- The phases of the card: in INIT, the polls so far, and whether an application command is
expected. -/
inductive SdPhase where
  | sdMode
  | init (polls : Nat) (app : Bool)
  | ready

/-- The card between two frames. -/
structure SdServer (φ : Type) where
  phase : SdPhase
  image : φ
  sector : Nat → BitVec 8

def SdServer.start (image : φ) : SdServer φ := ⟨.sdMode, image, fun _ => 0⟩

/-- A block between its markers. -/
def blockAnswer (sector : Nat → BitVec 8) : List (BitVec 8) :=
  0x00 :: 0xFF :: 0xFE :: ((List.range 512).map sector ++ [0x00, 0x00])

/-- The answer to CMD17. A read that comes short leaves the end of the sector as it was. -/
def SdServer.readBlock (file : SdImage φ) (srv : SdServer φ) (number : Nat) :
    List (BitVec 8) × SdServer φ :=
  let (seeked, image) := file.lseek ((number : Int) * 512) srv.image
  match file.read image with
  | (none, image) => ([0x20], { srv with image })
  | (some bytes, image) =>
    let sector := fun i => bytes.getD i (srv.sector i)
    (if seeked then blockAnswer sector else [0x20], { srv with image, sector })

/-- The answer to a frame, if there is one. -/
def SdServer.answer (file : SdImage φ) (srv : SdServer φ) (cmd : BitVec 8)
    (arg : Fin 4 → BitVec 8) : Option (List (BitVec 8)) × SdServer φ :=
  match srv.phase with
  | .sdMode =>
    (some [0x01], if cmd = CMD0 then { srv with phase := .init 0 false } else srv)
  | .init polls false =>
    if cmd = CMD8 then (some (0xFF :: List.ofFn arg), srv)
    else if cmd = CMD55 then (some [0x01], { srv with phase := .init polls true })
    else (none, srv)
  | .init polls true =>
    if cmd = ACMD41 then
      if polls + 1 = 6 then (some [0x00], { srv with phase := .ready })
      else (some [0x01], { srv with phase := .init (polls + 1) false })
    else (none, { srv with phase := .init polls false })
  | .ready =>
    if cmd = CMD17 then
      let (response, srv) := srv.readBlock file (argNumber arg)
      (some response, srv)
    else (none, srv)

/-- Sessions, with the bytes that their reads return. -/
inductive SdServer.Session (file : SdImage φ) :
    SdServer φ → List SdOp → List (BitVec 8) → SdServer φ → Prop where
  | done (srv : SdServer φ) : Session file srv [] [] srv
  /-- A frame, and all of its answer. -/
  | answered {srv srv' srv'' : SdServer φ} (f : SdTransfer) (hstart : f.cmd &&& 0x80 = 0)
      {response : List (BitVec 8)} (hanswer : srv.answer file f.cmd f.arg = (some response, srv'))
      {tail : List SdOp} (htail : ∀ op ∈ tail, op.NoStart) (hall : response.length ≤ gets tail)
      {ops : List SdOp} {reads : List (BitVec 8)} (hmore : Session file srv' ops reads srv'') :
      Session file srv (f.head ++ .write f.crc :: (tail ++ ops))
        (List.replicate (gets f.head) 0xFF ++
          ((List.range (gets tail)).map (fun k => response.getD k 0xFF) ++ reads)) srv''
  /-- A frame without an answer, and no write behind it. -/
  | unanswered {srv srv' srv'' : SdServer φ} (f : SdTransfer) (hstart : f.cmd &&& 0x80 = 0)
      (hanswer : srv.answer file f.cmd f.arg = (none, srv'))
      {tail : List SdOp} (htail : writes tail = [])
      {ops : List SdOp} {reads : List (BitVec 8)} (hmore : Session file srv' ops reads srv'') :
      Session file srv (f.head ++ .write f.crc :: (tail ++ ops))
        (List.replicate (gets f.head) 0xFF ++
          ((List.range (gets tail)).map (fun _ => 0xFF) ++ reads)) srv''

/-! ## The card as the server -/

/-- The phase that the card is in. -/
def SdPhase.Matches (s : Sdcard φ) : SdPhase → Prop
  | .sdMode => s.cardState = .sdMode ∧ s.acmdPend = false ∧ s.acmd41Cnt = 0
  | .init polls app => s.cardState = .init ∧ s.acmdPend = app ∧
      s.acmd41Cnt = BitVec.ofNat 8 polls ∧ polls < 6
  | .ready => s.cardState = .ready ∧ s.acmdPend = false

/-- The card is in the state of the server, up to what it is sending. -/
structure SdServer.Holds (srv : SdServer φ) (s : Sdcard φ) : Prop where
  init : s.init = true
  idx : s.cmdBufIdx = 0
  phase : srv.phase.Matches s
  image : s.image = srv.image
  sector : ∀ i < 512, s.sectorBuf i = srv.sector i

/-- It waits for a frame. -/
structure SdServer.Waits (srv : SdServer φ) (s : Sdcard φ) : Prop extends srv.Holds s where
  state : s.cmdState = .idle ∨ s.cmdState = .cmd
  out : s.outReg = 0xFF

/-- It has a frame in its buffer. -/
structure SdServer.Heard (srv : SdServer φ) (cmd : BitVec 8) (arg : Fin 4 → BitVec 8)
    (u : Sdcard φ) : Prop where
  init : u.init = true
  state : u.cmdState = .cmd
  phase : srv.phase.Matches u
  image : u.image = srv.image
  sector : ∀ i < 512, u.sectorBuf i = srv.sector i
  out : u.outReg = 0xFF
  cmd : u.cmdBuf 0 = cmd
  arg : ∀ i : Fin 4, u.cmdBuf (i + 1) = arg i

/-- What reads and ignored bytes leave alone. -/
structure Sdcard.SameCard (s t : Sdcard φ) : Prop where
  init : t.init = s.init
  idx : t.cmdBufIdx = s.cmdBufIdx
  cardState : t.cardState = s.cardState
  acmdPend : t.acmdPend = s.acmdPend
  acmd41Cnt : t.acmd41Cnt = s.acmd41Cnt
  image : t.image = s.image
  sectorBuf : t.sectorBuf = s.sectorBuf

section SameCard
variable {s t u : Sdcard φ}

theorem Sdcard.SameCard.refl (s : Sdcard φ) : s.SameCard s := ⟨rfl, rfl, rfl, rfl, rfl, rfl, rfl⟩

theorem Sdcard.SameCard.get (h : s.SameCard t) : s.SameCard (sdcardSpiGet t).2 := by
  obtain ⟨h1, h2, h3, h4, h5, h6, h7⟩ := h
  unfold sdcardSpiGet
  split
  · exact ⟨h1, h2, h3, h4, h5, h6, h7⟩
  · dsimp only
    split
    · exact ⟨h1, h2, h3, h4, h5, h6, h7⟩
    · split <;> exact ⟨h1, h2, h3, h4, h5, h6, h7⟩
    · exact ⟨h1, h2, h3, h4, h5, h6, h7⟩
    · exact ⟨h1, h2, h3, h4, h5, h6, h7⟩
    · split <;> exact ⟨h1, h2, h3, h4, h5, h6, h7⟩
    · exact ⟨h1, h2, h3, h4, h5, h6, h7⟩
    · exact ⟨h1, h2, h3, h4, h5, h6, h7⟩
    · exact ⟨h1, h2, h3, h4, h5, h6, h7⟩
    · exact ⟨h1, h2, h3, h4, h5, h6, h7⟩

theorem SdPhase.Matches.same {phase : SdPhase} (h : phase.Matches s) (hsame : s.SameCard t) :
    phase.Matches t := by
  cases phase <;>
    simpa only [SdPhase.Matches, hsame.cardState, hsame.acmdPend, hsame.acmd41Cnt] using h

theorem SdServer.Holds.same {srv : SdServer φ} (h : srv.Holds s) (hsame : s.SameCard t) :
    srv.Holds t :=
  ⟨hsame.init.trans h.init, hsame.idx.trans h.idx, h.phase.same hsame, hsame.image.trans h.image,
    fun i hi => (congrFun hsame.sectorBuf i).trans (h.sector i hi)⟩

end SameCard

/-! ## A frame -/

section Frames
variable {s₀ s : Sdcard φ} {bytes : List (BitVec 8)}

/-- While a frame comes in, reads return `$FF`, and the rest of the card stays as it is. -/
theorem Sdcard.Gathers.quiet (file : SdImage φ) (ops : List SdOp) (h : s.Gathers s₀ bytes)
    (hout : s.outReg = 0xFF) (hlength : bytes.length + (writes ops).length ≤ 5)
    (hstart : ∀ b, (bytes ++ writes ops).head? = some b → b &&& 0x80 = 0) :
    sdReads file s ops = List.replicate (gets ops) 0xFF ∧
      (sdRun file s ops).acmd41Cnt = s.acmd41Cnt ∧ (sdRun file s ops).sectorBuf = s.sectorBuf := by
  induction ops generalizing s bytes with
  | nil => exact ⟨rfl, rfl, rfl⟩
  | cons op ops ih =>
    cases op with
    | get =>
      have hnext := get_of_quiet h.init (h.state.symm.imp_left And.right)
      have hfirst : (sdcardSpiGet s).1 = 0xFF := by
        have hnot : (!s.init) = false := by rw [h.init]; rfl
        rw [sdcardSpiGet, hnot, if_neg Bool.false_ne_true]
        exact hout
      have hgets : gets (.get :: ops) = gets ops + 1 := List.count_cons_self
      obtain ⟨hreads, hcnt, hsector⟩ := ih h.get (by rw [hnext]) hlength hstart
      rw [hnext] at hcnt hsector
      refine ⟨?_, ?_, ?_⟩
      · show (sdcardSpiGet s).1 :: sdReads file (sdcardSpiGet s).2 ops = _
        rw [hfirst, hreads, hgets, List.replicate_succ]
      · show (sdRun file (sdcardSpiGet s).2 ops).acmd41Cnt = _
        rw [hnext, hcnt]
      · show (sdRun file (sdcardSpiGet s).2 ops).sectorBuf = _
        rw [hnext, hsector]
    | write byte =>
      have hwrites : writes (.write byte :: ops) = byte :: writes ops := rfl
      rw [hwrites, List.length_cons] at hlength
      rw [hwrites] at hstart
      have hbyte : bytes = [] → byte &&& 0x80 = 0 := by
        rintro rfl
        exact hstart byte rfl
      have hstored : sdcardSpiWrite file s byte = s.store byte := by
        rw [h.write_eq file hbyte, if_neg (by omega)]
      rw [List.append_cons] at hstart
      have hgets : gets (.write byte :: ops) = gets ops := List.count_cons_of_ne (by simp)
      have hrest := ih (h.store byte) hout (by rw [List.length_append, List.length_singleton]; omega)
        hstart
      rw [hgets]
      show sdReads file (sdcardSpiWrite file s byte) ops = _ ∧
        (sdRun file (sdcardSpiWrite file s byte) ops).acmd41Cnt = _ ∧
        (sdRun file (sdcardSpiWrite file s byte) ops).sectorBuf = _
      rw [hstored]
      exact hrest

/-- The sixth byte finds the frame in the buffer. -/
theorem SdServer.Waits.heard (file : SdImage φ) {srv : SdServer φ} (h : srv.Waits s) (f : SdTransfer)
    (hstart : f.cmd &&& 0x80 = 0) : sdReads file s f.head = List.replicate (gets f.head) 0xFF ∧
      ∃ u : Sdcard φ, srv.Heard f.cmd f.arg u ∧ f.done file s = u.handle file := by
  have hframe : s.AtFrame := ⟨h.state, h.idx⟩
  have hgathers := hframe.gathers h.init
  have hlength : ([] : List (BitVec 8)).length + (writes f.head).length ≤ 5 := by
    rw [f.head_writes]
    exact Nat.le_refl 5
  have hfirst : ∀ b, ([] ++ writes f.head).head? = some b → b &&& 0x80 = 0 := by
    intro b hb
    rw [f.head_writes] at hb
    obtain rfl := Option.some.inj hb
    exact hstart
  obtain ⟨hreads, hcnt, hsector⟩ := hgathers.quiet file f.head h.out hlength hfirst
  have hhead := hgathers.run file f.head hlength hfirst
  rw [f.head_writes, List.nil_append] at hhead
  refine ⟨hreads, (sdRun file s f.head).store f.crc, ?_, ?_⟩
  · have hu := hhead.store f.crc
    refine ⟨hu.init, rfl, ?_, hu.image.trans h.image, fun i hi => ?_, hu.out h.out, hu.buf 0 _ rfl, ?_⟩
    · have hphase := h.phase
      cases hcase : srv.phase <;> rw [hcase] at hphase <;>
        simpa only [SdPhase.Matches, hu.cardState, hu.acmdPend,
          show ((sdRun file s f.head).store f.crc).acmd41Cnt = s.acmd41Cnt from hcnt] using hphase
    · exact (congrFun hsector i).trans (h.sector i hi)
    · intro i
      match i with
      | 0 => exact hu.buf 1 _ rfl
      | 1 => exact hu.buf 2 _ rfl
      | 2 => exact hu.buf 3 _ rfl
      | 3 => exact hu.buf 4 _ rfl
  · exact (hhead.write_eq file fun hnil => (nomatch hnil)).trans (if_pos rfl)

end Frames

/-! ## Answers -/

/-- In the states of `P` the card has put out the bytes of the response up to the one given; behind
the response it is back in IDLE. -/
structure Sends (response : List (BitVec 8)) (P : Sdcard φ → Nat → Prop) : Prop where
  get : ∀ {s k}, P s k →
    (sdcardSpiGet s).1 = response.getD k 0xFF ∧ P (sdcardSpiGet s).2 (k + 1)
  busy : ∀ {s k}, P s k → s.cmdState ≠ .cmd
  done : ∀ {s k}, P s k → response.length ≤ k → s.cmdState = .idle ∧ s.outReg = 0xFF

/-- One byte in the register. -/
structure Sdcard.Single (b : BitVec 8) (s : Sdcard φ) (k : Nat) : Prop where
  init : s.init = true
  first : k = 0 → s.cmdState = .r1 ∧ s.outReg = b
  later : 0 < k → s.cmdState = .idle ∧ s.outReg = 0xFF

theorem single_sends (b : BitVec 8) : Sends [b] (Sdcard.Single b : Sdcard φ → Nat → Prop) := by
  refine ⟨fun {s k} h => ?_, fun {s k} h => ?_, fun {s k} h hk => h.later hk⟩
  · have hnot : (!s.init) = false := by rw [h.init]; rfl
    cases k with
    | zero =>
      obtain ⟨hstate, hout⟩ := h.first rfl
      unfold sdcardSpiGet
      rw [hnot, if_neg Bool.false_ne_true, hstate]
      exact ⟨hout, h.init, fun hzero => absurd hzero (by omega), fun _ => ⟨rfl, rfl⟩⟩
    | succ k =>
      obtain ⟨hstate, hout⟩ := h.later (Nat.succ_pos k)
      rw [get_of_quiet h.init (.inl hstate)]
      refine ⟨?_, h.init, fun hzero => absurd hzero (by omega), fun _ => ⟨hstate, rfl⟩⟩
      rw [sdcardSpiGet, hnot, if_neg Bool.false_ne_true]
      exact hout
  · cases k with
    | zero =>
      rw [(h.first rfl).1]
      decide
    | succ k =>
      rw [(h.later (Nat.succ_pos k)).1]
      decide

theorem versionStream_getD (arg : Fin 4 → BitVec 8) (k : Nat) :
    (0xFF :: List.ofFn arg).getD k 0xFF = versionStream arg k := by
  cases k with
  | zero => rfl
  | succ k =>
    by_cases hk : k < 4
    · rw [versionStream, dif_pos ⟨by omega, by omega⟩, List.getD_cons_succ,
        List.getD_eq_getElem?_getD, List.getElem?_ofFn, dif_pos hk]
      rfl
    · rw [versionStream_outside (by omega), List.getD_cons_succ, List.getD_eq_getElem?_getD,
        List.getElem?_ofFn, dif_neg hk]
      rfl

theorem version_sends (arg : Fin 4 → BitVec 8) :
    Sends (0xFF :: List.ofFn arg) (Sdcard.Echoing arg : Sdcard φ → Nat → Prop) := by
  refine ⟨fun {s k} h => ?_, fun {s k} h => ?_, fun {s k} h hk => ?_⟩
  · rw [versionStream_getD]
    exact h.get
  · rw [h.state]
    split <;> decide
  · have hlength : (0xFF :: List.ofFn arg).length = 5 := by simp
    rw [hlength] at hk
    refine ⟨h.state.trans (if_neg (by omega)), h.out.trans (versionStream_outside (by omega))⟩

theorem blockAnswer_getD (sector : Nat → BitVec 8) (k : Nat) :
    (blockAnswer sector).getD k 0xFF = blockStream ((List.range 512).map sector) k := by
  have hlength : ((List.range 512).map sector).length = 512 := by simp
  unfold blockAnswer
  generalize (List.range 512).map sector = block at hlength ⊢
  unfold blockStream
  match k with
  | 0 | 1 | 2 => rfl
  | k + 3 =>
    rw [if_neg (by omega), if_neg (by omega), if_neg (by omega), List.getD_cons_succ,
      List.getD_cons_succ, List.getD_cons_succ, List.getD_eq_getElem?_getD, Nat.add_sub_cancel]
    by_cases hdata : k < 512
    · rw [List.getElem?_append_left (by omega), if_pos (by omega), List.getD_eq_getElem?_getD,
        List.getElem?_eq_getElem (by omega)]
      rfl
    · rw [List.getElem?_append_right (by omega), if_neg (by omega), hlength]
      by_cases hcrc : k < 514
      · obtain rfl | rfl : k = 512 ∨ k = 513 := by omega
        · rfl
        · rfl
      · rw [if_neg (by omega), List.getElem?_eq_none (by simp; omega)]
        rfl

theorem block_sends (sector : Nat → BitVec 8) (image : φ) :
    Sends (blockAnswer sector) (Sdcard.Sending ((List.range 512).map sector) image) := by
  refine ⟨fun {s k} h => ?_, fun {s k} h => ?_, fun {s k} h hk => ?_⟩
  · rw [blockAnswer_getD]
    exact h.get
  · rw [h.state]
    exact blockState_ne_cmd k
  · have hlength : (blockAnswer sector).length = 517 := by simp [blockAnswer]
    rw [hlength] at hk
    constructor
    · rw [h.state, blockState]
      rw [if_neg (by omega), if_neg (by omega), if_neg (by omega), if_neg (by omega),
        if_neg (by omega)]
    · rw [h.out, blockStream]
      rw [if_neg (by omega), if_neg (by omega), if_neg (by omega), if_neg (by omega),
        if_neg (by omega)]

/-- What the sixth byte leaves: the response to send, or nothing. -/
def Answering (answer : Option (List (BitVec 8))) (t : Sdcard φ) : Prop :=
  match answer with
  | some response => ∃ P, Sends response P ∧ P t 0
  | none => t.cmdState = .cmd ∧ t.outReg = 0xFF

section Handle
variable {file : SdImage φ} {srv : SdServer φ} {cmd : BitVec 8} {arg : Fin 4 → BitVec 8}
  {u : Sdcard φ}

theorem SdServer.Heard.number (h : srv.Heard cmd arg u) :
    cmdBlock u.cmdBuf = (argNumber arg : Int) * 512 := by
  have h1 : u.cmdBuf 1 = arg 0 := h.arg 0
  have h2 : u.cmdBuf 2 = arg 1 := h.arg 1
  have h3 : u.cmdBuf 3 = arg 2 := h.arg 2
  have h4 : u.cmdBuf 4 = arg 3 := h.arg 3
  rw [cmdBlock_eq, h1, h2, h3, h4]
  rfl

theorem single_start {t : Sdcard φ} {b : BitVec 8} (hinit : t.init = true) (hstate : t.cmdState = .r1)
    (hout : t.outReg = b) : Answering (some [b]) t :=
  ⟨_, single_sends b, hinit, fun _ => ⟨hstate, hout⟩, fun hpos => absurd hpos (by decide)⟩

/-- The phase is that of the card, whatever its registers. -/
theorem SdServer.Heard.phase_of (h : srv.Heard cmd arg u) {t : Sdcard φ}
    (hcard : t.cardState = u.cardState) (hacmd : t.acmdPend = u.acmdPend)
    (hcnt : t.acmd41Cnt = u.acmd41Cnt) : srv.phase.Matches t := by
  have hphase := h.phase
  cases hcase : srv.phase <;> rw [hcase] at hphase <;>
    simpa only [SdPhase.Matches, hcard, hacmd, hcnt] using hphase

/-- CMD17, whatever the image file does. -/
theorem SdServer.Heard.cmd17 (h : srv.Heard cmd arg u) (hready : srv.phase = .ready) :
    Answering (some (srv.readBlock file (argNumber arg)).1) { handleCmd17 file u with cmdBufIdx := 0 } ∧
      (srv.readBlock file (argNumber arg)).2.Holds { handleCmd17 file u with cmdBufIdx := 0 } := by
  have hphase := h.phase
  rw [hready] at hphase
  have hsector : ∀ (bytes : List (BitVec 8)), ∀ i < 512,
      (if i < 512 then bytes.getD i (u.sectorBuf i) else u.sectorBuf i) =
        bytes.getD i (srv.sector i) := by
    intro bytes i hi
    rw [if_pos hi, h.sector i hi]
  rcases hseek : file.lseek ((argNumber arg : Int) * 512) srv.image with ⟨seeked, image⟩
  rcases hread : file.read image with ⟨_ | bytes, image'⟩
  · -- nothing is read: an error, whatever the seek came to
    cases seeked <;>
      simp only [handleCmd17, SdServer.readBlock, h.number, h.image, hseek, hread, if_true,
        Bool.false_eq_true, if_false]
    · exact ⟨single_start h.init rfl rfl, h.init, rfl, h.phase_of rfl rfl rfl, rfl, h.sector⟩
    · exact ⟨single_start h.init rfl rfl, h.init, rfl, h.phase_of rfl rfl rfl, rfl, h.sector⟩
  · cases seeked <;>
      simp only [handleCmd17, SdServer.readBlock, h.number, h.image, hseek, hread, if_true,
        Bool.false_eq_true, if_false]
    · exact ⟨single_start h.init rfl rfl, h.init, rfl, h.phase_of rfl rfl rfl, rfl, hsector bytes⟩
    · refine ⟨⟨_, block_sends _ image', h.init, rfl, hphase.1, rfl, fun i hi => ?_, rfl,
        fun hdata => CmdState.noConfusion hdata, rfl⟩, h.init, rfl, h.phase_of rfl rfl rfl, rfl,
        hsector bytes⟩
      refine (hsector bytes i hi).trans ?_
      rw [List.getD_eq_getElem?_getD, List.getD_eq_getElem?_getD]
      simp [hi]

variable (file) in
/-- The sixth byte leaves the card with the server's answer to send, in the server's state. -/
theorem SdServer.Heard.handle (h : srv.Heard cmd arg u) :
    Answering (srv.answer file cmd arg).1 (u.handle file) ∧
      (srv.answer file cmd arg).2.Holds (u.handle file) := by
  have hphase := h.phase
  unfold Sdcard.handle SdServer.answer
  cases hcase : srv.phase with
  | sdMode =>
    rw [hcase] at hphase
    obtain ⟨hcard, hacmd, hcnt⟩ := hphase
    rw [hacmd, if_neg Bool.false_ne_true, handleCmd, hcard, h.cmd]
    dsimp only
    refine ⟨single_start ?_ rfl rfl, ?_⟩
    · split <;> exact h.init
    · split
      · exact ⟨h.init, rfl, ⟨rfl, hacmd, hcnt, by decide⟩, h.image, h.sector⟩
      · exact ⟨h.init, rfl, h.phase_of rfl rfl rfl, h.image, h.sector⟩
  | init polls app =>
    rw [hcase] at hphase
    obtain ⟨hcard, hacmd, hcnt, hpolls⟩ := hphase
    cases app with
    | false =>
      rw [hacmd, if_neg Bool.false_ne_true, handleCmd, hcard, h.cmd]
      dsimp only
      split
      · refine ⟨⟨_, version_sends arg, h.init, rfl, fun _ => rfl, fun i => ?_, h.out⟩, ?_⟩
        · show (if (i : Nat) + 1 = 0 then 0x01 else if (i : Nat) + 1 ≤ 4 then u.cmdBuf (i + 1)
            else u.rspBuf (i + 1)) = arg i
          rw [if_neg (by omega), if_pos (by omega)]
          exact h.arg i
        · exact ⟨h.init, rfl, h.phase_of hcard.symm rfl rfl, h.image, h.sector⟩
      · split
        · exact ⟨single_start h.init rfl rfl, h.init, rfl, ⟨rfl, rfl, hcnt, hpolls⟩, h.image, h.sector⟩
        · exact ⟨⟨h.state, h.out⟩, h.init, rfl, h.phase_of rfl rfl rfl, h.image, h.sector⟩
    | true =>
      rw [hacmd, if_pos rfl, handleAcmd, if_pos hcard, h.cmd]
      dsimp only
      have hnext : u.acmd41Cnt + 1 = BitVec.ofNat 8 (polls + 1) := by
        rw [hcnt, BitVec.ofNat_add]
        rfl
      split
      · have hsix : u.acmd41Cnt + 1 = 6 ↔ polls + 1 = 6 := by
          have hval : (6 : BitVec 8).toNat = 6 := rfl
          rw [hnext, ← BitVec.toNat_inj, BitVec.toNat_ofNat, hval]
          omega
        simp only [hsix]
        by_cases hlast : polls + 1 = 6
        · simp only [hlast, if_true]
          exact ⟨single_start h.init rfl rfl, h.init, rfl, ⟨rfl, rfl⟩, h.image, h.sector⟩
        · simp only [hlast, if_false]
          exact ⟨single_start h.init rfl rfl, h.init, rfl, ⟨hcard, rfl, hnext, by omega⟩, h.image,
            h.sector⟩
      · exact ⟨⟨h.state, h.out⟩, h.init, rfl, ⟨hcard, rfl, hcnt, hpolls⟩, h.image, h.sector⟩
  | ready =>
    rw [hcase] at hphase
    obtain ⟨hcard, hacmd⟩ := hphase
    rw [hacmd, if_neg Bool.false_ne_true, handleCmd, hcard, h.cmd]
    dsimp only
    split
    · exact h.cmd17 hcase
    · exact ⟨⟨h.state, h.out⟩, h.init, rfl, h.phase_of rfl rfl rfl, h.image, h.sector⟩

end Handle

/-! ## Sessions -/

section Sessions
variable {file : SdImage φ} {s t : Sdcard φ} {srv srv' : SdServer φ}

theorem sdRun_append (file : SdImage φ) (s : Sdcard φ) (ops more : List SdOp) :
    sdRun file s (ops ++ more) = sdRun file (sdRun file s ops) more :=
  List.foldl_append

theorem sdReads_append (file : SdImage φ) (s : Sdcard φ) (ops more : List SdOp) :
    sdReads file s (ops ++ more) = sdReads file s ops ++ sdReads file (sdRun file s ops) more := by
  induction ops generalizing s with
  | nil => rfl
  | cons op ops ih =>
    show (SdOp.emit file s op).1.toList ++ sdReads file (SdOp.emit file s op).2 (ops ++ more) = _
    rw [ih, ← List.append_assoc]
    cases op <;> rfl

/-- A frame, and what comes after its sixth byte. -/
theorem sdRun_frame (f : SdTransfer) (rest : List SdOp) :
    sdRun file s (f.head ++ .write f.crc :: rest) = sdRun file (f.done file s) rest :=
  sdRun_append file s f.head (.write f.crc :: rest)

theorem sdReads_frame (f : SdTransfer) (rest : List SdOp) :
    sdReads file s (f.head ++ .write f.crc :: rest) =
      sdReads file s f.head ++ sdReads file (f.done file s) rest :=
  sdReads_append file s f.head (.write f.crc :: rest)

variable (file) in
/-- All of a response is read, with bytes among the reads that have no start bit. -/
theorem Sends.tail {response : List (BitVec 8)} {P : Sdcard φ → Nat → Prop} (h : Sends response P)
    (ht : P t 0) (hholds : srv.Holds t) {tail : List SdOp} (htail : ∀ op ∈ tail, op.NoStart)
    (hall : response.length ≤ gets tail) :
    sdReads file t tail = (List.range (gets tail)).map (fun k => response.getD k 0xFF) ∧
      srv.Waits (sdRun file t tail) := by
  obtain ⟨hreads, hend, hsame⟩ := reads_follow file SdOp.NoStart
    (P := fun s k => P s k ∧ t.SameCard s)
    (fun {s k} hs => ⟨(h.get hs.1).1, (h.get hs.1).2, hs.2.get⟩)
    (fun {s k byte} hs hbyte => by
      have hskip : s.Ignores byte := ⟨h.busy hs.1, fun _ => hbyte⟩
      rw [write_of_ignores file hskip]
      exact hs) htail ⟨ht, .refl t⟩
  obtain ⟨hidle, hout⟩ := h.done hend hall
  exact ⟨hreads, { hholds.same hsame with state := .inl hidle, out := hout }⟩

variable (file) in
/-- Nothing is written after a frame without an answer. -/
theorem silent_tail (hstate : t.cmdState = .cmd) (hout : t.outReg = 0xFF) (hholds : srv.Holds t)
    {tail : List SdOp} (htail : writes tail = []) :
    sdReads file t tail = (List.range (gets tail)).map (fun _ => 0xFF) ∧
      srv.Waits (sdRun file t tail) := by
  obtain ⟨hreads, ⟨hcmd, hreg⟩, hsame⟩ := reads_follow file (fun op => op = .get)
    (P := fun s _ => (s.cmdState = .cmd ∧ s.outReg = 0xFF) ∧ t.SameCard s)
    (fun {s k} hs => by
      obtain ⟨⟨hcmd, hreg⟩, hsame⟩ := hs
      have hinit : s.init = true := hsame.init.trans hholds.init
      have hnot : (!s.init) = false := by rw [hinit]; rfl
      refine ⟨?_, ?_, hsame.get⟩
      · rw [sdcardSpiGet, hnot, if_neg Bool.false_ne_true]
        exact hreg
      · rw [get_of_quiet hinit (.inr hcmd)]
        exact ⟨hcmd, rfl⟩)
    (fun _ hop => SdOp.noConfusion hop)
    (fun op hop => by
      cases op with
      | get => rfl
      | write byte =>
        have hbyte : byte ∈ writes tail := List.mem_filterMap.mpr ⟨_, hop, rfl⟩
        rw [htail] at hbyte
        exact absurd hbyte List.not_mem_nil) ⟨⟨hstate, hout⟩, .refl t⟩
  exact ⟨hreads, { hholds.same hsame with state := .inr hcmd, out := hreg }⟩

/-- Over a session the card answers as the server does, and ends where it does. -/
theorem SdServer.Session.run {ops : List SdOp} {reads : List (BitVec 8)}
    (h : SdServer.Session file srv ops reads srv') (hs : srv.Waits s) :
    sdReads file s ops = reads ∧ srv'.Waits (sdRun file s ops) := by
  induction h generalizing s with
  | done srv => exact ⟨rfl, hs⟩
  | @answered srv srv' srv'' f hstart response hanswer tail htail hall ops reads _ ih =>
    obtain ⟨hhead, u, hheard, hdone⟩ := hs.heard file f hstart
    obtain ⟨hanswering, hholds⟩ := hheard.handle file
    rw [hanswer, ← hdone] at hanswering hholds
    obtain ⟨P, hsends, hP⟩ := hanswering
    obtain ⟨htailReads, hwaits⟩ := hsends.tail file hP hholds htail hall
    obtain ⟨hrest, hend⟩ := ih hwaits
    rw [sdReads_frame, sdRun_frame, sdReads_append, sdRun_append, hhead, htailReads, hrest]
    exact ⟨rfl, hend⟩
  | @unanswered srv srv' srv'' f hstart hanswer tail htail ops reads _ ih =>
    obtain ⟨hhead, u, hheard, hdone⟩ := hs.heard file f hstart
    obtain ⟨hanswering, hholds⟩ := hheard.handle file
    rw [hanswer, ← hdone] at hanswering hholds
    obtain ⟨htailReads, hwaits⟩ := silent_tail file hanswering.1 hanswering.2 hholds htail
    obtain ⟨hrest, hend⟩ := ih hwaits
    rw [sdReads_frame, sdRun_frame, sdReads_append, sdRun_append, hhead, htailReads, hrest]
    exact ⟨rfl, hend⟩

variable (file) in
/-- Between frames bytes without a start bit change nothing. -/
theorem SdServer.Waits.fill {fill : List SdOp} (h : srv.Waits s) (hidle : s.cmdState = .idle)
    (hfill : ∀ op ∈ fill, op.NoStart) :
    sdReads file s fill = List.replicate (gets fill) 0xFF ∧ srv.Waits (sdRun file s fill) := by
  have hsends : Sends [] (fun (s : Sdcard φ) (_ : Nat) => s.init = true ∧ s.cmdState = .idle ∧
      s.outReg = 0xFF) := by
    refine ⟨fun {s k} hs => ?_, fun {s k} hs => ?_, fun {s k} hs _ => hs.2⟩
    · obtain ⟨hinit, hstate, hout⟩ := hs
      have hnot : (!s.init) = false := by rw [hinit]; rfl
      rw [get_of_quiet hinit (.inl hstate)]
      refine ⟨?_, hinit, hstate, rfl⟩
      rw [sdcardSpiGet, hnot, if_neg Bool.false_ne_true]
      exact hout
    · rw [hs.2.1]
      decide
  obtain ⟨hreads, hwaits⟩ := hsends.tail file ⟨h.init, hidle, h.out⟩ h.toHolds hfill
    (Nat.zero_le _)
  refine ⟨hreads.trans ?_, hwaits⟩
  rw [List.eq_replicate_iff]
  simp

/-- The server after `sdcard_init`. -/
theorem start_waits (image : φ) : (SdServer.start image).Waits (sdcardInit image) :=
  { init := rfl, idx := rfl, phase := ⟨rfl, rfl, rfl⟩, image := rfl, sector := fun _ _ => rfl,
    state := .inl rfl, out := rfl }

end Sessions

/-- Every session of the card from `sdcard_init` on, with fill bytes before the first frame. -/
theorem sd_session {file : SdImage φ} (image : φ) {fill : List SdOp}
    (hfill : ∀ op ∈ fill, op.NoStart) {ops : List SdOp} {reads : List (BitVec 8)}
    {srv : SdServer φ} (h : SdServer.Session file (.start image) ops reads srv) :
    sdReads file (sdcardInit image) (fill ++ ops) = List.replicate (gets fill) 0xFF ++ reads ∧
      srv.Waits (sdRun file (sdcardInit image) (fill ++ ops)) := by
  obtain ⟨hfirst, hwaits⟩ := (start_waits image).fill file rfl hfill
  obtain ⟨hreads, hend⟩ := h.run hwaits
  rw [sdReads_append, sdRun_append, hfirst, hreads]
  exact ⟨rfl, hend⟩

/-- A frame without argument. -/
def bareFrame (cmd crc : BitVec 8) : SdTransfer where
  cmd := cmd
  arg _ := 0
  crc := crc
  head := [.write cmd, .write 0, .write 0, .get, .write 0, .write 0]
  head_writes := rfl

/-- CMD0, then CMD17 too early, which gets no answer, then CMD55. -/
theorem sd_session_of_early :
    sdReads blockImage (sdcardInit ()) ([.write 0xFF, .get] ++
      ((bareFrame CMD0 0x95).head ++ .write 0x95 :: ([.get, .write 0xFF] ++
        ((bareFrame CMD17 0xFF).head ++ .write 0xFF :: ([.get] ++
          ((bareFrame CMD55 0xFF).head ++ .write 0xFF :: ([.get] ++ []))))))) =
      [0xFF, 0xFF, 0x01, 0xFF, 0xFF, 0xFF, 0x01] := by
  have hfill : ∀ op ∈ [SdOp.write 0xFF, .get], op.NoStart := by
    simp [SdOp.NoStart]
  refine (sd_session () hfill (.answered (bareFrame CMD0 0x95) (by decide) rfl ?_ (by decide)
    (.unanswered (bareFrame CMD17 0xFF) (by decide) rfl rfl
      (.answered (bareFrame CMD55 0xFF) (by decide) rfl ?_ (by decide) (.done _))))).1.trans ?_
  · simp [SdOp.NoStart]
  · simp [SdOp.NoStart]
  · decide

/-! ## The card on the board -/

/-- The sessions of the card through the VIA: the levels of MOSI spell bytes that are a session of the
server, and the levels that the program reads spell the bytes that it answers. -/
theorem sd_session_over_via {file : SdImage φ} (cb : Nat) {cxt : BitbangSpi (Sdcard φ)}
    (h : cxt.AtByte) {srv srv' : SdServer φ} (hcard : srv.Waits cxt.card)
    {sent reads : List (BitVec 8)} (hsession : SdServer.Session file srv (sdBytes sent) reads srv')
    (ops : List ViaOp) (husable : EdgesUsable (cxt.session (sdcard file) cb ops).1)
    (hsent : (cxt.session (sdcard file) cb ops).1.map SpiEdge.mosi = sent.flatMap bits) :
    (cxt.session (sdcard file) cb ops).1.map SpiEdge.seen = reads.flatMap bits ∧
      srv'.Waits (cxt.session (sdcard file) cb ops).2.card := by
  obtain ⟨hseen, l, hstate, -, hend⟩ := h.session_words (sdcard file) cb ops husable _ hsent
  obtain ⟨hreads, hwaits⟩ := hsession.run hcard
  rw [sdExchange_eq] at hseen hstate
  rw [hreads] at hseen
  rw [hend.card, hstate]
  exact ⟨hseen, hwaits⟩

/-- CMD0 from the program, and the byte that brings its answer. -/
theorem sd_session_over_via_of_reset :
    ((wiredCard (sdcardInit ())).session (sdcard blockImage) 0
        (driveBytes [0x40, 0x00, 0x00, 0x00, 0x00, 0x95, 0xFF])).1.map SpiEdge.seen =
      ([0xFF, 0xFF, 0xFF, 0xFF, 0xFF, 0xFF, 0x01] : List (BitVec 8)).flatMap bits := by
  have hcard : (SdServer.start ()).Waits (wiredCard (sdcardInit ())).card := by
    rw [wiredCard_card]
    exact start_waits ()
  let frame : SdTransfer :=
    { cmd := CMD0, arg := fun _ => 0, crc := 0x95
      head := sdBytes [CMD0, 0, 0, 0, 0] ++ [.get], head_writes := rfl }
  have htail : ∀ op ∈ [SdOp.get, .write 0xFF], op.NoStart := by simp [SdOp.NoStart]
  have hsession : SdServer.Session blockImage (.start ())
      (sdBytes [0x40, 0x00, 0x00, 0x00, 0x00, 0x95, 0xFF]) _ _ :=
    .answered frame (by decide) rfl htail (by decide) (.done _)
  exact (sd_session_over_via 0 (bitbangSpiInit_atByte _ _ _) hcard hsession _ (by decide +kernel)
    (by decide +kernel)).1

end Cb6502
