import Cb6502.Framing
import Cb6502.Lib.Emission

/- What the reads of the SD card return after a command. The output register is one byte ahead of
   the state: a read returns the byte that the state before it has put there, and loads the next.

   What is proved:
     1. `Gathers.run` — the card has the frame in its buffer when the sixth byte comes, whatever
        reads there are among its bytes.
     2. `Sdcard.Sending.get` — the k-th read of a block is byte k of `blockStream`; so
        `block_read_stream`, for every block number and every block.
     3. `version_stream` — the bytes after CMD8 are `$FF`, the argument, and `$FF` again, so the
        R1 byte that `handle_cmd` puts into the response buffer is not among them
        (`version_never_r1`). -/
namespace Cb6502

variable {φ : Type}

/-! ## The bytes that are read -/

/-- An operation of the host, with the byte that a read returns. -/
def SdOp.emit (file : SdImage φ) (s : Sdcard φ) (op : SdOp) : Option (BitVec 8) × Sdcard φ :=
  match op with
  | .write byte => (none, sdcardSpiWrite file s byte)
  | .get => (some (sdcardSpiGet s).1, (sdcardSpiGet s).2)

/-- The bytes that the reads of a session return. -/
def sdReads (file : SdImage φ) (s : Sdcard φ) (ops : List SdOp) : List (BitVec 8) :=
  Emission.outputs (SdOp.emit file) s ops

theorem sdRun_final (file : SdImage φ) (s : Sdcard φ) (ops : List SdOp) :
    Emission.final (SdOp.emit file) s ops = sdRun file s ops := by
  induction ops generalizing s with
  | nil => rfl
  | cons op ops ih => cases op <;> exact ih _

theorem sdReads_length (file : SdImage φ) (s : Sdcard φ) (ops : List SdOp) :
    (sdReads file s ops).length = gets ops := by
  induction ops generalizing s with
  | nil => rfl
  | cons op ops ih =>
    cases op with
    | write byte =>
      have hgets : gets (.write byte :: ops) = gets ops := List.count_cons_of_ne (by simp)
      rw [hgets]
      exact ih _
    | get =>
      have hgets : gets (.get :: ops) = gets ops + 1 := List.count_cons_self
      rw [hgets, ← ih (sdcardSpiGet s).2]
      rfl

/-- The host writes no byte with a start bit. -/
def SdOp.NoStart : SdOp → Prop
  | .write byte => byte &&& 0x80 ≠ 0
  | .get => True

/-- The next reads of the card return the stream, and leave it in the states of `P`. -/
theorem reads_follow (file : SdImage φ) (allowed : SdOp → Prop) {stream : Nat → BitVec 8}
    {P : Sdcard φ → Nat → Prop}
    (hget : ∀ {s k}, P s k → (sdcardSpiGet s).1 = stream k ∧ P (sdcardSpiGet s).2 (k + 1))
    (hwrite : ∀ {s k byte}, P s k → allowed (.write byte) → P (sdcardSpiWrite file s byte) k)
    {ops : List SdOp} (hall : ∀ op ∈ ops, allowed op) {s : Sdcard φ} (hs : P s 0) :
    sdReads file s ops = (List.range (gets ops)).map stream ∧ P (sdRun file s ops) (gets ops) := by
  have hfollows : Emission.Follows (SdOp.emit file) allowed stream P := by
    refine ⟨fun {s k op} h hop hout => ?_, fun {s k op byte} h hop hout => ?_⟩
    · cases op with
      | write byte => exact hwrite h hop
      | get => cases hout
    · cases op with
      | write _ => cases hout
      | get =>
        obtain rfl := Option.some.inj hout
        exact hget h
  obtain ⟨hreads, hfinal⟩ := hfollows.run hall hs
  have hlength := sdReads_length file s ops
  rw [sdReads] at hlength
  rw [hlength] at hreads hfinal
  rw [sdRun_final, Nat.zero_add] at hfinal
  rw [← List.range_eq_range'] at hreads
  exact ⟨hreads, hfinal⟩

/-! ## Reachable cards -/

/-- The states in which a block is sent. -/
def CmdState.sendsBlock : CmdState → Bool
  | .r1Data | .dataStartToken | .data | .crc1 | .crc2 => true
  | .idle | .cmd | .r1 | .r7 => false

/-- Only INIT waits for an application command and only READY sends blocks; before, the output register
is empty between the responses. -/
structure Sdcard.Phased (s : Sdcard φ) : Prop where
  acmd : s.acmdPend = true → s.cardState = .init
  block : s.cmdState.sendsBlock = true → s.cardState = .ready
  out : s.cardState ≠ .ready → s.cmdState = .idle ∨ s.cmdState = .cmd → s.outReg = 0xFF

theorem Sdcard.Phased.get {s : Sdcard φ} (hinit : s.init = true) (h : s.Phased) :
    (sdcardSpiGet s).2.Phased := by
  have hnot : (!s.init) = false := by rw [hinit]; rfl
  unfold sdcardSpiGet
  rw [hnot, if_neg Bool.false_ne_true]
  have hblock := h.block
  dsimp only
  cases hstate : s.cmdState with
  | idle | cmd => exact ⟨h.acmd, fun hsends => by simp [CmdState.sendsBlock] at hsends, fun _ _ => rfl⟩
  | r1 => exact ⟨h.acmd, fun hsends => (nomatch hsends), fun _ _ => rfl⟩
  | r7 =>
    dsimp only
    split
    · exact ⟨h.acmd, fun hsends => (nomatch hsends), fun _ _ => rfl⟩
    · refine ⟨h.acmd, fun hsends => ?_, fun _ hquiet => ?_⟩
      · simp [CmdState.sendsBlock] at hsends
      · simp at hquiet
  | r1Data | dataStartToken | crc1 | crc2 =>
    rw [hstate] at hblock
    exact ⟨h.acmd, fun _ => hblock rfl, fun hnot => absurd (hblock rfl) hnot⟩
  | data =>
    rw [hstate] at hblock
    dsimp only
    split
    · exact ⟨h.acmd, fun _ => hblock rfl, fun hnot => absurd (hblock rfl) hnot⟩
    · exact ⟨h.acmd, fun _ => hblock rfl, fun hnot => absurd (hblock rfl) hnot⟩

/-- A complete command leaves the card in a response that fits its state, or in CMD as it was. -/
theorem Sdcard.Phased.handle (file : SdImage φ) {u : Sdcard φ} (hcmd : u.cmdState = .cmd)
    (h : u.Phased) : (u.handle file).Phased := by
  unfold Sdcard.handle
  cases hacmd : u.acmdPend with
  | true =>
    have hcard := h.acmd hacmd
    rw [if_pos rfl, handleAcmd, if_pos hcard]
    refine ⟨fun hpend => (nomatch hpend), ?_, ?_⟩
    · intro hsends
      by_cases h41 : u.cmdBuf 0 = ACMD41
      · simp [h41, CmdState.sendsBlock] at hsends
      · simp [h41, hcmd, CmdState.sendsBlock] at hsends
    · intro hnot hquiet
      by_cases h41 : u.cmdBuf 0 = ACMD41
      · simp [h41] at hquiet
      · simp only [h41, if_false] at hnot ⊢
        exact h.out hnot (.inr hcmd)
  | false =>
    rw [if_neg Bool.false_ne_true]
    have hnone : u.acmdPend ≠ true := by rw [hacmd]; exact Bool.false_ne_true
    unfold handleCmd
    split
    · dsimp only
      split
      · exact ⟨fun _ => rfl, fun hsends => (nomatch hsends), fun _ hquiet => by simp at hquiet⟩
      · exact ⟨fun hpend => absurd hpend hnone, fun hsends => (nomatch hsends),
          fun _ hquiet => by simp at hquiet⟩
    · rename_i hcard
      split
      · exact ⟨fun _ => hcard, fun hsends => (nomatch hsends), fun _ hquiet => by simp at hquiet⟩
      · split
        · exact ⟨fun _ => hcard, fun hsends => (nomatch hsends), fun _ hquiet => by simp at hquiet⟩
        · exact ⟨h.acmd, h.block, h.out⟩
    · rename_i hcard
      split
      · -- a card in READY stays in it
        have hready : (handleCmd17 file u).cardState = .ready := by
          unfold handleCmd17
          dsimp only
          split <;> split <;> exact hcard
        have hpend : (handleCmd17 file u).acmdPend = u.acmdPend := by
          unfold handleCmd17
          dsimp only
          split <;> split <;> rfl
        exact ⟨fun hyes => absurd (hpend.symm.trans hyes) hnone, fun _ => hready,
          fun hnot => absurd hready hnot⟩
      · exact ⟨h.acmd, h.block, h.out⟩

theorem Sdcard.Phased.write (file : SdImage φ) {s : Sdcard φ} (hinit : s.init = true) (h : s.Phased)
    (byte : BitVec 8) : (sdcardSpiWrite file s byte).Phased := by
  by_cases hskip : s.Ignores byte
  · rw [write_of_ignores file hskip]
    exact h
  · have hquiet : s.cmdState = .idle ∨ s.cmdState = .cmd := by
      by_cases hcmd : s.cmdState = .cmd
      · exact .inr hcmd
      · refine .inl (Decidable.byContradiction fun hidle => hskip ⟨hcmd, fun hi => absurd hi hidle⟩)
    have hstored : (s.store byte).Phased :=
      ⟨h.acmd, fun hsends => (nomatch hsends), fun hnot _ => h.out hnot hquiet⟩
    rw [write_of_not_ignores file hinit hskip]
    split
    · exact hstored.handle file rfl
    · exact hstored

theorem SdReachable.phased {file : SdImage φ} {s : Sdcard φ} (h : SdReachable file s) : s.Phased := by
  induction h with
  | init image => exact ⟨fun hpend => (nomatch hpend), fun hsends => (nomatch hsends), fun _ _ => rfl⟩
  | step op h ih =>
    cases op with
    | write byte => exact ih.write file h.inStep.1 byte
    | get => exact ih.get h.inStep.1

/-! ## Frames -/

/-- The card waits for the first byte of a frame: in IDLE, or in CMD after a command that it has no
answer to. -/
structure Sdcard.AtFrame (s : Sdcard φ) : Prop where
  state : s.cmdState = .idle ∨ s.cmdState = .cmd
  idx : s.cmdBufIdx = 0

/-- The card has the first bytes of a frame, which began in the state `s₀`, in its buffer. -/
structure Sdcard.Gathers (s s₀ : Sdcard φ) (bytes : List (BitVec 8)) : Prop where
  init : s.init = true
  state : s.cmdState = .cmd ∨ bytes = [] ∧ s.cmdState = .idle
  idx : s.cmdBufIdx = bytes.length
  buf : ∀ i b, bytes[i]? = some b → s.cmdBuf i = b
  image : s.image = s₀.image
  cardState : s.cardState = s₀.cardState
  acmdPend : s.acmdPend = s₀.acmdPend
  out : s₀.outReg = 0xFF → s.outReg = 0xFF

section Frames
variable {s₀ s : Sdcard φ} {bytes : List (BitVec 8)}

theorem Sdcard.AtFrame.gathers (hinit : s.init = true) (h : s.AtFrame) : s.Gathers s [] :=
  ⟨hinit, h.state.symm.imp_right fun hidle => ⟨rfl, hidle⟩, h.idx,
    fun i b hb => by simp at hb, rfl, rfl, rfl, id⟩

theorem Sdcard.Gathers.get (h : s.Gathers s₀ bytes) : (sdcardSpiGet s).2.Gathers s₀ bytes := by
  rw [get_of_quiet h.init (h.state.symm.imp_left And.right)]
  exact ⟨h.init, h.state, h.idx, h.buf, h.image, h.cardState, h.acmdPend, fun _ => rfl⟩

theorem Sdcard.Gathers.write_eq (file : SdImage φ) (h : s.Gathers s₀ bytes) {byte : BitVec 8}
    (hstart : bytes = [] → byte &&& 0x80 = 0) :
    sdcardSpiWrite file s byte =
      if bytes.length + 1 = 6 then (s.store byte).handle file else s.store byte := by
  have hhere : ¬ s.Ignores byte := by
    rintro ⟨hcmd, hidle⟩
    rcases h.state with hstate | ⟨hnil, hstate⟩
    · exact hcmd hstate
    · exact hidle hstate (hstart hnil)
  rw [write_of_not_ignores file h.init hhere, h.idx]

theorem Sdcard.Gathers.store (h : s.Gathers s₀ bytes) (byte : BitVec 8) :
    (s.store byte).Gathers s₀ (bytes ++ [byte]) := by
  refine ⟨h.init, .inl rfl, ?_, fun i b hb => ?_, h.image, h.cardState, h.acmdPend, h.out⟩
  · rw [List.length_append]
    exact congrArg (· + 1) h.idx
  · show Function.update s.cmdBuf s.cmdBufIdx byte i = b
    rw [h.idx]
    by_cases hlast : i = bytes.length
    · rw [hlast, List.getElem?_concat_length] at hb
      rw [hlast, Function.update_self]
      exact Option.some.inj hb
    · have hlt : i < bytes.length := by
        have hle := (List.getElem?_eq_some_iff.mp hb).1
        rw [List.length_append, List.length_singleton] at hle
        omega
      rw [List.getElem?_append_left hlt] at hb
      rw [Function.update_of_ne hlast]
      exact h.buf i b hb

/-- The bytes of a command before the last one are gathered, and the reads among them touch nothing but the
output register. -/
theorem Sdcard.Gathers.run (file : SdImage φ) (ops : List SdOp) (h : s.Gathers s₀ bytes)
    (hlength : bytes.length + (writes ops).length ≤ 5)
    (hstart : ∀ b, (bytes ++ writes ops).head? = some b → b &&& 0x80 = 0) :
    (sdRun file s ops).Gathers s₀ (bytes ++ writes ops) := by
  induction ops generalizing s bytes with
  | nil =>
    rw [show writes [] = [] from rfl, List.append_nil]
    exact h
  | cons op ops ih =>
    cases op with
    | get => exact ih h.get hlength hstart
    | write byte =>
      have hwrites : writes (.write byte :: ops) = byte :: writes ops := rfl
      rw [hwrites, List.length_cons] at hlength
      rw [hwrites] at hstart ⊢
      have hbyte : bytes = [] → byte &&& 0x80 = 0 := by
        rintro rfl
        exact hstart byte rfl
      have hstored : sdcardSpiWrite file s byte = s.store byte := by
        rw [h.write_eq file hbyte, if_neg (by omega)]
      rw [List.append_cons] at hstart ⊢
      show (sdRun file (sdcardSpiWrite file s byte) ops).Gathers s₀ _
      rw [hstored]
      refine ih (h.store byte) ?_ hstart
      rw [List.length_append, List.length_singleton]
      omega

end Frames

/-- A frame with reads among its bytes; what comes after the sixth byte is not part of it. -/
structure SdTransfer where
  cmd : BitVec 8
  arg : Fin 4 → BitVec 8
  crc : BitVec 8
  head : List SdOp
  head_writes : writes head = [cmd, arg 0, arg 1, arg 2, arg 3]

/-- The card after the sixth byte. -/
def SdTransfer.done (f : SdTransfer) (file : SdImage φ) (s : Sdcard φ) : Sdcard φ :=
  sdcardSpiWrite file (sdRun file s f.head) f.crc

/-- The sixth byte finds the frame in the buffer. -/
theorem SdTransfer.done_eq (f : SdTransfer) (file : SdImage φ) {s : Sdcard φ} (hinit : s.init = true)
    (h : s.AtFrame) (hstart : f.cmd &&& 0x80 = 0) :
    ∃ u : Sdcard φ, u.Gathers s [f.cmd, f.arg 0, f.arg 1, f.arg 2, f.arg 3, f.crc] ∧ u.cmdState = .cmd ∧
      f.done file s = u.handle file := by
  have hhead : (sdRun file s f.head).Gathers s [f.cmd, f.arg 0, f.arg 1, f.arg 2, f.arg 3] := by
    have hrun := (h.gathers hinit).run file f.head
    rw [f.head_writes, List.nil_append] at hrun
    refine hrun (Nat.le_refl 5) fun b hb => ?_
    obtain rfl := Option.some.inj hb
    exact hstart
  refine ⟨(sdRun file s f.head).store f.crc, hhead.store f.crc, rfl, ?_⟩
  exact (hhead.write_eq file fun hnil => (nomatch hnil)).trans (if_pos rfl)

/-! ## Blocks -/

/-- The number of the block that the frame asks for. -/
def SdTransfer.number (f : SdTransfer) : Nat := argNumber f.arg

/-- What the reads after CMD17 return. -/
def blockStream (block : List (BitVec 8)) (k : Nat) : BitVec 8 :=
  if k = 0 then 0x00
  else if k = 1 then 0xFF
  else if k = 2 then 0xFE
  else if k < 515 then block.getD (k - 3) 0
  else if k < 517 then 0x00
  else 0xFF

/-- The state of the card with `k` bytes read. -/
def blockState (k : Nat) : CmdState :=
  if k = 0 then .r1Data
  else if k = 1 then .dataStartToken
  else if k < 514 then .data
  else if k = 514 then .crc1
  else if k = 515 then .crc2
  else .idle

/-- The card sends the block, and `k` bytes of it are out. -/
structure Sdcard.Sending (block : List (BitVec 8)) (image : φ) (s : Sdcard φ) (k : Nat) : Prop where
  init : s.init = true
  idx : s.cmdBufIdx = 0
  card : s.cardState = .ready
  file : s.image = image
  sector : ∀ i < 512, s.sectorBuf i = block.getD i 0
  state : s.cmdState = blockState k
  cnt : s.cmdState = .data → s.blockCnt = k - 2
  out : s.outReg = blockStream block k

section Blocks
variable {block : List (BitVec 8)} {image : φ} {s : Sdcard φ} {k : Nat}

theorem blockState_ne_cmd (k : Nat) : blockState k ≠ .cmd := by
  unfold blockState
  split
  · exact nofun
  · split
    · exact nofun
    · split
      · exact nofun
      · split
        · exact nofun
        · split <;> exact nofun

/-- A read among the 512 bytes loads the next of them, and the last one ends the data. -/
theorem Sdcard.Sending.get_data (h : s.Sending block image k) (hfirst : 2 ≤ k) (hdata : k < 514) :
    (sdcardSpiGet s).2.Sending block image (k + 1) := by
  obtain ⟨hinit, hidx, hcard, hfile, hsector, hstate, hcnt, _⟩ := h
  have hnot : (!s.init) = false := by rw [hinit]; rfl
  have hsend : s.cmdState = .data := by
    rw [hstate, blockState, if_neg (by omega), if_neg (by omega), if_pos hdata]
  have hblockCnt := hcnt hsend
  have hbyte : s.sectorBuf s.blockCnt = blockStream block (k + 1) := by
    rw [hblockCnt, hsector _ (by omega), blockStream]
    rw [if_neg (by omega), if_neg (by omega), if_neg (by omega), if_pos (by omega)]
    rfl
  unfold sdcardSpiGet
  rw [hnot, if_neg Bool.false_ne_true, hsend]
  dsimp only
  split
  · rename_i hlast
    have hend : k + 1 = 514 := by
      have : s.blockCnt + 1 = 512 := hlast
      omega
    refine ⟨hinit, hidx, hcard, hfile, hsector, ?_, nofun, hbyte⟩
    rw [hend]
    rfl
  · rename_i hmore
    have hnext : k + 1 < 514 := by
      have : s.blockCnt + 1 ≠ 512 := hmore
      omega
    refine ⟨hinit, hidx, hcard, hfile, hsector, ?_, fun _ => ?_, hbyte⟩
    · show CmdState.data = blockState (k + 1)
      rw [blockState, if_neg (by omega), if_neg (by omega), if_pos hnext]
    · show s.blockCnt + 1 = k + 1 - 2
      omega

/-- A read after the block, where nothing changes any more. -/
theorem Sdcard.Sending.get_idle (h : s.Sending block image k) (hend : 516 ≤ k) :
    (sdcardSpiGet s).2.Sending block image (k + 1) := by
  obtain ⟨hinit, hidx, hcard, hfile, hsector, hstate, _, _⟩ := h
  have hnot : (!s.init) = false := by rw [hinit]; rfl
  have hblockState : ∀ n, 516 ≤ n → blockState n = .idle := by
    intro n hn
    rw [blockState, if_neg (by omega), if_neg (by omega), if_neg (by omega), if_neg (by omega),
      if_neg (by omega)]
  have hidle : s.cmdState = .idle := hstate.trans (hblockState k hend)
  unfold sdcardSpiGet
  rw [hnot, if_neg Bool.false_ne_true, hidle]
  refine ⟨hinit, hidx, hcard, hfile, hsector, (hblockState _ (by omega)).symm, nofun, ?_⟩
  show 0xFF = blockStream block (k + 1)
  rw [blockStream, if_neg (by omega), if_neg (by omega), if_neg (by omega), if_neg (by omega),
    if_neg (by omega)]

/-- One read of the block: the byte in the register, and the next one behind it. -/
theorem Sdcard.Sending.get (h : s.Sending block image k) :
    (sdcardSpiGet s).1 = blockStream block k ∧ (sdcardSpiGet s).2.Sending block image (k + 1) := by
  have ⟨hinit, hidx, hcard, hfile, hsector, hstate, _, hout⟩ := h
  have hnot : (!s.init) = false := by rw [hinit]; rfl
  constructor
  · rw [sdcardSpiGet, hnot, if_neg Bool.false_ne_true]
    exact hout
  by_cases hdata : 2 ≤ k ∧ k < 514
  · exact h.get_data hdata.1 hdata.2
  by_cases hend : 516 ≤ k
  · exact h.get_idle hend
  -- The tokens before the data, and the checksum after it.
  obtain rfl | rfl | rfl | rfl : k = 0 ∨ k = 1 ∨ k = 514 ∨ k = 515 := by omega
  all_goals
    unfold sdcardSpiGet
    rw [hnot, if_neg Bool.false_ne_true, hstate]
  · exact ⟨hinit, hidx, hcard, hfile, hsector, rfl, nofun, rfl⟩
  · exact ⟨hinit, hidx, hcard, hfile, hsector, rfl, fun _ => rfl, rfl⟩
  · exact ⟨hinit, hidx, hcard, hfile, hsector, rfl, nofun, rfl⟩
  · exact ⟨hinit, hidx, hcard, hfile, hsector, rfl, nofun, rfl⟩

/-- A byte without a start bit is ignored all the while. -/
theorem Sdcard.Sending.write (file : SdImage φ) (h : s.Sending block image k) {byte : BitVec 8}
    (hbyte : byte &&& 0x80 ≠ 0) : (sdcardSpiWrite file s byte).Sending block image k := by
  have hskip : s.Ignores byte := ⟨by rw [h.state]; exact blockState_ne_cmd k, fun _ => hbyte⟩
  rw [write_of_ignores file hskip]
  exact h

end Blocks

/-- The four bytes are put side by side. -/
theorem cmdBlock_eq (buf : Nat → BitVec 8) :
    cmdBlock buf = ((buf 1).toNat * 2 ^ 24 + (buf 2).toNat * 2 ^ 16 + (buf 3).toNat * 2 ^ 8 +
      (buf 4).toNat : Nat) * 512 := by
  have h1 := (buf 1).isLt
  have h2 := (buf 2).isLt
  have h3 := (buf 3).isLt
  have h4 := (buf 4).isLt
  unfold cmdBlock
  congr 2
  -- each `or` is a sum, as its right side has no bit in common with the left one
  have hab : (buf 1).toNat <<< 24 ||| (buf 2).toNat <<< 16 =
      ((buf 1).toNat <<< 8 + (buf 2).toNat) <<< 16 := by
    rw [← Nat.shiftLeft_add_eq_or_of_lt (by rw [Nat.shiftLeft_eq]; omega)]
    simp only [Nat.shiftLeft_eq]
    omega
  have habc : ((buf 1).toNat <<< 8 + (buf 2).toNat) <<< 16 ||| (buf 3).toNat <<< 8 =
      (((buf 1).toNat <<< 8 + (buf 2).toNat) <<< 8 + (buf 3).toNat) <<< 8 := by
    rw [← Nat.shiftLeft_add_eq_or_of_lt (by rw [Nat.shiftLeft_eq]; omega)]
    simp only [Nat.shiftLeft_eq]
    omega
  have hshift : ∀ (b : BitVec 8) (n : Nat), n ≤ 24 → (b.setWidth 32 <<< n).toNat = b.toNat <<< n := by
    intro b n hn
    have hb := b.isLt
    have hfits : b.toNat % 2 ^ 32 = b.toNat := Nat.mod_eq_of_lt (by omega)
    rw [BitVec.toNat_shiftLeft, BitVec.toNat_setWidth, hfits]
    refine Nat.mod_eq_of_lt ?_
    rw [Nat.shiftLeft_eq]
    calc b.toNat * 2 ^ n < 2 ^ 8 * 2 ^ n := Nat.mul_lt_mul_of_pos_right hb (Nat.two_pow_pos n)
      _ = 2 ^ (8 + n) := (Nat.pow_add 2 8 n).symm
      _ ≤ 2 ^ 32 := Nat.pow_le_pow_right (by omega) (by omega)
  rw [BitVec.toNat_or, BitVec.toNat_or, BitVec.toNat_or, hshift _ 24 (by omega), hshift _ 16 (by omega),
    hshift _ 8 (by omega), BitVec.toNat_setWidth, Nat.mod_eq_of_lt (by omega), hab, habc,
    ← Nat.shiftLeft_add_eq_or_of_lt (by omega)]
  simp only [Nat.shiftLeft_eq]
  omega

/-- CMD17 with a block that can be had: the card sends it. -/
theorem handle_cmd17 {file : SdImage φ} {u : Sdcard φ} (hinit : u.init = true) (hcard : u.cardState = .ready)
    (hacmd : u.acmdPend = false) (hcmd : u.cmdBuf 0 = CMD17) {image image' : φ} {block : List (BitVec 8)}
    (hseek : file.lseek (cmdBlock u.cmdBuf) u.image = (true, image))
    (hread : file.read image = (some block, image')) (hblock : block.length = 512) :
    (u.handle file).Sending block image' 0 := by
  have hhandle : u.handle file = { handleCmd17 file u with cmdBufIdx := 0 } := by
    rw [Sdcard.handle, hacmd, if_neg Bool.false_ne_true, handleCmd, hcard]
    simp only [hcmd, if_true]
  have h17 : handleCmd17 file u = { u with
      cmdState := .r1Data, outReg := 0x00, image := image'
      sectorBuf := fun i => if i < 512 then block.getD i (u.sectorBuf i) else u.sectorBuf i } := by
    unfold handleCmd17
    simp only [hseek, if_true, hread]
  rw [hhandle, h17]
  refine ⟨hinit, rfl, hcard, rfl, fun i hi => ?_, rfl, nofun, rfl⟩
  have hlt : i < block.length := by omega
  simp only [if_pos hi, List.getD_eq_getElem?_getD, List.getElem?_eq_getElem hlt, Option.getD_some]

/-- After a CMD17 frame to a card in READY, with reads wherever the host likes, and with bytes written
among the reads that have no start bit: the reads return the block whose number is the argument,
between its markers, and the card is back for the next frame. -/
theorem block_read_stream {file : SdImage φ} {s : Sdcard φ} (h : SdReachable file s)
    (hready : s.cardState = .ready) (hframe : s.AtFrame) (f : SdTransfer) (hcmd : f.cmd = CMD17)
    {image image' : φ} {block : List (BitVec 8)}
    (hseek : file.lseek ((f.number : Int) * 512) s.image = (true, image))
    (hread : file.read image = (some block, image')) (hblock : block.length = 512)
    {ops : List SdOp} (hops : ∀ op ∈ ops, op.NoStart) :
    sdReads file (f.done file s) ops = (List.range (gets ops)).map (blockStream block) ∧
      (sdRun file (f.done file s) ops).image = image' ∧
      (516 ≤ gets ops → (sdRun file (f.done file s) ops).Listening ∧
        (sdRun file (f.done file s) ops).cardState = .ready) := by
  have hstart : f.cmd &&& 0x80 = 0 := by rw [hcmd]; decide
  obtain ⟨u, hu, hstate, hdone⟩ := f.done_eq file h.inStep.1 hframe hstart
  have hacmd : s.acmdPend = false := by
    cases hpend : s.acmdPend with
    | false => rfl
    | true =>
      have hinit := h.phased.acmd hpend
      rw [hready] at hinit
      cases hinit
  have hnumber : cmdBlock u.cmdBuf = (f.number : Int) * 512 := by
    rw [cmdBlock_eq, hu.buf 1 _ rfl, hu.buf 2 _ rfl, hu.buf 3 _ rfl, hu.buf 4 _ rfl]
    rfl
  have hsending : (f.done file s).Sending block image' 0 := by
    rw [hdone]
    refine handle_cmd17 hu.init (hu.cardState.trans hready) (hu.acmdPend.trans hacmd)
      ((hu.buf 0 _ rfl).trans hcmd) ?_ hread hblock
    rw [hnumber, hu.image]
    exact hseek
  obtain ⟨hreads, hend⟩ := reads_follow file SdOp.NoStart (P := Sdcard.Sending block image')
    (fun h => h.get) (fun h hbyte => h.write file hbyte) hops hsending
  refine ⟨hreads, hend.file, fun hall => ⟨⟨hend.init, ?_, hend.idx⟩, hend.card⟩⟩
  rw [hend.state, blockState]
  rw [if_neg (by omega), if_neg (by omega), if_neg (by omega), if_neg (by omega), if_neg (by omega)]

theorem SdReachable.run {file : SdImage φ} {s : Sdcard φ} (h : SdReachable file s) (ops : List SdOp) :
    SdReachable file (sdRun file s ops) := by
  induction ops generalizing s with
  | nil => exact h
  | cons op ops ih => exact ih (h.step op)

/-- A frame without argument, written byte by byte, and one read after it. -/
def plainFrame (cmd : BitVec 8) : List SdOp :=
  [.write cmd, .write 0, .write 0, .write 0, .write 0, .write 0x95, .get]

/-- The card after CMD0 and ACMD41 six times. -/
def readyCard : Sdcard Unit :=
  sdRun blockImage (sdcardInit ()) (plainFrame CMD0 ++
    (List.replicate 6 (plainFrame CMD55 ++ plainFrame ACMD41)).flatten)

/-- CMD17 for block `$00012345`, with reads among its bytes. -/
def readFrame : SdTransfer where
  cmd := CMD17
  arg i := #[0x00, 0x01, 0x23, 0x45][i]
  crc := 0xFF
  head := [.get, .write CMD17, .get, .write 0x00, .write 0x01, .write 0x23, .get, .write 0x45]
  head_writes := rfl

theorem block_read_stream_of_ready :
    sdReads blockImage (readFrame.done blockImage readyCard) (List.replicate 520 .get) =
      (List.range 520).map (blockStream (List.replicate 512 0xE5)) := by
  have hready : readyCard.cardState = .ready := by decide +kernel
  have hframe : readyCard.AtFrame := ⟨.inl (by decide +kernel), by decide +kernel⟩
  have hops : ∀ op ∈ List.replicate 520 SdOp.get, op.NoStart := by
    intro op hop
    rw [List.eq_of_mem_replicate hop]
    trivial
  have hstream := (block_read_stream ((SdReachable.init ()).run _) hready hframe readFrame rfl
    rfl rfl (List.length_replicate ..) hops).1
  rw [show gets (List.replicate 520 SdOp.get) = 520 from List.count_replicate_self ..] at hstream
  exact hstream

/-! ## The version of the interface -/

/-- What the reads after CMD8 return. -/
def versionStream (arg : Fin 4 → BitVec 8) (k : Nat) : BitVec 8 :=
  if h : 1 ≤ k ∧ k < 5 then arg ⟨k - 1, by omega⟩ else 0xFF

/-- The card sends the answer to CMD8, and `k` bytes of it are out. -/
structure Sdcard.Echoing (arg : Fin 4 → BitVec 8) (s : Sdcard φ) (k : Nat) : Prop where
  init : s.init = true
  state : s.cmdState = if k < 5 then .r7 else .idle
  rspIdx : k < 5 → s.rspBufIdx = k + 1
  rspBuf : ∀ i : Fin 4, s.rspBuf (i + 1) = arg i
  out : s.outReg = versionStream arg k

/-- The card is in INIT, in the middle of bytes that no command comes of. -/
structure Sdcard.Deaf (s : Sdcard φ) : Prop where
  init : s.init = true
  card : s.cardState = .init
  acmd : s.acmdPend = false
  state : s.cmdState = .cmd
  out : s.outReg = 0xFF
  buf : s.cmdBufIdx = 0 ∨ s.cmdBuf 0 = 0xFF

section Version
variable {s : Sdcard φ} {arg : Fin 4 → BitVec 8} {k : Nat}

theorem versionStream_outside (h : ¬ (1 ≤ k ∧ k < 5)) : versionStream arg k = 0xFF := dif_neg h

theorem Sdcard.Echoing.get (h : s.Echoing arg k) :
    (sdcardSpiGet s).1 = versionStream arg k ∧ (sdcardSpiGet s).2.Echoing arg (k + 1) := by
  obtain ⟨hinit, hstate, hidx, hbuf, hout⟩ := h
  have hnot : (!s.init) = false := by rw [hinit]; rfl
  unfold sdcardSpiGet
  rw [hnot, if_neg Bool.false_ne_true]
  refine ⟨hout, ?_⟩
  by_cases hmore : k < 5
  · rw [if_pos hmore] at hstate
    have hrsp := hidx hmore
    dsimp only
    rw [hstate]
    dsimp only
    by_cases hlast : s.rspBufIdx = 5
    · rw [if_pos hlast]
      have hend : ¬ k + 1 < 5 := by omega
      refine ⟨hinit, (if_neg hend).symm, fun hno => absurd hno hend, hbuf, ?_⟩
      exact (versionStream_outside (by omega)).symm
    · rw [if_neg hlast]
      have hnext : k + 1 < 5 := by omega
      refine ⟨hinit, ?_, fun _ => congrArg (· + 1) hrsp, hbuf, ?_⟩
      · exact (if_pos hnext).symm
      · show s.rspBuf s.rspBufIdx = versionStream arg (k + 1)
        rw [hrsp, versionStream, dif_pos ⟨by omega, hnext⟩]
        exact hbuf ⟨k, by omega⟩
  · rw [if_neg hmore] at hstate
    dsimp only
    rw [hstate]
    refine ⟨hinit, ?_, fun hno => absurd hno (by omega), hbuf, ?_⟩
    · exact (if_neg (by omega)).symm
    · exact (versionStream_outside (by omega)).symm

/-- A fill byte is ignored all the while. -/
theorem Sdcard.Echoing.fill (file : SdImage φ) (h : s.Echoing arg k) :
    (sdcardSpiWrite file s 0xFF).Echoing arg k := by
  have hskip : s.Ignores 0xFF := by
    refine ⟨?_, fun _ => by decide⟩
    rw [h.state]
    split <;> exact nofun
  rw [write_of_ignores file hskip]
  exact h

theorem Sdcard.Deaf.get (h : s.Deaf) : (sdcardSpiGet s).1 = 0xFF ∧ (sdcardSpiGet s).2.Deaf := by
  have hnot : (!s.init) = false := by rw [h.init]; rfl
  refine ⟨?_, ?_⟩
  · rw [sdcardSpiGet, hnot, if_neg Bool.false_ne_true]
    exact h.out
  · rw [get_of_quiet h.init (.inr h.state)]
    exact ⟨h.init, h.card, h.acmd, h.state, rfl, h.buf⟩

/-- Six fill bytes are a command that INIT does not know. -/
theorem Sdcard.Deaf.fill (file : SdImage φ) (h : s.Deaf) : (sdcardSpiWrite file s 0xFF).Deaf := by
  have hbuf : (s.store 0xFF).cmdBuf 0 = 0xFF := by
    show Function.update s.cmdBuf s.cmdBufIdx 0xFF 0 = 0xFF
    by_cases hidx : s.cmdBufIdx = 0
    · rw [hidx, Function.update_self]
    · rw [Function.update_of_ne (fun h0 => hidx h0.symm)]
      exact h.buf.resolve_left hidx
  rw [write_of_not_ignores file h.init fun hskip => hskip.1 h.state]
  split
  · have hhandle : (s.store 0xFF).handle file = { s.store 0xFF with cmdBufIdx := 0 } := by
      rw [Sdcard.handle, show (s.store 0xFF).acmdPend = false from h.acmd, if_neg Bool.false_ne_true,
        handleCmd, show (s.store 0xFF).cardState = .init from h.card]
      simp only [hbuf]
      rfl
    rw [hhandle]
    exact ⟨h.init, h.card, h.acmd, rfl, h.out, .inl rfl⟩
  · exact ⟨h.init, h.card, h.acmd, rfl, h.out, .inr hbuf⟩

/-- The reads follow a stream, with fill bytes written among them. -/
theorem fills_follow (file : SdImage φ) {stream : Nat → BitVec 8} {P : Sdcard φ → Nat → Prop}
    (hget : ∀ {s k}, P s k → (sdcardSpiGet s).1 = stream k ∧ P (sdcardSpiGet s).2 (k + 1))
    (hfill : ∀ {s k}, P s k → P (sdcardSpiWrite file s 0xFF) k) {ops : List SdOp} (hops : FillOnly ops)
    (hs : P s 0) :
    sdReads file s ops = (List.range (gets ops)).map stream ∧ P (sdRun file s ops) (gets ops) := by
  refine reads_follow file (fun op => ∀ byte, op = .write byte → byte = 0xFF) hget ?_ ?_ hs
  · intro s k byte h hbyte
    rw [hbyte byte rfl]
    exact hfill h
  · intro op hop byte hbyte
    exact hops byte (List.mem_filterMap.mpr ⟨op, hop, by rw [hbyte]⟩)

end Version

/-- The reads after the frame return the answer behind some fill bytes, and then fill bytes, with the
card back in IDLE. -/
def Transmits (file : SdImage φ) (t : Sdcard φ) (answer : List (BitVec 8)) : Prop :=
  ∃ lead, ∀ ops, FillOnly ops →
    sdReads file t ops =
        (List.range (gets ops)).map (fun k => (List.replicate lead 0xFF ++ answer).getD k 0xFF) ∧
      (lead + answer.length ≤ gets ops → (sdRun file t ops).cmdState = .idle)

/-- The card answers CMD8 in INIT with a fill byte, the argument, and fill bytes. -/
theorem version_stream {file : SdImage φ} {s : Sdcard φ} (h : SdReachable file s) (hcard : s.cardState = .init)
    (hframe : s.AtFrame) (hacmd : s.acmdPend = false) (f : SdTransfer) (hcmd : f.cmd = CMD8)
    {ops : List SdOp} (hops : FillOnly ops) :
    sdReads file (f.done file s) ops = (List.range (gets ops)).map (versionStream f.arg) := by
  have hstart : f.cmd &&& 0x80 = 0 := by rw [hcmd]; decide
  obtain ⟨u, hu, hstate, hdone⟩ := f.done_eq file h.inStep.1 hframe hstart
  have hout : s.outReg = 0xFF := h.phased.out (by rw [hcard]; exact nofun) hframe.state
  have hhandle : u.handle file = { u with
      cmdState := .r7, rspBufIdx := 1, cmdBufIdx := 0
      rspBuf := fun i => if i = 0 then 0x01 else if i ≤ 4 then u.cmdBuf i else u.rspBuf i } := by
    have hpend : ¬ u.acmdPend = true := by
      rw [hu.acmdPend, hacmd]
      exact Bool.false_ne_true
    rw [Sdcard.handle, if_neg hpend, handleCmd, hu.cardState, hcard]
    simp only [(hu.buf 0 _ rfl).trans hcmd, if_true]
  have hechoing : (f.done file s).Echoing f.arg 0 := by
    rw [hdone, hhandle]
    refine ⟨hu.init, rfl, fun _ => rfl, fun i => ?_, hu.out hout⟩
    have hbuf : ∀ i : Fin 4, u.cmdBuf (i + 1) = f.arg i := by
      intro i
      match i with
      | 0 => exact hu.buf 1 _ rfl
      | 1 => exact hu.buf 2 _ rfl
      | 2 => exact hu.buf 3 _ rfl
      | 3 => exact hu.buf 4 _ rfl
    show (if (i : Nat) + 1 = 0 then 0x01 else if (i : Nat) + 1 ≤ 4 then u.cmdBuf (i + 1) else
      u.rspBuf (i + 1)) = f.arg i
    rw [if_neg (by omega), if_pos (by omega)]
    exact hbuf i
  exact (fills_follow file (P := Sdcard.Echoing f.arg) (fun h => h.get) (fun h => h.fill file) hops hechoing).1

/-- An application command CMD8 gets no answer. -/
theorem version_unanswered {file : SdImage φ} {s : Sdcard φ} (h : SdReachable file s)
    (hcard : s.cardState = .init) (hframe : s.AtFrame) (hacmd : s.acmdPend = true) (f : SdTransfer)
    (hcmd : f.cmd = CMD8) {ops : List SdOp} (hops : FillOnly ops) :
    sdReads file (f.done file s) ops = (List.range (gets ops)).map fun _ => 0xFF := by
  have hstart : f.cmd &&& 0x80 = 0 := by rw [hcmd]; decide
  obtain ⟨u, hu, hstate, hdone⟩ := f.done_eq file h.inStep.1 hframe hstart
  have hout : s.outReg = 0xFF := h.phased.out (by rw [hcard]; exact nofun) hframe.state
  have h41 : u.cmdBuf 0 ≠ ACMD41 := by
    rw [hu.buf 0 _ rfl, hcmd]
    decide
  have hhandle : u.handle file = { u with acmdPend := false, cmdBufIdx := 0 } := by
    rw [Sdcard.handle, hu.acmdPend, hacmd, if_pos rfl, handleAcmd, if_pos (hu.cardState.trans hcard), if_neg h41]
  have hdeaf : (f.done file s).Deaf := by
    rw [hdone, hhandle]
    exact ⟨hu.init, hu.cardState.trans hcard, rfl, hstate, hu.out hout, .inl rfl⟩
  exact (fills_follow file (P := fun s _ => Sdcard.Deaf s) (fun h => h.get) (fun h => h.fill file) hops hdeaf).1

/-- The R1 byte is nowhere in the answer where the argument would follow it. -/
theorem versionStream_no_r1 (arg : Fin 4 → BitVec 8) (lead : Nat) :
    ¬ ∀ k, versionStream arg k =
      (List.replicate lead 0xFF ++ [0x01, arg 0, arg 1, arg 2, arg 3]).getD k 0xFF := by
  intro hsame
  have hanswer : ∀ i, versionStream arg (lead + i) = [0x01, arg 0, arg 1, arg 2, arg 3].getD i 0xFF := by
    intro i
    rw [hsame, List.getD_eq_getElem?_getD, List.getElem?_append_right (by simp), List.length_replicate,
      Nat.add_sub_cancel_left]
    rfl
  have hfirst : versionStream arg lead = 0x01 := hanswer 0
  have h0 : versionStream arg (lead + 1) = arg 0 := hanswer 1
  have h1 : versionStream arg (lead + 2) = arg 1 := hanswer 2
  have h2 : versionStream arg (lead + 3) = arg 2 := hanswer 3
  have h3 : versionStream arg (lead + 4) = arg 3 := hanswer 4
  have hmark : (0xFF#8) ≠ 0x01 := by decide
  -- the marker can only be a byte of the argument, and then it is behind the argument as well
  by_cases hin : 1 ≤ lead ∧ lead < 5
  · obtain rfl | rfl | rfl | rfl : lead = 1 ∨ lead = 2 ∨ lead = 3 ∨ lead = 4 := by omega
    · have hmark0 : arg 0 = 0x01 := hfirst
      have h10 : arg 1 = arg 0 := h0
      have h21 : arg 2 = arg 1 := h1
      have h32 : arg 3 = arg 2 := h2
      have hend : 0xFF = arg 3 := h3
      exact hmark (hend.trans (h32.trans (h21.trans (h10.trans hmark0))))
    · have hmark1 : arg 1 = 0x01 := hfirst
      have h31 : arg 3 = arg 1 := h1
      have hend : 0xFF = arg 3 := h3
      exact hmark (hend.trans (h31.trans hmark1))
    · have hmark2 : arg 2 = 0x01 := hfirst
      have hend : 0xFF = arg 2 := h2
      exact hmark (hend.trans hmark2)
    · have hmark3 : arg 3 = 0x01 := hfirst
      have hend : 0xFF = arg 3 := h3
      exact hmark (hend.trans hmark3)
  · rw [versionStream_outside hin] at hfirst
    exact hmark hfirst

theorem gets_replicate (n : Nat) : gets (List.replicate n .get) = n := List.count_replicate_self

theorem fillOnly_gets (n : Nat) : FillOnly (List.replicate n .get) := by
  intro byte hbyte
  obtain ⟨op, hop, hsome⟩ := List.mem_filterMap.mp hbyte
  rw [List.eq_of_mem_replicate hop] at hsome
  cases hsome

/-- Streams that agree on every number of reads are the same. -/
theorem stream_of_reads {t : Sdcard φ} {file : SdImage φ} {stream stream' : Nat → BitVec 8}
    (h : ∀ ops, FillOnly ops → sdReads file t ops = (List.range (gets ops)).map stream)
    (h' : ∀ ops, FillOnly ops → sdReads file t ops = (List.range (gets ops)).map stream') (k : Nat) :
    stream k = stream' k := by
  have hboth := (h _ (fillOnly_gets (k + 1))).symm.trans (h' _ (fillOnly_gets (k + 1)))
  rw [gets_replicate] at hboth
  exact List.map_inj_left.mp hboth k (List.mem_range.mpr (Nat.lt_succ_self k))

/-- In no case does the card send `$01`, the R1 byte of its response buffer, before the argument. -/
theorem version_never_r1 {file : SdImage φ} {s : Sdcard φ} (h : SdReachable file s)
    (hcard : s.cardState = .init) (hframe : s.AtFrame) (f : SdTransfer) (hcmd : f.cmd = CMD8) :
    ¬ Transmits file (f.done file s) [0x01, f.arg 0, f.arg 1, f.arg 2, f.arg 3] := by
  rintro ⟨lead, htransmits⟩
  have hclaimed := fun ops hops => (htransmits ops hops).1
  cases hacmd : s.acmdPend with
  | false =>
    exact versionStream_no_r1 f.arg lead
      (stream_of_reads (fun _ hops => version_stream h hcard hframe hacmd f hcmd hops) hclaimed)
  | true =>
    have hlead := stream_of_reads (fun _ hops => version_unanswered h hcard hframe hacmd f hcmd hops)
      hclaimed lead
    rw [List.getD_eq_getElem?_getD, List.getElem?_append_right (by simp), List.length_replicate,
      Nat.sub_self] at hlead
    have hmark : (0xFF#8) = 0x01 := hlead
    exact absurd hmark (by decide)

/-- A card that CMD0 was sent to. -/
def initCard : Sdcard Unit := sdRun blockImage (sdcardInit ()) (plainFrame CMD0)

theorem initCard_reachable : SdReachable blockImage initCard := (SdReachable.init ()).run _

/-- CMD8 as drivers send it. -/
def versionFrame : SdTransfer where
  cmd := CMD8
  arg i := #[0x00, 0x00, 0x01, 0xAA][i]
  crc := 0x87
  head := [.write CMD8, .write 0x00, .write 0x00, .write 0x01, .write 0xAA]
  head_writes := rfl

theorem version_never_r1_of_reset :
    ¬ Transmits blockImage (versionFrame.done blockImage initCard) [0x01, 0x00, 0x00, 0x01, 0xAA] :=
  version_never_r1 initCard_reachable (by decide) ⟨.inl (by decide), by decide⟩ versionFrame rfl

/-- The answer starts with a fill byte where R1 should be. -/
theorem version_of_reset :
    sdReads blockImage (versionFrame.done blockImage initCard) (List.replicate 8 .get) =
        [0xFF, 0x00, 0x00, 0x01, 0xAA, 0xFF, 0xFF, 0xFF] ∧
      ¬ Transmits blockImage (versionFrame.done blockImage initCard) [0x01, 0x00, 0x00, 0x01, 0xAA] := by
  refine ⟨by decide +kernel, ?_⟩
  rintro ⟨lead, htransmits⟩
  refine versionStream_no_r1 versionFrame.arg lead (stream_of_reads ?_ fun ops hops => (htransmits ops hops).1)
  intro ops hops
  exact version_stream initCard_reachable (by decide) ⟨.inl (by decide), by decide⟩ (by decide)
    versionFrame rfl hops

end Cb6502
