import Cb6502.Bus
import Mathlib.Logic.Function.Basic

/- The SD card on the SPI bus (io/sdcard/src/sdcard.c).

   The image file is `SdImage` over a state `φ` of its own: `lseek` says whether it succeeds,
   and `read` gives the bytes it read, or `none` on failure. -/
namespace Cb6502

def CMD0 : BitVec 8 := 0x40
def CMD8 : BitVec 8 := 0x48
def CMD17 : BitVec 8 := 0x51
def CMD55 : BitVec 8 := 0x77
def ACMD41 : BitVec 8 := 0x69

/-- `card_state_t` -/
inductive CardState where
  | sdMode | init | ready
  deriving DecidableEq

/-- `cmd_state_t` -/
inductive CmdState where
  | idle | cmd | r1 | r7 | r1Data | dataStartToken | data | crc1 | crc2
  deriving DecidableEq

/-- The calls on the image file. -/
structure SdImage (φ : Type) where
  lseek : Int → φ → Bool × φ
  read : φ → Option (List (BitVec 8)) × φ

/-- `sdcard_context_t`; the buffers are functions of the index. -/
structure Sdcard (φ : Type) where
  init : Bool := false
  image : φ
  sectorBuf : Nat → BitVec 8 := fun _ => 0
  cardState : CardState := .sdMode
  cmdState : CmdState := .idle
  cmdBuf : Nat → BitVec 8 := fun _ => 0
  rspBuf : Nat → BitVec 8 := fun _ => 0
  cmdBufIdx : Nat := 0
  rspBufIdx : Nat := 0
  outReg : BitVec 8 := 0
  acmdPend : Bool := false
  acmd41Cnt : BitVec 8 := 0
  blockCnt : Nat := 0

variable {φ : Type}

/-- `sdcard_init`, once the image is open. -/
def sdcardInit (image : φ) : Sdcard φ := { init := true, image, outReg := 0xFF }

/-- The byte offset of the block in the argument of a command. -/
def cmdBlock (cmdBuf : Nat → BitVec 8) : Int :=
  ((((cmdBuf 1).setWidth 32 <<< 24) ||| ((cmdBuf 2).setWidth 32 <<< 16) |||
    ((cmdBuf 3).setWidth 32 <<< 8) ||| (cmdBuf 4).setWidth 32 : BitVec 32).toNat : Int) * 512

/-- CMD17 of `handle_cmd`: a failure to seek does not keep it from reading. -/
def handleCmd17 (file : SdImage φ) (cxt : Sdcard φ) : Sdcard φ :=
  let cxt := { cxt with cmdState := .r1Data, outReg := 0x00 }
  let (seeked, image) := file.lseek (cmdBlock cxt.cmdBuf) cxt.image
  let cxt := { cxt with image }
  let cxt := if seeked then cxt else { cxt with outReg := 0x20, cmdState := .r1 }
  match file.read cxt.image with
  | (none, image) => { cxt with image, outReg := 0x20, cmdState := .r1 }
  | (some bytes, image) =>
    { cxt with image, sectorBuf := fun i => if i < 512 then bytes.getD i (cxt.sectorBuf i) else cxt.sectorBuf i }

/-- `handle_cmd`. INIT has no default; the default of READY is misspelt, so it is a label that
nothing jumps to. -/
def handleCmd (file : SdImage φ) (cxt : Sdcard φ) : Sdcard φ :=
  match cxt.cardState with
  | .sdMode =>
    let cxt := if cxt.cmdBuf 0 = CMD0 then { cxt with cardState := .init } else cxt
    { cxt with cmdState := .r1, outReg := 0x01 }
  | .init =>
    if cxt.cmdBuf 0 = CMD8 then
      { cxt with
        cmdState := .r7
        rspBufIdx := 1
        rspBuf := fun i => if i = 0 then 0x01 else if i ≤ 4 then cxt.cmdBuf i else cxt.rspBuf i }
    else if cxt.cmdBuf 0 = CMD55 then
      { cxt with acmdPend := true, cmdState := .r1, outReg := 0x01 }
    else cxt
  | .ready => if cxt.cmdBuf 0 = CMD17 then handleCmd17 file cxt else cxt

/-- `handle_acmd` -/
def handleAcmd (cxt : Sdcard φ) : Sdcard φ :=
  let cxt : Sdcard φ :=
    if cxt.cardState = .init then
      if cxt.cmdBuf 0 = ACMD41 then
        let cxt := { cxt with acmd41Cnt := cxt.acmd41Cnt + 1 }
        let cxt := if cxt.acmd41Cnt = 6 then { cxt with cardState := .ready, outReg := 0 }
          else { cxt with outReg := 0x01 }
        { cxt with cmdState := .r1 }
      else cxt
    else { cxt with cmdState := .r1, outReg := 0x40 }
  { cxt with acmdPend := false }

/-- `sdcard_spi_write` -/
def sdcardSpiWrite (file : SdImage φ) (cxt : Sdcard φ) (byte : BitVec 8) : Sdcard φ :=
  if !cxt.init then cxt
  else if cxt.cmdState = .idle ∧ byte &&& 0x80 ≠ 0 then cxt
  else
    let cxt := if cxt.cmdState = .idle then { cxt with cmdState := .cmd } else cxt
    if cxt.cmdState ≠ .cmd then cxt
    else
      let cxt := { cxt with
        cmdBuf := Function.update cxt.cmdBuf cxt.cmdBufIdx byte
        cmdBufIdx := cxt.cmdBufIdx + 1 }
      if cxt.cmdBufIdx = 6 then
        let cxt := if cxt.acmdPend then handleAcmd cxt else handleCmd file cxt
        { cxt with cmdBufIdx := 0 }
      else cxt

/-- `sdcard_spi_get` -/
def sdcardSpiGet (cxt : Sdcard φ) : BitVec 8 × Sdcard φ :=
  if !cxt.init then (0xFF, cxt)
  else
    (cxt.outReg,
      match cxt.cmdState with
      | .r1 => { cxt with outReg := 0xFF, cmdState := .idle }
      | .r7 =>
        if cxt.rspBufIdx = 5 then { cxt with outReg := 0xFF, cmdState := .idle, rspBufIdx := 0 }
        else { cxt with outReg := cxt.rspBuf cxt.rspBufIdx, rspBufIdx := cxt.rspBufIdx + 1 }
      | .r1Data => { cxt with outReg := 0xFF, cmdState := .dataStartToken }
      | .dataStartToken => { cxt with outReg := 0xFE, cmdState := .data, blockCnt := 0 }
      | .data =>
        let cxt := { cxt with outReg := cxt.sectorBuf cxt.blockCnt, blockCnt := cxt.blockCnt + 1 }
        if cxt.blockCnt = 512 then { cxt with cmdState := .crc1 } else cxt
      | .crc1 => { cxt with outReg := 0x00, cmdState := .crc2 }
      | .crc2 => { cxt with outReg := 0x00, cmdState := .idle }
      | .idle | .cmd => { cxt with outReg := 0xFF })

end Cb6502
