import Cb6502.Bus

/- The 65C51 ACIA (io/acia/src/acia.c) over a transport.

   The transport is the interface `acia_trans_interface_t` over a state `τ` of its own; what
   it does is not part of this module. -/
namespace Cb6502

def ACIA_RS_DATA : BitVec 8 := 0x00
def ACIA_RS_STATUS : BitVec 8 := 0x01
def ACIA_RS_CMD : BitVec 8 := 0x02
def ACIA_RS_CTRL : BitVec 8 := 0x03

/-- `ACIA_REG_MAX` -/
def aciaRegMax : BitVec 16 := 0x03

def ACIA_STATUS_IRQ : BitVec 8 := 0x80
def ACIA_STATUS_TDRE : BitVec 8 := 0x10
def ACIA_STATUS_RDRF : BitVec 8 := 0x08
def ACIA_STATUS_OVER : BitVec 8 := 0x04

/-- `ACIA_RX_READ_CLEAR_BITS` -/
def aciaRxReadClearBits : BitVec 8 := 0x0F

def ACIA_STATUS_SW_RESET_MASK : BitVec 8 := 0x04
def ACIA_CMD_SW_RESET_MASK : BitVec 8 := 0x1F
def ACIA_CMD_IRD_MASK : BitVec 8 := 0x02
def ACIA_CMD_DTR_MASK : BitVec 8 := 0x01

/-- `ACIA_SBR_TABLE` -/
def aciaSbrTable : List Nat :=
  [16, 36864, 24576, 16769, 13704, 12288, 6144, 3072, 1536, 1024, 768, 512, 364, 256, 192, 96]

/-- `ACIA_BIT_LEN_TABLE` -/
def aciaBitLenTable : List Nat := [8, 7, 6, 5]

/-- `acia_trans_interface_t`, for a transport that is open. -/
structure AciaTransInterface (τ : Type) where
  available : τ → Bool × τ
  read : τ → BitVec 8 × τ
  write : BitVec 8 → τ → τ

/-- `struct acia_s` -/
structure Acia (τ : Type) where
  ctlReg : BitVec 8 := 0
  cmdReg : BitVec 8 := 0
  statReg : BitVec 8 := ACIA_STATUS_TDRE
  busHandle : Option Nat := none
  base : BitVec 16 := 0
  voter : BitVec 32 := BUS_SIGNAL_INVALID_VOTER
  transHandle : τ
  txTicks : Nat := 0
  rxTicks : Nat := 0
  writeVal : BitVec 8 := 0
  readVal : BitVec 8 := 0

variable {τ : Type}

/-- `acia_init`, once the transport and the bit clock are set up. -/
def aciaInit (transHandle : τ) : Acia τ := { transHandle }

/-- `acia_get_ticks_per_word` -/
def aciaGetTicksPerWord (handle : Acia τ) : Nat :=
  let sbr := (handle.ctlReg &&& 0x0F).toNat
  let wl := ((handle.ctlReg >>> 5) &&& 0x03).toNat
  let sbn := handle.ctlReg.getLsbD 7
  let bitTicks := aciaSbrTable.getD sbr 0
  let dataTicks := (aciaBitLenTable.getD wl 0 + 1) * bitTicks
  let stopTicks := if sbn then (if wl = 3 then (3 * bitTicks) / 2 else bitTicks * 2) else bitTicks
  dataTicks + stopTicks

/-- `acia_write` -/
def aciaWrite (handle : Acia τ) (reg val : BitVec 8) : Acia τ :=
  if reg = ACIA_RS_DATA then
    if handle.cmdReg &&& ACIA_CMD_DTR_MASK ≠ 0 then
      if handle.txTicks > 0 then handle
      else { handle with writeVal := val, txTicks := aciaGetTicksPerWord handle }
    else handle
  else if reg = ACIA_RS_STATUS then
    { handle with
      statReg := handle.statReg &&& ~~~ACIA_STATUS_SW_RESET_MASK
      cmdReg := handle.cmdReg &&& ~~~ACIA_CMD_SW_RESET_MASK }
  else if reg = ACIA_RS_CTRL then { handle with ctlReg := val }
  else if reg = ACIA_RS_CMD then
    { handle with
      cmdReg := val
      txTicks := if val &&& ACIA_CMD_DTR_MASK = 0 then 0 else handle.txTicks }
  else handle

/-- The ACIA's calls of `emu_bus_sig_vote`, made with a valid voter only. -/
def Acia.voteIrq (handle : Acia τ) (voted : Bool) : List SigVote :=
  if handle.voter ≠ BUS_SIGNAL_INVALID_VOTER then
    [{ voter := handle.voter, signal := .irq, voted }]
  else []

/-- `acia_read`: the value, the new state and the votes. -/
def aciaRead (handle : Acia τ) (reg : BitVec 8) : BitVec 8 × Acia τ × List SigVote :=
  if reg = ACIA_RS_DATA then
    if handle.statReg &&& ACIA_STATUS_RDRF ≠ 0 then
      (handle.readVal, { handle with statReg := handle.statReg &&& ~~~aciaRxReadClearBits }, [])
    else (0xFF, handle, [])
  else if reg = ACIA_RS_STATUS then
    (handle.statReg, { handle with statReg := handle.statReg &&& ~~~ACIA_STATUS_IRQ },
      handle.voteIrq false)
  else if reg = ACIA_RS_CTRL then (handle.ctlReg, handle, [])
  else if reg = ACIA_RS_CMD then (handle.cmdReg, handle, [])
  else (0xFF, handle, [])

/-- The receiver's part of `acia_tick`. -/
def aciaTickRx (transport : AciaTransInterface τ) (handle : Acia τ) : Acia τ × List SigVote :=
  if handle.rxTicks > 0 then
    let handle := { handle with rxTicks := handle.rxTicks - 1 }
    if handle.rxTicks = 0 then
      let (val, transHandle) := transport.read handle.transHandle
      if handle.statReg &&& ACIA_STATUS_RDRF = 0 then
        let handle := { handle with
          statReg := handle.statReg ||| ACIA_STATUS_RDRF, readVal := val, transHandle }
        if handle.voter ≠ BUS_SIGNAL_INVALID_VOTER ∧ handle.cmdReg &&& ACIA_CMD_IRD_MASK = 0 then
          ({ handle with statReg := handle.statReg ||| ACIA_STATUS_IRQ }, handle.voteIrq true)
        else (handle, [])
      else ({ handle with statReg := handle.statReg ||| ACIA_STATUS_OVER, transHandle }, [])
    else (handle, [])
  else
    let (available, transHandle) := transport.available handle.transHandle
    let handle := { handle with transHandle }
    if available ∧ handle.cmdReg &&& ACIA_CMD_DTR_MASK ≠ 0 then
      ({ handle with rxTicks := aciaGetTicksPerWord handle }, [])
    else (handle, [])

/-- `acia_tick` -/
def aciaTick (transport : AciaTransInterface τ) (handle : Acia τ) : Acia τ × List SigVote :=
  let (handle, votes) := aciaTickRx transport handle
  if handle.txTicks > 0 then
    let handle := { handle with txTicks := handle.txTicks - 1 }
    if handle.txTicks = 0 then
      ({ handle with transHandle := transport.write handle.writeVal handle.transHandle }, votes)
    else (handle, votes)
  else (handle, votes)

/-! ## The ACIA on the bus -/

/-- `acia_bus_write_cb` -/
def aciaBusWriteCb (handle : Acia τ) (addr : BitVec 16) (val : BitVec 8) : Acia τ :=
  let reg := addr - handle.base
  if reg ≥ aciaRegMax then handle else aciaWrite handle (u8 reg) val

/-- `acia_bus_read_cb` -/
def aciaBusReadCb (handle : Acia τ) (addr : BitVec 16) : BitVec 8 × Acia τ × List SigVote :=
  let reg := addr - handle.base
  if reg ≥ aciaRegMax then (0xFF, handle, []) else aciaRead handle (u8 reg)

/-- `acia_register`; without a voter, the connection is removed again. -/
def aciaRegister {ω : Type} (handle : Acia τ) (bus : Bus ω) (decoder : Option (BusDecodeParams ω))
    (aciaBusHandlers : BusHandlers ω) (baseAddr : BitVec 16) (interrupt : Bool) :
    Bool × Acia τ × Bus ω :=
  let (error, handle, bus) : Bool × Acia τ × Bus ω :=
    match decoder with
    | none => (false, handle, bus)
    | some decoder =>
      match emuBusRegister bus decoder aciaBusHandlers with
      | (some conn, bus) =>
        (false, { handle with busHandle := some conn, base := baseAddr }, bus)
      | (none, bus) => (true, { handle with busHandle := none }, bus)
  let (error, handle, bus) : Bool × Acia τ × Bus ω :=
    if interrupt && !error then
      let (voter, sigvotes) := emuBusRegisterSigVoter bus.sigvotes
      (voter == BUS_SIGNAL_INVALID_VOTER, { handle with voter }, { bus with sigvotes })
    else (error, handle, bus)
  if error then
    match handle.busHandle with
    | some conn => (false, { handle with busHandle := none }, emuBusUnregister bus conn)
    | none => (false, handle, bus)
  else (true, handle, bus)

/-- `acia_cleanup`: what it does to the bus; the ACIA itself is freed. -/
def aciaCleanup {ω : Type} (handle : Acia τ) (bus : Bus ω) : Bus ω :=
  let bus := match handle.busHandle with
    | some conn => emuBusUnregister bus conn
    | none => bus
  if handle.voter ≠ BUS_SIGNAL_INVALID_VOTER then
    { bus with sigvotes := emuBusUnregisterSigVoter bus.sigvotes handle.voter }
  else bus

end Cb6502
