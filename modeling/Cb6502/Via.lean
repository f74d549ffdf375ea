import Cb6502.Clock
import Cb6502.Bus

/- The 6522 VIA (io/via/src/via.c): port registers and handshake lines, interrupt flags
   with the IRQ vote, and timer 1.

   `notified` is a history variable: the calls made to the registered callbacks, in order,
   each with the levels a callback reads then. What a callback does is not part of this module. -/
namespace Cb6502

/-- The register numbers `DATAB` .. `DA2`. -/
inductive ViaReg where
  | datab | dataa | ddrb | ddra | t1cl | t1ch | t1ll | t1lh
  | t2cl | t2ch | sr | acr | pcr | ifr | ier | da2
  deriving DecidableEq

/-- `REG_MAX` -/
def viaRegMax : BitVec 8 := 0x0F

/-- The register with a given number. -/
def viaReg (reg : BitVec 8) : Option ViaReg :=
  [ViaReg.datab, .dataa, .ddrb, .ddra, .t1cl, .t1ch, .t1ll, .t1lh,
    .t2cl, .t2ch, .sr, .acr, .pcr, .ifr, .ier, .da2][reg.toNat]?

def IFR_CA2 : BitVec 8 := 0x01
def IFR_CA1 : BitVec 8 := 0x02
def IFR_CB2 : BitVec 8 := 0x08
def IFR_CB1 : BitVec 8 := 0x10
def IFR_T1 : BitVec 8 := 0x40

/-- `MERGE_BITS` -/
def mergeBits (val1 val2 val1Mask : BitVec 8) : BitVec 8 :=
  (val1 &&& val1Mask) ||| (val2 &&& ~~~val1Mask)

/-- `via_port_data_t`; the only event is `VIA_EV_PORT_CHANGE`, so it is the event as well. -/
inductive ViaPortData where
  | porta | portb | ctrl
  deriving DecidableEq

/-- `via_ctrl_pin_t` -/
inductive ViaCtrlPin where
  | ca1 | ca2 | cb1 | cb2
  deriving DecidableEq

/-- `via_port_state_t` -/
structure ViaPortState where
  ir : BitVec 8 := 0
  or : BitVec 8 := 0
  ddr : BitVec 8 := 0
  pinIn : BitVec 8 := 0
  c1In : Bool := false
  c2In : Bool := false
  c2Out : Bool := false
  deriving DecidableEq

/-- The bits `VIA_FLAG_*` of `flags` that are used. -/
structure ViaFlags where
  ca2TrigPend : Bool := false
  ca2PulsePend : Bool := false
  ca2ReadTrigPend : Bool := false
  ca2ReadPulsePend : Bool := false
  cb2TrigPend : Bool := false
  cb2PulsePend : Bool := false
  t1Armed : Bool := false
  t1WritePend : Bool := false
  deriving DecidableEq

/-- What the pins show from outside. -/
structure ViaLevels where
  porta : BitVec 8
  portb : BitVec 8
  ca2 : Bool
  cb2 : Bool
  deriving DecidableEq

/-- A call of a registered callback, with the levels at the time. -/
structure ViaNotice where
  callback : Nat
  event : ViaPortData
  levels : ViaLevels
  deriving DecidableEq

/-- `struct via_s` -/
structure Via where
  porta : ViaPortState := {}
  portb : ViaPortState := {}
  acr : BitVec 8 := 0
  pcr : BitVec 8 := 0
  ier : BitVec 8 := 0
  ifr : BitVec 8 := 0
  t1l : BitVec 16 := 0
  t1c : BitVec 16 := 0
  t1pb7 : Bool := true
  flags : ViaFlags := {}
  busHandle : Option Nat := none
  voter : BitVec 32 := BUS_SIGNAL_INVALID_VOTER
  base : BitVec 16 := 0
  callbacks : List Nat := []
  notified : List ViaNotice := []
  deriving DecidableEq

/-- `via_init`: all fields zero but the voter and PB7. -/
def viaInit : Via := {}

namespace Via

/-! ## Bit fields of ACR and PCR -/

def paLatch (v : Via) : Bool := v.acr.getLsbD 0
def pbLatch (v : Via) : Bool := v.acr.getLsbD 1

/-- Set for `VIA_ACR_T1_MODE_CONT`. -/
def t1Mode (v : Via) : Bool := v.acr.getLsbD 6

/-- Set for `VIA_ACR_T1_PB7_ENABLED`. -/
def t1Pb7Enabled (v : Via) : Bool := v.acr.getLsbD 7

/-- `ca1_ctrl` or `cb1_ctrl`. -/
def c1Ctrl (v : Via) (porta : Bool) : Bool := if porta then v.pcr.getLsbD 0 else v.pcr.getLsbD 4

/-- `ca2_ctrl` or `cb2_ctrl`. -/
def c2Ctrl (v : Via) (porta : Bool) : BitVec 3 :=
  if porta then v.pcr.extractLsb' 1 3 else v.pcr.extractLsb' 5 3

def port (v : Via) (porta : Bool) : ViaPortState := if porta then v.porta else v.portb

def setPort (v : Via) (porta : Bool) (p : ViaPortState) : Via :=
  if porta then { v with porta := p } else { v with portb := p }

end Via

def VIA_C2_CTRL_INPUT_IND_NEG_EDGE : BitVec 3 := 1
def VIA_C2_CTRL_INPUT_IND_POS_EDGE : BitVec 3 := 3
def VIA_C2_CTRL_OUTPUT_HANDSAKE : BitVec 3 := 4
def VIA_C2_CTRL_OUTPUT_PULSE : BitVec 3 := 5
def VIA_C2_CTRL_OUTPUT_LOW : BitVec 3 := 6
def VIA_C2_CTRL_OUTPUT_HIGH : BitVec 3 := 7

/-- `via_is_independent_int` -/
def viaIsIndependentInt (v : Via) (porta : Bool) : Bool :=
  v.c2Ctrl porta == VIA_C2_CTRL_INPUT_IND_NEG_EDGE ||
    v.c2Ctrl porta == VIA_C2_CTRL_INPUT_IND_POS_EDGE

/-- `via_is_handshake_output` -/
def viaIsHandshakeOutput (v : Via) (porta : Bool) : Bool :=
  v.c2Ctrl porta == VIA_C2_CTRL_OUTPUT_HANDSAKE || v.c2Ctrl porta == VIA_C2_CTRL_OUTPUT_PULSE

/-! ## The levels on the pins -/

/-- `via_read_data_port` -/
def viaReadDataPort (v : Via) (porta : Bool) : BitVec 8 :=
  if porta then mergeBits v.porta.or v.porta.pinIn v.porta.ddr
  else
    let val := mergeBits v.portb.or v.portb.pinIn v.portb.ddr
    if v.t1Pb7Enabled then (val &&& 0x7F) ||| if v.t1pb7 then 0x80 else 0 else val

/-- `via_read_ctrl` -/
def viaReadCtrl (v : Via) (pin : ViaCtrlPin) : Bool :=
  let c2 (porta : Bool) : Bool :=
    if v.c2Ctrl porta < VIA_C2_CTRL_OUTPUT_HANDSAKE then (v.port porta).c2In
    else (v.port porta).c2Out
  match pin with
  | .ca1 => v.porta.c1In
  | .cb1 => v.portb.c1In
  | .ca2 => c2 true
  | .cb2 => c2 false

/-- What `via_read_data_port` and `via_read_ctrl` report. -/
def Via.levels (v : Via) : ViaLevels where
  porta := viaReadDataPort v true
  portb := viaReadDataPort v false
  ca2 := viaReadCtrl v .ca2
  cb2 := viaReadCtrl v .cb2

/-! ## Interrupt flags and handshake lines -/

/-- A VIA in the middle of an operation, with the votes cast so far. -/
structure ViaStep where
  via : Via
  votes : List SigVote := []
  deriving DecidableEq

/-- The VIA's call of `emu_bus_sig_vote`, made with a valid voter only. -/
def ViaStep.voteIrq (s : ViaStep) (voted : Bool) : ViaStep :=
  if s.via.voter ≠ BUS_SIGNAL_INVALID_VOTER then
    { s with votes := s.votes ++ [{ voter := s.via.voter, signal := .irq, voted }] }
  else s

/-- `via_make_callbacks` -/
def viaMakeCallbacks (s : ViaStep) (event : ViaPortData) : ViaStep :=
  { s with via := { s.via with
      notified := s.via.notified ++
        s.via.callbacks.map fun callback => { callback, event, levels := s.via.levels } } }

/-- `via_set_ifr` -/
def viaSetIfr (s : ViaStep) (bits : BitVec 8) : ViaStep :=
  if bits = 0 then s
  else
    let curIfr7 := s.via.ifr &&& 0x80
    let s := { s with via := { s.via with ifr := s.via.ifr ||| (bits ||| 0x80) } }
    if curIfr7 = 0 then s.voteIrq true else s

/-- `via_clear_ifr` -/
def viaClearIfr (s : ViaStep) (bits : BitVec 8) : ViaStep :=
  let curVoted := s.via.ifr ≠ 0
  let s := { s with via := { s.via with ifr := s.via.ifr &&& ~~~(bits &&& 0x7F) } }
  if s.via.ifr &&& 0x7F = 0 then
    let s := { s with via := { s.via with ifr := 0 } }
    if curVoted then s.voteIrq false else s
  else s

/-- `via_write_c2_state` -/
def viaWriteC2State (s : ViaStep) (porta state : Bool) : ViaStep :=
  let port := s.via.port porta
  if state = port.c2Out then s
  else
    let s := { s with via := s.via.setPort porta { port with c2Out := state } }
    if s.via.c2Ctrl porta ≥ VIA_C2_CTRL_OUTPUT_HANDSAKE then viaMakeCallbacks s .ctrl else s

/-- `via_handle_c1_edge` -/
def viaHandleC1Edge (s : ViaStep) (porta : Bool) : ViaStep :=
  let port := s.via.port porta
  let latch := if porta then s.via.paLatch else s.via.pbLatch
  if port.c1In = s.via.c1Ctrl porta then
    let s := if latch then { s with via := s.via.setPort porta { port with ir := port.pinIn } }
      else s
    let s := viaSetIfr s (if porta then IFR_CA1 else IFR_CB1)
    if s.via.c2Ctrl porta = VIA_C2_CTRL_OUTPUT_HANDSAKE then viaWriteC2State s porta true else s
  else s

/-! ## Clock edges -/

/-- The flags rewritten by `f`. -/
def ViaStep.mapFlags (s : ViaStep) (f : ViaFlags → ViaFlags) : ViaStep :=
  { s with via := { s.via with flags := f s.via.flags } }

/-- The timer's part of a positive edge. -/
def viaT1Posedge (s : ViaStep) : ViaStep :=
  if s.via.flags.t1Armed then
    if s.via.t1c = 0xFFFF then
      let s := viaSetIfr s IFR_T1
      let s := { s with via := { s.via with t1pb7 := !s.via.t1pb7 } }
      let s := if s.via.t1Pb7Enabled then viaMakeCallbacks s .portb else s
      if s.via.t1Mode then s else s.mapFlags fun f => { f with t1Armed := false }
    else s
  else s

/-- The timer's part of a negative edge. -/
def viaT1Negedge (s : ViaStep) : ViaStep :=
  if !s.via.flags.t1WritePend then
    if s.via.t1c = 0xFFFF then { s with via := { s.via with t1c := s.via.t1l } }
    else { s with via := { s.via with t1c := s.via.t1c - 1 } }
  else s.mapFlags fun f => { f with t1WritePend := false }

/-- `via_clock_tick` -/
def viaClockTick (v : Via) (edge : ClockEdge) : ViaStep :=
  let s : ViaStep := { via := v }
  match edge with
  | .posedge =>
    let s := if s.via.flags.ca2PulsePend then
        (viaWriteC2State s true true).mapFlags fun f => { f with ca2PulsePend := false }
      else s
    let s := if s.via.flags.cb2PulsePend then
        (viaWriteC2State s false true).mapFlags fun f => { f with cb2PulsePend := false }
      else s
    let s := if s.via.flags.ca2TrigPend then
        let s := (viaWriteC2State s true false).mapFlags fun f => { f with ca2TrigPend := false }
        if s.via.c2Ctrl true = VIA_C2_CTRL_OUTPUT_PULSE then
          s.mapFlags fun f => { f with ca2PulsePend := true }
        else s
      else s
    let s := if s.via.flags.cb2TrigPend then
        let s := (viaWriteC2State s false false).mapFlags fun f => { f with cb2TrigPend := false }
        if s.via.c2Ctrl false = VIA_C2_CTRL_OUTPUT_PULSE then
          s.mapFlags fun f => { f with cb2PulsePend := true }
        else s
      else s
    viaT1Posedge s
  | .negedge =>
    let s := if s.via.flags.ca2ReadPulsePend then
        if s.via.flags.ca2ReadTrigPend then
          s.mapFlags fun f => { f with ca2ReadTrigPend := false }
        else
          (viaWriteC2State s true true).mapFlags fun f => { f with ca2ReadPulsePend := false }
      else s
    viaT1Negedge s

/-! ## Register accesses -/

/-- `via_ddr_write`, with whether the direction changed. The latch bit is port A's for both
    ports. -/
def viaDdrWrite (s : ViaStep) (porta : Bool) (val : BitVec 8) : ViaStep × Bool :=
  let port := s.via.port porta
  if port.ddr ≠ val then
    let bitsToLatch := (port.ddr ^^^ val) &&& ~~~val
    let port := if s.via.paLatch then { port with ir := mergeBits port.pinIn port.ir bitsToLatch }
      else port
    ({ s with via := s.via.setPort porta { port with ddr := val } }, true)
  else (s, false)

/-- The switch of `via_write`: the new state and the port to dispatch an event for. -/
def viaWriteReg (s : ViaStep) (reg : ViaReg) (val : BitVec 8) : ViaStep × Option ViaPortData :=
  match reg with
  | .ddra =>
    let (s, dispatch) := viaDdrWrite s true val
    (s, if dispatch then some .porta else none)
  | .dataa =>
    let dispatch := if s.via.porta.or ≠ val then some ViaPortData.porta else none
    let s := { s with via := { s.via with porta := { s.via.porta with or := val } } }
    let s := viaClearIfr s (IFR_CA1 ||| if viaIsIndependentInt s.via true then IFR_CA2 else 0)
    let s := if viaIsHandshakeOutput s.via true then
        s.mapFlags fun f => { f with ca2TrigPend := true }
      else s
    (s, dispatch)
  | .ddrb =>
    let (s, dispatch) := viaDdrWrite s false val
    (s, if dispatch then some .portb else none)
  | .datab =>
    let dispatch := if s.via.portb.or ≠ val then some ViaPortData.portb else none
    let s := { s with via := { s.via with portb := { s.via.portb with or := val } } }
    let s := viaClearIfr s (IFR_CB1 ||| if viaIsIndependentInt s.via false then IFR_CB2 else 0)
    let s := if viaIsHandshakeOutput s.via false then
        s.mapFlags fun f => { f with cb2TrigPend := true }
      else s
    (s, dispatch)
  | .t1cl | .t1ll =>
    ({ s with via := { s.via with t1l := (s.via.t1l &&& 0xFF00) ||| u16 val } }, none)
  | .t1ch =>
    let t1l := (s.via.t1l &&& 0x00FF) ||| (u16 val <<< 8)
    let s := { s with via := { s.via with t1l, t1c := t1l } }
    let s := viaClearIfr s IFR_T1
    let (s, dispatch) := if !s.via.flags.t1Armed then
        ({ s with via := { s.via with t1pb7 := false } }, some ViaPortData.portb)
      else (s, none)
    (s.mapFlags fun f => { f with t1Armed := true, t1WritePend := true }, dispatch)
  | .t1lh =>
    let s := { s with via := { s.via with t1l := (s.via.t1l &&& 0x00FF) ||| (u16 val <<< 8) } }
    (viaClearIfr s IFR_T1, none)
  | .acr =>
    let oldPb7 := s.via.t1Pb7Enabled
    let s := { s with via := { s.via with acr := val } }
    (s, if oldPb7 ≠ s.via.t1Pb7Enabled then some .portb else none)
  | .pcr =>
    let s := { s with via := { s.via with pcr := val } }
    let c2 (s : ViaStep) (porta : Bool) : ViaStep :=
      let ctrl := s.via.c2Ctrl porta
      if ctrl = VIA_C2_CTRL_OUTPUT_HANDSAKE ∨ ctrl = VIA_C2_CTRL_OUTPUT_PULSE ∨
          ctrl = VIA_C2_CTRL_OUTPUT_HIGH then viaWriteC2State s porta true
      else if ctrl = VIA_C2_CTRL_OUTPUT_LOW then viaWriteC2State s porta false
      else s
    (c2 (c2 s true) false, none)
  | .ier =>
    let ier := if val &&& 0x80 ≠ 0 then s.via.ier ||| (val &&& 0x7F)
      else s.via.ier &&& ~~~(val &&& 0x7F)
    ({ s with via := { s.via with ier } }, none)
  | .ifr => (viaClearIfr s (val &&& 0x7F), none)
  | .t2cl | .t2ch | .sr | .da2 => (s, none)

/-- `via_write` -/
def viaWrite (v : Via) (reg val : BitVec 8) : ViaStep :=
  match viaReg reg with
  | none => { via := v }
  | some reg =>
    match viaWriteReg { via := v } reg val with
    | (s, some port) => viaMakeCallbacks s port
    | (s, none) => s

/-- The switch of `via_read`. -/
def viaReadReg (s : ViaStep) (reg : ViaReg) : BitVec 8 × ViaStep :=
  match reg with
  | .ddra => (s.via.porta.ddr, s)
  | .ddrb => (s.via.portb.ddr, s)
  | .dataa =>
    let s := viaClearIfr s IFR_CA1
    let s := if viaIsHandshakeOutput s.via true then
        let s := viaWriteC2State s true false
        if s.via.c2Ctrl true = VIA_C2_CTRL_OUTPUT_PULSE then
          s.mapFlags fun f => { f with ca2ReadTrigPend := true, ca2ReadPulsePend := true }
        else s
      else s
    (mergeBits s.via.porta.or s.via.porta.ir s.via.porta.ddr, s)
  | .datab =>
    let s := viaClearIfr s IFR_CB1
    (mergeBits s.via.portb.or s.via.portb.ir s.via.portb.ddr, s)
  | .t1cl =>
    let s := viaClearIfr s IFR_T1
    (u8 s.via.t1c, s)
  | .t1ch => (u8 (s.via.t1c >>> 8), s)
  | .t1ll => (u8 s.via.t1l, s)
  | .t1lh => (u8 (s.via.t1l >>> 8), s)
  | .acr => (s.via.acr, s)
  | .pcr => (s.via.pcr, s)
  | .ier => (s.via.ier, s)
  | .ifr => (s.via.ifr, s)
  | .t2cl | .t2ch | .sr | .da2 => (0, s)

/-- `via_read` -/
def viaRead (v : Via) (reg : BitVec 8) : BitVec 8 × ViaStep :=
  match viaReg reg with
  | none => (0, { via := v })
  | some reg => viaReadReg { via := v } reg

/-! ## Pins -/

/-- `via_write_data_port` -/
def viaWriteDataPort (v : Via) (porta : Bool) (mask data : BitVec 8) : Via :=
  if mask = 0 then v
  else
    let port := v.port porta
    let latch := if porta then v.paLatch else v.pbLatch
    let port := { port with pinIn := mergeBits data port.pinIn mask }
    v.setPort porta (if latch then port else { port with ir := port.pinIn })

/-- `via_write_ctrl` -/
def viaWriteCtrl (v : Via) (pin : ViaCtrlPin) (val : Bool) : ViaStep :=
  let s : ViaStep := { via := v }
  match pin with
  | .ca1 =>
    if val = v.porta.c1In then s
    else viaHandleC1Edge { via := { v with porta := { v.porta with c1In := val } } } true
  | .ca2 => { via := { v with porta := { v.porta with c2In := val } } }
  | .cb1 =>
    if val = v.portb.c1In then s
    else viaHandleC1Edge { via := { v with portb := { v.portb with c1In := val } } } false
  | .cb2 => { via := { v with portb := { v.portb with c2In := val } } }

/-! ## The VIA on the bus -/

/-- `via_bus_write_cb` -/
def viaBusWriteCb (v : Via) (addr : BitVec 16) (val : BitVec 8) : ViaStep :=
  let reg := u8 (addr - v.base)
  if reg > viaRegMax then { via := v } else viaWrite v reg val

/-- `via_bus_read_cb` -/
def viaBusReadCb (v : Via) (addr : BitVec 16) : BitVec 8 × ViaStep :=
  let reg := u8 (addr - v.base)
  if reg > viaRegMax then (0xFF, { via := v }) else viaRead v reg

/-- `via_register`: the connection first, then the voter; without a voter the connection is
    removed, but its handle is kept. -/
def viaRegister {ω : Type} (v : Via) (bus : Bus ω) (decoder : BusDecodeParams ω)
    (viaBusHandlers : BusHandlers ω) (base : BitVec 16) (irq : Bool) : Bool × Via × Bus ω :=
  if v.busHandle.isSome ∨ v.voter ≠ BUS_SIGNAL_INVALID_VOTER then (false, v, bus)
  else
    match emuBusRegister bus decoder viaBusHandlers with
    | (none, bus) => (false, v, bus)
    | (some handle, bus) =>
      let v := { v with busHandle := some handle, base }
      if irq then
        let (voter, sigvotes) := emuBusRegisterSigVoter bus.sigvotes
        let v := { v with voter }
        let bus := { bus with sigvotes }
        if voter = BUS_SIGNAL_INVALID_VOTER then (false, v, emuBusUnregister bus handle)
        else (true, v, bus)
      else (true, v, bus)

/-- `via_cleanup`: what it does to the bus; the VIA itself is freed. -/
def viaCleanup {ω : Type} (v : Via) (bus : Bus ω) : Bus ω :=
  let bus := if v.voter ≠ BUS_SIGNAL_INVALID_VOTER then
      { bus with sigvotes := emuBusUnregisterSigVoter bus.sigvotes v.voter }
    else bus
  match v.busHandle with
  | some handle => emuBusUnregister bus handle
  | none => bus

end Cb6502
