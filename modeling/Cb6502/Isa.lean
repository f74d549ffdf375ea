import Cb6502.Arithmetic
import Cb6502.Branches
import Cb6502.Brk
import Cb6502.ReadModifyWrite

/- The instruction set as a program sees it. A `Machine` is the registers and the bytes of the
   64K memory; `Machine.step` is one instruction, `Machine.interrupt` the entry of an
   interrupt and `Machine.reset` that of the reset. Nothing here knows of cycles, of the
   states of a handler or of the bus. Where the emulator departs from the 65C02 the machine
   does as the emulator: the `bit` instructions act on bit 0, or on the whole operand, and
   BRK pushes the address of its second byte. -/
namespace Cb6502

/-- The registers and the bytes. -/
structure Machine where
  regs : CpuRegs
  mem : Mem

/-- What a program sees of an emulator on the RAM `R`. -/
def Emu.machine {ω : Type} (R : Ram ω) (emu : Emu ω) : Machine := ⟨emu.cpu.regs, R.mem emu.bus.devs⟩

/-! ## Computations on the registers -/

/-- ADC of `v`. With D set the digits of the binary sum are adjusted; N, V and Z stay those of
the binary sum. -/
def adcRegs (r : CpuRegs) (v : BitVec 8) : CpuRegs :=
  let sum := binaryAdd r v
  if hasFlag flagDecimal r.status then
    let (result, carry) := adcAdjust (u16 r.a + u16 v + u16 (r.status &&& flagCarry))
    { sum with a := u8 result, status := flagIf flagCarry carry sum.status }
  else sum

/-- SBC of `v`. With D set the accumulator is adjusted, not the difference. -/
def sbcRegs (r : CpuRegs) (v : BitVec 8) : CpuRegs :=
  let difference := binaryAdd r (~~~v)
  if hasFlag flagDecimal r.status then
    let (a, carry) := sbcAdjust r.a
    { difference with a, status := flagIf flagCarry carry difference.status }
  else difference

/-- BIT of `v`, in immediate mode too. -/
def bitStatus (r : CpuRegs) (v : BitVec 8) : BitVec 8 :=
  flagIf flagSign v.msb (flagIf flagOverflow (v.getLsbD 6) (flagIf flagZero (r.a &&& v == 0) r.status))

/-- A register is loaded with `b`: N and Z follow. -/
def CpuRegs.nz (r : CpuRegs) (b : BitVec 8) : CpuRegs := { r with status := nzStatus r.status b }

/-- What `op` makes of the registers, `v` being its operand, when that is all it does. -/
def Op.compute (op : Op) (r : CpuRegs) (v : BitVec 8) : CpuRegs :=
  match op with
  | .adc => adcRegs r v
  | .sbc => sbcRegs r v
  | .and => { r with a := r.a &&& v }.nz (r.a &&& v)
  | .eor => { r with a := r.a ^^^ v }.nz (r.a ^^^ v)
  | .ora => { r with a := r.a ||| v }.nz (r.a ||| v)
  | .cmp => { r with status := comparedStatus r.a v r.status }
  | .cpx => { r with status := comparedStatus r.x v r.status }
  | .cpy => { r with status := comparedStatus r.y v r.status }
  | .bit => { r with status := bitStatus r v }
  | .lda => { r with a := v }.nz v
  | .ldx => { r with x := v }.nz v
  | .ldy => { r with y := v }.nz v
  | .clc => { r with status := clearFlag flagCarry r.status }
  | .cld => { r with status := clearFlag flagDecimal r.status }
  | .cli => { r with status := clearFlag flagInterrupt r.status }
  | .clv => { r with status := clearFlag flagOverflow r.status }
  | .sec => { r with status := setFlag flagCarry r.status }
  | .sed => { r with status := setFlag flagDecimal r.status }
  | .sei => { r with status := setFlag flagInterrupt r.status }
  | .dex => { r with x := r.x - 1 }.nz (r.x - 1)
  | .dey => { r with y := r.y - 1 }.nz (r.y - 1)
  | .inx => { r with x := r.x + 1 }.nz (r.x + 1)
  | .iny => { r with y := r.y + 1 }.nz (r.y + 1)
  | .tax => { r with x := r.a }.nz r.a
  | .tay => { r with y := r.a }.nz r.a
  | .tsx => { r with x := r.sp }.nz r.sp
  | .txa => { r with a := r.x }.nz r.x
  | .tya => { r with a := r.y }.nz r.y
  | .txs => { r with sp := r.x }
  | _ => r

/-- The byte that a store writes. -/
def Op.stored (op : Op) (r : CpuRegs) : BitVec 8 :=
  match op with
  | .sta => r.a
  | .stx => r.x
  | .sty => r.y
  | _ => 0

/-- The byte that RMB and SMB make of `v`. -/
def Op.bitZero (op : Op) (v : BitVec 8) : BitVec 8 :=
  match op with
  | .rmb => v &&& ~~~1
  | _ => v ||| 1

/-! ## Branches -/

/-- The flag that a conditional branch tests, in the top two bits of its opcode. -/
def branchFlag (opcode : BitVec 8) : BitVec 8 :=
  if opcode < 0x40 then flagSign
  else if opcode < 0x80 then flagOverflow
  else if opcode < 0xC0 then flagCarry
  else flagZero

/-- The instruction at `r.pc` is a branch, and taken. -/
def branchesAway (m : Mem) (r : CpuRegs) : Bool :=
  match optable (m r.pc) with
  | .bxx => hasFlag (branchFlag (m r.pc)) r.status == (m r.pc).getLsbD 5
  | .bra => true
  | .bbr => zpOperand m r == 0
  | .bbs => zpOperand m r != 0
  | _ => false

/-- The offset of the branch at `r.pc`. That of BBR and BBS is not extended by its sign. -/
def branchDistance (m : Mem) (r : CpuRegs) : BitVec 16 :=
  if addrtable (m r.pc) = .zprel then u16 (branchOffset m r) else (m (r.pc + 1)).signExtend 16

/-! ## The stack -/

/-- The byte that the push of this opcode pushes: `PHP`, `PHA`, `PHY` or `PHX`. -/
def pushedByte (opcode : BitVec 8) (r : CpuRegs) : BitVec 8 :=
  if opcode = 0x08 then r.status ||| flagBreak
  else if opcode = 0x48 then r.a
  else if opcode = 0x5A then r.y
  else r.x

/-- The registers once the byte `b` is pulled by `PLP`, `PLA`, `PLY` or `PLX`. -/
def pulledRegs (opcode b : BitVec 8) (r : CpuRegs) : CpuRegs :=
  if opcode = 0x28 then { r with status := b ||| flagConstant }
  else if opcode = 0x68 then { r with a := b }.nz b
  else if opcode = 0x7A then { r with y := b }.nz b
  else { r with x := b }.nz b

/-! ## One step -/

namespace Machine

/-- The instruction at the program counter. -/
def step (s : Machine) : Machine :=
  let m := s.mem
  let r := s.regs
  let opcode := m r.pc
  let op := optable opcode
  let mode := addrtable opcode
  let addr := (operandAddress m r mode).getD 0
  let v := (operandByte m r).getD 0
  let next := { r with pc := r.pc + BitVec.ofNat 16 (addrLengths mode) }
  match op with
  | .sta | .stx | .sty | .stz => ⟨next, Function.update m addr (op.stored r)⟩
  | .asl | .lsr | .rol | .ror | .inc | .dec | .trb | .tsb =>
    if mode = .acc then
      ⟨{ next with a := rmwResult op r v, status := rmwStatus op r v }, m⟩
    else
      ⟨{ next with status := rmwStatus op r v }, Function.update m addr (rmwResult op r v)⟩
  | .rmb | .smb => ⟨next, Function.update m addr (op.bitZero v)⟩
  | .bxx | .bra | .bbr | .bbs =>
    ⟨{ next with pc := if branchesAway m r then next.pc + branchDistance m r else next.pc }, m⟩
  | .jmp => ⟨{ r with pc := addr }, m⟩
  | .jsr =>
    -- the high byte of the target is read after the pushes
    let m' := pushWord m r.sp (r.pc + 2)
    ⟨{ r with pc := joinBytes (m (r.pc + 1)) (m' (r.pc + 2)), sp := r.sp - 2 }, m'⟩
  | .rts =>
    ⟨{ r with pc := joinBytes (m (stackAddr (r.sp + 1))) (m (stackAddr (r.sp + 2))) + 1, sp := r.sp + 2 }, m⟩
  | .rti =>
    ⟨{ r with
        pc := joinBytes (m (stackAddr (r.sp + 2))) (m (stackAddr (r.sp + 3)))
        sp := r.sp + 3
        status := m (stackAddr (r.sp + 1)) }, m⟩
  | .brk =>
    ⟨{ r with pc := m.word 0xFFFE, sp := r.sp - 3, status := setFlag flagInterrupt r.status },
      pushFrame m r.sp (r.pc + 1) (r.status ||| flagBreak)⟩
  | .ph =>
    ⟨{ next with sp := r.sp - 1 }, Function.update m (stackAddr r.sp) (pushedByte opcode r)⟩
  | .pl => ⟨pulledRegs opcode (m (stackAddr (r.sp + 1))) { next with sp := r.sp + 1 }, m⟩
  | _ => ⟨op.compute next v, m⟩

/-- The entry of an interrupt. -/
def interrupt (src : VecSrc) (s : Machine) : Machine :=
  ⟨{ s.regs with
      pc := s.mem.word (vectorAddr src)
      sp := s.regs.sp - 3
      status := setFlag flagInterrupt s.regs.status },
    pushFrame s.mem s.regs.sp s.regs.pc s.regs.status⟩

/-- The reset, which takes the same sequence: it pushes a frame too, and clears D. -/
def reset (s : Machine) : Machine :=
  ⟨{ s.regs with
      pc := s.mem.word 0xFFFC
      sp := s.regs.sp - 3
      status := setFlag flagInterrupt (clearFlag flagDecimal s.regs.status) },
    pushFrame s.mem s.regs.sp s.regs.pc s.regs.status⟩

end Machine

end Cb6502
