import Cb6502.Lib.Dialogue
import Cb6502.Bus
import Cb6502.Opcodes

/- The 65C02 core's state and its addressing modes (core/src/cpu.c,
   core/src/priv/cpu_priv_types.h). A handler of the source works on the CPU state
   and calls `bus_read` and `bus_write`; here it is a function from the CPU state to
   a program of bus requests that ends in the new CPU state (`BusM`), so what a
   handler asks of the bus can be read off it whatever the bus answers. -/
namespace Cb6502
open Dialogue

/-! ## State -/

structure CpuRegs where
  pc : BitVec 16 := 0
  sp : BitVec 8 := 0
  a : BitVec 8 := 0
  x : BitVec 8 := 0
  y : BitVec 8 := 0
  status : BitVec 8 := 0
  deriving DecidableEq

/-- `cpu_vec_src_t`. -/
inductive VecSrc where
  | brk | nmi | rst | irq
  deriving DecidableEq

/-- `op_state_t`: the opcode fetch, the cycles of the addressing mode, the cycles of
the opcode handler, and the cycles of the vector sequence. -/
inductive OpState where
  | opcode
  | param0 | param1 | param2 | param3 | param4
  | op0 | op1 | op2 | op3 | op4
  | vec0 | vec1 | vec2 | vec3 | vec4 | vec5 | vec6
  deriving DecidableEq

/-- `cpu_t`. `pageBoundary` and `cycleConsumed` are the flags `CPU_PAGE_BOUNDARY` and
`CPU_CYCLE_CONSUMED`. -/
structure Cpu where
  regs : CpuRegs := {}
  ea : BitVec 16 := 0
  reladdr : BitVec 16 := 0
  value : BitVec 16 := 0
  result : BitVec 16 := 0
  opcode : BitVec 8 := 0
  tmpval : BitVec 16 := 0
  vecSrc : VecSrc := .brk
  opState : OpState := .opcode
  pageBoundary : Bool := false
  cycleConsumed : Bool := false
  deriving DecidableEq

/-- `advance_state`. -/
def advanceState (cpu : Cpu) (newState : OpState) (memcycle : Bool) : Cpu :=
  { cpu with cycleConsumed := cpu.cycleConsumed || memcycle, opState := newState }

/-! ## Bus requests -/

/-- A read request: the address, and whether SYNC is asserted. -/
structure BusRead where
  addr : BitVec 16
  sync : Bool

structure BusWrite where
  addr : BitVec 16
  val : BitVec 8

/-- A computation that makes bus requests. -/
abbrev BusM := Prog BusRead BusWrite (BitVec 8)

namespace BusM

/-- `bus_read`. -/
def read (addr : BitVec 16) : BusM (BitVec 8) := .ask ⟨addr, false⟩ .done

/-- `bus_sync_read`. -/
def syncRead (addr : BitVec 16) : BusM (BitVec 8) := .ask ⟨addr, true⟩ .done

/-- `bus_write`. -/
def write (addr : BitVec 16) (val : BitVec 8) : BusM Unit := .tell ⟨addr, val⟩ (.done ())

variable {α : Type}

@[simp] theorem read_bind (addr : BitVec 16) (f : BitVec 8 → BusM α) :
    (read addr >>= f) = .ask ⟨addr, false⟩ f := rfl

@[simp] theorem syncRead_bind (addr : BitVec 16) (f : BitVec 8 → BusM α) :
    (syncRead addr >>= f) = .ask ⟨addr, true⟩ f := rfl

@[simp] theorem write_bind (addr : BitVec 16) (val : BitVec 8) (f : Unit → BusM α) :
    (write addr val >>= f) = .tell ⟨addr, val⟩ (f ()) := rfl

end BusM

def baseStack : BitVec 16 := 0x100

/-- `push8`. -/
def push8 (cpu : Cpu) (pushval : BitVec 8) : BusM Cpu := do
  BusM.write (baseStack + u16 cpu.regs.sp) pushval
  return { cpu with regs.sp := cpu.regs.sp - 1 }

/-- `pull8`: the byte and the CPU with its stack pointer raised. -/
def pull8 (cpu : Cpu) : BusM (BitVec 8 × Cpu) := do
  let cpu := { cpu with regs.sp := cpu.regs.sp + 1 }
  let val ← BusM.read (baseStack + u16 cpu.regs.sp)
  return (val, cpu)

/-! ## Addressing modes -/

/-- Implied and accumulator: the next byte is read and dropped, in the cycle the
opcode handler consumes. -/
def imp (cpu : Cpu) : BusM Cpu := do
  let _ ← BusM.read cpu.regs.pc
  return advanceState cpu .op0 false

def acc (cpu : Cpu) : BusM Cpu := do
  let _ ← BusM.read cpu.regs.pc
  return advanceState cpu .op0 false

def imm (cpu : Cpu) : BusM Cpu :=
  return advanceState { cpu with ea := cpu.regs.pc, regs.pc := cpu.regs.pc + 1 } .op0 false

def zp (cpu : Cpu) : BusM Cpu := do
  let b ← BusM.read cpu.regs.pc
  return advanceState { cpu with ea := u16 b, regs.pc := cpu.regs.pc + 1 } .op0 true

/-- The zero-page modes indexed by the register `idx`. -/
def zpIndexed (idx : CpuRegs → BitVec 8) (cpu : Cpu) : BusM Cpu :=
  if cpu.opState = .param0 then do
    let b ← BusM.read cpu.regs.pc
    return advanceState { cpu with ea := u16 b } .param1 true
  else do
    let _ ← BusM.read cpu.regs.pc
    return advanceState
      { cpu with ea := (cpu.ea + u16 (idx cpu.regs)) &&& 0x00FF, regs.pc := cpu.regs.pc + 1 } .op0 true

def zpx : Cpu → BusM Cpu := zpIndexed CpuRegs.x
def zpy : Cpu → BusM Cpu := zpIndexed CpuRegs.y

def rel (cpu : Cpu) : BusM Cpu := do
  let b ← BusM.read cpu.regs.pc
  let reladdr := u16 b
  let reladdr := if reladdr &&& 0x80 ≠ 0 then reladdr ||| 0xFF00 else reladdr
  return advanceState { cpu with reladdr, regs.pc := cpu.regs.pc + 1 } .op0 false

def abso (cpu : Cpu) : BusM Cpu :=
  -- JSR reads its own parameter.
  if cpu.opcode = 0x20 then return advanceState cpu .op0 false
  else if cpu.opState = .param0 then do
    let b ← BusM.read cpu.regs.pc
    return advanceState { cpu with ea := u16 b, regs.pc := cpu.regs.pc + 1 } .param1 true
  else do
    let b ← BusM.read cpu.regs.pc
    let cpu := { cpu with ea := cpu.ea ||| (u16 b <<< 8), regs.pc := cpu.regs.pc + 1 }
    -- JMP a has no cycle after the read of its address.
    if cpu.opcode = 0x4C then return advanceState cpu .op0 false
    else return advanceState cpu .op0 true

/-- The page of an address. -/
def page (addr : BitVec 16) : BitVec 16 := addr &&& 0xFF00

/-- The absolute modes indexed by the register `idx`. -/
def absIndexed (idx : CpuRegs → BitVec 8) (cpu : Cpu) : BusM Cpu :=
  if cpu.opState = .param0 then do
    let b ← BusM.read cpu.regs.pc
    return advanceState { cpu with ea := u16 b, regs.pc := cpu.regs.pc + 1 } .param1 true
  else if cpu.opState = .param1 then do
    let b ← BusM.read cpu.regs.pc
    let ea := cpu.ea ||| (u16 b <<< 8)
    let startpage := page ea
    let ea := ea + u16 (idx cpu.regs)
    if startpage ≠ page ea then
      return advanceState { cpu with ea, pageBoundary := true } .param2 true
    else
      return advanceState { cpu with ea, regs.pc := cpu.regs.pc + 1 } .op0 true
  else do
    let _ ← BusM.read cpu.regs.pc
    return advanceState { cpu with regs.pc := cpu.regs.pc + 1 } .op0 true

def absx : Cpu → BusM Cpu := absIndexed CpuRegs.x
def absy : Cpu → BusM Cpu := absIndexed CpuRegs.y

def ind (cpu : Cpu) : BusM Cpu :=
  match cpu.opState with
  | .param0 => do
    let b ← BusM.read cpu.regs.pc
    return advanceState { cpu with tmpval := u16 b, regs.pc := cpu.regs.pc + 1 } .param1 true
  | .param1 => do
    let b ← BusM.read cpu.regs.pc
    return advanceState { cpu with tmpval := cpu.tmpval ||| (u16 b <<< 8) } .param2 true
  | .param2 => do
    let _ ← BusM.read cpu.regs.pc
    return advanceState cpu .param3 true
  | .param3 => do
    let b ← BusM.read cpu.tmpval
    return advanceState { cpu with ea := u16 b } .param4 true
  | .param4 => do
    let b ← BusM.read (cpu.tmpval + 1)
    return advanceState { cpu with ea := cpu.ea ||| (u16 b <<< 8) } .op0 false
  | _ => return cpu

def indx (cpu : Cpu) : BusM Cpu :=
  match cpu.opState with
  | .param0 => do
    let b ← BusM.read cpu.regs.pc
    return advanceState { cpu with tmpval := u16 b } .param1 true
  | .param1 => do
    let _ ← BusM.read cpu.regs.pc
    return advanceState
      { cpu with tmpval := (cpu.tmpval + u16 cpu.regs.x) &&& 0x00FF, regs.pc := cpu.regs.pc + 1 }
      .param2 true
  | .param2 => do
    let b ← BusM.read cpu.tmpval
    return advanceState { cpu with ea := u16 b, tmpval := (cpu.tmpval + 1) &&& 0x00FF } .param3 true
  | .param3 => do
    let b ← BusM.read cpu.tmpval
    return advanceState { cpu with ea := cpu.ea ||| (u16 b <<< 8) } .op0 true
  | _ => return cpu

def indy (cpu : Cpu) : BusM Cpu :=
  match cpu.opState with
  | .param0 => do
    let b ← BusM.read cpu.regs.pc
    return advanceState { cpu with tmpval := u16 b, regs.pc := cpu.regs.pc + 1 } .param1 true
  | .param1 => do
    let b ← BusM.read cpu.tmpval
    return advanceState { cpu with ea := u16 b, tmpval := (cpu.tmpval + 1) &&& 0x00FF } .param2 true
  | .param2 => do
    let b ← BusM.read cpu.tmpval
    let ea := cpu.ea ||| (u16 b <<< 8)
    let startpage := page ea
    let ea := ea + u16 cpu.regs.y
    if startpage ≠ page ea then
      return advanceState { cpu with ea, pageBoundary := true } .param3 true
    else
      return advanceState { cpu with ea } .op0 true
  | .param3 => do
    let _ ← BusM.read cpu.tmpval
    return advanceState cpu .op0 true
  | _ => return cpu

def indz (cpu : Cpu) : BusM Cpu :=
  match cpu.opState with
  | .param0 => do
    let b ← BusM.read cpu.regs.pc
    return advanceState { cpu with tmpval := u16 b, regs.pc := cpu.regs.pc + 1 } .param1 true
  | .param1 => do
    let b ← BusM.read cpu.tmpval
    return advanceState { cpu with ea := u16 b, tmpval := (cpu.tmpval + 1) &&& 0xFF } .param2 true
  | .param2 => do
    let b ← BusM.read cpu.tmpval
    return advanceState { cpu with ea := cpu.ea ||| (u16 b <<< 8) } .op0 true
  | _ => return cpu

def abin (cpu : Cpu) : BusM Cpu :=
  match cpu.opState with
  | .param0 => do
    let b ← BusM.read cpu.regs.pc
    return advanceState { cpu with tmpval := u16 b, regs.pc := cpu.regs.pc + 1 } .param1 true
  | .param1 => do
    let b ← BusM.read cpu.regs.pc
    return advanceState { cpu with tmpval := cpu.tmpval ||| (u16 b <<< 8) } .param2 true
  | .param2 => do
    let _ ← BusM.read cpu.regs.pc
    return advanceState { cpu with tmpval := cpu.tmpval + u16 cpu.regs.x } .param3 true
  | .param3 => do
    let b ← BusM.read cpu.tmpval
    return advanceState { cpu with ea := u16 b } .param4 true
  | .param4 => do
    let b ← BusM.read (cpu.tmpval + 1)
    return advanceState { cpu with ea := cpu.ea ||| (u16 b <<< 8) } .op0 false
  | _ => return cpu

def zprel (cpu : Cpu) : BusM Cpu :=
  match cpu.opState with
  | .param0 => do
    let b ← BusM.read cpu.regs.pc
    return advanceState { cpu with ea := u16 b, regs.pc := cpu.regs.pc + 1 } .param1 true
  | .param1 => do
    let b ← BusM.read cpu.ea
    return advanceState { cpu with value := u16 b } .param2 true
  | .param2 => do
    let _ ← BusM.read cpu.ea
    return advanceState cpu .param3 true
  | .param3 => do
    let b ← BusM.read cpu.regs.pc
    return advanceState { cpu with reladdr := u16 b, regs.pc := cpu.regs.pc + 1 } .op0 false
  | _ => return cpu

/-- `addr_handlers`. -/
def addrHandlers : AddrMode → Cpu → BusM Cpu
  | .imp => imp
  | .acc => acc
  | .imm => imm
  | .zp => zp
  | .zpx => zpx
  | .zpy => zpy
  | .rel => rel
  | .abso => abso
  | .absx => absx
  | .absy => absy
  | .ind => ind
  | .indx => indx
  | .indy => indy
  | .indz => indz
  | .abin => abin
  | .zprel => zprel

end Cb6502
