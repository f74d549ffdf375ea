import Cb6502.Cpu

/- The opcode handlers of core/src/cpu.c. Handlers that differ only in a register,
   a flag or an operation are one definition with that as its parameter; each keeps
   its own name, applied to its own values, and `ops` dispatches on `optable`. -/
namespace Cb6502
open Dialogue

/-! ## Status flags -/

def flagCarry : BitVec 8 := 0x01
def flagZero : BitVec 8 := 0x02
def flagInterrupt : BitVec 8 := 0x04
def flagDecimal : BitVec 8 := 0x08
def flagBreak : BitVec 8 := 0x10
def flagConstant : BitVec 8 := 0x20
def flagOverflow : BitVec 8 := 0x40
def flagSign : BitVec 8 := 0x80

def setFlag (flag status : BitVec 8) : BitVec 8 := status ||| flag
def clearFlag (flag status : BitVec 8) : BitVec 8 := status &&& ~~~flag

/-- `flag` set when `b`, cleared otherwise: the shape of the calculation macros. -/
def flagIf (flag : BitVec 8) (b : Bool) (status : BitVec 8) : BitVec 8 :=
  if b then setFlag flag status else clearFlag flag status

def zerocalc (status : BitVec 8) (n : BitVec 16) : BitVec 8 :=
  flagIf flagZero (n &&& 0x00FF == 0) status

def signcalc (status : BitVec 8) (n : BitVec 16) : BitVec 8 :=
  flagIf flagSign (n &&& 0x0080 != 0) status

def carrycalc (status : BitVec 8) (n : BitVec 16) : BitVec 8 :=
  flagIf flagCarry (n &&& 0xFF00 != 0) status

/-- `n` the result, `m` the accumulator, `o` the operand. -/
def overflowcalc (status : BitVec 8) (n : BitVec 16) (m : BitVec 8) (o : BitVec 16) : BitVec 8 :=
  flagIf flagOverflow ((n ^^^ u16 m) &&& (n ^^^ o) &&& 0x0080 != 0) status

/-- `zerocalc` then `signcalc`. -/
def zncalc (status : BitVec 8) (n : BitVec 16) : BitVec 8 := signcalc (zerocalc status n) n

/-! ## Operands -/

def getvalue (cpu : Cpu) : BusM (BitVec 16) :=
  if addrtable cpu.opcode = .acc then return u16 cpu.regs.a
  else do
    let b ← BusM.read cpu.ea
    return u16 b

def putvalue (cpu : Cpu) (saveval : BitVec 16) : BusM Cpu :=
  if addrtable cpu.opcode = .acc then return { cpu with regs.a := u8 saveval }
  else do
    BusM.write cpu.ea (u8 saveval)
    return cpu

/-! ## Arithmetic -/

/-- The sum of `adc` and `sbc`, with its flags: `value` is the operand, complemented
for `sbc`. -/
def addWithFlags (cpu : Cpu) (value : BitVec 16) : Cpu :=
  let result := u16 cpu.regs.a + value + u16 (cpu.regs.status &&& flagCarry)
  let status := carrycalc cpu.regs.status result
  let status := zerocalc status result
  let status := overflowcalc status result cpu.regs.a value
  let status := signcalc status result
  { cpu with result, regs.status := status }

def adc (cpu : Cpu) : BusM Cpu :=
  if cpu.opState = .op0 then do
    let value ← getvalue cpu
    let cpu := addWithFlags cpu value
    if cpu.regs.status &&& flagDecimal ≠ 0 then return advanceState cpu .op1 true
    else return advanceState { cpu with regs.a := u8 cpu.result } .opcode true
  else
    -- The second cycle of decimal mode.
    let status := clearFlag flagCarry cpu.regs.status
    let result := if 0x09 < cpu.result &&& 0x0F then cpu.result + 0x06 else cpu.result
    let (result, status) :=
      if 0x90 < result &&& 0xF0 then (result + 0x60, setFlag flagCarry status) else (result, status)
    return advanceState { cpu with result, regs.status := status, regs.a := u8 result } .opcode true

def sbc (cpu : Cpu) : BusM Cpu :=
  if cpu.opState = .op0 then do
    let value ← getvalue cpu
    let cpu := addWithFlags cpu (value ^^^ 0x00FF)
    if cpu.regs.status &&& flagDecimal ≠ 0 then return advanceState cpu .op1 true
    else return advanceState { cpu with regs.a := u8 cpu.result } .opcode true
  else
    let status := clearFlag flagCarry cpu.regs.status
    let a := cpu.regs.a - 0x66
    let a := if 0x09 < a &&& 0x0F then a + 0x06 else a
    let (a, status) := if 0x90 < a &&& 0xF0 then (a + 0x60, setFlag flagCarry status) else (a, status)
    return advanceState { cpu with regs.status := status, regs.a := a } .opcode true

/-- `and`, `eor` and `ora`: `f` combines the accumulator and the operand. -/
def logical (f : BitVec 16 → BitVec 16 → BitVec 16) (cpu : Cpu) : BusM Cpu := do
  let value ← getvalue cpu
  let result := f (u16 cpu.regs.a) value
  return advanceState
    { cpu with regs.status := zncalc cpu.regs.status result, result, regs.a := u8 result } .opcode true

def and : Cpu → BusM Cpu := logical (· &&& ·)
def eor : Cpu → BusM Cpu := logical (· ^^^ ·)
def ora : Cpu → BusM Cpu := logical (· ||| ·)

/-- `cmp`, `cpx` and `cpy`: `reg` is the register compared. -/
def compare (reg : CpuRegs → BitVec 8) (cpu : Cpu) : BusM Cpu := do
  let value ← getvalue cpu
  let r := reg cpu.regs
  let result := u16 r - value
  let status := flagIf flagCarry (decide (u8 value ≤ r)) cpu.regs.status
  let status := flagIf flagZero (r == u8 value) status
  return advanceState { cpu with regs.status := signcalc status result } .opcode true

def cmp : Cpu → BusM Cpu := compare CpuRegs.a
def cpx : Cpu → BusM Cpu := compare CpuRegs.x
def cpy : Cpu → BusM Cpu := compare CpuRegs.y

def bit (cpu : Cpu) : BusM Cpu := do
  let value ← getvalue cpu
  let status := zerocalc cpu.regs.status (u16 cpu.regs.a &&& value)
  let status := (status &&& 0x3F) ||| u8 (value &&& 0xC0)
  return advanceState { cpu with regs.status := status } .opcode true

/-! ## Read-modify-write -/

/-- `asl`, `lsr`, `rol` and `ror`: `f` computes the result from the operand and the
status, `carry` the new carry from the operand and the result. -/
def shift (f : BitVec 16 → BitVec 8 → BitVec 16) (carry : BitVec 16 → BitVec 16 → Bool)
    (cpu : Cpu) : BusM Cpu :=
  match cpu.opState with
  | .op0 => do
    let value ← getvalue cpu
    let result := f value cpu.regs.status
    let status := flagIf flagCarry (carry value result) cpu.regs.status
    let cpu := { cpu with result, regs.status := zncalc status result }
    if addrtable cpu.opcode = .acc then
      let cpu ← putvalue cpu cpu.result
      return advanceState cpu .opcode true
    else return advanceState cpu .op1 true
  | .op1 => do
    let _ ← BusM.read cpu.ea
    return advanceState cpu .op2 true
  | .op2 => do
    let cpu ← putvalue cpu cpu.result
    return advanceState cpu .opcode true
  | _ => return cpu

/-- `carrycalc` on the result. -/
def carryOut (_ result : BitVec 16) : Bool := result &&& 0xFF00 != 0

/-- The bit shifted out at the right. -/
def bitOut (value _ : BitVec 16) : Bool := value &&& 1 != 0

def asl : Cpu → BusM Cpu := shift (fun value _ => value <<< 1) carryOut
def lsr : Cpu → BusM Cpu := shift (fun value _ => value >>> 1) bitOut
def rol : Cpu → BusM Cpu :=
  shift (fun value status => (value <<< 1) ||| u16 (status &&& flagCarry)) carryOut
def ror : Cpu → BusM Cpu :=
  shift (fun value status => (value >>> 1) ||| (u16 (status &&& flagCarry) <<< 7)) bitOut

/-- `dec` and `inc`: `f` is applied to the operand. -/
def incDec (f : BitVec 16 → BitVec 16) (cpu : Cpu) : BusM Cpu :=
  match cpu.opState with
  | .op0 =>
    -- A fixed penalty cycle, already consumed when the address crossed a page.
    if addrtable cpu.opcode = .absx ∧ cpu.pageBoundary = false then do
      let _ ← BusM.read cpu.ea
      return advanceState cpu .op1 true
    else return advanceState cpu .op1 false
  | .op1 => do
    let value ← getvalue cpu
    let result := f value
    let cpu := { cpu with result, regs.status := zncalc cpu.regs.status result }
    if addrtable cpu.opcode = .acc then
      let cpu ← putvalue cpu cpu.result
      return advanceState cpu .opcode true
    else return advanceState cpu .op2 true
  | .op2 => do
    let _ ← BusM.read cpu.ea
    return advanceState cpu .op3 true
  | .op3 => do
    let cpu ← putvalue cpu cpu.result
    return advanceState cpu .opcode true
  | _ => return cpu

def dec : Cpu → BusM Cpu := incDec (· - 1)
def inc : Cpu → BusM Cpu := incDec (· + 1)

/-- `trb`, `tsb`, `rmb` and `smb`: `f` computes the stored value from the operand and
the CPU, `status` the new status. -/
def modifyBits (f : BitVec 16 → Cpu → BitVec 16) (status : BitVec 16 → Cpu → BitVec 8) (cpu : Cpu) :
    BusM Cpu :=
  match cpu.opState with
  | .op0 => do
    let value ← getvalue cpu
    return advanceState { cpu with regs.status := status value cpu, result := f value cpu } .op1 true
  | .op1 => do
    let _ ← BusM.read cpu.ea
    return advanceState cpu .op2 true
  | .op2 => do
    let cpu ← putvalue cpu cpu.result
    return advanceState cpu .opcode true
  | _ => return cpu

/-- `zerocalc` on the operand masked with the accumulator. -/
def testStatus (value : BitVec 16) (cpu : Cpu) : BitVec 8 :=
  zerocalc cpu.regs.status (u16 (u8 value &&& cpu.regs.a))

def trb : Cpu → BusM Cpu := modifyBits (fun value cpu => value &&& ~~~u16 cpu.regs.a) testStatus
def tsb : Cpu → BusM Cpu := modifyBits (fun value cpu => value ||| u16 cpu.regs.a) testStatus

/-- `(1 << bit)` of `rmb`, `smb`, `bbr` and `bbs`, with the source's `bit = opcode >> 8`. -/
def opcodeBit (cpu : Cpu) : BitVec 16 := 1#16 <<< (u16 cpu.opcode >>> 8)

def rmb : Cpu → BusM Cpu :=
  modifyBits (fun value cpu => value &&& ~~~opcodeBit cpu) (fun _ cpu => cpu.regs.status)
def smb : Cpu → BusM Cpu :=
  modifyBits (fun value cpu => value ||| opcodeBit cpu) (fun _ cpu => cpu.regs.status)

/-! ## Branches and jumps -/

/-- The cycles of a taken branch, the same in `bxx`, `bra`, `bbr` and `bbs`. -/
def branchTaken (cpu : Cpu) : BusM Cpu :=
  match cpu.opState with
  | .op1 => do
    let _ ← BusM.read cpu.regs.pc
    if page cpu.regs.pc ≠ page (cpu.regs.pc + cpu.reladdr) then
      return advanceState cpu .op2 true
    else
      return advanceState { cpu with regs.pc := cpu.regs.pc + cpu.reladdr } .opcode true
  | .op2 => do
    let _ ← BusM.read cpu.regs.pc
    return advanceState { cpu with regs.pc := cpu.regs.pc + cpu.reladdr } .opcode true
  | _ => return cpu

/-- A branch taken when `taken` holds in its first cycle. -/
def branch (taken : Cpu → Bool) (cpu : Cpu) : BusM Cpu :=
  match cpu.opState with
  | .op0 =>
    if taken cpu then return advanceState cpu .op1 true else return advanceState cpu .opcode true
  | _ => branchTaken cpu

/-- `branch_shift_map`: N, V, C, Z. -/
def branchShiftMap : List Nat := [7, 6, 0, 1]

/-- The top two bits of the opcode select the flag, bit 5 its expected value. -/
def bxxTaken (cpu : Cpu) : Bool :=
  let flagShift := branchShiftMap.getD ((cpu.opcode &&& 0xC0) >>> 6).toNat 0
  let expFlag := (cpu.opcode &&& 0x20) >>> 5
  (cpu.regs.status >>> flagShift) &&& 0x01 == expFlag

/-- `emu->cpu.value && (1 << bit)`. -/
def valueAndBit (cpu : Cpu) : Bool := cpu.value != 0 && opcodeBit cpu != 0

def bxx : Cpu → BusM Cpu := branch bxxTaken
def bra : Cpu → BusM Cpu := branch fun _ => true
def bbr : Cpu → BusM Cpu := branch fun cpu => !valueAndBit cpu
def bbs : Cpu → BusM Cpu := branch valueAndBit

def brk (cpu : Cpu) : BusM Cpu :=
  return { advanceState cpu .vec2 true with vecSrc := .brk }

def jmp (cpu : Cpu) : BusM Cpu :=
  return advanceState { cpu with regs.pc := cpu.ea } .opcode true

def jsr (cpu : Cpu) : BusM Cpu :=
  match cpu.opState with
  | .op0 => do
    let b ← BusM.read cpu.regs.pc
    return advanceState { cpu with ea := u16 b, regs.pc := cpu.regs.pc + 1 } .op1 true
  | .op1 => do
    let _ ← BusM.read (baseStack + u16 cpu.regs.sp)
    return advanceState cpu .op2 true
  | .op2 => do
    let cpu ← push8 cpu (u8 (cpu.regs.pc >>> 8))
    return advanceState cpu .op3 true
  | .op3 => do
    let cpu ← push8 cpu (u8 cpu.regs.pc)
    return advanceState cpu .op4 true
  | .op4 => do
    let b ← BusM.read cpu.regs.pc
    let ea := cpu.ea ||| (u16 b <<< 8)
    return advanceState { cpu with ea, regs.pc := ea } .opcode true
  | _ => return cpu

def rti (cpu : Cpu) : BusM Cpu :=
  match cpu.opState with
  | .op0 => return advanceState cpu .op1 true
  | .op1 => do
    let _ ← BusM.read (baseStack + u16 cpu.regs.sp)
    return advanceState cpu .op2 true
  | .op2 => do
    let (status, cpu) ← pull8 cpu
    return advanceState { cpu with regs.status := status } .op3 true
  | .op3 => do
    let (b, cpu) ← pull8 cpu
    return advanceState { cpu with tmpval := u16 b } .op4 true
  | .op4 => do
    let (b, cpu) ← pull8 cpu
    let tmpval := cpu.tmpval ||| (u16 b <<< 8)
    return advanceState { cpu with tmpval, regs.pc := tmpval } .opcode true
  | _ => return cpu

def rts (cpu : Cpu) : BusM Cpu :=
  match cpu.opState with
  | .op0 => return advanceState cpu .op1 true
  | .op1 => do
    let _ ← BusM.read (baseStack + u16 cpu.regs.sp)
    return advanceState cpu .op2 true
  | .op2 => do
    let (b, cpu) ← pull8 cpu
    return advanceState { cpu with tmpval := u16 b } .op3 true
  | .op3 => do
    let (b, cpu) ← pull8 cpu
    let tmpval := cpu.tmpval ||| (u16 b <<< 8)
    return advanceState { cpu with tmpval, regs.pc := tmpval } .op4 true
  | .op4 => do
    let _ ← BusM.read cpu.regs.pc
    return advanceState { cpu with regs.pc := cpu.regs.pc + 1 } .opcode true
  | _ => return cpu

/-! ## Stack, loads, stores, transfers -/

/-- The push that `ph` selects by the opcode. -/
def phPush (cpu : Cpu) : BusM Cpu :=
  if cpu.opcode = 0x08 then push8 cpu (cpu.regs.status ||| flagBreak)
  else if cpu.opcode = 0x48 then push8 cpu cpu.regs.a
  else if cpu.opcode = 0x5A then push8 cpu cpu.regs.y
  else if cpu.opcode = 0xDA then push8 cpu cpu.regs.x
  else pure cpu

def ph (cpu : Cpu) : BusM Cpu :=
  if cpu.opState = .op0 then return advanceState cpu .op1 true
  else do
    let cpu ← phPush cpu
    return advanceState cpu .opcode true

/-- A pull into the register `put` writes, with Z and N from the byte. -/
def pullReg (put : BitVec 8 → CpuRegs → CpuRegs) (cpu : Cpu) : BusM Cpu := do
  let (b, cpu) ← pull8 cpu
  return { cpu with regs := { put b cpu.regs with status := zncalc cpu.regs.status (u16 b) } }

/-- The pull that `pl` selects by the opcode. -/
def plPull (cpu : Cpu) : BusM Cpu :=
  if cpu.opcode = 0x28 then do
    let (b, cpu) ← pull8 cpu
    return { cpu with regs.status := b ||| flagConstant }
  else if cpu.opcode = 0x68 then pullReg (fun b r => { r with a := b }) cpu
  else if cpu.opcode = 0x7A then pullReg (fun b r => { r with y := b }) cpu
  else if cpu.opcode = 0xFA then pullReg (fun b r => { r with x := b }) cpu
  else pure cpu

def pl (cpu : Cpu) : BusM Cpu :=
  match cpu.opState with
  | .op0 => return advanceState cpu .op1 true
  | .op1 => do
    let _ ← BusM.read (baseStack + u16 cpu.regs.sp)
    return advanceState cpu .op2 true
  | .op2 => do
    let cpu ← plPull cpu
    return advanceState cpu .opcode true
  | _ => return cpu

/-- `lda`, `ldx` and `ldy`: `put` writes the register loaded. -/
def load (put : BitVec 8 → CpuRegs → CpuRegs) (cpu : Cpu) : BusM Cpu := do
  let value ← getvalue cpu
  let b := u8 value
  return advanceState
    { cpu with regs := { put b cpu.regs with status := zncalc cpu.regs.status (u16 b) } } .opcode true

def lda : Cpu → BusM Cpu := load fun b r => { r with a := b }
def ldx : Cpu → BusM Cpu := load fun b r => { r with x := b }
def ldy : Cpu → BusM Cpu := load fun b r => { r with y := b }

/-- `stx`, `sty` and `stz`: `reg` is the value stored. -/
def store (reg : CpuRegs → BitVec 8) (cpu : Cpu) : BusM Cpu :=
  let mode := addrtable cpu.opcode
  if cpu.opState = .op0 ∧ (mode = .absx ∨ mode = .absy) ∧ cpu.pageBoundary = false then do
    -- The extra cycle reads the address about to be written.
    let _ ← BusM.read cpu.ea
    return advanceState cpu .op1 true
  else do
    let cpu ← putvalue cpu (u16 (reg cpu.regs))
    return advanceState cpu .opcode true

def stx : Cpu → BusM Cpu := store CpuRegs.x
def sty : Cpu → BusM Cpu := store CpuRegs.y
def stz : Cpu → BusM Cpu := store fun _ => 0

/-- `sta` has the extra cycle for `(zp),y` too, which reads the second pointer byte again. -/
def sta (cpu : Cpu) : BusM Cpu :=
  if cpu.opState = .op0 ∧ addrtable cpu.opcode = .indy ∧ cpu.pageBoundary = false then do
    let _ ← BusM.read cpu.tmpval
    return advanceState cpu .op1 true
  else store CpuRegs.a cpu

/-- An instruction that rewrites the registers and takes no further cycle. -/
def regsOp (f : CpuRegs → CpuRegs) (cpu : Cpu) : BusM Cpu :=
  return advanceState { cpu with regs := f cpu.regs } .opcode true

/-- The registers with Z and N from the byte `b`. -/
def CpuRegs.zn (r : CpuRegs) (b : BitVec 8) : CpuRegs := { r with status := zncalc r.status (u16 b) }

def clc : Cpu → BusM Cpu := regsOp fun r => { r with status := clearFlag flagCarry r.status }
def cld : Cpu → BusM Cpu := regsOp fun r => { r with status := clearFlag flagDecimal r.status }
def cli : Cpu → BusM Cpu := regsOp fun r => { r with status := clearFlag flagInterrupt r.status }
def clv : Cpu → BusM Cpu := regsOp fun r => { r with status := clearFlag flagOverflow r.status }
def sec : Cpu → BusM Cpu := regsOp fun r => { r with status := setFlag flagCarry r.status }
def sed : Cpu → BusM Cpu := regsOp fun r => { r with status := setFlag flagDecimal r.status }
def sei : Cpu → BusM Cpu := regsOp fun r => { r with status := setFlag flagInterrupt r.status }

def dex : Cpu → BusM Cpu := regsOp fun r => { r with x := r.x - 1 }.zn (r.x - 1)
def dey : Cpu → BusM Cpu := regsOp fun r => { r with y := r.y - 1 }.zn (r.y - 1)
def inx : Cpu → BusM Cpu := regsOp fun r => { r with x := r.x + 1 }.zn (r.x + 1)
def iny : Cpu → BusM Cpu := regsOp fun r => { r with y := r.y + 1 }.zn (r.y + 1)

def tax : Cpu → BusM Cpu := regsOp fun r => { r with x := r.a }.zn r.a
def tay : Cpu → BusM Cpu := regsOp fun r => { r with y := r.a }.zn r.a
def tsx : Cpu → BusM Cpu := regsOp fun r => { r with x := r.sp }.zn r.sp
def txa : Cpu → BusM Cpu := regsOp fun r => { r with a := r.x }.zn r.x
def tya : Cpu → BusM Cpu := regsOp fun r => { r with a := r.y }.zn r.y
def txs : Cpu → BusM Cpu := regsOp fun r => { r with sp := r.x }

def nop : Cpu → BusM Cpu := regsOp id
def wai : Cpu → BusM Cpu := regsOp id

/-- The handlers `optable` points to. -/
def ops : Op → Cpu → BusM Cpu
  | .adc => adc | .and => and | .asl => asl | .bbr => bbr | .bbs => bbs | .bit => bit | .bra => bra
  | .brk => brk | .bxx => bxx | .clc => clc | .cld => cld | .cli => cli | .clv => clv | .cmp => cmp
  | .cpx => cpx | .cpy => cpy | .dec => dec | .dex => dex | .dey => dey | .eor => eor | .inc => inc
  | .inx => inx | .iny => iny | .jmp => jmp | .jsr => jsr | .lda => lda | .ldx => ldx | .ldy => ldy
  | .lsr => lsr | .nop => nop | .ora => ora | .ph => ph | .pl => pl | .rmb => rmb | .rol => rol
  | .ror => ror | .rti => rti | .rts => rts | .sbc => sbc | .sec => sec | .sed => sed | .sei => sei
  | .smb => smb | .sta => sta | .stx => stx | .sty => sty | .stz => stz | .tax => tax | .tay => tay
  | .trb => trb | .tsb => tsb | .tsx => tsx | .txa => txa | .txs => txs | .tya => tya | .wai => wai

/-! ## The vector sequence -/

/-- The vector address of each source. -/
def vectorAddr : VecSrc → BitVec 16
  | .brk | .irq => 0xFFFE
  | .nmi => 0xFFFA
  | .rst => 0xFFFC

/-- `vector`. -/
def vector (cpu : Cpu) : BusM Cpu :=
  match cpu.opState with
  | .vec0 => do
    let _ ← BusM.read cpu.regs.pc
    return advanceState cpu .vec1 true
  | .vec1 => do
    let _ ← BusM.read cpu.regs.pc
    return advanceState cpu .vec2 true
  | .vec2 => do
    let cpu ← push8 cpu (u8 (cpu.regs.pc >>> 8))
    return advanceState cpu .vec3 true
  | .vec3 => do
    let cpu ← push8 cpu (u8 cpu.regs.pc)
    return advanceState cpu .vec4 true
  | .vec4 => do
    let cpu ← push8 cpu
      (if cpu.vecSrc = .brk then cpu.regs.status ||| flagBreak else cpu.regs.status)
    let status :=
      if cpu.vecSrc = .rst then clearFlag flagDecimal cpu.regs.status else cpu.regs.status
    return advanceState { cpu with regs.status := setFlag flagInterrupt status } .vec5 true
  | .vec5 => do
    let tmpval := vectorAddr cpu.vecSrc
    let b ← BusM.read tmpval
    return advanceState { cpu with tmpval, ea := u16 b } .vec6 true
  | .vec6 => do
    let b ← BusM.read (cpu.tmpval + 1)
    let ea := cpu.ea ||| (u16 b <<< 8)
    return advanceState { cpu with ea, regs.pc := ea } .opcode true
  | _ => return cpu

end Cb6502
