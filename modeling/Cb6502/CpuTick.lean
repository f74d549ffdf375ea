import Cb6502.Instructions

/- The emulator as the CPU sees it, and its clocked operation: `cpu_init`, `cpu_tick`,
   `cpu_step`. The `while` loops of the source take fuel here; `none` means that the
   fuel ran out. -/
namespace Cb6502
open Dialogue

/-- `struct cbemu_s`, without its clock context. -/
structure Emu (ω : Type) where
  bus : Bus ω
  cpu : Cpu

variable {ω : Type}

/-- The bus answers a handler's requests. -/
def busEnv : Prog.Env BusRead BusWrite (BitVec 8) (Bus ω) where
  answer q bus := if q.sync then busSyncRead bus q.addr else Cb6502.busRead bus q.addr
  obey c bus := Cb6502.busWrite bus c.addr c.val

/-- What every transaction keeps, a program keeps. -/
theorem Bus.Kept.run {α : Type} {I : Bus ω → Prop} (hI : Bus.Kept I) {bus : Bus ω} (h : I bus)
    (p : BusM α) : I (p.run busEnv bus).2 := by
  refine Prog.run_invariant busEnv ?_ ?_ p bus h
  · intro q b hb
    show I (if q.sync then busSyncRead b q.addr else Cb6502.busRead b q.addr).2
    split
    · exact hI.read hb q.addr true
    · exact hI.read hb q.addr false
  · intro c b hb
    exact hI.write hb c.addr c.val

/-- A handler called on the emulator. -/
def Emu.call (emu : Emu ω) (p : BusM Cpu) : Emu ω :=
  let (cpu, bus) := p.run busEnv emu.bus
  { bus, cpu }

/-- `cpu_init`: the core starts in the reset sequence. -/
def cpuInit : Cpu :=
  { regs := { status := flagConstant }, opState := .vec0, vecSrc := .rst }

/-- An IRQ is voted and not masked. -/
def irqTaken (v : SigVotes) (regs : CpuRegs) : Bool :=
  v.irq != 0 && regs.status &&& flagInterrupt == 0

/-- The opcode fetch. -/
def fetch (cpu : Cpu) : BusM Cpu := do
  let opcode ← BusM.syncRead cpu.regs.pc
  return { cpu with opcode, regs.pc := cpu.regs.pc + 1, cycleConsumed := true, opState := .param0 }

/-- The handler for the current state, once past the opcode fetch. -/
def handler (cpu : Cpu) : BusM Cpu :=
  match cpu.opState with
  | .opcode => return cpu
  | .param0 | .param1 | .param2 | .param3 | .param4 => addrHandlers (addrtable cpu.opcode) cpu
  | .op0 | .op1 | .op2 | .op3 | .op4 => ops (optable cpu.opcode) cpu
  | .vec0 | .vec1 | .vec2 | .vec3 | .vec4 | .vec5 | .vec6 => vector cpu

/-- The body of the loop in `cpu_tick`. -/
def cpuTickBody (emu : Emu ω) : Emu ω :=
  if emu.cpu.opState = .opcode then
    if emu.bus.sigvotes.nmiEdgePending then
      { bus := { emu.bus with sigvotes.nmiEdgePending := false }
        cpu := { emu.cpu with vecSrc := .nmi, opState := .vec0 } }
    else if irqTaken emu.bus.sigvotes emu.cpu.regs then
      { emu with cpu := { emu.cpu with vecSrc := .irq, opState := .vec0 } }
    else emu.call (fetch emu.cpu)
  else emu.call (handler emu.cpu)

/-- The loop in `cpu_tick`: until a handler has consumed the cycle. -/
def cpuTickLoop : Nat → Emu ω → Option (Emu ω)
  | 0, _ => none
  | fuel + 1, emu =>
    if emu.cpu.cycleConsumed then some emu else cpuTickLoop fuel (cpuTickBody emu)

/-- `CPU_CLEAR_FLAG(CPU_CYCLE_CONSUMED)`. -/
def Cpu.clearCycle (cpu : Cpu) : Cpu := { cpu with cycleConsumed := false }

/-- `cpu_tick`. -/
def cpuTick (fuel : Nat) (emu : Emu ω) : Option (Emu ω) :=
  let emu := { emu with cpu := emu.cpu.clearCycle }
  if emu.bus.sigvotes.rdy ≠ 0 then some { emu with bus := busReplay emu.bus }
  else (cpuTickLoop fuel emu).map fun emu => { emu with cpu := emu.cpu.clearCycle }

/-- The loop in `cpu_step`: ticks until the next opcode fetch. -/
def cpuStepLoop (tickFuel : Nat) : Nat → Nat → Emu ω → Option (Nat × Emu ω)
  | 0, _, _ => none
  | fuel + 1, elapsed, emu =>
    if emu.cpu.opState = .opcode then some (elapsed, emu)
    else (cpuTick tickFuel emu).bind (cpuStepLoop tickFuel fuel (elapsed + 1))

/-- `cpu_step`: the ticks elapsed and the emulator after them. -/
def cpuStep (tickFuel fuel : Nat) (emu : Emu ω) : Option (BitVec 8 × Emu ω) :=
  let r :=
    if emu.cpu.opState = .opcode then
      (cpuTick tickFuel emu).bind (cpuStepLoop tickFuel fuel 1)
    else cpuStepLoop tickFuel fuel 0 emu
  r.map fun (elapsed, emu) => (BitVec.ofNat 8 elapsed, emu)

/-- `cpu_is_subroutine`. -/
def cpuIsSubroutine (emu : Emu ω) : Bool × Emu ω :=
  let (opcode, bus) := busPeek emu.bus emu.cpu.regs.pc
  (opcode == 0x20, { emu with bus })

end Cb6502
