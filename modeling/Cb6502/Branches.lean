import Cb6502.Execution

/- The relative branches. The handler decodes the flag and its value from three bits of the
   opcode, and spends its cycles in two states: a taken branch that stays in the page of the
   next instruction ends in the first of them, one that leaves it in the second. The first
   cycle of the handler is the one in which the offset is read, so a branch that is not taken
   costs nothing behind it. -/
namespace Cb6502
open Dialogue

variable {ω : Type} {R : Ram ω}

/-! ## What the branches are to do -/

/-- The branches on a flag, and BRA. -/
inductive Branch where
  | bpl | bmi | bvc | bvs | bcc | bcs | bne | beq | bra
  deriving DecidableEq

namespace Branch

def opcode : Branch → BitVec 8
  | .bpl => 0x10 | .bmi => 0x30 | .bvc => 0x50 | .bvs => 0x70 | .bcc => 0x90 | .bcs => 0xB0
  | .bne => 0xD0 | .beq => 0xF0 | .bra => 0x80

/-- The branch is taken with this status. -/
def taken (status : BitVec 8) : Branch → Bool
  | .bpl => status &&& flagSign == 0
  | .bmi => status &&& flagSign != 0
  | .bvc => status &&& flagOverflow == 0
  | .bvs => status &&& flagOverflow != 0
  | .bcc => status &&& flagCarry == 0
  | .bcs => status &&& flagCarry != 0
  | .bne => status &&& flagZero == 0
  | .beq => status &&& flagZero != 0
  | .bra => true

/-- Where the branch leads, `next` being the address of the instruction behind it. -/
def leadsTo (b : Branch) (status : BitVec 8) (next : BitVec 16) (offset : BitVec 8) : BitVec 16 :=
  if b.taken status then next + offset.signExtend 16 else next

def ticks (b : Branch) (status : BitVec 8) (next : BitVec 16) (offset : BitVec 8) : Nat :=
  if b.taken status then
    if page next = page (next + offset.signExtend 16) then 3 else 4
  else 2

/-! ## The handlers -/

/-- The test of the branch's handler. -/
def test : Branch → Cpu → Bool
  | .bra => fun _ => true
  | _ => bxxTaken

theorem addrtable_opcode (b : Branch) : addrtable b.opcode = .rel := by
  cases b <;> decide

theorem ops_opcode (b : Branch) : ops (optable b.opcode) = branch b.test := by
  have hop : optable b.opcode = if b = .bra then .bra else .bxx := by cases b <;> decide
  rw [hop]
  cases b <;> rfl

/-- The shift table and the polarity bit find the flag. -/
theorem test_eq (b : Branch) {c : Cpu} (hop : c.opcode = b.opcode) : b.test c = b.taken c.regs.status := by
  have hbxx : ∀ status : BitVec 8, b ≠ .bra →
      ((status >>> branchShiftMap.getD ((b.opcode &&& 0xC0) >>> 6).toNat 0) &&& 0x01 ==
        (b.opcode &&& 0x20) >>> 5) = b.taken status := by
    cases b <;> decide +kernel
  cases b
  case bra => rfl
  all_goals
    show bxxTaken c = _
    rw [bxxTaken, hop]
    exact hbxx c.regs.status (by decide)

end Branch

/-- What `rel` makes of the byte. -/
theorem rel_signExtend (b : BitVec 8) :
    (if u16 b &&& 0x80 ≠ 0 then u16 b ||| 0xFF00 else u16 b) = b.signExtend 16 := by
  revert b
  decide +kernel

section
variable (cpu : Cpu) (m : Mem) (hc : cpu.cycleConsumed = false) {b : Branch} (hop : cpu.opcode = b.opcode)
include hc hop

/-- The offset is read, and the flag tested. -/
theorem core_cycle_branch0 (hs : cpu.opState = .param0) :
    Core.cycle ⟨cpu, m⟩ =
      ⟨{ cpu with
          reladdr := (m cpu.regs.pc).signExtend 16
          regs.pc := cpu.regs.pc + 1
          opState := if b.taken cpu.regs.status then .op1 else .opcode }, m⟩ := by
  obtain ⟨regs, ea, reladdr, value, result, opcode, tmpval, src, s, pb, cc⟩ := cpu
  obtain rfl : cc = false := hc
  obtain rfl : opcode = b.opcode := hop
  obtain rfl : s = .param0 := hs
  have hrel := rel_signExtend (m regs.pc)
  have htest : ∀ c : Cpu, c.opcode = b.opcode → b.test c = b.taken c.regs.status := fun _ h => b.test_eq h
  by_cases htaken : b.taken regs.status = true
  · simp [Core.cycle, Core.after, Cb6502.cycle, cycleFrom, handler, b.addrtable_opcode, addrHandlers, rel,
      b.ops_opcode, branch, htest, htaken, advanceState, ramEnv, Cpu.clearCycle, ← hrel]
  · simp [Core.cycle, Core.after, Cb6502.cycle, cycleFrom, handler, b.addrtable_opcode, addrHandlers, rel,
      b.ops_opcode, branch, htest, htaken, advanceState, ramEnv, Cpu.clearCycle, ← hrel]

theorem core_cycle_branch1 (hs : cpu.opState = .op1) :
    Core.cycle ⟨cpu, m⟩ =
      if page cpu.regs.pc = page (cpu.regs.pc + cpu.reladdr) then
        ⟨{ cpu with regs.pc := cpu.regs.pc + cpu.reladdr, opState := .opcode }, m⟩
      else ⟨{ cpu with opState := .op2 }, m⟩ := by
  by_cases hpage : page cpu.regs.pc = page (cpu.regs.pc + cpu.reladdr)
  · simp [Core.cycle, Core.after, Cb6502.cycle, cycleFrom, handler, hs, hop, b.ops_opcode, branch, branchTaken,
      ← hpage, advanceState, ramEnv, Cpu.clearCycle, hc]
  · simp [Core.cycle, Core.after, Cb6502.cycle, cycleFrom, handler, hs, hop, b.ops_opcode, branch, branchTaken,
      hpage, advanceState, ramEnv, Cpu.clearCycle, hc]

theorem core_cycle_branch2 (hs : cpu.opState = .op2) :
    Core.cycle ⟨cpu, m⟩ =
      ⟨{ cpu with regs.pc := cpu.regs.pc + cpu.reladdr, opState := .opcode }, m⟩ := by
  simp [Core.cycle, Core.after, Cb6502.cycle, cycleFrom, handler, hs, hop, b.ops_opcode, branch, branchTaken,
    advanceState, ramEnv, Cpu.clearCycle, hc]

end

/-- The core after the branch `b`, from the core after its fetch. -/
def Core.branched (b : Branch) (c : Core) : Core :=
  let offset := c.mem c.cpu.regs.pc
  { c with cpu := { c.cpu with
      reladdr := offset.signExtend 16
      regs.pc := b.leadsTo c.cpu.regs.status (c.cpu.regs.pc + 1) offset
      opState := .opcode } }

theorem branch_reaches (b : Branch) (c : Core) (hc : c.cpu.cycleConsumed = false)
    (hop : c.cpu.opcode = b.opcode) (hs : c.cpu.opState = .param0) :
    ∃ k, b.ticks c.cpu.regs.status (c.cpu.regs.pc + 1) (c.mem c.cpu.regs.pc) = k + 1 ∧
      Core.Reaches k c (c.branched b) := by
  obtain ⟨⟨⟨pc, sp, a, x, y, status⟩, ea, reladdr, value, result, opcode, tmpval, src, s, pb, cc⟩, m⟩ := c
  obtain rfl : cc = false := hc
  obtain rfl : opcode = b.opcode := hop
  obtain rfl : s = .param0 := hs
  unfold Branch.ticks Core.branched Branch.leadsTo
  by_cases htaken : b.taken status = true
  · by_cases hpage : page (pc + 1) = page (pc + 1 + (m pc).signExtend 16)
    · refine ⟨2, by rw [if_pos htaken, if_pos hpage], .cycle nofun ?_⟩
      rw [core_cycle_branch0 _ _ rfl rfl rfl]
      simp only [htaken, if_true]
      refine .cycle nofun ?_
      rw [core_cycle_branch1 _ _ rfl rfl rfl, if_pos hpage]
      exact .done _
    · refine ⟨3, by rw [if_pos htaken, if_neg hpage], .cycle nofun ?_⟩
      rw [core_cycle_branch0 _ _ rfl rfl rfl]
      simp only [htaken, if_true]
      refine .cycle nofun ?_
      rw [core_cycle_branch1 _ _ rfl rfl rfl, if_neg hpage]
      refine .cycle nofun ?_
      rw [core_cycle_branch2 _ _ rfl rfl rfl]
      exact .done _
  · refine ⟨1, by rw [if_neg htaken], .cycle nofun ?_⟩
    rw [core_cycle_branch0 _ _ rfl rfl rfl]
    simp only [htaken]
    exact .done _

/-- Every branch goes where its flag says: to `pc + 2` and the signed offset or to `pc + 2`,
in 2 ticks when it is not taken, 3 when it stays in the page of the next instruction and 4 when
it leaves it. The other registers and the memory are as before. -/
theorem branch_executes (b : Branch) {emu : Emu ω} (h : Fetches R emu)
    (hop : R.mem emu.bus.devs emu.cpu.regs.pc = b.opcode) :
    (∃ e, Executes emu e) ∧ ∀ n e, InstructionRun emu n e → e.cpu.opState = .opcode →
      let offset := R.mem emu.bus.devs (emu.cpu.regs.pc + 1)
      e.cpu.regs = { emu.cpu.regs with
        pc := b.leadsTo emu.cpu.regs.status (emu.cpu.regs.pc + 2) offset } ∧
      R.mem e.bus.devs = R.mem emu.bus.devs ∧
      n = b.ticks emu.cpu.regs.status (emu.cpu.regs.pc + 2) offset := by
  refine ⟨h.exists, ?_⟩
  intro n e hrun he
  have hfirst : emu.firstCore R = _ := core_tick_fetch (c := emu.core R) h.boundary h.noInt
  obtain ⟨k, hticks, hreach⟩ := branch_reaches b (emu.firstCore R) (by rw [hfirst])
    (by rw [hfirst]; exact hop) (by rw [hfirst])
  obtain ⟨hn, hcore, -⟩ := hrun.ends h.ram h.boundary he hreach rfl
  rw [hfirst] at hticks hcore
  rw [← pc_add_two]
  refine ⟨congrArg (fun c => c.cpu.regs) hcore, congrArg Core.mem hcore, ?_⟩
  calc n = k + 1 := hn
    _ = _ := hticks.symm

/-- BNE at `$FFFD` over the end of the address space, with Z clear. -/
def bneEmu : Emu Mem :=
  { bus := Bus.init flatRam.conns [] fun addr => if addr = 0xFFFD then 0xD0 else 0x7F
    cpu := { regs := { pc := 0xFFFD } } }

theorem branch_executes_at_wrap :
    ∃ e, InstructionRun bneEmu 4 e ∧ e.cpu.opState = .opcode ∧ e.cpu.regs.pc = 0x007E := by
  have h : Fetches flatRam bneEmu := ⟨⟨rfl, rfl, trivial⟩, rfl, rfl, by decide⟩
  obtain ⟨⟨e, n, hrun, he⟩, hall⟩ := branch_executes .bne h (by decide)
  obtain ⟨hregs, -, hn⟩ := hall n e hrun he
  obtain rfl : n = 4 := hn
  exact ⟨e, hrun, he, by rw [hregs]; decide⟩

end Cb6502
