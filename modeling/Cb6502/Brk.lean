import Cb6502.Stack

/- BRK and the RTI of its handler. BRK takes the pushes from the interrupt sequence, which it
   enters behind the two cycles an interrupt begins with. Its mode is the implied one, which
   reads the byte behind the opcode and leaves the program counter on it: the address pushed is
   `A + 1`, and the RTI goes on at the signature byte (`breaksAndReturns_iff`). -/
namespace Cb6502
open Dialogue

variable {ω : Type} {R : Ram ω}

/-- The read of the signature byte, and the one call of the handler. -/
theorem core_cycle_brk0 (cpu : Cpu) (m : Mem) (hc : cpu.cycleConsumed = false) (hop : cpu.opcode = 0x00#8)
    (hs : cpu.opState = .param0) :
    Core.cycle ⟨cpu, m⟩ = ⟨{ cpu with vecSrc := .brk, opState := .vec2 }, m⟩ := by
  have hmode : addrtable 0x00#8 = .imp := by decide
  have hbrk : optable 0x00#8 = .brk := by decide
  simp [Core.cycle, Core.after, cycle, cycleFrom, handler, hs, hop, hmode, addrHandlers, imp, hbrk,
    ops, brk, advanceState, ramEnv, Cpu.clearCycle, hc]

/-- The core after `BRK`, from the core after its fetch. -/
def Core.broken (c : Core) : Core :=
  { cpu := { c.cpu with
      regs := { c.cpu.regs with
        pc := c.mem.word 0xFFFE
        sp := c.cpu.regs.sp - 3
        status := setFlag flagInterrupt c.cpu.regs.status }
      vecSrc := .brk
      tmpval := 0xFFFE
      ea := c.mem.word 0xFFFE
      opState := .opcode }
    mem := pushFrame c.mem c.cpu.regs.sp c.cpu.regs.pc (c.cpu.regs.status ||| flagBreak) }

theorem brk_reaches (c : Core) (hc : c.cpu.cycleConsumed = false) (hop : c.cpu.opcode = 0x00#8)
    (hs : c.cpu.opState = .param0) : Core.Reaches 6 c c.broken := by
  obtain ⟨cpu, m⟩ := c
  have hoff : cpu.opState ≠ .opcode := by
    rw [hs]
    nofun
  refine .cycle hoff ?_
  rw [core_cycle_brk0 cpu m hc hop hs]
  exact vector_reaches _ m hc rfl nofun

/-- BRK at `A` pushes `A + 1`. -/
theorem Executes.brk {emu e : Emu ω} (hrun : Executes emu e) (h : Fetches R emu)
    (hop : R.mem emu.bus.devs emu.cpu.regs.pc = 0x00) :
    R.mem e.bus.devs = pushFrame (R.mem emu.bus.devs) emu.cpu.regs.sp (emu.cpu.regs.pc + 1)
        (emu.cpu.regs.status ||| flagBreak) ∧
      e.cpu.regs = { emu.cpu.regs with
        pc := (R.mem emu.bus.devs).word 0xFFFE
        sp := emu.cpu.regs.sp - 3
        status := setFlag flagInterrupt emu.cpu.regs.status } := by
  obtain ⟨n, hrun, he⟩ := hrun
  have hfirst : emu.firstCore R = _ := core_tick_fetch (c := emu.core R) h.boundary h.noInt
  have hreach : Core.Reaches 6 (emu.firstCore R) (emu.firstCore R).broken := by
    apply brk_reaches <;> rw [hfirst]
    exact hop
  have hcore := (hrun.ends h.ram h.boundary he hreach rfl).2.1
  rw [hfirst] at hcore
  exact ⟨congrArg Core.mem hcore, congrArg (fun c => c.cpu.regs) hcore⟩

/-! ## There and back -/

/-- The flags N, V, D, I, Z and C. -/
def programFlags : BitVec 8 :=
  flagSign ||| flagOverflow ||| flagDecimal ||| flagInterrupt ||| flagZero ||| flagCarry

/-- A BRK whose vector points to an RTI that is not in the bytes it pushes. -/
structure BrkRti (R : Ram ω) (emu : Emu ω) : Prop extends Fetches R emu where
  brk : R.mem emu.bus.devs emu.cpu.regs.pc = 0x00
  rti : R.mem emu.bus.devs ((R.mem emu.bus.devs).word 0xFFFE) = 0x40
  off : (R.mem emu.bus.devs).word 0xFFFE ∉ frameAddrs emu.cpu.regs.sp

/-- The BRK pushes the address `ret` and the status with B, and enters the handler with I; the
RTI goes on at `ret` with the other registers and the flags as they were. -/
structure BreaksAndReturns (R : Ram ω) (emu : Emu ω) (ret : BitVec 16) : Prop where
  entered : ∃ e, Executes emu e ∧ Fetches R e
  entry : ∀ e, Executes emu e →
    R.mem e.bus.devs =
        pushFrame (R.mem emu.bus.devs) emu.cpu.regs.sp ret (emu.cpu.regs.status ||| flagBreak) ∧
      e.cpu.regs.pc = (R.mem emu.bus.devs).word 0xFFFE ∧
      e.cpu.regs.status &&& flagInterrupt ≠ 0
  returned : ∀ e, Executes emu e → Fetches R e → (∃ e', Executes e e') ∧ ∀ e', Executes e e' →
    e'.cpu.regs.pc = ret ∧ e'.cpu.regs.sp = emu.cpu.regs.sp ∧ e'.cpu.regs.a = emu.cpu.regs.a ∧
      e'.cpu.regs.x = emu.cpu.regs.x ∧ e'.cpu.regs.y = emu.cpu.regs.y ∧
      e'.cpu.regs.status &&& programFlags = emu.cpu.regs.status &&& programFlags

section
variable {emu : Emu ω} (h : BrkRti R emu)
include h

/-- The votes may change behind the last tick, so that nothing interrupts the handler. -/
theorem BrkRti.entered : ∃ e, Executes emu e ∧ Fetches R e := by
  obtain ⟨e, n, hrun, he⟩ := h.toFetches.exists
  have hrun' : InstructionRun emu n { e with bus.sigvotes := {} } := hrun.votes {}
  refine ⟨_, ⟨n, hrun', he⟩, hrun'.onRam h.ram h.boundary, he, rfl, ?_⟩
  rfl

/-- The RTI pulls what the BRK pushed. -/
theorem BrkRti.returned {e e' : Emu ω} (hrun : Executes emu e) (hfetch : Fetches R e)
    (hrun' : Executes e e') :
    e'.cpu.regs =
      { emu.cpu.regs with pc := emu.cpu.regs.pc + 1, status := emu.cpu.regs.status ||| flagBreak } := by
  obtain ⟨hmem, hregs⟩ := hrun.brk h.toFetches h.brk
  obtain ⟨hstatus, hlow, hhigh⟩ := pushFrame_on (R.mem emu.bus.devs) emu.cpu.regs.sp
    (emu.cpu.regs.pc + 1) (emu.cpu.regs.status ||| flagBreak)
  have hrti : R.mem e.bus.devs e.cpu.regs.pc = 0x40 := by
    rw [hmem, hregs, pushFrame_off _ _ _ _ h.off]
    exact h.rti
  have hsp : e.cpu.regs.sp = emu.cpu.regs.sp - 3 := by rw [hregs]
  have hone : e.cpu.regs.sp + 1 = emu.cpu.regs.sp - 2 := by
    rw [hsp]
    bv_omega
  have htwo : e.cpu.regs.sp + 2 = emu.cpu.regs.sp - 1 := by
    rw [hsp]
    bv_omega
  have hthree : e.cpu.regs.sp + 3 = emu.cpu.regs.sp := by
    rw [hsp]
    bv_omega
  rw [(hrun'.rti_regs hfetch hrti).1, hone, htwo, hthree, hmem, hstatus, hlow, hhigh, joinBytes_split,
    hregs]

end

theorem flagBreak_program (status : BitVec 8) :
    (status ||| flagBreak) &&& programFlags = status &&& programFlags := by
  revert status
  decide +kernel

theorem setFlag_interrupt (status : BitVec 8) : setFlag flagInterrupt status &&& flagInterrupt ≠ 0 := by
  revert status
  decide +kernel

/-- The return address of a BRK at `A` is `A + 1`, the address of its signature byte. It is
never `A + 2`. -/
theorem breaksAndReturns_iff {emu : Emu ω} (h : BrkRti R emu) :
    (∀ ret, BreaksAndReturns R emu ret ↔ ret = emu.cpu.regs.pc + 1) ∧
      ¬BreaksAndReturns R emu (emu.cpu.regs.pc + 2) := by
  have hiff : ∀ ret, BreaksAndReturns R emu ret ↔ ret = emu.cpu.regs.pc + 1 := by
    intro ret
    constructor
    · intro hret
      obtain ⟨e, hrun, hfetch⟩ := hret.entered
      obtain ⟨⟨e', hrun'⟩, hall⟩ := hret.returned e hrun hfetch
      calc ret = e'.cpu.regs.pc := (hall e' hrun').1.symm
        _ = emu.cpu.regs.pc + 1 := by rw [h.returned hrun hfetch hrun']
    · rintro rfl
      refine ⟨h.entered, ?_, ?_⟩
      · intro e hrun
        obtain ⟨hmem, hregs⟩ := hrun.brk h.toFetches h.brk
        rw [hregs]
        exact ⟨hmem, rfl, setFlag_interrupt _⟩
      · intro e hrun hfetch
        refine ⟨hfetch.exists, fun e' hrun' => ?_⟩
        rw [h.returned hrun hfetch hrun']
        exact ⟨rfl, rfl, rfl, rfl, rfl, flagBreak_program _⟩
  refine ⟨hiff, fun hret => ?_⟩
  have heq := (hiff _).mp hret
  bv_omega

/-- BRK at `$FFFD` with the stack pointer 1, its vector `$4040` in a RAM full of RTI. -/
def brkEmu : Emu Mem :=
  { bus := Bus.init flatRam.conns [] fun addr => if addr = 0xFFFD then 0x00 else 0x40
    cpu := { regs := { pc := 0xFFFD, sp := 0x01, a := 1, x := 2, y := 3, status := 0xEB } } }

theorem brkEmu_brkRti : BrkRti flatRam brkEmu :=
  ⟨⟨⟨rfl, rfl, trivial⟩, rfl, rfl, by decide⟩, by decide, by decide, by decide⟩

theorem breaksAndReturns_iff_at_stack_wrap :
    BreaksAndReturns flatRam brkEmu 0xFFFE ∧ ¬BreaksAndReturns flatRam brkEmu 0xFFFF := by
  obtain ⟨hiff, hnot⟩ := breaksAndReturns_iff brkEmu_brkRti
  exact ⟨(hiff 0xFFFE).mpr (by decide), hnot⟩

/-- The BRK of `brkEmu` does not push `A + 2`. -/
theorem brk_skips_no_signature : ¬∀ emu : Emu Mem, BrkRti flatRam emu →
    BreaksAndReturns flatRam emu (emu.cpu.regs.pc + 2) := by
  intro hall
  have hret := hall brkEmu brkEmu_brkRti
  obtain ⟨e, hrun, -⟩ := hret.entered
  have hmem := (hret.entry e hrun).1
  rw [(hrun.brk brkEmu_brkRti.toFetches brkEmu_brkRti.brk).1] at hmem
  have hlow := congrFun hmem (stackAddr 0x00)
  revert hlow
  decide

end Cb6502
