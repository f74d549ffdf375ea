import Cb6502.Stepping
import Cb6502.Execution

/- The debugger's steps on a RAM, in a world that changes the votes only. A step from a boundary
   with RDY not held is one instruction or interrupt sequence (`Steps.executes`), and a peek shows
   the byte there. -/
namespace Cb6502

variable {ω : Type} {R : Ram ω} {w : World ω}

/-- The clocks and the other threads change nothing but the votes. -/
structure World.OnlyVotes (w : World ω) : Prop where
  before : ∀ n bus, ∃ v, w.before n bus = { bus with sigvotes := v }
  after : ∀ n bus, ∃ v, w.after n bus = { bus with sigvotes := v }

/-- Peeks show the bytes. -/
def Ram.Peeks (R : Ram ω) : Prop :=
  ∀ d, R.inv d → ∀ addr, storeRead R.conns d addr true false = R.mem d addr

theorem flatRam_peeks : flatRam.Peeks := by
  intro d _ addr
  simp only [storeRead, flatRam, List.foldl_cons, List.foldl_nil, readStoreConn, match_all, if_true]
  rfl

theorem busPeek_onRam (hR : R.Peeks) {bus : Bus ω} (h : bus.OnRam R) (addr : BitVec 16) :
    busPeek bus addr = (R.mem bus.devs addr, bus) := by
  have hread := readConns_store h.stores.conns addr true false none bus
  have hpeek := hR bus.devs h.inv addr
  rw [← h.conns] at hpeek
  unfold busPeek busReadPeekI
  simp only [hread, if_true]
  rw [← hpeek]
  rfl

theorem cpuIsSubroutine_onRam (hR : R.Peeks) {emu : Emu ω} (h : emu.bus.OnRam R) :
    cpuIsSubroutine emu = (R.mem emu.bus.devs emu.cpu.regs.pc == 0x20, emu) := by
  unfold cpuIsSubroutine
  rw [busPeek_onRam hR h]

theorem Bus.OnRam.votes {bus : Bus ω} (h : bus.OnRam R) (v : SigVotes) :
    Bus.OnRam R { bus with sigvotes := v } := ⟨h.conns, h.tracers, h.inv⟩

/-! ## Before the CPU's call -/

section
variable (hw : w.OnlyVotes) (s : Session ω)
include hw

theorem tickStart_devs : (s.tickStart w).bus.devs = s.emu.bus.devs := by
  obtain ⟨v, hv⟩ := hw.before s.ticks s.emu.bus
  rw [Session.tickStart, hv]

theorem tickStart_onRam : (s.tickStart w).bus.OnRam R ↔ s.emu.bus.OnRam R := by
  obtain ⟨v, hv⟩ := hw.before s.ticks s.emu.bus
  rw [Session.tickStart, hv]
  exact ⟨fun h => h.votes s.emu.bus.sigvotes, fun h => h.votes v⟩

end

/-! ## One step -/

theorem emuTick_some {fuel : Nat} {s t : Session ω} (hw : w.OnlyVotes) (h : emuTick w fuel s = some t) :
    ∃ e v, cpuTick fuel (s.tickStart w) = some e ∧ t.emu = { e with bus.sigvotes := v } := by
  obtain ⟨e, htick, rfl⟩ := Option.map_eq_some_iff.mp h
  obtain ⟨v, hv⟩ := hw.after s.ticks e.bus
  refine ⟨e, v, htick, ?_⟩
  show Emu.mk (w.after s.ticks e.bus) e.cpu = _
  rw [hv]

/-- A tick in the middle of an instruction, stalled or not. -/
theorem InstructionRun.emuTick {emu : Emu ω} {n fuel : Nat} {s t : Session ω} (hw : w.OnlyVotes)
    (hrun : InstructionRun emu n s.emu) (hoff : s.emu.cpu.opState ≠ .opcode)
    (h : Cb6502.emuTick w fuel s = some t) : ∃ m, InstructionRun emu m t.emu := by
  obtain ⟨e, v', htick, ht⟩ := emuTick_some hw h
  obtain ⟨v, hv⟩ := hw.before s.ticks s.emu.bus
  have hstart : InstructionRun emu n (s.tickStart w) := by
    rw [Session.tickStart, hv]
    exact hrun.votes v
  rw [ht]
  by_cases hrdy : (s.tickStart w).bus.sigvotes.rdy = 0
  · exact ⟨n + 1, (hstart.tick fuel hoff hrdy htick).votes v'⟩
  · exact ⟨n, (hstart.stalled fuel hrdy htick).votes v'⟩

/-- A step that RDY lets go executes one instruction, or takes one interrupt. -/
theorem Steps.executes {s t : Session ω} (h : Steps w s t) (hw : w.OnlyVotes)
    (hrdy : (s.tickStart w).bus.sigvotes.rdy = 0) : Executes (s.tickStart w) t.emu := by
  have hinside : ∀ tickFuel fuel (u : Session ω) n, InstructionRun (s.tickStart w) n u.emu →
      u.emu.cpu.opState ≠ .opcode → debugStepLoop w tickFuel fuel u = some t →
      Executes (s.tickStart w) t.emu := by
    intro tickFuel fuel
    induction fuel with
    | zero => exact fun u n _ _ h => nomatch h
    | succ fuel ih =>
      intro u n hrun hoff h
      obtain ⟨u', htick, hrest⟩ := Option.bind_eq_some_iff.mp h
      obtain ⟨m, hrun'⟩ := hrun.emuTick hw hoff htick
      by_cases hboundary : u'.emu.cpu.opState = .opcode
      · rw [if_pos hboundary] at hrest
        obtain rfl := Option.some.inj hrest
        exact ⟨m, hrun', hboundary⟩
      · rw [if_neg hboundary] at hrest
        exact ih u' m hrun' hboundary hrest
  obtain ⟨fuel, h⟩ := h
  cases fuel with
  | zero => cases h
  | succ fuel =>
    obtain ⟨u, htick, hrest⟩ := Option.bind_eq_some_iff.mp h
    obtain ⟨e, v, hcpu, hu⟩ := emuTick_some hw htick
    have hrun : InstructionRun (s.tickStart w) 1 u.emu := by
      rw [hu]
      exact (InstructionRun.first _ hrdy hcpu).votes v
    by_cases hboundary : u.emu.cpu.opState = .opcode
    · rw [if_pos hboundary] at hrest
      obtain rfl := Option.some.inj hrest
      exact ⟨1, hrun, hboundary⟩
    · rw [if_neg hboundary] at hrest
      exact hinside _ fuel u 1 hrun hboundary hrest

end Cb6502
