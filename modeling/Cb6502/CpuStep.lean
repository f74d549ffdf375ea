import Cb6502.IsaRuns
import Cb6502.History

/- Whole runs of `cpu_step`, the call that goes on to the next instruction boundary. From `cpu_init` on
   any RAM, with the votes changing at will between the calls, the first call is the reset, and every
   other one an instruction, the entry of an interrupt, or nothing while RDY is held: which of them, and
   what is returned, is a function of the votes and of what the program sees.

   What is proved:
     1. `cpuStepLoop_held` (with RDY held off a boundary the loop never ends).
     2. `cpuStepLoop_instruction`, `cpuStepLoop_reset` (what it does otherwise).
     3. `CallRun.on`; so `cpu_step_machine` (when a call returns, what it returns, and what it leaves). -/
namespace Cb6502

variable {ω : Type} {R : Ram ω} {devs : ω}

/-! ## The machine, call by call -/

/-- One call, with the votes `v`: what it returns, and the machine after it. -/
def TimedMachine.call (v : SigVotes) (t : TimedMachine) : BitVec 8 × TimedMachine :=
  if v.rdy ≠ 0 then (1, t)
  else if intTaken v t.machine.regs then (7, t.interrupt (intSource v))
  else (BitVec.ofNat 8 t.cycles, t.step)

/-- Calls one after another. -/
def machineCalls (t : TimedMachine) (calls : List SigVotes) : List (BitVec 8) × TimedMachine :=
  calls.foldl (fun (returned, t) v => (returned ++ [(t.call v).1], (t.call v).2)) ([], t)

theorem machineCalls_concat (t : TimedMachine) (calls : List SigVotes) (v : SigVotes) :
    machineCalls t (calls ++ [v]) =
      ((machineCalls t calls).1 ++ [((machineCalls t calls).2.call v).1], ((machineCalls t calls).2.call v).2) := by
  rw [machineCalls, List.foldl_append]
  rfl

/-! ## The loop -/

section Loop
variable {b e e' : Emu ω} {tickFuel fuel elapsed total : Nat}

/-- With RDY held off a boundary the loop never ends. -/
theorem cpuStepLoop_held (hsteady : e.bus.RamSteady R) (hs : e.cpu.opState ≠ .opcode)
    (hrdy : e.bus.sigvotes.rdy ≠ 0) : cpuStepLoop tickFuel fuel elapsed e = none := by
  induction fuel generalizing elapsed e with
  | zero => rfl
  | succ fuel ih =>
    have htick : cpuTick tickFuel e = some { bus := busReplay e.bus, cpu := e.cpu.clearCycle } := by
      unfold cpuTick
      exact if_pos hrdy
    have hvotes : (busReplay e.bus).sigvotes = e.bus.sigvotes := by
      unfold busReplay
      split
      · rw [hsteady.toOnRam.stores.busWrite]
        rfl
      · rw [hsteady.toOnRam.stores.busReadPeekI]
        rfl
    rw [cpuStepLoop, if_neg hs, htick, Option.bind_some]
    refine ih hsteady.replay.1 hs ?_
    rw [hvotes]
    exact hrdy

/-- From the middle of what began at the boundary `b` the loop goes on to its end. -/
theorem cpuStepLoop_instruction (hram : b.bus.OnRam R) (hb : b.cpu.opState = .opcode) {i : Nat}
    (hrun : InstructionRun b i e) (hrdy : e.bus.sigvotes.rdy = 0)
    (h : cpuStepLoop tickFuel fuel elapsed e = some (total, e')) :
    ∃ k, total = elapsed + k ∧ InstructionRun b (i + k) e' ∧ e'.cpu.opState = .opcode := by
  induction fuel generalizing elapsed e i with
  | zero => cases h
  | succ fuel ih =>
    rw [cpuStepLoop] at h
    by_cases hs : e.cpu.opState = .opcode
    · rw [if_pos hs] at h
      obtain ⟨rfl, rfl⟩ := Prod.mk.inj (Option.some.inj h)
      exact ⟨0, rfl, hrun, hs⟩
    · rw [if_neg hs] at h
      obtain ⟨e₁, ht, hrest⟩ := Option.bind_eq_some_iff.mp h
      obtain ⟨j, -, hafter⟩ := hrun.after hram hb
      have hvotes : e₁.bus.sigvotes = e.bus.sigvotes := by
        rw [eq_tick_of_cpuTick hafter.fresh ht, (core_tick hafter.steady.toOnRam hrdy).2.2, Bus.ackNmi, if_neg hs]
      obtain ⟨k, htotal, hend, he'⟩ :=
        ih (hrun.tick tickFuel hs hrdy ht) (by rw [hvotes]; exact hrdy) hrest
      refine ⟨k + 1, by omega, ?_, he'⟩
      rw [Nat.add_comm k 1, ← Nat.add_assoc]
      exact hend

/-- From the middle of the reset too. -/
theorem cpuStepLoop_reset {n : Nat} (hreset : InReset R devs n e) (hrdy : e.bus.sigvotes.rdy = 0)
    (h : cpuStepLoop tickFuel fuel elapsed e = some (total, e')) :
    n + (total - elapsed) = resetCycles ∧ elapsed ≤ total ∧ e'.bus.RamSteady R ∧ e'.cpu.opState = .opcode ∧
      e'.timed R = resetMachine (R.mem devs) := by
  induction fuel generalizing elapsed e n with
  | zero => cases h
  | succ fuel ih =>
    rw [cpuStepLoop, if_neg hreset.inside] at h
    obtain ⟨e₁, ht, hrest⟩ := Option.bind_eq_some_iff.mp h
    obtain rfl := eq_tick_of_cpuTick hreset.fresh ht
    have hvotes : e.tick.bus.sigvotes = e.bus.sigvotes := by
      rw [(core_tick hreset.steady.toOnRam hrdy).2.2, Bus.ackNmi, if_neg hreset.inside]
    rcases hreset.tick hrdy with hnext | ⟨hn, hsteady, hs, htimed⟩
    · obtain ⟨hcycles, hlater, hend⟩ := ih hnext (by rw [hvotes]; exact hrdy) hrest
      exact ⟨by omega, by omega, hend⟩
    · cases fuel with
      | zero => cases hrest
      | succ fuel =>
        rw [cpuStepLoop, if_pos hs] at hrest
        obtain ⟨rfl, rfl⟩ := Prod.mk.inj (Option.some.inj hrest)
        exact ⟨by omega, by omega, hsteady, hs, htimed⟩

end Loop

/-! ## Calls -/

/-- The calls of `cpu_step` from `cpu_init` on: the votes that each found, and what they returned. -/
inductive CallRun (R : Ram ω) (devs : ω) : List SigVotes → List (BitVec 8) → Emu ω → Prop where
  | init : CallRun R devs [] [] { bus := Bus.init R.conns [] devs, cpu := cpuInit }
  | votes {calls : List SigVotes} {returned : List (BitVec 8)} {e : Emu ω} (v : SigVotes)
      (h : CallRun R devs calls returned e) : CallRun R devs calls returned { e with bus.sigvotes := v }
  | call {calls : List SigVotes} {returned : List (BitVec 8)} {e e' : Emu ω} {elapsed : BitVec 8}
      (tickFuel fuel : Nat) (h : CallRun R devs calls returned e)
      (hreturns : cpuStep tickFuel fuel e = some (elapsed, e')) :
      CallRun R devs (calls ++ [e.bus.sigvotes]) (returned ++ [elapsed]) e'

/-- At a boundary, a call does what the machine does. -/
theorem cpuStep_call {e e' : Emu ω} {tickFuel fuel : Nat} {elapsed : BitVec 8} (hsteady : e.bus.RamSteady R)
    (hs : e.cpu.opState = .opcode) (h : cpuStep tickFuel fuel e = some (elapsed, e')) :
    e'.bus.RamSteady R ∧ e'.cpu.opState = .opcode ∧
      (elapsed, e'.timed R) = (e.timed R).call e.bus.sigvotes := by
  obtain ⟨⟨total, e₂⟩, hloop, hresult⟩ := Option.map_eq_some_iff.mp h
  obtain ⟨rfl, rfl⟩ := Prod.mk.inj hresult
  rw [if_pos hs] at hloop
  obtain ⟨e₁, ht, hrest⟩ := Option.bind_eq_some_iff.mp hloop
  by_cases hrdy : e.bus.sigvotes.rdy = 0
  · have hfirst : InstructionRun e 1 e₁ := .first tickFuel hrdy ht
    have hram := hsteady.toOnRam
    have hvotes : e₁.bus.sigvotes.rdy = 0 := by
      rw [eq_tick_of_cpuTick (fresh_of_boundary hs) ht, (core_tick hram hrdy).2.2, Bus.ackNmi, if_pos hs]
      exact hrdy
    obtain ⟨k, rfl, hrun, he⟩ := cpuStepLoop_instruction hram hs hfirst hvotes hrest
    obtain ⟨j, -, hafter⟩ := hrun.after hram hs
    refine ⟨hafter.steady, he, ?_⟩
    rw [TimedMachine.call, if_neg (not_not.mpr hrdy)]
    cases hint : intTaken e.bus.sigvotes e.cpu.regs with
    | true =>
      obtain ⟨hn, htimed⟩ := hrun.timed_interrupt hram hs he hint
      rw [if_pos (show intTaken e.bus.sigvotes (e.timed R).machine.regs = true from hint), hn, htimed]
      rfl
    | false =>
      obtain ⟨hn, htimed⟩ := hrun.timed_step hram hs he hint
      have hno : ¬intTaken e.bus.sigvotes (e.timed R).machine.regs = true := Bool.eq_false_iff.mp hint
      rw [if_neg hno, hn, htimed]
  · obtain ⟨hsteady', hcore⟩ := core_tick_stalled hsteady hrdy
    obtain rfl := eq_tick_of_cpuTick (fresh_of_boundary hs) ht
    have hs' : e.tick.cpu.opState = .opcode := (congrArg (fun c => c.cpu.opState) hcore).trans hs
    have htimed : e.tick.timed R = e.timed R :=
      congrArg (fun c : Core => (⟨⟨c.cpu.regs, c.mem⟩, c.cpu.pageBoundary⟩ : TimedMachine)) hcore
    cases fuel with
    | zero => cases hrest
    | succ fuel =>
      rw [cpuStepLoop, if_pos hs'] at hrest
      obtain ⟨rfl, rfl⟩ := Prod.mk.inj (Option.some.inj hrest)
      refine ⟨hsteady', hs', ?_⟩
      rw [TimedMachine.call, if_pos hrdy, htimed]
      rfl

/-- Before the first call, and after it. -/
def CallsOn (R : Ram ω) (devs : ω) (calls : List SigVotes) (returned : List (BitVec 8)) (e : Emu ω) : Prop :=
  (calls = [] ∧ returned = [] ∧ e.cpu = cpuInit ∧ InReset R devs 0 e) ∨
    ∃ first rest, calls = first :: rest ∧ e.bus.RamSteady R ∧ e.cpu.opState = .opcode ∧
      returned = 7 :: (machineCalls (resetMachine (R.mem devs)) rest).1 ∧
      e.timed R = (machineCalls (resetMachine (R.mem devs)) rest).2

/-- After any calls the emulator is where the calls of the machine lead. -/
theorem CallRun.on {calls : List SigVotes} {returned : List (BitVec 8)} {e : Emu ω}
    (h : CallRun R devs calls returned e) (hinv : R.inv devs) : CallsOn R devs calls returned e := by
  induction h with
  | init => exact .inl ⟨rfl, rfl, rfl, ⟨⟨rfl, rfl, hinv⟩, nofun⟩, rfl, rfl, by decide⟩
  | votes v _ ih =>
    rcases ih with ⟨hcalls, hreturned, hcpu, hreset⟩ | ⟨first, rest, hcalls, hsteady, hs, hreturned, htimed⟩
    · exact .inl ⟨hcalls, hreturned, hcpu, ramSteady_votes hreset.steady v, hreset.fresh, hreset.core, hreset.early⟩
    · exact .inr ⟨first, rest, hcalls, ramSteady_votes hsteady v, hs, hreturned, htimed⟩
  | @call calls returned e e' elapsed tickFuel fuel _ hreturns ih =>
    right
    rcases ih with ⟨rfl, rfl, -, hreset⟩ | ⟨first, rest, rfl, hsteady, hs, rfl, htimed⟩
    · refine ⟨e.bus.sigvotes, [], rfl, ?_⟩
      obtain ⟨⟨total, e₂⟩, hloop, hresult⟩ := Option.map_eq_some_iff.mp hreturns
      obtain ⟨rfl, rfl⟩ := Prod.mk.inj hresult
      rw [if_neg hreset.inside] at hloop
      by_cases hrdy : e.bus.sigvotes.rdy = 0
      · obtain ⟨htotal, -, hsteady, hs, htimed⟩ := cpuStepLoop_reset hreset hrdy hloop
        obtain rfl : total = 7 := by
          have hcycles : resetCycles = 7 := rfl
          omega
        exact ⟨hsteady, hs, rfl, htimed⟩
      · rw [cpuStepLoop_held hreset.steady hreset.inside hrdy] at hloop
        cases hloop
    · refine ⟨first, rest ++ [e.bus.sigvotes], rfl, ?_⟩
      obtain ⟨hsteady', hs', hcall⟩ := cpuStep_call hsteady hs hreturns
      rw [machineCalls_concat, ← htimed, ← hcall]
      exact ⟨hsteady', hs', rfl, rfl⟩

/-- A call returns unless RDY is held before the reset is over. -/
theorem CallRun.returns {calls : List SigVotes} {returned : List (BitVec 8)} {e : Emu ω}
    (h : CallRun R devs calls returned e) (hinv : R.inv devs) :
    (∃ tickFuel fuel r, cpuStep tickFuel fuel e = some r) ↔ calls ≠ [] ∨ e.bus.sigvotes.rdy = 0 := by
  rcases h.on hinv with ⟨rfl, rfl, hcpu, hreset⟩ | ⟨first, rest, rfl, hsteady, hs, -, -⟩
  · refine ⟨fun hreturns => .inr ?_, fun hrdy => ?_⟩
    · obtain ⟨tickFuel, fuel, r, hr⟩ := hreturns
      refine Decidable.byContradiction fun hheld => ?_
      rw [cpuStep, if_neg hreset.inside, cpuStepLoop_held hreset.steady hreset.inside hheld] at hr
      cases hr
    · have hfree : e.bus.sigvotes.rdy = 0 := hrdy.resolve_left fun hne => hne rfl
      obtain ⟨k, e', -, hloop, -⟩ := cpuStepLoop_instructionFrom e.cpu.ctl.ticksLeft 0 e hreset.steady.toOnRam
        hfree hreset.fresh (by rw [hcpu]; rfl) (Nat.le_refl _)
      refine ⟨4, e.cpu.ctl.ticksLeft + 1, (BitVec.ofNat 8 (0 + k), e'), ?_⟩
      rw [cpuStep, if_neg hreset.inside, hloop]
      rfl
  · refine ⟨fun _ => .inl (List.cons_ne_nil first rest), fun _ => ?_⟩
    by_cases hrdy : e.bus.sigvotes.rdy = 0
    · obtain ⟨k, e', -, hstep, -⟩ := cpuStep_instruction e hsteady.toOnRam hrdy hs
      exact ⟨4, 7, _, hstep⟩
    · have hs' : e.tick.cpu.opState = .opcode :=
        (congrArg (fun c => c.cpu.opState) (core_tick_stalled hsteady hrdy).2).trans hs
      refine ⟨4, 1, (1, e.tick), ?_⟩
      rw [cpuStep, if_pos hs, cpuTick_eq 0 e (fresh_of_boundary hs), Option.bind_some, cpuStepLoop, if_pos hs']
      rfl

/-- There is a run with any votes at the calls that lets the reset begin. -/
theorem callRun_exists (hinv : R.inv devs) (first : SigVotes) (hfirst : first.rdy = 0) (rest : List SigVotes) :
    ∃ returned e, CallRun R devs (first :: rest) returned e := by
  have hnext : ∀ {calls returned e} (v : SigVotes), CallRun R devs calls returned e → calls ≠ [] ∨ v.rdy = 0 →
      ∃ returned' e', CallRun R devs (calls ++ [v]) returned' e' := by
    intro calls returned e v hrun hfree
    obtain ⟨tickFuel, fuel, ⟨elapsed, e'⟩, hreturns⟩ := ((hrun.votes v).returns hinv).mpr hfree
    exact ⟨_, e', .call tickFuel fuel (hrun.votes v) hreturns⟩
  induction rest using List.reverseRecOn with
  | nil => exact hnext first .init (.inr hfirst)
  | append_singleton rest v ih =>
    obtain ⟨returned, e, hrun⟩ := ih
    exact hnext v hrun (.inl (List.cons_ne_nil first rest))

/-- `cpu_step` is the machine, call by call: on any RAM and with any votes between the calls, the first
one that returns is the reset with its seven cycles, and of the others each returns the cycles of one
instruction that it executed, the seven of an interrupt that it entered, or one for nothing while RDY was
held. A call returns unless RDY is held before the reset is over; then it never does. -/
theorem cpu_step_machine (hinv : R.inv devs) {calls : List SigVotes} {returned : List (BitVec 8)} {e : Emu ω}
    (h : CallRun R devs calls returned e) :
    ((∃ tickFuel fuel r, cpuStep tickFuel fuel e = some r) ↔ calls ≠ [] ∨ e.bus.sigvotes.rdy = 0) ∧
      ∀ first rest, calls = first :: rest → e.cpu.opState = .opcode ∧
        returned = 7 :: (machineCalls (resetMachine (R.mem devs)) rest).1 ∧
        e.timed R = (machineCalls (resetMachine (R.mem devs)) rest).2 := by
  refine ⟨h.returns hinv, ?_⟩
  rintro first rest rfl
  rcases h.on hinv with ⟨hnone, -⟩ | ⟨first', rest', hcalls, -, hs, hreturned, htimed⟩
  · exact absurd hnone (List.cons_ne_nil first rest)
  · obtain ⟨rfl, rfl⟩ := List.cons.inj hcalls
    exact ⟨hs, hreturned, htimed⟩

/-- `INC $10` at the reset vector. -/
def incBytes : Mem := fun addr =>
  if addr = 0xFFFD then 0x02 else if addr = 0x0200 then 0xE6 else if addr = 0x0201 then 0x10 else 0x00

/-- `INC`, a call while RDY is held, and an NMI. -/
def incCalls : List SigVotes := [{}, { rdy := 1 }, { nmiEdgePending := true }]

theorem cpu_step_machine_of_inc :
    ∃ e, CallRun flatRam incBytes ({} :: incCalls) [7, 5, 1, 7] e ∧ e.cpu.opState = .opcode ∧
      e.bus.devs 0x0010 = 1 := by
  have hexists : ∃ returned e, CallRun flatRam incBytes ({} :: incCalls) returned e :=
    callRun_exists trivial {} rfl incCalls
  obtain ⟨returned, e, hrun⟩ := hexists
  obtain ⟨hs, rfl, htimed⟩ := (cpu_step_machine trivial hrun).2 {} incCalls rfl
  have hreturned : (machineCalls (resetMachine incBytes) incCalls).1 = [5, 1, 7] := by decide +kernel
  have hbyte : (machineCalls (resetMachine incBytes) incCalls).2.machine.mem 0x0010 = 1 := by decide +kernel
  refine ⟨e, ?_, hs, ?_⟩
  · rw [← hreturned]
    exact hrun
  · exact (congrArg (fun t : TimedMachine => t.machine.mem 0x0010) htimed).trans hbyte

end Cb6502
