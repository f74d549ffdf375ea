import Cb6502.Cycle

/- Runs of the CPU from `cpu_init`. Between two ticks anything may happen to the bus:
   the votes, the connections and what the devices own are arbitrary, and so are the
   bytes they return. Two results:
     no reachable state is stuck: every tick ends, and of any seven ticks with RDY not
     held from an instruction boundary one ends at an instruction boundary;
     a tick makes one bus transaction, except the idle cycles of `Ctl.idleCycle`, which
     make none. -/
namespace Cb6502
open Dialogue

variable {ω : Type}

/-- The states reached from `cpu_init`, whatever happens to the bus between ticks. -/
inductive Reachable : Emu ω → Prop where
  | init (bus : Bus ω) : Reachable { bus, cpu := cpuInit }
  | tick {emu emu' : Emu ω} (fuel : Nat) (h : Reachable emu) (ht : cpuTick fuel emu = some emu') :
      Reachable emu'
  | between {emu : Emu ω} (bus : Bus ω) (h : Reachable emu) : Reachable { emu with bus }

theorem Reachable.fresh {emu : Emu ω} (h : Reachable emu) : emu.cpu.ctl.fresh = true := by
  induction h with
  | init bus => rfl
  | tick fuel _ ht ih =>
    rw [eq_tick_of_cpuTick ih ht]
    exact fresh_tick _ ih
  | between bus _ ih => exact ih

theorem Reachable.tick_some {emu : Emu ω} (h : Reachable emu) : cpuTick 4 emu = some emu.tick :=
  cpuTick_eq 0 emu h.fresh

theorem Reachable.iterate_tick {emu : Emu ω} (h : Reachable emu) (n : Nat) :
    Reachable (Nat.repeat Emu.tick n emu) := by
  induction n with
  | zero => exact h
  | succ n ih => exact .tick 4 ih ih.tick_some

/-! ## No reachable state is stuck -/

theorem ticksLeft_pos (emu : Emu ω) (hfresh : emu.cpu.ctl.fresh = true)
    (hs : emu.cpu.opState ≠ .opcode) : 0 < emu.cpu.ctl.ticksLeft := by
  have hends := Prog.Ends.mono (cycle_ends emu.cpu.clearCycle hfresh hs rfl) fun _ _ h => h.2
  have hend := hends.result busEnv emu.bus
  exact Nat.lt_of_le_of_lt (Nat.zero_le _) hend.ticksLeft

/-- `OffBoundary emu n e`: from `emu`, with `n` ticks of which none was stalled or ended
at an instruction boundary, and any stalled ticks and changes of the bus, `e` is reached. -/
inductive OffBoundary (emu : Emu ω) : Nat → Emu ω → Prop where
  | start : OffBoundary emu 0 emu
  | between {n : Nat} {e : Emu ω} (bus : Bus ω) (h : OffBoundary emu n e) :
      OffBoundary emu n { e with bus }
  | stalled {n : Nat} {e e' : Emu ω} (fuel : Nat) (h : OffBoundary emu n e)
      (hrdy : e.bus.sigvotes.rdy ≠ 0) (ht : cpuTick fuel e = some e') : OffBoundary emu n e'
  | tick {n : Nat} {e e' : Emu ω} (fuel : Nat) (h : OffBoundary emu n e)
      (hrdy : e.bus.sigvotes.rdy = 0) (ht : cpuTick fuel e = some e')
      (hs : e'.cpu.opState ≠ .opcode) : OffBoundary emu (n + 1) e'

theorem OffBoundary.reachable {emu e : Emu ω} {n : Nat} (h : OffBoundary emu n e)
    (hr : Reachable emu) : Reachable e := by
  induction h with
  | start => exact hr
  | between bus _ ih => exact .between bus ih
  | stalled fuel _ _ ht ih => exact .tick fuel ih ht
  | tick fuel _ _ ht _ ih => exact .tick fuel ih ht

/-- Each tick off the boundary uses up one of the cycles left. -/
theorem OffBoundary.ticksLeft {emu e : Emu ω} {n : Nat} (h : OffBoundary emu n e)
    (hr : Reachable emu) (hs : emu.cpu.opState = .opcode) :
    (n = 0 ∧ e.cpu.opState = .opcode) ∨
      (e.cpu.opState ≠ .opcode ∧ e.cpu.ctl.ticksLeft + n ≤ 7) := by
  induction h with
  | start => exact .inl ⟨rfl, hs⟩
  | between bus _ ih => exact ih
  | stalled fuel h hrdy ht ih =>
    rw [eq_tick_of_cpuTick (h.reachable hr).fresh ht, tick_stalled _ hrdy]
    exact ih
  | tick fuel h hrdy ht hs' ih =>
    have hfresh := (h.reachable hr).fresh
    have hend := tickEnd_tick _ hfresh hrdy
    rw [← eq_tick_of_cpuTick hfresh ht] at hend
    refine .inr ⟨hs', ?_⟩
    rcases ih with ⟨rfl, hb⟩ | ⟨hoff, hle⟩
    · have := hend.started hb
      omega
    · have := hend.nearer hoff
      omega

/-- A tick ends within three handler calls in every reachable state. From an instruction
boundary at most six ticks with RDY not held leave the CPU off the boundary, and the
seventh returns to it. -/
theorem cpu_tick_never_stuck (emu : Emu ω) (h : Reachable emu) :
    (∃ emu', cpuTick 4 emu = some emu') ∧
    (emu.cpu.opState = .opcode → ∀ n e, OffBoundary emu n e → n ≤ 6 ∧
      (n = 6 → e.bus.sigvotes.rdy = 0 →
        ∃ e', cpuTick 4 e = some e' ∧ e'.cpu.opState = .opcode)) := by
  refine ⟨⟨emu.tick, h.tick_some⟩, ?_⟩
  intro hs n e hrun
  have hbound : ∀ m (e' : Emu ω), OffBoundary emu m e' → m ≤ 6 := by
    intro m e' hm
    rcases hm.ticksLeft h hs with ⟨rfl, -⟩ | ⟨hoff, hle⟩
    · omega
    · have := ticksLeft_pos e' (hm.reachable h).fresh hoff
      omega
  refine ⟨hbound n e hrun, ?_⟩
  rintro rfl hrdy
  have ht := (hrun.reachable h).tick_some
  refine ⟨e.tick, ht, ?_⟩
  refine Decidable.byContradiction ?_
  intro hoff
  have := hbound 7 e.tick (.tick 4 hrun hrdy ht hoff)
  omega

/-- A read-only memory over the whole address space. -/
def romBus (mem : BitVec 16 → BitVec 8) : Bus Unit :=
  Bus.init
    [{ handle := 0, params := .range 0 0xFFFF
       handlers := { write := none, read := some fun addr _ _ => (mem addr, (), []), peek := none } }]
    [] ()

/-- `n` ticks from reset, with `BRK` everywhere. -/
def brkTicks (n : Nat) : Emu Unit :=
  Nat.repeat Emu.tick n { bus := romBus fun _ => 0, cpu := cpuInit }

theorem brkTicks_reachable (n : Nat) : Reachable (brkTicks n) := (Reachable.init _).iterate_tick n

/-- The reset takes seven ticks, and so does `BRK`. -/
theorem brkTicks_offBoundary {n : Nat} (hn : n ≤ 6) : OffBoundary (brkTicks 7) n (brkTicks (7 + n)) := by
  have hoff : ∀ k < 6, (brkTicks (7 + k)).bus.sigvotes.rdy = 0 ∧
      (brkTicks (7 + k + 1)).cpu.opState ≠ .opcode := by decide +kernel
  induction n with
  | zero => exact .start
  | succ n ih =>
    obtain ⟨hrdy, hs⟩ := hoff n hn
    exact .tick 4 (ih (Nat.le_of_succ_le hn)) hrdy (brkTicks_reachable (7 + n)).tick_some hs

theorem cpu_tick_never_stuck_of_brk :
    ∃ e, cpuTick 4 (brkTicks 13) = some e ∧ e.cpu.opState = .opcode := by
  have hboundary : (brkTicks 7).cpu.opState = .opcode := by decide +kernel
  obtain ⟨-, hseven⟩ := cpu_tick_never_stuck (brkTicks 7) (brkTicks_reachable 7)
  exact (hseven hboundary 6 _ (brkTicks_offBoundary (Nat.le_refl 6))).2 rfl (by decide +kernel)

/-! ## Transactions of a tick -/

/-- The number of transactions committed so far. -/
def Bus.transactions (bus : Bus ω) : Nat := bus.trace.length

theorem Bus.Committed.transactions {b b' : Bus ω} {op : BusOp} (h : b.Committed op b') :
    b'.transactions = b.transactions + 1 := by
  unfold Bus.transactions
  rw [h.trace, List.length_append, List.length_singleton]

theorem transactions_answer (q : BusRead) (bus : Bus ω) :
    (busEnv.answer q bus).2.transactions = bus.transactions + 1 := by
  simp only [busEnv]
  split
  · exact (committed_read bus q.addr true).transactions
  · exact (committed_read bus q.addr false).transactions

theorem transactions_obey (c : BusWrite) (bus : Bus ω) :
    (busEnv.obey c bus).transactions = bus.transactions + 1 :=
  (committed_write bus c.addr c.val).transactions

theorem transactions_ackNmi (bus : Bus ω) (cpu : Cpu) :
    (bus.ackNmi cpu).transactions = bus.transactions := by
  unfold Bus.ackNmi
  split <;> rfl

/-- The tick makes no transaction: RDY is not held and the cycle is an idle one. -/
def Emu.idleTick (emu : Emu ω) : Bool := emu.bus.sigvotes.rdy == 0 && emu.cpu.ctl.idleCycle

theorem transactions_tick (emu : Emu ω) (hfresh : emu.cpu.ctl.fresh = true) :
    emu.tick.bus.transactions + (if emu.idleTick then 1 else 0) = emu.bus.transactions + 1 := by
  by_cases hrdy : emu.bus.sigvotes.rdy = 0
  · have hends := Prog.Ends.mono (tickProg_ends emu.bus.sigvotes emu.cpu.clearCycle hfresh rfl)
      fun _ _ h => h.1
    obtain ⟨m, hm, hcount⟩ := Prog.EndsFrom.run hends busEnv Bus.transactions
      transactions_answer transactions_obey (emu.bus.ackNmi emu.cpu)
    rw [tick_unstalled emu hrdy]
    rw [transactions_ackNmi, ← Emu.tickRun] at hcount
    rw [Nat.zero_add, Cpu.clearCycle_ctl] at hm
    simp only [Emu.idleTick, hrdy, BEq.rfl, Bool.true_and, hcount, hm]
    split <;> omega
  · obtain ⟨op, hop, -⟩ := committed_replay emu.bus
    have hheld : (emu.bus.sigvotes.rdy == 0) = false := beq_eq_false_iff_ne.mpr hrdy
    rw [tick_stalled emu hrdy, hop.transactions]
    simp only [Emu.idleTick, hheld, Bool.false_and, Bool.false_eq_true, if_false]

/-- `Run emu n k e`: `n` ticks lead from `emu` to `e`, `k` of them idle, with any changes
of the bus between ticks that commit nothing. -/
inductive Run (emu : Emu ω) : Nat → Nat → Emu ω → Prop where
  | start : Run emu 0 0 emu
  | between {n k : Nat} {e : Emu ω} (bus : Bus ω) (h : Run emu n k e)
      (htrace : bus.trace = e.bus.trace) : Run emu n k { e with bus }
  | tick {n k : Nat} {e e' : Emu ω} (fuel : Nat) (h : Run emu n k e)
      (ht : cpuTick fuel e = some e') : Run emu (n + 1) (k + if e.idleTick then 1 else 0) e'

theorem Run.reachable {emu e : Emu ω} {n k : Nat} (h : Run emu n k e) (hr : Reachable emu) :
    Reachable e := by
  induction h with
  | start => exact hr
  | between bus _ _ ih => exact .between bus ih
  | tick fuel _ ht ih => exact .tick fuel ih ht

/-- Over a run the ticks are the transactions and the idle ticks. -/
theorem Run.transactions {emu e : Emu ω} {n k : Nat} (h : Run emu n k e) (hr : Reachable emu) :
    e.bus.transactions + k = emu.bus.transactions + n := by
  induction h with
  | start => rfl
  | between bus _ htrace ih =>
    simpa only [Bus.transactions, htrace] using ih
  | tick fuel h ht ih =>
    have hfresh := (h.reachable hr).fresh
    have hstep := transactions_tick _ hfresh
    rw [← eq_tick_of_cpuTick hfresh ht] at hstep
    omega

/-- Every tick ends, with one bus transaction where RDY is not held exactly when the cycle is
not an idle one, and a run has as many transactions as ticks exactly when none of its ticks
is idle. -/
theorem cpu_tick_transactions (emu : Emu ω) (h : Reachable emu) :
    (∃ emu', cpuTick 4 emu = some emu') ∧
    (emu.bus.sigvotes.rdy = 0 → ∀ fuel emu', cpuTick fuel emu = some emu' →
      (emu'.bus.trace.length = emu.bus.trace.length + 1 ↔ emu.cpu.ctl.idleCycle = false)) ∧
    (∀ n k e, Run emu n k e →
      (e.bus.trace.length = emu.bus.trace.length + n ↔ k = 0)) := by
  refine ⟨⟨emu.tick, h.tick_some⟩, ?_, ?_⟩
  · intro hrdy fuel emu' ht
    have hstep := transactions_tick emu h.fresh
    rw [← eq_tick_of_cpuTick h.fresh ht] at hstep
    simp only [Emu.idleTick, hrdy, BEq.rfl, Bool.true_and, Bus.transactions] at hstep
    cases hidle : emu.cpu.ctl.idleCycle <;> simp only [hidle] at hstep ⊢ <;> simp at hstep ⊢ <;> omega
  · intro n k e hrun
    have := hrun.transactions h
    unfold Bus.transactions at this
    omega

/-- Memory with `SED; ADC #0` at `$0200` and the reset vector `$0200`. -/
def decimalProgram (addr : BitVec 16) : BitVec 8 :=
  if addr = 0xFFFD then 0x02
  else if addr = 0x0200 then 0xF8
  else if addr = 0x0201 then 0x69
  else 0x00

theorem cpu_tick_transactions_at_reset :
    (Emu.tick { bus := romBus decimalProgram, cpu := cpuInit }).bus.trace.length = 0 + 1 := by
  have hr := Reachable.init (romBus decimalProgram)
  obtain ⟨-, honce, -⟩ := cpu_tick_transactions _ hr
  exact (honce rfl 4 _ hr.tick_some).mpr (by decide)

/-- The twelfth tick from reset, the second cycle of a decimal `ADC`, makes no transaction. -/
theorem decimal_adc_tick_makes_no_transaction :
    ¬ ∀ emu : Emu Unit, Reachable emu → emu.bus.sigvotes.rdy = 0 → ∀ fuel emu',
      cpuTick fuel emu = some emu' → emu'.bus.trace.length = emu.bus.trace.length + 1 := by
  intro hclaim
  have hr := (Reachable.init (romBus decimalProgram)).iterate_tick 11
  have h := hclaim _ hr (by decide +kernel) 4 _ hr.tick_some
  revert h
  decide +kernel

end Cb6502
