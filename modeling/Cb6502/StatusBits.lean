import Cb6502.Frame
import Cb6502.Runs

/- Bits 4 and 5 of the status, by which a handler tells `BRK` from an interrupt. The core
   keeps both in its status register: `PHP`, `BRK` and an interrupt push what is there,
   with bit 4 set by the first two. Only `PLP` and `RTI` change them, each in its third
   cycle: `PLP` loads the byte pulled with bit 5 set, `RTI` loads it as it is.
   `StatusRun` carries the byte that the last of them loaded. -/
namespace Cb6502
open Dialogue

variable {ω : Type}

/-! ## What changes the two bits -/

/-- The cycle in which `PLP` or `RTI` pulls the status. -/
def Cpu.LoadsStatus (cpu : Cpu) : Prop :=
  cpu.opState = .op2 ∧ (cpu.opcode = 0x28 ∨ cpu.opcode = 0x40)

theorem optable_php : optable 0x08#8 = .ph := rfl
theorem optable_plp : optable 0x28#8 = .pl := rfl
theorem optable_rti : optable 0x40#8 = .rti := rfl

theorem opcode_of_optable_rti : ∀ opcode : BitVec 8, optable opcode = .rti → opcode = 0x40 := by
  decide +kernel

theorem handler_bits (cpu : Cpu) (h : ¬cpu.LoadsStatus) :
    Prog.Ends (fun _ cpu' => sourceBits cpu'.regs.status = sourceBits cpu.regs.status)
      (handler cpu) := by
  have haddr : Prog.Ends (fun _ cpu' => sourceBits cpu'.regs.status = sourceBits cpu.regs.status)
      (addrHandlers (addrtable cpu.opcode) cpu) :=
    (addrHandlers_sameButPc _ cpu).mono fun _ cpu' hregs => by rw [hregs]
  have hops : Prog.Ends (fun _ cpu' => sourceBits cpu'.regs.status = sourceBits cpu.regs.status)
      (ops (optable cpu.opcode) cpu) := by
    refine (ops_frame cpu _).mono fun _ cpu' hframe => hframe.bits ?_ ?_
    · exact fun hrti hs => h ⟨hs, .inr (opcode_of_optable_rti _ hrti)⟩
    · exact fun hplp => h ⟨hplp.1, .inl hplp.2⟩
  unfold handler
  cases cpu.opState
  case opcode => exact rfl
  case param0 | param1 | param2 | param3 | param4 => exact haddr
  case op0 | op1 | op2 | op3 | op4 => exact hops
  all_goals exact vector_bits cpu

/-- A handler that does not consume the cycle leads into the first two cycles of the
opcode handler. -/
theorem unconsumed_table :
    ∀ opcode : BitVec 8, ∀ pb : Bool, ∀ s ∈ instrStates, Ctl.ok ⟨opcode, s, pb⟩ = true →
      ∀ o ∈ outcomes ⟨opcode, s, pb⟩, o.consumes = false → o.next = .op0 ∨ o.next = .op1 := by
  decide +kernel

theorem Ctl.next_of_unconsumed (c : Ctl) (h : c.ok = true) {o : Outcome} (ho : o ∈ outcomes c)
    (hc : o.consumes = false) : o.next = .op0 ∨ o.next = .op1 := by
  obtain ⟨opcode, s, pb⟩ := c
  cases s
  case opcode => exact absurd ho List.not_mem_nil
  case vec0 | vec1 | vec2 | vec3 | vec4 | vec5 | vec6 =>
    obtain rfl := List.mem_singleton.mp ho
    exact Bool.noConfusion hc
  all_goals exact unconsumed_table opcode pb _ (by decide) h o ho hc

/-- A cycle that does not begin with a status load makes none: its calls after the first are in the
first two cycles of an opcode handler, where no status is pulled. -/
theorem cycleFrom_bits (n k : Nat) (cpu : Cpu) (hok : cpu.ctl.ok = true)
    (hs : cpu.opState ≠ .opcode) (hload : ¬cpu.LoadsStatus) :
    Prog.EndsFrom (fun _ cpu' => sourceBits cpu'.regs.status = sourceBits cpu.regs.status) k
      (cycleFrom n cpu) := by
  induction n generalizing k cpu with
  | zero => exact rfl
  | succ n ih =>
    have hstep := Prog.EndsFrom.and (handler_fits cpu hs) (handler_bits cpu hload)
    refine Prog.EndsFrom.bind (hstep.shift k) ?_
    rintro m cpu₁ ⟨_, rfl, ⟨o, ho, hfit⟩, hbits⟩
    have hnext : cpu₁.opState = o.next := congrArg Ctl.opState hfit.ctl
    split
    · exact hbits
    -- the cycle goes on, so the state after the call is an early one
    · obtain ⟨hok₁, -, -, -, hopen⟩ := cpu.ctl.outcome_progress hok hs o ho
      have hcons : o.consumes = false := by
        have hconsumed := hfit.consumed
        cases hc : o.consumes <;> simp_all
      obtain ⟨-, hs₁, -, -⟩ := hopen hcons
      rw [← hfit.ctl] at hok₁ hs₁
      have hearly : ¬cpu₁.LoadsStatus := by
        rintro ⟨hop2, -⟩
        rcases cpu.ctl.next_of_unconsumed hok ho hcons with h | h <;> rw [← hnext, hop2] at h <;>
          exact OpState.noConfusion h
      exact (ih _ cpu₁ hok₁ hs₁ hearly).mono fun _ _ h => h.trans hbits

theorem tickProg_bits (v : SigVotes) (cpu : Cpu) (hfresh : cpu.ctl.fresh = true)
    (hload : ¬cpu.LoadsStatus) :
    Prog.Ends (fun _ cpu' => sourceBits cpu'.regs.status = sourceBits cpu.regs.status)
      (tickProg v cpu) := by
  unfold tickProg
  by_cases hs : cpu.opState = .opcode
  · rw [if_pos hs]
    split
    · exact vector_bits (cpu.beginVector .nmi)
    · split
      · exact vector_bits (cpu.beginVector .irq)
      · exact fun opcode => rfl
  · rw [if_neg hs]
    exact cycleFrom_bits 3 0 cpu (Ctl.ok_of_fresh hfresh) hs hload

/-! ## The byte a tick loads -/

/-- What `PLP` or `RTI` loaded: the byte pulled. -/
inductive StatusLoad where
  | plp (b : BitVec 8)
  | rti (b : BitVec 8)
  deriving DecidableEq

/-- The status after the load. -/
def StatusLoad.status : StatusLoad → BitVec 8
  | .plp b => b ||| flagConstant
  | .rti b => b

/-- The status with the bits 4 and 5 that the last load left, those of `cpu_init` if
there was none. -/
def lastStatus : Option StatusLoad → BitVec 8
  | none => flagConstant
  | some load => load.status

/-- The last load after the tick from `emu` to `emu'`, before which it was `last`. The byte
pulled is the value of the tick's bus transaction. -/
def Emu.lastLoad (emu emu' : Emu ω) (last : Option StatusLoad) : Option StatusLoad :=
  if emu.bus.sigvotes.rdy = 0 ∧ emu.cpu.opState = .op2 then
    if emu.cpu.opcode = 0x28 then emu'.bus.trace.getLast?.map fun op => .plp op.val
    else if emu.cpu.opcode = 0x40 then emu'.bus.trace.getLast?.map fun op => .rti op.val
    else last
  else last

theorem trace_busRead (bus : Bus ω) (addr : BitVec 16) :
    (busRead bus addr).2.trace =
      bus.trace ++ [{ addr, val := (busRead bus addr).1, write := false, sync := false }] :=
  (committed_read bus addr false).trace

/-- A load is one read from the stack. -/
theorem cycle_loadsStatus (cpu : Cpu) (bus : Bus ω) (h : cpu.LoadsStatus) :
    let pulled := busRead bus (baseStack + u16 (cpu.regs.sp + 1))
    ((cycle cpu).run busEnv bus).2 = pulled.2 ∧
      ((cycle cpu).run busEnv bus).1.regs.status =
        if cpu.opcode = 0x28 then pulled.1 ||| flagConstant else pulled.1 := by
  obtain ⟨hs, hop | hop⟩ := h
  · simp [cycle, cycleFrom, handler, hs, hop, optable_plp, ops, pl, plPull, pull8, advanceState, busEnv]
  · simp [cycle, cycleFrom, handler, hs, hop, optable_rti, ops, rti, pull8, advanceState, busEnv]

/-- A tick inside an instruction runs the cycle on the bus as it is. -/
theorem tick_inside (emu : Emu ω) (hrdy : emu.bus.sigvotes.rdy = 0) (hs : emu.cpu.opState ≠ .opcode) :
    emu.tick.bus = ((cycle emu.cpu.clearCycle).run busEnv emu.bus).2 ∧
      emu.tick.cpu.regs = ((cycle emu.cpu.clearCycle).run busEnv emu.bus).1.regs := by
  rw [tick_unstalled emu hrdy, Emu.tickRun, tickProg_inside _ emu.cpu.clearCycle hs, Bus.ackNmi,
    if_neg hs]
  exact ⟨rfl, rfl⟩

theorem lastLoad_of_loads {emu emu' : Emu ω} (last : Option StatusLoad)
    (hrdy : emu.bus.sigvotes.rdy = 0) (h : emu.cpu.LoadsStatus) {op : BusOp}
    (htrace : emu'.bus.trace = emu.bus.trace ++ [op]) :
    emu.lastLoad emu' last =
      some (if emu.cpu.opcode = 0x28 then .plp op.val else .rti op.val) := by
  rw [Emu.lastLoad, if_pos ⟨hrdy, h.1⟩, htrace, List.getLast?_concat]
  rcases h.2 with hop | hop
  · simp [hop]
  · simp [hop]

/-- The two bits follow the last load. -/
def Emu.FollowsLoad (emu : Emu ω) (last : Option StatusLoad) : Prop :=
  sourceBits emu.cpu.regs.status = sourceBits (lastStatus last)

theorem followsLoad_of_bits {emu emu' : Emu ω} {last : Option StatusLoad}
    (h : emu.FollowsLoad last) (hload : emu.bus.sigvotes.rdy ≠ 0 ∨ ¬emu.cpu.LoadsStatus)
    (hbits : sourceBits emu'.cpu.regs.status = sourceBits emu.cpu.regs.status) :
    emu'.FollowsLoad (emu.lastLoad emu' last) := by
  have hlast : emu.lastLoad emu' last = last := by
    unfold Emu.lastLoad
    split
    · have hnone : ¬emu.cpu.LoadsStatus := by
        rcases hload with hrdy | hnone
        · exact absurd (‹emu.bus.sigvotes.rdy = 0 ∧ _›).1 hrdy
        · exact hnone
      have hs := (‹emu.bus.sigvotes.rdy = 0 ∧ _›).2
      rw [if_neg fun hop => hnone ⟨hs, .inl hop⟩, if_neg fun hop => hnone ⟨hs, .inr hop⟩]
    · rfl
  rw [hlast]
  exact hbits.trans h

theorem followsLoad_tick (emu : Emu ω) (last : Option StatusLoad)
    (hfresh : emu.cpu.ctl.fresh = true) (h : emu.FollowsLoad last) :
    emu.tick.FollowsLoad (emu.lastLoad emu.tick last) := by
  by_cases hrdy : emu.bus.sigvotes.rdy = 0
  · by_cases hload : emu.cpu.LoadsStatus
    · have hs := hload.1
      obtain ⟨hbus, hregs⟩ := tick_inside emu hrdy (by rw [hs]; decide)
      obtain ⟨hbus', hstatus⟩ := cycle_loadsStatus emu.cpu.clearCycle emu.bus hload
      -- the byte loaded is the value of the tick's one transaction
      have htrace := trace_busRead emu.bus (baseStack + u16 (emu.cpu.clearCycle.regs.sp + 1))
      rw [← hbus', ← hbus] at htrace
      have hlast := lastLoad_of_loads last hrdy hload htrace
      unfold Emu.FollowsLoad
      rw [hregs, hstatus, hlast]
      rcases hload.2 with hop | hop
      · simp [hop, lastStatus, StatusLoad.status, Cpu.clearCycle]
      · simp [hop, lastStatus, StatusLoad.status, Cpu.clearCycle]
    -- no load: the two bits stay
    · refine followsLoad_of_bits h (.inr hload) ?_
      have hends := tickProg_bits emu.bus.sigvotes emu.cpu.clearCycle hfresh hload
      have hbits := hends.result busEnv (emu.bus.ackNmi emu.cpu)
      rw [tick_unstalled emu hrdy]
      exact hbits
  · refine followsLoad_of_bits h (.inl hrdy) ?_
    rw [tick_stalled emu hrdy]
    rfl

/-! ## Runs -/

/-- Runs from `cpu_init`, whatever happens to the bus between ticks, with the last status
that `PLP` or `RTI` loaded. -/
inductive StatusRun : Emu ω → Option StatusLoad → Prop where
  | init (bus : Bus ω) : StatusRun { bus, cpu := cpuInit } none
  | tick {emu emu' : Emu ω} {last : Option StatusLoad} (fuel : Nat) (h : StatusRun emu last)
      (ht : cpuTick fuel emu = some emu') : StatusRun emu' (emu.lastLoad emu' last)
  | between {emu : Emu ω} {last : Option StatusLoad} (bus : Bus ω) (h : StatusRun emu last) :
      StatusRun { emu with bus } last

theorem StatusRun.reachable {emu : Emu ω} {last : Option StatusLoad} (h : StatusRun emu last) :
    Reachable emu := by
  induction h with
  | init bus => exact .init bus
  | tick fuel _ ht ih => exact .tick fuel ih ht
  | between bus _ ih => exact .between bus ih

theorem StatusRun.followsLoad {emu : Emu ω} {last : Option StatusLoad} (h : StatusRun emu last) :
    emu.FollowsLoad last := by
  induction h with
  | init bus => exact rfl
  | tick fuel h ht ih =>
    have hfresh := h.reachable.fresh
    rw [eq_tick_of_cpuTick hfresh ht]
    exact followsLoad_tick _ _ hfresh ih
  | between bus _ ih => exact ih

/-! ## The pushes -/

/-- The tick pushes the status: in the vector sequence, or for `PHP`. -/
def Cpu.PushesStatus (cpu : Cpu) : Prop :=
  cpu.opState = .vec4 ∨ (cpu.opState = .op1 ∧ cpu.opcode = 0x08)

/-- The status pushed: with bit 4 set by `BRK` and `PHP`. -/
def Cpu.pushedStatus (cpu : Cpu) : BitVec 8 :=
  if cpu.opState = .vec4 ∧ cpu.vecSrc ≠ .brk then cpu.regs.status
  else cpu.regs.status ||| flagBreak

/-- The transaction of the push. -/
def Cpu.statusPush (cpu : Cpu) : BusOp :=
  { addr := baseStack + u16 cpu.regs.sp, val := cpu.pushedStatus, write := true, sync := false }

theorem cycle_pushesStatus (cpu : Cpu) (bus : Bus ω) (h : cpu.PushesStatus) :
    ((cycle cpu).run busEnv bus).2 =
      busWrite bus (baseStack + u16 cpu.regs.sp) cpu.pushedStatus := by
  rcases h with hs | ⟨hs, hop⟩
  · by_cases hsrc : cpu.vecSrc = .brk
    · simp [cycle, cycleFrom, handler, hs, hsrc, vector, push8, advanceState, busEnv, Cpu.pushedStatus]
    · simp [cycle, cycleFrom, handler, hs, hsrc, vector, push8, advanceState, busEnv, Cpu.pushedStatus]
  · simp [cycle, cycleFrom, handler, hs, hop, optable_php, ops, ph, phPush, push8, advanceState,
      busEnv, Cpu.pushedStatus]

theorem trace_pushesStatus (emu : Emu ω) (hrdy : emu.bus.sigvotes.rdy = 0)
    (h : emu.cpu.PushesStatus) :
    emu.tick.bus.trace = emu.bus.trace ++ [emu.cpu.statusPush] := by
  have hs : emu.cpu.opState ≠ .opcode := by
    rcases h with hs | ⟨hs, -⟩ <;> rw [hs] <;> decide
  rw [(tick_inside emu hrdy hs).1, cycle_pushesStatus emu.cpu.clearCycle emu.bus h]
  exact (committed_write emu.bus _ _).trace

/-- The byte is as an interrupt pushes it: bit 4 clear and bit 5 set. -/
def marksInterrupt (status : BitVec 8) : Bool :=
  status &&& flagBreak == 0 && status &&& flagConstant != 0

/-- The byte is as `BRK` and `PHP` push it: bits 4 and 5 set. -/
def marksBreak (status : BitVec 8) : Bool :=
  status &&& flagBreak != 0 && status &&& flagConstant != 0

/-- The status the last load left has bit 4 clear and, where `RTI` loaded it, bit 5 set. -/
def interruptSafe : Option StatusLoad → Bool
  | none => true
  | some (.plp b) => b &&& flagBreak == 0
  | some (.rti b) => b &&& flagBreak == 0 && b &&& flagConstant != 0

/-- The last load was not an `RTI` of a byte with bit 5 clear. -/
def breakSafe : Option StatusLoad → Bool
  | some (.rti b) => b &&& flagConstant != 0
  | _ => true

theorem marksInterrupt_sourceBits (status : BitVec 8) :
    marksInterrupt (sourceBits status) = marksInterrupt status := by
  revert status
  decide +kernel

theorem marksBreak_sourceBits (status : BitVec 8) :
    marksBreak (sourceBits status ||| flagBreak) = marksBreak (status ||| flagBreak) := by
  revert status
  decide +kernel

theorem marksInterrupt_lastStatus (last : Option StatusLoad) :
    marksInterrupt (lastStatus last) = interruptSafe last := by
  rcases last with _ | ⟨b | b⟩
  · rfl
  · revert b
    decide +kernel
  · rfl

theorem marksBreak_lastStatus (last : Option StatusLoad) :
    marksBreak (lastStatus last ||| flagBreak) = breakSafe last := by
  rcases last with _ | ⟨b | b⟩ <;> first | rfl | (revert b; decide +kernel)

theorem Emu.FollowsLoad.interrupt {emu : Emu ω} {last : Option StatusLoad}
    (h : emu.FollowsLoad last) : marksInterrupt emu.cpu.regs.status = interruptSafe last :=
  calc marksInterrupt emu.cpu.regs.status
      = marksInterrupt (sourceBits emu.cpu.regs.status) := (marksInterrupt_sourceBits _).symm
    _ = marksInterrupt (sourceBits (lastStatus last)) := by rw [h]
    _ = marksInterrupt (lastStatus last) := marksInterrupt_sourceBits _
    _ = interruptSafe last := marksInterrupt_lastStatus last

theorem Emu.FollowsLoad.break {emu : Emu ω} {last : Option StatusLoad} (h : emu.FollowsLoad last) :
    marksBreak (emu.cpu.regs.status ||| flagBreak) = breakSafe last :=
  calc marksBreak (emu.cpu.regs.status ||| flagBreak)
      = marksBreak (sourceBits emu.cpu.regs.status ||| flagBreak) := (marksBreak_sourceBits _).symm
    _ = marksBreak (sourceBits (lastStatus last) ||| flagBreak) := by rw [h]
    _ = marksBreak (lastStatus last ||| flagBreak) := marksBreak_sourceBits _
    _ = breakSafe last := marksBreak_lastStatus last

/-- The pushed byte tells `BRK` from an interrupt exactly while the last load allows it. In
every run from `cpu_init` a tick ends, and one at the status push of a vector sequence or of `PHP`
writes one byte to the stack; for an IRQ or NMI it has bit 4 clear and bit 5 set if and
only if the last `PLP` or `RTI` loaded a byte with bit 4 clear, and with bit 5 set if it was
`RTI`; for `BRK` and `PHP` it has bits 4 and 5 set if and only if the last load was not
an `RTI` of a byte with bit 5 clear. -/
theorem pushed_break_bit (emu : Emu ω) (last : Option StatusLoad) (h : StatusRun emu last) :
    (∃ emu', cpuTick 4 emu = some emu') ∧
    ∀ fuel emu', cpuTick fuel emu = some emu' → emu.bus.sigvotes.rdy = 0 →
      (emu.cpu.opState = .vec4 → emu.cpu.vecSrc = .irq ∨ emu.cpu.vecSrc = .nmi →
        ∃ v, emu'.bus.trace = emu.bus.trace ++ [⟨baseStack + u16 emu.cpu.regs.sp, v, true, false⟩] ∧
          (marksInterrupt v = true ↔ interruptSafe last = true)) ∧
      ((emu.cpu.opState = .vec4 ∧ emu.cpu.vecSrc = .brk) ∨
          (emu.cpu.opState = .op1 ∧ emu.cpu.opcode = 0x08) →
        ∃ v, emu'.bus.trace = emu.bus.trace ++ [⟨baseStack + u16 emu.cpu.regs.sp, v, true, false⟩] ∧
          (marksBreak v = true ↔ breakSafe last = true)) := by
  refine ⟨⟨emu.tick, h.reachable.tick_some⟩, ?_⟩
  intro fuel emu' ht hrdy
  have hlast := h.followsLoad
  rw [eq_tick_of_cpuTick h.reachable.fresh ht]
  refine ⟨?_, ?_⟩
  · intro hs hsrc
    refine ⟨_, trace_pushesStatus emu hrdy (.inl hs), ?_⟩
    have hpushed : emu.cpu.pushedStatus = emu.cpu.regs.status := by
      have hnot : emu.cpu.vecSrc ≠ .brk := by rcases hsrc with h | h <;> rw [h] <;> decide
      rw [Cpu.pushedStatus, if_pos ⟨hs, hnot⟩]
    rw [hpushed, hlast.interrupt]
  · intro hpush
    have hpushed : emu.cpu.pushedStatus = emu.cpu.regs.status ||| flagBreak := by
      unfold Cpu.pushedStatus
      rcases hpush with ⟨hs, hsrc⟩ | ⟨hs, -⟩
      · exact if_neg fun hnot => hnot.2 hsrc
      · exact if_neg fun hvec => by rw [hs] at hvec; exact OpState.noConfusion hvec.1
    refine ⟨_, trace_pushesStatus emu hrdy ?_, ?_⟩
    · exact hpush.imp And.left id
    · rw [hpushed, hlast.break]

/-- The status that `PHP` at `$0200` pushes, with the reset vector `$0200`. -/
def phpProgram (addr : BitVec 16) : BitVec 8 :=
  if addr = 0xFFFD then 0x02 else if addr = 0x0200 then 0x08 else 0x00

/-- `n` ticks from reset with a read-only memory and the votes `v`. -/
def romRun (v : SigVotes) (mem : BitVec 16 → BitVec 8) (n : Nat) : Emu Unit × Option StatusLoad :=
  Nat.repeat (fun s => (s.1.tick, s.1.lastLoad s.1.tick s.2)) n
    ({ bus := { romBus mem with sigvotes := v }, cpu := cpuInit }, none)

theorem statusRun_romRun (v : SigVotes) (mem : BitVec 16 → BitVec 8) (n : Nat) :
    StatusRun (romRun v mem n).1 (romRun v mem n).2 := by
  induction n with
  | zero => exact .init _
  | succ n ih => exact .tick 4 ih ih.reachable.tick_some

theorem pushed_break_bit_of_php :
    ∃ v, (romRun {} phpProgram 9).1.tick.bus.trace =
        (romRun {} phpProgram 9).1.bus.trace ++ [⟨0x01FD, v, true, false⟩] ∧
      (marksBreak v = true ↔ breakSafe (romRun {} phpProgram 9).2 = true) := by
  have hrun := statusRun_romRun {} phpProgram 9
  obtain ⟨-, hpush⟩ := pushed_break_bit _ _ hrun
  exact (hpush 4 _ hrun.reachable.tick_some (by decide +kernel)).2 (by decide +kernel)

/-- `PLP` at `$0200`, with `$10` on the stack. -/
def plpProgram (addr : BitVec 16) : BitVec 8 :=
  if addr = 0xFFFD then 0x02
  else if addr = 0x0200 then 0x28
  else if addr = 0x01FE then 0x10
  else 0x00

/-- After `PLP` of `$10` an IRQ pushes bit 4 set. -/
theorem irq_pushes_break_bit :
    ¬ ∀ emu : Emu Unit, Reachable emu → emu.bus.sigvotes.rdy = 0 → emu.cpu.opState = .vec4 →
      emu.cpu.vecSrc = .irq → ∀ fuel emu', cpuTick fuel emu = some emu' →
        ∀ op, emu'.bus.trace = emu.bus.trace ++ [op] → op.val &&& flagBreak = 0 := by
  intro hclaim
  have hr := (statusRun_romRun { irq := 1 } plpProgram 15).reachable
  have h := hclaim _ hr (by decide +kernel) (by decide +kernel) (by decide +kernel) 4 _ hr.tick_some
    ⟨0x01FC, 0x30, true, false⟩ (by decide +kernel)
  revert h
  decide +kernel

end Cb6502
