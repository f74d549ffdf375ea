import Cb6502.Control

/- One cycle of the CPU. `cycle` is the loop of `cpu_tick` as a program of bus requests,
   and `cpuTick_eq` says that in every state a tick can start from the loop ends and
   `cpu_tick` is one run of that program. `Ctl.fresh` is the invariant: the pairs of
   opcode and state a tick can start from; `ticksLeft` bounds the cycles to the next
   opcode fetch and `idleCycle` names the cycles that make no bus request. -/
namespace Cb6502
open Dialogue

/-! ## The states an instruction goes through -/

def OpState.idx : OpState → Nat
  | .opcode | .param0 | .op0 | .vec0 => 0
  | .param1 | .op1 | .vec1 => 1
  | .param2 | .op2 | .vec2 => 2
  | .param3 | .op3 | .vec3 => 3
  | .param4 | .op4 | .vec4 => 4
  | .vec5 => 5
  | .vec6 => 6

/-- The number of `PARAM` states of an addressing mode. -/
def addrStates : AddrMode → Nat
  | .imp | .acc | .imm | .zp | .rel => 1
  | .zpx | .zpy | .abso => 2
  | .absx | .absy | .indz => 3
  | .indx | .indy | .zprel => 4
  | .ind | .abin => 5

/-- The number of `OP` states of a handler. -/
def opStates (op : Op) (mode : AddrMode) : Nat :=
  match op with
  | .adc | .sbc | .ph => 2
  | .asl | .lsr | .rol | .ror => if mode = .acc then 1 else 3
  | .dec | .inc => if mode = .acc then 2 else 4
  | .trb | .tsb | .rmb | .smb | .bxx | .bra | .bbr | .bbs | .pl => 3
  | .jsr | .rti | .rts => 5
  | .sta => if mode = .absx ∨ mode = .absy ∨ mode = .indy then 2 else 1
  | .stx | .sty | .stz => if mode = .absx ∨ mode = .absy then 2 else 1
  | _ => 1

/-- The addressing mode leaves its last cycle to the opcode handler. -/
def sharesLastCycle (opcode : BitVec 8) : Bool :=
  match addrtable opcode with
  | .imp | .acc | .imm | .rel | .ind | .abin | .zprel => true
  | .abso => opcode == 0x20 || opcode == 0x4C
  | _ => false

/-- The opcode reaches this state. The third state of the indexed modes and the fourth
of `(zp),y` are entered on a page crossing only. -/
def Ctl.ok (c : Ctl) : Bool :=
  match c.opState with
  | .param0 | .param1 | .param2 | .param3 | .param4 =>
    c.opState.idx < addrStates (addrtable c.opcode) &&
      (c.pageBoundary || match addrtable c.opcode with
        | .absx | .absy => c.opState != .param2
        | .indy => c.opState != .param3
        | _ => true)
  | .op0 | .op1 | .op2 | .op3 | .op4 =>
    c.opState.idx < opStates (optable c.opcode) (addrtable c.opcode)
  | _ => true

/-- A tick can start in this state. -/
def Ctl.fresh (c : Ctl) : Bool :=
  c.ok && match c.opState with
    | .op0 => !sharesLastCycle c.opcode
    | .op1 => !((optable c.opcode == .dec || optable c.opcode == .inc) && addrtable c.opcode == .acc)
    | _ => true

/-! ## Cycles left -/

/-- At most this many cycles from an `OP` state to the next opcode fetch. -/
def opTicks (op : Op) (mode : AddrMode) (pageBoundary : Bool) (k : Nat) : Nat :=
  match op with
  | .brk => 6
  | .dec | .inc =>
    if mode = .acc then 1
    else if k = 0 then (if mode = .absx ∧ pageBoundary = false then 4 else 3)
    else 4 - k
  | .sta | .stx | .sty | .stz => if k = 0 ∧ pageBoundary = true then 1 else opStates op mode - k
  | _ => opStates op mode - k

/-- The cycles the addressing mode still consumes. -/
def addrTicks (opcode : BitVec 8) (k : Nat) : Nat :=
  match addrtable opcode with
  | .imp | .acc | .imm | .rel => 0
  | .ind | .abin | .zprel => addrStates (addrtable opcode) - 1 - k
  | .abso => if opcode = 0x20 then 0 else if opcode = 0x4C then 1 - k else 2 - k
  | mode => addrStates mode - k

/-- At most this many cycles to the next opcode fetch. Before the address is known a
page crossing is assumed, which saves the penalty cycle of the handler. -/
def Ctl.ticksLeft (c : Ctl) : Nat :=
  match c.opState with
  | .opcode => 0
  | .param0 | .param1 | .param2 | .param3 | .param4 =>
    addrTicks c.opcode c.opState.idx + opTicks (optable c.opcode) (addrtable c.opcode) true 0
  | .op0 | .op1 | .op2 | .op3 | .op4 =>
    opTicks (optable c.opcode) (addrtable c.opcode) c.pageBoundary c.opState.idx
  | _ => 7 - c.opState.idx

/-- At most this many handler calls to the end of the cycle. -/
def Ctl.callsLeft (c : Ctl) : Nat :=
  match c.opState with
  | .param0 | .param1 | .param2 | .param3 | .param4 => 3
  | .op0 => 2
  | _ => 1

/-! ## Requests of a cycle -/

/-- The requests of the rest of the cycle, read off the first outcome of each handler. -/
def Ctl.requests : Nat → Ctl → Nat
  | 0, _ => 0
  | n + 1, c =>
    match outcomes c with
    | [] => 0
    | o :: _ => o.requests + if o.consumes then 0 else (c.after o).requests n

/-- The cycles without a bus request: the last one of a `nop` with an operand, and the
decimal one of `adc` and `sbc`. -/
def Ctl.idleCycle (c : Ctl) : Bool :=
  (optable c.opcode == .nop && addrtable c.opcode != .imp &&
      (c.opState == .op0 || c.opState == .param0 && addrtable c.opcode == .imm)) ||
    ((optable c.opcode == .adc || optable c.opcode == .sbc) && c.opState == .op1)

/-! ## The finite check -/

/-- What one handler call preserves and decreases. -/
def Ctl.progresses (c : Ctl) : Bool :=
  (outcomes c).all fun o =>
    let c' := c.after o
    c'.ok && (c.requests 3 == o.requests + if o.consumes then 0 else c'.requests 3) &&
      o.next != .vec0 && (c.opState == .vec0 || o.next != .vec1) &&
      if o.consumes then c'.fresh && decide (c'.ticksLeft < c.ticksLeft)
      else c'.opState != .opcode && decide (c'.ticksLeft ≤ c.ticksLeft) &&
        decide (c'.callsLeft < c.callsLeft)

/-- The states whose handler depends on the opcode. -/
def instrStates : List OpState :=
  [.param0, .param1, .param2, .param3, .param4, .op0, .op1, .op2, .op3, .op4]

/-- The states of the addressing modes. -/
def paramStates : List OpState := [.param0, .param1, .param2, .param3, .param4]

/-- The states of the opcode handlers. -/
def handlerStates : List OpState := [.op0, .op1, .op2, .op3, .op4]

theorem progresses_table :
    ∀ opcode : BitVec 8, ∀ pb : Bool, ∀ s ∈ instrStates, Ctl.ok ⟨opcode, s, pb⟩ = true →
      Ctl.progresses ⟨opcode, s, pb⟩ = true := by
  decide +kernel

theorem requests_table :
    ∀ opcode : BitVec 8, ∀ pb : Bool, ∀ s ∈ instrStates, Ctl.fresh ⟨opcode, s, pb⟩ = true →
      Ctl.requests 3 ⟨opcode, s, pb⟩ = if Ctl.idleCycle ⟨opcode, s, pb⟩ then 0 else 1 := by
  decide +kernel

theorem fetch_table :
    ∀ opcode : BitVec 8, ∀ pb : Bool, Ctl.fresh ⟨opcode, .param0, pb⟩ = true ∧
      Ctl.ticksLeft ⟨opcode, .param0, pb⟩ ≤ 6 := by
  decide +kernel

theorem Ctl.progresses_of_ok (c : Ctl) (h : c.ok = true) (hs : c.opState ≠ .opcode) :
    c.progresses = true := by
  obtain ⟨opcode, s, pb⟩ := c
  cases s
  case opcode => exact absurd rfl hs
  case vec0 | vec1 | vec2 | vec3 | vec4 | vec5 | vec6 => rfl
  all_goals exact progresses_table opcode pb _ (by decide) h

theorem Ctl.requests_of_fresh (c : Ctl) (h : c.fresh = true) (hs : c.opState ≠ .opcode) :
    c.requests 3 = if c.idleCycle then 0 else 1 := by
  obtain ⟨opcode, s, pb⟩ := c
  cases s
  case opcode => exact absurd rfl hs
  case vec0 | vec1 | vec2 | vec3 | vec4 | vec5 | vec6 => simp [requests, outcomes, vecOutcomes, cycleTo, idleCycle]
  all_goals exact requests_table opcode pb _ (by decide) h

/-- `progresses`, read as propositions. -/
theorem Ctl.outcome_progress (c : Ctl) (h : c.ok = true) (hs : c.opState ≠ .opcode) (o : Outcome)
    (ho : o ∈ outcomes c) :
    (c.after o).ok = true ∧ o.next ≠ .vec0 ∧ (o.next = .vec1 → c.opState = .vec0) ∧
    (o.consumes = true → c.requests 3 = o.requests ∧ (c.after o).fresh = true ∧
      (c.after o).ticksLeft < c.ticksLeft) ∧
    (o.consumes = false → c.requests 3 = o.requests + (c.after o).requests 3 ∧
      (c.after o).opState ≠ .opcode ∧ (c.after o).ticksLeft ≤ c.ticksLeft ∧
      (c.after o).callsLeft < c.callsLeft) := by
  have hp := List.all_eq_true.mp (c.progresses_of_ok h hs) o ho
  have hvec : o.next = .vec1 → c.opState = .vec0 := by
    intro hnext
    by_cases h0 : c.opState = .vec0
    · exact h0
    · simp [hnext, h0] at hp
  cases hc : o.consumes <;> simp_all

/-! ## The cycle as a program -/

/-- Handler calls until one consumes the cycle, at most `n` of them. -/
def cycleFrom : Nat → Cpu → BusM Cpu
  | 0, cpu => return cpu
  | n + 1, cpu => do
    let cpu ← handler cpu
    if cpu.cycleConsumed then return cpu else cycleFrom n cpu

/-- The loop of `cpu_tick` past the opcode fetch. -/
def cycle (cpu : Cpu) : BusM Cpu := cycleFrom 3 cpu

/-- Where a cycle from `cpu` leaves the CPU. -/
structure CycleEnd (cpu cpu' : Cpu) : Prop where
  consumed : cpu'.cycleConsumed = true
  opcode : cpu'.opcode = cpu.opcode
  fresh : cpu'.ctl.fresh = true
  ticksLeft : cpu'.ctl.ticksLeft < cpu.ctl.ticksLeft
  -- The vector sequence is not begun in the middle of an instruction.
  vec0 : cpu'.opState ≠ .vec0
  vec1 : cpu'.opState = .vec1 → cpu.opState = .vec0

theorem Ctl.callsLeft_pos (c : Ctl) : 0 < c.callsLeft := by
  unfold Ctl.callsLeft
  split <;> decide

/-- A cycle ends within the handler calls that it has left, with its requests: each handler consumes the
cycle or leaves a state of the same opcode with fewer calls left. -/
theorem cycleFrom_endsFrom (n k : Nat) (cpu : Cpu) (hok : cpu.ctl.ok = true)
    (hs : cpu.opState ≠ .opcode) (hcons : cpu.cycleConsumed = false)
    (hn : cpu.ctl.callsLeft ≤ n) :
    Prog.EndsFrom (fun m cpu' => m = k + cpu.ctl.requests 3 ∧ CycleEnd cpu cpu') k
      (cycleFrom n cpu) := by
  induction n generalizing k cpu with
  | zero =>
    have := cpu.ctl.callsLeft_pos
    omega
  | succ n ih =>
    refine Prog.EndsFrom.bind ((handler_fits cpu hs).shift k) ?_
    rintro m cpu₁ ⟨m₁, rfl, o, ho, hfit⟩
    obtain ⟨hok₁, hvec0, hvec1, hclosed, hopen⟩ := cpu.ctl.outcome_progress hok hs o ho
    have hnext : cpu₁.opState = o.next := congrArg Ctl.opState hfit.ctl
    rw [← hnext] at hvec0 hvec1
    have hcons₁ : cpu₁.cycleConsumed = o.consumes := by rw [hfit.consumed, hcons, Bool.false_or]
    rw [← hfit.ctl] at hok₁ hclosed hopen
    have hopcode : cpu₁.opcode = cpu.opcode := congrArg Ctl.opcode hfit.ctl
    have hreq₁ := hfit.requests
    cases hc : o.consumes with
    | true =>
      obtain ⟨hreq, hfresh, hticks⟩ := hclosed hc
      simp only [hcons₁, hc, if_true]
      exact ⟨by omega, hcons₁.trans hc, hopcode, hfresh, hticks, hvec0, hvec1⟩
    | false =>
      obtain ⟨hreq, hs₁, hticks, hcalls⟩ := hopen hc
      simp only [hcons₁, hc, Bool.false_eq_true, if_false]
      refine (ih (k + m₁) cpu₁ hok₁ hs₁ (hcons₁.trans hc) (by omega)).mono ?_
      rintro m' cpu' ⟨hm', hend⟩
      exact ⟨by omega, hend.consumed, hend.opcode.trans hopcode, hend.fresh,
        Nat.lt_of_lt_of_le hend.ticksLeft hticks, hend.vec0, fun h => absurd (hend.vec1 h) hvec0⟩

theorem Ctl.ok_of_fresh {c : Ctl} (h : c.fresh = true) : c.ok = true := by
  unfold Ctl.fresh at h
  exact (Bool.and_eq_true_iff.mp h).1

theorem Ctl.callsLeft_le (c : Ctl) : c.callsLeft ≤ 3 := by
  unfold Ctl.callsLeft
  split <;> decide

/-- A cycle from a state a tick can start in: it ends, in such a state again, nearer to
the next opcode fetch, after one bus request or none. -/
theorem cycle_ends (cpu : Cpu) (hfresh : cpu.ctl.fresh = true) (hs : cpu.opState ≠ .opcode)
    (hcons : cpu.cycleConsumed = false) :
    Prog.Ends (fun m cpu' => m = (if cpu.ctl.idleCycle then 0 else 1) ∧ CycleEnd cpu cpu')
      (cycle cpu) := by
  have h := cycleFrom_endsFrom 3 0 cpu (Ctl.ok_of_fresh hfresh) hs hcons cpu.ctl.callsLeft_le
  rw [cpu.ctl.requests_of_fresh hfresh hs, Nat.zero_add] at h
  exact h

/-! ## `cpu_tick` runs a cycle -/

variable {ω : Type}

theorem cpuTickLoop_of_consumed (fuel : Nat) (emu : Emu ω) (h : emu.cpu.cycleConsumed = true) :
    cpuTickLoop (fuel + 1) emu = some emu := by
  simp [cpuTickLoop, h]

theorem cpuTickLoop_succ (fuel : Nat) (emu : Emu ω) (h : emu.cpu.cycleConsumed = false) :
    cpuTickLoop (fuel + 1) emu = cpuTickLoop fuel (cpuTickBody emu) := by
  simp [cpuTickLoop, h]

/-- What a handler run on the bus leaves in the CPU. -/
theorem handler_result (cpu : Cpu) (bus : Bus ω) (hs : cpu.opState ≠ .opcode) :
    ∃ o ∈ outcomes cpu.ctl, ((handler cpu).run busEnv bus).1.ctl = cpu.ctl.after o ∧
      ((handler cpu).run busEnv bus).1.cycleConsumed = (cpu.cycleConsumed || o.consumes) := by
  have h : Prog.Ends (fun _ (cpu' : Cpu) => ∃ o ∈ outcomes cpu.ctl, cpu'.ctl = cpu.ctl.after o ∧
      cpu'.cycleConsumed = (cpu.cycleConsumed || o.consumes)) (handler cpu) :=
    Prog.Ends.mono (handler_fits cpu hs) fun n cpu' ⟨o, ho, hfit⟩ => ⟨o, ho, hfit.ctl, hfit.consumed⟩
  exact h.result busEnv bus

theorem call_cycleFrom_succ (n : Nat) (emu : Emu ω) :
    emu.call (cycleFrom (n + 1) emu.cpu) =
      if (emu.call (handler emu.cpu)).cpu.cycleConsumed then emu.call (handler emu.cpu)
      else (emu.call (handler emu.cpu)).call (cycleFrom n (emu.call (handler emu.cpu)).cpu) := by
  simp only [Emu.call, cycleFrom, Prog.run_bind]
  split <;> simp [*]

/-- The loop of `cpu_tick` is one run of the cycle program. -/
theorem cpuTickLoop_cycleFrom (n fuel : Nat) (emu : Emu ω) (hok : emu.cpu.ctl.ok = true)
    (hs : emu.cpu.opState ≠ .opcode) (hcons : emu.cpu.cycleConsumed = false)
    (hn : emu.cpu.ctl.callsLeft ≤ n) (hfuel : n < fuel) :
    cpuTickLoop fuel emu = some (emu.call (cycleFrom n emu.cpu)) := by
  induction n generalizing fuel emu with
  | zero =>
    have := emu.cpu.ctl.callsLeft_pos
    omega
  | succ n ih =>
    obtain ⟨fuel, rfl⟩ : ∃ f, fuel = f + 1 := ⟨fuel - 1, by omega⟩
    obtain ⟨o, ho, hctl, hcons₁⟩ := handler_result emu.cpu emu.bus hs
    obtain ⟨hok₁, -, -, -, hopen⟩ := emu.cpu.ctl.outcome_progress hok hs o ho
    rw [hcons, Bool.false_or] at hcons₁
    rw [← hctl] at hok₁ hopen
    have hbody : cpuTickBody emu = emu.call (handler emu.cpu) := by simp [cpuTickBody, hs]
    rw [cpuTickLoop_succ fuel emu hcons, hbody, call_cycleFrom_succ]
    cases hc : o.consumes with
    | true =>
      have hdone : (emu.call (handler emu.cpu)).cpu.cycleConsumed = true := hcons₁.trans hc
      obtain ⟨f, rfl⟩ : ∃ f, fuel = f + 1 := ⟨fuel - 1, by omega⟩
      rw [cpuTickLoop_of_consumed f _ hdone]
      rw [if_pos hdone]
    | false =>
      obtain ⟨-, hs₁, -, hcalls⟩ := hopen hc
      have hgoes : (emu.call (handler emu.cpu)).cpu.cycleConsumed = false := hcons₁.trans hc
      have hn₁ : (emu.call (handler emu.cpu)).cpu.ctl.callsLeft ≤ n :=
        Nat.le_of_lt_succ (Nat.lt_of_lt_of_le hcalls hn)
      rw [if_neg (by simp [hgoes])]
      exact ih fuel (emu.call (handler emu.cpu)) hok₁ hs₁ hgoes hn₁ (by omega)

/-- The start of an interrupt sequence. -/
def Cpu.beginVector (cpu : Cpu) (src : VecSrc) : Cpu := { cpu with vecSrc := src, opState := .vec0 }

/-- The requests of one tick with RDY not held, the votes at its start being `v`. -/
def tickProg (v : SigVotes) (cpu : Cpu) : BusM Cpu :=
  if cpu.opState = .opcode then
    if v.nmiEdgePending then vector (cpu.beginVector .nmi)
    else if irqTaken v cpu.regs then vector (cpu.beginVector .irq)
    else fetch cpu
  else cycle cpu

theorem tickProg_inside (v : SigVotes) (cpu : Cpu) (hs : cpu.opState ≠ .opcode) :
    tickProg v cpu = cycle cpu := if_neg hs

/-- At an instruction boundary the tick leaves no NMI edge pending before its bus request. -/
def Bus.ackNmi (bus : Bus ω) (cpu : Cpu) : Bus ω :=
  if cpu.opState = .opcode then { bus with sigvotes.nmiEdgePending := false } else bus

/-- `cpu_tick` as a total function. -/
def Emu.tick (emu : Emu ω) : Emu ω :=
  let cpu := emu.cpu.clearCycle
  if emu.bus.sigvotes.rdy ≠ 0 then { bus := busReplay emu.bus, cpu }
  else
    let emu' := Emu.call { bus := emu.bus.ackNmi cpu, cpu } (tickProg emu.bus.sigvotes cpu)
    { emu' with cpu := emu'.cpu.clearCycle }

@[simp] theorem Cpu.clearCycle_opState (cpu : Cpu) : cpu.clearCycle.opState = cpu.opState := rfl
@[simp] theorem Cpu.clearCycle_regs (cpu : Cpu) : cpu.clearCycle.regs = cpu.regs := rfl
@[simp] theorem Cpu.clearCycle_ctl (cpu : Cpu) : cpu.clearCycle.ctl = cpu.ctl := rfl
@[simp] theorem Cpu.clearCycle_cycleConsumed (cpu : Cpu) : cpu.clearCycle.cycleConsumed = false := rfl

theorem Cpu.clearCycle_of_clear {cpu : Cpu} (h : cpu.cycleConsumed = false) :
    cpu.clearCycle = cpu := by
  obtain ⟨_, _, _, _, _, _, _, _, _, _, cc⟩ := cpu
  obtain rfl : cc = false := h
  rfl

theorem Bus.ackNmi_of_not_pending (bus : Bus ω) (cpu : Cpu)
    (h : bus.sigvotes.nmiEdgePending = false) : bus.ackNmi cpu = bus := by
  obtain ⟨cl, tl, ⟨al, irq, nmi, rdy, be, pending⟩, lo, d, tr, n⟩ := bus
  obtain rfl : pending = false := h
  unfold Bus.ackNmi
  split <;> rfl

/-- The first cycle of an interrupt sequence. -/
theorem cpuTickLoop_vec0 (fuel : Nat) (emu : Emu ω) (hs : emu.cpu.opState = .vec0)
    (hcons : emu.cpu.cycleConsumed = false) :
    cpuTickLoop (fuel + 2) emu = some (emu.call (vector emu.cpu)) := by
  have hbody : cpuTickBody emu = emu.call (vector emu.cpu) := by
    simp [cpuTickBody, handler, hs]
  have hdone : (emu.call (vector emu.cpu)).cpu.cycleConsumed = true := by
    simp [Emu.call, vector, hs, advanceState]
  rw [cpuTickLoop_succ _ _ hcons, hbody, cpuTickLoop_of_consumed _ _ hdone]

theorem cpuTickLoop_tickProg (fuel : Nat) (emu : Emu ω) (hfresh : emu.cpu.ctl.fresh = true)
    (hcons : emu.cpu.cycleConsumed = false) :
    cpuTickLoop (fuel + 4) emu =
      some (Emu.call { bus := emu.bus.ackNmi emu.cpu, cpu := emu.cpu }
        (tickProg emu.bus.sigvotes emu.cpu)) := by
  by_cases hs : emu.cpu.opState = .opcode
  · rw [cpuTickLoop_succ _ _ hcons]
    cases hn : emu.bus.sigvotes.nmiEdgePending with
    | true =>
      -- a pending edge: two calls, the choice of the vector and its first cycle
      have hbody : cpuTickBody emu =
          { bus := emu.bus.ackNmi emu.cpu, cpu := emu.cpu.beginVector .nmi } := by
        simp [cpuTickBody, hs, hn, Bus.ackNmi, Cpu.beginVector]
      have hvec := cpuTickLoop_vec0 (fuel + 1)
        { bus := emu.bus.ackNmi emu.cpu, cpu := emu.cpu.beginVector .nmi } rfl hcons
      rw [hbody, hvec]
      simp [tickProg, hs, hn, Emu.call]
    | false =>
      rw [Bus.ackNmi_of_not_pending _ _ hn]
      by_cases hirq : irqTaken emu.bus.sigvotes emu.cpu.regs = true
      -- the same for an IRQ
      · have hbody : cpuTickBody emu = { emu with cpu := emu.cpu.beginVector .irq } := by
          simp [cpuTickBody, hs, hn, hirq, Cpu.beginVector]
        have hvec := cpuTickLoop_vec0 (fuel + 1)
          { emu with cpu := emu.cpu.beginVector .irq } rfl hcons
        rw [hbody, hvec]
        simp [tickProg, hs, hn, hirq, Emu.call]
      -- one call, the fetch
      · have hbody : cpuTickBody emu = emu.call (fetch emu.cpu) := by
          simp [cpuTickBody, hs, hn, hirq]
        have hdone : (emu.call (fetch emu.cpu)).cpu.cycleConsumed = true := by
          simp [Emu.call, fetch]
        rw [hbody, cpuTickLoop_of_consumed _ _ hdone]
        simp [tickProg, hs, hn, hirq]
  · rw [cpuTickLoop_cycleFrom 3 (fuel + 4) emu (Ctl.ok_of_fresh hfresh) hs hcons
      (Ctl.callsLeft_le _) (by omega)]
    simp [tickProg, hs, Bus.ackNmi, cycle]

/-- From a state a tick can start in, `cpu_tick` ends, after at most three handler calls. -/
theorem cpuTick_eq (fuel : Nat) (emu : Emu ω) (hfresh : emu.cpu.ctl.fresh = true) :
    cpuTick (fuel + 4) emu = some emu.tick := by
  unfold cpuTick Emu.tick
  by_cases hrdy : emu.bus.sigvotes.rdy = 0
  · have hloop := cpuTickLoop_tickProg fuel { emu with cpu := emu.cpu.clearCycle } hfresh rfl
    simp only [hrdy, ne_eq, not_true, if_false, hloop, Option.map_some]
  · simp only [hrdy, ne_eq, not_false_eq_true, if_true]

theorem cpuTickLoop_mono (fuel k : Nat) (emu emu' : Emu ω) (h : cpuTickLoop fuel emu = some emu') :
    cpuTickLoop (fuel + k) emu = some emu' := by
  induction fuel generalizing emu with
  | zero => simp [cpuTickLoop] at h
  | succ fuel ih =>
    rw [Nat.add_right_comm]
    cases hc : emu.cpu.cycleConsumed with
    | true =>
      rw [cpuTickLoop_of_consumed _ _ hc] at h ⊢
      exact h
    | false =>
      rw [cpuTickLoop_succ _ _ hc] at h ⊢
      exact ih (cpuTickBody emu) h

theorem cpuTick_mono (fuel k : Nat) (emu emu' : Emu ω) (h : cpuTick fuel emu = some emu') :
    cpuTick (fuel + k) emu = some emu' := by
  unfold cpuTick at h ⊢
  by_cases hrdy : emu.bus.sigvotes.rdy = 0
  · simp only [hrdy, ne_eq, not_true, if_false, Option.map_eq_some_iff] at h ⊢
    obtain ⟨e, he, rfl⟩ := h
    exact ⟨e, cpuTickLoop_mono fuel k _ e he, rfl⟩
  · simpa only [hrdy, ne_eq, not_false_eq_true, if_true] using h

/-- Whatever the fuel, a tick that ends is `Emu.tick`. -/
theorem eq_tick_of_cpuTick {fuel : Nat} {emu emu' : Emu ω} (hfresh : emu.cpu.ctl.fresh = true)
    (h : cpuTick fuel emu = some emu') : emu' = emu.tick := by
  have hmono := cpuTick_mono fuel 4 emu emu' h
  rw [cpuTick_eq fuel emu hfresh] at hmono
  exact (Option.some.inj hmono).symm

/-! ## What a tick leaves -/

/-- Where a tick with RDY not held leaves the CPU. -/
structure TickEnd (cpu cpu' : Cpu) : Prop where
  fresh : cpu'.ctl.fresh = true
  started : cpu.opState = .opcode → cpu'.ctl.ticksLeft ≤ 6
  nearer : cpu.opState ≠ .opcode → cpu'.ctl.ticksLeft < cpu.ctl.ticksLeft

theorem vec0_ends (cpu : Cpu) (hs : cpu.opState = .opcode) (src : VecSrc) :
    Prog.Ends (fun m cpu' => m = 1 ∧ TickEnd cpu cpu') (vector (cpu.beginVector src)) := by
  simp only [vector, Cpu.beginVector, BusM.read_bind, Prog.pure_eq, Prog.Ends, Prog.endsFrom_ask,
    Prog.endsFrom_done]
  intro r
  exact ⟨trivial, rfl, fun _ => Nat.le_refl 6, fun h => absurd hs h⟩

theorem fetch_ends (cpu : Cpu) (hs : cpu.opState = .opcode) :
    Prog.Ends (fun m cpu' => m = 1 ∧ TickEnd cpu cpu') (fetch cpu) := by
  simp only [fetch, BusM.syncRead_bind, Prog.pure_eq, Prog.Ends, Prog.endsFrom_ask,
    Prog.endsFrom_done]
  intro opcode
  obtain ⟨hfresh, hticks⟩ := fetch_table opcode cpu.pageBoundary
  exact ⟨trivial, hfresh, fun _ => hticks, fun h => absurd hs h⟩

theorem tickProg_ends (v : SigVotes) (cpu : Cpu) (hfresh : cpu.ctl.fresh = true)
    (hcons : cpu.cycleConsumed = false) :
    Prog.Ends (fun m cpu' => m = (if cpu.ctl.idleCycle then 0 else 1) ∧ TickEnd cpu cpu')
      (tickProg v cpu) := by
  unfold tickProg
  by_cases hs : cpu.opState = .opcode
  · have hidle : cpu.ctl.idleCycle = false := by simp [Ctl.idleCycle, Cpu.ctl, hs]
    simp only [if_pos hs, hidle, Bool.false_eq_true, if_false]
    split
    · exact vec0_ends cpu hs .nmi
    · split
      · exact vec0_ends cpu hs .irq
      · exact fetch_ends cpu hs
  · rw [if_neg hs]
    refine Prog.Ends.mono (cycle_ends cpu hfresh hs hcons) ?_
    rintro m cpu' ⟨hm, hend⟩
    exact ⟨hm, hend.fresh, fun h => absurd h hs, fun _ => hend.ticksLeft⟩

theorem tick_stalled (emu : Emu ω) (h : emu.bus.sigvotes.rdy ≠ 0) :
    emu.tick = { bus := busReplay emu.bus, cpu := emu.cpu.clearCycle } := by
  simp only [Emu.tick, if_pos h]

/-- The run of a tick with RDY not held. -/
def Emu.tickRun (emu : Emu ω) : Cpu × Bus ω :=
  (tickProg emu.bus.sigvotes emu.cpu.clearCycle).run busEnv (emu.bus.ackNmi emu.cpu)

theorem tick_unstalled (emu : Emu ω) (h : emu.bus.sigvotes.rdy = 0) :
    emu.tick = { bus := emu.tickRun.2, cpu := emu.tickRun.1.clearCycle } := by
  simp only [Emu.tick, h, ne_eq, not_true, if_false]
  rfl

theorem clear_tick (emu : Emu ω) : emu.tick.cpu.cycleConsumed = false := by
  by_cases hrdy : emu.bus.sigvotes.rdy = 0
  · rw [tick_unstalled emu hrdy]
    rfl
  · rw [tick_stalled emu hrdy]
    rfl

/-- What every transaction and the start of an NMI sequence keep, a tick keeps, stalled or not. -/
theorem Bus.Kept.tick {I : Bus ω → Prop} (hI : Bus.Kept I) {emu : Emu ω} (h : I emu.bus)
    (hack : I (emu.bus.ackNmi emu.cpu)) : I emu.tick.bus := by
  by_cases hrdy : emu.bus.sigvotes.rdy = 0
  · rw [tick_unstalled emu hrdy]
    exact hI.run hack _
  · rw [tick_stalled emu hrdy]
    exact hI.replay h

theorem tickEnd_tick (emu : Emu ω) (hfresh : emu.cpu.ctl.fresh = true)
    (hrdy : emu.bus.sigvotes.rdy = 0) : TickEnd emu.cpu emu.tick.cpu := by
  have hends := Prog.Ends.mono (tickProg_ends emu.bus.sigvotes emu.cpu.clearCycle hfresh rfl)
    fun _ _ h => h.2
  have h := Prog.Ends.result hends busEnv (emu.bus.ackNmi emu.cpu)
  rw [tick_unstalled emu hrdy]
  exact ⟨h.fresh, h.started, h.nearer⟩

theorem fresh_tick (emu : Emu ω) (hfresh : emu.cpu.ctl.fresh = true) :
    emu.tick.cpu.ctl.fresh = true := by
  by_cases hrdy : emu.bus.sigvotes.rdy = 0
  · exact (tickEnd_tick emu hfresh hrdy).fresh
  · rw [tick_stalled emu hrdy]
    exact hfresh

end Cb6502
