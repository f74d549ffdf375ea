import Cb6502.IsaSteps

/- The cycles of every instruction. The data of an instruction decides about its cycles in three
   places only (`Choices`), so the states it goes through are a walk over the control skeleton
   (`Ctl.advance`) whose length is a finite check (`walk_table`). The page-crossing flag is
   set by the indexed modes and cleared by nothing; once it is set, a store or an increment that
   stays in its page loses its penalty cycle.

   What is proved:
   1. `walk_ends`: the length of the walk is the sum of the documented terms.
   2. `chosen_handler`: every handler call takes the step of the walk that the data chooses.
   3. `InstructionRun.cycles`: the unstalled ticks of every instruction, and the flag after it. -/
namespace Cb6502
open Dialogue

variable {ω : Type} {R : Ram ω}

/-! ## The walk over the skeleton -/

/-- What the data of an instruction decides: whether the index carries the address into another
page, whether the branch is taken or the sum adjusted, and whether the branch leaves its page. -/
structure Choices where
  crosses : Bool
  more : Bool
  leaves : Bool
  deriving DecidableEq

/-- The choice made in a state. -/
def Choices.at (ch : Choices) : OpState → Bool
  | .op0 => ch.more
  | .op1 => ch.leaves
  | _ => ch.crosses

/-- The outcome that the data chooses. -/
def Ctl.chosen (ch : Choices) (c : Ctl) : Outcome :=
  match outcomes c with
  | [yes, no] => if ch.at c.opState then yes else no
  | o :: _ => o
  | [] => stuckIn c.opState

/-- One handler call of the walk, with the cycles consumed so far. -/
def Ctl.advance (ch : Choices) (p : Nat × Ctl) : Nat × Ctl :=
  if p.2.opState = .opcode then p
  else (p.1 + (p.2.chosen ch).consumes.toNat, p.2.after (p.2.chosen ch))

/-- An instruction has at most this many handler calls. -/
def maxCalls : Nat := 10

/-! ## The documented terms -/

/-- The cycles of an instruction that reads its operand in the mode, the fetch included. -/
def AddrMode.cycles : AddrMode → Nat
  | .imp | .acc | .imm | .rel => 2
  | .zp => 3
  | .zpx | .zpy | .abso | .absx | .absy => 4
  | .indy | .indz | .zprel => 5
  | .indx | .ind | .abin => 6

/-- The cycles that the operation takes besides. -/
def Op.extraCycles (op : Op) (mode : AddrMode) : Nat :=
  match op with
  | .asl | .lsr | .rol | .ror | .inc | .dec | .trb | .tsb | .rmb | .smb => if mode = .acc then 0 else 2
  | .jsr => 2
  | .rts | .rti => 4
  | .ph => 1
  | .pl => 2
  | _ => 0

/-- The instruction takes the cycle of a page crossing whether its address crosses or not. -/
def Op.penalised (op : Op) (mode : AddrMode) : Bool :=
  match op with
  | .sta => mode = .absx || mode = .absy || mode = .indy
  | .stx | .sty | .stz => mode = .absx || mode = .absy
  | .inc | .dec => mode = .absx
  | _ => false

/-- The cycles of an instruction other than BRK; `pageBoundary` is the page-crossing flag at its
fetch. -/
def opcodeCycles (opcode : BitVec 8) (ch : Choices) (pageBoundary : Bool) : Nat :=
  let op := optable opcode
  let mode := addrtable opcode
  let index := if ch.crosses then 1 else if op.penalised mode && !pageBoundary then 1 else 0
  let jump := if opcode = 0x4C then 1 else 0
  mode.cycles + op.extraCycles mode + index + ch.more.toNat + ch.leaves.toNat - jump

/-- The choices that an instruction can be faced with: no crossing without an index, nothing more
to do but for a branch and a sum, no page to leave but by a branch taken. -/
def Choices.fit (ch : Choices) (opcode : BitVec 8) : Bool :=
  (!ch.crosses || addrtable opcode ∈ [AddrMode.absx, .absy, .indy]) &&
    (!ch.more || optable opcode ∈ [Op.adc, .sbc] || (optable opcode).branches) &&
    (!ch.leaves || ch.more && (optable opcode).branches)

theorem walk_table : ∀ opcode : BitVec 8, optable opcode ≠ .brk → ∀ crosses more leaves pb : Bool,
    Choices.fit ⟨crosses, more, leaves⟩ opcode = true →
    Nat.repeat (Ctl.advance ⟨crosses, more, leaves⟩) maxCalls (1, ⟨opcode, .param0, pb⟩) =
      (opcodeCycles opcode ⟨crosses, more, leaves⟩ pb, ⟨opcode, .opcode, pb || crosses⟩) := by
  decide +kernel

/-- Where the walk ends. -/
theorem walk_ends {opcode : BitVec 8} (hbrk : optable opcode ≠ .brk) {ch : Choices}
    (hfit : ch.fit opcode = true) (pb : Bool) :
    Nat.repeat (Ctl.advance ch) maxCalls (1, ⟨opcode, .param0, pb⟩) =
      (opcodeCycles opcode ch pb, ⟨opcode, .opcode, pb || ch.crosses⟩) := by
  obtain ⟨crosses, more, leaves⟩ := ch
  exact walk_table opcode hbrk crosses more leaves pb hfit

/-! ## The data chooses -/

section
variable (m : Mem) (r : CpuRegs)

/-- The index carries the address of the instruction at `r.pc` into another page. -/
def indexCrosses : Bool :=
  match addrtable (m r.pc) with
  | .absx => page (m.word (r.pc + 1)) != page (m.word (r.pc + 1) + u16 r.x)
  | .absy => page (m.word (r.pc + 1)) != page (m.word (r.pc + 1) + u16 r.y)
  | .indy => page (m.zpWord (m (r.pc + 1))) != page (m.zpWord (m (r.pc + 1)) + u16 r.y)
  | _ => false

/-- The sum of the instruction at `r.pc` is to be adjusted. -/
def adjustsSum : Bool := [Op.adc, .sbc].contains (optable (m r.pc)) && hasFlag flagDecimal r.status

/-- The branch at `r.pc` leaves the page of the instruction behind it. -/
def leavesPage : Bool := page (nextRegs m r).pc != page ((nextRegs m r).pc + branchDistance m r)

def instructionChoices : Choices where
  crosses := indexCrosses m r
  more := branchesAway m r || adjustsSum m r
  leaves := branchesAway m r && leavesPage m r

theorem branches_of_branchesAway (h : branchesAway m r = true) : (optable (m r.pc)).branches = true := by
  unfold branchesAway at h
  cases hop : optable (m r.pc) <;> rw [hop] at h <;> first | rfl | exact absurd h Bool.false_ne_true

theorem indexed_of_crosses (h : indexCrosses m r = true) :
    addrtable (m r.pc) ∈ [AddrMode.absx, .absy, .indy] := by
  unfold indexCrosses at h
  cases hmode : addrtable (m r.pc) <;> rw [hmode] at h
  case absx | absy | indy => decide
  all_goals exact absurd h Bool.false_ne_true

theorem instructionChoices_fit : (instructionChoices m r).fit (m r.pc) = true := by
  have himp : ∀ {a b : Bool}, (a = true → b = true) → (!a || b) = true := by
    intro a b
    cases a <;> cases b <;> decide
  unfold Choices.fit
  rw [Bool.and_eq_true, Bool.and_eq_true, Bool.or_assoc]
  refine ⟨⟨himp fun h => decide_eq_true (indexed_of_crosses m r h), himp fun h => ?_⟩, himp fun h => ?_⟩
  · rcases Bool.or_eq_true_iff.mp h with haway | hsum
    · rw [branches_of_branchesAway m r haway, Bool.or_true]
    · have hmem := List.contains_iff_mem.mp (Bool.and_eq_true_iff.mp hsum).1
      rw [decide_eq_true hmem, Bool.true_or]
  · have haway := (Bool.and_eq_true_iff.mp h).1
    simp only [instructionChoices, haway, Bool.true_or, Bool.true_and]
    exact branches_of_branchesAway m r haway

end

/-- The state behind a handler call that the data chooses, when it chooses yes. -/
def OpState.onYes : OpState → OpState
  | .param1 => .param2
  | .param2 => .param3
  | .op0 => .op1
  | _ => .op2

/-- The handler calls with two outcomes. -/
def Ctl.decides (c : Ctl) : Bool :=
  (c.opState == .param1 && [AddrMode.absx, .absy].contains (addrtable c.opcode)) ||
    (c.opState == .param2 && addrtable c.opcode == .indy) ||
    (c.opState == .op0 && ([Op.adc, .sbc].contains (optable c.opcode) || (optable c.opcode).branches)) ||
    (c.opState == .op1 && (optable c.opcode).branches)

/-- One outcome, or two that the next state tells apart. -/
def Ctl.decided (c : Ctl) : Bool :=
  match outcomes c with
  | [_] => true
  | [yes, no] => c.decides && yes.next == c.opState.onYes && no.next != c.opState.onYes
  | _ => false

theorem decided_table : ∀ opcode : BitVec 8, ∀ pb : Bool, ∀ s ∈ instrStates,
    Ctl.decided ⟨opcode, s, pb⟩ = true := by
  decide +kernel

/-- The outcome is the chosen one when the state says so. -/
theorem chosen_of_next (ch : Choices) {c : Ctl} {o : Outcome} (hs : c.opState ∈ instrStates)
    (ho : o ∈ outcomes c)
    (hyes : c.decides = true → (o.next = c.opState.onYes ↔ ch.at c.opState = true)) : o = c.chosen ch := by
  have htable : c.decided = true := decided_table c.opcode c.pageBoundary c.opState hs
  unfold Ctl.chosen
  unfold Ctl.decided at htable
  split at htable
  case h_1 o' hout =>
    simp only [hout, List.mem_singleton] at ho ⊢
    exact ho
  case h_2 yes no hout =>
    simp only [Bool.and_eq_true, beq_iff_eq, bne_iff_ne] at htable
    obtain ⟨⟨hdecides, hy⟩, hn⟩ := htable
    have hchoice := hyes hdecides
    simp only [hout, List.mem_cons, List.not_mem_nil, or_false] at ho ⊢
    rcases ho with rfl | rfl
    · rw [if_pos (hchoice.mp hy)]
    · rw [if_neg fun h => hn (hchoice.mpr h)]
  case h_3 => exact absurd htable Bool.false_ne_true

/-! ### The calls with two outcomes -/

section
variable {m : Mem} {r : CpuRegs} {c : Cpu} {s : RamState}

theorem absIndexed_crosses (idx : CpuRegs → BitVec 8) (hmem : s.mem = m) (hs : c.opState = .param1)
    (hat : absIndexedAt m r idx .param1 c) (hidx : idx c.regs = idx r) :
    ((absIndexed idx c).run ramEnv s).1.opState = .param2 ↔
      (page (m.word (r.pc + 1)) != page (m.word (r.pc + 1) + u16 (idx r))) = true := by
  obtain ⟨hpc, hea⟩ := hat
  have hword : c.ea ||| (u16 (s.mem c.regs.pc) <<< 8) = m.word (r.pc + 1) := by
    rw [hea, hmem, hpc]
    rfl
  have hne : ¬c.opState = .param0 := by
    rw [hs]
    decide
  unfold absIndexed
  rw [if_neg hne, if_pos hs, bne_iff_ne, BusM.read_bind, Prog.run_ask]
  simp only [ramEnv, hword, hidx, Prog.run_ite]
  split
  · exact iff_of_true rfl ‹_›
  · exact iff_of_false (by rintro ⟨⟩) ‹_›

theorem indy_crosses (hmem : s.mem = m) (hs : c.opState = .param2) (hat : indyAt m r .param2 c)
    (hy : c.regs.y = r.y) :
    ((indy c).run ramEnv s).1.opState = .param3 ↔
      (page (m.zpWord (m (r.pc + 1))) != page (m.zpWord (m (r.pc + 1)) + u16 r.y)) = true := by
  obtain ⟨hpc, htmp, hea⟩ := hat
  have hword : c.ea ||| (u16 (s.mem c.tmpval) <<< 8) = m.zpWord (m (r.pc + 1)) := by
    rw [hea, hmem, htmp]
    rfl
  rw [bne_iff_ne]
  simp only [indy, hs, BusM.read_bind, Prog.run_ask, ramEnv, hword, hy, Prog.run_ite]
  split
  · exact iff_of_true rfl ‹_›
  · exact iff_of_false (by rintro ⟨⟩) ‹_›

theorem adjusts_iff (hready : HandlerReady m r c s.mem) (hop : optable (m r.pc) = .adc ∨ optable (m r.pc) = .sbc) :
    ((ops (optable (m r.pc)) c).run ramEnv s).1.opState = .op1 ↔ hasFlag flagDecimal r.status = true := by
  have hstatus : c.regs.status = r.status := by rw [hready.regs]
  have hflag : ∀ v, (addWithFlags c v).regs.status &&& flagDecimal ≠ 0 ↔ hasFlag flagDecimal r.status = true := by
    intro v
    rw [addWithFlags_decimal, hstatus]
    exact bne_iff_ne.symm
  rcases hop with hop | hop <;> rw [hop]
  · simp only [ops, adc, hready.state, if_true, Prog.run_bind]
    rw [← hflag ((getvalue c).run ramEnv s).1]
    split
    · exact iff_of_true rfl ‹_›
    · exact iff_of_false (by rintro ⟨⟩) ‹_›
  · simp only [ops, sbc, hready.state, if_true, Prog.run_bind]
    rw [← hflag (((getvalue c).run ramEnv s).1 ^^^ 0x00FF)]
    split
    · exact iff_of_true rfl ‹_›
    · exact iff_of_false (by rintro ⟨⟩) ‹_›

/-- A branch in its second cycle is taken, and about to leave its page or not. -/
def BranchAt (m : Mem) (r : CpuRegs) (c : Cpu) : Prop :=
  (optable (m r.pc)).branches = true → c.opState = .op1 →
    branchesAway m r = true ∧ c.regs.pc = (nextRegs m r).pc ∧ c.reladdr = branchDistance m r

/-- An instruction in the middle of its handler calls. -/
def TimedPhase (m : Mem) (r : CpuRegs) : Cpu → RamState → Prop :=
  PhaseWith m r (fun _ => True) fun c _ => BranchAt m r c

/-- The instructions followed call by call: BRK, JSR and the branches on a flag are not. -/
def Op.followed (op : Op) : Bool := !([Op.brk, .jsr, .bxx, .bra].contains op)

theorem followed_cases {op : Op} (h : op.followed = true) :
    op ≠ .brk ∧ op ≠ .jsr ∧ (op.branches = true → op = .bbr ∨ op = .bbs) := by
  revert h
  cases op <;> decide

theorem timedPhase_handler (hop : (optable (m r.pc)).followed = true) (h : TimedPhase m r c s) :
    TimedPhase m r ((handler c).run ramEnv s).1 ((handler c).run ramEnv s).2 := by
  obtain ⟨hbrk, hjsr, hbits⟩ := followed_cases hop
  have hne : m r.pc ≠ 0x20 := by
    intro h20
    rw [h20] at hjsr
    exact hjsr (by decide)
  refine phaseWith_handler hbrk hne (fun _ _ h => h) ?_ ?_ c s h
  · intro c s hready _ hbranch
    obtain ⟨t, hops, htaken⟩ := bitBranch_handler (hbits hbranch)
    have hmode := branches_table _ (hbits hbranch)
    have hjumps : (optable (m r.pc)).jumps = false := by
      rcases hbits hbranch with h | h <;> rw [h] <;> rfl
    have htest := htaken c (hready.value hmode)
    have hdistance : branchDistance m r = u16 (branchOffset m r) := by
      rw [branchDistance, if_pos hmode]
    rw [hops, hdistance, ← hready.next hjumps, ← htest]
    unfold branch
    rw [hready.state]
    dsimp only
    split
    · exact fun _ => ⟨‹_›, rfl, hready.reladdr hmode⟩
    · rintro ⟨⟩
  · intro c s _ _ hs hbranch
    obtain ⟨t, hops, -⟩ := bitBranch_handler (hbits hbranch)
    rw [hops]
    simp only [List.mem_cons, List.not_mem_nil, or_false] at hs
    rcases hs with hs | hs | hs | hs
    · rw [run_branch_op1 s t hs]
      split <;> rintro ⟨⟩
    · rw [run_branch_op2 s t hs]
      rintro ⟨⟩
    · intro h1
      simp [branch, branchTaken, hs] at h1
    · intro h1
      simp [branch, branchTaken, hs] at h1

/-- Where a handler call has two outcomes, the data chooses. -/
theorem onYes_iff (hop : (optable (m r.pc)).followed = true) (h : TimedPhase m r c s)
    (hdecides : c.ctl.decides = true) :
    ((handler c).run ramEnv s).1.opState = c.opState.onYes ↔
      (instructionChoices m r).at c.opState = true := by
  obtain ⟨hbrk, hjsr, hbits⟩ := followed_cases hop
  have hopcode : c.opcode = m r.pc := by
    rcases h with ⟨h, -⟩ | ⟨h, -⟩
    · exact h.opcode
    · exact h
  simp only [Ctl.decides, Cpu.ctl, hopcode, Bool.or_eq_true, Bool.and_eq_true, beq_iff_eq,
    List.contains_iff_mem, List.mem_cons, List.not_mem_nil, or_false] at hdecides
  have hmodeState : c.opState ∈ paramStates → handler c = addrHandlers (addrtable (m r.pc)) c := by
    intro hs
    rw [handler_params hs, hopcode]
  have hopState : c.opState ∈ handlerStates → handler c = ops (optable (m r.pc)) c := by
    intro hs
    rw [handler_ops hs, hopcode]
  rcases hdecides with ((⟨hs, hmode⟩ | ⟨hs, hmode⟩) | ⟨hs, hcases⟩) | ⟨hs, hbranch⟩
  · -- the index of an absolute mode
    rw [hmodeState (by rw [hs]; decide), hs]
    rcases h with ⟨h, -⟩ | ⟨-, hstate, -⟩
    · rcases h.phase with ⟨-, hat⟩ | ⟨h0, -⟩
      · have hx : c.regs.x = r.x := by rw [h.regs]
        have hy : c.regs.y = r.y := by rw [h.regs]
        rcases hmode with hmode | hmode
        · rw [hmode, hs] at hat
          rw [hmode]
          refine (absIndexed_crosses CpuRegs.x h.mem hs hat hx).trans ?_
          simp only [instructionChoices, Choices.at, indexCrosses, hmode]
        · rw [hmode, hs] at hat
          rw [hmode]
          refine (absIndexed_crosses CpuRegs.y h.mem hs hat hy).trans ?_
          simp only [instructionChoices, Choices.at, indexCrosses, hmode]
      · rw [hs] at h0
        exact absurd h0 (by decide)
    · rw [hs] at hstate
      exact absurd hstate (by decide)
  · -- that of the indirect one
    rw [hmodeState (by rw [hs]; decide), hs]
    rcases h with ⟨h, -⟩ | ⟨-, hstate, -⟩
    · rcases h.phase with ⟨-, hat⟩ | ⟨h0, -⟩
      · have hy : c.regs.y = r.y := by rw [h.regs]
        rw [hmode, hs] at hat
        rw [hmode]
        refine (indy_crosses h.mem hs hat hy).trans ?_
        simp only [instructionChoices, Choices.at, indexCrosses, hmode]
      · rw [hs] at h0
        exact absurd h0 (by decide)
    · rw [hs] at hstate
      exact absurd hstate (by decide)
  · -- the first call of the opcode handler
    rw [hopState (by rw [hs]; decide), hs]
    rcases h with ⟨h, hbytes, -⟩ | ⟨-, hstate, -⟩
    · have hready := handlerReady_of_operand h hs (hbytes hs)
      rcases hcases with hadd | hbranch
      · refine (adjusts_iff hready hadd).trans ?_
        have haway : branchesAway m r = false := by
          unfold branchesAway
          rcases hadd with hadd | hadd <;> rw [hadd]
        have hsum : [Op.adc, .sbc].contains (optable (m r.pc)) = true := by
          rcases hadd with hadd | hadd <;> rw [hadd] <;> rfl
        simp only [instructionChoices, Choices.at, adjustsSum, haway, hsum, Bool.false_or, Bool.true_and]
      · obtain ⟨t, hops, htaken⟩ := bitBranch_handler (hbits hbranch)
        have htest := htaken c (hready.value (branches_table _ (hbits hbranch)))
        have hsum : [Op.adc, .sbc].contains (optable (m r.pc)) = false := by
          rcases hbits hbranch with h | h <;> rw [h] <;> rfl
        simp only [instructionChoices, Choices.at, adjustsSum, hsum, Bool.false_and, Bool.or_false, hops,
          branch, hs, htest]
        split
        · exact iff_of_true rfl ‹_›
        · exact iff_of_false (by rintro ⟨⟩) ‹_›
    · rw [hs] at hstate
      exact absurd hstate (by decide)
  · -- the second cycle of a branch
    rw [hopState (by rw [hs]; decide), hs]
    rcases h with ⟨h, -⟩ | ⟨-, -, hat⟩
    · rcases h.phase with ⟨hparam, -⟩ | ⟨h0, -⟩
      · rw [hs] at hparam
        exact absurd hparam (by decide)
      · exact absurd (h0.symm.trans hs) (by decide)
    · obtain ⟨haway, hpc, hdistance⟩ := hat hbranch hs
      obtain ⟨t, hops, -⟩ := bitBranch_handler (hbits hbranch)
      simp only [instructionChoices, Choices.at, haway, Bool.true_and, leavesPage, bne_iff_ne]
      rw [hops, run_branch_op1 s t hs, hpc, hdistance]
      split
      · exact iff_of_true rfl ‹_›
      · exact iff_of_false (by rintro ⟨⟩) ‹_›

theorem phase_state (h : TimedPhase m r c s) : c.opState = .opcode ∨ c.opState ∈ instrStates := by
  rcases h with ⟨h, -⟩ | ⟨-, hstate, -⟩
  · rcases h.phase with ⟨hs, -⟩ | ⟨hs, -⟩
    · right
      revert hs
      generalize c.opState = s
      revert s
      decide
    · right
      rw [hs]
      decide
  · revert hstate
    generalize c.opState = s
    revert s
    decide

/-- The handler call takes the outcome that the data chooses. -/
theorem chosen_handler (hop : (optable (m r.pc)).followed = true) (h : TimedPhase m r c s)
    (hs : c.opState ≠ .opcode) :
    ((handler c).run ramEnv s).1.ctl = c.ctl.after (c.ctl.chosen (instructionChoices m r)) ∧
      ((handler c).run ramEnv s).1.cycleConsumed =
        (c.cycleConsumed || (c.ctl.chosen (instructionChoices m r)).consumes) := by
  have hends : Prog.Ends (fun _ c' => ∃ o ∈ outcomes c.ctl, c'.ctl = c.ctl.after o ∧
      c'.cycleConsumed = (c.cycleConsumed || o.consumes)) (handler c) :=
    Prog.Ends.mono (handler_fits c hs) fun _ _ ⟨o, ho, hfit⟩ => ⟨o, ho, hfit.ctl, hfit.consumed⟩
  obtain ⟨o, ho, hctl, hcons⟩ := hends.result ramEnv s
  have hnext : ((handler c).run ramEnv s).1.opState = o.next := congrArg Ctl.opState hctl
  have hchosen : o = c.ctl.chosen (instructionChoices m r) := by
    refine chosen_of_next _ ((phase_state h).resolve_left hs) ho fun hdecides => ?_
    rw [← hnext]
    exact onYes_iff hop h hdecides
  rw [← hchosen]
  exact ⟨hctl, hcons⟩

/-! ## Counting the cycles -/

/-- The control state and the cycles consumed, `k` of them in cycles that have ended, are those
of the walk from the fetch on. -/
def Paced (m : Mem) (r : CpuRegs) (pb : Bool) (k : Nat) (c : Cpu) : Prop :=
  ∃ j, (k + c.cycleConsumed.toNat, c.ctl) =
    Nat.repeat (Ctl.advance (instructionChoices m r)) j (1, ⟨m r.pc, .param0, pb⟩)

variable {pb : Bool} {k : Nat}

theorem paced_handler (hop : (optable (m r.pc)).followed = true) (h : TimedPhase m r c s)
    (hc : c.cycleConsumed = false) (hp : Paced m r pb k c) :
    Paced m r pb k ((handler c).run ramEnv s).1 := by
  by_cases hs : c.opState = .opcode
  · rw [handler, hs]
    exact hp
  · obtain ⟨j, hj⟩ := hp
    obtain ⟨hctl, hcons⟩ := chosen_handler hop h hs
    refine ⟨j + 1, ?_⟩
    rw [Nat.repeat, ← hj, hc, hctl, hcons, hc]
    exact (if_neg hs).symm

theorem paced_cycleFrom (hop : (optable (m r.pc)).followed = true) (n : Nat) {c : Cpu} {s : RamState}
    (h : TimedPhase m r c s) (hc : c.cycleConsumed = false) (hp : Paced m r pb k c) :
    TimedPhase m r ((cycleFrom n c).run ramEnv s).1 ((cycleFrom n c).run ramEnv s).2 ∧
      Paced m r pb k ((cycleFrom n c).run ramEnv s).1 := by
  induction n generalizing c s with
  | zero => exact ⟨h, hp⟩
  | succ n ih =>
    have hphase := timedPhase_handler hop h
    have hpaced := paced_handler hop h hc hp
    rw [cycleFrom, Prog.run_bind, Prog.run_ite]
    split
    · exact ⟨hphase, hpaced⟩
    · exact ih hphase (Bool.eq_false_iff.mpr ‹_›) hpaced

/-- A tick past the fetch counts one. -/
theorem paced_cycle (hop : (optable (m r.pc)).followed = true) {c : Core}
    (hfresh : c.cpu.ctl.fresh = true) (hs : c.cpu.opState ≠ .opcode) (hc : c.cpu.cycleConsumed = false)
    (h : TimedPhase m r c.cpu ⟨c.mem, []⟩) (hp : Paced m r pb k c.cpu) :
    TimedPhase m r c.cycle.cpu ⟨c.cycle.mem, []⟩ ∧ Paced m r pb (k + 1) c.cycle.cpu := by
  obtain ⟨hphase, j, hj⟩ := paced_cycleFrom hop 3 h hc hp
  have hends := Prog.Ends.mono (cycle_ends c.cpu hfresh hs hc) fun _ _ h => h.2
  have hconsumed : ((cycle c.cpu).run ramEnv ⟨c.mem, []⟩).1.cycleConsumed = true :=
    (hends.result ramEnv ⟨c.mem, []⟩).consumed
  refine ⟨?_, j, ?_⟩
  · rcases hphase with ⟨h, hbytes, -⟩ | ⟨hopcode, hstate, hX⟩
    · exact .inl ⟨h.clearCycle, fun hs => ⟨(hbytes hs).imm, (hbytes hs).reladdr⟩, trivial⟩
    · exact .inr ⟨hopcode, hstate, hX⟩
  · rw [← hj]
    exact congrArg (fun b : Bool => (k + b.toNat, _)) hconsumed.symm

theorem Core.Reaches.paced (hop : (optable (m r.pc)).followed = true) {n : Nat} {c d : Core}
    (hreach : Core.Reaches n c d) (hfresh : c.cpu.ctl.fresh = true) (hc : c.cpu.cycleConsumed = false)
    (h : TimedPhase m r c.cpu ⟨c.mem, []⟩) (hp : Paced m r pb k c.cpu) : Paced m r pb (k + n) d.cpu := by
  induction hreach generalizing k with
  | done c => exact hp
  | @cycle n c d hs _ ih =>
    have hends := Prog.Ends.mono (cycle_ends c.cpu hfresh hs hc) fun _ _ h => h.2
    obtain ⟨hphase, hpaced⟩ := paced_cycle hop hfresh hs hc h hp
    have hnext := ih (hends.result ramEnv ⟨c.mem, []⟩).fresh rfl hphase hpaced
    rwa [Nat.add_assoc, Nat.add_comm 1 n] at hnext

end

/-- A walk that has come to rest stays there. -/
theorem repeat_of_fixed {α : Type} {f : α → α} {a : α} {i j : Nat} (hij : i ≤ j)
    (hfixed : f (Nat.repeat f i a) = Nat.repeat f i a) : Nat.repeat f j a = Nat.repeat f i a := by
  induction j, hij using Nat.le_induction with
  | base => rfl
  | succ j _ ih => rw [Nat.repeat, ih, hfixed]

/-- At the boundary the walk is over. -/
theorem Paced.ended {m : Mem} {r : CpuRegs} {pb : Bool} {k : Nat} {c : Cpu} (hp : Paced m r pb k c)
    (hbrk : optable (m r.pc) ≠ .brk) (hs : c.opState = .opcode) (hc : c.cycleConsumed = false) :
    k = opcodeCycles (m r.pc) (instructionChoices m r) pb ∧ c.pageBoundary = (pb || indexCrosses m r) := by
  obtain ⟨j, hj⟩ := hp
  have htable := walk_ends hbrk (instructionChoices_fit m r) pb
  have hfixed : ∀ p : Nat × Ctl, p.2.opState = .opcode → Ctl.advance (instructionChoices m r) p = p :=
    fun p hp => if_pos hp
  have hstate : (Nat.repeat (Ctl.advance (instructionChoices m r)) maxCalls
      (1, ⟨m r.pc, .param0, pb⟩)).2.opState = .opcode := by rw [htable]
  have hwalk : (k + c.cycleConsumed.toNat, c.ctl) =
      (opcodeCycles (m r.pc) (instructionChoices m r) pb, ⟨m r.pc, .opcode, pb || indexCrosses m r⟩) := by
    refine Eq.trans ?_ htable
    rcases Nat.le_total j maxCalls with hle | hle
    · rw [hj]
      refine (repeat_of_fixed hle (hfixed _ ?_)).symm
      rw [← hj]
      exact hs
    · rw [hj]
      exact repeat_of_fixed hle (hfixed _ hstate)
  rw [hc] at hwalk
  exact ⟨congrArg Prod.fst hwalk, congrArg (fun p : Nat × Ctl => p.2.pageBoundary) hwalk⟩

/-! ## Every instruction -/

/-- The cycles of the instruction at `r.pc`. -/
def instructionCycles (m : Mem) (r : CpuRegs) (pageBoundary : Bool) : Nat :=
  if optable (m r.pc) = .brk then 7
  else opcodeCycles (m r.pc) (instructionChoices m r) pageBoundary

theorem Branch.ticks_eq (b : Branch) (status : BitVec 8) (next : BitVec 16) (offset : BitVec 8) :
    b.ticks status next offset =
      2 + (b.taken status).toNat +
        (b.taken status && page next != page (next + offset.signExtend 16)).toNat := by
  unfold Branch.ticks
  cases b.taken status with
  | false => rfl
  | true =>
    by_cases hpage : page next = page (next + offset.signExtend 16)
    · rw [if_pos rfl, if_pos hpage, bne_eq_false_iff_eq.mpr hpage]
      rfl
    · rw [if_pos rfl, if_neg hpage, bne_iff_ne.mpr hpage]
      rfl

section
variable {emu e : Emu ω} {n : Nat} (h : Fetches R emu) (hrun : InstructionRun emu n e)
  (he : e.cpu.opState = .opcode)
include h hrun he

theorem InstructionRun.cycles_followed
    (hop : (optable (R.mem emu.bus.devs emu.cpu.regs.pc)).followed = true) :
    n = opcodeCycles (R.mem emu.bus.devs emu.cpu.regs.pc)
        (instructionChoices (R.mem emu.bus.devs) emu.cpu.regs) emu.cpu.pageBoundary ∧
      e.cpu.pageBoundary = (emu.cpu.pageBoundary || indexCrosses (R.mem emu.bus.devs) emu.cpu.regs) := by
  have hfirst : emu.firstCore R = _ := core_tick_fetch (c := emu.core R) h.boundary h.noInt
  have hfetch : (emu.firstCore R).cpu.ctl.fresh = true ∧ (emu.firstCore R).cpu.ctl.ticksLeft ≤ 6 := by
    rw [hfirst]
    exact fetch_table _ _
  obtain ⟨k, d, hreach, hd⟩ := reaches_boundary 6 (emu.firstCore R) hfetch.1 rfl hfetch.2
  obtain ⟨rfl, hcore, -⟩ := hrun.ends h.ram h.boundary he hreach hd
  have hphase : TimedPhase (R.mem emu.bus.devs) emu.cpu.regs (emu.firstCore R).cpu
      ⟨(emu.firstCore R).mem, []⟩ := by
    refine .inl ⟨operand_first h.boundary h.noInt, ?_, trivial⟩
    intro h0
    rw [hfirst] at h0
    exact OpState.noConfusion h0
  have hpaced : Paced (R.mem emu.bus.devs) emu.cpu.regs emu.cpu.pageBoundary 1 (emu.firstCore R).cpu := by
    refine ⟨0, ?_⟩
    rw [hfirst]
    rfl
  have hend := hreach.paced hop hfetch.1 rfl hphase hpaced
  rw [← hcore] at hend
  rw [Nat.add_comm k 1]
  exact hend.ended (followed_cases hop).1 he rfl

theorem InstructionRun.cycles_brk (hop : optable (R.mem emu.bus.devs emu.cpu.regs.pc) = .brk) :
    n = 7 ∧ e.cpu.pageBoundary = emu.cpu.pageBoundary := by
  have hbrk : ∀ opcode : BitVec 8, optable opcode = .brk → opcode = 0x00 := by decide +kernel
  have hfirst : emu.firstCore R = _ := core_tick_fetch (c := emu.core R) h.boundary h.noInt
  have hreach : Core.Reaches 6 (emu.firstCore R) (emu.firstCore R).broken := by
    apply brk_reaches <;> rw [hfirst]
    exact hbrk _ hop
  obtain ⟨hn, hcore, -⟩ := hrun.ends h.ram h.boundary he hreach rfl
  rw [hfirst] at hcore
  exact ⟨hn, congrArg (fun c => c.cpu.pageBoundary) hcore⟩

theorem InstructionRun.cycles_jsr (hop : optable (R.mem emu.bus.devs emu.cpu.regs.pc) = .jsr) :
    n = 6 ∧ e.cpu.pageBoundary = emu.cpu.pageBoundary := by
  have hfirst : emu.firstCore R = _ := core_tick_fetch (c := emu.core R) h.boundary h.noInt
  have hreach : Core.Reaches 5 (emu.firstCore R) (emu.firstCore R).called := by
    apply jsr_reaches <;> rw [hfirst]
    exact jsr_table _ hop
  obtain ⟨hn, hcore, -⟩ := hrun.ends h.ram h.boundary he hreach rfl
  rw [hfirst] at hcore
  exact ⟨hn, congrArg (fun c => c.cpu.pageBoundary) hcore⟩

theorem InstructionRun.cycles_flagBranch
    (hop : optable (R.mem emu.bus.devs emu.cpu.regs.pc) = .bxx ∨
      optable (R.mem emu.bus.devs emu.cpu.regs.pc) = .bra) :
    n = opcodeCycles (R.mem emu.bus.devs emu.cpu.regs.pc)
        (instructionChoices (R.mem emu.bus.devs) emu.cpu.regs) emu.cpu.pageBoundary ∧
      e.cpu.pageBoundary = emu.cpu.pageBoundary := by
  obtain ⟨hmode, b, -, hb⟩ := flagBranch_table _ hop
  have hfirst : emu.firstCore R = _ := core_tick_fetch (c := emu.core R) h.boundary h.noInt
  obtain ⟨k, hticks, hreach⟩ := branch_reaches b (emu.firstCore R) (by rw [hfirst])
    (by rw [hfirst]; exact hb) (by rw [hfirst])
  obtain ⟨hn, hcore, -⟩ := hrun.ends h.ram h.boundary he hreach rfl
  rw [hfirst] at hcore hticks
  refine ⟨?_, congrArg (fun c => c.cpu.pageBoundary) hcore⟩
  have haway := branchesAway_flag (r := emu.cpu.regs) hb
  have hnext : (nextRegs (R.mem emu.bus.devs) emu.cpu.regs).pc = emu.cpu.regs.pc + 1 + 1 := by
    rw [nextRegs, hmode, pc_add_two]
    rfl
  have hdistance : branchDistance (R.mem emu.bus.devs) emu.cpu.regs =
      (R.mem emu.bus.devs (emu.cpu.regs.pc + 1)).signExtend 16 := by
    rw [branchDistance, hmode]
    rfl
  have hplain : ∀ b : Branch, b.opcode ≠ 0x4C ∧ (optable b.opcode).penalised .rel = false ∧
      (optable b.opcode).extraCycles .rel = 0 ∧ [Op.adc, .sbc].contains (optable b.opcode) = false := by
    intro b
    cases b <;> decide
  obtain ⟨hjmp, hpenalty, hextra, hsum⟩ := hplain b
  rw [← hb] at hjmp hpenalty hextra hsum
  have hcross : indexCrosses (R.mem emu.bus.devs) emu.cpu.regs = false := by
    rw [indexCrosses, hmode]
  simp only [opcodeCycles, instructionChoices, adjustsSum, leavesPage, hmode, hjmp, hpenalty, hextra, hsum,
    hcross, haway, hnext, hdistance, AddrMode.cycles, Bool.false_and, Bool.or_false, Bool.false_eq_true,
    if_false, Nat.add_zero, Nat.sub_zero]
  calc n = k + 1 := hn
    _ = b.ticks emu.cpu.regs.status (emu.cpu.regs.pc + 1 + 1)
        (R.mem emu.bus.devs (emu.cpu.regs.pc + 1)) := hticks.symm
    _ = _ := b.ticks_eq _ _ _

theorem InstructionRun.cycles :
    n = instructionCycles (R.mem emu.bus.devs) emu.cpu.regs emu.cpu.pageBoundary ∧
      e.cpu.pageBoundary = (emu.cpu.pageBoundary || indexCrosses (R.mem emu.bus.devs) emu.cpu.regs) := by
  have hstill : ∀ op : Op, op = .brk ∨ op = .jsr ∨ (op = .bxx ∨ op = .bra) ∨ op.followed = true := by
    intro op
    cases op <;> decide
  have hmodes : ∀ opcode : BitVec 8, (optable opcode = .brk → addrtable opcode = .imp) ∧
      (optable opcode = .jsr → addrtable opcode = .abso) := by
    decide +kernel
  unfold instructionCycles
  rcases hstill (optable (R.mem emu.bus.devs emu.cpu.regs.pc)) with hop | hop | hop | hop
  · obtain ⟨hn, hflag⟩ := hrun.cycles_brk h he hop
    have hcross : indexCrosses (R.mem emu.bus.devs) emu.cpu.regs = false := by
      rw [indexCrosses, (hmodes _).1 hop]
    rw [if_pos hop, hcross, Bool.or_false]
    exact ⟨hn, hflag⟩
  · obtain ⟨hn, hflag⟩ := hrun.cycles_jsr h he hop
    have hmode := (hmodes _).2 hop
    have hne : R.mem emu.bus.devs emu.cpu.regs.pc ≠ 0x4C#8 := by
      rw [jsr_table _ hop]
      decide
    have haway : branchesAway (R.mem emu.bus.devs) emu.cpu.regs = false := by rw [branchesAway, hop]
    have hcross : indexCrosses (R.mem emu.bus.devs) emu.cpu.regs = false := by rw [indexCrosses, hmode]
    rw [hop, if_neg (by decide), hcross, Bool.or_false]
    refine ⟨?_, hflag⟩
    simp [hn, opcodeCycles, instructionChoices, adjustsSum, hop, hmode, hne, haway, hcross, AddrMode.cycles,
      Op.extraCycles, Op.penalised]
  · obtain ⟨hn, hflag⟩ := hrun.cycles_flagBranch h he hop
    have hcross : indexCrosses (R.mem emu.bus.devs) emu.cpu.regs = false := by
      rw [indexCrosses, (flagBranch_table _ hop).1]
    have hne : optable (R.mem emu.bus.devs emu.cpu.regs.pc) ≠ .brk := by
      rcases hop with hop | hop <;> rw [hop] <;> decide
    rw [if_neg hne, hcross, Bool.or_false]
    exact ⟨hn, hflag⟩
  · rw [if_neg (followed_cases hop).1]
    exact hrun.cycles_followed h he hop

end

/-- The cycles of every instruction, to the tick. From every boundary on a RAM at which the next
tick fetches, the ticks that are not stalled up to the next boundary are those of the documented
terms: of the mode, of the operation, of the index, of the branch and of decimal mode. The one
hidden influence is the page-crossing flag, which the indexed modes set for good. -/
theorem instruction_cycles {emu : Emu ω} (h : Fetches R emu) {m : Mem} (hm : R.mem emu.bus.devs = m) :
    (∃ n e, InstructionRun emu n e ∧ e.cpu.opState = .opcode) ∧
      ∀ n e, InstructionRun emu n e → e.cpu.opState = .opcode →
        n = instructionCycles m emu.cpu.regs emu.cpu.pageBoundary ∧
        e.cpu.pageBoundary = (emu.cpu.pageBoundary || indexCrosses m emu.cpu.regs) := by
  subst hm
  refine ⟨InstructionRun.exists_boundary h.ram h.boundary h.rdy h.noInt, ?_⟩
  intro n e hrun he
  exact hrun.cycles h he

/-- `STA $1000,X` at `$0200`, with the page-crossing flag as given. -/
def staEmu (pageBoundary : Bool) : Emu Mem :=
  { bus := Bus.init flatRam.conns [] fun addr =>
      if addr = 0x0200 then 0x9D else if addr = 0x0202 then 0x10 else 0x00
    cpu := { regs := { pc := 0x0200, x := 0x01 }, pageBoundary } }

/-- The penalty cycle is lost once the flag is set. -/
theorem instruction_cycles_of_sta :
    (∃ e, InstructionRun (staEmu false) 5 e ∧ e.cpu.opState = .opcode) ∧
      ∃ e, InstructionRun (staEmu true) 4 e ∧ e.cpu.opState = .opcode := by
  have h : ∀ pb, Fetches flatRam (staEmu pb) := fun _ => ⟨⟨rfl, rfl, trivial⟩, rfl, rfl, rfl⟩
  refine ⟨?_, ?_⟩
  · obtain ⟨⟨n, e, hrun, he⟩, hall⟩ := instruction_cycles (h false) rfl
    obtain rfl : n = 5 := (hall n e hrun he).1.trans (by decide)
    exact ⟨e, hrun, he⟩
  · obtain ⟨⟨n, e, hrun, he⟩, hall⟩ := instruction_cycles (h true) rfl
    obtain rfl : n = 4 := (hall n e hrun he).1.trans (by decide)
    exact ⟨e, hrun, he⟩

end Cb6502
