import Cb6502.BitInstructions
import Cb6502.Decimal
import Cb6502.Transactions

/- The read-modify-write instructions. The operand is read and the flags are set in one state of
   the handler, from a result that waits in a 16-bit scratch value for the write two calls
   later; INC and DEC have a state more in front, and the accumulator mode ends where the
   result is known. `rmwResult` and `rmwStatus` are the documented function of the operand,
   and `RmwPhase` is what the calls after it keep: the result waits and nothing is written,
   or it is stored, by the one write of the instruction. -/
namespace Cb6502
open Dialogue

variable {ω : Type} {R : Ram ω}

/-! ## What the instructions are to do -/

def rmwOps : List Op := [.asl, .lsr, .rol, .ror, .inc, .dec, .trb, .tsb]

/-- The byte that `op` makes of `v`. -/
def rmwResult (op : Op) (r : CpuRegs) (v : BitVec 8) : BitVec 8 :=
  match op with
  | .asl => v <<< 1
  | .lsr => v >>> 1
  | .rol => (v <<< 1) ||| if hasFlag flagCarry r.status then 0x01 else 0x00
  | .ror => (v >>> 1) ||| if hasFlag flagCarry r.status then 0x80 else 0x00
  | .inc => v + 1
  | .dec => v - 1
  | .trb => v &&& ~~~r.a
  | .tsb => v ||| r.a
  | _ => v

/-- N and Z from the byte `b`. -/
def nzStatus (status b : BitVec 8) : BitVec 8 := flagIf flagSign b.msb (flagIf flagZero (b == 0) status)

/-- The status after `op` on `v`: C is the bit shifted out, and the Z of TRB and TSB is that of
the bits tested. -/
def rmwStatus (op : Op) (r : CpuRegs) (v : BitVec 8) : BitVec 8 :=
  match op with
  | .asl | .rol => nzStatus (flagIf flagCarry (v.getLsbD 7) r.status) (rmwResult op r v)
  | .lsr | .ror => nzStatus (flagIf flagCarry (v.getLsbD 0) r.status) (rmwResult op r v)
  | .inc | .dec => nzStatus r.status (rmwResult op r v)
  | .trb | .tsb => flagIf flagZero (v &&& r.a == 0) r.status
  | _ => r.status

/-- The instruction has made one write, of the result to `ea`, and changed the status. -/
structure RmwStores (op : Op) (r : CpuRegs) (m : Mem) (ea : BitVec 16) (r' : CpuRegs) (m' : Mem)
    (log : List BusOp) : Prop where
  regs : r' = { r with status := rmwStatus op r (m ea) }
  mem : m' = Function.update m ea (rmwResult op r (m ea))
  writes : log.filter (·.write) = [⟨ea, rmwResult op r (m ea), true, false⟩]

/-- The instruction has changed the accumulator and the status, and written nothing. -/
structure RmwAccumulates (op : Op) (r : CpuRegs) (m : Mem) (r' : CpuRegs) (m' : Mem)
    (log : List BusOp) : Prop where
  regs : r' = { r with a := rmwResult op r r.a, status := rmwStatus op r r.a }
  mem : m' = m
  writes : log.filter (·.write) = []

/-! ## The functions of the handlers -/

/-- The handlers that differ only in a function. -/
theorem rmwOps_families {op : Op} (hop : op ∈ rmwOps) :
    op ∈ [Op.asl, .lsr, .rol, .ror] ∨ op ∈ [Op.inc, .dec] ∨ op ∈ [Op.trb, .tsb] := by
  revert op
  decide

theorem zncalc_eq (status : BitVec 8) (n : BitVec 16) : zncalc status n = nzStatus status (u8 n) := by
  rw [zncalc, signcalc_eq, zerocalc_eq, nzStatus]

theorem and_carry (status : BitVec 8) :
    status &&& flagCarry = if hasFlag flagCarry status then 0x01 else 0x00 := by
  revert status
  decide +kernel

/-! The scratch values of the shifts. -/

theorem u8_shiftLeft (v : BitVec 8) (b : Bool) :
    u8 ((u16 v <<< 1) ||| u16 (if b then 0x01 else 0x00)) = (v <<< 1) ||| (if b then 0x01 else 0x00) := by
  revert v b
  decide +kernel

theorem u8_shiftRight (v : BitVec 8) (b : Bool) :
    u8 ((u16 v >>> 1) ||| (u16 (if b then 0x01 else 0x00) <<< 7)) =
      (v >>> 1) ||| (if b then 0x80 else 0x00) := by
  revert v b
  decide +kernel

theorem carryOut_shiftLeft (v : BitVec 8) (b : Bool) (x : BitVec 16) :
    carryOut x ((u16 v <<< 1) ||| u16 (if b then 0x01 else 0x00)) = v.getLsbD 7 := by
  have hall : ∀ (v : BitVec 8) (b : Bool),
      (((u16 v <<< 1) ||| u16 (if b then 0x01 else 0x00)) &&& 0xFF00 != 0) = v.getLsbD 7 := by
    decide +kernel
  exact hall v b

theorem bitOut_eq (v : BitVec 8) (x : BitVec 16) : bitOut (u16 v) x = v.getLsbD 0 := by
  have hall : ∀ v : BitVec 8, (u16 v &&& 1 != 0) = v.getLsbD 0 := by decide +kernel
  exact hall v

theorem u8_add_one (v : BitVec 8) : u8 (u16 v + 1) = v + 1 := by
  revert v
  decide +kernel

theorem u8_sub_one (v : BitVec 8) : u8 (u16 v - 1) = v - 1 := by
  revert v
  decide +kernel

section
variable (r : CpuRegs) (v : BitVec 8)

/-- `f` and `carry` compute the byte and the flags of `op`. -/
structure ShiftIs (op : Op) (f : BitVec 16 → BitVec 8 → BitVec 16) (carry : BitVec 16 → BitVec 16 → Bool) :
    Prop where
  ops : ops op = shift f carry
  result : u8 (f (u16 v) r.status) = rmwResult op r v
  status : zncalc (flagIf flagCarry (carry (u16 v) (f (u16 v) r.status)) r.status) (f (u16 v) r.status) =
    rmwStatus op r v

theorem shiftIs_of_carry {op : Op} {f : BitVec 16 → BitVec 8 → BitVec 16}
    {carry : BitVec 16 → BitVec 16 → Bool} {b : Bool} (hops : ops op = shift f carry)
    (hresult : u8 (f (u16 v) r.status) = rmwResult op r v)
    (hcarry : carry (u16 v) (f (u16 v) r.status) = b)
    (hstatus : rmwStatus op r v = nzStatus (flagIf flagCarry b r.status) (rmwResult op r v)) :
    ShiftIs r v op f carry :=
  ⟨hops, hresult, by rw [zncalc_eq, hresult, hcarry, hstatus]⟩

theorem shiftIs (op : Op) (hop : op ∈ [Op.asl, .lsr, .rol, .ror]) : ∃ f carry, ShiftIs r v op f carry := by
  have hasl : u16 v <<< 1 = (u16 v <<< 1) ||| u16 (if false then 0x01 else 0x00) := by simp
  have hlsr : u16 v >>> 1 = (u16 v >>> 1) ||| (u16 (if false then 0x01 else 0x00) <<< 7) := by simp
  simp only [List.mem_cons, List.not_mem_nil, or_false] at hop
  rcases hop with rfl | rfl | rfl | rfl
  · refine ⟨fun value _ => value <<< 1, carryOut, shiftIs_of_carry (b := v.getLsbD 7) r v rfl ?_ ?_ rfl⟩
    · show u8 (u16 v <<< 1) = v <<< 1
      rw [hasl, u8_shiftLeft]
      simp
    · rw [hasl, carryOut_shiftLeft]
  · refine ⟨fun value _ => value >>> 1, bitOut,
      shiftIs_of_carry (b := v.getLsbD 0) r v rfl ?_ (bitOut_eq v _) rfl⟩
    show u8 (u16 v >>> 1) = v >>> 1
    rw [hlsr, u8_shiftRight]
    simp
  · refine ⟨fun value status => (value <<< 1) ||| u16 (status &&& flagCarry), carryOut,
      shiftIs_of_carry (b := v.getLsbD 7) r v rfl ?_ ?_ rfl⟩
    · rw [and_carry, u8_shiftLeft]
      rfl
    · rw [and_carry, carryOut_shiftLeft]
  · refine ⟨fun value status => (value >>> 1) ||| (u16 (status &&& flagCarry) <<< 7), bitOut,
      shiftIs_of_carry (b := v.getLsbD 0) r v rfl ?_ (bitOut_eq v _) rfl⟩
    rw [and_carry, u8_shiftRight]
    rfl

/-- `f` computes the byte of INC and DEC. -/
theorem incDecIs (op : Op) (hop : op ∈ [Op.inc, .dec]) : ∃ f : BitVec 16 → BitVec 16,
    ops op = incDec f ∧ u8 (f (u16 v)) = rmwResult op r v ∧
      zncalc r.status (f (u16 v)) = rmwStatus op r v := by
  simp only [List.mem_cons, List.not_mem_nil, or_false] at hop
  rcases hop with rfl | rfl
  · refine ⟨(· + 1), rfl, u8_add_one v, ?_⟩
    rw [zncalc_eq, u8_add_one]
    rfl
  · refine ⟨(· - 1), rfl, u8_sub_one v, ?_⟩
    rw [zncalc_eq, u8_sub_one]
    rfl

/-- `f` computes the byte of TRB and TSB. -/
theorem testAndModifyIs (op : Op) (hop : op ∈ [Op.trb, .tsb]) : ∃ f : BitVec 16 → Cpu → BitVec 16,
    ops op = modifyBits f testStatus ∧
      ∀ c : Cpu, c.regs = r → u8 (f (u16 v) c) = rmwResult op r v ∧
        testStatus (u16 v) c = rmwStatus op r v := by
  have hstatus : ∀ c : Cpu, c.regs = r → testStatus (u16 v) c = flagIf flagZero (v &&& r.a == 0) r.status := by
    intro c hregs
    rw [testStatus, zerocalc_eq, u8_u16, u8_u16, hregs]
  simp only [List.mem_cons, List.not_mem_nil, or_false] at hop
  rcases hop with rfl | rfl
  · refine ⟨fun value cpu => value &&& ~~~u16 cpu.regs.a, rfl, ?_⟩
    rintro c rfl
    refine ⟨?_, hstatus c rfl⟩
    show u8 (u16 v &&& ~~~u16 c.regs.a) = v &&& ~~~c.regs.a
    ext i hi
    simp
  · refine ⟨fun value cpu => value ||| u16 cpu.regs.a, rfl, ?_⟩
    rintro c rfl
    refine ⟨?_, hstatus c rfl⟩
    show u8 (u16 v ||| u16 c.regs.a) = v ||| c.regs.a
    ext i hi
    simp

end

/-! ## The calls, in a mode with an address -/

/-- The opcode handler works on the byte at `ea`, and has done nothing yet. -/
structure RmwUnread (r : CpuRegs) (m : Mem) (ea : BitVec 16) (c : Cpu) (s : RamState) : Prop where
  acc : addrtable c.opcode ≠ .acc
  addr : c.ea = ea
  regs : c.regs = r
  mem : s.mem = m
  writes : s.writes = []

/-- The result is known and the flags are set. -/
structure RmwWaits (op : Op) (r : CpuRegs) (m : Mem) (ea : BitVec 16) (c : Cpu) (s : RamState) : Prop where
  acc : addrtable c.opcode ≠ .acc
  addr : c.ea = ea
  regs : c.regs = { r with status := rmwStatus op r (m ea) }
  result : u8 c.result = rmwResult op r (m ea)
  mem : s.mem = m
  writes : s.writes = []

/-- The two calls that end a read-modify-write: a dummy read, and the store. -/
structure StoreCalls (f : Cpu → BusM Cpu) (dummy store : OpState) : Prop where
  read : ∀ (c : Cpu) (s : RamState), c.opState = dummy →
    (f c).run ramEnv s = (advanceState c store true, (ramEnv.answer ⟨c.ea, false⟩ s).2)
  write : ∀ (c : Cpu) (s : RamState), c.opState = store → addrtable c.opcode ≠ .acc →
    (f c).run ramEnv s = (advanceState c .opcode true, ramEnv.obey ⟨c.ea, u8 c.result⟩ s)

theorem shift_storeCalls (f : BitVec 16 → BitVec 8 → BitVec 16) (carry : BitVec 16 → BitVec 16 → Bool) :
    StoreCalls (shift f carry) .op1 .op2 :=
  ⟨fun c s hs => by simp [shift, hs], fun c s hs hacc => by simp [shift, hs, putvalue, hacc]⟩

theorem modifyBits_storeCalls (f : BitVec 16 → Cpu → BitVec 16) (status : BitVec 16 → Cpu → BitVec 8) :
    StoreCalls (modifyBits f status) .op1 .op2 :=
  ⟨fun _ s hs => run_modifyBits_op1 s f status hs, fun _ s hs hacc => run_modifyBits_op2 s f status hs hacc⟩

theorem incDec_storeCalls (f : BitVec 16 → BitVec 16) : StoreCalls (incDec f) .op2 .op3 :=
  ⟨fun c s hs => by simp [incDec, hs], fun c s hs hacc => by simp [incDec, hs, putvalue, hacc]⟩

/-- The states of these two calls. -/
def storeStates (op : Op) : OpState × OpState :=
  match op with
  | .inc | .dec => (.op2, .op3)
  | _ => (.op1, .op2)

/-- Between the calls of the opcode handler. -/
def RmwPhase (op : Op) (r : CpuRegs) (m : Mem) (ea : BitVec 16) (c : Cpu) (s : RamState) : Prop :=
  (c.opState = .op1 ∧ op ∈ [Op.inc, .dec] ∧ RmwUnread r m ea c s) ∨
    ((c.opState = (storeStates op).1 ∨ c.opState = (storeStates op).2) ∧ RmwWaits op r m ea c s) ∨
      (c.opState = .opcode ∧ RmwStores op r m ea c.regs s.mem s.log)

section
variable {op : Op} {r : CpuRegs} {m : Mem} {ea : BitVec 16} {c : Cpu} {s : RamState}

theorem RmwUnread.getvalue (h : RmwUnread r m ea c s) :
    (Cb6502.getvalue c).run ramEnv s = (u16 (m ea), (ramEnv.answer ⟨ea, false⟩ s).2) := by
  rw [Cb6502.getvalue, if_neg h.acc, h.addr, ← h.mem]
  rfl

/-- The call that computes the result. -/
theorem RmwUnread.waits (h : RmwUnread r m ea c s) {result : BitVec 16} {status : BitVec 8}
    (hresult : u8 result = rmwResult op r (m ea)) (hstatus : status = rmwStatus op r (m ea))
    (next : OpState) (q : BusRead) :
    RmwWaits op r m ea (advanceState { c with result, regs.status := status } next true)
      (ramEnv.answer q s).2 where
  acc := h.acc
  addr := h.addr
  regs := by
    show { c.regs with status := status } = _
    rw [h.regs, hstatus]
  result := hresult
  mem := h.mem
  writes := by rw [writes_answer, h.writes]

theorem RmwWaits.stores (h : RmwWaits op r m ea c s) :
    RmwStores op r m ea c.regs (ramEnv.obey ⟨c.ea, u8 c.result⟩ s).mem
      (ramEnv.obey ⟨c.ea, u8 c.result⟩ s).log where
  regs := h.regs
  mem := by
    show Function.update s.mem c.ea (u8 c.result) = _
    rw [h.mem, h.addr, h.result]
  writes := by
    show (ramEnv.obey _ s).writes = _
    rw [writes_obey, h.writes, h.addr, h.result]
    rfl

theorem RmwWaits.read (h : RmwWaits op r m ea c s) (next : OpState) (q : BusRead) :
    RmwWaits op r m ea (advanceState c next true) (ramEnv.answer q s).2 :=
  ⟨h.acc, h.addr, h.regs, h.result, h.mem, by rw [writes_answer, h.writes]⟩

theorem rmwPhase_store {f : Cpu → BusM Cpu} (hcalls : StoreCalls f (storeStates op).1 (storeStates op).2)
    (h : RmwWaits op r m ea c s) (hs : c.opState = (storeStates op).1 ∨ c.opState = (storeStates op).2) :
    RmwPhase op r m ea ((f c).run ramEnv s).1 ((f c).run ramEnv s).2 := by
  rcases hs with hs | hs
  · rw [hcalls.read c s hs]
    exact .inr (.inl ⟨.inr rfl, h.read _ _⟩)
  · rw [hcalls.write c s hs h.acc]
    exact .inr (.inr ⟨rfl, h.stores⟩)

/-! The first call, in each family. -/

theorem rmwPhase_shift (hop : op ∈ [Op.asl, .lsr, .rol, .ror]) (h : RmwUnread r m ea c s)
    (hs : c.opState = .op0) :
    RmwPhase op r m ea ((ops op c).run ramEnv s).1 ((ops op c).run ramEnv s).2 := by
  obtain ⟨f, carry, hshift⟩ := shiftIs r (m ea) op hop
  have hstates : ∀ op ∈ [Op.asl, .lsr, .rol, .ror], (storeStates op).1 = .op1 := by decide
  have hrun : (ops op c).run ramEnv s = (advanceState { c with
      result := f (u16 (m ea)) c.regs.status
      regs.status := zncalc (flagIf flagCarry (carry (u16 (m ea)) (f (u16 (m ea)) c.regs.status))
        c.regs.status) (f (u16 (m ea)) c.regs.status) } .op1 true, (ramEnv.answer ⟨ea, false⟩ s).2) := by
    rw [hshift.ops]
    simp only [shift, hs, Prog.run_bind, h.getvalue, if_neg h.acc]
    rfl
  rw [hrun]
  refine .inr (.inl ⟨.inl (hstates op hop).symm, h.waits ?_ ?_ .op1 _⟩)
  · rw [h.regs]
    exact hshift.result
  · rw [h.regs]
    exact hshift.status

/-- INC and DEC begin with a penalty cycle, or with none. -/
theorem rmwPhase_incDec (hop : op ∈ [Op.inc, .dec]) (h : RmwUnread r m ea c s) (hs : c.opState = .op0) :
    RmwPhase op r m ea ((ops op c).run ramEnv s).1 ((ops op c).run ramEnv s).2 := by
  obtain ⟨f, hops, -, -⟩ := incDecIs r (m ea) op hop
  rw [hops]
  by_cases hpenalty : addrtable c.opcode = .absx ∧ c.pageBoundary = false
  · have hrun : (incDec f c).run ramEnv s = (advanceState c .op1 true, (ramEnv.answer ⟨c.ea, false⟩ s).2) := by
      simp only [incDec, hs, if_pos hpenalty]
      rfl
    rw [hrun]
    exact .inl ⟨rfl, hop, h.acc, h.addr, h.regs, h.mem, by rw [writes_answer, h.writes]⟩
  · have hrun : (incDec f c).run ramEnv s = (advanceState c .op1 false, s) := by
      simp only [incDec, hs, if_neg hpenalty]
      rfl
    rw [hrun]
    exact .inl ⟨rfl, hop, h.acc, h.addr, h.regs, h.mem, h.writes⟩

theorem rmwPhase_testAndModify (hop : op ∈ [Op.trb, .tsb]) (h : RmwUnread r m ea c s)
    (hs : c.opState = .op0) :
    RmwPhase op r m ea ((ops op c).run ramEnv s).1 ((ops op c).run ramEnv s).2 := by
  obtain ⟨f, hops, hf⟩ := testAndModifyIs r (m ea) op hop
  obtain ⟨hresult, hstatus⟩ := hf c h.regs
  have hstates : ∀ op ∈ [Op.trb, .tsb], (storeStates op).1 = .op1 := by decide
  have hread : s.mem c.ea = m ea := by rw [h.mem, h.addr]
  rw [hops, run_modifyBits_op0 s f testStatus hs h.acc, hread]
  exact .inr (.inl ⟨.inl (hstates op hop).symm, h.waits hresult hstatus .op1 _⟩)

theorem rmwPhase_first (hop : op ∈ rmwOps) (h : RmwUnread r m ea c s) (hs : c.opState = .op0) :
    RmwPhase op r m ea ((ops op c).run ramEnv s).1 ((ops op c).run ramEnv s).2 := by
  rcases rmwOps_families hop with hop | hop | hop
  · exact rmwPhase_shift hop h hs
  · exact rmwPhase_incDec hop h hs
  · exact rmwPhase_testAndModify hop h hs

theorem storeCalls (hop : op ∈ rmwOps) : StoreCalls (ops op) (storeStates op).1 (storeStates op).2 := by
  simp only [rmwOps, List.mem_cons, List.not_mem_nil, or_false] at hop
  rcases hop with rfl | rfl | rfl | rfl | rfl | rfl | rfl | rfl <;> simp only [ops, storeStates]
  · exact shift_storeCalls _ _
  · exact shift_storeCalls _ _
  · exact shift_storeCalls _ _
  · exact shift_storeCalls _ _
  · exact incDec_storeCalls _
  · exact incDec_storeCalls _
  · exact modifyBits_storeCalls _ _
  · exact modifyBits_storeCalls _ _

/-- The calls after it. -/
theorem rmwPhase_step (hop : op ∈ rmwOps) (h : RmwPhase op r m ea c s) (hoff : c.opState ≠ .opcode) :
    RmwPhase op r m ea ((ops op c).run ramEnv s).1 ((ops op c).run ramEnv s).2 := by
  rcases h with ⟨hs, hincDec, h⟩ | ⟨hs, h⟩ | ⟨hs, -⟩
  · -- INC and DEC read the operand here
    obtain ⟨f, hops, hresult, hstatus⟩ := incDecIs r (m ea) op hincDec
    have hstates : ∀ op ∈ [Op.inc, .dec], (storeStates op).1 = .op2 := by decide
    have hrun : (ops op c).run ramEnv s = (advanceState { c with
        result := f (u16 (m ea))
        regs.status := zncalc c.regs.status (f (u16 (m ea))) } .op2 true,
          (ramEnv.answer ⟨ea, false⟩ s).2) := by
      rw [hops]
      simp only [incDec, hs, Prog.run_bind, h.getvalue, if_neg h.acc]
      rfl
    rw [hrun]
    refine .inr (.inl ⟨.inl (hstates op hincDec).symm, h.waits hresult ?_ .op2 _⟩)
    rw [h.regs]
    exact hstatus
  · exact rmwPhase_store (storeCalls hop) h hs
  · exact absurd hs hoff

theorem RmwPhase.clearCycle (h : RmwPhase op r m ea c s) : RmwPhase op r m ea c.clearCycle s := by
  rcases h with ⟨hs, hop, h⟩ | ⟨hs, h⟩ | ⟨hs, h⟩
  · exact .inl ⟨hs, hop, h.acc, h.addr, h.regs, h.mem, h.writes⟩
  · exact .inr (.inl ⟨hs, h.acc, h.addr, h.regs, h.result, h.mem, h.writes⟩)
  · exact .inr (.inr ⟨hs, h⟩)

/-- At the boundary the result is stored. -/
theorem RmwPhase.stored (h : RmwPhase op r m ea c s) (hs : c.opState = .opcode) :
    RmwStores op r m ea c.regs s.mem s.log := by
  rcases h with ⟨h1, -⟩ | ⟨hwait, -⟩ | ⟨-, hdone⟩
  · exact absurd (h1.symm.trans hs) (by decide)
  · have hstates : ∀ op, (storeStates op).1 ≠ .opcode ∧ (storeStates op).2 ≠ .opcode := by
      intro op
      cases op <;> decide
    rcases hwait with hwait | hwait
    · exact absurd (hwait.symm.trans hs) (hstates op).1
    · exact absurd (hwait.symm.trans hs) (hstates op).2
  · exact hdone

end

/-! ## The calls, in accumulator mode -/

/-- Between the calls of the opcode handler: INC and DEC have one before the accumulator is
changed. -/
def RmwAccPhase (op : Op) (r : CpuRegs) (m : Mem) (c : Cpu) (s : RamState) : Prop :=
  (c.opState = .op1 ∧ op ∈ [Op.inc, .dec] ∧ addrtable c.opcode = .acc ∧ c.regs = r ∧ s.mem = m ∧
      s.writes = []) ∨
    (c.opState = .opcode ∧ RmwAccumulates op r m c.regs s.mem s.log)

section
variable {op : Op} {r : CpuRegs} {m : Mem} {c : Cpu} {s : RamState}

/-- The call that changes the accumulator. -/
theorem rmwAccumulates_of (hregs : c.regs = r) (hmem : s.mem = m) (hw : s.writes = [])
    {result : BitVec 16} {status : BitVec 8} (hresult : u8 result = rmwResult op r r.a)
    (hstatus : status = rmwStatus op r r.a) :
    RmwAccumulates op r m { c.regs with a := u8 result, status } s.mem s.log where
  regs := by rw [hregs, hresult, hstatus]
  mem := hmem
  writes := hw

theorem rmwAccPhase_first (hop : op ∈ rmwOps) (htest : op ∉ [Op.trb, .tsb]) (hacc : addrtable c.opcode = .acc)
    (hregs : c.regs = r) (hmem : s.mem = m) (hw : s.writes = []) (hs : c.opState = .op0) :
    RmwAccPhase op r m ((ops op c).run ramEnv s).1 ((ops op c).run ramEnv s).2 := by
  rcases rmwOps_families hop with hop | hop | hop
  · obtain ⟨f, carry, hshift⟩ := shiftIs r r.a op hop
    have hrun : (ops op c).run ramEnv s = (advanceState { c with
        result := f (u16 c.regs.a) c.regs.status
        regs.a := u8 (f (u16 c.regs.a) c.regs.status)
        regs.status := zncalc (flagIf flagCarry (carry (u16 c.regs.a) (f (u16 c.regs.a) c.regs.status))
          c.regs.status) (f (u16 c.regs.a) c.regs.status) } .opcode true, s) := by
      rw [hshift.ops]
      simp only [shift, hs, getvalue, putvalue, if_pos hacc, Prog.run_bind]
      rfl
    rw [hrun]
    refine .inr ⟨rfl, rmwAccumulates_of hregs hmem hw ?_ ?_⟩
    · rw [hregs]
      exact hshift.result
    · rw [hregs]
      exact hshift.status
  · obtain ⟨f, hops, -, -⟩ := incDecIs r r.a op hop
    have hrun : (ops op c).run ramEnv s = (advanceState c .op1 false, s) := by
      rw [hops]
      simp [incDec, hs, hacc]
    rw [hrun]
    exact .inl ⟨rfl, hop, hacc, hregs, hmem, hw⟩
  · exact absurd hop htest

theorem rmwAccPhase_step (h : RmwAccPhase op r m c s) (hoff : c.opState ≠ .opcode) :
    RmwAccPhase op r m ((ops op c).run ramEnv s).1 ((ops op c).run ramEnv s).2 := by
  rcases h with ⟨hs, hop, hacc, hregs, hmem, hw⟩ | ⟨hs, -⟩
  · obtain ⟨f, hops, hresult, hstatus⟩ := incDecIs r r.a op hop
    have hrun : (ops op c).run ramEnv s = (advanceState { c with
        result := f (u16 c.regs.a)
        regs.a := u8 (f (u16 c.regs.a))
        regs.status := zncalc c.regs.status (f (u16 c.regs.a)) } .opcode true, s) := by
      rw [hops]
      simp only [incDec, hs, getvalue, putvalue, if_pos hacc, Prog.run_bind]
      rfl
    rw [hrun]
    refine .inr ⟨rfl, rmwAccumulates_of hregs hmem hw ?_ ?_⟩
    · rw [hregs]
      exact hresult
    · rw [hregs]
      exact hstatus
  · exact absurd hs hoff

end

/-! ## The instructions -/

theorem rmw_table : ∀ opcode : BitVec 8, optable opcode ∈ rmwOps →
    addrtable opcode ∈ [AddrMode.acc, .zp, .zpx, .abso, .absx] ∧
      (addrtable opcode = .acc → optable opcode ∉ [Op.trb, .tsb]) ∧
      bytesRead (addrtable opcode) = BitVec.ofNat 16 (addrLengths (addrtable opcode)) := by
  decide +kernel

/-- The instruction at `r.pc` in a mode other than the accumulator has an address. -/
theorem rmw_address {m : Mem} {r : CpuRegs} (hop : optable (m r.pc) ∈ rmwOps)
    (hacc : addrtable (m r.pc) ≠ .acc) : ∃ ea, effectiveAddress m r (addrtable (m r.pc)) = some ea ∧
      operandAddress m r (addrtable (m r.pc)) = some ea := by
  obtain ⟨hmode, -, -⟩ := rmw_table _ hop
  generalize addrtable (m r.pc) = mode at hmode hacc ⊢
  simp only [List.mem_cons, List.not_mem_nil, or_false] at hmode
  rcases hmode with rfl | rfl | rfl | rfl | rfl
  · exact absurd rfl hacc
  all_goals exact ⟨_, rfl, rfl⟩

theorem HandlerReady.rmwUnread {m : Mem} {r : CpuRegs} {c : Cpu} {s : RamState}
    (h : HandlerReady m r c s.mem) (hw : s.writes = []) (hacc : addrtable (m r.pc) ≠ .acc)
    {ea : BitVec 16} (hea : operandAddress m r (addrtable (m r.pc)) = some ea) :
    RmwUnread { r with pc := r.pc + bytesRead (addrtable (m r.pc)) } m ea c s where
  acc := by
    rw [h.opcode]
    exact hacc
  addr := h.ea ea hea
  regs := h.regs
  mem := h.mem
  writes := hw

/-- In every memory mode ASL, LSR, ROL, ROR, INC, DEC, TRB and TSB make one write, of the
documented function of the operand to its address, and change the status and the program counter
only; in accumulator mode they write nothing and change the accumulator in the same way. -/
theorem read_modify_write {emu : Emu ω} (h : Fetches R emu) {m : Mem} (hm : R.mem emu.bus.devs = m)
    {r : CpuRegs} (hr : emu.cpu.regs = r) {op : Op} (hop : optable (m r.pc) = op) (hrmw : op ∈ rmwOps) :
    let mode := addrtable (m r.pc)
    let next := { r with pc := r.pc + BitVec.ofNat 16 (addrLengths mode) }
    (∃ log e, BusRun emu log e ∧ e.cpu.opState = .opcode) ∧
      ∀ log e, BusRun emu log e → e.cpu.opState = .opcode →
        (mode = .acc → RmwAccumulates op next m e.cpu.regs (R.mem e.bus.devs) log) ∧
        (mode ≠ .acc → ∃ ea, effectiveAddress m r mode = some ea ∧
          RmwStores op next m ea e.cpu.regs (R.mem e.bus.devs) log) := by
  subst hm hr hop
  obtain ⟨-, htest, hlength⟩ := rmw_table _ hrmw
  have hne : ∀ op ∈ rmwOps, op ≠ .brk ∧ op ≠ .jsr := by decide
  obtain ⟨hbrk, hjsr⟩ := hne _ hrmw
  intro mode next
  have hnext : next = { emu.cpu.regs with pc := emu.cpu.regs.pc + bytesRead mode } := by rw [hlength]
  refine ⟨?_, ?_⟩
  · obtain ⟨e, n, hrun, he⟩ := h.exists
    obtain ⟨log, hbus⟩ := hrun.busRun h.ram h.boundary
    exact ⟨log, e, hbus, he⟩
  · intro log e hrun he
    have hoff : ∀ {s : OpState}, s ∈ [OpState.op1, .op2, .op3, .op4] → s ≠ .opcode := by decide
    rw [hnext]
    refine ⟨?_, ?_⟩
    · intro hacc
      have hX := hrun.rule he h rfl hbrk hjsr (X := RmwAccPhase _ _ _)
        (fun c s hready hw => rmwAccPhase_first hrmw (htest hacc) (by rw [hready.opcode]; exact hacc)
          hready.regs hready.mem hw hready.state)
        (fun c s hX _ hstate => rmwAccPhase_step hX (hoff hstate)) fun c s h => h
      rcases hX with ⟨hs, -⟩ | ⟨-, hdone⟩
      · exact absurd (hs.symm.trans he) (by decide)
      · exact hdone
    · intro hacc
      obtain ⟨ea, heff, hea⟩ := rmw_address hrmw hacc
      have hX := hrun.rule he h rfl hbrk hjsr (X := RmwPhase _ _ _ ea)
        (fun c s hready hw => rmwPhase_first hrmw (hready.rmwUnread hw hacc hea) hready.state)
        (fun c s hX _ hstate => rmwPhase_step hrmw hX (hoff hstate)) fun c s hX => hX.clearCycle
      exact ⟨ea, heff, hX.stored he⟩

/-- `ROL $81` with the carry set, and `ASL A`. -/
theorem read_modify_write_of_81 :
    (∃ log e, BusRun (immEmu 0x26 0x00 0x81 0x01) log e ∧ flatRam.mem e.bus.devs 0x0081 = 0x03 ∧
        log.filter (·.write) = [⟨0x0081, 0x03, true, false⟩] ∧ e.cpu.regs.status = 0x01) ∧
      ∃ log e, BusRun (immEmu 0x0A 0x81 0x00 0x00) log e ∧ e.cpu.regs.a = 0x02 ∧
        log.filter (·.write) = [] ∧ e.cpu.regs.status = 0x01 := by
  have hfetches : ∀ opcode a m status, Fetches flatRam (immEmu opcode a m status) :=
    fun _ _ _ _ => ⟨⟨rfl, rfl, trivial⟩, rfl, rfl, rfl⟩
  refine ⟨?_, ?_⟩
  · obtain ⟨⟨log, e, hrun, he⟩, hall⟩ := read_modify_write (hfetches 0x26 0x00 0x81 0x01) rfl rfl
      rfl (by decide)
    obtain ⟨ea, hea, hstores⟩ := (hall log e hrun he).2 (by decide)
    obtain rfl : 0x0081 = ea := by
      rw [← Option.some_inj, ← hea]
      decide
    refine ⟨log, e, hrun, ?_, hstores.writes, ?_⟩
    · rw [hstores.mem]
      decide
    · rw [hstores.regs]
      decide
  · obtain ⟨⟨log, e, hrun, he⟩, hall⟩ := read_modify_write (hfetches 0x0A 0x81 0x00 0x00) rfl rfl
      rfl (by decide)
    have hacc := (hall log e hrun he).1 (by decide)
    refine ⟨log, e, hrun, ?_, hacc.writes, ?_⟩
    · rw [hacc.regs]
      decide
    · rw [hacc.regs]
      decide

end Cb6502
