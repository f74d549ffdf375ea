import Cb6502.Execution

/- RMB, SMB, BBR and BBS. The number of the bit is in bits 6 to 4 of the opcode, but the
   handlers take it from `opcode >> 8`, which is 0 for a byte (`opcodeBit_eq`): RMB and SMB
   act on bit 0, and BBR and BBS, whose test is a logical `&&`, on the whole operand. The
   offset of a branch is not sign-extended by `zprel`, as it is by `rel`. `AgreesWithBit`
   says what is left: when these are no differences. -/
namespace Cb6502
open Dialogue

variable {ω : Type} {R : Ram ω}

/-! ## What the instructions are to do -/

/-- The bit that the opcode encodes. -/
def bitNumber (opcode : BitVec 8) : Nat := ((opcode >>> 4) &&& 0x07).toNat

section
variable (m : Mem) (r : CpuRegs)

/-- The zero-page address of the instruction at `r.pc`. -/
def zpAddress : BitVec 16 := u16 (m (r.pc + 1))

/-- The zero-page operand of the instruction at `r.pc`. -/
def zpOperand : BitVec 8 := m (zpAddress m r)

/-- The third byte of BBR and BBS. -/
def branchOffset : BitVec 8 := m (r.pc + 2)

/-- The instruction at `r.pc` ends with the registers `r'` and the bytes `m'`, having acted on
the bit encoded in its opcode. -/
def ActsOnBit (r' : CpuRegs) (m' : Mem) : Prop :=
  let n := bitNumber (m r.pc)
  let v := zpOperand m r
  match optable (m r.pc) with
  | .rmb => m' = Function.update m (zpAddress m r) (v &&& ~~~(1#8 <<< n)) ∧ r'.status = r.status
  | .smb => m' = Function.update m (zpAddress m r) (v ||| 1#8 <<< n) ∧ r'.status = r.status
  | .bbr => r'.pc = r.pc + 3 + if v.getLsbD n then 0 else (branchOffset m r).signExtend 16
  | .bbs => r'.pc = r.pc + 3 + if v.getLsbD n then (branchOffset m r).signExtend 16 else 0
  | _ => True

/-- Acting on bit 0 of the operand, or on all of it, comes to the same: for RMB and SMB the bit
is bit 0, or neither of the two is changed; for BBR and BBS the operand decides as the bit
does and the offset of a taken branch is positive, or the branch goes nowhere. -/
def AgreesWithBit : Prop :=
  let n := bitNumber (m r.pc)
  let v := zpOperand m r
  let off := branchOffset m r
  match optable (m r.pc) with
  | .rmb => n = 0 ∨ v.getLsbD 0 = false ∧ v.getLsbD n = false
  | .smb => n = 0 ∨ v.getLsbD 0 = true ∧ v.getLsbD n = true
  | .bbr => if v = 0 then off < 0x80 else v.getLsbD n = true ∨ off = 0
  | .bbs => if v.getLsbD n then off < 0x80 else v = 0 ∨ off = 0
  | _ => True

end

/-! ## What the handlers do -/

/-- The bit number of the handlers. -/
theorem opcodeBit_eq (c : Cpu) : opcodeBit c = 1#16 := by
  have hshift : (u16 c.opcode >>> 8).toNat = 0 := by
    rw [BitVec.toNat_ushiftRight, BitVec.toNat_setWidth, Nat.shiftRight_eq_div_pow]
    have hlt := c.opcode.isLt
    omega
  unfold opcodeBit
  rw [BitVec.eq_of_toNat_eq (y := 0) hshift]
  rfl

theorem valueAndBit_eq (c : Cpu) : valueAndBit c = (c.value != 0) := by
  unfold valueAndBit
  rw [opcodeBit_eq, show (1#16 != 0) = true from rfl, Bool.and_true]

theorem zp_table : ∀ opcode : BitVec 8,
    optable opcode = .rmb ∨ optable opcode = .smb → addrtable opcode = .zp := by
  decide +kernel

section Calls
variable {c : Cpu} (s : RamState) (f : BitVec 16 → Cpu → BitVec 16) (status : BitVec 16 → Cpu → BitVec 8)

theorem run_modifyBits_op0 (hs : c.opState = .op0) (hacc : addrtable c.opcode ≠ .acc) :
    (modifyBits f status c).run ramEnv s = (advanceState { c with
        regs.status := status (u16 (s.mem c.ea)) c
        result := f (u16 (s.mem c.ea)) c } .op1 true, (ramEnv.answer ⟨c.ea, false⟩ s).2) := by
  simp [modifyBits, hs, getvalue, hacc, ramEnv]

theorem run_modifyBits_op1 (hs : c.opState = .op1) :
    (modifyBits f status c).run ramEnv s =
      (advanceState c .op2 true, (ramEnv.answer ⟨c.ea, false⟩ s).2) := by
  simp [modifyBits, hs]

theorem run_modifyBits_op2 (hs : c.opState = .op2) (hacc : addrtable c.opcode ≠ .acc) :
    (modifyBits f status c).run ramEnv s =
      (advanceState c .opcode true, ramEnv.obey ⟨c.ea, u8 c.result⟩ s) := by
  simp [modifyBits, hs, putvalue, hacc]

/-- The second cycle of a branch that is taken, which is the last one unless the page is left. -/
theorem run_branch_op1 (taken : Cpu → Bool) (hs : c.opState = .op1) :
    ((branch taken c).run ramEnv s).1 =
      if page c.regs.pc ≠ page (c.regs.pc + c.reladdr) then advanceState c .op2 true
      else advanceState { c with regs.pc := c.regs.pc + c.reladdr } .opcode true := by
  by_cases hpage : page c.regs.pc ≠ page (c.regs.pc + c.reladdr)
  · simp [branch, branchTaken, hs, hpage]
  · simp [branch, branchTaken, hs, hpage]

theorem run_branch_op2 (taken : Cpu → Bool) (hs : c.opState = .op2) :
    ((branch taken c).run ramEnv s).1 =
      advanceState { c with regs.pc := c.regs.pc + c.reladdr } .opcode true := by
  simp [branch, branchTaken, hs]

end Calls

/-- A read-modify-write of the zero page with the status as it was: the result waits for the
last cycle to be stored. -/
structure Modifies (m : Mem) (r : CpuRegs) (result : BitVec 16) (c : Cpu) (mem : Mem) : Prop where
  ea : c.ea = zpAddress m r
  regs : c.regs = { r with pc := r.pc + 2 }
  phase : (c.opState ∈ [OpState.op1, .op2] ∧ mem = m ∧ c.result = result) ∨
    (c.opState = .opcode ∧ mem = Function.update m (zpAddress m r) (u8 result))

section
variable {emu e : Emu ω} {m : Mem} {r : CpuRegs}

theorem Executes.modifies (hrun : Executes emu e) (hfetch : Fetches R emu)
    (hm : R.mem emu.bus.devs = m) (hr : emu.cpu.regs = r) {op : Op} (hop : optable (m r.pc) = op)
    (hcases : op = .rmb ∨ op = .smb) {f : BitVec 16 → Cpu → BitVec 16} {result : BitVec 16}
    (hops : ops op = modifyBits f fun _ cpu => cpu.regs.status)
    (hresult : ∀ c, f (u16 (zpOperand m r)) c = result) :
    e.cpu.regs = { r with pc := r.pc + 2 } ∧
      R.mem e.bus.devs = Function.update m (zpAddress m r) (u8 result) := by
  subst hm hr
  have hmode : addrtable (R.mem emu.bus.devs emu.cpu.regs.pc) = .zp := zp_table _ (by rw [hop]; exact hcases)
  have hacc : ∀ c : Cpu, c.opcode = R.mem emu.bus.devs emu.cpu.regs.pc → addrtable c.opcode ≠ .acc := by
    intro c hopcode
    rw [hopcode, hmode]
    decide
  have hX := hrun.rule hfetch hop (X := Modifies (R.mem emu.bus.devs) emu.cpu.regs result)
    (by rcases hcases with rfl | rfl <;> decide) (by rcases hcases with rfl | rfl <;> decide) ?_ ?_
    fun c mem h => ⟨h.ea, h.regs, h.phase⟩
  · obtain ⟨n, -, he⟩ := hrun
    rcases hX.phase with ⟨hinside, -⟩ | ⟨-, hmem⟩
    · rw [show e.cpu.clearCycle.opState = .opcode from he] at hinside
      exact absurd hinside (by decide)
    · exact ⟨hX.regs, hmem⟩
  · -- the operand is read and the result computed
    intro c s h
    have hea : c.ea = zpAddress (R.mem emu.bus.devs) emu.cpu.regs := by
      apply h.ea
      rw [hmode]
      rfl
    have hregs := h.regs
    rw [hmode] at hregs
    have hread : s.mem c.ea = zpOperand (R.mem emu.bus.devs) emu.cpu.regs := by
      rw [h.mem, hea]
      rfl
    rw [hops, run_modifyBits_op0 s f _ h.state (hacc c h.opcode), hread]
    exact ⟨hea, hregs, .inl ⟨List.mem_cons_self, h.mem, hresult c⟩⟩
  · intro c s h hopcode hstate
    rw [hops]
    rcases h.phase with ⟨hinside, hmem, hres⟩ | ⟨hend, -⟩
    · simp only [List.mem_cons, List.not_mem_nil, or_false] at hinside
      rcases hinside with h1 | h2
      · rw [run_modifyBits_op1 s f _ h1]
        exact ⟨h.ea, h.regs, .inl ⟨List.mem_cons_of_mem _ List.mem_cons_self, hmem, hres⟩⟩
      · rw [run_modifyBits_op2 s f _ h2 (hacc c hopcode)]
        refine ⟨h.ea, h.regs, .inr ⟨rfl, ?_⟩⟩
        show Function.update s.mem c.ea (u8 c.result) = _
        rw [hmem, hres, h.ea]
    · rw [hend] at hstate
      exact absurd hstate (by decide)

/-- A branch in the middle of its cycles, or done. -/
structure Branches (r : CpuRegs) (off : BitVec 16) (taken : Bool) (c : Cpu) : Prop where
  reladdr : c.reladdr = off
  phase : (c.opState ∈ [OpState.op1, .op2] ∧ taken = true ∧ c.regs.pc = r.pc + 3) ∨
    (c.opState = .opcode ∧ c.regs.pc = r.pc + 3 + if taken then off else 0)

theorem Executes.branches (hrun : Executes emu e) (hfetch : Fetches R emu)
    (hm : R.mem emu.bus.devs = m) (hr : emu.cpu.regs = r) {op : Op} (hop : optable (m r.pc) = op)
    (hcases : op = .bbr ∨ op = .bbs) {t : Cpu → Bool} {b : Bool} (hops : ops op = branch t)
    (htaken : ∀ c : Cpu, c.value = u16 (zpOperand m r) → t c = b) :
    e.cpu.regs.pc = r.pc + 3 + if b then u16 (branchOffset m r) else 0 := by
  subst hm hr
  have hmode : addrtable (R.mem emu.bus.devs emu.cpu.regs.pc) = .zprel :=
    branches_table _ (by rw [hop]; exact hcases)
  have hX := hrun.rule hfetch hop
    (X := fun c _ => Branches emu.cpu.regs (u16 (branchOffset (R.mem emu.bus.devs) emu.cpu.regs)) b c)
    (by rcases hcases with rfl | rfl <;> decide) (by rcases hcases with rfl | rfl <;> decide) ?_ ?_
    fun c mem h => ⟨h.reladdr, h.phase⟩
  · obtain ⟨n, -, he⟩ := hrun
    rcases hX.phase with ⟨hinside, -⟩ | ⟨-, hpc⟩
    · rw [show e.cpu.clearCycle.opState = .opcode from he] at hinside
      exact absurd hinside (by decide)
    · exact hpc
  · -- the test, on the operand that the mode has read
    intro c s h
    have hpc : c.regs.pc = emu.cpu.regs.pc + 3 := by
      rw [h.regs, hmode]
      rfl
    have htest := htaken c (h.value hmode)
    rw [hops]
    unfold branch
    rw [h.state]
    dsimp only
    rw [htest]
    cases b with
    | true => exact ⟨h.reladdr hmode, .inl ⟨List.mem_cons_self, rfl, hpc⟩⟩
    | false => exact ⟨h.reladdr hmode, .inr ⟨rfl, hpc.trans (BitVec.add_zero _).symm⟩⟩
  · intro c s h hopcode hstate
    rw [hops]
    rcases h.phase with ⟨hinside, rfl, hpc⟩ | ⟨hend, -⟩
    · simp only [List.mem_cons, List.not_mem_nil, or_false] at hinside
      have hdone : c.regs.pc + c.reladdr = emu.cpu.regs.pc + 3 +
          if true = true then u16 (branchOffset (R.mem emu.bus.devs) emu.cpu.regs) else 0 := by
        rw [hpc, h.reladdr, if_pos rfl]
      rcases hinside with h1 | h2
      · rw [run_branch_op1 s t h1]
        split
        · exact ⟨h.reladdr, .inl ⟨List.mem_cons_of_mem _ List.mem_cons_self, rfl, hpc⟩⟩
        · exact ⟨h.reladdr, .inr ⟨rfl, hdone⟩⟩
      · rw [run_branch_op2 s t h2]
        exact ⟨h.reladdr, .inr ⟨rfl, hdone⟩⟩
    · rw [hend] at hstate
      exact absurd hstate (by decide)

end

/-! ## The bit of the handlers and the bit of the opcode -/

theorem bitNumber_lt (opcode : BitVec 8) : bitNumber opcode < 8 := by
  unfold bitNumber
  rw [BitVec.toNat_and]
  exact Nat.lt_succ_of_le Nat.and_le_right

theorem rmb_table : ∀ v : BitVec 8, u8 (u16 v &&& ~~~1#16) = v &&& ~~~1#8 ∧ ∀ n < 8,
    (v &&& ~~~1#8 = v &&& ~~~(1#8 <<< n) ↔ n = 0 ∨ v.getLsbD 0 = false ∧ v.getLsbD n = false) := by
  decide +kernel

theorem smb_table : ∀ v : BitVec 8, u8 (u16 v ||| 1#16) = v ||| 1#8 ∧ ∀ n < 8,
    (v ||| 1#8 = v ||| 1#8 <<< n ↔ n = 0 ∨ v.getLsbD 0 = true ∧ v.getLsbD n = true) := by
  decide +kernel

/-- The offset as `zprel` takes it, and as it is meant. -/
theorem offset_table : ∀ off : BitVec 8, (u16 off = off.signExtend 16 ↔ off < 0x80) ∧
    (off.signExtend 16 = 0 ↔ off = 0) ∧ (u16 off = 0 ↔ off = 0) := by
  decide +kernel

/-- The test on the whole operand. -/
theorem operand_table : ∀ v : BitVec 8, (u16 v != 0) = (v != 0) := by
  decide +kernel

theorem ne_zero_of_getLsbD {v : BitVec 8} {n : Nat} (h : v.getLsbD n = true) : v ≠ 0 := by
  rintro rfl
  exact Bool.false_ne_true (BitVec.getLsbD_zero.symm.trans h)

theorem bbr_offset_iff {v : BitVec 8} (off : BitVec 8) {b : Bool} (hb : b = true → v ≠ 0) :
    ((if v == 0 then u16 off else 0) = if b then 0 else off.signExtend 16) ↔
      if v = 0 then off < 0x80 else b = true ∨ off = 0 := by
  obtain ⟨hsame, hback, -⟩ := offset_table off
  by_cases hv : v = 0
  · have hclear : b = false := Bool.eq_false_iff.mpr fun h => hb h hv
    rw [hclear, if_pos hv, if_pos (beq_iff_eq.mpr hv), if_neg Bool.false_ne_true, hsame]
  · rw [if_neg hv, if_neg fun h => hv (beq_iff_eq.mp h)]
    cases b with
    | true => simp
    | false => rw [if_neg Bool.false_ne_true, eq_comm, hback, or_iff_right Bool.false_ne_true]

theorem bbs_offset_iff {v : BitVec 8} (off : BitVec 8) {b : Bool} (hb : b = true → v ≠ 0) :
    ((if v != 0 then u16 off else 0) = if b then off.signExtend 16 else 0) ↔
      if b then off < 0x80 else v = 0 ∨ off = 0 := by
  obtain ⟨hsame, -, hzero⟩ := offset_table off
  cases b with
  | true => rw [if_pos rfl, if_pos rfl, if_pos (bne_iff_ne.mpr (hb rfl)), hsame]
  | false =>
    rw [if_neg Bool.false_ne_true, if_neg Bool.false_ne_true]
    by_cases hv : v = 0
    · rw [hv]
      exact iff_of_true rfl (.inl rfl)
    · rw [if_pos (bne_iff_ne.mpr hv), hzero, or_iff_right hv]

/-- RMB, SMB, BBR and BBS act on the bit encoded in the opcode exactly when acting on bit 0 (RMB
and SMB) or on the whole operand (BBR and BBS), with an unsigned offset, comes to the
same. -/
theorem bit_instructions {emu : Emu ω} (hfetch : Fetches R emu) :
    (∃ e, Executes emu e) ∧ ∀ e, Executes emu e →
      (ActsOnBit (R.mem emu.bus.devs) emu.cpu.regs e.cpu.regs (R.mem e.bus.devs) ↔
        AgreesWithBit (R.mem emu.bus.devs) emu.cpu.regs) := by
  refine ⟨hfetch.exists, ?_⟩
  intro e hrun
  obtain ⟨m, hm⟩ : ∃ m, R.mem emu.bus.devs = m := ⟨_, rfl⟩
  obtain ⟨r, hr⟩ : ∃ r, emu.cpu.regs = r := ⟨_, rfl⟩
  rw [hm, hr]
  have hn := bitNumber_lt (m r.pc)
  have hupdate := Function.update_injective m (zpAddress m r)
  unfold ActsOnBit AgreesWithBit
  dsimp only
  cases hop : optable (m r.pc)
  case rmb =>
    obtain ⟨hregs, hmem⟩ := hrun.modifies hfetch hm hr hop (.inl rfl)
      (f := fun value cpu => value &&& ~~~opcodeBit cpu) rfl fun c => by rw [opcodeBit_eq]
    obtain ⟨hlow, hbits⟩ := rmb_table (zpOperand m r)
    dsimp only
    rw [hmem, hregs, hlow, hupdate.eq_iff, hbits _ hn]
    exact and_iff_left rfl
  case smb =>
    obtain ⟨hregs, hmem⟩ := hrun.modifies hfetch hm hr hop (.inr rfl)
      (f := fun value cpu => value ||| opcodeBit cpu) rfl fun c => by rw [opcodeBit_eq]
    obtain ⟨hlow, hbits⟩ := smb_table (zpOperand m r)
    dsimp only
    rw [hmem, hregs, hlow, hupdate.eq_iff, hbits _ hn]
    exact and_iff_left rfl
  case bbr =>
    have hpc := hrun.branches hfetch hm hr hop (.inl rfl) (b := zpOperand m r == 0)
      (t := fun cpu => !valueAndBit cpu) rfl fun c hvalue => by
        rw [valueAndBit_eq, hvalue, operand_table, bne, Bool.not_not]
    dsimp only
    rw [hpc, BitVec.add_right_inj]
    exact bbr_offset_iff _ ne_zero_of_getLsbD
  case bbs =>
    have hpc := hrun.branches hfetch hm hr hop (.inr rfl) (b := zpOperand m r != 0)
      (t := valueAndBit) rfl fun c hvalue => by rw [valueAndBit_eq, hvalue, operand_table]
    dsimp only
    rw [hpc, BitVec.add_right_inj]
    exact bbs_offset_iff _ ne_zero_of_getLsbD
  all_goals exact Iff.rfl

/-- `RMB1 $10` at `$0200`, with `$FF` in the zero page. -/
def rmb1Emu : Emu Mem :=
  { bus := Bus.init flatRam.conns [] fun addr =>
      if addr = 0x0200 then 0x17 else if addr = 0x0201 then 0x10 else 0xFF
    cpu := { regs := { pc := 0x0200 } } }

/-- `BBS0 $10, $0210` at `$0200`, with `$01` in the zero page. -/
def bbs0Emu : Emu Mem :=
  { bus := Bus.init flatRam.conns [] fun addr =>
      if addr = 0x0200 then 0x8F else if addr = 0x0201 then 0x10 else if addr = 0x0202 then 0x0D else 0x01
    cpu := { regs := { pc := 0x0200 } } }

theorem bit_instructions_of_bbs0 : ∃ e, Executes bbs0Emu e ∧ e.cpu.regs.pc = 0x0210 := by
  have hfetch : Fetches flatRam bbs0Emu := ⟨⟨rfl, rfl, trivial⟩, rfl, rfl, by decide⟩
  obtain ⟨⟨e, hrun⟩, hall⟩ := bit_instructions hfetch
  have hacts := (hall e hrun).mpr (show (0x0D#8) < 0x80 by decide)
  exact ⟨e, hrun, hacts⟩

/-- `RMB1` clears bit 0. -/
theorem rmb1_clears_bit_zero :
    ¬ ∀ (emu e : Emu Mem), Fetches flatRam emu → Executes emu e →
      ActsOnBit (flatRam.mem emu.bus.devs) emu.cpu.regs e.cpu.regs (flatRam.mem e.bus.devs) := by
  intro hclaim
  have hfetch : Fetches flatRam rmb1Emu := ⟨⟨rfl, rfl, trivial⟩, rfl, rfl, by decide⟩
  obtain ⟨e, hrun⟩ := hfetch.exists
  have hop : optable (flatRam.mem rmb1Emu.bus.devs rmb1Emu.cpu.regs.pc) = .rmb := by decide
  obtain ⟨-, hmem⟩ := hrun.modifies hfetch rfl rfl hop (.inl rfl)
    (f := fun value cpu => value &&& ~~~opcodeBit cpu) rfl fun c => by rw [opcodeBit_eq]
  have hacts := congrFun (hclaim rmb1Emu e hfetch hrun).1 0x0010
  rw [hmem] at hacts
  exact absurd hacts (by decide)

end Cb6502
