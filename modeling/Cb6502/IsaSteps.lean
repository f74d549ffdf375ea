import Cb6502.Isa

/- The emulator refines the instruction set. From a boundary that fetches, whatever the votes
   and the stalls on the way, the instruction ends with the registers and the bytes of
   `Machine.step`. Each family of handlers has a rule of its own: those that end with their
   first call, the stores with a penalty cycle, the decimal mode, the instructions that write
   two calls after they read, the branches and the stack.

   What is proved:
   1. `Executes.machine_of_calls`: what every call of the handler leads to is where the
      instruction ends.
   2. `executes_step_machine`: every instruction is a step of the machine. -/
namespace Cb6502
open Dialogue

variable {ω : Type} {R : Ram ω}

/-! ## What the calls of a handler lead to -/

/-- A call of the opcode handler ends the instruction at `s'`, or leaves `X` to the next one. -/
structure CallLeads (X : Cpu → Mem → Prop) (s' : Machine) (c : Cpu) (mem : Mem) : Prop where
  inside : c.opState ≠ .opcode → X c mem
  done : c.opState = .opcode → (⟨c.regs, mem⟩ : Machine) = s'

theorem CallLeads.of_done {X : Cpu → Mem → Prop} {s' : Machine} {c : Cpu} {mem : Mem}
    (hs : c.opState = .opcode) (h : (⟨c.regs, mem⟩ : Machine) = s') : CallLeads X s' c mem :=
  ⟨fun hne => absurd hs hne, fun _ => h⟩

theorem CallLeads.of_inside {X : Cpu → Mem → Prop} {s' : Machine} {c : Cpu} {mem : Mem}
    (hs : c.opState ≠ .opcode) (h : X c mem) : CallLeads X s' c mem :=
  ⟨fun _ => h, fun heq => absurd heq hs⟩

/-- The call that ends the instruction. -/
structure EndsAt (s' : Machine) (result : Cpu × RamState) : Prop where
  state : result.1.opState = .opcode
  machine : (⟨result.1.regs, result.2.mem⟩ : Machine) = s'

section
variable {emu e : Emu ω} {m : Mem} {r : CpuRegs} {op : Op} {s' : Machine} (hrun : Executes emu e)
  (h : Fetches R emu) (hm : R.mem emu.bus.devs = m) (hr : emu.cpu.regs = r)
include hrun h hm hr

theorem Executes.machine_of_calls (hop : optable (m r.pc) = op) (hbrk : op ≠ .brk) (hjsr : op ≠ .jsr)
    (X : Cpu → Mem → Prop)
    (hready : ∀ (c : Cpu) (s : RamState), HandlerReady m r c s.mem →
      CallLeads X s' ((ops op c).run ramEnv s).1 ((ops op c).run ramEnv s).2.mem)
    (hstep : ∀ (c : Cpu) (s : RamState), X c s.mem → c.opcode = m r.pc →
      CallLeads X s' ((ops op c).run ramEnv s).1 ((ops op c).run ramEnv s).2.mem)
    (hclear : ∀ c mem, X c mem → X c.clearCycle mem) : e.machine R = s' := by
  subst hm hr
  have hX := hrun.rule h hop hbrk hjsr (X := CallLeads X s') hready ?_ ?_
  · obtain ⟨n, -, he⟩ := hrun
    exact hX.done he
  · intro c s hleads hopcode hstate
    have hne : c.opState ≠ .opcode := by
      rintro heq
      rw [heq] at hstate
      exact absurd hstate (by decide)
    exact hstep c s (hleads.inside hne) hopcode
  · intro c mem hleads
    exact ⟨fun hne => hclear c mem (hleads.inside hne), hleads.done⟩

/-- A handler that ends with its first call. -/
theorem Executes.machine_of_once (hop : optable (m r.pc) = op) (hbrk : op ≠ .brk) (hjsr : op ≠ .jsr)
    (hready : ∀ (c : Cpu) (s : RamState), HandlerReady m r c s.mem →
      EndsAt s' ((ops op c).run ramEnv s)) :
    e.machine R = s' := by
  refine hrun.machine_of_calls h hm hr hop hbrk hjsr (fun _ _ => False) ?_ (fun _ _ hF => hF.elim)
    fun _ _ hF => hF.elim
  intro c s hc
  exact .of_done (hready c s hc).state (hready c s hc).machine

end

/-! ## The state at the first call -/

section
variable {m : Mem} {r : CpuRegs} {c : Cpu} {mem : Mem}

/-- The registers behind the instruction. -/
def nextRegs (m : Mem) (r : CpuRegs) : CpuRegs :=
  { r with pc := r.pc + BitVec.ofNat 16 (addrLengths (addrtable (m r.pc))) }

theorem HandlerReady.next (h : HandlerReady m r c mem) (hjumps : (optable (m r.pc)).jumps = false) :
    c.regs = nextRegs m r := by
  rw [h.regs, bytesRead_table _ hjumps]
  rfl

theorem operandByte_of_some {v : BitVec 8} (h : (operandByte m r).getD 0 = v)
    (hmode : (addrtable (m r.pc)).hasAddress = true ∨ addrtable (m r.pc) = .acc) :
    operandByte m r = some v := by
  subst h
  rcases hmode with hmode | hacc
  · obtain ⟨ea, hea⟩ := operandAddress_of_hasAddress (m := m) (r := r) hmode
    rw [operandByte_of_hasAddress hmode hea]
    rfl
  · unfold operandByte
    rw [if_pos hacc]
    rfl

end

/-! ## The handlers that only compute -/

section Computes
variable {c : Cpu} {s : RamState} {v : BitVec 8}

theorem CpuRegs.zn_eq (r : CpuRegs) (b : BitVec 8) : r.zn b = r.nz b := by
  rw [CpuRegs.zn, CpuRegs.nz, zncalc_eq, u8_u16]

theorem bit_status : ∀ (v status : BitVec 8),
    (status &&& 0x3F) ||| u8 (u16 v &&& 0xC0) =
      flagIf flagSign v.msb (flagIf flagOverflow (v.getLsbD 6) status) := by
  have hbits : ∀ v : BitVec 8, u8 (u16 v &&& 0xC0) =
      (if v.msb then 0x80 else 0x00) ||| if v.getLsbD 6 then 0x40 else 0x00 := by
    decide +kernel
  have hflags : ∀ (n o : Bool) (status : BitVec 8),
      (status &&& 0x3F) ||| ((if n then 0x80 else 0x00) ||| if o then 0x40 else 0x00) =
        flagIf flagSign n (flagIf flagOverflow o status) := by
    decide +kernel
  intro v status
  rw [hbits, hflags]

/-- `op` reads its operand and changes the registers. -/
def Op.reads : Op → Bool
  | .and | .eor | .ora | .cmp | .cpx | .cpy | .bit | .lda | .ldx | .ldy => true
  | _ => false

section
variable (hv : ((getvalue c).run ramEnv s).1 = u16 v)
include hv

theorem run_logical {f : BitVec 16 → BitVec 16 → BitVec 16} {b : BitVec 8}
    (hf : u8 (f (u16 c.regs.a) (u16 v)) = b) :
    EndsAt ⟨{ c.regs with a := b }.nz b, ((getvalue c).run ramEnv s).2.mem⟩
      ((logical f c).run ramEnv s) := by
  unfold logical
  rw [Prog.run_bind, hv]
  refine ⟨rfl, ?_⟩
  show Machine.mk { c.regs with
    a := u8 (f (u16 c.regs.a) (u16 v))
    status := zncalc c.regs.status (f (u16 c.regs.a) (u16 v)) } _ = _
  rw [zncalc_eq, hf]
  rfl

theorem run_compare_regs (reg : CpuRegs → BitVec 8) :
    EndsAt ⟨{ c.regs with status := comparedStatus (reg c.regs) v c.regs.status },
      ((getvalue c).run ramEnv s).2.mem⟩ ((compare reg c).run ramEnv s) := by
  unfold compare comparedStatus
  rw [Prog.run_bind, hv, ← u8_sub, ← signcalc_eq, u8_u16]
  exact ⟨rfl, rfl⟩

theorem run_bit : EndsAt ⟨{ c.regs with status := bitStatus c.regs v }, ((getvalue c).run ramEnv s).2.mem⟩
    ((bit c).run ramEnv s) := by
  have hand : u8 (u16 c.regs.a &&& u16 v) = c.regs.a &&& v := by
    ext i hi
    simp
  unfold bit bitStatus
  rw [Prog.run_bind, hv]
  refine ⟨rfl, ?_⟩
  show Machine.mk { c.regs with
    status := (zerocalc c.regs.status (u16 c.regs.a &&& u16 v) &&& 0x3F) ||| u8 (u16 v &&& 0xC0) }
      ((getvalue c).run ramEnv s).2.mem = _
  rw [bit_status, zerocalc_eq, hand]

theorem run_load (put : BitVec 8 → CpuRegs → CpuRegs)
    (hput : ∀ b r, (put b r).status = r.status) :
    EndsAt ⟨(put v c.regs).nz v, ((getvalue c).run ramEnv s).2.mem⟩ ((load put c).run ramEnv s) := by
  unfold load
  rw [Prog.run_bind, hv, u8_u16]
  refine ⟨rfl, ?_⟩
  show Machine.mk { put v c.regs with status := zncalc c.regs.status (u16 v) } _ = _
  rw [zncalc_eq, u8_u16, ← hput v c.regs]
  rfl

theorem run_reads {op : Op} (hop : op.reads = true) :
    EndsAt ⟨op.compute c.regs v, ((getvalue c).run ramEnv s).2.mem⟩ ((ops op c).run ramEnv s) := by
  cases op
  case and =>
    refine run_logical hv ?_
    ext i hi
    simp
  case eor =>
    refine run_logical hv ?_
    ext i hi
    simp
  case ora =>
    refine run_logical hv ?_
    ext i hi
    simp
  case cmp => exact run_compare_regs hv CpuRegs.a
  case cpx => exact run_compare_regs hv CpuRegs.x
  case cpy => exact run_compare_regs hv CpuRegs.y
  case bit => exact run_bit hv
  case lda => exact run_load hv (fun b r => { r with a := b }) fun _ _ => rfl
  case ldx => exact run_load hv (fun b r => { r with x := b }) fun _ _ => rfl
  case ldy => exact run_load hv (fun b r => { r with y := b }) fun _ _ => rfl
  all_goals exact absurd hop Bool.false_ne_true

end

/-- `op` changes the registers and has no operand. -/
def Op.silent : Op → Bool
  | .clc | .cld | .cli | .clv | .sec | .sed | .sei | .dex | .dey | .inx | .iny | .tax | .tay | .tsx
  | .txa | .tya | .txs | .nop | .wai => true
  | _ => false

theorem run_silent {op : Op} (hop : op.silent = true) (v : BitVec 8) :
    EndsAt ⟨op.compute c.regs v, s.mem⟩ ((ops op c).run ramEnv s) := by
  cases op
  case clc | cld | cli | clv | sec | sed | sei | txs | nop | wai => exact ⟨rfl, rfl⟩
  case dex | dey | inx | iny | tax | tay | tsx | txa | tya =>
    refine ⟨rfl, ?_⟩
    exact congrArg (Machine.mk · s.mem) (CpuRegs.zn_eq _ _)
  all_goals exact absurd hop Bool.false_ne_true

end Computes

/-! ## ADC and SBC -/

theorem flagIf_of_clear : ∀ (status : BitVec 8) (b : Bool),
    (if b then setFlag flagCarry (clearFlag flagCarry status) else clearFlag flagCarry status) =
      flagIf flagCarry b status := by
  decide +kernel

/-- The registers with an adjusted accumulator. -/
def CpuRegs.adjust (r : CpuRegs) (result : BitVec 8 × Bool) : CpuRegs :=
  { r with a := result.1, status := flagIf flagCarry result.2 r.status }

/-- The second call is to come, on what the adjustment `f` makes of the CPU. -/
def AdjustWaits (f : Cpu → BitVec 8 × Bool) (s' : Machine) (c : Cpu) (mem : Mem) : Prop :=
  c.opState = .op1 ∧ (⟨c.regs.adjust (f c), mem⟩ : Machine) = s'

/-- The adjustment of ADC is that of the scratch value, the one of SBC that of the accumulator. -/
def adcAdjusted (c : Cpu) : BitVec 8 × Bool := (u8 (adcAdjust c.result).1, (adcAdjust c.result).2)

def sbcAdjusted (c : Cpu) : BitVec 8 × Bool := sbcAdjust c.regs.a

section Adjusts
variable {c : Cpu} {s : RamState}

theorem run_adc_adjust (hs : c.opState = .op1) :
    EndsAt ⟨c.regs.adjust (adcAdjusted c), s.mem⟩ ((adc c).run ramEnv s) := by
  have hne : ¬c.opState = .op0 := by
    rw [hs]
    decide
  have hflag := flagIf_of_clear c.regs.status
  unfold adc CpuRegs.adjust adcAdjusted adcAdjust
  rw [if_neg hne]
  dsimp only
  generalize (if 0x09 < c.result &&& 0x0F then c.result + 0x06 else c.result) = result
  split
  · exact ⟨rfl, by rw [← hflag]; rfl⟩
  · exact ⟨rfl, by rw [← hflag]; rfl⟩

theorem run_sbc_adjust (hs : c.opState = .op1) :
    EndsAt ⟨c.regs.adjust (sbcAdjusted c), s.mem⟩ ((sbc c).run ramEnv s) := by
  have hne : ¬c.opState = .op0 := by
    rw [hs]
    decide
  have hflag := flagIf_of_clear c.regs.status
  unfold sbc CpuRegs.adjust sbcAdjusted sbcAdjust
  rw [if_neg hne]
  dsimp only
  generalize (if 0x09 < c.regs.a - 0x66 &&& 0x0F then c.regs.a - 0x66 + 0x06
    else c.regs.a - 0x66) = a
  split
  · exact ⟨rfl, by rw [← hflag]; rfl⟩
  · exact ⟨rfl, by rw [← hflag]; rfl⟩

variable {v : BitVec 8} (hv : ((getvalue c).run ramEnv s).1 = u16 v) (hs : c.opState = .op0)
include hv hs

theorem run_adc_first : CallLeads
    (AdjustWaits adcAdjusted ⟨adcRegs c.regs v, ((getvalue c).run ramEnv s).2.mem⟩)
    ⟨adcRegs c.regs v, ((getvalue c).run ramEnv s).2.mem⟩
    ((adc c).run ramEnv s).1 ((adc c).run ramEnv s).2.mem := by
  by_cases hd : c.regs.status &&& flagDecimal = 0
  · obtain ⟨hstate, hregs, hmem⟩ := run_adc_binary hv hs hd
    have hflag : hasFlag flagDecimal c.regs.status = false := bne_eq_false_iff_eq.mpr hd
    refine .of_done hstate ?_
    rw [hregs, hmem, adcRegs, hflag]
    rfl
  · have hflag : hasFlag flagDecimal c.regs.status = true := bne_iff_ne.mpr hd
    have hdecimal : (addWithFlags c (u16 v)).regs.status &&& flagDecimal ≠ 0 := by
      rw [addWithFlags_decimal]
      exact hd
    have hrun : (adc c).run ramEnv s =
        (advanceState (addWithFlags c (u16 v)) .op1 true, ((getvalue c).run ramEnv s).2) := by
      unfold adc
      rw [if_pos hs, Prog.run_bind, hv, if_pos hdecimal]
      rfl
    rw [hrun]
    refine .of_inside (by rintro ⟨⟩) ⟨rfl, ?_⟩
    show Machine.mk ((addWithFlags c (u16 v)).regs.adjust _) _ = _
    rw [(addWithFlags_binary c v).2, adcRegs, hflag]
    rfl

theorem run_sbc_first : CallLeads
    (AdjustWaits sbcAdjusted ⟨sbcRegs c.regs v, ((getvalue c).run ramEnv s).2.mem⟩)
    ⟨sbcRegs c.regs v, ((getvalue c).run ramEnv s).2.mem⟩
    ((sbc c).run ramEnv s).1 ((sbc c).run ramEnv s).2.mem := by
  by_cases hd : c.regs.status &&& flagDecimal = 0
  · obtain ⟨hstate, hregs, hmem⟩ := run_sbc_binary hv hs hd
    have hflag : hasFlag flagDecimal c.regs.status = false := bne_eq_false_iff_eq.mpr hd
    refine .of_done hstate ?_
    rw [hregs, hmem, sbcRegs, hflag]
    rfl
  · have hflag : hasFlag flagDecimal c.regs.status = true := bne_iff_ne.mpr hd
    have hdecimal : (addWithFlags c (u16 (~~~v))).regs.status &&& flagDecimal ≠ 0 := by
      rw [addWithFlags_decimal]
      exact hd
    have hrun : (sbc c).run ramEnv s =
        (advanceState (addWithFlags c (u16 (~~~v))) .op1 true, ((getvalue c).run ramEnv s).2) := by
      unfold sbc
      rw [if_pos hs, Prog.run_bind, hv, not_u16, if_pos hdecimal]
      rfl
    rw [hrun]
    refine .of_inside (by rintro ⟨⟩) ⟨rfl, ?_⟩
    have ha : (addWithFlags c (u16 (~~~v))).regs.a = c.regs.a := rfl
    show Machine.mk ((addWithFlags c (u16 (~~~v))).regs.adjust
      (sbcAdjust (addWithFlags c (u16 (~~~v))).regs.a)) _ = _
    rw [ha, (addWithFlags_binary c (~~~v)).2, sbcRegs, hflag]
    rfl

end Adjusts

/-! ## Stores -/

/-- The store is still to come. -/
def StoreWaits (r : CpuRegs) (m : Mem) (ea : BitVec 16) (c : Cpu) (mem : Mem) : Prop :=
  c.regs = r ∧ c.ea = ea ∧ mem = m ∧ addrtable c.opcode ≠ .acc

section Stores
variable {c : Cpu} {s : RamState} {r : CpuRegs} {m : Mem} {ea : BitVec 16}

theorem run_storeReg (reg : CpuRegs → BitVec 8) (h : StoreWaits r m ea c s.mem) :
    CallLeads (StoreWaits r m ea) ⟨r, Function.update m ea (reg r)⟩ ((store reg c).run ramEnv s).1
      ((store reg c).run ramEnv s).2.mem := by
  obtain ⟨rfl, rfl, rfl, hacc⟩ := h
  unfold store
  dsimp only
  split
  · exact .of_inside (by rintro ⟨⟩) ⟨rfl, rfl, rfl, hacc⟩
  · simp only [putvalue, if_neg hacc, BusM.write_bind, Prog.tell_bind, Prog.pure_eq, Prog.done_bind,
      Prog.run_tell, Prog.run_done, u8_u16]
    exact .of_done rfl rfl

theorem run_sta (h : StoreWaits r m ea c s.mem) :
    CallLeads (StoreWaits r m ea) ⟨r, Function.update m ea r.a⟩ ((sta c).run ramEnv s).1
      ((sta c).run ramEnv s).2.mem := by
  unfold sta
  split
  · obtain ⟨rfl, rfl, rfl, hacc⟩ := h
    exact .of_inside (by rintro ⟨⟩) ⟨rfl, rfl, rfl, hacc⟩
  · exact run_storeReg CpuRegs.a h

def storeOps : List Op := [.sta, .stx, .sty, .stz]

theorem run_stores {op : Op} (hop : op ∈ storeOps) (h : StoreWaits r m ea c s.mem) :
    CallLeads (StoreWaits r m ea) ⟨r, Function.update m ea (op.stored r)⟩ ((ops op c).run ramEnv s).1
      ((ops op c).run ramEnv s).2.mem := by
  simp only [storeOps, List.mem_cons, List.not_mem_nil, or_false] at hop
  rcases hop with rfl | rfl | rfl | rfl
  · exact run_sta h
  · exact run_storeReg CpuRegs.x h
  · exact run_storeReg CpuRegs.y h
  · exact run_storeReg (fun _ => 0) h

end Stores

/-! ## The instructions, family by family -/

section
variable {emu e : Emu ω} {m : Mem} {r : CpuRegs} (hrun : Executes emu e) (h : Fetches R emu)
  (hm : R.mem emu.bus.devs = m) (hr : emu.cpu.regs = r)

/-- The opcodes with an operand to read or to write. -/
theorem operand_modes : ∀ opcode : BitVec 8,
    ((optable opcode).reads = true ∨ optable opcode ∈ storeOps ∨ optable opcode ∈ arithmeticOps ∨
        optable opcode ∈ [Op.rmb, .smb, .jmp] → (addrtable opcode).hasAddress = true) ∧
      (optable opcode = .jmp → optable opcode ≠ .jsr) := by
  decide +kernel

include hrun h hm hr

theorem Executes.machine_reads (hop : (optable (m r.pc)).reads = true) :
    e.machine R = ⟨(optable (m r.pc)).compute (nextRegs m r) ((operandByte m r).getD 0), m⟩ := by
  have hne : ∀ op : Op, op.reads = true → op ≠ .brk ∧ op ≠ .jsr ∧ op.jumps = false := by
    intro op
    cases op <;> decide
  obtain ⟨hbrk, hjsr, hjumps⟩ := hne _ hop
  have hbyte := operandByte_of_some rfl (.inl ((operand_modes _).1 (.inl hop)))
  refine hrun.machine_of_once h hm hr rfl hbrk hjsr ?_
  intro c s hready
  obtain ⟨hv, hmem⟩ := hready.getvalue hbyte
  have hends := run_reads hv hop
  rw [hready.next hjumps, hmem] at hends
  exact hends

theorem Executes.machine_silent (hop : (optable (m r.pc)).silent = true) (v : BitVec 8) :
    e.machine R = ⟨(optable (m r.pc)).compute (nextRegs m r) v, m⟩ := by
  have hne : ∀ op : Op, op.silent = true → op ≠ .brk ∧ op ≠ .jsr ∧ op.jumps = false := by
    intro op
    cases op <;> decide
  obtain ⟨hbrk, hjsr, hjumps⟩ := hne _ hop
  refine hrun.machine_of_once h hm hr rfl hbrk hjsr ?_
  intro c s hready
  have hends := run_silent (c := c) (s := s) hop v
  rw [hready.next hjumps, hready.mem] at hends
  exact hends

theorem Executes.machine_adds (hop : optable (m r.pc) = .adc ∨ optable (m r.pc) = .sbc) :
    e.machine R = ⟨(optable (m r.pc)).compute (nextRegs m r) ((operandByte m r).getD 0), m⟩ := by
  have hmode : (addrtable (m r.pc)).hasAddress = true := by
    refine (operand_modes _).1 (.inr (.inr (.inl ?_)))
    rcases hop with hop | hop <;> rw [hop] <;> decide
  have hjumps : (optable (m r.pc)).jumps = false := by
    rcases hop with hop | hop <;> rw [hop] <;> rfl
  have hbyte := operandByte_of_some rfl (.inl hmode)
  rcases hop with hop | hop <;> rw [hop]
  · refine hrun.machine_of_calls h hm hr hop (by decide) (by decide) 
      (AdjustWaits adcAdjusted ⟨adcRegs (nextRegs m r) ((operandByte m r).getD 0), m⟩) ?_ ?_ fun _ _ hw => hw
    · intro c s hready
      obtain ⟨hv, hmem⟩ := hready.getvalue hbyte
      have hleads := run_adc_first hv hready.state
      rw [hready.next hjumps, hmem] at hleads
      exact hleads
    · intro c s hwaits hopcode
      have hends := run_adc_adjust (s := s) hwaits.1
      exact .of_done hends.state (hends.machine.trans hwaits.2)
  · refine hrun.machine_of_calls h hm hr hop (by decide) (by decide) 
      (AdjustWaits sbcAdjusted ⟨sbcRegs (nextRegs m r) ((operandByte m r).getD 0), m⟩) ?_ ?_ fun _ _ hw => hw
    · intro c s hready
      obtain ⟨hv, hmem⟩ := hready.getvalue hbyte
      have hleads := run_sbc_first hv hready.state
      rw [hready.next hjumps, hmem] at hleads
      exact hleads
    · intro c s hwaits hopcode
      have hends := run_sbc_adjust (s := s) hwaits.1
      exact .of_done hends.state (hends.machine.trans hwaits.2)

theorem Executes.machine_stores (hop : optable (m r.pc) ∈ storeOps) :
    e.machine R = ⟨nextRegs m r,
      Function.update m ((operandAddress m r (addrtable (m r.pc))).getD 0) ((optable (m r.pc)).stored r)⟩ := by
  have hne : ∀ op ∈ storeOps, op ≠ .brk ∧ op ≠ .jsr ∧ op.jumps = false := by decide
  obtain ⟨hbrk, hjsr, hjumps⟩ := hne _ hop
  have hmode := (operand_modes _).1 (.inr (.inl hop))
  obtain ⟨ea, hea⟩ := operandAddress_of_hasAddress (m := m) (r := r) hmode
  have hacc : addrtable (m r.pc) ≠ .acc := by
    intro hacc
    rw [hacc] at hmode
    exact absurd hmode (by decide)
  have hstored : (optable (m r.pc)).stored (nextRegs m r) = (optable (m r.pc)).stored r := by
    cases optable (m r.pc) <;> rfl
  rw [hea, ← hstored]
  refine hrun.machine_of_calls h hm hr rfl hbrk hjsr (StoreWaits (nextRegs m r) m ea) ?_ ?_ fun _ _ hw => hw
  · intro c s hready
    refine run_stores hop ⟨hready.next hjumps, hready.ea ea hea, hready.mem, ?_⟩
    rw [hready.opcode]
    exact hacc
  · intro c s hwaits _
    exact run_stores hop hwaits

theorem Executes.machine_jmp (hop : optable (m r.pc) = .jmp) :
    e.machine R = ⟨{ r with pc := (operandAddress m r (addrtable (m r.pc))).getD 0 }, m⟩ := by
  have hmode := (operand_modes (m r.pc)).1 (.inr (.inr (.inr (by rw [hop]; decide))))
  obtain ⟨ea, hea⟩ := operandAddress_of_hasAddress (m := m) (r := r) hmode
  rw [hea]
  refine hrun.machine_of_once h hm hr hop (by decide) (by decide) ?_
  intro c s hready
  refine ⟨rfl, ?_⟩
  show Machine.mk { c.regs with pc := c.ea } s.mem = _
  rw [hready.ea ea hea, hready.regs, hready.mem]
  rfl

/-! ### Read-modify-write -/

theorem Executes.machine_modifies (hop : optable (m r.pc) ∈ rmwOps) :
    e.machine R = if addrtable (m r.pc) = .acc then
        ⟨{ nextRegs m r with
            a := rmwResult (optable (m r.pc)) r ((operandByte m r).getD 0)
            status := rmwStatus (optable (m r.pc)) r ((operandByte m r).getD 0) }, m⟩
      else
        ⟨{ nextRegs m r with status := rmwStatus (optable (m r.pc)) r ((operandByte m r).getD 0) },
          Function.update m ((operandAddress m r (addrtable (m r.pc))).getD 0)
            (rmwResult (optable (m r.pc)) r ((operandByte m r).getD 0))⟩ := by
  have hne : ∀ op ∈ rmwOps, op ≠ .brk ∧ op ≠ .jsr ∧ op.jumps = false := by decide
  obtain ⟨hbrk, hjsr, hjumps⟩ := hne _ hop
  obtain ⟨-, htest, -⟩ := rmw_table _ hop
  have hnext : { r with pc := r.pc + bytesRead (addrtable (m r.pc)) } = nextRegs m r := by
    rw [bytesRead_table _ hjumps]
    rfl
  have hoff : ∀ {s : OpState}, s ∈ [OpState.op1, .op2, .op3, .op4] → s ≠ .opcode := by decide
  obtain ⟨n, hinstr, he⟩ := hrun
  obtain ⟨log, hbus⟩ := hinstr.busRun h.ram h.boundary
  subst hm hr
  by_cases hacc : addrtable (R.mem emu.bus.devs emu.cpu.regs.pc) = .acc
  · have hX := hbus.rule he h rfl hbrk hjsr (X := RmwAccPhase _ (nextRegs _ _) _)
      (fun c s hready hw => rmwAccPhase_first hop (htest hacc) (by rw [hready.opcode]; exact hacc)
        (hready.next hjumps) hready.mem hw hready.state)
      (fun c s hX _ hstate => rmwAccPhase_step hX (hoff hstate)) fun c s h => h
    have hbyte : (operandByte (R.mem emu.bus.devs) emu.cpu.regs).getD 0 = emu.cpu.regs.a := by
      rw [operandByte, if_pos hacc]
      rfl
    rw [if_pos hacc, hbyte]
    rcases hX with ⟨hs, -⟩ | ⟨-, hdone⟩
    · exact absurd (hs.symm.trans he) (by decide)
    · have hregs : e.cpu.regs = _ := hdone.regs
      have hmem : R.mem e.bus.devs = _ := hdone.mem
      rw [Emu.machine, hregs, hmem]
      rfl
  · obtain ⟨ea, -, hea⟩ := rmw_address hop hacc
    have hX := hbus.rule he h rfl hbrk hjsr (X := RmwPhase _ (nextRegs _ _) _ ea)
      (fun c s hready hw => rmwPhase_first hop (hnext ▸ hready.rmwUnread hw hacc hea) hready.state)
      (fun c s hX _ hstate => rmwPhase_step hop hX (hoff hstate)) fun c s hX => hX.clearCycle
    have hdone := hX.stored he
    have hbyte : (operandByte (R.mem emu.bus.devs) emu.cpu.regs).getD 0 = R.mem emu.bus.devs ea := by
      rw [operandByte, if_neg hacc, hea]
      rfl
    rw [if_neg hacc, hbyte, hea]
    have hregs : e.cpu.regs = _ := hdone.regs
    have hmem : R.mem e.bus.devs = _ := hdone.mem
    rw [Emu.machine, hregs, hmem]
    rfl

theorem Executes.machine_bits (hop : optable (m r.pc) = .rmb ∨ optable (m r.pc) = .smb) :
    e.machine R = ⟨nextRegs m r, Function.update m ((operandAddress m r (addrtable (m r.pc))).getD 0)
      ((optable (m r.pc)).bitZero ((operandByte m r).getD 0))⟩ := by
  have hmode := zp_table _ hop
  have hbyte : (operandByte m r).getD 0 = zpOperand m r := by
    rw [operandByte, hmode]
    rfl
  have hnext : nextRegs m r = { r with pc := r.pc + 2 } := by
    rw [nextRegs, hmode]
    rfl
  rw [hbyte, hnext, hmode]
  show Machine.mk e.cpu.regs _ = _
  rcases hop with hop | hop
  · obtain ⟨hregs, hmem⟩ := hrun.modifies h hm hr hop (.inl rfl)
      (f := fun value cpu => value &&& ~~~opcodeBit cpu) rfl fun c => by rw [opcodeBit_eq]
    rw [hregs, hmem, hop, (rmb_table (zpOperand m r)).1]
    rfl
  · obtain ⟨hregs, hmem⟩ := hrun.modifies h hm hr hop (.inr rfl)
      (f := fun value cpu => value ||| opcodeBit cpu) rfl fun c => by rw [opcodeBit_eq]
    rw [hregs, hmem, hop, (smb_table (zpOperand m r)).1]
    rfl

/-! ### Branches -/

/-- Where the branch at `r.pc` leads. -/
def branchEnd (m : Mem) (r : CpuRegs) : Machine :=
  ⟨{ nextRegs m r with
      pc := if branchesAway m r then (nextRegs m r).pc + branchDistance m r else (nextRegs m r).pc }, m⟩

omit hrun h hm hr in
/-- The branches of `bxx` and `bra`, and what decides them. -/
theorem flagBranch_table : ∀ opcode : BitVec 8, optable opcode = .bxx ∨ optable opcode = .bra →
    addrtable opcode = .rel ∧ ∃ b ∈ [Branch.bpl, .bmi, .bvc, .bvs, .bcc, .bcs, .bne, .beq, .bra],
      opcode = b.opcode := by
  decide +kernel

omit hrun h hm hr in
theorem Branch.taken_eq (b : Branch) (status : BitVec 8) (hop : optable b.opcode = .bxx) :
    b.taken status = (hasFlag (branchFlag b.opcode) status == b.opcode.getLsbD 5) := by
  revert hop status
  cases b <;> decide +kernel

omit hrun h hm hr in
theorem branchesAway_flag {b : Branch} (hop : m r.pc = b.opcode) : branchesAway m r = b.taken r.status := by
  unfold branchesAway
  rw [hop]
  by_cases hbra : b = .bra
  · rw [hbra]
    rfl
  · have hbxx : optable b.opcode = .bxx := by
      revert hbra
      cases b <;> decide
    rw [hbxx, b.taken_eq r.status hbxx]

theorem Executes.machine_flagBranch (hop : optable (m r.pc) = .bxx ∨ optable (m r.pc) = .bra) :
    e.machine R = branchEnd m r := by
  obtain ⟨hmode, b, -, hb⟩ := flagBranch_table _ hop
  have hnext : nextRegs m r = { r with pc := r.pc + 1 + 1 } := by
    rw [nextRegs, hmode, pc_add_two]
    rfl
  have hdistance : branchDistance m r = (m (r.pc + 1)).signExtend 16 := by
    rw [branchDistance, hmode]
    rfl
  rw [branchEnd, hnext, hdistance, branchesAway_flag hb]
  subst hm hr
  obtain ⟨n, hinstr, he⟩ := hrun
  have hfirst : emu.firstCore R = _ := core_tick_fetch (c := emu.core R) h.boundary h.noInt
  obtain ⟨k, -, hreach⟩ := branch_reaches b (emu.firstCore R) (by rw [hfirst])
    (by rw [hfirst]; exact hb) (by rw [hfirst])
  have hcore := (hinstr.ends h.ram h.boundary he hreach rfl).2.1
  rw [hfirst] at hcore
  have hregs : e.cpu.regs = _ := congrArg (fun c => c.cpu.regs) hcore
  have hmem : R.mem e.bus.devs = _ := congrArg Core.mem hcore
  rw [Emu.machine, hregs, hmem]
  rfl

/-- A branch in the middle of its cycles: it is taken, and the jump is to come. -/
def BranchWaits (s' : Machine) (c : Cpu) (mem : Mem) : Prop :=
  c.opState ∈ [OpState.op1, .op2] ∧ (⟨{ c.regs with pc := c.regs.pc + c.reladdr }, mem⟩ : Machine) = s'

omit hrun h hm hr in
theorem run_branchTaken {c : Cpu} {s : RamState} {s' : Machine} (t : Cpu → Bool)
    (h : BranchWaits s' c s.mem) :
    CallLeads (BranchWaits s') s' ((branch t c).run ramEnv s).1 ((branch t c).run ramEnv s).2.mem := by
  obtain ⟨hs, h⟩ := h
  simp only [List.mem_cons, List.not_mem_nil, or_false] at hs
  rcases hs with hs | hs
  · by_cases hpage : page c.regs.pc ≠ page (c.regs.pc + c.reladdr)
    · simp only [branch, branchTaken, hs, if_pos hpage]
      exact .of_inside (by rintro ⟨⟩) ⟨List.mem_cons_of_mem _ List.mem_cons_self, h⟩
    · simp only [branch, branchTaken, hs, if_neg hpage]
      exact .of_done rfl h
  · simp only [branch, branchTaken, hs]
    exact .of_done rfl h

omit hrun h hm hr in
/-- The handler of BBR or BBS is a branch on the operand. -/
theorem bitBranch_handler (hop : optable (m r.pc) = .bbr ∨ optable (m r.pc) = .bbs) :
    ∃ t : Cpu → Bool, ops (optable (m r.pc)) = branch t ∧
      ∀ c : Cpu, c.value = u16 (zpOperand m r) → t c = branchesAway m r := by
  unfold branchesAway
  rcases hop with hop | hop <;> rw [hop]
  · refine ⟨fun cpu => !valueAndBit cpu, rfl, fun c hvalue => ?_⟩
    show (!valueAndBit c) = _
    rw [valueAndBit_eq, hvalue, operand_table, bne, Bool.not_not]
  · refine ⟨valueAndBit, rfl, fun c hvalue => ?_⟩
    rw [valueAndBit_eq, hvalue, operand_table]

theorem Executes.machine_bitBranch (hop : optable (m r.pc) = .bbr ∨ optable (m r.pc) = .bbs) :
    e.machine R = branchEnd m r := by
  have hmode := branches_table _ hop
  have hjumps : (optable (m r.pc)).jumps = false := by
    rcases hop with hop | hop <;> rw [hop] <;> rfl
  have hdistance : branchDistance m r = u16 (branchOffset m r) := by
    rw [branchDistance, if_pos hmode]
  obtain ⟨t, hops, htaken⟩ := bitBranch_handler (m := m) (r := r) hop
  refine hrun.machine_of_calls h hm hr rfl (by rcases hop with hop | hop <;> rw [hop] <;> decide)
    (by rcases hop with hop | hop <;> rw [hop] <;> decide) (BranchWaits (branchEnd m r)) ?_ ?_ fun _ _ hw => hw
  · intro c s hready
    have htest := htaken c (hready.value hmode)
    have hregs := hready.next hjumps
    rw [hops]
    cases haway : branchesAway m r with
    | true =>
      simp only [branch, hready.state, htest.trans haway, if_true]
      refine .of_inside (by rintro ⟨⟩) ⟨List.mem_cons_self, ?_⟩
      show Machine.mk { c.regs with pc := c.regs.pc + c.reladdr } s.mem = _
      rw [hready.reladdr hmode, hregs, hready.mem, branchEnd, haway, hdistance]
      rfl
    | false =>
      simp only [branch, hready.state, htest.trans haway]
      refine .of_done rfl ?_
      show Machine.mk c.regs s.mem = _
      rw [hregs, hready.mem, branchEnd, haway]
      rfl
  · intro c s hwaits _
    rw [hops]
    exact run_branchTaken t hwaits

/-! ### The stack -/

omit hrun h hm hr in
theorem push_pull_table : ∀ opcode : BitVec 8,
    (optable opcode = .ph → opcode ∈ [0x08, 0x48, 0x5A, 0xDA]) ∧
      (optable opcode = .pl → opcode ∈ [0x28, 0x68, 0x7A, 0xFA]) := by
  decide +kernel

omit hrun h hm hr in
theorem phPush_eq {c : Cpu} (hop : optable c.opcode = .ph) :
    phPush c = push8 c (pushedByte c.opcode c.regs) := by
  have hcases := (push_pull_table c.opcode).1 hop
  simp only [List.mem_cons, List.not_mem_nil, or_false] at hcases
  unfold phPush pushedByte
  rcases hcases with h | h | h | h <;> simp [h]

omit hrun h hm hr in
theorem run_plPull_regs {c : Cpu} (s : RamState) (hop : optable c.opcode = .pl) :
    ((plPull c).run ramEnv s).1.regs =
        pulledRegs c.opcode (s.mem (stackAddr (c.regs.sp + 1))) { c.regs with sp := c.regs.sp + 1 } ∧
      ((plPull c).run ramEnv s).2.mem = s.mem := by
  have hcases := (push_pull_table c.opcode).2 hop
  simp only [List.mem_cons, List.not_mem_nil, or_false] at hcases
  unfold plPull pulledRegs
  rcases hcases with h | h | h | h <;>
    simp [h, pullReg, pull8, ramEnv, stackAddr, CpuRegs.nz, zncalc_eq]

/-- The handler waits to push or pull, the mode being done. -/
def StackWaits (states : List OpState) (r : CpuRegs) (m : Mem) (c : Cpu) (mem : Mem) : Prop :=
  c.opState ∈ states ∧ c.regs = r ∧ mem = m

theorem Executes.machine_push (hop : optable (m r.pc) = .ph) :
    e.machine R = ⟨{ nextRegs m r with sp := r.sp - 1 },
      Function.update m (stackAddr r.sp) (pushedByte (m r.pc) r)⟩ := by
  have hjumps : (optable (m r.pc)).jumps = false := by rw [hop]; rfl
  refine hrun.machine_of_calls h hm hr hop (by decide) (by decide) (StackWaits [.op1] (nextRegs m r) m)
    ?_ ?_ fun _ _ hw => hw
  · intro c s hready
    simp only [ops, ph, hready.state, if_true]
    exact .of_inside (by rintro ⟨⟩) ⟨List.mem_cons_self, hready.next hjumps, hready.mem⟩
  · rintro c s ⟨hs, hregs, hmem⟩ hopcode
    have hne : ¬c.opState = .op0 := by
      rw [List.mem_singleton.mp hs]
      decide
    have hpush := phPush_eq (c := c) (by rw [hopcode, hop])
    simp only [ops, ph, if_neg hne, hpush, push8]
    refine .of_done rfl ?_
    show Machine.mk { c.regs with sp := c.regs.sp - 1 }
      (Function.update s.mem (stackAddr c.regs.sp) (pushedByte c.opcode c.regs)) = _
    rw [hregs, hmem, hopcode]
    rfl

theorem Executes.machine_pull (hop : optable (m r.pc) = .pl) :
    e.machine R = ⟨pulledRegs (m r.pc) (m (stackAddr (r.sp + 1))) { nextRegs m r with sp := r.sp + 1 }, m⟩ := by
  have hjumps : (optable (m r.pc)).jumps = false := by rw [hop]; rfl
  refine hrun.machine_of_calls h hm hr hop (by decide) (by decide)
    (StackWaits [.op1, .op2] (nextRegs m r) m) ?_ ?_ fun _ _ hw => hw
  · intro c s hready
    simp only [ops, pl, hready.state]
    exact .of_inside (by rintro ⟨⟩) ⟨List.mem_cons_self, hready.next hjumps, hready.mem⟩
  · rintro c s ⟨hs, hregs, hmem⟩ hopcode
    simp only [List.mem_cons, List.not_mem_nil, or_false] at hs
    rcases hs with hs | hs
    · simp only [ops, pl, hs]
      exact .of_inside (by rintro ⟨⟩) ⟨List.mem_cons_of_mem _ List.mem_cons_self, hregs, hmem⟩
    · obtain ⟨hpulled, hsame⟩ := run_plPull_regs s (c := c) (by rw [hopcode, hop])
      simp only [ops, pl, hs, Prog.run_bind]
      refine .of_done rfl ?_
      show Machine.mk ((plPull c).run ramEnv s).1.regs ((plPull c).run ramEnv s).2.mem = _
      rw [hpulled, hsame, hregs, hmem, hopcode]
      rfl

omit hrun h hm hr in
/-- RTS keeps the registers it does not pull. -/
theorem run_rts_regs (c : Cpu) (s : RamState) : ((rts c).run ramEnv s).1.regs =
    { c.regs with
      pc := ((rts c).run ramEnv s).1.regs.pc
      sp := ((rts c).run ramEnv s).1.regs.sp } := by
  unfold rts
  cases c.opState <;> rfl

theorem Executes.machine_rts (hop : optable (m r.pc) = .rts) :
    e.machine R = ⟨{ r with
      pc := joinBytes (m (stackAddr (r.sp + 1))) (m (stackAddr (r.sp + 2))) + 1
      sp := r.sp + 2 }, m⟩ := by
  have hrts : ∀ opcode : BitVec 8, optable opcode = .rts → opcode = 0x60 := by decide +kernel
  subst hm hr
  have hkept := hrun.rule h hop (by decide) (by decide)
    (X := fun c _ => c.regs = { emu.cpu.regs with pc := c.regs.pc, sp := c.regs.sp }) ?_ ?_
    fun c mem hX => hX
  · obtain ⟨hmem, hsp, hpc⟩ := hrun.rts h (hrts _ hop)
    have hregs : e.cpu.regs = { emu.cpu.regs with pc := e.cpu.regs.pc, sp := e.cpu.regs.sp } := hkept
    rw [Emu.machine, hregs, hmem, hsp, hpc]
  · intro c s hready
    refine (run_rts_regs c s).trans ?_
    rw [hready.regs]
    rfl
  · intro c s hX _ _
    refine (run_rts_regs c s).trans ?_
    rw [hX]
    rfl

end

/-! ## Every instruction -/

theorem executes_step_machine {emu e : Emu ω} (hrun : Executes emu e) (h : Fetches R emu) :
    e.machine R = (emu.machine R).step := by
  obtain ⟨m, hm⟩ : ∃ m, R.mem emu.bus.devs = m := ⟨_, rfl⟩
  obtain ⟨r, hr⟩ : ∃ r, emu.cpu.regs = r := ⟨_, rfl⟩
  have hstart : emu.machine R = ⟨r, m⟩ := by rw [Emu.machine, hm, hr]
  rw [hstart]
  unfold Machine.step
  dsimp only
  cases hop : optable (m r.pc)
  case and | eor | ora | cmp | cpx | cpy | bit | lda | ldx | ldy =>
    rw [hrun.machine_reads h hm hr (by rw [hop]; rfl), hop]
    rfl
  case clc | cld | cli | clv | sec | sed | sei | dex | dey | inx | iny | tax | tay | tsx | txa | tya | txs
      | nop | wai =>
    rw [hrun.machine_silent h hm hr (by rw [hop]; rfl) ((operandByte m r).getD 0), hop]
    rfl
  case adc | sbc =>
    rw [hrun.machine_adds h hm hr (by rw [hop]; decide), hop]
    rfl
  case sta | stx | sty | stz =>
    rw [hrun.machine_stores h hm hr (by rw [hop]; decide), hop]
    rfl
  case asl | lsr | rol | ror | inc | dec | trb | tsb =>
    rw [hrun.machine_modifies h hm hr (by rw [hop]; decide), hop]
    rfl
  case rmb | smb =>
    rw [hrun.machine_bits h hm hr (by rw [hop]; decide), hop]
    rfl
  case bxx | bra =>
    rw [hrun.machine_flagBranch h hm hr (by rw [hop]; decide)]
    rfl
  case bbr | bbs =>
    rw [hrun.machine_bitBranch h hm hr (by rw [hop]; decide)]
    rfl
  case jmp => exact hrun.machine_jmp h hm hr hop
  case ph => exact hrun.machine_push h hm hr hop
  case pl => exact hrun.machine_pull h hm hr hop
  case rts => exact hrun.machine_rts h hm hr hop
  case jsr =>
    subst hm hr
    obtain ⟨hmem, hregs⟩ := hrun.jsr h (jsr_table _ hop)
    rw [hmem] at hregs
    rw [Emu.machine, hregs, hmem]
  case rti =>
    have hrti : ∀ opcode : BitVec 8, optable opcode = .rti → opcode = 0x40 := by decide +kernel
    subst hm hr
    obtain ⟨hregs, hmem⟩ := hrun.rti_regs h (hrti _ hop)
    rw [Emu.machine, hregs, hmem]
  case brk =>
    have hbrk : ∀ opcode : BitVec 8, optable opcode = .brk → opcode = 0x00 := by decide +kernel
    subst hm hr
    obtain ⟨hmem, hregs⟩ := hrun.brk h (hbrk _ hop)
    rw [Emu.machine, hregs, hmem]

/-- The emulator executes the instruction set. From every boundary on a RAM at which the next tick
fetches, whatever the votes and the stalls on the way, the instruction comes to an end, and then
the registers and all the bytes are those of one step of the machine. -/
theorem instruction_refines {emu : Emu ω} (h : Fetches R emu) :
    (∃ e, Executes emu e) ∧ ∀ e, Executes emu e → e.machine R = (emu.machine R).step :=
  ⟨h.exists, fun _ hrun => executes_step_machine hrun h⟩

/-- JSR on the stack, its operand about to be overwritten by the return address. -/
def jsrEmu : Emu Mem :=
  { bus := Bus.init flatRam.conns [] fun addr => if addr = 0x01FD then 0x20 else 0x77
    cpu := { regs := { pc := 0x01FD, sp := 0xFF } } }

theorem instruction_refines_jsr_on_stack :
    ∃ e, Executes jsrEmu e ∧ e.cpu.regs.pc = 0x0177 ∧ flatRam.mem e.bus.devs 0x01FE = 0xFF := by
  have h : Fetches flatRam jsrEmu := ⟨⟨rfl, rfl, trivial⟩, rfl, rfl, by decide⟩
  obtain ⟨⟨e, hrun⟩, hall⟩ := instruction_refines h
  have hstep := hall e hrun
  have hregs : e.cpu.regs = _ := congrArg Machine.regs hstep
  have hmem : flatRam.mem e.bus.devs = _ := congrArg Machine.mem hstep
  exact ⟨e, hrun, by rw [hregs]; decide, by rw [hmem]; decide⟩

end Cb6502
