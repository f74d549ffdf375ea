import Cb6502.Cycle

/- What an instruction can learn of the ones before it. Besides the registers the CPU
   keeps scratch fields from one instruction to the next. `live` gives, for each opcode and
   state, the fields the rest of the instruction may read before it writes them, and
   `handler_agrees` says that two CPUs that agree on these and on the registers make the
   same requests in every handler and agree on what is live afterwards. At an instruction
   boundary nothing is live but, for the opcodes of `usesPageBoundary`, the page-boundary
   flag: no handler clears it. -/
namespace Cb6502
open Dialogue

/-! ## Live fields -/

/-- A set of scratch fields. -/
structure Live where
  opcode : Bool := false
  pageBoundary : Bool := false
  ea : Bool := false
  reladdr : Bool := false
  value : Bool := false
  result : Bool := false
  tmpval : Bool := false
  vecSrc : Bool := false

/-- The CPUs agree on the registers, the state and the fields of `l`. -/
structure AgreeOn (l : Live) (c c' : Cpu) : Prop where
  regs : c.regs = c'.regs
  opState : c.opState = c'.opState
  cycleConsumed : c.cycleConsumed = c'.cycleConsumed
  opcode : l.opcode = true → c.opcode = c'.opcode
  pageBoundary : l.pageBoundary = true → c.pageBoundary = c'.pageBoundary
  ea : l.ea = true → c.ea = c'.ea
  reladdr : l.reladdr = true → c.reladdr = c'.reladdr
  value : l.value = true → c.value = c'.value
  result : l.result = true → c.result = c'.result
  tmpval : l.tmpval = true → c.tmpval = c'.tmpval
  vecSrc : l.vecSrc = true → c.vecSrc = c'.vecSrc

/-- A field that is not live asks for nothing. -/
theorem dead {p : Prop} (h : false = true) : p := absurd h Bool.false_ne_true

/-- The fields an addressing mode has written on entering its state `s`, of those that are
read later. -/
def addrLive (mode : AddrMode) (opcode : BitVec 8) (s : OpState) : Live :=
  match mode with
  | .imp | .acc => {}
  | .imm | .zp => { ea := s == .op0 }
  | .rel => { reladdr := s == .op0 }
  | .zpx | .zpy | .absx | .absy => { ea := s != .param0 }
  | .abso => { ea := s != .param0 && opcode != 0x20 }
  | .ind | .abin => { tmpval := s != .param0, ea := s == .param4 || s == .op0 }
  | .indx => { tmpval := s != .param0, ea := s == .param3 || s == .op0 }
  | .indy | .indz => { tmpval := s != .param0, ea := s != .param0 && s != .param1 }
  | .zprel =>
    { ea := s != .param0, value := s != .param0 && s != .param1, reladdr := s == .op0 }

/-- The fields a handler reads from its state `s` on before it writes them. -/
def opLive (op : Op) (mode : AddrMode) (s : OpState) : Live :=
  match op with
  | .adc | .sbc => { ea := mode != .acc, result := s != .op0 }
  | .and | .eor | .ora | .lda | .ldx | .ldy | .cmp | .cpx | .cpy | .bit => { ea := mode != .acc }
  | .asl | .lsr | .rol | .ror => { ea := mode != .acc || s != .op0, result := s != .op0 }
  | .dec | .inc =>
    { ea := mode != .acc || s != .op0 && s != .op1, result := s != .op0 && s != .op1
      pageBoundary := s == .op0 && mode == .absx }
  | .trb | .tsb | .rmb | .smb => { ea := true, result := s != .op0 }
  | .bxx | .bra => { reladdr := true }
  | .bbr | .bbs => { reladdr := true, value := true }
  | .jmp => { ea := true }
  | .jsr => { ea := s != .op0 }
  | .rti => { tmpval := s == .op4 }
  | .rts => { tmpval := s == .op3 }
  | .sta =>
    { ea := true, tmpval := mode == .indy
      pageBoundary := s == .op0 && (mode == .absx || mode == .absy || mode == .indy) }
  | .stx | .sty | .stz =>
    { ea := true, pageBoundary := s == .op0 && (mode == .absx || mode == .absy) }
  | .brk | .ph | .pl | .clc | .cld | .cli | .clv | .sec | .sed | .sei | .dex | .dey | .inx | .iny
  | .tax | .tay | .tsx | .txa | .txs | .tya | .nop | .wai => {}

/-- The handler of `opcode` looks at the page-boundary flag. -/
def usesPageBoundary (opcode : BitVec 8) : Bool :=
  (opLive (optable opcode) (addrtable opcode) .op0).pageBoundary

/-- The fields live in the state `s` of an instruction. -/
def live (opcode : BitVec 8) (s : OpState) : Live :=
  match s with
  | .opcode => {}
  | .param0 | .param1 | .param2 | .param3 | .param4 =>
    { addrLive (addrtable opcode) opcode s with
      opcode := true, pageBoundary := usesPageBoundary opcode }
  | .op0 | .op1 | .op2 | .op3 | .op4 =>
    { opLive (optable opcode) (addrtable opcode) s with opcode := true }
  | .vec0 | .vec1 | .vec2 | .vec3 | .vec4 | .vec5 => { vecSrc := true }
  | .vec6 => { ea := true, tmpval := true }

/-- The CPUs agree on what is live. -/
def Agree (c c' : Cpu) : Prop := AgreeOn (live c.opcode c.opState) c c'

/-! ## Addressing modes -/

theorem agreeOn_iff (l : Live) (c c' : Cpu) :
    AgreeOn l c c' ↔ c.regs = c'.regs ∧ c.opState = c'.opState ∧
      c.cycleConsumed = c'.cycleConsumed ∧ (l.opcode = true → c.opcode = c'.opcode) ∧
      (l.pageBoundary = true → c.pageBoundary = c'.pageBoundary) ∧ (l.ea = true → c.ea = c'.ea) ∧
      (l.reladdr = true → c.reladdr = c'.reladdr) ∧ (l.value = true → c.value = c'.value) ∧
      (l.result = true → c.result = c'.result) ∧ (l.tmpval = true → c.tmpval = c'.tmpval) ∧
      (l.vecSrc = true → c.vecSrc = c'.vecSrc) :=
  ⟨fun ⟨h₁, h₂, h₃, h₄, h₅, h₆, h₇, h₈, h₉, h₁₀, h₁₁⟩ => ⟨h₁, h₂, h₃, h₄, h₅, h₆, h₇, h₈, h₉, h₁₀, h₁₁⟩,
    fun ⟨h₁, h₂, h₃, h₄, h₅, h₆, h₇, h₈, h₉, h₁₀, h₁₁⟩ => ⟨h₁, h₂, h₃, h₄, h₅, h₆, h₇, h₈, h₉, h₁₀, h₁₁⟩⟩

/-- Where the opcodes agree, the CPUs differ in the other scratch fields at most. -/
theorem AgreeOn.scratch {l : Live} {c c' : Cpu} (h : AgreeOn l c c') (hop : l.opcode = true) :
    ∃ ea reladdr value result tmpval vecSrc pageBoundary,
      c' = { c with ea, reladdr, value, result, tmpval, vecSrc, pageBoundary } := by
  obtain ⟨regs, ea, reladdr, value, result, opcode, tmpval, src, s, pb, cc⟩ := c
  obtain ⟨regs', ea', reladdr', value', result', opcode', tmpval', src', s', pb', cc'⟩ := c'
  obtain rfl : regs = regs' := h.regs
  obtain rfl : s = s' := h.opState
  obtain rfl : cc = cc' := h.cycleConsumed
  obtain rfl : opcode = opcode' := h.opcode hop
  exact ⟨ea', reladdr', value', result', tmpval', src', pb', rfl⟩

/-- The handler `p` of an addressing mode keeps the agreement on what the mode has written,
and on the page-boundary flag when `b` asks for it. -/
def ModeAgrees (mode : AddrMode) (p : Cpu → BusM Cpu) : Prop :=
  ∀ (b : Bool) (c c' : Cpu), c.opState ∈ paramStates →
    AgreeOn { addrLive mode c.opcode c.opState with opcode := true, pageBoundary := b } c c' →
    Prog.Match
      (fun d d' => d.opcode = c.opcode ∧ d.opState ∈ .op0 :: paramStates ∧
        AgreeOn { addrLive mode c.opcode d.opState with opcode := true, pageBoundary := b } d d')
      (p c) (p c')

attribute [local simp] agreeOn_iff advanceState addrLive paramStates

theorem imp_agrees : ModeAgrees .imp imp := by
  intro b c c' hs h
  obtain ⟨_, _, _, _, _, _, _, rfl⟩ := h.scratch rfl
  simp_all [imp]

theorem acc_agrees : ModeAgrees .acc acc := by
  intro b c c' hs h
  obtain ⟨_, _, _, _, _, _, _, rfl⟩ := h.scratch rfl
  simp_all [acc]

theorem imm_agrees : ModeAgrees .imm imm := by
  intro b c c' hs h
  obtain ⟨_, _, _, _, _, _, _, rfl⟩ := h.scratch rfl
  simp_all [imm]

theorem zp_agrees : ModeAgrees .zp zp := by
  intro b c c' hs h
  obtain ⟨_, _, _, _, _, _, _, rfl⟩ := h.scratch rfl
  simp_all [zp]

theorem rel_agrees : ModeAgrees .rel rel := by
  intro b c c' hs h
  obtain ⟨_, _, _, _, _, _, _, rfl⟩ := h.scratch rfl
  simp_all [rel]

theorem zpIndexed_agrees (idx : CpuRegs → BitVec 8) : ModeAgrees .zpx (zpIndexed idx) := by
  intro b c c' hs h
  obtain ⟨_, _, _, _, _, _, _, rfl⟩ := h.scratch rfl
  cases hs : c.opState <;> simp_all [zpIndexed]

theorem abso_agrees : ModeAgrees .abso abso := by
  intro b c c' hs h
  obtain ⟨_, _, _, _, _, _, _, rfl⟩ := h.scratch rfl
  cases hs : c.opState <;> simp_all [abso]

theorem absIndexed_agrees (idx : CpuRegs → BitVec 8) : ModeAgrees .absx (absIndexed idx) := by
  intro b c c' hs h
  obtain ⟨_, _, _, _, _, _, _, rfl⟩ := h.scratch rfl
  cases hs : c.opState <;> simp_all [absIndexed]

theorem ind_agrees : ModeAgrees .ind ind := by
  intro b c c' hs h
  obtain ⟨_, _, _, _, _, _, _, rfl⟩ := h.scratch rfl
  cases hs : c.opState <;> simp_all [ind]

theorem indx_agrees : ModeAgrees .indx indx := by
  intro b c c' hs h
  obtain ⟨_, _, _, _, _, _, _, rfl⟩ := h.scratch rfl
  cases hs : c.opState <;> simp_all [indx]

theorem indy_agrees : ModeAgrees .indy indy := by
  intro b c c' hs h
  obtain ⟨_, _, _, _, _, _, _, rfl⟩ := h.scratch rfl
  cases hs : c.opState <;> simp_all [indy]

theorem indz_agrees : ModeAgrees .indz indz := by
  intro b c c' hs h
  obtain ⟨_, _, _, _, _, _, _, rfl⟩ := h.scratch rfl
  cases hs : c.opState <;> simp_all [indz]

theorem abin_agrees : ModeAgrees .abin abin := by
  intro b c c' hs h
  obtain ⟨_, _, _, _, _, _, _, rfl⟩ := h.scratch rfl
  cases hs : c.opState <;> simp_all [abin]

theorem zprel_agrees : ModeAgrees .zprel zprel := by
  intro b c c' hs h
  obtain ⟨_, _, _, _, _, _, _, rfl⟩ := h.scratch rfl
  cases hs : c.opState <;> simp_all [zprel]

theorem addrHandlers_agrees (mode : AddrMode) : ModeAgrees mode (addrHandlers mode) := by
  cases mode with
  | imp => exact imp_agrees
  | acc => exact acc_agrees
  | imm => exact imm_agrees
  | zp => exact zp_agrees
  | zpx => exact zpIndexed_agrees CpuRegs.x
  | zpy => exact zpIndexed_agrees CpuRegs.y
  | rel => exact rel_agrees
  | abso => exact abso_agrees
  | absx => exact absIndexed_agrees CpuRegs.x
  | absy => exact absIndexed_agrees CpuRegs.y
  | ind => exact ind_agrees
  | indx => exact indx_agrees
  | indy => exact indy_agrees
  | indz => exact indz_agrees
  | abin => exact abin_agrees
  | zprel => exact zprel_agrees

/-! ## Opcode handlers -/

/-- The fields live after a handler of `op`, in the state it leaves. -/
def opLiveAfter (op : Op) (mode : AddrMode) (s : OpState) : Live :=
  match s with
  | .opcode => {}
  | .vec2 => { vecSrc := true }
  | s => { opLive op mode s with opcode := true }

/-- The handler `p` of `op` keeps the agreement on what is live. -/
def OpAgrees (op : Op) (p : Cpu → BusM Cpu) : Prop :=
  ∀ c c' : Cpu, c.opState ∈ handlerStates →
    AgreeOn { opLive op (addrtable c.opcode) c.opState with opcode := true } c c' →
    Prog.Match
      (fun d d' => d.opcode = c.opcode ∧ d.opState ∈ .opcode :: .vec2 :: handlerStates ∧
        AgreeOn (opLiveAfter op (addrtable c.opcode) d.opState) d d')
      (p c) (p c')

attribute [local simp] opLive opLiveAfter handlerStates

theorem regsOp_agrees (f : CpuRegs → CpuRegs) : OpAgrees .nop (regsOp f) := by
  intro c c' hs h
  obtain ⟨_, _, _, _, _, _, _, rfl⟩ := h.scratch rfl
  simp [regsOp]

theorem brk_agrees : OpAgrees .brk brk := by
  intro c c' hs h
  obtain ⟨_, _, _, _, _, _, _, rfl⟩ := h.scratch rfl
  simp [brk]

theorem jmp_agrees : OpAgrees .jmp jmp := by
  intro c c' hs h
  obtain ⟨_, _, _, _, _, _, _, rfl⟩ := h.scratch rfl
  simp_all [jmp]

theorem jsr_agrees : OpAgrees .jsr jsr := by
  intro c c' hs h
  obtain ⟨_, _, _, _, _, _, _, rfl⟩ := h.scratch rfl
  cases hs : c.opState <;> simp_all [jsr, push8]

theorem rti_agrees : OpAgrees .rti rti := by
  intro c c' hs h
  obtain ⟨_, _, _, _, _, _, _, rfl⟩ := h.scratch rfl
  cases hs : c.opState <;> simp_all [rti, pull8]

theorem rts_agrees : OpAgrees .rts rts := by
  intro c c' hs h
  obtain ⟨_, _, _, _, _, _, _, rfl⟩ := h.scratch rfl
  cases hs : c.opState <;> simp_all [rts, pull8]

theorem bxx_agrees : OpAgrees .bxx bxx := by
  intro c c' hs h
  obtain ⟨_, _, _, _, _, _, _, rfl⟩ := h.scratch rfl
  cases hs : c.opState <;> simp_all [bxx, branch, branchTaken, bxxTaken]

theorem bra_agrees : OpAgrees .bra bra := by
  intro c c' hs h
  obtain ⟨_, _, _, _, _, _, _, rfl⟩ := h.scratch rfl
  cases hs : c.opState <;> simp_all [bra, branch, branchTaken]

theorem bbr_agrees : OpAgrees .bbr bbr := by
  intro c c' hs h
  obtain ⟨_, _, _, _, _, _, _, rfl⟩ := h.scratch rfl
  cases hs : c.opState <;> simp_all [bbr, branch, branchTaken, valueAndBit, opcodeBit]

theorem bbs_agrees : OpAgrees .bbs bbs := by
  intro c c' hs h
  obtain ⟨_, _, _, _, _, _, _, rfl⟩ := h.scratch rfl
  cases hs : c.opState <;> simp_all [bbs, branch, branchTaken, valueAndBit, opcodeBit]

/-- The CPUs agree on the registers and on what goes to the next instruction. -/
structure AgreeAtEnd (opcode : BitVec 8) (d d' : Cpu) : Prop where
  opcode : d.opcode = opcode
  regs : d.regs = d'.regs
  cycleConsumed : d.cycleConsumed = d'.cycleConsumed

/-- The last cycle of an instruction leaves nothing live. -/
theorem end_agrees {op : Op} {mode : AddrMode} {opcode : BitVec 8} {p p' : BusM Cpu}
    (h : Prog.Match (AgreeAtEnd opcode) p p') :
    Prog.Match
      (fun d d' => d.opcode = opcode ∧ d.opState ∈ .opcode :: .vec2 :: handlerStates ∧
        AgreeOn (opLiveAfter op mode d.opState) d d')
      (p >>= fun d => pure (advanceState d .opcode true))
      (p' >>= fun d => pure (advanceState d .opcode true)) := by
  refine Prog.Match.bind h ?_
  intro d d' hd
  refine ⟨hd.opcode, List.mem_cons_self .., ?_⟩
  exact ⟨hd.regs, rfl, by simp [hd.cycleConsumed], dead, dead, dead, dead, dead, dead, dead, dead⟩

theorem agreeAtEnd_iff (opcode : BitVec 8) (d d' : Cpu) :
    AgreeAtEnd opcode d d' ↔ d.opcode = opcode ∧ d.regs = d'.regs ∧
      d.cycleConsumed = d'.cycleConsumed :=
  ⟨fun ⟨h₁, h₂, h₃⟩ => ⟨h₁, h₂, h₃⟩, fun ⟨h₁, h₂, h₃⟩ => ⟨h₁, h₂, h₃⟩⟩

theorem ph_agrees : OpAgrees .ph ph := by
  intro c c' hs h
  obtain ⟨_, _, _, _, _, _, _, rfl⟩ := h.scratch rfl
  unfold ph
  by_cases hs : c.opState = .op0
  · simp_all
  · simp only [hs, if_false]
    refine end_agrees ?_
    simp [phPush, push8, agreeAtEnd_iff]

theorem pl_agrees : OpAgrees .pl pl := by
  intro c c' hs h
  obtain ⟨_, _, _, _, _, _, _, rfl⟩ := h.scratch rfl
  unfold pl
  cases hs : c.opState with
  | op2 =>
    refine end_agrees ?_
    simp [plPull, pullReg, pull8, agreeAtEnd_iff]
  | _ => simp_all

/-- The operand is the same where the address is, or the operand is the accumulator. -/
theorem getvalue_agrees {c c' : Cpu} (hregs : c.regs = c'.regs) (hop : c.opcode = c'.opcode)
    (hea : addrtable c.opcode ≠ .acc → c.ea = c'.ea) :
    Prog.Match (fun v v' => v = v') (getvalue c) (getvalue c') := by
  unfold getvalue
  rw [← hop, ← hregs]
  split
  · exact rfl
  · rename_i hacc
    rw [← hea hacc]
    exact Prog.Match.refl (fun _ => rfl) _

theorem putvalue_agrees {c c' : Cpu} (v : BitVec 16) (hregs : c.regs = c'.regs)
    (hop : c.opcode = c'.opcode) (hcons : c.cycleConsumed = c'.cycleConsumed)
    (hea : addrtable c.opcode ≠ .acc → c.ea = c'.ea) :
    Prog.Match (AgreeAtEnd c.opcode) (putvalue c v) (putvalue c' v) := by
  unfold putvalue
  rw [← hop]
  split
  · exact ⟨rfl, by rw [hregs], hcons⟩
  · rename_i hacc
    rw [← hea hacc]
    exact ⟨rfl, rfl, hregs, hcons⟩

theorem logical_agrees (f : BitVec 16 → BitVec 16 → BitVec 16) : OpAgrees .and (logical f) := by
  intro c c' hs h
  refine Prog.Match.bind (getvalue_agrees h.regs (h.opcode rfl) fun hacc => h.ea (by simp [hacc])) ?_
  rintro v v' rfl
  simp [h.regs, h.cycleConsumed]

theorem compare_agrees (reg : CpuRegs → BitVec 8) : OpAgrees .cmp (compare reg) := by
  intro c c' hs h
  refine Prog.Match.bind (getvalue_agrees h.regs (h.opcode rfl) fun hacc => h.ea (by simp [hacc])) ?_
  rintro v v' rfl
  simp [h.regs, h.cycleConsumed]

theorem bit_agrees : OpAgrees .bit bit := by
  intro c c' hs h
  refine Prog.Match.bind (getvalue_agrees h.regs (h.opcode rfl) fun hacc => h.ea (by simp [hacc])) ?_
  rintro v v' rfl
  simp [h.regs, h.cycleConsumed]

theorem load_agrees (put : BitVec 8 → CpuRegs → CpuRegs) : OpAgrees .lda (load put) := by
  intro c c' hs h
  refine Prog.Match.bind (getvalue_agrees h.regs (h.opcode rfl) fun hacc => h.ea (by simp [hacc])) ?_
  rintro v v' rfl
  simp [h.regs, h.cycleConsumed]

theorem adc_agrees : OpAgrees .adc adc := by
  intro c c' hs h
  by_cases hs : c.opState = .op0
  · have hs' : c'.opState = .op0 := h.opState.symm.trans hs
    simp only [adc, hs, hs', if_true]
    refine Prog.Match.bind (getvalue_agrees h.regs (h.opcode rfl) fun hacc => h.ea (by simp [hacc])) ?_
    rintro v v' rfl
    obtain ⟨_, _, _, _, _, _, _, rfl⟩ := h.scratch rfl
    simp_all [addWithFlags]
  · obtain ⟨_, _, _, _, _, _, _, rfl⟩ := h.scratch rfl
    simp_all [adc]

theorem sbc_agrees : OpAgrees .sbc sbc := by
  intro c c' hs h
  by_cases hs : c.opState = .op0
  · have hs' : c'.opState = .op0 := h.opState.symm.trans hs
    simp only [sbc, hs, hs', if_true]
    refine Prog.Match.bind (getvalue_agrees h.regs (h.opcode rfl) fun hacc => h.ea (by simp [hacc])) ?_
    rintro v v' rfl
    obtain ⟨_, _, _, _, _, _, _, rfl⟩ := h.scratch rfl
    simp_all [addWithFlags]
  · obtain ⟨_, _, _, _, _, _, _, rfl⟩ := h.scratch rfl
    simp_all [sbc]

theorem shift_agrees (f : BitVec 16 → BitVec 8 → BitVec 16)
    (carry : BitVec 16 → BitVec 16 → Bool) : OpAgrees .asl (shift f carry) := by
  intro c c' hs h
  obtain ⟨_, _, _, _, _, _, _, rfl⟩ := h.scratch rfl
  unfold shift
  cases hs : c.opState with
  | op0 =>
    refine Prog.Match.bind (getvalue_agrees h.regs (h.opcode rfl) fun hacc => h.ea (by simp [hacc])) ?_
    rintro v v' rfl
    by_cases hacc : addrtable c.opcode = .acc
    · simp_all [putvalue]
    · simp_all
  | op2 =>
    refine end_agrees ?_
    rw [h.result (by simp [hs])]
    exact putvalue_agrees _ h.regs rfl h.cycleConsumed fun hacc => h.ea (by simp [hacc])
  | _ => simp_all

theorem modifyBits_agrees (f : BitVec 16 → Cpu → BitVec 16)
    (status : BitVec 16 → Cpu → BitVec 8)
    (hf : ∀ v c c', c.regs = c'.regs → c.opcode = c'.opcode → f v c = f v c')
    (hstatus : ∀ v c c', c.regs = c'.regs → status v c = status v c') :
    OpAgrees .trb (modifyBits f status) := by
  intro c c' hs h
  have hsame := fun v => hf v c c' h.regs (h.opcode rfl)
  have hsame' := fun v => hstatus v c c' h.regs
  obtain ⟨_, _, _, _, _, _, _, rfl⟩ := h.scratch rfl
  unfold modifyBits
  cases hs : c.opState with
  | op0 =>
    refine Prog.Match.bind (getvalue_agrees h.regs (h.opcode rfl) fun _ => h.ea rfl) ?_
    rintro v v' rfl
    simp_all
  | op2 =>
    refine end_agrees ?_
    rw [h.result (by simp [hs])]
    exact putvalue_agrees _ h.regs rfl h.cycleConsumed fun _ => h.ea rfl
  | _ => simp_all

theorem incDec_agrees (f : BitVec 16 → BitVec 16) : OpAgrees .dec (incDec f) := by
  intro c c' hs h
  unfold incDec
  cases hs : c.opState with
  | op1 =>
    rw [← h.opState, hs]
    refine Prog.Match.bind (getvalue_agrees h.regs (h.opcode rfl) fun hacc => h.ea (by simp [hacc])) ?_
    rintro v v' rfl
    obtain ⟨_, _, _, _, _, _, _, rfl⟩ := h.scratch rfl
    by_cases hacc : addrtable c.opcode = .acc
    · simp_all [putvalue]
    · simp_all
  | op3 =>
    obtain ⟨_, _, _, _, _, _, _, rfl⟩ := h.scratch rfl
    simp only [hs]
    refine end_agrees ?_
    rw [h.result (by simp [hs])]
    exact putvalue_agrees _ h.regs rfl h.cycleConsumed fun hacc => h.ea (by simp [hacc])
  | op0 =>
    obtain ⟨_, _, _, _, _, _, _, rfl⟩ := h.scratch rfl
    by_cases hx : addrtable c.opcode = .absx
    · simp_all
    · simp_all
  | _ =>
    obtain ⟨_, _, _, _, _, _, _, rfl⟩ := h.scratch rfl
    simp_all

/-- The store proper, past the penalty cycle. -/
theorem putreg_agrees {op : Op} {c c' : Cpu} (reg : CpuRegs → BitVec 8) (hregs : c.regs = c'.regs)
    (hop : c.opcode = c'.opcode) (hcons : c.cycleConsumed = c'.cycleConsumed) (hea : c.ea = c'.ea) :
    Prog.Match
      (fun d d' => d.opcode = c.opcode ∧ d.opState ∈ .opcode :: .vec2 :: handlerStates ∧
        AgreeOn (opLiveAfter op (addrtable c.opcode) d.opState) d d')
      (putvalue c (u16 (reg c.regs)) >>= fun d => pure (advanceState d .opcode true))
      (putvalue c' (u16 (reg c'.regs)) >>= fun d => pure (advanceState d .opcode true)) := by
  refine end_agrees ?_
  rw [← hregs]
  exact putvalue_agrees _ hregs hop hcons fun _ => hea

theorem store_agrees {op : Op} (hop : op = .sta ∨ op = .stx) (reg : CpuRegs → BitVec 8) :
    OpAgrees op (store reg) := by
  intro c c' hs h
  have hea : c.ea = c'.ea := h.ea (by rcases hop with rfl | rfl <;> rfl)
  have hput := @putreg_agrees op c c' reg h.regs (h.opcode rfl) h.cycleConsumed hea
  have hflag : c.opState = .op0 → addrtable c.opcode = .absx ∨ addrtable c.opcode = .absy →
      c.pageBoundary = c'.pageBoundary := by
    intro h0 hmode
    refine h.pageBoundary ?_
    rcases hop with rfl | rfl <;> rcases hmode with hmode | hmode <;> simp [h0, hmode]
  obtain ⟨_, _, _, _, _, _, _, rfl⟩ := h.scratch rfl
  unfold store
  dsimp only at hea hflag hput ⊢
  by_cases hp : c.opState = .op0 ∧ (addrtable c.opcode = .absx ∨ addrtable c.opcode = .absy)
  · obtain rfl := hflag hp.1 hp.2
    subst hea
    by_cases hpb : c.pageBoundary = false
    · rw [if_pos ⟨hp.1, hp.2, hpb⟩, if_pos ⟨hp.1, hp.2, hpb⟩]
      rcases hop with rfl | rfl <;> rcases hp.2 with hmode | hmode <;> simp [hmode]
    · rw [if_neg fun hc => hpb hc.2.2, if_neg fun hc => hpb hc.2.2]
      exact hput
  · rw [if_neg fun hc => hp ⟨hc.1, hc.2.1⟩, if_neg fun hc => hp ⟨hc.1, hc.2.1⟩]
    exact hput

theorem sta_agrees : OpAgrees .sta sta := by
  intro c c' hs h
  have hstore := store_agrees (.inl rfl) CpuRegs.a c c' hs h
  unfold sta
  by_cases hp : c.opState = .op0 ∧ addrtable c.opcode = .indy
  · have hpb := h.pageBoundary (by simp [hp])
    have hea := h.ea rfl
    have htmp := h.tmpval (by simp [hp])
    obtain ⟨_, _, _, _, _, _, _, rfl⟩ := h.scratch rfl
    dsimp only at hpb hea htmp hstore ⊢
    subst hpb hea htmp
    by_cases hpb : c.pageBoundary = false
    · rw [if_pos ⟨hp.1, hp.2, hpb⟩, if_pos ⟨hp.1, hp.2, hpb⟩]
      simp [hp]
    · rw [if_neg fun hc => hpb hc.2.2, if_neg fun hc => hpb hc.2.2]
      exact hstore
  · rw [if_neg fun hc => hp ⟨hc.1, hc.2.1⟩]
    rw [h.opState, h.opcode rfl] at hp
    rw [if_neg fun hc => hp ⟨hc.1, hc.2.1⟩]
    exact hstore

theorem ops_agrees (op : Op) : OpAgrees op (ops op) := by
  cases op <;> simp only [ops]
  case adc => exact adc_agrees
  case sbc => exact sbc_agrees
  case and | eor | ora => exact logical_agrees _
  case cmp | cpx | cpy => exact compare_agrees _
  case bit => exact bit_agrees
  case lda | ldx | ldy => exact load_agrees _
  case asl | lsr | rol | ror => exact shift_agrees _ _
  case dec | inc => exact incDec_agrees _
  case trb | tsb =>
    refine modifyBits_agrees _ _ ?_ ?_
    · intro v c c' hregs _
      rw [hregs]
    · intro v c c' hregs
      rw [testStatus, testStatus, hregs]
  case rmb | smb =>
    refine modifyBits_agrees _ _ ?_ ?_
    · intro v c c' _ hop
      rw [opcodeBit, opcodeBit, hop]
    · intro v c c' hregs
      rw [hregs]
  case bxx => exact bxx_agrees
  case bra => exact bra_agrees
  case bbr => exact bbr_agrees
  case bbs => exact bbs_agrees
  case brk => exact brk_agrees
  case jmp => exact jmp_agrees
  case jsr => exact jsr_agrees
  case rti => exact rti_agrees
  case rts => exact rts_agrees
  case ph => exact ph_agrees
  case pl => exact pl_agrees
  case sta => exact sta_agrees
  case stx | sty | stz => exact store_agrees (.inr rfl) _
  case clc | cld | cli | clv | sec | sed | sei | dex | dey | inx | iny | tax | tay | tsx | txa | txs
  | tya | nop | wai => exact regsOp_agrees _

/-! ## All handlers -/

theorem vector_agrees {c c' : Cpu} (h : Agree c c')
    (hs : c.opState ∈ [OpState.vec0, .vec1, .vec2, .vec3, .vec4, .vec5, .vec6]) :
    Prog.Match Agree (vector c) (vector c') := by
  obtain ⟨regs, ea, reladdr, value, result, opcode, tmpval, src, s, pb, cc⟩ := c
  obtain ⟨regs', ea', reladdr', value', result', opcode', tmpval', src', s', pb', cc'⟩ := c'
  obtain rfl : regs = regs' := h.regs
  obtain rfl : s = s' := h.opState
  obtain rfl : cc = cc' := h.cycleConsumed
  unfold Agree at h ⊢
  cases s <;> simp_all [live, vector, push8]

/-- Every field of `l` is one of `l'`. -/
def Live.sub (l l' : Live) : Bool :=
  (!l.opcode || l'.opcode) && (!l.pageBoundary || l'.pageBoundary) && (!l.ea || l'.ea) &&
    (!l.reladdr || l'.reladdr) && (!l.value || l'.value) && (!l.result || l'.result) &&
    (!l.tmpval || l'.tmpval) && (!l.vecSrc || l'.vecSrc)

theorem AgreeOn.mono {l l' : Live} {c c' : Cpu} (h : AgreeOn l' c c') (hsub : l.sub l' = true) :
    AgreeOn l c c' := by
  have key : ∀ b b' : Bool, (!b || b') = true → b = true → b' = true := by decide
  simp only [Live.sub, Bool.and_eq_true] at hsub
  obtain ⟨⟨⟨⟨⟨⟨⟨h₁, h₂⟩, h₃⟩, h₄⟩, h₅⟩, h₆⟩, h₇⟩, h₈⟩ := hsub
  exact ⟨h.regs, h.opState, h.cycleConsumed, fun hl => h.opcode (key _ _ h₁ hl),
    fun hl => h.pageBoundary (key _ _ h₂ hl), fun hl => h.ea (key _ _ h₃ hl),
    fun hl => h.reladdr (key _ _ h₄ hl), fun hl => h.value (key _ _ h₅ hl),
    fun hl => h.result (key _ _ h₆ hl), fun hl => h.tmpval (key _ _ h₇ hl),
    fun hl => h.vecSrc (key _ _ h₈ hl)⟩

/-- The mode of every opcode has written what its handler reads. -/
theorem live_table : ∀ opcode : BitVec 8,
    Live.sub (live opcode .op0)
      { addrLive (addrtable opcode) opcode .op0 with
        opcode := true, pageBoundary := usesPageBoundary opcode } = true := by
  decide +kernel

/-- CPUs that agree on what is live make the same requests in a handler, and agree on what
is live after it. -/
theorem handler_agrees {c c' : Cpu} (h : Agree c c') : Prog.Match Agree (handler c) (handler c') := by
  unfold handler
  rw [← h.opState]
  cases hs : c.opState with
  | opcode => exact h
  | param0 | param1 | param2 | param3 | param4 =>
    have hlive : live c.opcode c.opState = { addrLive (addrtable c.opcode) c.opcode c.opState with
        opcode := true, pageBoundary := usesPageBoundary c.opcode } := by
      rw [hs]
      rfl
    have hop : c.opcode = c'.opcode := h.opcode (by rw [hlive])
    have hmode := addrHandlers_agrees (addrtable c.opcode) (usesPageBoundary c.opcode) c c'
      (by rw [hs]; decide) (by rw [← hlive]; exact h)
    dsimp only
    rw [← hop]
    -- the mode leaves the CPU at the handler, or at its own next cycle
    refine hmode.mono ?_
    rintro d d' ⟨hd, hds, hagree⟩
    unfold Agree
    rw [hd]
    rcases List.mem_cons.mp hds with h0 | hparam
    -- at the handler: the mode has written what the handler reads
    · rw [h0] at hagree ⊢
      exact hagree.mono (live_table c.opcode)
    · simp only [paramStates, List.mem_cons, List.not_mem_nil, or_false] at hparam
      rcases hparam with hp | hp | hp | hp | hp <;> (rw [hp] at hagree ⊢; exact hagree)
  | op0 | op1 | op2 | op3 | op4 =>
    have hlive : live c.opcode c.opState =
        { opLive (optable c.opcode) (addrtable c.opcode) c.opState with opcode := true } := by
      rw [hs]
      rfl
    have hop : c.opcode = c'.opcode := h.opcode (by rw [hlive])
    have hops := ops_agrees (optable c.opcode) c c' (by rw [hs]; decide) (by rw [← hlive]; exact h)
    dsimp only
    rw [← hop]
    refine hops.mono ?_
    rintro d d' ⟨hd, hds, hagree⟩
    unfold Agree
    rw [hd]
    simp only [handlerStates, List.mem_cons, List.not_mem_nil, or_false] at hds
    rcases hds with hp | hp | hp | hp | hp | hp | hp <;> (rw [hp] at hagree ⊢; exact hagree)
  | vec0 | vec1 | vec2 | vec3 | vec4 | vec5 | vec6 => exact vector_agrees h (by rw [hs]; decide)

theorem cycleFrom_agrees (n : Nat) {c c' : Cpu} (h : Agree c c') :
    Prog.Match Agree (cycleFrom n c) (cycleFrom n c') := by
  induction n generalizing c c' with
  | zero => exact h
  | succ n ih =>
    refine Prog.Match.bind (handler_agrees h) ?_
    intro d d' hd
    rw [← hd.cycleConsumed, Prog.match_ite]
    exact ⟨fun _ => hd, fun _ => ih hd⟩

/-- CPUs that agree on what is live make the same requests in a cycle. -/
theorem cycle_agrees {c c' : Cpu} (h : Agree c c') : Prog.Match Agree (cycle c) (cycle c') :=
  cycleFrom_agrees 3 h

theorem Agree.clearCycle {c c' : Cpu} (h : Agree c c') : Agree c.clearCycle c'.clearCycle :=
  ⟨h.regs, h.opState, rfl, h.opcode, h.pageBoundary, h.ea, h.reladdr, h.value, h.result, h.tmpval,
    h.vecSrc⟩

end Cb6502
