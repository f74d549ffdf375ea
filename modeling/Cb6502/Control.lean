import Cb6502.CpuTick

/- The control skeleton of the micro-state machine. `Ctl` is the part of the CPU that
   decides what happens next (opcode, state, page-boundary flag), and `outcomes` lists,
   for each handler, the ways it can leave that part together with the number of bus
   requests it makes and whether it consumes the cycle; the data (registers, addresses,
   bytes read) only chooses among them. `handler_fits` connects the skeleton to the
   handlers. What follows from the skeleton alone (no stuck state, the cycles left, the
   requests of a cycle) is then a finite check over the 256 opcodes. -/
namespace Cb6502
open Dialogue

/-! ## The skeleton -/

/-- What decides the next handler. -/
structure Ctl where
  opcode : BitVec 8
  opState : OpState
  pageBoundary : Bool
  deriving DecidableEq

def Cpu.ctl (cpu : Cpu) : Ctl := ⟨cpu.opcode, cpu.opState, cpu.pageBoundary⟩

/-- One way a handler can end: the next state, the bus requests made, whether the cycle
is consumed, and whether a page crossing is recorded. -/
structure Outcome where
  next : OpState
  requests : Nat
  consumes : Bool
  crosses : Bool := false
  deriving DecidableEq

def Ctl.after (c : Ctl) (o : Outcome) : Ctl :=
  { c with opState := o.next, pageBoundary := c.pageBoundary || o.crosses }

/-- One request, cycle consumed: the ordinary case. -/
def cycleTo (next : OpState) : Outcome := ⟨next, 1, true, false⟩

/-- Cycle consumed without a request. -/
def idleTo (next : OpState) : Outcome := ⟨next, 0, true, false⟩

/-- The requests of `getvalue` and `putvalue`. -/
def valueRequests (mode : AddrMode) : Nat := if mode = .acc then 0 else 1

/-- The `default: break` of a handler: nothing happens. -/
def stuckIn (s : OpState) : Outcome := ⟨s, 0, false, false⟩

def valueTo (mode : AddrMode) (next : OpState) : Outcome := ⟨next, valueRequests mode, true, false⟩

def zpIndexedOutcomes (s : OpState) : List Outcome :=
  if s = .param0 then [cycleTo .param1] else [cycleTo .op0]

def absIndexedOutcomes : OpState → List Outcome
  | .param0 => [cycleTo .param1]
  | .param1 => [⟨.param2, 1, true, true⟩, cycleTo .op0]
  | _ => [cycleTo .op0]

/-- The outcomes of the address mode handlers. -/
def addrOutcomes (mode : AddrMode) (c : Ctl) : List Outcome :=
  match mode, c.opState with
  | .imp, _ | .acc, _ | .rel, _ => [⟨.op0, 1, false, false⟩]
  | .imm, _ => [⟨.op0, 0, false, false⟩]
  | .zp, _ => [cycleTo .op0]
  | .zpx, s | .zpy, s => zpIndexedOutcomes s
  | .abso, s =>
    if c.opcode = 0x20 then [⟨.op0, 0, false, false⟩]
    else if s = .param0 then [cycleTo .param1]
    else if c.opcode = 0x4C then [⟨.op0, 1, false, false⟩]
    else [cycleTo .op0]
  | .absx, s | .absy, s => absIndexedOutcomes s
  | .ind, .param0 | .abin, .param0 | .indx, .param0 | .indy, .param0 | .indz, .param0
  | .zprel, .param0 => [cycleTo .param1]
  | .ind, .param1 | .abin, .param1 | .indx, .param1 | .indy, .param1 | .zprel, .param1
  | .indz, .param1 => [cycleTo .param2]
  | .ind, .param2 | .abin, .param2 | .indx, .param2 | .zprel, .param2 => [cycleTo .param3]
  | .ind, .param3 | .abin, .param3 => [cycleTo .param4]
  | .ind, .param4 | .abin, .param4 | .zprel, .param3 => [⟨.op0, 1, false, false⟩]
  | .indx, .param3 | .indz, .param2 | .indy, .param3 => [cycleTo .op0]
  | .indy, .param2 => [⟨.param3, 1, true, true⟩, cycleTo .op0]
  | _, s => [stuckIn s]

def shiftOutcomes (mode : AddrMode) : OpState → List Outcome
  | .op0 => if mode = .acc then [idleTo .opcode] else [cycleTo .op1]
  | .op1 => [cycleTo .op2]
  | .op2 => [valueTo mode .opcode]
  | s => [stuckIn s]

def incDecOutcomes (mode : AddrMode) (pageBoundary : Bool) : OpState → List Outcome
  | .op0 =>
    if mode = .absx ∧ pageBoundary = false then [cycleTo .op1] else [⟨.op1, 0, false, false⟩]
  | .op1 => if mode = .acc then [idleTo .opcode] else [cycleTo .op2]
  | .op2 => [cycleTo .op3]
  | .op3 => [valueTo mode .opcode]
  | s => [stuckIn s]

def modifyBitsOutcomes (mode : AddrMode) : OpState → List Outcome
  | .op0 => [valueTo mode .op1]
  | .op1 => [cycleTo .op2]
  | .op2 => [valueTo mode .opcode]
  | s => [stuckIn s]

def branchOutcomes : OpState → List Outcome
  | .op0 => [idleTo .op1, idleTo .opcode]
  | .op1 => [cycleTo .op2, cycleTo .opcode]
  | .op2 => [cycleTo .opcode]
  | s => [stuckIn s]

/-- `jsr`, `rti` and `rts`: five cycles, the first without a request in the last two. -/
def fiveOutcomes (first : Nat) : OpState → List Outcome
  | .op0 => [⟨.op1, first, true, false⟩]
  | .op1 => [cycleTo .op2]
  | .op2 => [cycleTo .op3]
  | .op3 => [cycleTo .op4]
  | .op4 => [cycleTo .opcode]
  | s => [stuckIn s]

def storeOutcomes (mode : AddrMode) (penalty : Bool) : List Outcome :=
  if penalty then [cycleTo .op1] else [valueTo mode .opcode]

/-- The outcomes of the opcode handlers. -/
def opOutcomes (op : Op) (mode : AddrMode) (c : Ctl) : List Outcome :=
  match op with
  | .adc | .sbc =>
    if c.opState = .op0 then [valueTo mode .op1, valueTo mode .opcode] else [idleTo .opcode]
  | .and | .eor | .ora | .lda | .ldx | .ldy | .cmp | .cpx | .cpy | .bit => [valueTo mode .opcode]
  | .asl | .lsr | .rol | .ror => shiftOutcomes mode c.opState
  | .dec | .inc => incDecOutcomes mode c.pageBoundary c.opState
  | .trb | .tsb | .rmb | .smb => modifyBitsOutcomes mode c.opState
  | .bxx | .bra | .bbr | .bbs => branchOutcomes c.opState
  | .brk => [idleTo .vec2]
  | .jsr => fiveOutcomes 1 c.opState
  | .rti | .rts => fiveOutcomes 0 c.opState
  | .ph =>
    if c.opState = .op0 then [idleTo .op1]
    else if c.opcode = 0x08 ∨ c.opcode = 0x48 ∨ c.opcode = 0x5A ∨ c.opcode = 0xDA then
      [cycleTo .opcode]
    else [idleTo .opcode]
  | .pl =>
    match c.opState with
    | .op0 => [idleTo .op1]
    | .op1 => [cycleTo .op2]
    | .op2 =>
      if c.opcode = 0x28 ∨ c.opcode = 0x68 ∨ c.opcode = 0x7A ∨ c.opcode = 0xFA then
        [cycleTo .opcode]
      else [idleTo .opcode]
    | s => [stuckIn s]
  | .sta =>
    storeOutcomes mode (c.opState = .op0 ∧ (mode = .absx ∨ mode = .absy ∨ mode = .indy) ∧
      c.pageBoundary = false)
  | .stx | .sty | .stz =>
    storeOutcomes mode (c.opState = .op0 ∧ (mode = .absx ∨ mode = .absy) ∧ c.pageBoundary = false)
  | .clc | .cld | .cli | .clv | .sec | .sed | .sei | .dex | .dey | .inx | .iny | .tax | .tay
  | .tsx | .txa | .txs | .tya | .nop | .wai | .jmp => [idleTo .opcode]

/-- The outcomes of `vector`. -/
def vecOutcomes : OpState → List Outcome
  | .vec0 => [cycleTo .vec1]
  | .vec1 => [cycleTo .vec2]
  | .vec2 => [cycleTo .vec3]
  | .vec3 => [cycleTo .vec4]
  | .vec4 => [cycleTo .vec5]
  | .vec5 => [cycleTo .vec6]
  | .vec6 => [cycleTo .opcode]
  | s => [stuckIn s]

/-- The outcomes of `handler`. -/
def outcomes (c : Ctl) : List Outcome :=
  match c.opState with
  | .opcode => []
  | .param0 | .param1 | .param2 | .param3 | .param4 => addrOutcomes (addrtable c.opcode) c
  | .op0 | .op1 | .op2 | .op3 | .op4 => opOutcomes (optable c.opcode) (addrtable c.opcode) c
  | .vec0 | .vec1 | .vec2 | .vec3 | .vec4 | .vec5 | .vec6 => vecOutcomes c.opState

/-! ## The handlers fit the skeleton -/

/-- The handler ended as `o` says, after `n` requests. -/
structure Outcome.Fits (o : Outcome) (cpu : Cpu) (n : Nat) (cpu' : Cpu) : Prop where
  requests : n = o.requests
  ctl : cpu'.ctl = cpu.ctl.after o
  consumed : cpu'.cycleConsumed = (cpu.cycleConsumed || o.consumes)

/-- Every path of `p` from `cpu` ends as one of the outcomes says. -/
def Fits (os : List Outcome) (cpu : Cpu) (p : BusM Cpu) : Prop :=
  Prog.Ends (fun n cpu' => ∃ o ∈ os, o.Fits cpu n cpu') p

theorem Outcome.fits_iff (o : Outcome) (cpu : Cpu) (n : Nat) (cpu' : Cpu) :
    o.Fits cpu n cpu' ↔ n = o.requests ∧ cpu'.ctl = cpu.ctl.after o ∧
      cpu'.cycleConsumed = (cpu.cycleConsumed || o.consumes) :=
  ⟨fun h => ⟨h.requests, h.ctl, h.consumed⟩, fun ⟨h₁, h₂, h₃⟩ => ⟨h₁, h₂, h₃⟩⟩

attribute [local simp] Outcome.fits_iff Cpu.ctl Ctl.after cycleTo idleTo valueTo stuckIn advanceState
  Fits Prog.Ends valueRequests

section AddrModes
variable (cpu : Cpu)
attribute [local simp] addrOutcomes

theorem imp_fits : Fits (addrOutcomes .imp cpu.ctl) cpu (imp cpu) := by
  simp [imp]

theorem acc_fits : Fits (addrOutcomes .acc cpu.ctl) cpu (acc cpu) := by
  simp [acc]

theorem imm_fits : Fits (addrOutcomes .imm cpu.ctl) cpu (imm cpu) := by
  simp [imm]

theorem zp_fits : Fits (addrOutcomes .zp cpu.ctl) cpu (zp cpu) := by
  simp [zp]

theorem rel_fits : Fits (addrOutcomes .rel cpu.ctl) cpu (rel cpu) := by
  simp [rel]

theorem zpIndexed_fits (idx : CpuRegs → BitVec 8) :
    Fits (zpIndexedOutcomes cpu.opState) cpu (zpIndexed idx cpu) := by
  unfold zpIndexed zpIndexedOutcomes
  split <;> simp

theorem abso_fits : Fits (addrOutcomes .abso cpu.ctl) cpu (abso cpu) := by
  by_cases hjsr : cpu.opcode = 0x20#8
  · simp [abso, hjsr]
  · by_cases hs : cpu.opState = .param0
    · simp [abso, hjsr, hs]
    · by_cases hjmp : cpu.opcode = 0x4C#8
      · simp [abso, hs, hjmp]
      · simp [abso, hjsr, hs, hjmp]

theorem absIndexed_fits (idx : CpuRegs → BitVec 8) :
    Fits (absIndexedOutcomes cpu.opState) cpu (absIndexed idx cpu) := by
  unfold absIndexed
  cases cpu.opState <;> simp [absIndexedOutcomes]

theorem ind_fits : Fits (addrOutcomes .ind cpu.ctl) cpu (ind cpu) := by
  unfold ind
  cases h : cpu.opState <;> simp [h]

theorem indx_fits : Fits (addrOutcomes .indx cpu.ctl) cpu (indx cpu) := by
  unfold indx
  cases h : cpu.opState <;> simp [h]

theorem indy_fits : Fits (addrOutcomes .indy cpu.ctl) cpu (indy cpu) := by
  unfold indy
  cases h : cpu.opState <;> simp [h]

theorem indz_fits : Fits (addrOutcomes .indz cpu.ctl) cpu (indz cpu) := by
  unfold indz
  cases h : cpu.opState <;> simp [h]

theorem abin_fits : Fits (addrOutcomes .abin cpu.ctl) cpu (abin cpu) := by
  unfold abin
  cases h : cpu.opState <;> simp [h]

theorem zprel_fits : Fits (addrOutcomes .zprel cpu.ctl) cpu (zprel cpu) := by
  unfold zprel
  cases h : cpu.opState <;> simp [h]

theorem addrHandlers_fits (mode : AddrMode) :
    Fits (addrOutcomes mode cpu.ctl) cpu (addrHandlers mode cpu) := by
  cases mode with
  | imp => exact imp_fits cpu
  | acc => exact acc_fits cpu
  | imm => exact imm_fits cpu
  | zp => exact zp_fits cpu
  | zpx => exact zpIndexed_fits cpu CpuRegs.x
  | zpy => exact zpIndexed_fits cpu CpuRegs.y
  | rel => exact rel_fits cpu
  | abso => exact abso_fits cpu
  | absx => exact absIndexed_fits cpu CpuRegs.x
  | absy => exact absIndexed_fits cpu CpuRegs.y
  | ind => exact ind_fits cpu
  | indx => exact indx_fits cpu
  | indy => exact indy_fits cpu
  | indz => exact indz_fits cpu
  | abin => exact abin_fits cpu
  | zprel => exact zprel_fits cpu

end AddrModes

section Ops
variable (cpu : Cpu)

theorem getvalue_ends (cpu : Cpu) :
    Prog.Ends (fun n _ => n = valueRequests (addrtable cpu.opcode)) (getvalue cpu) := by
  unfold getvalue
  split <;> simp [*]

/-- `putvalue` leaves all but the accumulator as it was. -/
theorem putvalue_ends (cpu : Cpu) (v : BitVec 16) :
    Prog.Ends (fun n cpu' => n = valueRequests (addrtable cpu.opcode) ∧ cpu'.ctl = cpu.ctl ∧
      cpu'.cycleConsumed = cpu.cycleConsumed) (putvalue cpu v) := by
  unfold putvalue
  split <;> simp [*]

/-- An operand read, then a computation without requests: one cycle. -/
theorem value_fits (os : List Outcome) (f : BitVec 16 → Cpu)
    (hf : ∀ v, ∃ o ∈ os, o.requests = valueRequests (addrtable cpu.opcode) ∧
      (f v).ctl = cpu.ctl.after o ∧ (f v).cycleConsumed = (cpu.cycleConsumed || o.consumes)) :
    Fits os cpu (getvalue cpu >>= fun v => pure (f v)) := by
  refine Prog.EndsFrom.bind (getvalue_ends cpu) ?_
  intro n v hn
  obtain ⟨o, ho, hreq, hctl, hcons⟩ := hf v
  exact ⟨o, ho, hn.trans hreq.symm, hctl, hcons⟩

theorem logical_fits (f : BitVec 16 → BitVec 16 → BitVec 16) :
    Fits [valueTo (addrtable cpu.opcode) .opcode] cpu (logical f cpu) :=
  value_fits cpu _ _ fun v => ⟨_, List.mem_singleton.mpr rfl, by simp⟩

theorem compare_fits (reg : CpuRegs → BitVec 8) :
    Fits [valueTo (addrtable cpu.opcode) .opcode] cpu (compare reg cpu) :=
  value_fits cpu _ _ fun v => ⟨_, List.mem_singleton.mpr rfl, by simp⟩

theorem bit_fits : Fits [valueTo (addrtable cpu.opcode) .opcode] cpu (bit cpu) :=
  value_fits cpu _ _ fun v => ⟨_, List.mem_singleton.mpr rfl, by simp⟩

theorem load_fits (put : BitVec 8 → CpuRegs → CpuRegs) :
    Fits [valueTo (addrtable cpu.opcode) .opcode] cpu (load put cpu) :=
  value_fits cpu _ _ fun v => ⟨_, List.mem_singleton.mpr rfl, by simp⟩

theorem regsOp_fits (f : CpuRegs → CpuRegs) : Fits [idleTo .opcode] cpu (regsOp f cpu) := by
  simp [regsOp]

theorem adc_fits : Fits (opOutcomes .adc (addrtable cpu.opcode) cpu.ctl) cpu (adc cpu) := by
  by_cases hs : cpu.opState = .op0
  · simp only [adc, hs, if_true]
    refine Prog.EndsFrom.bind (getvalue_ends cpu) ?_
    intro n v hn
    simp [opOutcomes, addWithFlags, hs, hn]
  · simp [adc, opOutcomes, hs]

theorem sbc_fits : Fits (opOutcomes .sbc (addrtable cpu.opcode) cpu.ctl) cpu (sbc cpu) := by
  by_cases hs : cpu.opState = .op0
  · simp only [sbc, hs, if_true]
    refine Prog.EndsFrom.bind (getvalue_ends cpu) ?_
    intro n v hn
    simp [opOutcomes, addWithFlags, hs, hn]
  · simp [sbc, opOutcomes, hs]

/-- `putvalue`, then the next opcode: the last cycle of a read-modify-write. -/
theorem put_fits (v : BitVec 16) :
    Fits [valueTo (addrtable cpu.opcode) .opcode] cpu
      (putvalue cpu v >>= fun c => pure (advanceState c .opcode true)) := by
  refine Prog.EndsFrom.bind (putvalue_ends cpu v) ?_
  rintro n c ⟨hn, hctl, hcons⟩
  simp_all

theorem shift_fits (f : BitVec 16 → BitVec 8 → BitVec 16) (carry : BitVec 16 → BitVec 16 → Bool) :
    Fits (shiftOutcomes (addrtable cpu.opcode) cpu.opState) cpu (shift f carry cpu) := by
  unfold shift
  cases hs : cpu.opState with
  | op0 =>
    refine Prog.EndsFrom.bind (getvalue_ends cpu) ?_
    intro n v hn
    by_cases hacc : addrtable cpu.opcode = .acc
    · simp [shiftOutcomes, putvalue, hacc, hn, hs]
    · simp [shiftOutcomes, hacc, hn, hs]
  | op2 => exact put_fits cpu cpu.result
  | _ => simp [shiftOutcomes, hs]

theorem incDec_fits (f : BitVec 16 → BitVec 16) :
    Fits (incDecOutcomes (addrtable cpu.opcode) cpu.pageBoundary cpu.opState) cpu (incDec f cpu) := by
  unfold incDec
  cases hs : cpu.opState with
  | op0 =>
    by_cases hp : addrtable cpu.opcode = .absx ∧ cpu.pageBoundary = false
    · simp [incDecOutcomes, hp]
    · simp [incDecOutcomes, if_neg hp]
  | op1 =>
    refine Prog.EndsFrom.bind (getvalue_ends cpu) ?_
    intro n v hn
    by_cases hacc : addrtable cpu.opcode = .acc
    · simp [incDecOutcomes, putvalue, hacc, hn, hs]
    · simp [incDecOutcomes, hacc, hn, hs]
  | op3 => exact put_fits cpu cpu.result
  | _ => simp [incDecOutcomes, hs]

theorem modifyBits_fits (f : BitVec 16 → Cpu → BitVec 16) (status : BitVec 16 → Cpu → BitVec 8) :
    Fits (modifyBitsOutcomes (addrtable cpu.opcode) cpu.opState) cpu (modifyBits f status cpu) := by
  unfold modifyBits
  cases hs : cpu.opState with
  | op0 => exact value_fits cpu _ _ fun v => ⟨_, List.mem_singleton.mpr rfl, by simp⟩
  | op2 => exact put_fits cpu cpu.result
  | _ => simp [modifyBitsOutcomes, hs]

theorem branch_fits (taken : Cpu → Bool) :
    Fits (branchOutcomes cpu.opState) cpu (branch taken cpu) := by
  unfold branch branchTaken
  cases hs : cpu.opState <;> simp [branchOutcomes, hs]

theorem jsr_fits : Fits (fiveOutcomes 1 cpu.opState) cpu (jsr cpu) := by
  unfold jsr
  cases hs : cpu.opState <;> simp [fiveOutcomes, push8, hs]

theorem rti_fits : Fits (fiveOutcomes 0 cpu.opState) cpu (rti cpu) := by
  unfold rti
  cases hs : cpu.opState <;> simp [fiveOutcomes, pull8, hs]

theorem rts_fits : Fits (fiveOutcomes 0 cpu.opState) cpu (rts cpu) := by
  unfold rts
  cases hs : cpu.opState <;> simp [fiveOutcomes, pull8, hs]

theorem phPush_ends :
    Prog.Ends (fun n cpu' => n = (if cpu.opcode = 0x08 ∨ cpu.opcode = 0x48 ∨ cpu.opcode = 0x5A ∨
      cpu.opcode = 0xDA then 1 else 0) ∧ cpu'.ctl = cpu.ctl ∧
      cpu'.cycleConsumed = cpu.cycleConsumed) (phPush cpu) := by
  simp +contextual [phPush, push8]

theorem plPull_ends :
    Prog.Ends (fun n cpu' => n = (if cpu.opcode = 0x28 ∨ cpu.opcode = 0x68 ∨ cpu.opcode = 0x7A ∨
      cpu.opcode = 0xFA then 1 else 0) ∧ cpu'.ctl = cpu.ctl ∧
      cpu'.cycleConsumed = cpu.cycleConsumed) (plPull cpu) := by
  simp +contextual [plPull, pullReg, pull8]

/-- A push or a pull, then the next opcode. -/
theorem stack_fits (c : Prop) [Decidable c] (p : BusM Cpu)
    (hp : Prog.Ends (fun n cpu' => n = (if c then 1 else 0) ∧ cpu'.ctl = cpu.ctl ∧
      cpu'.cycleConsumed = cpu.cycleConsumed) p) :
    Fits (if c then [cycleTo .opcode] else [idleTo .opcode]) cpu
      (p >>= fun cpu' => pure (advanceState cpu' .opcode true)) := by
  refine Prog.EndsFrom.bind hp ?_
  rintro n cpu' ⟨hn, hctl, hcons⟩
  by_cases hc : c <;> simp_all

theorem ph_fits : Fits (opOutcomes .ph (addrtable cpu.opcode) cpu.ctl) cpu (ph cpu) := by
  unfold ph opOutcomes
  by_cases hs : cpu.opState = .op0
  · simp [hs]
  · simp only [Cpu.ctl, hs, if_false]
    exact stack_fits cpu _ _ (phPush_ends cpu)

theorem pl_fits : Fits (opOutcomes .pl (addrtable cpu.opcode) cpu.ctl) cpu (pl cpu) := by
  unfold pl
  cases hs : cpu.opState with
  | op2 =>
    simp only [opOutcomes, Cpu.ctl, hs]
    exact stack_fits cpu _ _ (plPull_ends cpu)
  | _ => simp [opOutcomes, hs]

theorem store_fits (reg : CpuRegs → BitVec 8) :
    Fits (storeOutcomes (addrtable cpu.opcode) (cpu.opState = .op0 ∧
      (addrtable cpu.opcode = .absx ∨ addrtable cpu.opcode = .absy) ∧ cpu.pageBoundary = false)) cpu
      (store reg cpu) := by
  unfold store storeOutcomes
  by_cases h : cpu.opState = .op0 ∧
      (addrtable cpu.opcode = .absx ∨ addrtable cpu.opcode = .absy) ∧ cpu.pageBoundary = false
  · simp [h]
  · simp only [h, if_false, decide_false]
    exact put_fits cpu _

theorem sta_fits : Fits (opOutcomes .sta (addrtable cpu.opcode) cpu.ctl) cpu (sta cpu) := by
  unfold sta
  by_cases h : cpu.opState = .op0 ∧ addrtable cpu.opcode = .indy ∧ cpu.pageBoundary = false
  · simp [h, opOutcomes, storeOutcomes]
  · rw [if_neg h]
    have hpenalty : (cpu.opState = .op0 ∧ (addrtable cpu.opcode = .absx ∨
        addrtable cpu.opcode = .absy ∨ addrtable cpu.opcode = .indy) ∧ cpu.pageBoundary = false) ↔
        (cpu.opState = .op0 ∧ (addrtable cpu.opcode = .absx ∨ addrtable cpu.opcode = .absy) ∧
          cpu.pageBoundary = false) := by
      grind
    simp only [opOutcomes, Cpu.ctl, hpenalty]
    exact store_fits cpu CpuRegs.a

theorem vector_fits : Fits (vecOutcomes cpu.opState) cpu (vector cpu) := by
  unfold vector
  cases hs : cpu.opState <;> simp [vecOutcomes, push8, hs]

theorem ops_fits (op : Op) :
    Fits (opOutcomes op (addrtable cpu.opcode) cpu.ctl) cpu (ops op cpu) := by
  cases op <;> simp only [ops, opOutcomes]
  case adc => exact adc_fits cpu
  case sbc => exact sbc_fits cpu
  case and | eor | ora => exact logical_fits cpu _
  case cmp | cpx | cpy => exact compare_fits cpu _
  case bit => exact bit_fits cpu
  case lda | ldx | ldy => exact load_fits cpu _
  case asl | lsr | rol | ror => exact shift_fits cpu _ _
  case dec | inc => exact incDec_fits cpu _
  case trb | tsb | rmb | smb => exact modifyBits_fits cpu _ _
  case bxx | bra | bbr | bbs => exact branch_fits cpu _
  case brk => simp [brk]
  case jmp => simp [jmp]
  case jsr => exact jsr_fits cpu
  case rti => exact rti_fits cpu
  case rts => exact rts_fits cpu
  case ph => exact ph_fits cpu
  case pl => exact pl_fits cpu
  case sta => exact sta_fits cpu
  case stx | sty | stz => exact store_fits cpu _
  case clc | cld | cli | clv | sec | sed | sei | dex | dey | inx | iny | tax | tay | tsx | txa | txs
  | tya | nop | wai => exact regsOp_fits cpu _

end Ops

theorem handler_fits (cpu : Cpu) (h : cpu.opState ≠ .opcode) :
    Fits (outcomes cpu.ctl) cpu (handler cpu) := by
  unfold handler outcomes
  cases hs : cpu.opState with
  | opcode => exact absurd hs h
  | param0 | param1 | param2 | param3 | param4 =>
    simpa only [Cpu.ctl, hs] using addrHandlers_fits cpu (addrtable cpu.opcode)
  | op0 | op1 | op2 | op3 | op4 =>
    simpa only [Cpu.ctl, hs] using ops_fits cpu (optable cpu.opcode)
  | vec0 | vec1 | vec2 | vec3 | vec4 | vec5 | vec6 =>
    simpa only [Cpu.ctl, hs] using vector_fits cpu

end Cb6502
