import Mathlib.Tactic.IntervalCases
import Cb6502.Brk
import Cb6502.Decimal

/- The flags that an instruction may change. `definedFlags` lists them by opcode, as the 65C02 has
   them, and they are those of the handlers that the opcodes have (`definedFlags_eq`). A handler
   call changes no other flag (`ops_flags`), so no instruction does, with one exception: BIT has one
   handler for all its modes, and with an immediate operand it copies N and V as it does from memory
   (`status_frame`). -/
namespace Cb6502
open Dialogue

variable {ω : Type} {R : Ram ω}

/-! ## The flags of an instruction -/

def flagsNZ : BitVec 8 := flagSign ||| flagZero

def flagsNZC : BitVec 8 := flagSign ||| flagZero ||| flagCarry

def flagsNVZ : BitVec 8 := flagSign ||| flagOverflow ||| flagZero

def flagsNVZC : BitVec 8 := flagSign ||| flagOverflow ||| flagZero ||| flagCarry

/-- LDA, LDX, LDY, AND, ORA, EOR, INC, DEC, the transfers but TXS, and PLA, PLX and PLY. -/
def opcodesNZ : List (BitVec 8) :=
  [0xA9, 0xA5, 0xB5, 0xAD, 0xBD, 0xB9, 0xA1, 0xB1, 0xB2, 0xA2, 0xA6, 0xB6, 0xAE, 0xBE,
   0xA0, 0xA4, 0xB4, 0xAC, 0xBC, 0x29, 0x25, 0x35, 0x2D, 0x3D, 0x39, 0x21, 0x31, 0x32,
   0x09, 0x05, 0x15, 0x0D, 0x1D, 0x19, 0x01, 0x11, 0x12, 0x49, 0x45, 0x55, 0x4D, 0x5D,
   0x59, 0x41, 0x51, 0x52, 0xE6, 0xF6, 0xEE, 0xFE, 0x1A, 0xC6, 0xD6, 0xCE, 0xDE, 0x3A,
   0xE8, 0xC8, 0xCA, 0x88, 0xAA, 0xA8, 0xBA, 0x8A, 0x98, 0x68, 0xFA, 0x7A]

/-- CMP, CPX, CPY, and the shifts and rotations. -/
def opcodesNZC : List (BitVec 8) :=
  [0xC9, 0xC5, 0xD5, 0xCD, 0xDD, 0xD9, 0xC1, 0xD1, 0xD2, 0xE0, 0xE4, 0xEC, 0xC0, 0xC4, 0xCC,
   0x0A, 0x06, 0x16, 0x0E, 0x1E, 0x4A, 0x46, 0x56, 0x4E, 0x5E,
   0x2A, 0x26, 0x36, 0x2E, 0x3E, 0x6A, 0x66, 0x76, 0x6E, 0x7E]

/-- ADC and SBC. -/
def opcodesNVZC : List (BitVec 8) :=
  [0x69, 0x65, 0x75, 0x6D, 0x7D, 0x79, 0x61, 0x71, 0x72,
   0xE9, 0xE5, 0xF5, 0xED, 0xFD, 0xF9, 0xE1, 0xF1, 0xF2]

/-- The flags that the 65C02 defines for the instruction `opcode`. PLP and RTI load them all. -/
def definedFlags (opcode : BitVec 8) : BitVec 8 :=
  if opcode ∈ opcodesNZ then flagsNZ
  else if opcode ∈ opcodesNZC then flagsNZC
  else if opcode ∈ opcodesNVZC then flagsNVZC
  else
    match opcode.toNat with
    | 0x24 | 0x2C | 0x34 | 0x3C => flagsNVZ -- BIT
    | 0x89 | 0x14 | 0x1C | 0x04 | 0x0C => flagZero -- BIT of an immediate operand, TRB and TSB
    | 0x18 | 0x38 => flagCarry
    | 0xD8 | 0xF8 => flagDecimal
    | 0x58 | 0x78 => flagInterrupt
    | 0xB8 => flagOverflow
    | 0x00 => flagInterrupt ||| flagDecimal -- BRK
    | 0x28 | 0x40 => 0xFF -- PLP and RTI
    | _ => 0

/-- The flags by the handler of the opcode. -/
def handlerFlags (opcode : BitVec 8) : BitVec 8 :=
  match optable opcode with
  | .lda | .ldx | .ldy | .tax | .tay | .tsx | .txa | .tya | .inx | .iny | .dex | .dey | .inc | .dec
  | .and | .ora | .eor => flagsNZ
  | .pl => if opcode = 0x28 then 0xFF else flagsNZ
  | .cmp | .cpx | .cpy | .asl | .lsr | .rol | .ror => flagsNZC
  | .adc | .sbc => flagsNVZC
  | .bit => if addrtable opcode = .imm then flagZero else flagsNVZ
  | .trb | .tsb => flagZero
  | .clc | .sec => flagCarry
  | .cld | .sed => flagDecimal
  | .cli | .sei => flagInterrupt
  | .clv => flagOverflow
  | .brk => flagInterrupt ||| flagDecimal
  | .rti => 0xFF
  | .sta | .stx | .sty | .stz | .bxx | .bra | .bbr | .bbs | .rmb | .smb | .jmp | .jsr | .rts | .ph
  | .txs | .nop | .wai => 0

/-- The dispatch gives every opcode a handler with its flags. -/
theorem definedFlags_eq : ∀ opcode, definedFlags opcode = handlerFlags opcode := by
  decide +kernel

/-! ## A handler call -/

/-- The flags in `kept` are as before. -/
def Cpu.KeepsFlags (kept : BitVec 8) (cpu cpu' : Cpu) : Prop :=
  cpu'.regs.status &&& kept = cpu.regs.status &&& kept

section Calls
variable (cpu : Cpu) {kept : BitVec 8}
attribute [local simp] Cpu.KeepsFlags Prog.Ends advanceState push8 pull8

theorem zncalc_and (hz : flagZero &&& kept = 0) (hn : flagSign &&& kept = 0) (status : BitVec 8)
    (n : BitVec 16) : zncalc status n &&& kept = status &&& kept := by
  unfold zncalc signcalc zerocalc
  rw [flagIf_and hn, flagIf_and hz]

theorem putvalue_flags (v : BitVec 16) (next : OpState) (consumes : Bool) :
    Prog.Ends (fun _ => cpu.KeepsFlags kept)
      (putvalue cpu v >>= fun c => pure (advanceState c next consumes)) := by
  unfold putvalue
  split <;> simp

/-- The flags of a decimal adjustment. -/
theorem adjust_and {α : Type} (hc : flagCarry &&& kept = 0) (c : Prop) [Decidable c] (a b : α)
    (status : BitVec 8) :
    (if c then (a, setFlag flagCarry (clearFlag flagCarry status))
      else (b, clearFlag flagCarry status)).2 &&& kept = status &&& kept := by
  have hclear : clearFlag flagCarry status &&& kept = status &&& kept := flagIf_and hc false status
  split
  · calc setFlag flagCarry (clearFlag flagCarry status) &&& kept
        = clearFlag flagCarry status &&& kept := flagIf_and hc true _
      _ = status &&& kept := hclear
  · exact hclear

theorem addWithFlags_and (value : BitVec 16) :
    (addWithFlags cpu value).regs.status &&& ~~~flagsNVZC = cpu.regs.status &&& ~~~flagsNVZC := by
  unfold addWithFlags signcalc overflowcalc zerocalc carrycalc
  dsimp only
  rw [flagIf_and (by decide), flagIf_and (by decide), flagIf_and (by decide), flagIf_and (by decide)]

theorem adc_flags : Prog.Ends (fun _ => cpu.KeepsFlags (~~~flagsNVZC)) (adc cpu) := by
  unfold adc
  split
  · refine getvalue_keeps cpu fun v => ?_
    have hflags := addWithFlags_and cpu v
    simp only [Prog.pure_eq, Prog.Ends, Prog.endsFrom_ite, Prog.endsFrom_done]
    exact ⟨fun _ => hflags, fun _ => hflags⟩
  · exact adjust_and (by decide) _ _ _ _

theorem sbc_flags : Prog.Ends (fun _ => cpu.KeepsFlags (~~~flagsNVZC)) (sbc cpu) := by
  unfold sbc
  split
  · refine getvalue_keeps cpu fun v => ?_
    have hflags := addWithFlags_and cpu (v ^^^ 0x00FF)
    simp only [Prog.pure_eq, Prog.Ends, Prog.endsFrom_ite, Prog.endsFrom_done]
    exact ⟨fun _ => hflags, fun _ => hflags⟩
  · exact adjust_and (by decide) _ _ _ _

theorem logical_flags (f : BitVec 16 → BitVec 16 → BitVec 16) :
    Prog.Ends (fun _ => cpu.KeepsFlags (~~~flagsNZ)) (logical f cpu) :=
  getvalue_keeps cpu fun _ => zncalc_and (by decide) (by decide) _ _

theorem load_flags (put : BitVec 8 → CpuRegs → CpuRegs) :
    Prog.Ends (fun _ => cpu.KeepsFlags (~~~flagsNZ)) (load put cpu) :=
  getvalue_keeps cpu fun _ => zncalc_and (by decide) (by decide) _ _

theorem compare_flags (reg : CpuRegs → BitVec 8) :
    Prog.Ends (fun _ => cpu.KeepsFlags (~~~flagsNZC)) (compare reg cpu) := by
  refine getvalue_keeps cpu fun v => ?_
  show signcalc (flagIf _ _ (flagIf _ _ _)) _ &&& _ = _
  unfold signcalc
  rw [flagIf_and (by decide), flagIf_and (by decide), flagIf_and (by decide)]

/-- BIT clears N and V and takes them from the operand. -/
theorem bit_flags : Prog.Ends (fun _ => cpu.KeepsFlags (~~~flagsNVZ)) (bit cpu) := by
  refine getvalue_keeps cpu fun v => ?_
  have hcopy : ∀ b status : BitVec 8, ((status &&& 0x3F) ||| (b &&& 0xC0)) &&& ~~~flagsNVZ =
      status &&& ~~~flagsNVZ := by
    intro b status
    ext i hi
    interval_cases i <;> simp [flagsNVZ, flagSign, flagOverflow, flagZero]
  show ((zerocalc _ _ &&& 0x3F) ||| u8 (v &&& 0xC0)) &&& _ = _
  rw [u8, BitVec.setWidth_and]
  refine (hcopy (u8 v) _).trans ?_
  unfold zerocalc
  rw [flagIf_and (by decide)]

theorem shift_flags (f : BitVec 16 → BitVec 8 → BitVec 16) (carry : BitVec 16 → BitVec 16 → Bool) :
    Prog.Ends (fun _ => cpu.KeepsFlags (~~~flagsNZC)) (shift f carry cpu) := by
  have hflags : ∀ b n, zncalc (flagIf flagCarry b cpu.regs.status) n &&& ~~~flagsNZC =
      cpu.regs.status &&& ~~~flagsNZC := by
    intro b n
    rw [zncalc_and (by decide) (by decide), flagIf_and (by decide)]
  unfold shift
  cases cpu.opState with
  | op0 =>
    refine getvalue_keeps cpu fun v => ?_
    by_cases hacc : addrtable cpu.opcode = .acc
    · simp [putvalue, hacc, hflags]
    · simp [hacc, hflags]
  | op2 => exact putvalue_flags cpu _ _ _
  | _ => simp

theorem incDec_flags (f : BitVec 16 → BitVec 16) :
    Prog.Ends (fun _ => cpu.KeepsFlags (~~~flagsNZ)) (incDec f cpu) := by
  have hflags : ∀ n, zncalc cpu.regs.status n &&& ~~~flagsNZ = cpu.regs.status &&& ~~~flagsNZ :=
    fun n => zncalc_and (by decide) (by decide) _ n
  unfold incDec
  cases cpu.opState with
  | op0 => by_cases hp : addrtable cpu.opcode = .absx ∧ cpu.pageBoundary = false <;> simp [hp]
  | op1 =>
    refine getvalue_keeps cpu fun v => ?_
    by_cases hacc : addrtable cpu.opcode = .acc
    · simp [putvalue, hacc, hflags]
    · simp [hacc, hflags]
  | op3 => exact putvalue_flags cpu _ _ _
  | _ => simp

theorem modifyBits_flags (f : BitVec 16 → Cpu → BitVec 16) (status : BitVec 16 → Cpu → BitVec 8)
    (hstatus : ∀ v, status v cpu &&& kept = cpu.regs.status &&& kept) :
    Prog.Ends (fun _ => cpu.KeepsFlags kept) (modifyBits f status cpu) := by
  unfold modifyBits
  cases cpu.opState with
  | op0 => exact getvalue_keeps cpu fun v => by simp [hstatus]
  | op2 => exact putvalue_flags cpu _ _ _
  | _ => simp

theorem testStatus_and (v : BitVec 16) :
    testStatus v cpu &&& ~~~flagZero = cpu.regs.status &&& ~~~flagZero := by
  unfold testStatus zerocalc
  rw [flagIf_and (by decide)]

theorem store_flags (reg : CpuRegs → BitVec 8) :
    Prog.Ends (fun _ => cpu.KeepsFlags kept) (store reg cpu) := by
  unfold store
  dsimp only
  split
  · simp
  · exact putvalue_flags cpu _ _ _

theorem sta_flags : Prog.Ends (fun _ => cpu.KeepsFlags kept) (sta cpu) := by
  unfold sta
  split
  · simp
  · exact store_flags cpu _

theorem ph_flags : Prog.Ends (fun _ => cpu.KeepsFlags kept) (ph cpu) := by
  have hpush : Prog.Ends (fun _ => cpu.KeepsFlags kept) (phPush cpu) := by simp [phPush]
  unfold ph
  split
  · simp
  · exact Prog.EndsFrom.bind hpush fun _ _ h => h

theorem pl_flags (h : cpu.opcode ≠ 0x28) : Prog.Ends (fun _ => cpu.KeepsFlags (~~~flagsNZ)) (pl cpu) := by
  have hflags : ∀ n, zncalc cpu.regs.status n &&& ~~~flagsNZ = cpu.regs.status &&& ~~~flagsNZ :=
    fun n => zncalc_and (by decide) (by decide) _ n
  have hpull : Prog.Ends (fun _ => cpu.KeepsFlags (~~~flagsNZ)) (plPull cpu) := by
    rw [plPull, if_neg h]
    simp [pullReg, hflags]
  unfold pl
  cases cpu.opState with
  | op2 => exact Prog.EndsFrom.bind hpull fun _ _ h => h
  | _ => simp

theorem rts_flags : Prog.Ends (fun _ => cpu.KeepsFlags kept) (rts cpu) := by
  unfold rts
  cases cpu.opState <;> simp

theorem branch_flags (taken : Cpu → Bool) : Prog.Ends (fun _ => cpu.KeepsFlags kept) (branch taken cpu) := by
  unfold branch branchTaken
  cases cpu.opState <;> simp

theorem regsOp_flags (f : CpuRegs → CpuRegs)
    (h : (f cpu.regs).status &&& kept = cpu.regs.status &&& kept) :
    Prog.Ends (fun _ => cpu.KeepsFlags kept) (regsOp f cpu) := h

theorem jsr_flags : Prog.Ends (fun _ => cpu.KeepsFlags kept) (jsr cpu) := by
  unfold jsr
  cases cpu.opState <;> simp

/-- The instructions that load the status. -/
theorem loads_flags (op : Op) : Prog.Ends (fun _ => cpu.KeepsFlags (~~~0xFF)) (ops op cpu) :=
  (ops_frame cpu op).mono fun _ cpu' _ => by simp

theorem bit_immediate_table : ∀ opcode : BitVec 8, optable opcode = .bit → addrtable opcode = .imm →
    opcode = 0x89 := by
  decide +kernel

/-- A handler call changes no flag that its instruction does not define, BIT with an immediate
operand apart. -/
theorem ops_flags (h : cpu.opcode ≠ 0x89) :
    Prog.Ends (fun _ => cpu.KeepsFlags (~~~definedFlags cpu.opcode)) (ops (optable cpu.opcode) cpu) := by
  have himm := bit_immediate_table cpu.opcode
  have hload := loads_flags cpu .pl
  rw [definedFlags_eq]
  unfold handlerFlags
  cases hop : optable cpu.opcode <;> rw [hop] at himm <;> simp only [ops]
  case adc => exact adc_flags cpu
  case sbc => exact sbc_flags cpu
  case and | eor | ora => exact logical_flags cpu _
  case cmp | cpx | cpy => exact compare_flags cpu _
  case bit =>
    rw [if_neg fun hmode => h (himm rfl hmode)]
    exact bit_flags cpu
  case asl | lsr | rol | ror => exact shift_flags cpu _ _
  case dec | inc => exact incDec_flags cpu _
  case trb | tsb => exact modifyBits_flags cpu _ _ (testStatus_and cpu)
  case rmb | smb => exact modifyBits_flags cpu _ _ fun _ => rfl
  case lda | ldx | ldy => exact load_flags cpu _
  case sta => exact sta_flags cpu
  case stx | sty | stz => exact store_flags cpu _
  case ph => exact ph_flags cpu
  case pl =>
    split
    · exact hload
    · exact pl_flags cpu ‹_›
  case rti => exact loads_flags cpu .rti
  case rts => exact rts_flags cpu
  case jsr => exact jsr_flags cpu
  case brk | jmp => exact rfl
  case bxx | bra | bbr | bbs => exact branch_flags cpu _
  case clc | cld | cli | clv => exact regsOp_flags cpu _ (flagIf_and (by decide) false _)
  case sec | sed | sei => exact regsOp_flags cpu _ (flagIf_and (by decide) true _)
  case dex | dey | inx | iny | tax | tay | tsx | txa | tya =>
    exact regsOp_flags cpu _ (zncalc_and (by decide) (by decide) _ _)
  case txs | nop | wai => exact regsOp_flags cpu _ rfl

end Calls

/-! ## The instructions -/

theorem brk_opcode_table : ∀ opcode : BitVec 8, optable opcode = .brk → opcode = 0x00 := by
  decide +kernel

section
variable {emu e : Emu ω} {opcode : BitVec 8}

theorem Executes.keepsFlags (hrun : Executes emu e) (h : Fetches R emu)
    (hop : R.mem emu.bus.devs emu.cpu.regs.pc = opcode) (hbit : opcode ≠ 0x89) :
    emu.cpu.KeepsFlags (~~~definedFlags opcode) e.cpu := by
  by_cases hbrk : optable opcode = .brk
  · have hzero := brk_opcode_table opcode hbrk
    subst hzero
    rw [Cpu.KeepsFlags, (hrun.brk h hop).2]
    exact flagIf_and (by decide) true _
  by_cases hjsr : optable opcode = .jsr
  · have htwenty := jsr_table opcode hjsr
    subst htwenty
    rw [Cpu.KeepsFlags, (hrun.jsr h hop).2]
  -- the calls of the other handlers
  subst hop
  refine hrun.rule h rfl hbrk hjsr (X := fun c _ =>
    emu.cpu.KeepsFlags (~~~definedFlags (R.mem emu.bus.devs emu.cpu.regs.pc)) c) ?_ ?_ fun c mem h => h
  · intro c s hready
    have hstatus : c.regs.status = emu.cpu.regs.status := by rw [hready.regs]
    have hcall := (ops_flags c (by rw [hready.opcode]; exact hbit)).result ramEnv s
    rw [hready.opcode, Cpu.KeepsFlags, hstatus] at hcall
    exact hcall
  · intro c s hkept hopcode _
    have hcall := (ops_flags c (by rw [hopcode]; exact hbit)).result ramEnv s
    rw [hopcode] at hcall
    exact hcall.trans hkept

/-- BIT with an immediate operand takes N and V from it. -/
theorem Executes.bit_immediate (hrun : Executes emu e) (h : Fetches R emu)
    (hop : R.mem emu.bus.devs emu.cpu.regs.pc = 0x89) :
    ∃ z, e.cpu.regs.status = (flagIf flagZero z emu.cpu.regs.status &&& 0x3F) |||
      (R.mem emu.bus.devs (emu.cpu.regs.pc + 1) &&& 0xC0) := by
  have hbit : optable (R.mem emu.bus.devs emu.cpu.regs.pc) = .bit := by
    rw [hop]
    decide
  have hbyte : operandByte (R.mem emu.bus.devs) emu.cpu.regs =
      some (R.mem emu.bus.devs (emu.cpu.regs.pc + 1)) := by
    have hmode : addrtable 0x89#8 = .imm := by decide
    simp [operandByte, hop, hmode, operandAddress]
  refine hrun.once h hbit (by decide) (by decide) (Q := fun r' _ => ∃ z, r'.status =
    (flagIf flagZero z emu.cpu.regs.status &&& 0x3F) |||
      (R.mem emu.bus.devs (emu.cpu.regs.pc + 1) &&& 0xC0)) ?_
  intro c s hready
  have hstatus : c.regs.status = emu.cpu.regs.status := by rw [hready.regs]
  obtain ⟨hv, -⟩ := hready.getvalue hbyte
  simp only [ops, Cb6502.bit, Prog.run_bind, hv, ← hstatus]
  refine ⟨rfl, u16 c.regs.a &&& u16 (R.mem emu.bus.devs (emu.cpu.regs.pc + 1)) &&& 0x00FF == 0, ?_⟩
  show (zerocalc c.regs.status _ &&& 0x3F) ||| u8 (u16 _ &&& 0xC0) = _
  have hcopy : ∀ b : BitVec 8, u8 (u16 b &&& 0xC0) = b &&& 0xC0 := by decide +kernel
  rw [hcopy]
  rfl

end

/-- The copy of N and V shows when the operand differs there. -/
theorem bit_immediate_iff (z : Bool) (status v : BitVec 8) :
    ((flagIf flagZero z status &&& 0x3F) ||| (v &&& 0xC0)) &&& ~~~flagZero = status &&& ~~~flagZero ↔
      v &&& 0xC0 = status &&& 0xC0 := by
  have hsplit : ∀ s v : BitVec 8, ((s &&& 0x3F) ||| (v &&& 0xC0)) &&& ~~~flagZero =
      (s &&& ~~~flagZero &&& 0x3F) ||| (v &&& 0xC0) := by
    intro s v
    ext i hi
    interval_cases i <;> simp [flagZero]
  have hself : ∀ s : BitVec 8, s &&& ~~~flagZero = (s &&& ~~~flagZero &&& 0x3F) ||| (s &&& 0xC0) := by
    decide +kernel
  have hhigh : ∀ s v : BitVec 8, ((s &&& 0x3F) ||| (v &&& 0xC0)) &&& 0xC0 = v &&& 0xC0 := by
    intro s v
    ext i hi
    interval_cases i <;> simp
  rw [hsplit, flagIf_and (by decide)]
  constructor
  · intro h
    calc v &&& 0xC0 = ((status &&& ~~~flagZero &&& 0x3F) ||| (v &&& 0xC0)) &&& 0xC0 := (hhigh _ _).symm
      _ = ((status &&& ~~~flagZero &&& 0x3F) ||| (status &&& 0xC0)) &&& 0xC0 := by rw [h, ← hself]
      _ = status &&& 0xC0 := hhigh _ _
  · intro h
    rw [h, ← hself]

/-- An instruction changes no flag but those that the 65C02 defines for it, exactly when it is
not BIT with an immediate operand whose bits 7 and 6 differ from N and V. -/
theorem status_frame {emu : Emu ω} (h : Fetches R emu) {opcode : BitVec 8}
    (hop : R.mem emu.bus.devs emu.cpu.regs.pc = opcode) :
    (∃ e, Executes emu e) ∧ ∀ e, Executes emu e →
      (e.cpu.regs.status &&& ~~~definedFlags opcode = emu.cpu.regs.status &&& ~~~definedFlags opcode ↔
        (opcode = 0x89 → R.mem emu.bus.devs (emu.cpu.regs.pc + 1) &&& 0xC0 =
          emu.cpu.regs.status &&& 0xC0)) := by
  refine ⟨h.exists, ?_⟩
  intro e hrun
  by_cases hbit : opcode = 0x89
  · subst hbit
    obtain ⟨z, hstatus⟩ := hrun.bit_immediate h hop
    have hflags : definedFlags 0x89 = flagZero := by decide
    rw [hstatus, hflags, bit_immediate_iff]
    exact ⟨fun h _ => h, fun h => h rfl⟩
  · exact iff_of_true (hrun.keepsFlags h hop hbit) fun heq => absurd heq hbit

/-- `BIT #$3F`, with N and V clear. -/
theorem status_frame_of_low_operand : ∃ e, Executes (immEmu 0x89 0x01 0x3F 0x00) e ∧
    e.cpu.regs.status &&& ~~~flagZero = 0x00 := by
  have hfetches : Fetches flatRam (immEmu 0x89 0x01 0x3F 0x00) := ⟨⟨rfl, rfl, trivial⟩, rfl, rfl, rfl⟩
  have hop : flatRam.mem (immEmu 0x89 0x01 0x3F 0x00).bus.devs 0x0200 = 0x89 := by decide
  obtain ⟨⟨e, hrun⟩, hall⟩ := status_frame hfetches hop
  exact ⟨e, hrun, (hall e hrun).mpr (by decide)⟩

/-- `BIT #$80` sets N. -/
theorem bit_immediate_copies_sign : ¬∀ (emu e : Emu Mem) (opcode : BitVec 8), Fetches flatRam emu →
    flatRam.mem emu.bus.devs emu.cpu.regs.pc = opcode → Executes emu e →
      e.cpu.regs.status &&& ~~~definedFlags opcode = emu.cpu.regs.status &&& ~~~definedFlags opcode := by
  intro hall
  have hfetches : Fetches flatRam (immEmu 0x89 0x01 0x80 0x00) := ⟨⟨rfl, rfl, trivial⟩, rfl, rfl, rfl⟩
  obtain ⟨e, hrun⟩ := hfetches.exists
  obtain ⟨z, hstatus⟩ := hrun.bit_immediate hfetches (by decide)
  have hkept := hall _ e 0x89 hfetches (by decide) hrun
  rw [hstatus] at hkept
  revert hkept
  cases z <;> decide

end Cb6502
