import Cb6502.BitInstructions
import Cb6502.Disassemble
import Cb6502.SteppingRam

/- What the prompt shows of the next instruction. The string is to name the operation of the
   handler that `optable` selects, and to have the bytes of the operand; `mnemonics` and the
   formats are tables of their own. `prompt_describes_iff` says for which instructions the tables
   agree. -/
namespace Cb6502
open Printf

variable {ω : Type} {R : Ram ω}

/-! ## What the string is to say -/

/-- The operation that the handler `op` performs at `opcode`. -/
def operationName (op : Op) (opcode : BitVec 8) : String :=
  match op with
  | .adc => "ADC" | .and => "AND" | .asl => "ASL" | .bit => "BIT" | .bra => "BRA" | .brk => "BRK"
  | .clc => "CLC" | .cld => "CLD" | .cli => "CLI" | .clv => "CLV" | .cmp => "CMP" | .cpx => "CPX"
  | .cpy => "CPY" | .dec => "DEC" | .dex => "DEX" | .dey => "DEY" | .eor => "EOR" | .inc => "INC"
  | .inx => "INX" | .iny => "INY" | .jmp => "JMP" | .jsr => "JSR" | .lda => "LDA" | .ldx => "LDX"
  | .ldy => "LDY" | .lsr => "LSR" | .nop => "NOP" | .ora => "ORA" | .rol => "ROL" | .ror => "ROR"
  | .rti => "RTI" | .rts => "RTS" | .sbc => "SBC" | .sec => "SEC" | .sed => "SED" | .sei => "SEI"
  | .sta => "STA" | .stx => "STX" | .sty => "STY" | .stz => "STZ" | .tax => "TAX" | .tay => "TAY"
  | .trb => "TRB" | .tsb => "TSB" | .tsx => "TSX" | .txa => "TXA" | .txs => "TXS" | .tya => "TYA"
  | .wai => "WAI"
  | .bbr => "BBR" ++ (bitNumber opcode).repr
  | .bbs => "BBS" ++ (bitNumber opcode).repr
  | .rmb => "RMB" ++ (bitNumber opcode).repr
  | .smb => "SMB" ++ (bitNumber opcode).repr
  -- bits 7 and 6 select the flag, and bit 5 its value
  | .bxx => ["BPL", "BMI", "BVC", "BVS", "BCC", "BCS", "BNE", "BEQ"].getD (opcode >>> 5).toNat ""
  | .ph =>
    if opcode = 0x08 then "PHP" else if opcode = 0x48 then "PHA" else if opcode = 0x5A then "PHY"
    else "PHX"
  | .pl =>
    if opcode = 0x28 then "PLP" else if opcode = 0x68 then "PLA" else if opcode = 0x7A then "PLY"
    else "PLX"

/-- The string starts with the address, names the operation at `pc`, and goes on with the operand, in
which each of its bytes is found. -/
def DescribesPc (m : Mem) (pc : BitVec 16) (str : Nat → BitVec 8) : Prop :=
  let opcode := m pc
  ∃ text operand, Holds str text ∧ text.length < maxDisassemblyStringLen ∧
    text = addrText pc ++ ascii (operationName (optable opcode) opcode) ++ operand ∧
    (operand = [] ∨ ascii " " <+: operand) ∧
    ∀ i, 0 < i → i < addrLengths (addrtable opcode) →
      hex 2 (m (pc + BitVec.ofNat 16 i)).toNat <:+: operand

/-! ## The tables -/

def misnamed : List (BitVec 8) := [0x1A, 0x3A, 0xDB]

theorem mnemonics_operationName : ∀ opcode : BitVec 8,
    ascii (mnemonics opcode) = ascii (operationName (optable opcode) opcode) ↔ opcode ∉ misnamed := by
  decide +kernel

theorem names_noSpace : ∀ opcode : BitVec 8, 0x20 ∉ ascii (mnemonics opcode) ∧
    0x20 ∉ ascii (operationName (optable opcode) opcode) := by
  decide +kernel

/-- The modes whose operand is not printed. -/
def unprinted : List AddrMode := [.abin, .zprel]

theorem operandFormat_some {mode : AddrMode} {format : OperandFormat} (h : operandFormat mode = some format) :
    mode ∉ unprinted ∧ addrLengths mode = (if format.word then 3 else 2) ∧
      ascii " " <+: ascii format.before := by
  have htable : ∀ mode, ∀ format ∈ operandFormat mode, mode ∉ unprinted ∧
      addrLengths mode = (if format.word then 3 else 2) ∧ ascii " " <+: ascii format.before := by
    intro mode
    cases mode <;> decide
  exact htable mode format h

theorem operandFormat_none {mode : AddrMode} (h : operandFormat mode = none) :
    addrLengths mode = if mode ∈ unprinted then 3 else 1 := by
  revert h
  cases mode <;> decide

theorem unprinted_table : ∀ mode ∈ unprinted, operandFormat mode = none ∧ addrLengths mode = 3 := by
  decide

theorem readParam_bytes (codeBuf : Nat → BitVec 8) :
    u8 (readParam codeBuf 0 2) = codeBuf 1 ∧ readParam codeBuf 0 3 = joinBytes (codeBuf 1) (codeBuf 2) := by
  refine ⟨?_, rfl⟩
  show u8 (u16 (codeBuf 1)) = codeBuf 1
  simp

theorem u8_joinBytes (lo hi : BitVec 8) :
    u8 (joinBytes lo hi) = lo ∧ u8 (joinBytes lo hi >>> 8) = hi := by
  unfold joinBytes
  constructor
  · ext i hlt
    simp
  · ext i hlt
    have hbyte : ¬8 + i < 8 ∧ 8 + i < 16 ∧ i < 16 := by omega
    simp [hbyte, BitVec.getLsbD_eq_getElem hlt]

/-- The bytes of the operand are in its text, where it has one. -/
theorem operandText_bytes {mode : AddrMode} (hmode : mode ∉ unprinted) (codeBuf : Nat → BitVec 8) {i : Nat}
    (hpos : 0 < i) (hlt : i < addrLengths mode) :
    hex 2 (codeBuf i).toNat <:+: operandText mode (readParam codeBuf 0 (addrLengths mode)) := by
  unfold operandText
  cases hformat : operandFormat mode with
  | none =>
    rw [operandFormat_none hformat, if_neg hmode] at hlt
    omega
  | some format =>
    obtain ⟨-, hlength, -⟩ := operandFormat_some hformat
    obtain ⟨hbyte, hword⟩ := readParam_bytes codeBuf
    simp only [Option.map_some, Option.getD_some, OperandFormat.text]
    cases hw : format.word with
    | false =>
      simp only [hw, Bool.false_eq_true, if_false] at hlength ⊢
      obtain rfl : i = 1 := by omega
      rw [hlength, hbyte]
      exact ⟨ascii format.before, ascii format.after, rfl⟩
    | true =>
      simp only [hw, if_true] at hlength ⊢
      obtain ⟨hlow, hhigh⟩ := u8_joinBytes (codeBuf 1) (codeBuf 2)
      rw [hlength, hword, hex_word, hlow, hhigh]
      rcases (by omega : i = 1 ∨ i = 2) with rfl | rfl
      · exact ⟨ascii format.before ++ hex 2 (codeBuf 2).toNat, ascii format.after, by simp⟩
      · exact ⟨ascii format.before, hex 2 (codeBuf 1).toNat ++ ascii format.after, by simp⟩

theorem operandText_head (mode : AddrMode) (param : BitVec 16) :
    operandText mode param = [] ∨ ascii " " <+: operandText mode param := by
  unfold operandText
  cases hformat : operandFormat mode with
  | none => exact .inl rfl
  | some format =>
    obtain ⟨-, -, rest, hrest⟩ := operandFormat_some hformat
    refine .inr ⟨rest ++ (if format.word then hex 4 param.toNat else hex 2 (u8 param).toNat) ++
      ascii format.after, ?_⟩
    simp only [Option.map_some, Option.getD_some, OperandFormat.text]
    rw [← hrest]
    simp only [List.append_assoc]

theorem operandText_length (mode : AddrMode) (param : BitVec 16) : (operandText mode param).length ≤ 12 := by
  unfold operandText
  cases hformat : operandFormat mode with
  | none => exact Nat.zero_le _
  | some format => exact (format_text hformat param).1

/-- A word ends at the first space. -/
theorem word_unique {a b rest rest' : Text} (ha : 0x20 ∉ a) (hb : 0x20 ∉ b)
    (hrest : rest = [] ∨ ascii " " <+: rest) (hrest' : rest' = [] ∨ ascii " " <+: rest')
    (h : a ++ rest = b ++ rest') : a = b ∧ rest = rest' := by
  have htake : ∀ {a rest : Text}, 0x20 ∉ a → (rest = [] ∨ ascii " " <+: rest) →
      (a ++ rest).takeWhile (· != 0x20) = a := by
    intro a rest ha hrest
    have hall : ∀ c ∈ a, (c != 0x20) = true := by
      intro c hc
      rw [bne_iff_ne]
      rintro rfl
      exact ha hc
    have hnil : rest.takeWhile (· != 0x20) = [] := by
      rcases hrest with rfl | ⟨more, rfl⟩
      · rfl
      · rfl
    rw [List.takeWhile_append_of_pos hall, hnil, List.append_nil]
  have hab : a = b := by
    calc a = (a ++ rest).takeWhile (· != 0x20) := (htake ha hrest).symm
      _ = b := by rw [h, htake hb hrest']
  subst hab
  exact ⟨rfl, List.append_cancel_left h⟩

/-! ## The string -/

/-- The bytes from `pc` to the end of the address space, three at most. -/
def pcBytes (m : Mem) (pc : BitVec 16) : List (BitVec 8) :=
  (List.range (min 3 (0x10000 - pc.toNat))).map fun i => m (pc + BitVec.ofNat 16 i)

theorem disassemblePcString_onRam (hR : R.Peeks) {emu : Emu ω} (h : emu.bus.OnRam R) {pc : BitVec 16}
    (hpc : emu.cpu.regs.pc = pc) (str : DisassembleString) :
    disassemblePcString emu str =
      (emu, (disassembleOpcode stringData (BitVec.ofNat 16 (pcBytes (R.mem emu.bus.devs) pc).length)
        ((pcBytes (R.mem emu.bus.devs) pc).getD · 0) 0 (some pc) str).2) := by
  subst hpc
  have hpeek := busPeek_onRam hR h
  have hpc := emu.cpu.regs.pc.isLt
  have hzero : emu.cpu.regs.pc + 0#16 = emu.cpu.regs.pc := BitVec.add_zero _
  unfold disassemblePcString pcBytes
  by_cases hlast : emu.cpu.regs.pc < 0xFFFF
  · have hlast' : emu.cpu.regs.pc.toNat < 0xFFFF := hlast
    by_cases hthree : emu.cpu.regs.pc < 0xFFFE
    · have hthree' : emu.cpu.regs.pc.toNat < 0xFFFE := hthree
      have hmin : min 3 (0x10000 - emu.cpu.regs.pc.toNat) = 3 := by omega
      simp only [hpeek, if_pos hlast, if_pos hthree, hmin]
      simp [List.range_succ, hzero]
    · have hthree' : ¬emu.cpu.regs.pc.toNat < 0xFFFE := hthree
      have hmin : min 3 (0x10000 - emu.cpu.regs.pc.toNat) = 2 := by omega
      simp only [hpeek, if_pos hlast, if_neg hthree, hmin]
      simp [List.range_succ, hzero]
  · have hlast' : ¬emu.cpu.regs.pc.toNat < 0xFFFF := hlast
    have hthree : ¬emu.cpu.regs.pc < 0xFFFE := by
      intro hlt
      have hlt' : emu.cpu.regs.pc.toNat < 0xFFFE := hlt
      omega
    have hmin : min 3 (0x10000 - emu.cpu.regs.pc.toNat) = 1 := by omega
    simp only [hpeek, if_neg hlast, if_neg hthree, hmin]
    simp [hzero]

theorem length_pcBytes (m : Mem) (pc : BitVec 16) :
    (BitVec.ofNat 16 (pcBytes m pc).length).toNat = min 3 (0x10000 - pc.toNat) := by
  rw [pcBytes, List.length_map, List.length_range, BitVec.toNat_ofNat, Nat.mod_eq_of_lt (by omega)]

theorem getD_pcBytes (m : Mem) (pc : BitVec 16) :
    ∀ i < (BitVec.ofNat 16 (pcBytes m pc).length).toNat,
      (pcBytes m pc).getD i 0 = m (pc + BitVec.ofNat 16 i) := by
  intro i hi
  rw [length_pcBytes] at hi
  unfold pcBytes
  rw [List.getD_eq_getElem _ _ (by simpa using hi)]
  simp

section
variable {m : Mem} {pc : BitVec 16} {codeLen : BitVec 16} {codeBuf : Nat → BitVec 8}
  (hlen : codeLen.toNat = min 3 (0x10000 - pc.toNat))
  (hbuf : ∀ i < codeLen.toNat, codeBuf i = m (pc + BitVec.ofNat 16 i))
include hlen hbuf

theorem codeBuf_opcode : codeBuf 0 = m pc := by
  have hpc := pc.isLt
  rw [hbuf 0 (by omega)]
  exact congrArg m (BitVec.add_zero pc)

theorem instructionFits_iff :
    InstructionFits codeLen codeBuf 0 ↔ pc.toNat + addrLengths (addrtable (m pc)) ≤ 0x10000 := by
  have hthree : ∀ mode, addrLengths mode ≤ 3 := by
    intro mode
    cases mode <;> decide
  have hle := hthree (addrtable (m pc))
  have hpc := pc.isLt
  unfold InstructionFits
  rw [codeBuf_opcode hlen hbuf, hlen]
  omega

/-- The string of an instruction that is all there describes it, exactly if it is in the tables. -/
theorem describesPc_iff (hfits : InstructionFits codeLen codeBuf 0) {str : Nat → BitVec 8}
    (hstr : Holds str (instructionText (some pc) (m pc)
      (readParam codeBuf 0 (addrLengths (addrtable (m pc)))))) :
    DescribesPc m pc str ↔ m pc ∉ misnamed ∧ addrtable (m pc) ∉ unprinted := by
  obtain ⟨hmnemonic, hname⟩ := names_noSpace (m pc)
  generalize hparam : readParam codeBuf 0 (addrLengths (addrtable (m pc))) = param at hstr
  have hhead := operandText_head (addrtable (m pc)) param
  constructor
  · rintro ⟨text, operand, hholds, -, htext, hoperand, hbytes⟩
    have hsame := hstr.unique hholds
    rw [htext, instructionText, List.append_assoc, List.append_assoc] at hsame
    obtain ⟨heq, hrest⟩ := word_unique hmnemonic hname hhead hoperand (List.append_cancel_left hsame)
    refine ⟨(mnemonics_operationName (m pc)).mp heq, ?_⟩
    intro hmode
    obtain ⟨hnone, hlength⟩ := unprinted_table _ hmode
    rw [operandText, hnone] at hrest
    have hbyte := hbytes 1 Nat.one_pos (by omega)
    rw [← hrest] at hbyte
    have hle := hbyte.length_le
    rw [(hex_byte _).1] at hle
    exact absurd hle (Nat.not_succ_le_zero 1)
  · rintro ⟨hnamed, hprinted⟩
    refine ⟨_, operandText (addrtable (m pc)) param, hstr, ?_, ?_, hhead, ?_⟩
    · have haddr := (addrText_text pc).1
      have hmnemonic := (mnemonics_text (m pc)).1
      have hoperand := operandText_length (addrtable (m pc)) param
      have hmax : maxDisassemblyStringLen = 32 := rfl
      simp only [instructionText, Option.map_some, Option.getD_some, List.length_append]
      omega
    · rw [instructionText, (mnemonics_operationName (m pc)).mpr hnamed]
      rfl
    · intro i hpos hlt
      rw [InstructionFits, codeBuf_opcode hlen hbuf] at hfits
      rw [← hparam, ← hbuf i (by omega)]
      exact operandText_bytes hprinted codeBuf hpos hlt

end

/-- `InstructionFits` in the bytes that are peeked. -/
theorem pcBytes_fits (m : Mem) (pc : BitVec 16) :
    InstructionFits (BitVec.ofNat 16 (pcBytes m pc).length) ((pcBytes m pc).getD · 0) 0 ↔
      pc.toNat + addrLengths (addrtable (m pc)) ≤ 0x10000 :=
  instructionFits_iff (length_pcBytes m pc) (getD_pcBytes m pc)

section
variable (hR : R.Peeks) {emu : Emu ω} (h : emu.bus.OnRam R) {m : Mem} (hm : R.mem emu.bus.devs = m)
  {pc : BitVec 16} (hpc : emu.cpu.regs.pc = pc)
include hR h hm hpc

theorem prompt_of_fits (hfits : pc.toNat + addrLengths (addrtable (m pc)) ≤ 0x10000)
    (str : DisassembleString) : DescribesPc m pc (disassemblePcString emu str).2.opcodeStr ↔
      m pc ∉ misnamed ∧ addrtable (m pc) ∉ unprinted := by
  subst hm
  have hlen := length_pcBytes (R.mem emu.bus.devs) pc
  have hbuf := getD_pcBytes (R.mem emu.bus.devs) pc
  have hfits := (pcBytes_fits _ _).mpr hfits
  have hstart : InstructionFits _ _ (0 : BitVec 16).toNat := hfits
  obtain ⟨text, hprinted, hholds, -⟩ := disassembleOpcode_fits stringData hstart (some pc) str
    (codeBuf_opcode hlen hbuf) rfl
  rw [disassemblePcString_onRam hR h hpc, hprinted]
  exact describesPc_iff hlen hbuf hfits hholds

/-- Where the end of the address space cuts the instruction off, nothing is written. -/
theorem prompt_of_cut (hcut : ¬pc.toNat + addrLengths (addrtable (m pc)) ≤ 0x10000)
    (str : DisassembleString) : (disassemblePcString emu str).2 = str := by
  subst hm
  rw [← pcBytes_fits] at hcut
  rw [disassemblePcString_onRam hR h hpc, disassembleOpcode_cut hcut]

end

/-- On a RAM, whatever the string held before: the prompt describes the next instruction, exactly if
its opcode is not `$1A`, `$3A` or `$DB`, its mode not (a,x) or that of BBR and BBS, and its last byte
not beyond the end of the address space. -/
theorem prompt_describes_iff (hR : R.Peeks) {emu : Emu ω} (h : emu.bus.OnRam R) {m : Mem}
    (hm : R.mem emu.bus.devs = m) {pc : BitVec 16} (hpc : emu.cpu.regs.pc = pc) :
    (∀ str, DescribesPc m pc (disassemblePcString emu str).2.opcodeStr) ↔
      m pc ∉ misnamed ∧ addrtable (m pc) ∉ unprinted ∧
        pc.toNat + addrLengths (addrtable (m pc)) ≤ 0x10000 := by
  by_cases hfits : pc.toNat + addrLengths (addrtable (m pc)) ≤ 0x10000
  · have hstr := prompt_of_fits hR h hm hpc hfits
    constructor
    · intro hall
      obtain ⟨hnamed, hmode⟩ := (hstr ⟨fun _ => 0⟩).mp (hall _)
      exact ⟨hnamed, hmode, hfits⟩
    · rintro ⟨hnamed, hmode, -⟩ str
      exact (hstr str).mpr ⟨hnamed, hmode⟩
  · -- an empty string stays empty
    refine iff_of_false ?_ fun h => hfits h.2.2
    intro hall
    obtain ⟨text, operand, hholds, -, htext, -⟩ := hall ⟨fun _ => 0⟩
    rw [prompt_of_cut hR h hm hpc hfits] at hholds
    have hnil : text = [] := Holds.unique hholds ⟨by simp, fun _ _ => rfl⟩
    rw [hnil] at htext
    have hlength := congrArg List.length htext
    rw [List.length_append, List.length_append, (addrText_text pc).1, List.length_nil] at hlength
    omega

/-- `byte` everywhere. -/
def filledEmu (byte : BitVec 8) (pc : BitVec 16) : Emu Mem :=
  { bus := Bus.init flatRam.conns [] fun _ => byte
    cpu := { regs := { pc } } }

/-- `LDA $ADAD`, which ends with the address space. -/
theorem prompt_describes_lda : DescribesPc (fun _ => 0xAD) 0xFFFD
    (disassemblePcString (filledEmu 0xAD 0xFFFD) ⟨fun _ => 0⟩).2.opcodeStr := by
  have hram : (filledEmu 0xAD 0xFFFD).bus.OnRam flatRam := ⟨rfl, rfl, trivial⟩
  exact (prompt_describes_iff flatRam_peeks hram rfl rfl).mpr (by decide) _

/-- `INC A` is shown as `NOP`. -/
theorem prompt_misnames_inc : ¬∀ (emu : Emu Mem) (str : DisassembleString), emu.bus.OnRam flatRam →
    DescribesPc (flatRam.mem emu.bus.devs) emu.cpu.regs.pc (disassemblePcString emu str).2.opcodeStr := by
  intro hall
  have hram : (filledEmu 0x1A 0x0200).bus.OnRam flatRam := ⟨rfl, rfl, trivial⟩
  have hdescribes := hall (filledEmu 0x1A 0x0200) ⟨fun _ => 0⟩ hram
  rw [prompt_of_fits flatRam_peeks hram rfl rfl (by decide)] at hdescribes
  exact absurd hdescribes.1 (by decide)

end Cb6502
