import Cb6502.CpuTick
import Cb6502.Lib.Printf
import Mathlib.Logic.Function.Basic

/- The disassembler (core/src/disassemble.c).

   The union `disassemble_data_u_t`, with the flag `verbose` that tells which of its members is
   meant, is `DisassembleData`. A string is the memory from `opcode_str` on, of which the first
   `MAX_DISASSEMBLY_STRING_LEN` bytes are its own. `snprintf` of the formats here does not fail.

   `disassemble_buffer_strings` and `disassemble_buffer_info` are to decode the instructions of a
   buffer one after another (`DecodesBuffer`). Their loop ends where `opindex` is 0, and not
   where the length is: it ends in its first pass, and decodes nothing
   (`disassemble_buffers_iff`). -/
namespace Cb6502
open Printf

/-- `MAX_DISASSEMBLY_STRING_LEN` -/
def maxDisassemblyStringLen : Nat := 32

def mnemonicsRows : List (List String) :=
  [
   ["BRK", "ORA", "NOP", "NOP", "TSB", "ORA", "ASL", "RMB0", "PHP", "ORA", "ASL", "NOP", "TSB", "ORA", "ASL", "BBR0"],
   ["BPL", "ORA", "ORA", "NOP", "TRB", "ORA", "ASL", "RMB1", "CLC", "ORA", "NOP", "NOP", "TRB", "ORA", "ASL", "BBR1"],
   ["JSR", "AND", "NOP", "NOP", "BIT", "AND", "ROL", "RMB2", "PLP", "AND", "ROL", "NOP", "BIT", "AND", "ROL", "BBR2"],
   ["BMI", "AND", "AND", "NOP", "BIT", "AND", "ROL", "RMB3", "SEC", "AND", "NOP", "NOP", "BIT", "AND", "ROL", "BBR3"],
   ["RTI", "EOR", "NOP", "NOP", "NOP", "EOR", "LSR", "RMB4", "PHA", "EOR", "LSR", "NOP", "JMP", "EOR", "LSR", "BBR4"],
   ["BVC", "EOR", "EOR", "NOP", "NOP", "EOR", "LSR", "RMB5", "CLI", "EOR", "PHY", "NOP", "NOP", "EOR", "LSR", "BBR5"],
   ["RTS", "ADC", "NOP", "NOP", "STZ", "ADC", "ROR", "RMB6", "PLA", "ADC", "ROR", "NOP", "JMP", "ADC", "ROR", "BBR6"],
   ["BVS", "ADC", "ADC", "NOP", "STZ", "ADC", "ROR", "RMB7", "SEI", "ADC", "PLY", "NOP", "JMP", "ADC", "ROR", "BBR7"],
   ["BRA", "STA", "NOP", "NOP", "STY", "STA", "STX", "SMB0", "DEY", "BIT", "TXA", "NOP", "STY", "STA", "STX", "BBS0"],
   ["BCC", "STA", "STA", "NOP", "STY", "STA", "STX", "SMB1", "TYA", "STA", "TXS", "NOP", "STZ", "STA", "STZ", "BBS1"],
   ["LDY", "LDA", "LDX", "NOP", "LDY", "LDA", "LDX", "SMB2", "TAY", "LDA", "TAX", "NOP", "LDY", "LDA", "LDX", "BBS2"],
   ["BCS", "LDA", "LDA", "NOP", "LDY", "LDA", "LDX", "SMB3", "CLV", "LDA", "TSX", "NOP", "LDY", "LDA", "LDX", "BBS3"],
   ["CPY", "CMP", "NOP", "NOP", "CPY", "CMP", "DEC", "SMB4", "INY", "CMP", "DEX", "WAI", "CPY", "CMP", "DEC", "BBS4"],
   ["BNE", "CMP", "CMP", "NOP", "NOP", "CMP", "DEC", "SMB5", "CLD", "CMP", "PHX", "STP", "NOP", "CMP", "DEC", "BBS5"],
   ["CPX", "SBC", "NOP", "NOP", "CPX", "SBC", "INC", "SMB6", "INX", "SBC", "NOP", "NOP", "CPX", "SBC", "INC", "BBS6"],
   ["BEQ", "SBC", "SBC", "NOP", "NOP", "SBC", "INC", "SMB7", "SED", "SBC", "PLX", "NOP", "NOP", "SBC", "INC", "BBS7"]
  ]

def mnemonics (opcode : BitVec 8) : String :=
  ((mnemonicsRows.getD (opcode >>> 4).toNat []).getD (opcode &&& 0x0F).toNat "")

/-- `disassemble_string_t` -/
structure DisassembleString where
  opcodeStr : Nat → BitVec 8

/-- `disassemble_info_t` -/
structure DisassembleInfo where
  opcode : BitVec 8
  params : BitVec 16
  opcodeStr : Nat → BitVec 8

/-- A member of `disassemble_data_u_t`: where the string is, and what is stored. -/
structure DisassembleData (E : Type) where
  opcodeStr : E → Nat → BitVec 8
  store : BitVec 8 → BitVec 16 → (Nat → BitVec 8) → E

/-- Not `verbose`. -/
def stringData : DisassembleData DisassembleString where
  opcodeStr := DisassembleString.opcodeStr
  store _ _ str := ⟨str⟩

/-- `verbose` -/
def infoData : DisassembleData DisassembleInfo where
  opcodeStr := DisassembleInfo.opcodeStr
  store opcode params str := ⟨opcode, params, str⟩

/-- The format of an operand: `%04x` of the operand when `word`, else `%02x` of its low byte. -/
structure OperandFormat where
  before : String
  word : Bool
  after : String

def operandFormat : AddrMode → Option OperandFormat
  | .imm => some ⟨" #$", false, ""⟩
  | .zp => some ⟨" $00", false, ""⟩
  | .zpx => some ⟨" $00", false, ",X"⟩
  | .zpy => some ⟨" $00", false, ",Y"⟩
  | .rel => some ⟨" $", false, ""⟩
  | .abso => some ⟨" $", true, ""⟩
  | .absx => some ⟨" $", true, ",X"⟩
  | .absy => some ⟨" $", true, ",Y"⟩
  | .ind => some ⟨" ($", true, ")"⟩
  | .indx => some ⟨" ($00", false, ",X)"⟩
  | .indy => some ⟨" ($00", false, ",Y)"⟩
  | .indz => some ⟨" ($00", false, ")"⟩
  | _ => none

def OperandFormat.text (format : OperandFormat) (param : BitVec 16) : Text :=
  ascii format.before ++ (if format.word then hex 4 param.toNat else hex 2 (u8 param).toNat) ++
    ascii format.after

/-- `param`, for an instruction of `length` bytes. -/
def readParam (codeBuf : Nat → BitVec 8) (codeOffset length : Nat) : BitVec 16 :=
  let param : BitVec 16 := if 1 < length then u16 (codeBuf (codeOffset + 1)) else 0
  if 2 < length then param ||| (u16 (codeBuf (codeOffset + 2)) <<< 8) else param

/-- The format `"0x%04x: "`. -/
def addrText (addr : BitVec 16) : Text := ascii "0x" ++ hex 4 addr.toNat ++ ascii ": "

section
variable {E : Type} (data : DisassembleData E)

/-- `disassemble_opcode`; `addr` is `none` where `addr_valid` is false. -/
def disassembleOpcode (codeLen : BitVec 16) (codeBuf : Nat → BitVec 8) (codeOffset : BitVec 16)
    (addr : Option (BitVec 16)) (entry : E) : BitVec 16 × E :=
  if codeLen ≤ codeOffset then (0, entry)
  else
    let opcode := codeBuf codeOffset.toNat
    let addrMode := addrtable opcode
    let length := addrLengths addrMode
    if codeLen.toNat - codeOffset.toNat < length then (0, entry)
    else
      let param := readParam codeBuf codeOffset.toNat length
      let disStr : Cursor := ⟨data.opcodeStr entry, 0, BitVec.ofNat 64 maxDisassemblyStringLen⟩
      let disStr := match addr with
        | some addr => disStr.print (addrText addr)
        | none => disStr
      let disStr := disStr.print (ascii (mnemonics opcode))
      let disStr := match operandFormat addrMode with
        | some format => disStr.print (format.text param)
        | none => disStr
      (BitVec.ofNat 16 length, data.store opcode param disStr.mem)

/-- The loop of the buffer functions, with `n` entries left. -/
def disassembleLoop (codeLen : BitVec 16) (codeBuf : Nat → BitVec 8) :
    Nat → Nat → BitVec 16 → (Nat → E) → Nat × BitVec 16 × (Nat → E)
  | 0, opindex, offset, entries => (opindex, offset, entries)
  | n + 1, opindex, offset, entries =>
    let (oplength, entry) := disassembleOpcode data codeLen codeBuf offset none (entries opindex)
    let entries := Function.update entries opindex entry
    if opindex = 0 then (opindex, offset, entries)
    else disassembleLoop codeLen codeBuf n (opindex + 1) (offset + oplength) entries

/-- What a buffer function leaves: what it returns, `*offset`, `*num_opcodes` and the entries. -/
structure BufferResult (E : Type) where
  count : BitVec 32
  offset : Option (BitVec 16)
  numOpcodes : Option (BitVec 32)
  entries : Option (Nat → E)

/-- The buffer functions; a null pointer is `none`. -/
def disassembleBuffer (codeLen : BitVec 16) (codeBuf : Option (Nat → BitVec 8))
    (offset : Option (BitVec 16)) (numOpcodes : Option (BitVec 32)) (entries : Option (Nat → E)) :
    BufferResult E :=
  match codeBuf, offset, numOpcodes, entries with
  | some codeBuf, some off, some num, some es =>
    if codeLen = 0 ∨ num = 0 then ⟨0, offset, numOpcodes, entries⟩
    else
      let (opindex, off, es) := disassembleLoop data codeLen codeBuf num.toNat 0 off es
      ⟨BitVec.ofNat 32 opindex, some off, some (BitVec.ofNat 32 opindex), some es⟩
  | _, _, _, _ => ⟨0, offset, numOpcodes, entries⟩

end

/-- `disassemble_buffer_strings` -/
def disassembleBufferStrings := disassembleBuffer stringData

/-- `disassemble_buffer_info` -/
def disassembleBufferInfo := disassembleBuffer infoData

/-- `disassemble_pc_string`; the bytes of `buf` past the end of the address space are not read. -/
def disassemblePcString {ω : Type} (emu : Emu ω) (str : DisassembleString) : Emu ω × DisassembleString :=
  let pc := emu.cpu.regs.pc
  let (byte, bus) := busPeek emu.bus pc
  let buf := [byte]
  let (buf, bus) :=
    if pc < 0xFFFF then
      let (byte, bus) := busPeek bus (pc + 1)
      (buf ++ [byte], bus)
    else (buf, bus)
  let (buf, bus) :=
    if pc < 0xFFFE then
      let (byte, bus) := busPeek bus (pc + 2)
      (buf ++ [byte], bus)
    else (buf, bus)
  let codeLen := BitVec.ofNat 16 buf.length
  ({ emu with bus }, (disassembleOpcode stringData codeLen (buf.getD · 0) 0 (some pc) str).2)

/-! ## One instruction -/

/-- The instruction at the offset `off` is in the buffer. -/
def InstructionFits (codeLen : BitVec 16) (codeBuf : Nat → BitVec 8) (off : Nat) : Prop :=
  off + addrLengths (addrtable (codeBuf off)) ≤ codeLen.toNat

/-- The text of the operand. -/
def operandText (addrMode : AddrMode) (param : BitVec 16) : Text :=
  ((operandFormat addrMode).map (·.text param)).getD []

/-- The text of an instruction. -/
def instructionText (addr : Option (BitVec 16)) (opcode : BitVec 8) (param : BitVec 16) : Text :=
  (addr.map addrText).getD [] ++ ascii (mnemonics opcode) ++ operandText (addrtable opcode) param

theorem hex_byte (b : BitVec 8) : (hex 2 b.toNat).length = 2 ∧ 0 ∉ hex 2 b.toNat := by
  revert b
  decide +kernel

/-- A word is its two bytes. -/
theorem hex_word (w : BitVec 16) : hex 4 w.toNat = hex 2 (u8 (w >>> 8)).toNat ++ hex 2 (u8 w).toNat := by
  have hw := w.isLt
  have hhigh : (u8 (w >>> 8)).toNat = w.toNat / 256 := by
    rw [BitVec.toNat_setWidth, BitVec.toNat_ushiftRight, Nat.shiftRight_eq_div_pow]
    omega
  have hlow : (u8 w).toNat = w.toNat % 256 := BitVec.toNat_setWidth ..
  rw [hhigh, hlow, ← hex_append (by decide) _ (Nat.mod_lt _ (by decide)), Nat.div_add_mod]

theorem hex_word_text (w : BitVec 16) : (hex 4 w.toNat).length = 4 ∧ 0 ∉ hex 4 w.toNat := by
  obtain ⟨hlength, hhigh⟩ := hex_byte (u8 (w >>> 8))
  obtain ⟨hlength', hlow⟩ := hex_byte (u8 w)
  rw [hex_word, List.length_append, List.mem_append, not_or]
  exact ⟨by omega, hhigh, hlow⟩

theorem mnemonics_text (opcode : BitVec 8) :
    (ascii (mnemonics opcode)).length ≤ 4 ∧ 0 ∉ ascii (mnemonics opcode) := by
  revert opcode
  decide +kernel

theorem addrText_text (addr : BitVec 16) : (addrText addr).length = 8 ∧ 0 ∉ addrText addr := by
  obtain ⟨hlength, hdigits⟩ := hex_word_text addr
  have hbefore : (ascii "0x").length = 2 ∧ 0 ∉ ascii "0x" := by decide
  have hafter : (ascii ": ").length = 2 ∧ 0 ∉ ascii ": " := by decide
  simp only [addrText, List.length_append, List.mem_append, not_or]
  exact ⟨by omega, ⟨hbefore.2, hdigits⟩, hafter.2⟩

theorem format_text {addrMode : AddrMode} {format : OperandFormat}
    (h : operandFormat addrMode = some format) (param : BitVec 16) :
    (format.text param).length ≤ 12 ∧ 0 ∉ format.text param := by
  have htable : ∀ addrMode, ∀ format ∈ operandFormat addrMode,
      ((ascii format.before).length ≤ 5 ∧ 0 ∉ ascii format.before) ∧
        (ascii format.after).length ≤ 3 ∧ 0 ∉ ascii format.after := by
    intro addrMode
    cases addrMode <;> decide
  obtain ⟨⟨hbefore, hbefore0⟩, hafter, hafter0⟩ := htable addrMode format h
  have hdigits : ∀ digits : Text, digits.length ≤ 4 → 0 ∉ digits →
      (ascii format.before ++ digits ++ ascii format.after).length ≤ 12 ∧
        0 ∉ ascii format.before ++ digits ++ ascii format.after := by
    intro digits hle h0
    simp only [List.length_append, List.mem_append, not_or]
    exact ⟨by omega, ⟨hbefore0, h0⟩, hafter0⟩
  unfold OperandFormat.text
  apply hdigits
  · split
    · exact Nat.le_of_eq (hex_word_text param).1
    · rw [(hex_byte (u8 param)).1]
      decide
  · split
    · exact (hex_word_text param).2
    · exact (hex_byte (u8 param)).2

section
variable {E : Type} {data : DisassembleData E} {codeLen : BitVec 16} {codeBuf : Nat → BitVec 8}
  {off : BitVec 16}

/-- Past the end of the buffer nothing is written. -/
theorem disassembleOpcode_cut (h : ¬InstructionFits codeLen codeBuf off.toNat) (addr : Option (BitVec 16)) (entry : E) :
    disassembleOpcode data codeLen codeBuf off addr entry = (0, entry) := by
  unfold InstructionFits at h
  unfold disassembleOpcode
  by_cases hend : codeLen ≤ off
  · rw [if_pos hend]
  · have hlt : off.toNat < codeLen.toNat := BitVec.not_le.mp hend
    rw [if_neg hend, if_pos (by omega)]

/-- The strings printed for an instruction, and for its address where there is one. -/
theorem print_instruction (old : Nat → BitVec 8) (addr : Option (BitVec 16)) (opcode : BitVec 8)
    (param : BitVec 16) :
    let disStr : Cursor := ⟨old, 0, BitVec.ofNat 64 maxDisassemblyStringLen⟩
    let disStr := match addr with
      | some addr => disStr.print (addrText addr)
      | none => disStr
    let disStr := disStr.print (ascii (mnemonics opcode))
    let disStr := match operandFormat (addrtable opcode) with
      | some format => disStr.print (format.text param)
      | none => disStr
    Holds disStr.mem (instructionText addr opcode param) ∧
      ∀ k, maxDisassemblyStringLen ≤ k → disStr.mem k = old k := by
  intro start afterAddr afterMnemonic done
  obtain ⟨hmnemonic, hmnemonic0⟩ := mnemonics_text opcode
  have hmax : maxDisassemblyStringLen = 32 := rfl
  have hstart : Printed maxDisassemblyStringLen old start [] := printed_nil (by decide) (by decide) old
  have haddr : Printed maxDisassemblyStringLen old afterAddr ((addr.map addrText).getD []) ∧
      ((addr.map addrText).getD []).length ≤ 8 := by
    cases addr with
    | none => exact ⟨hstart, Nat.zero_le _⟩
    | some addr =>
      obtain ⟨hlength, h0⟩ := addrText_text addr
      refine ⟨hstart.print h0 ?_, Nat.le_of_eq hlength⟩
      rw [hlength]
      decide
  obtain ⟨haddr, hlength⟩ := haddr
  have hfits : ((addr.map addrText).getD []).length + (ascii (mnemonics opcode)).length <
      maxDisassemblyStringLen := by omega
  have hprinted := haddr.print hmnemonic0 hfits
  simp only [instructionText, operandText, done]
  cases hformat : operandFormat (addrtable opcode) with
  | none =>
    simp only [Option.map_none, Option.getD_none, List.append_nil]
    exact ⟨haddr.print_holds hmnemonic0 hfits, hprinted.outside⟩
  | some format =>
    obtain ⟨hoperand, hoperand0⟩ := format_text hformat param
    have hfits' : ((addr.map addrText).getD [] ++ ascii (mnemonics opcode)).length +
        (format.text param).length < maxDisassemblyStringLen := by
      rw [List.length_append]
      omega
    exact ⟨hprinted.print_holds hoperand0 hfits', (hprinted.print hoperand0 hfits').outside⟩

variable (data) in
/-- The instruction is printed to the string of the entry, and to nothing behind it. -/
theorem disassembleOpcode_fits (h : InstructionFits codeLen codeBuf off.toNat)
    (addr : Option (BitVec 16)) (entry : E) {opcode : BitVec 8} (hopcode : codeBuf off.toNat = opcode)
    {param : BitVec 16} (hparam : readParam codeBuf off.toNat (addrLengths (addrtable opcode)) = param) :
    ∃ str, disassembleOpcode data codeLen codeBuf off addr entry =
        (BitVec.ofNat 16 (addrLengths (addrtable opcode)), data.store opcode param str) ∧
      Holds str (instructionText addr opcode param) ∧
      ∀ k, maxDisassemblyStringLen ≤ k → str k = data.opcodeStr entry k := by
  subst hopcode hparam
  unfold InstructionFits at h
  have hpos : ∀ mode, 0 < addrLengths mode := by
    intro mode
    cases mode <;> decide
  have hlength := hpos (addrtable (codeBuf off.toNat))
  have hend : ¬codeLen ≤ off := by
    rw [BitVec.not_le, BitVec.lt_def]
    omega
  refine ⟨_, ?_, print_instruction (data.opcodeStr entry) addr (codeBuf off.toNat)
    (readParam codeBuf off.toNat (addrLengths (addrtable (codeBuf off.toNat))))⟩
  unfold disassembleOpcode
  rw [if_neg hend, if_neg (by omega)]

end

/-! ## Buffers -/

/-- From the offset `off` on, the instructions at `offs` follow one another and the last one ends at
`off'`: they are `n`, or the next one does not fit. -/
inductive Decoded (codeLen : BitVec 16) (codeBuf : Nat → BitVec 8) : Nat → Nat → List Nat → Nat → Prop where
  | full {off : Nat} : Decoded codeLen codeBuf 0 off [] off
  | cut {n off : Nat} (h : ¬InstructionFits codeLen codeBuf off) : Decoded codeLen codeBuf n off [] off
  | next {n off off' : Nat} {offs : List Nat} (h : InstructionFits codeLen codeBuf off)
      (rest : Decoded codeLen codeBuf n (off + addrLengths (addrtable (codeBuf off))) offs off') :
      Decoded codeLen codeBuf (n + 1) off (off :: offs) off'

section
variable {E : Type} (data : DisassembleData E) (codeLen : BitVec 16) (codeBuf : Nat → BitVec 8)

/-- The entry has the instruction at the offset `off`. -/
def Shows (off : Nat) (entry : E) : Prop :=
  let opcode := codeBuf off
  let param := readParam codeBuf off (addrLengths (addrtable opcode))
  ∃ str, entry = data.store opcode param str ∧ Holds str (instructionText none opcode param)

/-- The instructions from `off` on have been decoded, at most `num` of them, and are in the entries. -/
def DecodesBuffer (off : BitVec 16) (num : BitVec 32) (r : BufferResult E) : Prop :=
  ∃ offs off', Decoded codeLen codeBuf num.toNat off.toNat offs off' ∧ off' ≤ codeLen.toNat ∧
    r.count.toNat = offs.length ∧ r.numOpcodes = some r.count ∧ r.offset.map (·.toNat) = some off' ∧
    ∃ entries, r.entries = some entries ∧
      ∀ i (h : i < offs.length), Shows data codeBuf offs[i] (entries i)

variable {data codeLen codeBuf}

theorem disassembleLoop_first (n : Nat) (off : BitVec 16) (entries : Nat → E) :
    disassembleLoop data codeLen codeBuf (n + 1) 0 off entries =
      (0, off, Function.update entries 0 (disassembleOpcode data codeLen codeBuf off none (entries 0)).2) :=
  rfl

theorem decodesBuffer_iff {off : BitVec 16} (hoff : off < codeLen) {num : BitVec 32} (hnum : num ≠ 0)
    (entries : Nat → E) :
    DecodesBuffer data codeLen codeBuf off num
        (disassembleBuffer data codeLen (some codeBuf) (some off) (some num) (some entries)) ↔
      ¬InstructionFits codeLen codeBuf off.toNat := by
  have hlt : off.toNat < codeLen.toNat := hoff
  have hlen : codeLen ≠ 0 := by
    rintro rfl
    exact absurd hlt (Nat.not_lt_zero _)
  obtain ⟨n, hn⟩ := Nat.exists_eq_succ_of_ne_zero (fun h : num.toNat = 0 => hnum (BitVec.eq_of_toNat_eq h))
  have hresult : disassembleBuffer data codeLen (some codeBuf) (some off) (some num) (some entries) =
      ⟨0, some off, some 0, some (Function.update entries 0
        (disassembleOpcode data codeLen codeBuf off none (entries 0)).2)⟩ := by
    simp only [disassembleBuffer, hlen, hnum, or_self, if_false]
    rw [hn, disassembleLoop_first]
    rfl
  rw [hresult]
  constructor
  · rintro ⟨offs, off', hdecoded, -, hcount, -⟩ hfits
    rw [hn] at hdecoded
    cases hdecoded with
    | cut h => exact h hfits
    | next h rest => exact absurd hcount.symm (Nat.succ_ne_zero _)
  · intro hcut
    exact ⟨[], off.toNat, .cut hcut, Nat.le_of_lt hlt, rfl, rfl, rfl, _, rfl, fun i h => absurd h (Nat.not_lt_zero i)⟩

end

/-- For every buffer, offset in it and number of entries: the instructions are decoded, by either
function, exactly if there is none that fits. -/
theorem disassemble_buffers_iff {codeLen : BitVec 16} {codeBuf : Nat → BitVec 8} {off : BitVec 16}
    (hoff : off < codeLen) {num : BitVec 32} (hnum : num ≠ 0) (strings : Nat → DisassembleString)
    (info : Nat → DisassembleInfo) :
    (DecodesBuffer stringData codeLen codeBuf off num
        (disassembleBufferStrings codeLen (some codeBuf) (some off) (some num) (some strings)) ↔
      ¬InstructionFits codeLen codeBuf off.toNat) ∧
    (DecodesBuffer infoData codeLen codeBuf off num
        (disassembleBufferInfo codeLen (some codeBuf) (some off) (some num) (some info)) ↔
      ¬InstructionFits codeLen codeBuf off.toNat) :=
  ⟨decodesBuffer_iff hoff hnum strings, decodesBuffer_iff hoff hnum info⟩

/-- `LDA $hhll` of which the buffer has one byte. -/
theorem disassemble_buffers_of_cut :
    DecodesBuffer stringData 1 (fun _ => 0xAD) 0 4
        (disassembleBufferStrings 1 (some fun _ => 0xAD) (some 0) (some 4) (some fun _ => ⟨fun _ => 0⟩)) ∧
      DecodesBuffer infoData 1 (fun _ => 0xAD) 0 4
        (disassembleBufferInfo 1 (some fun _ => 0xAD) (some 0) (some 4) (some fun _ => ⟨0, 0, fun _ => 0⟩)) := by
  have hcut : ¬InstructionFits 1 (fun _ => 0xAD) 0 := by
    unfold InstructionFits
    decide
  refine ⟨?_, ?_⟩
  · exact (disassemble_buffers_iff (by decide) (by decide) _ fun _ => ⟨0, 0, fun _ => 0⟩).1.mpr hcut
  · exact (disassemble_buffers_iff (by decide) (by decide) (fun _ => ⟨fun _ => 0⟩) _).2.mpr hcut

/-- One `NOP`. -/
theorem disassemble_buffer_stops : ¬∀ (codeLen : BitVec 16) (codeBuf : Nat → BitVec 8) (off : BitVec 16)
    (num : BitVec 32) (strings : Nat → DisassembleString), off < codeLen → num ≠ 0 →
      DecodesBuffer stringData codeLen codeBuf off num
        (disassembleBufferStrings codeLen (some codeBuf) (some off) (some num) (some strings)) := by
  intro hall
  obtain ⟨offs, off', hdecoded, -, hcount, -⟩ :=
    hall 1 (fun _ => 0xEA) 0 1 (fun _ => ⟨fun _ => 0⟩) (by decide) (by decide)
  have hnone : offs.length = 0 := hcount.symm
  have hfits : InstructionFits 1 (fun _ => 0xEA) 0 := by
    unfold InstructionFits
    decide
  cases hdecoded with
  | cut h => exact h hfits
  | next h rest => exact absurd hnone (Nat.succ_ne_zero _)

end Cb6502
