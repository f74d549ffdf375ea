/- The opcode tables of core/src/cpu.c: for each opcode its addressing mode
   (`addrtable`), its handler (`optable`), and the instruction length of each mode
   (`addr_lengths`). The rows are the source's. -/
namespace Cb6502

/-- `cpu_addr_mode_t`. -/
inductive AddrMode where
  | imp | acc | imm | zp | zpx | zpy | rel | abso | absx | absy | ind | indx | indy | indz | abin
  | zprel
  deriving DecidableEq

/-- The opcode handlers `optable` points to. -/
inductive Op where
  | adc | and | asl | bbr | bbs | bit | bra | brk | bxx | clc | cld | cli | clv | cmp | cpx | cpy
  | dec | dex | dey | eor | inc | inx | iny | jmp | jsr | lda | ldx | ldy | lsr | nop | ora | ph
  | pl | rmb | rol | ror | rti | rts | sbc | sec | sed | sei | smb | sta | stx | sty | stz | tax
  | tay | trb | tsb | tsx | txa | txs | tya | wai
  deriving DecidableEq

def addrtableRows : List (List AddrMode) :=
  [
   [.imp, .indx, .imp, .indx, .zp, .zp, .zp, .zp, .imp, .imm, .acc, .imm, .abso, .abso, .abso, .zprel],
   [.rel, .indy, .indz, .indy, .zp, .zpx, .zpx, .zp, .imp, .absy, .acc, .absy, .abso, .absx, .absx, .zprel],
   [.abso, .indx, .imp, .indx, .zp, .zp, .zp, .zp, .imp, .imm, .acc, .imm, .abso, .abso, .abso, .zprel],
   [.rel, .indy, .indz, .indy, .zpx, .zpx, .zpx, .zp, .imp, .absy, .acc, .absy, .absx, .absx, .absx, .zprel],
   [.imp, .indx, .imp, .indx, .zp, .zp, .zp, .zp, .imp, .imm, .acc, .imm, .abso, .abso, .abso, .zprel],
   [.rel, .indy, .indz, .indy, .zpx, .zpx, .zpx, .zp, .imp, .absy, .imp, .absy, .absx, .absx, .absx, .zprel],
   [.imp, .indx, .imp, .indx, .zp, .zp, .zp, .zp, .imp, .imm, .acc, .imm, .ind, .abso, .abso, .zprel],
   [.rel, .indy, .indz, .indy, .zpx, .zpx, .zpx, .zp, .imp, .absy, .imp, .absy, .abin, .absx, .absx, .zprel],
   [.rel, .indx, .imm, .indx, .zp, .zp, .zp, .zp, .imp, .imm, .imp, .imm, .abso, .abso, .abso, .zprel],
   [.rel, .indy, .indz, .indy, .zpx, .zpx, .zpy, .zp, .imp, .absy, .imp, .absy, .abso, .absx, .absx, .zprel],
   [.imm, .indx, .imm, .indx, .zp, .zp, .zp, .zp, .imp, .imm, .imp, .imm, .abso, .abso, .abso, .zprel],
   [.rel, .indy, .indz, .indy, .zpx, .zpx, .zpy, .zp, .imp, .absy, .imp, .absy, .absx, .absx, .absy, .zprel],
   [.imm, .indx, .imm, .indx, .zp, .zp, .zp, .zp, .imp, .imm, .imp, .imp, .abso, .abso, .abso, .zprel],
   [.rel, .indy, .indz, .indy, .zpx, .zpx, .zpx, .zp, .imp, .absy, .imp, .absy, .absx, .absx, .absx, .zprel],
   [.imm, .indx, .imm, .indx, .zp, .zp, .zp, .zp, .imp, .imm, .imp, .imm, .abso, .abso, .abso, .zprel],
   [.rel, .indy, .indz, .indy, .zpx, .zpx, .zpx, .zp, .imp, .absy, .imp, .absy, .absx, .absx, .absx, .zprel]
  ]

/-- The addressing mode of each opcode. -/
def addrtable (opcode : BitVec 8) : AddrMode :=
  ((addrtableRows.getD (opcode >>> 4).toNat []).getD (opcode &&& 0x0F).toNat .imp)

def optableRows : List (List Op) :=
  [
   [.brk, .ora, .nop, .nop, .tsb, .ora, .asl, .rmb, .ph, .ora, .asl, .nop, .tsb, .ora, .asl, .bbr],
   [.bxx, .ora, .ora, .nop, .trb, .ora, .asl, .rmb, .clc, .ora, .inc, .nop, .trb, .ora, .asl, .bbr],
   [.jsr, .and, .nop, .nop, .bit, .and, .rol, .rmb, .pl, .and, .rol, .nop, .bit, .and, .rol, .bbr],
   [.bxx, .and, .and, .nop, .bit, .and, .rol, .rmb, .sec, .and, .dec, .nop, .bit, .and, .rol, .bbr],
   [.rti, .eor, .nop, .nop, .nop, .eor, .lsr, .rmb, .ph, .eor, .lsr, .nop, .jmp, .eor, .lsr, .bbr],
   [.bxx, .eor, .eor, .nop, .nop, .eor, .lsr, .rmb, .cli, .eor, .ph, .nop, .nop, .eor, .lsr, .bbr],
   [.rts, .adc, .nop, .nop, .stz, .adc, .ror, .rmb, .pl, .adc, .ror, .nop, .jmp, .adc, .ror, .bbr],
   [.bxx, .adc, .adc, .nop, .stz, .adc, .ror, .rmb, .sei, .adc, .pl, .nop, .jmp, .adc, .ror, .bbr],
   [.bra, .sta, .nop, .nop, .sty, .sta, .stx, .smb, .dey, .bit, .txa, .nop, .sty, .sta, .stx, .bbs],
   [.bxx, .sta, .sta, .nop, .sty, .sta, .stx, .smb, .tya, .sta, .txs, .nop, .stz, .sta, .stz, .bbs],
   [.ldy, .lda, .ldx, .nop, .ldy, .lda, .ldx, .smb, .tay, .lda, .tax, .nop, .ldy, .lda, .ldx, .bbs],
   [.bxx, .lda, .lda, .nop, .ldy, .lda, .ldx, .smb, .clv, .lda, .tsx, .nop, .ldy, .lda, .ldx, .bbs],
   [.cpy, .cmp, .nop, .nop, .cpy, .cmp, .dec, .smb, .iny, .cmp, .dex, .wai, .cpy, .cmp, .dec, .bbs],
   [.bxx, .cmp, .cmp, .nop, .nop, .cmp, .dec, .smb, .cld, .cmp, .ph, .nop, .nop, .cmp, .dec, .bbs],
   [.cpx, .sbc, .nop, .nop, .cpx, .sbc, .inc, .smb, .inx, .sbc, .nop, .nop, .cpx, .sbc, .inc, .bbs],
   [.bxx, .sbc, .sbc, .nop, .nop, .sbc, .inc, .smb, .sed, .sbc, .pl, .nop, .nop, .sbc, .inc, .bbs]
  ]

/-- The handler of each opcode. -/
def optable (opcode : BitVec 8) : Op :=
  ((optableRows.getD (opcode >>> 4).toNat []).getD (opcode &&& 0x0F).toNat .nop)

/-- The length in bytes of an instruction of each mode. -/
def addrLengths : AddrMode → Nat
  | .imp | .acc => 1
  | .imm | .zp | .zpx | .zpy | .rel => 2
  | .abso | .absx | .absy | .ind => 3
  | .indx | .indy | .indz => 2
  | .abin | .zprel => 3

end Cb6502
