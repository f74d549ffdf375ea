import Cb6502.Frame
import Cb6502.Interrupt

/- The operands of an instruction. `effectiveAddress` is the address the 65C02 computes
   from the registers and the bytes at the program counter; the address modes spread the
   computation, and the increments of the program counter, over up to five cycles with
   different branches on a page crossing. `Operand` is what holds at every handler call
   of that phase, `Executing` what holds from there to the end of the instruction; the
   handler calls keep their union, and so do the cycles of an `InstructionRun`. -/
namespace Cb6502
open Dialogue

variable {ω : Type} {R : Ram ω}

/-! ## The effective address -/

/-- The word at a zero-page address, whose second byte is in the zero page too. -/
def Mem.zpWord (m : Mem) (b : BitVec 8) : BitVec 16 := joinBytes (m (u16 b)) (m (u16 (b + 1)))

/-- The effective address of the instruction at the program counter. -/
def effectiveAddress (m : Mem) (r : CpuRegs) : AddrMode → Option (BitVec 16)
  | .zp => some (u16 (m (r.pc + 1)))
  | .zpx => some (u16 (m (r.pc + 1) + r.x))
  | .zpy => some (u16 (m (r.pc + 1) + r.y))
  | .abso => some (m.word (r.pc + 1))
  | .absx => some (m.word (r.pc + 1) + u16 r.x)
  | .absy => some (m.word (r.pc + 1) + u16 r.y)
  | .ind => some (m.word (m.word (r.pc + 1)))
  | .abin => some (m.word (m.word (r.pc + 1) + u16 r.x))
  | .indx => some (m.zpWord (m (r.pc + 1) + r.x))
  | .indy => some (m.zpWord (m (r.pc + 1)) + u16 r.y)
  | .indz => some (m.zpWord (m (r.pc + 1)))
  | _ => none

/-- Adding in the zero page. -/
theorem zp_add (b c : BitVec 8) : (u16 b + u16 c) &&& 0x00FF = u16 (b + c) := by
  apply BitVec.eq_of_toNat_eq
  rw [BitVec.toNat_and]
  show (u16 b + u16 c).toNat &&& (2 ^ 8 - 1) = _
  rw [Nat.and_two_pow_sub_one_eq_mod, BitVec.toNat_add, BitVec.toNat_setWidth,
    BitVec.toNat_setWidth, BitVec.toNat_setWidth, BitVec.toNat_add]
  omega

theorem zp_succ (b : BitVec 8) : (u16 b + 1) &&& 0x00FF = u16 (b + 1) := zp_add b 1

/-! ## What the cycles of a mode leave -/

section Modes
variable (m : Mem) (r : CpuRegs)

/-- The zero-page modes indexed by `idx`, at the head of each state. -/
def zpIndexedAt : OpState → Cpu → Prop
  | .param0, c => c.regs.pc = r.pc + 1
  | .param1, c => c.regs.pc = r.pc + 1 ∧ c.ea = u16 (m (r.pc + 1))
  | _, _ => False

def absoAt : OpState → Cpu → Prop
  | .param0, c => c.regs.pc = r.pc + 1
  | .param1, c => c.regs.pc = r.pc + 1 + 1 ∧ c.ea = u16 (m (r.pc + 1))
  | _, _ => False

/-- The absolute modes indexed by `idx`. -/
def absIndexedAt (idx : CpuRegs → BitVec 8) : OpState → Cpu → Prop
  | .param0, c => c.regs.pc = r.pc + 1
  | .param1, c => c.regs.pc = r.pc + 1 + 1 ∧ c.ea = u16 (m (r.pc + 1))
  | .param2, c => c.regs.pc = r.pc + 1 + 1 ∧ c.ea = m.word (r.pc + 1) + u16 (idx r)
  | _, _ => False

/-- `(a)` and `(a,x)`: `ptr` is the address of the pointer. -/
def indirectAt (ptr : BitVec 16) : OpState → Cpu → Prop
  | .param0, c => c.regs.pc = r.pc + 1
  | .param1, c => c.regs.pc = r.pc + 1 + 1 ∧ c.tmpval = u16 (m (r.pc + 1))
  | .param2, c => c.regs.pc = r.pc + 1 + 1 ∧ c.tmpval = m.word (r.pc + 1)
  | .param3, c => c.regs.pc = r.pc + 1 + 1 ∧ c.tmpval = ptr
  | .param4, c => c.regs.pc = r.pc + 1 + 1 ∧ c.tmpval = ptr ∧ c.ea = u16 (m ptr)
  | _, _ => False

def indxAt : OpState → Cpu → Prop
  | .param0, c => c.regs.pc = r.pc + 1
  | .param1, c => c.regs.pc = r.pc + 1 ∧ c.tmpval = u16 (m (r.pc + 1))
  | .param2, c => c.regs.pc = r.pc + 1 + 1 ∧ c.tmpval = u16 (m (r.pc + 1) + r.x)
  | .param3, c => c.regs.pc = r.pc + 1 + 1 ∧ c.tmpval = u16 (m (r.pc + 1) + r.x + 1) ∧
      c.ea = u16 (m (u16 (m (r.pc + 1) + r.x)))
  | _, _ => False

/-- `(zp),y` and `(zp)` up to the read of the pointer's high byte. -/
def zpPointerAt : OpState → Cpu → Prop
  | .param0, c => c.regs.pc = r.pc + 1
  | .param1, c => c.regs.pc = r.pc + 1 + 1 ∧ c.tmpval = u16 (m (r.pc + 1))
  | .param2, c => c.regs.pc = r.pc + 1 + 1 ∧ c.tmpval = u16 (m (r.pc + 1) + 1) ∧
      c.ea = u16 (m (u16 (m (r.pc + 1))))
  | _, _ => False

def indyAt : OpState → Cpu → Prop
  | .param3, c => c.regs.pc = r.pc + 1 + 1 ∧ c.ea = m.zpWord (m (r.pc + 1)) + u16 r.y
  | s, c => zpPointerAt m r s c

def zprelAt : OpState → Cpu → Prop
  | .param0, c => c.regs.pc = r.pc + 1
  | .param1, c => c.regs.pc = r.pc + 1 + 1 ∧ c.ea = u16 (m (r.pc + 1))
  | .param2, c | .param3, c =>
    c.regs.pc = r.pc + 1 + 1 ∧ c.value = u16 (m (u16 (m (r.pc + 1))))
  | _, _ => False

/-- What the mode has done at the head of the state `s`. -/
def operandAt (mode : AddrMode) (s : OpState) (c : Cpu) : Prop :=
  match mode with
  | .zpx | .zpy => zpIndexedAt m r s c
  | .abso => absoAt m r s c
  | .absx => absIndexedAt m r CpuRegs.x s c
  | .absy => absIndexedAt m r CpuRegs.y s c
  | .ind => indirectAt m r (m.word (r.pc + 1)) s c
  | .abin => indirectAt m r (m.word (r.pc + 1) + u16 r.x) s c
  | .indx => indxAt m r s c
  | .indy => indyAt m r s c
  | .indz => zpPointerAt m r s c
  | .zprel => zprelAt m r s c
  | _ => s = .param0 ∧ c.regs.pc = r.pc + 1

/-- The bytes the mode itself steps over: `(a)` and `(a,x)` leave the last one. -/
def bytesRead : AddrMode → BitVec 16
  | .imp | .acc => 1
  | .imm | .zp | .zpx | .zpy | .rel | .indx | .indy | .indz | .ind | .abin => 2
  | .abso | .absx | .absy | .zprel => 3

/-- What the mode leaves to the opcode handler. -/
structure OperandReady (mode : AddrMode) (c : Cpu) : Prop where
  pc : c.regs.pc = r.pc + bytesRead mode
  ea : ∀ a, effectiveAddress m r mode = some a → c.ea = a
  value : mode = .zprel → c.value = u16 (m (u16 (m (r.pc + 1))))

/-- The address phase of the instruction at `r.pc`, at a handler call. -/
structure Operand (c : Cpu) (mem : Mem) : Prop where
  mem : mem = m
  opcode : c.opcode = m r.pc
  regs : c.regs = { r with pc := c.regs.pc }
  phase : (c.opState ∈ paramStates ∧
      operandAt m r (addrtable (m r.pc)) c.opState c) ∨
    (c.opState = .op0 ∧ OperandReady m r (addrtable (m r.pc)) c)

/-! ## A handler call of the address phase -/

variable {m r} {c : Cpu} {s : RamState} (hmem : s.mem = m)
include hmem

/-- The handler leads to another state of the mode, or, `ready`, to the opcode handler. -/
def StepsTo (at' : OpState → Cpu → Prop) (ready : Cpu → Prop) (p : BusM Cpu) (s : RamState) : Prop :=
  let c' := (p.run ramEnv s).1
  (c'.opState ∈ paramStates ∧ at' c'.opState c') ∨
    (c'.opState = .op0 ∧ ready c')

attribute [local simp] StepsTo paramStates advanceState ramEnv

theorem zpIndexed_steps (idx : CpuRegs → BitVec 8) (hidx : idx c.regs = idx r)
    (h : zpIndexedAt m r c.opState c) :
    StepsTo (zpIndexedAt m r)
      (fun c' => c'.regs.pc = r.pc + 1 + 1 ∧ c'.ea = u16 (m (r.pc + 1) + idx r)) (zpIndexed idx c) s := by
  unfold zpIndexed
  cases hs : c.opState <;> rw [hs] at h
  case param0 =>
    have hpc : c.regs.pc = r.pc + 1 := h
    simp [zpIndexedAt, hpc, hmem]
  case param1 =>
    obtain ⟨hpc, hea⟩ := h
    simpa [hpc, hea, hidx] using zp_add (m (r.pc + 1)) (idx r)
  all_goals exact h.elim

theorem abso_steps (hjsr : c.opcode ≠ 0x20) (h : absoAt m r c.opState c) :
    StepsTo (absoAt m r)
      (fun c' => c'.regs.pc = r.pc + 1 + 1 + 1 ∧ c'.ea = m.word (r.pc + 1)) (abso c) s := by
  rw [abso, if_neg hjsr]
  cases hs : c.opState <;> rw [hs] at h
  case param0 =>
    have hpc : c.regs.pc = r.pc + 1 := h
    simp [absoAt, hpc, hmem]
  case param1 =>
    obtain ⟨hpc, hea⟩ := h
    by_cases hjmp : c.opcode = 0x4C#8 <;> simp [hjmp, hpc, hea, hmem, Mem.word, joinBytes]
  all_goals exact h.elim

theorem absIndexed_steps (idx : CpuRegs → BitVec 8) (hidx : idx c.regs = idx r)
    (h : absIndexedAt m r idx c.opState c) :
    StepsTo (absIndexedAt m r idx)
      (fun c' => c'.regs.pc = r.pc + 1 + 1 + 1 ∧ c'.ea = m.word (r.pc + 1) + u16 (idx r))
      (absIndexed idx c) s := by
  unfold absIndexed
  cases hs : c.opState <;> rw [hs] at h
  case param0 =>
    have hpc : c.regs.pc = r.pc + 1 := h
    simp [absIndexedAt, hpc, hmem]
  case param1 =>
    obtain ⟨hpc, hea⟩ := h
    have hword : u16 (m (r.pc + 1#16)) ||| (u16 (m (r.pc + 1#16 + 1#16)) <<< 8) = m.word (r.pc + 1#16) :=
      rfl
    by_cases hcross : page (m.word (r.pc + 1#16)) =
        page (m.word (r.pc + 1#16) + (idx r).setWidth 16)
    · simp [hidx, hpc, hea, hmem, hword, ← hcross]
    · simp [absIndexedAt, hidx, hpc, hea, hmem, hword, hcross]
  case param2 =>
    obtain ⟨hpc, hea⟩ := h
    simp [hpc, hea]
  all_goals exact h.elim

theorem ind_steps (h : indirectAt m r (m.word (r.pc + 1)) c.opState c) :
    StepsTo (indirectAt m r (m.word (r.pc + 1)))
      (fun c' => c'.regs.pc = r.pc + 1 + 1 ∧ c'.ea = m.word (m.word (r.pc + 1))) (ind c) s := by
  unfold ind
  cases hs : c.opState <;> rw [hs] at h
  case param0 =>
    have hpc : c.regs.pc = r.pc + 1 := h
    simp [indirectAt, hpc, hmem]
  case param1 =>
    obtain ⟨hpc, htmp⟩ := h
    simp [indirectAt, hpc, htmp, hmem, Mem.word, joinBytes]
  case param2 =>
    obtain ⟨hpc, htmp⟩ := h
    simp [indirectAt, hpc, htmp]
  case param3 =>
    obtain ⟨hpc, htmp⟩ := h
    simp [indirectAt, hpc, htmp, hmem]
  case param4 =>
    obtain ⟨hpc, htmp, hea⟩ := h
    have hword : u16 (m (m.word (r.pc + 1#16))) ||| (u16 (m (m.word (r.pc + 1#16) + 1#16)) <<< 8) =
        m.word (m.word (r.pc + 1#16)) := rfl
    simp [hpc, htmp, hea, hmem, hword]
  all_goals exact h.elim

theorem abin_steps (hx : c.regs.x = r.x)
    (h : indirectAt m r (m.word (r.pc + 1) + u16 r.x) c.opState c) :
    StepsTo (indirectAt m r (m.word (r.pc + 1) + u16 r.x))
      (fun c' => c'.regs.pc = r.pc + 1 + 1 ∧ c'.ea = m.word (m.word (r.pc + 1) + u16 r.x))
      (abin c) s := by
  unfold abin
  cases hs : c.opState <;> rw [hs] at h
  case param0 =>
    have hpc : c.regs.pc = r.pc + 1 := h
    simp [indirectAt, hpc, hmem]
  case param1 =>
    obtain ⟨hpc, htmp⟩ := h
    simp [indirectAt, hpc, htmp, hmem, Mem.word, joinBytes]
  case param2 =>
    obtain ⟨hpc, htmp⟩ := h
    simp [indirectAt, hpc, htmp, hx]
  case param3 =>
    obtain ⟨hpc, htmp⟩ := h
    simp [indirectAt, hpc, htmp, hmem]
  case param4 =>
    obtain ⟨hpc, htmp, hea⟩ := h
    have hword : ∀ p, u16 (m p) ||| (u16 (m (p + 1#16)) <<< 8) = m.word p := fun _ => rfl
    simp [hpc, htmp, hea, hmem, hword]
  all_goals exact h.elim

theorem indx_steps (hx : c.regs.x = r.x) (h : indxAt m r c.opState c) :
    StepsTo (indxAt m r)
      (fun c' => c'.regs.pc = r.pc + 1 + 1 ∧ c'.ea = m.zpWord (m (r.pc + 1) + r.x)) (indx c) s := by
  have hadd : ∀ b d : BitVec 8, b.setWidth 16 + d.setWidth 16 &&& 255#16 = (b + d).setWidth 16 :=
    zp_add
  have hsucc : ∀ b : BitVec 8, b.setWidth 16 + 1#16 &&& 255#16 = (b + 1#8).setWidth 16 := zp_succ
  unfold indx
  cases hs : c.opState <;> rw [hs] at h
  case param0 =>
    have hpc : c.regs.pc = r.pc + 1 := h
    simp [indxAt, hpc, hmem]
  case param1 =>
    obtain ⟨hpc, htmp⟩ := h
    simp [indxAt, hpc, htmp, hx, hadd]
  case param2 =>
    obtain ⟨hpc, htmp⟩ := h
    simp [indxAt, hpc, htmp, hmem, hsucc]
  case param3 =>
    obtain ⟨hpc, htmp, hea⟩ := h
    simp [hpc, htmp, hea, hmem, Mem.zpWord, joinBytes]
  all_goals exact h.elim

theorem indy_steps (hy : c.regs.y = r.y) (h : indyAt m r c.opState c) :
    StepsTo (indyAt m r)
      (fun c' => c'.regs.pc = r.pc + 1 + 1 ∧ c'.ea = m.zpWord (m (r.pc + 1)) + u16 r.y) (indy c) s := by
  have hsucc : ∀ b : BitVec 8, b.setWidth 16 + 1#16 &&& 255#16 = (b + 1#8).setWidth 16 := zp_succ
  unfold indy
  cases hs : c.opState <;> rw [hs] at h
  case param0 =>
    have hpc : c.regs.pc = r.pc + 1 := h
    simp [indyAt, zpPointerAt, hpc, hmem]
  case param1 =>
    obtain ⟨hpc, htmp⟩ := h
    simp [indyAt, zpPointerAt, hpc, htmp, hmem, hsucc]
  case param2 =>
    obtain ⟨hpc, htmp, hea⟩ := h
    have hword : u16 (m (u16 (m (r.pc + 1#16)))) ||| (u16 (m (u16 (m (r.pc + 1#16) + 1#8))) <<< 8) =
        m.zpWord (m (r.pc + 1#16)) := rfl
    by_cases hcross : page (m.zpWord (m (r.pc + 1#16))) =
        page (m.zpWord (m (r.pc + 1#16)) + r.y.setWidth 16)
    · simp [hpc, htmp, hea, hy, hmem, hword, ← hcross]
    · simp [indyAt, hpc, htmp, hea, hy, hmem, hword, hcross]
  case param3 =>
    obtain ⟨hpc, hea⟩ := h
    simp [hpc, hea]
  all_goals exact h.elim

theorem indz_steps (h : zpPointerAt m r c.opState c) :
    StepsTo (zpPointerAt m r)
      (fun c' => c'.regs.pc = r.pc + 1 + 1 ∧ c'.ea = m.zpWord (m (r.pc + 1))) (indz c) s := by
  have hsucc : ∀ b : BitVec 8, b.setWidth 16 + 1#16 &&& 255#16 = (b + 1#8).setWidth 16 := zp_succ
  unfold indz
  cases hs : c.opState <;> rw [hs] at h
  case param0 =>
    have hpc : c.regs.pc = r.pc + 1 := h
    simp [zpPointerAt, hpc, hmem]
  case param1 =>
    obtain ⟨hpc, htmp⟩ := h
    simp [zpPointerAt, hpc, htmp, hmem, hsucc]
  case param2 =>
    obtain ⟨hpc, htmp, hea⟩ := h
    simp [hpc, htmp, hea, hmem, Mem.zpWord, joinBytes]
  all_goals exact h.elim

theorem zprel_steps (h : zprelAt m r c.opState c) :
    StepsTo (zprelAt m r)
      (fun c' => c'.regs.pc = r.pc + 1 + 1 + 1 ∧ c'.value = u16 (m (u16 (m (r.pc + 1))))) (zprel c) s := by
  unfold zprel
  cases hs : c.opState <;> rw [hs] at h
  case param0 =>
    have hpc : c.regs.pc = r.pc + 1 := h
    simp [zprelAt, hpc, hmem]
  case param1 =>
    obtain ⟨hpc, hea⟩ := h
    simp [zprelAt, hpc, hea, hmem]
  case param2 =>
    obtain ⟨hpc, hvalue⟩ := h
    simp [zprelAt, hpc, hvalue]
  case param3 =>
    obtain ⟨hpc, hvalue⟩ := h
    simp [hpc, hvalue]
  all_goals exact h.elim

omit hmem

theorem StepsTo.mono {at' : OpState → Cpu → Prop} {ready ready' : Cpu → Prop} {p : BusM Cpu}
    (h : StepsTo at' ready p s) (himp : ∀ c', ready c' → ready' c') : StepsTo at' ready' p s :=
  h.imp id fun ⟨hs, hr⟩ => ⟨hs, himp _ hr⟩

theorem pc_add_two (pc : BitVec 16) : pc + 1 + 1 = pc + 2 := BitVec.add_assoc pc 1 1

theorem pc_add_three (pc : BitVec 16) : pc + 1 + 1 + 1 = pc + 3 := by
  rw [BitVec.add_assoc, BitVec.add_assoc]
  rfl

/-- A mode with an effective address. -/
theorem operandReady_of_ea (mode : AddrMode) {a pc : BitVec 16}
    (heff : effectiveAddress m r mode = some a) (hmode : mode ≠ .zprel)
    (hpc : pc = r.pc + bytesRead mode) (c' : Cpu) (h : c'.regs.pc = pc ∧ c'.ea = a) :
    OperandReady m r mode c' := by
  refine ⟨h.1.trans hpc, ?_, fun hz => absurd hz hmode⟩
  intro b hb
  rw [heff] at hb
  exact h.2.trans (Option.some.inj hb)

/-- A mode without one. -/
theorem operandReady_of_pc (mode : AddrMode) (heff : effectiveAddress m r mode = none)
    (hmode : mode ≠ .zprel) {c' : Cpu} (hpc : c'.regs.pc = r.pc + bytesRead mode) :
    OperandReady m r mode c' := by
  refine ⟨hpc, ?_, fun hz => absurd hz hmode⟩
  intro b hb
  rw [heff] at hb
  exact absurd hb (Option.some_ne_none b).symm

theorem addrHandlers_steps (hmem : s.mem = m) (hjsr : c.opcode ≠ 0x20)
    (hx : c.regs.x = r.x) (hy : c.regs.y = r.y) (mode : AddrMode)
    (h : operandAt m r mode c.opState c) :
    StepsTo (operandAt m r mode) (OperandReady m r mode) (addrHandlers mode c) s := by
  have h2 := pc_add_two r.pc
  have h3 := pc_add_three r.pc
  cases mode with
  | imp => exact .inr ⟨rfl, operandReady_of_pc .imp rfl (by decide) h.2⟩
  | acc => exact .inr ⟨rfl, operandReady_of_pc .acc rfl (by decide) h.2⟩
  | imm =>
    refine .inr ⟨rfl, operandReady_of_pc .imm rfl (by decide) ?_⟩
    exact (congrArg (· + 1) h.2).trans h2
  | rel =>
    refine .inr ⟨rfl, operandReady_of_pc .rel rfl (by decide) ?_⟩
    exact (congrArg (· + 1) h.2).trans h2
  | zp =>
    refine .inr ⟨rfl, operandReady_of_ea .zp rfl (by decide) h2 _ ⟨congrArg (· + 1) h.2, ?_⟩⟩
    show u16 (s.mem c.regs.pc) = u16 (m (r.pc + 1))
    rw [hmem, h.2]
  | zpx => exact (zpIndexed_steps hmem _ hx h).mono (operandReady_of_ea .zpx rfl (by decide) h2)
  | zpy => exact (zpIndexed_steps hmem _ hy h).mono (operandReady_of_ea .zpy rfl (by decide) h2)
  | abso => exact (abso_steps hmem hjsr h).mono (operandReady_of_ea .abso rfl (by decide) h3)
  | absx => exact (absIndexed_steps hmem _ hx h).mono (operandReady_of_ea .absx rfl (by decide) h3)
  | absy => exact (absIndexed_steps hmem _ hy h).mono (operandReady_of_ea .absy rfl (by decide) h3)
  | ind => exact (ind_steps hmem h).mono (operandReady_of_ea .ind rfl (by decide) h2)
  | abin => exact (abin_steps hmem hx h).mono (operandReady_of_ea .abin rfl (by decide) h2)
  | indx => exact (indx_steps hmem hx h).mono (operandReady_of_ea .indx rfl (by decide) h2)
  | indy => exact (indy_steps hmem hy h).mono (operandReady_of_ea .indy rfl (by decide) h2)
  | indz => exact (indz_steps hmem h).mono (operandReady_of_ea .indz rfl (by decide) h2)
  | zprel =>
    refine (zprel_steps hmem h).mono ?_
    rintro c' ⟨hpc, hvalue⟩
    exact ⟨hpc.trans h3, fun a ha => absurd ha (Option.some_ne_none a).symm, fun _ => hvalue⟩

end Modes

/-- The modes only read. -/
theorem addrHandlers_asks (mode : AddrMode) (c : Cpu) : (addrHandlers mode c).Asks := by
  cases mode
  case imp | acc | imm | zp | rel => simp [addrHandlers, imp, acc, imm, zp, rel]
  case zpx | zpy => simp [addrHandlers, zpx, zpy, zpIndexed]
  case absx | absy => simp [addrHandlers, absx, absy, absIndexed]
  case abso => simp [addrHandlers, abso]
  all_goals
    simp only [addrHandlers, ind, indx, indy, indz, abin, zprel]
    cases c.opState <;> simp

theorem addrHandlers_mem (mode : AddrMode) (c : Cpu) (s : RamState) :
    ((addrHandlers mode c).run ramEnv s).2.mem = s.mem :=
  (addrHandlers_asks mode c).run (I := fun t : RamState => t.mem = s.mem) ramEnv (fun _ _ h => h) s rfl

/-! ## The rest of the instruction -/

section Execution
variable (m : Mem) (r : CpuRegs)

/-- What the branch at `r.pc` tests. -/
def branchCpu : Cpu := { regs := r, opcode := m r.pc, value := u16 (m (u16 (m (r.pc + 1)))) }

/-- The instruction at `r.pc` is a branch that is taken. -/
def takesBranch : Bool :=
  match optable (m r.pc) with
  | .bxx => bxxTaken (branchCpu m r)
  | .bra => true
  | .bbr => !valueAndBit (branchCpu m r)
  | .bbs => valueAndBit (branchCpu m r)
  | _ => false

/-- The instruction at `r.pc` leads to the one behind it. -/
def fallsThrough : Bool :=
  !(optable (m r.pc)).jumps && optable (m r.pc) != .brk && !takesBranch m r

/-- The instruction at `r.pc` once its opcode handler has been called. -/
structure Executing (c : Cpu) : Prop where
  opcode : c.opcode = m r.pc
  state : c.opState ∈ [OpState.op1, .op2, .op3, .op4, .opcode]
  ea : ∀ a, effectiveAddress m r (addrtable (m r.pc)) = some a → c.ea = a
  pc : fallsThrough m r = true → c.regs.pc = r.pc + bytesRead (addrtable (m r.pc))
  branch : fallsThrough m r = true → (optable (m r.pc)).branches = true → c.opState = .opcode

end Execution

/-- The opcode handlers lead to one another and to the boundary; `brk` alone goes on in the
vector sequence. -/
theorem ops_next_table : ∀ opcode : BitVec 8, ∀ pb : Bool,
    ∀ s ∈ handlerStates, optable opcode ≠ .brk →
      ∀ o ∈ outcomes ⟨opcode, s, pb⟩, o.next ∈ [OpState.op1, .op2, .op3, .op4, .opcode] := by
  decide +kernel

theorem branches_table : ∀ opcode : BitVec 8,
    optable opcode = .bbr ∨ optable opcode = .bbs → addrtable opcode = .zprel := by
  decide +kernel

theorem jsr_table : ∀ opcode : BitVec 8, optable opcode = .jsr → opcode = 0x20 := by
  decide +kernel

theorem bytesRead_table : ∀ opcode : BitVec 8, (optable opcode).jumps = false →
    bytesRead (addrtable opcode) = BitVec.ofNat 16 (addrLengths (addrtable opcode)) := by
  decide +kernel

section Steps
variable {m : Mem} {r : CpuRegs} {c : Cpu} (hbrk : optable (m r.pc) ≠ .brk)

theorem not_jumps_of_fallsThrough (h : fallsThrough m r = true) : (optable (m r.pc)).jumps = false := by
  simp only [fallsThrough, Bool.and_eq_true, Bool.not_eq_true'] at h
  exact h.1.1

theorem not_taken_of_fallsThrough (h : fallsThrough m r = true) : takesBranch m r = false := by
  simp only [fallsThrough, Bool.and_eq_true, Bool.not_eq_true'] at h
  exact h.2

/-- A branch that is not taken has no cycle after its first. -/
theorem run_branch_not_taken (taken : Cpu → Bool) (s : RamState) (hs : c.opState = .op0)
    (h : taken c = false) : ((branch taken c).run ramEnv s).1.opState = .opcode := by
  simp [branch, hs, h, advanceState]

theorem branch_ends_of_not_taken (hs : c.opState = .op0) (hop : c.opcode = m r.pc)
    (hstatus : c.regs.status = r.status)
    (hready : OperandReady m r (addrtable (m r.pc)) c) (htaken : takesBranch m r = false)
    (hbranch : (optable (m r.pc)).branches = true) (s : RamState) :
    ((ops (optable (m r.pc)) c).run ramEnv s).1.opState = .opcode := by
  have hvalue : optable (m r.pc) = .bbr ∨ optable (m r.pc) = .bbs →
      valueAndBit c = valueAndBit (branchCpu m r) := by
    intro h
    unfold valueAndBit opcodeBit
    rw [hready.value (branches_table _ h), hop]
    rfl
  have hbxx : bxxTaken c = bxxTaken (branchCpu m r) := by
    unfold bxxTaken
    rw [hop, hstatus]
    rfl
  unfold takesBranch at htaken
  cases hopt : optable (m r.pc) <;> rw [hopt] at htaken hbranch hvalue
  case bxx => exact run_branch_not_taken _ s hs (hbxx.trans htaken)
  case bra => exact Bool.noConfusion htaken
  case bbr =>
    refine run_branch_not_taken (fun cpu => !valueAndBit cpu) s hs ?_
    rw [hvalue (.inl rfl)]
    exact htaken
  case bbs => exact run_branch_not_taken _ s hs ((hvalue (.inr rfl)).trans htaken)
  all_goals exact absurd hbranch Bool.false_ne_true

omit hbrk in
theorem handler_ops (hs : c.opState ∈ handlerStates) : handler c = ops (optable c.opcode) c := by
  unfold handler
  simp only [handlerStates, List.mem_cons, List.not_mem_nil, or_false] at hs
  rcases hs with hs | hs | hs | hs | hs <;> rw [hs]

omit hbrk in
theorem handler_params (hs : c.opState ∈ paramStates) :
    handler c = addrHandlers (addrtable c.opcode) c := by
  unfold handler
  simp only [paramStates, List.mem_cons, List.not_mem_nil, or_false] at hs
  rcases hs with hs | hs | hs | hs | hs <;> rw [hs]

include hbrk in
theorem run_handler_next (s : RamState) (hop : c.opcode = m r.pc) (hs : c.opState ∈ handlerStates) :
    ((handler c).run ramEnv s).1.opcode = m r.pc ∧
      ((handler c).run ramEnv s).1.opState ∈ [OpState.op1, .op2, .op3, .op4, .opcode] := by
  have hne : c.opState ≠ .opcode := by
    intro h
    rw [h] at hs
    revert hs
    decide
  have hends : Prog.Ends (fun _ c' => ∃ o ∈ outcomes c.ctl, c'.ctl = c.ctl.after o) (handler c) :=
    Prog.Ends.mono (handler_fits c hne) fun _ _ ⟨o, ho, hfit⟩ => ⟨o, ho, hfit.ctl⟩
  obtain ⟨o, ho, hctl⟩ := hends.result ramEnv s
  have hnext : ((handler c).run ramEnv s).1.opState = o.next := congrArg Ctl.opState hctl
  refine ⟨(congrArg Ctl.opcode hctl).trans hop, ?_⟩
  rw [hnext]
  exact ops_next_table c.opcode c.pageBoundary c.opState hs (by rw [hop]; exact hbrk) o ho

include hbrk in
/-- The first call of the opcode handler. -/
theorem executing_of_ready (hjsr : m r.pc ≠ 0x20) (s : RamState) (hop : c.opcode = m r.pc)
    (hs : c.opState = .op0) (hstatus : c.regs.status = r.status)
    (hready : OperandReady m r (addrtable (m r.pc)) c) :
    Executing m r ((handler c).run ramEnv s).1 := by
  have hmem : c.opState ∈ handlerStates := by rw [hs]; decide
  obtain ⟨hopcode, hstate⟩ := run_handler_next hbrk s hop hmem
  have hframe := (ops_frame c (optable (m r.pc))).result ramEnv s
  rw [handler_ops hmem, hop] at hopcode hstate ⊢
  refine ⟨hopcode, hstate, ?_, ?_, ?_⟩
  · intro a ha
    exact (hframe.ea fun h => hjsr (jsr_table _ h)).trans (hready.ea a ha)
  · intro h
    exact (hframe.pc (not_jumps_of_fallsThrough h) fun _ => hs).trans hready.pc
  · intro h hbranch
    exact branch_ends_of_not_taken hs hop hstatus hready (not_taken_of_fallsThrough h) hbranch s

include hbrk in
/-- The later calls. -/
theorem executing_handler (hjsr : m r.pc ≠ 0x20) (s : RamState) (h : Executing m r c)
    (hs : c.opState ≠ .opcode) : Executing m r ((handler c).run ramEnv s).1 := by
  have hmem : c.opState ∈ handlerStates := by
    have := h.state
    simp only [handlerStates, List.mem_cons, List.not_mem_nil, or_false] at this ⊢
    rcases this with h | h | h | h | h
    · exact .inr (.inl h)
    · exact .inr (.inr (.inl h))
    · exact .inr (.inr (.inr (.inl h)))
    · exact .inr (.inr (.inr (.inr h)))
    · exact absurd h hs
  obtain ⟨hopcode, hstate⟩ := run_handler_next hbrk s h.opcode hmem
  have hframe := (ops_frame c (optable (m r.pc))).result ramEnv s
  rw [handler_ops hmem, h.opcode] at hopcode hstate ⊢
  refine ⟨hopcode, hstate, ?_, ?_, ?_⟩
  · intro a ha
    exact (hframe.ea fun hj => hjsr (jsr_table _ hj)).trans (h.ea a ha)
  · intro hfall
    refine (hframe.pc (not_jumps_of_fallsThrough hfall) ?_).trans (h.pc hfall)
    exact fun hbranch => absurd (h.branch hfall hbranch) hs
  · exact fun hfall hbranch => absurd (h.branch hfall hbranch) hs

/-- The address phase or the execution of the instruction at `r.pc`. -/
def InstrPhase (m : Mem) (r : CpuRegs) (c : Cpu) (mem : Mem) : Prop :=
  Operand m r c mem ∨ Executing m r c

theorem operand_handler (hjsr : m r.pc ≠ 0x20) {s : RamState} (h : Operand m r c s.mem)
    (hs : c.opState ∈ paramStates) (hat : operandAt m r (addrtable (m r.pc)) c.opState c) :
    Operand m r ((handler c).run ramEnv s).1 ((handler c).run ramEnv s).2.mem := by
  have hne : c.opState ≠ .opcode := by
    intro hb
    rw [hb] at hs
    revert hs
    decide
  have hends : Prog.Ends (fun _ c' => ∃ o ∈ outcomes c.ctl, c'.ctl = c.ctl.after o) (handler c) :=
    Prog.Ends.mono (handler_fits c hne) fun _ _ ⟨o, ho, hfit⟩ => ⟨o, ho, hfit.ctl⟩
  obtain ⟨o, -, hctl⟩ := hends.result ramEnv s
  have hopcode := (congrArg Ctl.opcode hctl).trans h.opcode
  have hregs := (addrHandlers_sameButPc (addrtable (m r.pc)) c).result ramEnv s
  have hx : c.regs.x = r.x := by rw [h.regs]
  have hy : c.regs.y = r.y := by rw [h.regs]
  have hsteps := addrHandlers_steps h.mem (by rw [h.opcode]; exact hjsr) hx hy _ hat
  rw [handler_params hs, h.opcode] at hopcode ⊢
  refine ⟨?_, hopcode, ?_, hsteps⟩
  · rw [addrHandlers_mem]
    exact h.mem
  · rw [Cpu.SameButPc, h.regs] at hregs
    exact hregs

include hbrk in
theorem instrPhase_handler (hjsr : m r.pc ≠ 0x20) {s : RamState} (h : InstrPhase m r c s.mem) :
    InstrPhase m r ((handler c).run ramEnv s).1 ((handler c).run ramEnv s).2.mem := by
  rcases h with h | h
  · rcases h.phase with ⟨hs, hat⟩ | ⟨hs, hready⟩
    · exact .inl (operand_handler hjsr h hs hat)
    · have hstatus : c.regs.status = r.status := by rw [h.regs]
      exact .inr (executing_of_ready hbrk hjsr s h.opcode hs hstatus hready)
  · by_cases hs : c.opState = .opcode
    · rw [handler, hs]
      exact .inr h
    · exact .inr (executing_handler hbrk hjsr s h hs)

theorem operandAt_clearCycle {mode : AddrMode} {s : OpState} (h : operandAt m r mode s c) :
    operandAt m r mode s c.clearCycle := by
  cases mode <;> cases s <;> exact h

theorem Operand.clearCycle {mem : Mem} (h : Operand m r c mem) : Operand m r c.clearCycle mem := by
  refine ⟨h.mem, h.opcode, h.regs, ?_⟩
  rcases h.phase with ⟨hs, hat⟩ | ⟨hs, hready⟩
  · exact .inl ⟨hs, operandAt_clearCycle hat⟩
  · exact .inr ⟨hs, hready.pc, hready.ea, hready.value⟩

theorem InstrPhase.clearCycle {mem : Mem} (h : InstrPhase m r c mem) :
    InstrPhase m r c.clearCycle mem := by
  rcases h with h | h
  · exact .inl h.clearCycle
  · exact .inr ⟨h.opcode, h.state, h.ea, h.pc, h.branch⟩

end Steps

/-! ## Runs to the next boundary -/

theorem operandAt_param0 (m : Mem) (r : CpuRegs) (mode : AddrMode) {c : Cpu}
    (h : c.regs.pc = r.pc + 1) : operandAt m r mode .param0 c := by
  cases mode <;> first | exact h | exact ⟨rfl, h⟩

section Runs
variable {emu : Emu ω} (hram : emu.bus.OnRam R) (hs : emu.cpu.opState = .opcode)
  (hint : intTaken emu.bus.sigvotes emu.cpu.regs = false)

include hs hint

theorem operand_first :
    Operand (R.mem emu.bus.devs) emu.cpu.regs (emu.firstCore R).cpu (emu.firstCore R).mem := by
  rw [Emu.firstCore, core_tick_fetch (by exact hs) (by exact hint)]
  refine ⟨rfl, rfl, rfl, .inl ⟨?_, ?_⟩⟩
  · show OpState.param0 ∈ paramStates
    decide
  · exact operandAt_param0 _ _ _ rfl

include hram in
theorem InstructionRun.instrPhase (hbrk : optable (R.mem emu.bus.devs emu.cpu.regs.pc) ≠ .brk)
    (hjsr : R.mem emu.bus.devs emu.cpu.regs.pc ≠ 0x20) {n : Nat} {e : Emu ω}
    (h : InstructionRun emu n e) :
    e.bus.OnRam R ∧
      InstrPhase (R.mem emu.bus.devs) emu.cpu.regs e.cpu.clearCycle (R.mem e.bus.devs) := by
  refine ⟨h.onRam hram hs, ?_⟩
  refine h.keeps hram hs (fun c s hphase => instrPhase_handler hbrk hjsr hphase)
    (fun c mem hphase => hphase.clearCycle) ?_
  exact .inl (operand_first hs hint)

end Runs

/-- A handler call of the instruction at the boundary `emu`: the state in which a tick of
its run calls a handler. -/
inductive HandlerCall (emu : Emu ω) : Emu ω → Prop where
  | first {n : Nat} {e : Emu ω} (h : InstructionRun emu n e) (hs : e.cpu.opState ≠ .opcode)
      (hrdy : e.bus.sigvotes.rdy = 0) : HandlerCall emu { e with cpu := e.cpu.clearCycle }
  | next {e : Emu ω} (h : HandlerCall emu e) (hs : (cpuTickBody e).cpu.opState ≠ .opcode)
      (hc : (cpuTickBody e).cpu.cycleConsumed = false) : HandlerCall emu (cpuTickBody e)

theorem HandlerCall.inside {emu e : Emu ω} (h : HandlerCall emu e) : e.cpu.opState ≠ .opcode := by
  cases h with
  | first _ hs _ => exact hs
  | next _ hs _ => exact hs

theorem HandlerCall.instrPhase {emu e : Emu ω} (hram : emu.bus.OnRam R)
    (hs : emu.cpu.opState = .opcode) (hint : intTaken emu.bus.sigvotes emu.cpu.regs = false)
    (hbrk : optable (R.mem emu.bus.devs emu.cpu.regs.pc) ≠ .brk)
    (hjsr : R.mem emu.bus.devs emu.cpu.regs.pc ≠ 0x20) (h : HandlerCall emu e) :
    e.bus.OnRam R ∧ InstrPhase (R.mem emu.bus.devs) emu.cpu.regs e.cpu (R.mem e.bus.devs) := by
  induction h with
  | first h _ _ => exact h.instrPhase hram hs hint hbrk hjsr
  | @next e h _ _ ih =>
    have hbody : cpuTickBody e = e.call (handler e.cpu) := if_neg h.inside
    obtain ⟨hres, hafter⟩ := ih.1.run (handler e.cpu)
    rw [hbody]
    refine ⟨hafter.onRam, ?_⟩
    have hphase := instrPhase_handler hbrk hjsr (s := ⟨R.mem e.bus.devs, []⟩) ih.2
    rw [← hres, ← hafter.mem] at hphase
    exact hphase

section
variable {m : Mem} {r : CpuRegs} {c : Cpu} {mem : Mem}

/-- From the call of the opcode handler on, the effective address stands. -/
theorem InstrPhase.ea (h : InstrPhase m r c mem) (hs : c.opState ∉ paramStates) {a : BitVec 16}
    (ha : effectiveAddress m r (addrtable (m r.pc)) = some a) : c.ea = a := by
  rcases h with h | h
  · rcases h.phase with ⟨hparam, -⟩ | ⟨-, hready⟩
    · exact absurd hparam hs
    · exact hready.ea a ha
  · exact h.ea a ha

/-- At the boundary the program counter is behind the instruction. -/
theorem InstrPhase.pc (h : InstrPhase m r c mem) (hs : c.opState = .opcode)
    (hfall : fallsThrough m r = true) :
    c.regs.pc = r.pc + BitVec.ofNat 16 (addrLengths (addrtable (m r.pc))) := by
  rw [← bytesRead_table _ (not_jumps_of_fallsThrough hfall)]
  rcases h with h | h
  · rcases h.phase with ⟨hparam, -⟩ | ⟨h0, -⟩
    · rw [hs] at hparam
      exact absurd hparam (by decide)
    · exact absurd (h0.symm.trans hs) (by decide)
  · exact h.pc hfall

end

/-- The cycles lead to a boundary. -/
theorem reaches_boundary (n : Nat) (c : Core) (hfresh : c.cpu.ctl.fresh = true)
    (hc : c.cpu.cycleConsumed = false) (hn : c.cpu.ctl.ticksLeft ≤ n) :
    ∃ k d, Core.Reaches k c d ∧ d.cpu.opState = .opcode := by
  induction n generalizing c with
  | zero =>
    by_cases hs : c.cpu.opState = .opcode
    · exact ⟨0, c, .done c, hs⟩
    · have hends := Prog.Ends.mono (cycle_ends c.cpu hfresh hs hc) fun _ _ h => h.2
      have := (hends.result ramEnv ⟨c.mem, []⟩).ticksLeft
      omega
  | succ n ih =>
    by_cases hs : c.cpu.opState = .opcode
    · exact ⟨0, c, .done c, hs⟩
    · have hends := Prog.Ends.mono (cycle_ends c.cpu hfresh hs hc) fun _ _ h => h.2
      have hend := hends.result ramEnv ⟨c.mem, []⟩
      have hless : c.cycle.cpu.ctl.ticksLeft < c.cpu.ctl.ticksLeft := hend.ticksLeft
      obtain ⟨k, d, hreach, hd⟩ := ih c.cycle hend.fresh rfl (by omega)
      exact ⟨k + 1, d, .cycle hs hreach, hd⟩

/-- The instruction comes to an end: a control state that is fresh has at most six ticks
left. -/
theorem InstructionRun.exists_boundary {emu : Emu ω} (hram : emu.bus.OnRam R)
    (hs : emu.cpu.opState = .opcode) (hrdy : emu.bus.sigvotes.rdy = 0)
    (hint : intTaken emu.bus.sigvotes emu.cpu.regs = false) :
    ∃ n e, InstructionRun emu n e ∧ e.cpu.opState = .opcode := by
  have hfirst : (emu.firstCore R).cpu.ctl.fresh = true ∧ (emu.firstCore R).cpu.ctl.ticksLeft ≤ 6 := by
    rw [Emu.firstCore, core_tick_fetch (by exact hs) (by exact hint)]
    exact fetch_table _ _
  obtain ⟨k, d, hreach, hd⟩ := reaches_boundary 6 (emu.firstCore R) hfirst.1 rfl hfirst.2
  obtain ⟨e, hrun, hcore, -⟩ := InstructionRun.exists hram hs hrdy hreach
  refine ⟨k + 1, e, hrun, ?_⟩
  rw [← hcore] at hd
  exact hd

theorem brk_table : ∀ opcode : BitVec 8, optable opcode = .brk → addrtable opcode = .imp := by
  decide +kernel

/-- Operand addressing and the program counter. From an instruction boundary at which no
interrupt is taken, on any RAM: the instruction comes to an end; unless it is JSR, the
effective address is in `ea` when the opcode handler is called and stands to the end of
the instruction; and unless the instruction is JMP, JSR, RTS, RTI, BRK or a branch that is
taken, the program counter ends up behind it, by the length of its mode. -/
theorem operand_addressing (emu : Emu ω) (hram : emu.bus.OnRam R)
    (hs : emu.cpu.opState = .opcode) (hrdy : emu.bus.sigvotes.rdy = 0)
    (hint : intTaken emu.bus.sigvotes emu.cpu.regs = false) :
    let m := R.mem emu.bus.devs
    let r := emu.cpu.regs
    let mode := addrtable (m r.pc)
    (∃ n e, InstructionRun emu n e ∧ e.cpu.opState = .opcode) ∧
    (m r.pc ≠ 0x20 → ∀ a, effectiveAddress m r mode = some a →
      (∀ e, HandlerCall emu e → e.cpu.opState ∉ paramStates → e.cpu.ea = a) ∧
      (∀ n e, InstructionRun emu n e → e.cpu.opState ∉ paramStates → e.cpu.ea = a)) ∧
    (fallsThrough m r = true → ∀ n e, InstructionRun emu n e → e.cpu.opState = .opcode →
      e.cpu.regs.pc = r.pc + BitVec.ofNat 16 (addrLengths mode)) := by
  intro m r mode
  refine ⟨?_, ?_, ?_⟩
  · exact InstructionRun.exists_boundary hram hs hrdy hint
  · intro hjsr a ha
    have hbrk : optable (m r.pc) ≠ .brk := by
      -- BRK has no operand
      intro hbrk
      have hnone : effectiveAddress m r mode = none := by
        rw [show mode = .imp from brk_table _ hbrk]
        rfl
      rw [hnone] at ha
      exact absurd ha (Option.some_ne_none a).symm
    refine ⟨?_, ?_⟩
    · intro e h hop
      -- when the handler is called, and at every tick from there on
      exact (h.instrPhase hram hs hint hbrk hjsr).2.ea hop ha
    · intro n e h hop
      exact (h.instrPhase hram hs hint hbrk hjsr).2.ea hop ha
  · intro hfall n e h hb
    have hjumps := not_jumps_of_fallsThrough hfall
    have hbrk : optable (m r.pc) ≠ .brk := by
      simp only [fallsThrough, Bool.and_eq_true, bne_iff_ne] at hfall
      exact hfall.1.2
    have hjsr : m r.pc ≠ 0x20 := by
      -- JSR jumps
      intro h20
      rw [h20] at hjumps
      exact absurd hjumps (by decide)
    exact (h.instrPhase hram hs hint hbrk hjsr).2.pc hb hfall

/-- A RAM with `LDA $F0,X` at the top of the address space, and `$20` in `X`. -/
def ldaZpxEmu : Emu Mem :=
  { bus := Bus.init flatRam.conns [] fun addr => if addr = 0xFFFF then 0xB5 else 0xF0
    cpu := { regs := { pc := 0xFFFF, x := 0x20 } } }

theorem operand_addressing_of_lda_zpx :
    ∃ n e, InstructionRun ldaZpxEmu n e ∧ e.cpu.ea = 0x0010 ∧ e.cpu.regs.pc = 0x0001 := by
  have hram : ldaZpxEmu.bus.OnRam flatRam := ⟨rfl, rfl, trivial⟩
  obtain ⟨⟨n, e, hrun, hb⟩, hea, hpc⟩ :=
    operand_addressing ldaZpxEmu hram rfl rfl (by decide)
  have ha := (hea (by decide) 0x0010 (by decide)).2 n e hrun (by rw [hb]; decide)
  have hnext := hpc (by decide) n e hrun hb
  exact ⟨n, e, hrun, ha, hnext⟩

end Cb6502
