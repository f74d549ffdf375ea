import Cb6502.Lib.Steps
import Cb6502.AciaReceive

/- The transmitter of the ACIA (io/acia/src/acia.c) and DTR. The transport is given a count of its
   writes (`AciaTransInterface.counted`), which the ACIA does not see (`counted_maps`). A command
   write that clears DTR cancels the byte in progress; a software reset clears DTR only.

   What is proved:
     1. `tick_transmits`, `read_transmits`, `write_transmits` (what each operation does to the byte
        in progress).
     2. `transmits_with_dtr_iff` (bytes are in progress, and sent, with DTR set only, exactly if no
        software reset is made while one is in progress). -/
namespace Cb6502

open Steps

variable {τ : Type}

/-! ## What is asked of an operation -/

/-- The transport, with its writes counted. -/
def AciaTransInterface.counted (transport : AciaTransInterface τ) : AciaTransInterface (τ × Nat) where
  available s := ((transport.available s.1).1, (transport.available s.1).2, s.2)
  read s := ((transport.read s.1).1, (transport.read s.1).2, s.2)
  write val s := (transport.write val s.1, s.2 + 1)

/-- The calls of the transport's `write` so far. -/
def Acia.sent (a : Acia (τ × Nat)) : Nat := a.transHandle.2

/-- The `DTR` bit of the command register. -/
def Acia.dtr (a : Acia τ) : Bool := a.cmdReg &&& ACIA_CMD_DTR_MASK != 0

/-- With DTR clear nothing is sent and no byte is started; and what clears DTR cancels the byte in
progress. -/
structure TransmitsWithDtr (a a' : Acia (τ × Nat)) : Prop where
  silent : a.dtr = false → a'.sent = a.sent
  starts : a.dtr = false → a.txTicks = 0 → a'.txTicks = 0
  cancels : a.dtr = true → a'.dtr = false → a'.txTicks = 0

/-- A write to the status register. -/
def AciaOp.SoftwareReset : AciaOp → Prop
  | .write reg _ => reg = ACIA_RS_STATUS
  | .read _ | .tick => False

/-- The byte in progress, if there is one, is not left to a software reset. -/
def AciaOp.NoResetInByte (a : Acia τ) (op : AciaOp) : Prop := op.SoftwareReset → a.txTicks = 0

/-- No byte is in progress with DTR clear. -/
def Acia.InProgressWithDtr (a : Acia τ) : Prop := a.dtr = false → a.txTicks = 0

def aciaStep (transport : AciaTransInterface τ) (a : Acia τ) (op : AciaOp) : Acia τ :=
  op.step transport a

theorem counted_maps (transport : AciaTransInterface τ) :
    transport.counted.Maps transport Prod.fst :=
  ⟨fun _ => rfl, fun _ => rfl, fun _ _ => rfl⟩

/-! ## Each operation -/

section Step
variable (transport : AciaTransInterface τ) (a : Acia (τ × Nat))

/-- The receiver leaves the transmitter alone, and a part `f` of the transport that its own calls do
not change. -/
theorem tickRx_transmitter {γ : Type} (transport : AciaTransInterface τ) (f : τ → γ)
    (havailable : ∀ s, f (transport.available s).2 = f s) (hread : ∀ s, f (transport.read s).2 = f s)
    (a : Acia τ) : (aciaTickRx transport a).1.cmdReg = a.cmdReg ∧
    (aciaTickRx transport a).1.txTicks = a.txTicks ∧
    (aciaTickRx transport a).1.writeVal = a.writeVal ∧
    f (aciaTickRx transport a).1.transHandle = f a.transHandle := by
  unfold aciaTickRx
  split
  · dsimp only
    split
    · split
      · split <;> exact ⟨rfl, rfl, rfl, hread _⟩
      · exact ⟨rfl, rfl, rfl, hread _⟩
    · exact ⟨rfl, rfl, rfl, rfl⟩
  · dsimp only
    split <;> exact ⟨rfl, rfl, rfl, havailable _⟩

/-- A tick counts the byte in progress down, and sends it at the end. -/
theorem tick_transmits : (aciaTick transport.counted a).1.cmdReg = a.cmdReg ∧
    (aciaTick transport.counted a).1.txTicks = a.txTicks - 1 ∧
    (aciaTick transport.counted a).1.sent = a.sent + if a.txTicks = 1 then 1 else 0 := by
  obtain ⟨hcmd, hticks, -, hsent⟩ :=
    tickRx_transmitter transport.counted Prod.snd (fun _ => rfl) (fun _ => rfl) a
  unfold aciaTick
  dsimp only
  rw [hticks]
  split
  · split
    · rename_i hlast
      have hone : a.txTicks = 1 := by omega
      rw [if_pos hone]
      exact ⟨hcmd, rfl, congrArg (· + 1) hsent⟩
    · rw [if_neg (by omega)]
      exact ⟨hcmd, rfl, hsent⟩
  · have hnone : a.txTicks = 0 := by omega
    rw [hnone, if_neg Nat.zero_ne_one]
    exact ⟨hcmd, hticks.trans hnone, hsent⟩

theorem read_transmits (reg : BitVec 8) : (aciaRead a reg).2.1.cmdReg = a.cmdReg ∧
    (aciaRead a reg).2.1.txTicks = a.txTicks ∧ (aciaRead a reg).2.1.sent = a.sent := by
  unfold aciaRead
  repeat' split
  all_goals exact ⟨rfl, rfl, rfl⟩

variable {a} {reg : BitVec 8}

/-- A write sends nothing. A byte is started with DTR set, a software reset clears DTR, and a
command that clears it cancels the byte in progress. -/
inductive WriteTransmits (a a' : Acia (τ × Nat)) (reg : BitVec 8) : Prop where
  | keeps (hreg : reg ≠ ACIA_RS_STATUS) (hdtr : a'.dtr = a.dtr) (hticks : a'.txTicks = a.txTicks)
  | started (hreg : reg ≠ ACIA_RS_STATUS) (hset : a.dtr = true) (hdtr : a'.dtr = a.dtr)
  | reset (hreg : reg = ACIA_RS_STATUS) (hdtr : a'.dtr = false) (hticks : a'.txTicks = a.txTicks)
  | command (hreg : reg ≠ ACIA_RS_STATUS)
      (hticks : a'.txTicks = if a'.dtr then a.txTicks else 0)

theorem reset_clears_dtr (cmd : BitVec 8) :
    cmd &&& ~~~ACIA_CMD_SW_RESET_MASK &&& ACIA_CMD_DTR_MASK = 0 := by
  have hapart : ~~~ACIA_CMD_SW_RESET_MASK &&& ACIA_CMD_DTR_MASK = 0#8 := rfl
  rw [BitVec.and_assoc, hapart]
  exact BitVec.and_zero

theorem dtr_eq_true {σ : Type} {a : Acia σ} : a.dtr = true ↔ a.cmdReg &&& ACIA_CMD_DTR_MASK ≠ 0 := bne_iff_ne

theorem dtr_eq_false {σ : Type} {a : Acia σ} : a.dtr = false ↔ a.cmdReg &&& ACIA_CMD_DTR_MASK = 0 := by
  rw [← Bool.not_eq_true, dtr_eq_true, Decidable.not_not]

theorem write_transmits (a : Acia (τ × Nat)) (reg val : BitVec 8) :
    WriteTransmits a (aciaWrite a reg val) reg ∧ (aciaWrite a reg val).sent = a.sent := by
  unfold aciaWrite
  split
  · rename_i hdata
    have hother : reg ≠ ACIA_RS_STATUS := by rw [hdata]; decide
    split
    · rename_i hset
      split
      · exact ⟨.keeps hother rfl rfl, rfl⟩
      · exact ⟨.started hother (dtr_eq_true.mpr hset) rfl, rfl⟩
    · exact ⟨.keeps hother rfl rfl, rfl⟩
  · split
    · rename_i hreset
      exact ⟨.reset hreset (dtr_eq_false.mpr (reset_clears_dtr _)) rfl, rfl⟩
    · rename_i hother
      split
      · exact ⟨.keeps hother rfl rfl, rfl⟩
      · split
        · refine ⟨.command hother ?_, rfl⟩
          simp [Acia.dtr]
        · exact ⟨.keeps hother rfl rfl, rfl⟩

theorem transmitsWithDtr_of_same {a' : Acia (τ × Nat)} (hdtr : a'.dtr = a.dtr)
    (hticks : a.txTicks = 0 → a'.txTicks = 0) (hsent : a.dtr = false → a'.sent = a.sent) :
    TransmitsWithDtr a a' := by
  refine ⟨hsent, fun _ => hticks, fun hset hclear => ?_⟩
  rw [hdtr, hset] at hclear
  exact absurd hclear Bool.noConfusion

/-- The operation that fails is a software reset in the middle of a byte. -/
theorem transmitsWithDtr_iff (ha : a.InProgressWithDtr) (op : AciaOp) :
    TransmitsWithDtr a (aciaStep transport.counted a op) ↔ op.NoResetInByte a := by
  cases op with
  | tick =>
    obtain ⟨hcmd, hticks, hsent⟩ := tick_transmits transport a
    refine iff_of_true (transmitsWithDtr_of_same ?_ ?_ ?_) False.elim
    · exact congrArg (fun cmd => cmd &&& ACIA_CMD_DTR_MASK != 0) hcmd
    · exact fun hzero => hticks.trans (by omega)
    · intro hclear
      have hzero := ha hclear
      exact hsent.trans (by rw [if_neg (by omega), Nat.add_zero])
  | read reg =>
    obtain ⟨hcmd, hticks, hsent⟩ := read_transmits a reg
    refine iff_of_true (transmitsWithDtr_of_same ?_ ?_ fun _ => hsent) False.elim
    · exact congrArg (fun cmd => cmd &&& ACIA_CMD_DTR_MASK != 0) hcmd
    · exact fun hzero => hticks.trans hzero
  | write reg val =>
    obtain ⟨hcase, hsent⟩ := write_transmits a reg val
    show TransmitsWithDtr a (aciaWrite a reg val) ↔ (reg = ACIA_RS_STATUS → a.txTicks = 0)
    generalize aciaWrite a reg val = a' at hcase hsent
    cases hcase with
    | keeps hreg hdtr hticks =>
      exact iff_of_true (transmitsWithDtr_of_same hdtr (fun h => hticks.trans h) fun _ => hsent)
        fun h => absurd h hreg
    | started hreg hset hdtr =>
      refine iff_of_true ⟨fun _ => hsent, fun hclear => ?_, fun _ hclear => ?_⟩
        fun h => absurd h hreg
      · exact absurd (hset.symm.trans hclear) Bool.noConfusion
      · exact absurd (hset.symm.trans (hdtr.symm.trans hclear)) Bool.noConfusion
    | reset hreg hdtr hticks =>
      constructor
      · intro h _
        -- with DTR clear before, no byte was in progress
        cases hset : a.dtr with
        | false => exact ha hset
        | true => exact hticks.symm.trans (h.cancels hset hdtr)
      · intro h
        have hzero := hticks.trans (h hreg)
        exact ⟨fun _ => hsent, fun _ _ => hzero, fun _ _ => hzero⟩
    | command hreg hticks =>
      refine iff_of_true ⟨fun _ => hsent, fun _ hzero => ?_, fun _ hclear => ?_⟩
        fun h => absurd h hreg
      · rw [hticks, hzero, ite_self]
      · rw [hticks, hclear, if_neg Bool.false_ne_true]

theorem TransmitsWithDtr.keeps {a' : Acia (τ × Nat)} (h : TransmitsWithDtr a a')
    (ha : a.InProgressWithDtr) : a'.InProgressWithDtr := by
  intro hclear
  cases hset : a.dtr with
  | false => exact h.starts hset (ha hset)
  | true => exact h.cancels hset hclear

end Step

/-! ## Runs -/

/-- After `acia_init`, wherever the ACIA is registered, over any transport. -/
theorem transmits_with_dtr_iff (transport : AciaTransInterface τ) (t : τ) (busHandle : Option Nat)
    (base : BitVec 16) (voter : BitVec 32) (ops : List AciaOp) :
    Each (aciaStep transport.counted)
        (fun a op => TransmitsWithDtr a (aciaStep transport.counted a op))
        { aciaInit (t, 0) with busHandle, base, voter } ops ↔
      Each (aciaStep transport.counted) (fun a op => op.NoResetInByte a)
        { aciaInit (t, 0) with busHandle, base, voter } ops :=
  each_iff (I := Acia.InProgressWithDtr) (fun _ op ha => transmitsWithDtr_iff transport ha op)
    (fun _ _ ha h => h.keeps ha) (fun _ => rfl) ops

/-- A transport that never has a byte. -/
def nothingToReceive : AciaTransInterface Unit where
  available _ := (false, ())
  read _ := (0, ())
  write _ _ := ()

/-- A byte is started, DTR is cleared by a software reset, and the time of a word passes. -/
def resetInByte : List AciaOp :=
  [.write ACIA_RS_CMD 0x01, .write ACIA_RS_DATA 0x41, .write ACIA_RS_STATUS 0x00]

/-- Some ticks after it. -/
def afterReset (ticks : Nat) : Acia (Unit × Nat) :=
  (resetInByte ++ List.replicate ticks AciaOp.tick).foldl (aciaStep nothingToReceive.counted)
    (aciaInit ((), 0))

set_option maxRecDepth 4000 in
/-- The byte is not cancelled, and is sent on the tick number 160 with DTR clear. -/
theorem resetInByte_sends :
    ¬Each (aciaStep nothingToReceive.counted)
        (fun a op => TransmitsWithDtr a (aciaStep nothingToReceive.counted a op))
        (aciaInit ((), 0)) resetInByte ∧
      (afterReset 159).dtr = false ∧ (afterReset 159).sent = 0 ∧ (afterReset 160).sent = 1 := by
  refine ⟨?_, by decide, by decide, by decide⟩
  rintro ⟨-, -, hreset, -⟩
  exact absurd (hreset.cancels (by decide) (by decide)) (by decide)

end Cb6502
