import Cb6502.AciaTransmit

/- What the transmitter of the ACIA (io/acia/src/acia.c) sends, and when. The bytes written to the
   transport are kept beside it (`AciaTransInterface.recorded`), which the ACIA does not see. A byte
   in flight is `Acia.InFlight`: the value and the ticks that are left.

   What is proved:
     1. `recorded_step` (the ACIA does the same with and without the record).
     2. `ticksPerWord_eq` (the time of a word, for every control register).
     3. `InFlight.step`, `InFlight.run`, `Idle.run` (a byte in flight, and none).
     4. `acia_sends_once` (a byte is sent once, on the last tick of its word). -/
namespace Cb6502

open Steps

variable {τ : Type}

/-- The transport, with the bytes written to it. -/
def AciaTransInterface.recorded (transport : AciaTransInterface τ) :
    AciaTransInterface (τ × List (BitVec 8)) where
  available s := ((transport.available s.1).1, (transport.available s.1).2, s.2)
  read s := ((transport.read s.1).1, (transport.read s.1).2, s.2)
  write val s := (transport.write val s.1, s.2 ++ [val])

/-- The calls of the transport's `write` so far. -/
def Acia.written (a : Acia (τ × List (BitVec 8))) : List (BitVec 8) := a.transHandle.2

theorem recorded_maps (transport : AciaTransInterface τ) :
    transport.recorded.Maps transport Prod.fst :=
  ⟨fun _ => rfl, fun _ => rfl, fun _ _ => rfl⟩

theorem recorded_step (transport : AciaTransInterface τ) (a : Acia (τ × List (BitVec 8)))
    (op : AciaOp) :
    (aciaStep transport.recorded a op).map Prod.fst = aciaStep transport (a.map Prod.fst) op :=
  map_step (recorded_maps transport) a op

/-! ## The time of a word -/

/-- The word length of the control register. -/
def Acia.wordLength (a : Acia τ) : Nat := aciaBitLenTable.getD ((a.ctlReg >>> 5) &&& 0x03).toNat 0

/-- The ticks of a bit. -/
def Acia.bitTicks (a : Acia τ) : Nat := aciaSbrTable.getD (a.ctlReg &&& 0x0F).toNat 0

/-- The stop bits, counted in halves. -/
def Acia.stopHalves (a : Acia τ) : Nat :=
  if a.ctlReg.getLsbD 7 then if a.wordLength = 5 then 3 else 4 else 2

/-- The start bit, the word and the stop bits, counted in halves. -/
def Acia.wordHalves (a : Acia τ) : Nat := 2 * (a.wordLength + 1) + a.stopHalves

theorem wordLength_eq_five_iff (a : Acia τ) :
    a.wordLength = 5 ↔ ((a.ctlReg >>> 5) &&& 0x03).toNat = 3 := by
  have hlt : ((a.ctlReg >>> 5) &&& 0x03).toNat ≤ 3 := by
    rw [BitVec.toNat_and]
    exact Nat.and_le_right
  rw [Acia.wordLength]
  generalize ((a.ctlReg >>> 5) &&& 0x03).toNat = wl at hlt
  have hcases : wl = 0 ∨ wl = 1 ∨ wl = 2 ∨ wl = 3 := by omega
  rcases hcases with rfl | rfl | rfl | rfl <;> decide

/-- Half a tick is dropped. -/
theorem ticksPerWord_eq (a : Acia τ) : aciaGetTicksPerWord a = a.wordHalves * a.bitTicks / 2 := by
  have hfive := wordLength_eq_five_iff a
  rw [aciaGetTicksPerWord, Acia.wordHalves, Acia.stopHalves]
  simp only [← hfive]
  rw [← Acia.wordLength, ← Acia.bitTicks]
  have hword : ∀ halves, (2 * (a.wordLength + 1) + halves) * a.bitTicks =
      2 * ((a.wordLength + 1) * a.bitTicks) + halves * a.bitTicks := by
    intro halves
    rw [Nat.add_mul, Nat.mul_assoc]
  cases a.ctlReg.getLsbD 7 with
  | false =>
    simp only [Bool.false_eq_true, if_false, hword]
    omega
  | true =>
    simp only [if_true]
    by_cases h : a.wordLength = 5
    · simp only [if_pos h, hword]
      omega
    · simp only [if_neg h, hword]
      omega

/-! ## Each operation -/

/-- A command without DTR, or a software reset. -/
def AciaOp.ClearsDtr : AciaOp → Prop
  | .write reg val => reg = ACIA_RS_STATUS ∨ reg = ACIA_RS_CMD ∧ val &&& ACIA_CMD_DTR_MASK = 0
  | .read _ | .tick => False

/-- A write that starts a byte. -/
def AciaOp.Starts (a : Acia τ) : AciaOp → Prop
  | .write reg _ => reg = ACIA_RS_DATA ∧ a.dtr = true ∧ a.txTicks = 0
  | .read _ | .tick => False

instance : DecidablePred AciaOp.ClearsDtr
  | .write _ _ => inferInstanceAs (Decidable (_ ∨ _))
  | .read _ | .tick => inferInstanceAs (Decidable False)

instance (a : Acia τ) : DecidablePred (AciaOp.Starts a)
  | .write _ _ => inferInstanceAs (Decidable (_ ∧ _))
  | .read _ | .tick => inferInstanceAs (Decidable False)

/-- `val` is in flight with `k` ticks left, after the writes `sent`. -/
structure Acia.InFlight (a : Acia (τ × List (BitVec 8))) (val : BitVec 8) (k : Nat)
    (sent : List (BitVec 8)) : Prop where
  dtr : a.dtr = true
  ticks : a.txTicks = k
  val : a.writeVal = val
  written : a.written = sent

/-- No byte is in flight. -/
structure Acia.Idle (a : Acia (τ × List (BitVec 8))) (sent : List (BitVec 8)) : Prop where
  ticks : a.txTicks = 0
  written : a.written = sent

section Step
variable (transport : AciaTransInterface τ) {a : Acia (τ × List (BitVec 8))} {val : BitVec 8}
  {k : Nat} {sent : List (BitVec 8)}

theorem tick_sends (a : Acia (τ × List (BitVec 8))) :
    (aciaTick transport.recorded a).1.cmdReg = a.cmdReg ∧
    (aciaTick transport.recorded a).1.txTicks = a.txTicks - 1 ∧
    (aciaTick transport.recorded a).1.writeVal = a.writeVal ∧
    (aciaTick transport.recorded a).1.written =
      a.written ++ if a.txTicks = 1 then [a.writeVal] else [] := by
  obtain ⟨hcmd, hticks, hval, hwritten⟩ :=
    tickRx_transmitter transport.recorded Prod.snd (fun _ => rfl) (fun _ => rfl) a
  rw [aciaTick]
  dsimp only
  rw [hticks]
  by_cases hbusy : a.txTicks > 0
  · rw [if_pos hbusy]
    by_cases hlast : a.txTicks - 1 = 0
    · have hone : a.txTicks = 1 := by omega
      rw [if_pos hlast, if_pos hone]
      refine ⟨hcmd, rfl, hval, ?_⟩
      rw [← hval]
      exact congrArg (· ++ [_]) hwritten
    · rw [if_neg hlast, if_neg (by omega), List.append_nil]
      exact ⟨hcmd, rfl, hval, hwritten⟩
  · have hnone : a.txTicks = 0 := by omega
    rw [if_neg hbusy, if_neg (by omega), List.append_nil]
    exact ⟨hcmd, hticks.trans (by omega), hval, hwritten⟩

theorem Acia.InFlight.tick (h : a.InFlight val (k + 1 + 1) sent) :
    (aciaStep transport.recorded a .tick).InFlight val (k + 1) sent := by
  obtain ⟨hcmd, hticks, hval, hwritten⟩ := tick_sends transport a
  rw [h.ticks, if_neg (by omega), List.append_nil] at hwritten
  refine ⟨?_, hticks.trans (by rw [h.ticks]; rfl), hval.trans h.val, hwritten.trans h.written⟩
  exact (congrArg (fun cmd => cmd &&& ACIA_CMD_DTR_MASK != 0) hcmd).trans h.dtr

/-- On its last tick the byte is sent. -/
theorem Acia.InFlight.last (h : a.InFlight val 1 sent) :
    (aciaStep transport.recorded a .tick).Idle (sent ++ [val]) := by
  obtain ⟨-, hticks, -, hwritten⟩ := tick_sends transport a
  rw [if_pos h.ticks, h.val, h.written] at hwritten
  exact ⟨hticks.trans (by rw [h.ticks]), hwritten⟩

theorem Acia.InFlight.step (h : a.InFlight val (k + 1) sent) {op : AciaOp} (htick : op ≠ .tick)
    (hheld : ¬op.ClearsDtr) : (aciaStep transport.recorded a op).InFlight val (k + 1) sent := by
  cases op with
  | tick => exact absurd rfl htick
  | read reg =>
    show (aciaRead a reg).2.1.InFlight val (k + 1) sent
    rw [aciaRead]
    repeat' split
    all_goals exact ⟨h.dtr, h.ticks, h.val, h.written⟩
  | write reg data =>
    have hreset : reg ≠ ACIA_RS_STATUS := fun hreg => hheld (Or.inl hreg)
    have hbusy : a.txTicks > 0 := by rw [h.ticks]; exact Nat.succ_pos k
    show (aciaWrite a reg data).InFlight val (k + 1) sent
    rw [aciaWrite, if_pos hbusy, ite_self, if_neg hreset]
    split
    · exact h
    · split
      · exact ⟨h.dtr, h.ticks, h.val, h.written⟩
      · split
        · rename_i hcmd
          have hset : data &&& ACIA_CMD_DTR_MASK ≠ 0 := fun hclear => hheld (Or.inr ⟨hcmd, hclear⟩)
          rw [if_neg hset]
          exact ⟨dtr_eq_true.mpr hset, h.ticks, h.val, h.written⟩
        · exact h

theorem Acia.Idle.step (h : a.Idle sent) {op : AciaOp} (hstart : ¬op.Starts a) :
    (aciaStep transport.recorded a op).Idle sent := by
  cases op with
  | tick =>
    obtain ⟨-, hticks, -, hwritten⟩ := tick_sends transport a
    rw [h.ticks, if_neg Nat.zero_ne_one, List.append_nil] at hwritten
    exact ⟨hticks.trans (by rw [h.ticks]), hwritten.trans h.written⟩
  | read reg =>
    show (aciaRead a reg).2.1.Idle sent
    rw [aciaRead]
    repeat' split
    all_goals exact ⟨h.ticks, h.written⟩
  | write reg data =>
    show (aciaWrite a reg data).Idle sent
    rw [aciaWrite]
    split
    · rename_i hreg
      have hclear : ¬a.cmdReg &&& ACIA_CMD_DTR_MASK ≠ 0 :=
        fun hset => hstart ⟨hreg, dtr_eq_true.mpr hset, h.ticks⟩
      rw [if_neg hclear]
      exact h
    · split
      · exact ⟨h.ticks, h.written⟩
      · split
        · exact ⟨h.ticks, h.written⟩
        · split
          · refine ⟨?_, h.written⟩
            show (if data &&& ACIA_CMD_DTR_MASK = 0 then 0 else a.txTicks) = 0
            rw [h.ticks, ite_self]
          · exact h

theorem Acia.InFlight.start (hdtr : a.dtr = true) (hidle : a.txTicks = 0) (val : BitVec 8) :
    (aciaWrite a ACIA_RS_DATA val).InFlight val (aciaGetTicksPerWord a) a.written := by
  have hbusy : ¬a.txTicks > 0 := by omega
  rw [aciaWrite, if_pos rfl, if_pos (dtr_eq_true.mp hdtr), if_neg hbusy]
  exact ⟨hdtr, rfl, rfl, rfl⟩

end Step

/-! ## Runs -/

/-- The ticks of a run. -/
def tickCount (ops : List AciaOp) : Nat := ops.count .tick

section Run
variable {transport : AciaTransInterface τ} {a : Acia (τ × List (BitVec 8))} {val : BitVec 8}
  {k : Nat} {sent : List (BitVec 8)} {ops : List AciaOp}

/-- The byte is in flight for as many ticks less as the run has, while DTR is held. -/
theorem Acia.InFlight.run (h : a.InFlight val (k + tickCount ops + 1) sent)
    (hheld : ∀ op ∈ ops, ¬op.ClearsDtr) :
    (ops.foldl (aciaStep transport.recorded) a).InFlight val (k + 1) sent := by
  induction ops generalizing a with
  | nil => exact h
  | cons op ops ih =>
    obtain ⟨hop, hheld⟩ := List.forall_mem_cons.mp hheld
    apply ih _ hheld
    by_cases htick : op = .tick
    · subst htick
      have hcount : tickCount (.tick :: ops) = tickCount ops + 1 := List.count_cons_self
      rw [hcount] at h
      exact h.tick transport
    · have hcount : tickCount (op :: ops) = tickCount ops := List.count_cons_of_ne htick
      rw [hcount] at h
      exact h.step transport htick hop

theorem Acia.Idle.run (h : a.Idle sent)
    (hquiet : Each (aciaStep transport.recorded) (fun a op => ¬op.Starts a) a ops) :
    (ops.foldl (aciaStep transport.recorded) a).written = sent := by
  induction ops generalizing a with
  | nil => exact h.written
  | cons op ops ih =>
    obtain ⟨hop, hrest⟩ := hquiet
    exact ih (h.step transport hop) hrest

end Run

/-- Operations after a byte was started: nothing is written before the last tick of its word; that
tick writes it, and nothing follows until another byte is started. -/
structure SendsOnce (transport : AciaTransInterface τ) (a : Acia (τ × List (BitVec 8)))
    (val : BitVec 8) (n : Nat) (ops : List AciaOp) : Prop where
  waits : tickCount ops < n →
    (ops.foldl (aciaStep transport.recorded) (aciaWrite a ACIA_RS_DATA val)).written = a.written
  sends : tickCount ops + 1 = n → ∀ later,
    Each (aciaStep transport.recorded) (fun a op => ¬op.Starts a)
      ((ops ++ [AciaOp.tick]).foldl (aciaStep transport.recorded)
        (aciaWrite a ACIA_RS_DATA val)) later →
    ((ops ++ [AciaOp.tick] ++ later).foldl (aciaStep transport.recorded)
      (aciaWrite a ACIA_RS_DATA val)).written = a.written ++ [val]

/-- A write to the data register with DTR set and no byte in flight, and any operations after it
that leave DTR set. -/
theorem acia_sends_once (transport : AciaTransInterface τ) (a : Acia (τ × List (BitVec 8)))
    (val : BitVec 8) (hdtr : a.dtr = true) (hidle : a.txTicks = 0) (ops : List AciaOp)
    (hheld : ∀ op ∈ ops, ¬op.ClearsDtr) :
    SendsOnce transport a val (aciaGetTicksPerWord a) ops ∧
      aciaGetTicksPerWord a = a.wordHalves * a.bitTicks / 2 := by
  have hstart := Acia.InFlight.start hdtr hidle val
  refine ⟨⟨fun hlt => ?_, fun hlast later hquiet => ?_⟩, ticksPerWord_eq a⟩
  · obtain ⟨k, hk⟩ := Nat.exists_eq_add_of_lt hlt
    have hsplit : aciaGetTicksPerWord a = k + tickCount ops + 1 := by omega
    rw [hsplit] at hstart
    exact (hstart.run hheld).written
  · have hsplit : aciaGetTicksPerWord a = 0 + tickCount ops + 1 := by omega
    rw [hsplit] at hstart
    rw [List.foldl_append]
    apply Acia.Idle.run _ hquiet
    rw [List.foldl_append]
    exact (hstart.run hheld).last transport

/-- An ACIA with DTR set. -/
def opened : Acia (Unit × List (BitVec 8)) := { aciaInit ((), []) with cmdReg := 0x01 }

/-- Another byte, another control register and a status read, and the word but its last tick. -/
def interleaved : List AciaOp :=
  [.write ACIA_RS_DATA 0x42, .write ACIA_RS_CTRL 0x1F, .read ACIA_RS_STATUS] ++
    List.replicate 159 .tick

set_option maxRecDepth 4000 in
theorem interleaved_sends_once :
    ((interleaved ++ [AciaOp.tick] ++ []).foldl (aciaStep nothingToReceive.recorded)
      (aciaWrite opened ACIA_RS_DATA 0x41)).written = [0x41] :=
  (acia_sends_once nothingToReceive opened 0x41 (by decide) (by decide) interleaved
    (by decide)).1.sends (by decide) [] trivial

/-- Words of five bits with one and a half stop bits, at the bit time of 16769 ticks. -/
def oddBitTime : Acia Unit := { aciaInit () with ctlReg := 0xE3 }

/-- The word would be 125767.5 ticks. -/
theorem half_tick_dropped : 2 * aciaGetTicksPerWord oddBitTime ≠
      oddBitTime.wordHalves * oddBitTime.bitTicks ∧
    oddBitTime.wordHalves = 15 ∧ oddBitTime.bitTicks = 16769 ∧
    aciaGetTicksPerWord oddBitTime = 125767 := by
  decide

end Cb6502
