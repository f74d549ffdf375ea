import Cb6502.Acia
import Cb6502.Lib.Mailbox
import Mathlib.Data.List.Induction

/- What becomes of the bytes an ACIA takes from its transport. The transport is given a log of
   its reads (`AciaTransInterface.logged`), which the ACIA does not see (`erase_step`), and a
   run keeps the ledger of the log: a byte that arrives while RDRF is set is discarded, else it
   is held until a read of the data register delivers it. The ACIA is a one-place mailbox
   (`Receiving.Inv`), and a byte is taken only at the end of a full word time. -/
namespace Cb6502

open Mailbox

variable {σ τ : Type}

/-! ## Operations -/

inductive AciaOp where
  | tick
  | read (reg : BitVec 8)
  | write (reg val : BitVec 8)
  deriving DecidableEq

def AciaOp.step (transport : AciaTransInterface τ) (op : AciaOp) (a : Acia τ) : Acia τ :=
  match op with
  | .tick => (aciaTick transport a).1
  | .read reg => (aciaRead a reg).2.1
  | .write reg val => aciaWrite a reg val

/-- `RDRF` is set. -/
def Acia.rdrf (a : Acia τ) : Bool := a.statReg &&& ACIA_STATUS_RDRF != 0

/-- `OVER` is set. -/
def Acia.over (a : Acia τ) : Bool := a.statReg &&& ACIA_STATUS_OVER != 0

/-- The byte returned by a read of the data register that finds RDRF set. -/
def AciaOp.returns (op : AciaOp) (a : Acia τ) : Option (BitVec 8) :=
  match op with
  | .read reg => if reg = ACIA_RS_DATA ∧ a.rdrf = true then some (aciaRead a reg).1 else none
  | .tick | .write _ _ => none

/-! ## Transports over a larger state -/

/-- The transport `transport` does what `transport'` does, in the part `f` of its state. -/
structure AciaTransInterface.Maps (transport : AciaTransInterface σ)
    (transport' : AciaTransInterface τ) (f : σ → τ) : Prop where
  available : ∀ s, transport'.available (f s) =
    ((transport.available s).1, f (transport.available s).2)
  read : ∀ s, transport'.read (f s) = ((transport.read s).1, f (transport.read s).2)
  write : ∀ val s, transport'.write val (f s) = f (transport.write val s)

/-- The ACIA over that part. -/
def Acia.map (f : σ → τ) (a : Acia σ) : Acia τ := { a with transHandle := f a.transHandle }

section Maps
variable {transport : AciaTransInterface σ} {transport' : AciaTransInterface τ} {f : σ → τ}
  (h : transport.Maps transport' f) (a : Acia σ)
include h

theorem map_tickRx : (aciaTickRx transport a).1.map f = (aciaTickRx transport' (a.map f)).1 := by
  simp only [aciaTickRx, Acia.map, h.read, h.available]
  split
  · split
    · split
      · split <;> rfl
      · rfl
    · rfl
  · split <;> rfl

theorem map_tick : (aciaTick transport a).1.map f = (aciaTick transport' (a.map f)).1 := by
  have hrx := map_tickRx h a
  simp only [aciaTick, ← hrx]
  simp only [Acia.map, h.write]
  split
  · split <;> rfl
  · rfl

/-- The ACIA only sees the part of the transport. -/
theorem map_step (op : AciaOp) : (op.step transport a).map f = op.step transport' (a.map f) := by
  cases op with
  | tick => exact map_tick h a
  | read reg =>
    show (aciaRead a reg).2.1.map f = (aciaRead (a.map f) reg).2.1
    unfold aciaRead
    repeat' split
    all_goals first | rfl | contradiction
  | write reg val =>
    show (aciaWrite a reg val).map f = aciaWrite (a.map f) reg val
    unfold aciaWrite
    repeat' split
    all_goals first | rfl | contradiction

end Maps

/-! ## The log of the transport -/

/-- The transport, with the bytes read from it written down. -/
def AciaTransInterface.logged (transport : AciaTransInterface τ) :
    AciaTransInterface (τ × List (BitVec 8)) where
  available s := ((transport.available s.1).1, (transport.available s.1).2, s.2)
  read s := ((transport.read s.1).1, (transport.read s.1).2, s.2 ++ [(transport.read s.1).1])
  write val s := (transport.write val s.1, s.2)

/-- The bytes taken from the transport so far. -/
def Acia.taken (a : Acia (τ × List (BitVec 8))) : List (BitVec 8) := a.transHandle.2

/-- The ACIA without the log. -/
def Acia.erase (a : Acia (τ × List (BitVec 8))) : Acia τ :=
  { a with transHandle := a.transHandle.1 }

theorem logged_maps (transport : AciaTransInterface τ) : transport.logged.Maps transport Prod.fst :=
  ⟨fun _ => rfl, fun _ => rfl, fun _ _ => rfl⟩

/-- The ACIA does not see the log. -/
theorem erase_step (transport : AciaTransInterface τ) (a : Acia (τ × List (BitVec 8)))
    (op : AciaOp) : (op.step transport.logged a).erase = op.step transport a.erase :=
  map_step (logged_maps transport) a op

/-! ## What an operation does to the receiver -/

/-- A tick, as the receiver sees it: it waits for a byte or starts a word, counts the word
down, or takes the byte of a full word, which finds RDRF clear or is lost. -/
inductive RxStep (a a' : Acia (τ × List (BitVec 8))) : Prop where
  | waiting (hidle : a.rxTicks = 0) (hstart : a'.rxTicks = 0 ∨
      a'.rxTicks = aciaGetTicksPerWord a ∧ a.cmdReg &&& ACIA_CMD_DTR_MASK ≠ 0)
      (htaken : a'.taken = a.taken) (hstat : a'.rdrf = a.rdrf) (hval : a'.readVal = a.readVal)
  | counting (hticks : a.rxTicks = a'.rxTicks + 1) (hbusy : 0 < a'.rxTicks)
      (htaken : a'.taken = a.taken) (hstat : a'.rdrf = a.rdrf) (hval : a'.readVal = a.readVal)
  | received (val : BitVec 8) (hticks : a.rxTicks = 1) (hdone : a'.rxTicks = 0)
      (htaken : a'.taken = a.taken ++ [val]) (hclear : a.rdrf = false) (hset : a'.rdrf = true)
      (hval : a'.readVal = val)
  | overrun (val : BitVec 8) (hticks : a.rxTicks = 1) (hdone : a'.rxTicks = 0)
      (htaken : a'.taken = a.taken ++ [val]) (hfull : a.rdrf = true) (hset : a'.rdrf = true)
      (hover : a'.over = true) (hval : a'.readVal = a.readVal)

/-- The status bits of a byte received, and of one lost. -/
theorem status_received : ∀ x : BitVec 8, (x ||| ACIA_STATUS_RDRF) &&& ACIA_STATUS_RDRF ≠ 0 ∧
    ((x ||| ACIA_STATUS_RDRF) ||| ACIA_STATUS_IRQ) &&& ACIA_STATUS_RDRF ≠ 0 := by
  decide

theorem status_overrun : ∀ x : BitVec 8, (x ||| ACIA_STATUS_OVER) &&& ACIA_STATUS_OVER ≠ 0 ∧
    (x ||| ACIA_STATUS_OVER) &&& ACIA_STATUS_RDRF = x &&& ACIA_STATUS_RDRF := by
  decide

theorem rdrf_eq_true (a : Acia τ) : a.rdrf = true ↔ a.statReg &&& ACIA_STATUS_RDRF ≠ 0 := bne_iff_ne

theorem rdrf_eq_false (a : Acia τ) : a.rdrf = false ↔ a.statReg &&& ACIA_STATUS_RDRF = 0 := by
  rw [← Bool.not_eq_true, rdrf_eq_true, Decidable.not_not]

section Tick
variable (transport : AciaTransInterface τ) (a : Acia (τ × List (BitVec 8)))

theorem rxStep_tickRx : RxStep a (aciaTickRx transport.logged a).1 := by
  unfold aciaTickRx
  dsimp only [AciaTransInterface.logged]
  split
  · rename_i hbusy
    split
    · rename_i hdone
      have hticks : a.rxTicks = 1 := by omega
      split
      · rename_i hclear
        have hfree : a.rdrf = false := (rdrf_eq_false a).mpr hclear
        split
        · refine .received _ hticks hdone rfl hfree ?_ rfl
          exact (rdrf_eq_true _).mpr (status_received a.statReg).2
        · refine .received _ hticks hdone rfl hfree ?_ rfl
          exact (rdrf_eq_true _).mpr (status_received a.statReg).1
      · rename_i hset
        refine .overrun _ hticks hdone rfl ((rdrf_eq_true a).mpr hset) ?_ ?_ rfl
        · apply (rdrf_eq_true _).mpr
          rw [(status_overrun a.statReg).2]
          exact hset
        · exact bne_iff_ne.mpr (status_overrun a.statReg).1
    · rename_i hmore
      refine .counting ?_ ?_ rfl rfl rfl
      · show a.rxTicks = a.rxTicks - 1 + 1
        omega
      · exact Nat.pos_of_ne_zero hmore
  · rename_i hidle
    have hzero : a.rxTicks = 0 := by omega
    split
    · rename_i hword
      exact .waiting hzero (.inr ⟨rfl, hword.2⟩) rfl rfl rfl
    · exact .waiting hzero (.inl hzero) rfl rfl rfl

/-- The transmitter's part of a tick leaves the receiver alone. -/
theorem RxStep.congr {a a' a'' : Acia (τ × List (BitVec 8))} (h : RxStep a a')
    (hticks : a''.rxTicks = a'.rxTicks) (htaken : a''.taken = a'.taken)
    (hstat : a''.statReg = a'.statReg) (hval : a''.readVal = a'.readVal) : RxStep a a'' := by
  have hrdrf : a''.rdrf = a'.rdrf := by rw [Acia.rdrf, Acia.rdrf, hstat]
  have hover : a''.over = a'.over := by rw [Acia.over, Acia.over, hstat]
  cases h with
  | waiting hidle hstart ht hs hv =>
    rw [← hticks] at hstart
    exact .waiting hidle hstart (htaken.trans ht) (hrdrf.trans hs) (hval.trans hv)
  | counting hcount hbusy ht hs hv =>
    rw [← hticks] at hcount hbusy
    exact .counting hcount hbusy (htaken.trans ht) (hrdrf.trans hs) (hval.trans hv)
  | received val hcount hdone ht hclear hset hv =>
    exact .received val hcount (hticks.trans hdone) (htaken.trans ht) hclear (hrdrf.trans hset)
      (hval.trans hv)
  | overrun val hcount hdone ht hfull hset ho hv =>
    exact .overrun val hcount (hticks.trans hdone) (htaken.trans ht) hfull (hrdrf.trans hset)
      (hover.trans ho) (hval.trans hv)

theorem rxStep_tick : RxStep a (aciaTick transport.logged a).1 := by
  have hrx := rxStep_tickRx transport a
  unfold aciaTick
  dsimp only
  split
  · split
    · exact hrx.congr rfl rfl rfl rfl
    · exact hrx.congr rfl rfl rfl rfl
  · exact hrx

end Tick

/-- A read or a write, as the receiver sees it: it takes nothing, and only the read of a byte
changes RDRF. -/
structure QuietStep (op : AciaOp) (a a' : Acia (τ × List (BitVec 8))) : Prop where
  ticks : a'.rxTicks = a.rxTicks
  taken : a'.taken = a.taken
  val : a'.readVal = a.readVal
  returns : ∀ val, op.returns a = some val → a.rdrf = true ∧ val = a.readVal ∧ a'.rdrf = false
  keeps : op.returns a = none → a'.rdrf = a.rdrf

theorem status_read : ∀ x : BitVec 8, (x &&& ~~~aciaRxReadClearBits) &&& ACIA_STATUS_RDRF = 0 ∧
    (x &&& ~~~ACIA_STATUS_IRQ) &&& ACIA_STATUS_RDRF = x &&& ACIA_STATUS_RDRF ∧
    (x &&& ~~~ACIA_STATUS_SW_RESET_MASK) &&& ACIA_STATUS_RDRF = x &&& ACIA_STATUS_RDRF := by
  decide

theorem quietStep_of_keeps {op : AciaOp} {a a' : Acia (τ × List (BitVec 8))}
    (hreturns : op.returns a = none) (hticks : a'.rxTicks = a.rxTicks) (htaken : a'.taken = a.taken)
    (hval : a'.readVal = a.readVal)
    (hstat : a'.statReg &&& ACIA_STATUS_RDRF = a.statReg &&& ACIA_STATUS_RDRF) : QuietStep op a a' := by
  refine ⟨hticks, htaken, hval, ?_, ?_⟩
  · intro val hsome
    rw [hreturns] at hsome
    cases hsome
  · intro _
    rw [Acia.rdrf, Acia.rdrf, hstat]

theorem quietStep_read (a : Acia (τ × List (BitVec 8))) (reg : BitVec 8) :
    QuietStep (.read reg) a (aciaRead a reg).2.1 := by
  by_cases hdata : reg = ACIA_RS_DATA
  · by_cases hrdrf : a.rdrf = true
    · -- the byte is returned and RDRF is cleared
      have hset : a.statReg &&& ACIA_STATUS_RDRF ≠ 0 := (rdrf_eq_true a).mp hrdrf
      have hread : aciaRead a reg =
          (a.readVal, { a with statReg := a.statReg &&& ~~~aciaRxReadClearBits }, []) := by
        rw [aciaRead, if_pos hdata, if_pos hset]
      have hreturns : AciaOp.returns (.read reg) a = some a.readVal := by
        rw [AciaOp.returns, if_pos ⟨hdata, hrdrf⟩, hread]
      rw [hread]
      refine ⟨rfl, rfl, rfl, ?_, ?_⟩
      · intro val hsome
        rw [hreturns] at hsome
        exact ⟨hrdrf, (Option.some.inj hsome).symm, (rdrf_eq_false _).mpr (status_read a.statReg).1⟩
      · intro hnone
        rw [hreturns] at hnone
        cases hnone
    · have hset : ¬a.statReg &&& ACIA_STATUS_RDRF ≠ 0 := (not_congr (rdrf_eq_true a)).mp hrdrf
      have hread : (aciaRead a reg).2.1 = a := by rw [aciaRead, if_pos hdata, if_neg hset]
      rw [hread]
      exact quietStep_of_keeps (if_neg fun h => hrdrf h.2) rfl rfl rfl rfl
  · have hreturns : AciaOp.returns (.read reg) a = none := if_neg fun h => hdata h.1
    unfold aciaRead
    rw [if_neg hdata]
    split
    · exact quietStep_of_keeps hreturns rfl rfl rfl (status_read a.statReg).2.1
    · split
      · exact quietStep_of_keeps hreturns rfl rfl rfl rfl
      · split <;> exact quietStep_of_keeps hreturns rfl rfl rfl rfl

theorem quietStep_write (a : Acia (τ × List (BitVec 8))) (reg val : BitVec 8) :
    QuietStep (.write reg val) a (aciaWrite a reg val) := by
  have hkeeps : ∀ a' : Acia (τ × List (BitVec 8)), a'.rxTicks = a.rxTicks → a'.taken = a.taken →
      a'.readVal = a.readVal → a'.statReg = a.statReg → QuietStep (.write reg val) a a' := by
    intro a' hticks htaken hval hstat
    exact quietStep_of_keeps rfl hticks htaken hval (by rw [hstat])
  unfold aciaWrite
  split
  · split
    · split <;> exact hkeeps _ rfl rfl rfl rfl
    · exact hkeeps _ rfl rfl rfl rfl
  · split
    · exact quietStep_of_keeps rfl rfl rfl rfl (status_read a.statReg).2.2
    · split
      · exact hkeeps _ rfl rfl rfl rfl
      · split <;> exact hkeeps _ rfl rfl rfl rfl

theorem quietStep (transport : AciaTransInterface τ) {op : AciaOp} (h : op ≠ .tick)
    (a : Acia (τ × List (BitVec 8))) : QuietStep op a (op.step transport.logged a) := by
  cases op with
  | tick => exact absurd rfl h
  | read reg => exact quietStep_read a reg
  | write reg val => exact quietStep_write a reg val

/-! ## Runs -/

/-- The bytes the operation takes from the transport. -/
def AciaOp.takes (transport : AciaTransInterface τ) (op : AciaOp) (a : Acia (τ × List (BitVec 8))) :
    List (BitVec 8) :=
  (op.step transport.logged a).taken.drop a.taken.length

/-- An ACIA with the ledger of the bytes it took, and the bytes that reads returned. -/
structure Receiving (τ : Type) where
  acia : Acia (τ × List (BitVec 8))
  ledger : Ledger (BitVec 8)
  returned : List (BitVec 8)

/-- After `acia_init`, wherever the ACIA is registered. -/
def Receiving.start (t : τ) (busHandle : Option Nat) (base : BitVec 16) (voter : BitVec 32) :
    Receiving τ where
  acia := { aciaInit (t, []) with busHandle, base, voter }
  ledger := []
  returned := []

/-- A byte returned is delivered; a byte taken finds the mailbox full if RDRF is set. -/
def Receiving.step (transport : AciaTransInterface τ) (r : Receiving τ) (op : AciaOp) :
    Receiving τ where
  acia := op.step transport.logged r.acia
  ledger := (op.takes transport r.acia).foldl (fun l val => l.arrive val r.acia.rdrf)
    (if (op.returns r.acia).isSome then r.ledger.deliver else r.ledger)
  returned := r.returned ++ (op.returns r.acia).toList

def Receiving.run (transport : AciaTransInterface τ) (r : Receiving τ) (ops : List AciaOp) :
    Receiving τ :=
  ops.foldl (Receiving.step transport) r

/-- What the ACIA holds. -/
def Acia.received (a : Acia τ) : Option (BitVec 8) := if a.rdrf then some a.readVal else none

/-- The ledger has the bytes taken, and agrees with the ACIA. -/
structure Receiving.Inv (r : Receiving τ) : Prop where
  items : r.ledger.items = r.acia.taken
  balanced : Balanced r.ledger r.returned r.acia.received

section Step
variable {transport : AciaTransInterface τ} {op : AciaOp} {a : Acia (τ × List (BitVec 8))}

theorem takes_nil (h : (op.step transport.logged a).taken = a.taken) : op.takes transport a = [] := by
  rw [AciaOp.takes, h, List.drop_length]

theorem takes_one {val : BitVec 8} (h : (op.step transport.logged a).taken = a.taken ++ [val]) :
    op.takes transport a = [val] := by
  rw [AciaOp.takes, h, List.drop_left]

theorem received_congr {a a' : Acia τ} (hstat : a'.rdrf = a.rdrf) (hval : a'.readVal = a.readVal) :
    a'.received = a.received := by
  rw [Acia.received, Acia.received, hstat, hval]

/-- An operation that takes and returns nothing. -/
theorem Receiving.Inv.idle {r : Receiving τ} (h : r.Inv) (hreturns : op.returns r.acia = none)
    (htaken : (op.step transport.logged r.acia).taken = r.acia.taken)
    (hreceived : (op.step transport.logged r.acia).received = r.acia.received) :
    (r.step transport op).Inv := by
  have hledger : (r.step transport op).ledger = r.ledger := by
    simp only [Receiving.step, takes_nil htaken, hreturns, List.foldl_nil, Option.isSome_none,
      Bool.false_eq_true, if_false]
  have hout : (r.step transport op).returned = r.returned := by
    simp only [Receiving.step, hreturns, Option.toList_none, List.append_nil]
  refine ⟨?_, ?_⟩
  · rw [hledger, h.items]
    exact htaken.symm
  · rw [hledger, hout, show (r.step transport op).acia.received = r.acia.received from hreceived]
    exact h.balanced

theorem Receiving.Inv.tick {r : Receiving τ} (h : r.Inv) : (r.step transport .tick).Inv := by
  have hreturns : AciaOp.returns .tick r.acia = none := rfl
  have hstep : RxStep r.acia (AciaOp.step transport.logged .tick r.acia) := rxStep_tick transport r.acia
  have harrive : ∀ val, (AciaOp.step transport.logged .tick r.acia).taken = r.acia.taken ++ [val] →
      (r.step transport .tick).ledger = r.ledger.arrive val r.acia.rdrf := by
    intro val htaken
    simp only [Receiving.step, takes_one htaken, hreturns, List.foldl_cons, List.foldl_nil,
      Option.isSome_none, Bool.false_eq_true, if_false]
  have hout : (r.step transport .tick).returned = r.returned := List.append_nil _
  cases hstep with
  | waiting _ _ htaken hstat hval => exact h.idle hreturns htaken (received_congr hstat hval)
  | counting _ _ htaken hstat hval => exact h.idle hreturns htaken (received_congr hstat hval)
  | received val _ _ htaken hclear hset hval =>
    -- the byte arrives in the empty mailbox
    have hbalanced := h.balanced
    rw [Acia.received, hclear, if_neg Bool.false_ne_true] at hbalanced
    refine ⟨?_, ?_⟩
    · rw [harrive val htaken, items_arrive, h.items]
      exact htaken.symm
    · rw [harrive val htaken, hout, hclear]
      show Balanced _ _ (Acia.received (AciaOp.step transport.logged .tick r.acia))
      rw [Acia.received, hset, if_pos rfl, hval]
      exact hbalanced.arrive_empty val
  | overrun val _ _ htaken hfull hset _ hval =>
    -- the byte arrives and is discarded, what was held stays
    refine ⟨?_, ?_⟩
    · rw [harrive val htaken, items_arrive, h.items]
      exact htaken.symm
    · rw [harrive val htaken, hout, hfull]
      show Balanced _ _ (Acia.received (AciaOp.step transport.logged .tick r.acia))
      rw [received_congr (hset.trans hfull.symm) hval]
      exact h.balanced.arrive_full val

theorem Receiving.Inv.step {r : Receiving τ} (h : r.Inv) : (r.step transport op).Inv := by
  by_cases htick : op = .tick
  · subst htick
    exact h.tick
  · have hquiet := quietStep transport htick r.acia
    cases hreturns : op.returns r.acia with
    | none =>
      exact h.idle hreturns hquiet.taken (received_congr (hquiet.keeps hreturns) hquiet.val)
    | some val =>
      -- the byte held is delivered
      obtain ⟨hfull, hval, hclear⟩ := hquiet.returns val hreturns
      have hbalanced := h.balanced
      rw [Acia.received, hfull, if_pos rfl, ← hval] at hbalanced
      have hledger : (r.step transport op).ledger = r.ledger.deliver := by
        simp only [Receiving.step, takes_nil hquiet.taken, hreturns, List.foldl_nil,
          Option.isSome_some, if_true]
      refine ⟨?_, ?_⟩
      · rw [hledger, items_deliver, h.items]
        exact hquiet.taken.symm
      · rw [hledger]
        show Balanced _ (r.returned ++ (op.returns r.acia).toList)
          (Acia.received (op.step transport.logged r.acia))
        rw [hreturns, Acia.received, hclear, if_neg Bool.false_ne_true]
        exact hbalanced.deliver

end Step

section Runs
variable (transport : AciaTransInterface τ) (r : Receiving τ)

theorem run_snoc (ops : List AciaOp) (op : AciaOp) :
    r.run transport (ops ++ [op]) = (r.run transport ops).step transport op := by
  simp [Receiving.run]

theorem Receiving.Inv.run (h : r.Inv) (ops : List AciaOp) : (r.run transport ops).Inv := by
  induction ops using List.reverseRecOn with
  | nil => exact h
  | append_singleton ops op ih =>
    rw [run_snoc]
    exact ih.step

/-- A word begun in a run: by a tick that found DTR set, with the ticks since then and the ticks
still to come making up the word, and nothing taken in between. -/
def WordBegun (ops : List AciaOp) (a : Acia (τ × List (BitVec 8))) : Prop :=
  ∃ pre post, ops = pre ++ .tick :: post ∧
    (r.run transport pre).acia.cmdReg &&& ACIA_CMD_DTR_MASK ≠ 0 ∧
    post.count .tick + a.rxTicks = aciaGetTicksPerWord (r.run transport pre).acia ∧
    (r.run transport pre).acia.taken = a.taken

theorem wordBegun_snoc {ops : List AciaOp} {op : AciaOp} {a a' : Acia (τ × List (BitVec 8))}
    (h : WordBegun transport r ops a) (htaken : a'.taken = a.taken)
    (hticks : a'.rxTicks + (if op = .tick then 1 else 0) = a.rxTicks) :
    WordBegun transport r (ops ++ [op]) a' := by
  obtain ⟨pre, post, hops, hdtr, hcount, hbegun⟩ := h
  refine ⟨pre, post ++ [op], ?_, hdtr, ?_, hbegun.trans htaken.symm⟩
  · rw [hops, List.append_assoc, List.cons_append]
  · rw [← hcount, List.count_append, List.count_singleton]
    split at hticks
    · rename_i htick
      rw [htick, if_pos (by decide)]
      omega
    · rename_i htick
      rw [if_neg (by simpa using htick)]
      omega

/-- While a word is counted down it was begun. -/
theorem wordBegun_of_run (hstart : r.acia.rxTicks = 0) (ops : List AciaOp)
    (hbusy : 0 < (r.run transport ops).acia.rxTicks) :
    WordBegun transport r ops (r.run transport ops).acia := by
  induction ops using List.reverseRecOn with
  | nil =>
    have hzero : (r.run transport []).acia.rxTicks = 0 := hstart
    omega
  | append_singleton ops op ih =>
    rw [run_snoc] at hbusy ⊢
    by_cases htick : op = .tick
    · subst htick
      cases rxStep_tick transport (r.run transport ops).acia with
      | waiting hidle hbegin htaken =>
        -- the word begins here
        rcases hbegin with hzero | ⟨hword, hdtr⟩
        · exact absurd hzero (Nat.ne_of_gt hbusy)
        · refine ⟨ops, [], rfl, hdtr, ?_, htaken.symm⟩
          rw [List.count_nil, Nat.zero_add]
          exact hword
      | counting hticks _ htaken =>
        -- the word goes on
        apply wordBegun_snoc transport r (ih (by omega)) htaken
        rw [if_pos rfl]
        exact hticks.symm
      | received val _ hdone => exact absurd hdone (Nat.ne_of_gt hbusy)
      | overrun val _ hdone => exact absurd hdone (Nat.ne_of_gt hbusy)
    · have hquiet := quietStep transport htick (r.run transport ops).acia
      -- reads and writes leave the countdown alone
      have hbefore : 0 < (r.run transport ops).acia.rxTicks := by
        rw [← hquiet.ticks]
        exact hbusy
      apply wordBegun_snoc transport r (ih hbefore) hquiet.taken
      rw [if_neg htick]
      exact hquiet.ticks

/-- What it takes to take a byte. -/
theorem takes_cases {op : AciaOp} {a : Acia (τ × List (BitVec 8))} (h : op.takes transport a ≠ []) :
    op = .tick ∧ a.rxTicks = 1 ∧ (a.rdrf = true → (op.step transport.logged a).over = true) := by
  by_cases htick : op = .tick
  · subst htick
    refine ⟨rfl, ?_⟩
    have hstep : RxStep a (AciaOp.step transport.logged .tick a) := rxStep_tick transport a
    cases hstep with
    | waiting _ _ htaken => exact absurd (takes_nil htaken) h
    | counting _ _ htaken => exact absurd (takes_nil htaken) h
    | received val hticks _ _ hclear =>
      refine ⟨hticks, fun hfull => ?_⟩
      rw [hclear] at hfull
      cases hfull
    | overrun val hticks _ _ _ _ hover => exact ⟨hticks, fun _ => hover⟩
  · exact absurd (takes_nil (quietStep transport htick a).taken) h

end Runs

theorem Receiving.start_inv (t : τ) (busHandle : Option Nat) (base : BitVec 16) (voter : BitVec 32) :
    (Receiving.start t busHandle base voter).Inv := by
  have hclear : (Receiving.start t busHandle base voter).acia.rdrf = false :=
    (rdrf_eq_false _).mpr (by show ACIA_STATUS_TDRE &&& ACIA_STATUS_RDRF = 0; decide)
  refine ⟨rfl, ?_⟩
  rw [Acia.received, hclear, if_neg Bool.false_ne_true]
  exact balanced_nil

/-- Every byte taken from the transport is in the ledger, in order, and has one fate: the
delivered bytes are those the reads returned, in order, the held byte is the one in the
receive register while RDRF is set, and the others were discarded when they found RDRF set and
set OVER. A byte is taken by the last tick of a word, begun by a tick that found DTR set, and
the word has the length of the registers at that time. -/
theorem acia_conserves_received (transport : AciaTransInterface τ) (t : τ) (busHandle : Option Nat)
    (base : BitVec 16) (voter : BitVec 32) (ops : List AciaOp) :
    let start := Receiving.start t busHandle base voter
    let r := start.run transport ops
    r.ledger.items = r.acia.taken ∧
    r.ledger.withFate .delivered = r.returned ∧
    r.ledger.withFate .held = (if r.acia.rdrf then [r.acia.readVal] else []) ∧
    ∀ op : AciaOp, op.takes transport r.acia ≠ [] →
      op = .tick ∧ (r.acia.rdrf = true → (op.step transport.logged r.acia).over = true) ∧
      ∃ pre post, ops = pre ++ .tick :: post ∧
        (start.run transport pre).acia.cmdReg &&& ACIA_CMD_DTR_MASK ≠ 0 ∧
        (post ++ [op]).count .tick = aciaGetTicksPerWord (start.run transport pre).acia ∧
        (start.run transport pre).acia.taken = r.acia.taken := by
  intro start r
  have hstart : start.Inv := Receiving.start_inv t busHandle base voter
  have hinv : r.Inv := Receiving.Inv.run transport start hstart ops
  refine ⟨hinv.items, hinv.balanced.delivered, ?_, ?_⟩
  · rw [hinv.balanced.held, Acia.received]
    split <;> rfl
  · intro op htakes
    -- a byte is taken when one tick of its word is left
    obtain ⟨htick, hticks, hover⟩ := takes_cases transport htakes
    have hbusy : 0 < r.acia.rxTicks := by omega
    obtain ⟨pre, post, hops, hdtr, hcount, hbegun⟩ := wordBegun_of_run transport start rfl ops hbusy
    refine ⟨htick, hover, pre, post, hops, hdtr, ?_, hbegun⟩
    rw [← hcount, htick, List.count_append, List.count_singleton]
    show post.count .tick + 1 = post.count .tick + r.acia.rxTicks
    rw [hticks]

/-- A transport that delivers the bytes of a list. -/
def listTransport : AciaTransInterface (List (BitVec 8)) where
  available bytes := (!bytes.isEmpty, bytes)
  read bytes := (bytes.headD 0, bytes.tail)
  write _ bytes := bytes

/-- Words of 112 ticks: the first byte is read, the second is held, the third is lost. -/
example :
    let r := (Receiving.start [0x41, 0x42, 0x43] none 0 0).run listTransport
      ([.write 3 0x60, .write 2 0x01] ++ List.replicate 113 .tick ++ [.read 0] ++
        List.replicate 226 .tick)
    r.returned = [0x41] ∧
      r.ledger = [(0x41, .delivered), (0x42, .held), (0x43, .discarded)] := by
  decide +kernel

end Cb6502
