import Cb6502.ViaPorts
import Cb6502.ViaTimer
import Cb6502.Lib.Steps
import Cb6502.Lib.InputPort

/- Input latching of the two ports.

   Each port of a VIA is an input port (`Via.inputPort`), and each operation of the VIA is an
   operation of it or none (`ViaOp.forPort`). The two differ from ports with latches of their own
   in one way: a write of either direction register asks the latch bit of port A
   (`ViaOp.inputPort_step`).

   What is proved:
     1. `latching_mirrored_iff` (a run and the run with the ports swapped show each other's input
        registers, directions and reads, and what happens at the other port does not reach the
        input register of a port, exactly if each write of a direction register finds that the
        two latch bits make no difference).
     2. `port_transparent_iff` (without latching a port reads as its pins are driven, exactly if the
        input register holds the inputs wherever latching is turned off, or pins turn to inputs
        and are not latched). -/
namespace Cb6502

open InputPort (Port)

/-! ## Ports of a VIA as input ports -/

/-- `pa_latch` or `pb_latch` of a value of ACR. -/
def acrLatch (acr : BitVec 8) (porta : Bool) : Bool := if porta then acr.getLsbD 0 else acr.getLsbD 1

/-- `ca1_ctrl` or `cb1_ctrl` of a value of PCR. -/
def pcrC1 (pcr : BitVec 8) (porta : Bool) : Bool := if porta then pcr.getLsbD 0 else pcr.getLsbD 4

def ViaPortState.input (p : ViaPortState) (acr pcr : BitVec 8) (porta : Bool) : Port 8 where
  ir := p.ir
  or := p.or
  ddr := p.ddr
  pinIn := p.pinIn
  c1In := p.c1In
  latch := acrLatch acr porta
  active := pcrC1 pcr porta

def Via.inputPort (v : Via) (porta : Bool) : Port 8 := (v.port porta).input v.acr v.pcr porta

/-- What a write of a register is for a port. -/
def ViaReg.forPort (reg : ViaReg) (val : BitVec 8) (porta : Bool) : Option (InputPort.Op 8) :=
  if reg = ddrReg porta then some (.turn val)
  else if reg = dataReg porta then some (.put val)
  else if reg = .pcr then some (.select (pcrC1 val porta))
  else if reg = .acr then some (.latch (acrLatch val porta))
  else none

/-- What an operation of the VIA is for a port. -/
def ViaOp.forPort (op : ViaOp) (porta : Bool) : Option (InputPort.Op 8) :=
  match op with
  | .write reg val => (viaReg reg).bind fun reg => reg.forPort val porta
  | .dataPort porta' mask data => if porta' = porta then some (.drive mask data) else none
  | .ctrl pin val => if pin = c1Pin porta then some (.edge val) else none
  | .read _ | .clock _ => none

/-- A port after an operation, or none, where `take` is whether pins that turn to inputs are
latched. -/
def portStep (take : Bool) (p : Port 8) (op : Option (InputPort.Op 8)) : Port 8 :=
  op.elim p (p.stepWith take)

section Ports
variable (v : Via) (porta : Bool)

theorem Via.inputPort_latch : (v.inputPort porta).latch = v.latch porta := rfl

theorem input_c1Driven (latch active handshake val : Bool) (p : ViaPortState) (acr pcr : BitVec 8)
    (hlatch : acrLatch acr porta = latch) (hactive : pcrC1 pcr porta = active) :
    (p.c1Driven latch active handshake val).input acr pcr porta =
      (p.input acr pcr porta).stepWith v.paLatch (.edge val) := by
  subst hlatch hactive
  unfold ViaPortState.c1Driven Port.stepWith
  dsimp only
  by_cases hsame : val = p.c1In
  · rw [if_pos hsame]
    exact (if_pos hsame).symm
  · rw [if_neg hsame]
    refine Eq.trans ?_ (if_neg hsame).symm
    by_cases hactive : val = pcrC1 pcr porta
    · rw [if_pos hactive]
      exact (if_pos hactive).symm
    · rw [if_neg hactive]
      exact (if_neg hactive).symm

theorem input_driven (latch : Bool) (mask data : BitVec 8) (p : ViaPortState) (acr pcr : BitVec 8)
    (hlatch : acrLatch acr porta = latch) :
    (p.driven latch mask data).input acr pcr porta =
      (p.input acr pcr porta).stepWith v.paLatch (.drive mask data) := by
  subst hlatch
  unfold ViaPortState.driven Port.stepWith
  dsimp only
  by_cases hmask : mask = 0
  · rw [if_pos hmask]
    exact (if_pos hmask).symm
  · rw [if_neg hmask]
    exact (if_neg hmask).symm

/-- A write of a register, for a port. -/
theorem input_portWritten (reg : ViaReg) (val : BitVec 8) :
    (v.portWritten reg val porta).input (if reg = .acr then val else v.acr)
        (if reg = .pcr then val else v.pcr) porta =
      portStep v.paLatch (v.inputPort porta) (reg.forPort val porta) := by
  cases porta <;> cases reg <;> rfl

/-- Every operation is what it is for the port, but that port B asks the latch bit of port A, too. -/
theorem ViaOp.inputPort_step (op : ViaOp) :
    (op.step v).via.inputPort porta = portStep v.paLatch (v.inputPort porta) (op.forPort porta) := by
  have hmade := op.made v
  have hafter : (op.step v).via.inputPort porta =
      (op.portAfter v porta).input (op.acrAfter v.acr) (op.pcrAfter v.pcr) porta := by
    unfold Via.inputPort
    rw [hmade.port, hmade.acr, hmade.pcr]
  rw [hafter]
  cases op with
  | write reg val =>
    unfold ViaOp.acrAfter ViaOp.pcrAfter ViaOp.forPort
    dsimp only
    cases hreg : viaReg reg with
    | none =>
      rw [ViaOp.portAfter_write_none hreg]
      rfl
    | some r =>
      rw [ViaOp.portAfter_write hreg, Option.bind_some, ← input_portWritten]
      simp only [Option.some.injEq]
  | read reg =>
    unfold ViaOp.portAfter
    dsimp only
    split <;> rfl
  | dataPort porta' mask data =>
    unfold ViaOp.portAfter ViaOp.forPort
    dsimp only
    split
    · exact input_driven v porta _ _ _ _ _ _ rfl
    · rfl
  | ctrl pin val =>
    unfold ViaOp.portAfter ViaOp.forPort
    dsimp only
    split
    · exact input_c1Driven v porta _ _ _ _ _ _ _ rfl rfl
    · split <;> rfl
  | clock edge => rfl

end Ports

/-! ## Reads -/

/-- The register number of the data register. -/
def dataNum (porta : Bool) : BitVec 8 := if porta then 1 else 0

theorem viaReadReg_data (s : ViaStep) (porta : Bool) :
    (viaReadReg s (dataReg porta)).1 = (s.via.inputPort porta).read := by
  cases porta with
  | true =>
    have hcleared := PortsKept.clearIfr s IFR_CA1
    have hread := readHandshake_written (viaClearIfr s IFR_CA1)
    have hport := hread.port true
    rw [hcleared.port] at hport
    have hvalue : (viaReadReg s .dataa).1 =
        mergeBits ((readHandshake (viaClearIfr s IFR_CA1)).via.port true).or
          ((readHandshake (viaClearIfr s IFR_CA1)).via.port true).ir
          ((readHandshake (viaClearIfr s IFR_CA1)).via.port true).ddr := rfl
    show (viaReadReg s .dataa).1 = _
    rw [hvalue, hport]
    rfl
  | false =>
    have hport := (PortsKept.clearIfr s IFR_CB1).port false
    have hvalue : (viaReadReg s .datab).1 =
        mergeBits ((viaClearIfr s IFR_CB1).via.port false).or
          ((viaClearIfr s IFR_CB1).via.port false).ir
          ((viaClearIfr s IFR_CB1).via.port false).ddr := rfl
    show (viaReadReg s .datab).1 = _
    rw [hvalue, hport]
    rfl

/-- A read of port A or B is the read of the input port. -/
theorem viaRead_data (v : Via) (porta : Bool) :
    (viaRead v (dataNum porta)).1 = (v.inputPort porta).read := by
  have hread := viaReadReg_data { via := v } porta
  cases porta <;> exact hread

/-! ## The ports swapped -/

def ViaReg.swap : ViaReg → ViaReg
  | .datab => .dataa
  | .dataa => .datab
  | .ddrb => .ddra
  | .ddra => .ddrb
  | reg => reg

def ViaCtrlPin.swap : ViaCtrlPin → ViaCtrlPin
  | .ca1 => .cb1
  | .ca2 => .cb2
  | .cb1 => .ca1
  | .cb2 => .ca2

/-- The register number with the ports swapped: `DATAA` and `DATAB` are 1 and 0, `DDRA` and `DDRB`
3 and 2. -/
def swapNum (reg : BitVec 8) : BitVec 8 := if reg ≤ 3 then reg ^^^ 1 else reg

/-- ACR with the latch bits swapped. -/
def swapAcr (acr : BitVec 8) : BitVec 8 :=
  (acr &&& 0xFC) ||| ((acr &&& 0x01) <<< 1) ||| ((acr &&& 0x02) >>> 1)

/-- PCR with its halves swapped. -/
def swapPcr (pcr : BitVec 8) : BitVec 8 := (pcr <<< 4) ||| (pcr >>> 4)

/-- A register's value with the ports swapped. -/
def ViaReg.swapVal (reg : ViaReg) (val : BitVec 8) : BitVec 8 :=
  match reg with
  | .acr => swapAcr val
  | .pcr => swapPcr val
  | _ => val

/-- An operation with the ports swapped. -/
def ViaOp.swap : ViaOp → ViaOp
  | .write reg val => .write (swapNum reg) (((viaReg reg).map fun reg => reg.swapVal val).getD val)
  | .read reg => .read (swapNum reg)
  | .dataPort porta mask data => .dataPort (!porta) mask data
  | .ctrl pin val => .ctrl pin.swap val
  | .clock edge => .clock edge

theorem viaReg_swapNum : ∀ reg, viaReg (swapNum reg) = (viaReg reg).map ViaReg.swap := by decide

theorem acrLatch_swap : ∀ acr porta, acrLatch (swapAcr acr) porta = acrLatch acr (!porta) := by decide

theorem pcrC1_swap : ∀ pcr porta, pcrC1 (swapPcr pcr) porta = pcrC1 pcr (!porta) := by decide

theorem ViaReg.swap_forPort (reg : ViaReg) (val : BitVec 8) (porta : Bool) :
    reg.swap.forPort (reg.swapVal val) porta = reg.forPort val (!porta) := by
  cases reg with
  | acr =>
    have hlatch : ∀ val porta, ViaReg.forPort .acr val porta = some (.latch (acrLatch val porta)) := by
      intro val porta
      cases porta <;> rfl
    show ViaReg.forPort .acr (swapAcr val) porta = _
    rw [hlatch, hlatch, acrLatch_swap]
  | pcr =>
    have hselect : ∀ val porta, ViaReg.forPort .pcr val porta = some (.select (pcrC1 val porta)) := by
      intro val porta
      cases porta <;> rfl
    show ViaReg.forPort .pcr (swapPcr val) porta = _
    rw [hselect, hselect, pcrC1_swap]
  | datab | dataa | ddrb | ddra | t1cl | t1ch | t1ll | t1lh | t2cl | t2ch | sr | ifr | ier | da2 =>
    cases porta <;> rfl

/-- The swapped operation is for a port what the operation is for the other. -/
theorem ViaOp.swap_forPort (op : ViaOp) (porta : Bool) :
    op.swap.forPort porta = op.forPort (!porta) := by
  cases op with
  | write reg val =>
    unfold ViaOp.swap ViaOp.forPort
    dsimp only
    rw [viaReg_swapNum]
    cases viaReg reg with
    | none => rfl
    | some r => exact r.swap_forPort val porta
  | read reg => rfl
  | dataPort porta' mask data => cases porta' <;> cases porta <;> rfl
  | ctrl pin val => cases pin <;> cases porta <;> rfl
  | clock edge => rfl

/-! ## Mirrored runs -/

/-- The input registers, the directions and what reads of the two ports return are swapped. -/
def Mirrored (v v' : Via) : Prop :=
  ∀ porta, (v'.port porta).ir = (v.port !porta).ir ∧ (v'.port porta).ddr = (v.port !porta).ddr ∧
    (viaRead v' (dataNum porta)).1 = (viaRead v (dataNum !porta)).1

/-- Where the operation is a write of the direction register of the port, the latch bits of the two
ports are equal, or the input register holds the level of each pin that turns to an input. -/
def ViaOp.EvenHanded (op : ViaOp) (v : Via) (porta : Bool) : Prop :=
  ∀ val, op.forPort porta = some (.turn val) →
    v.paLatch = v.pbLatch ∨ (v.inputPort porta).stale &&& (v.inputPort porta).turned val = 0

theorem ViaOp.evenHanded_iff (op : ViaOp) (v : Via) (porta : Bool) : op.EvenHanded v porta ↔
    portStep v.paLatch (v.inputPort porta) (op.forPort porta) =
      portStep v.pbLatch (v.inputPort porta) (op.forPort porta) := by
  unfold ViaOp.EvenHanded portStep
  cases op.forPort porta with
  | none => exact iff_of_true (fun _ h => nomatch h) rfl
  | some o =>
    refine Iff.trans ?_ (InputPort.stepWith_eq_iff o v.paLatch v.pbLatch).symm
    exact forall_congr' fun val => by rw [Option.some.injEq]

theorem portStep_like {p p' : Port 8} (h : p.Like p') (take take' : Bool)
    (op : Option (InputPort.Op 8)) : (portStep take p op).Like (portStep take' p' op) := by
  cases op with
  | none => exact h
  | some o => exact h.stepWith take take' o

/-- A run and the run with the ports swapped, step by step. -/
def pairStep (s : Via × Via) (op : ViaOp) : Via × Via := ((op.step s.1).via, (op.swap.step s.2).via)

/-- But for the input registers, the ports are swapped. -/
def PairLike (s : Via × Via) : Prop := ∀ porta, (s.1.inputPort !porta).Like (s.2.inputPort porta)

theorem pairLike_step (s : Via × Via) (op : ViaOp) (h : PairLike s) : PairLike (pairStep s op) := by
  intro porta
  unfold pairStep
  rw [ViaOp.inputPort_step, ViaOp.inputPort_step, ViaOp.swap_forPort]
  exact portStep_like (h porta) _ _ _

theorem mirrored_iff {s : Via × Via} (h : PairLike s) :
    Mirrored s.1 s.2 ↔ ∀ porta, s.1.inputPort (!porta) = s.2.inputPort porta := by
  refine forall_congr' fun porta => ?_
  constructor
  · rintro ⟨hir, -⟩
    exact (h porta).eq hir.symm
  · intro heq
    rw [viaRead_data, viaRead_data, heq]
    exact ⟨(congrArg Port.ir heq).symm, (congrArg Port.ddr heq).symm, rfl⟩

theorem mirrored_step_iff (s : Via × Via) (op : ViaOp) (h : PairLike s) (hs : Mirrored s.1 s.2) :
    Mirrored (pairStep s op).1 (pairStep s op).2 ↔ ∀ porta, op.EvenHanded s.1 porta := by
  rw [mirrored_iff (pairLike_step s op h)]
  rw [mirrored_iff h] at hs
  have hlatch : s.2.paLatch = s.1.pbLatch := (congrArg Port.latch (hs true)).symm
  have hstep : ∀ porta, (pairStep s op).1.inputPort (!porta) = (pairStep s op).2.inputPort porta ↔
      op.EvenHanded s.1 (!porta) := by
    intro porta
    unfold pairStep
    rw [ViaOp.inputPort_step, ViaOp.inputPort_step, ViaOp.swap_forPort, ← hs, hlatch,
      ViaOp.evenHanded_iff]
  rw [forall_congr' hstep]
  constructor
  · intro heven porta
    have hport := heven !porta
    rw [Bool.not_not] at hport
    exact hport
  · intro heven porta
    exact heven !porta

/-! ## Ports apart -/

/-- A port after the operations of a run that are its own: the writes of its registers, the levels
of its pins, and its bits of ACR and PCR. -/
def ownPort (v : Via) (porta : Bool) (ops : List ViaOp) : Port 8 :=
  (ops.filterMap fun op => op.forPort porta).foldl Port.step (v.inputPort porta)

/-- A VIA and one of its ports by itself, step by step. -/
def apartStep (porta : Bool) (s : Via × Port 8) (op : ViaOp) : Via × Port 8 :=
  ((op.step s.1).via, portStep s.2.latch s.2 (op.forPort porta))

theorem apart_like_step (porta : Bool) (s : Via × Port 8) (op : ViaOp)
    (h : (s.1.inputPort porta).Like s.2) :
    ((apartStep porta s op).1.inputPort porta).Like (apartStep porta s op).2 := by
  unfold apartStep
  rw [ViaOp.inputPort_step]
  exact portStep_like h _ _ _

theorem apart_step_iff (porta : Bool) (s : Via × Port 8) (op : ViaOp)
    (h : (s.1.inputPort porta).Like s.2) (hs : (s.1.port porta).ir = s.2.ir) :
    ((apartStep porta s op).1.port porta).ir = (apartStep porta s op).2.ir ↔
      porta = true ∨ op.EvenHanded s.1 porta := by
  have heq : s.1.inputPort porta = s.2 := h.eq hs
  have hafter := apart_like_step porta s op h
  have hport : ((apartStep porta s op).1.port porta).ir = (apartStep porta s op).2.ir ↔
      (apartStep porta s op).1.inputPort porta = (apartStep porta s op).2 :=
    ⟨fun hir => hafter.eq hir, fun heq => congrArg Port.ir heq⟩
  rw [hport]
  unfold apartStep
  rw [ViaOp.inputPort_step, ← heq, Via.inputPort_latch]
  cases porta with
  | true => exact iff_of_true rfl (.inl rfl)
  | false =>
    rw [or_iff_right Bool.false_ne_true, ViaOp.evenHanded_iff]
    rfl

/-! ## Runs -/

theorem foldl_pairStep (ops : List ViaOp) (v v' : Via) :
    ops.foldl pairStep (v, v') = (v.run ops, v'.run (ops.map ViaOp.swap)) := by
  induction ops generalizing v v' with
  | nil => rfl
  | cons op ops ih => exact ih (op.step v).via (op.swap.step v').via

theorem foldl_apartStep (porta : Bool) (ops : List ViaOp) (v : Via) (p : Port 8) :
    ops.foldl (apartStep porta) (v, p) =
      (v.run ops, (ops.filterMap fun op => op.forPort porta).foldl Port.step p) := by
  induction ops generalizing v p with
  | nil => rfl
  | cons op ops ih =>
    refine (ih (op.step v).via _).trans (congrArg (Prod.mk _) ?_)
    cases hop : op.forPort porta with
    | none =>
      rw [List.filterMap_cons_none (f := fun op : ViaOp => op.forPort porta) hop]
      rfl
    | some o =>
      rw [List.filterMap_cons_some (f := fun op : ViaOp => op.forPort porta) hop]
      rfl

/-- In each state of the run and of the run with the ports swapped the ports are swapped, exactly
if each write of a direction register is even-handed. -/
theorem run_mirrored_iff {v v' : Via} (h : ∀ porta, v.inputPort (!porta) = v'.inputPort porta)
    (ops : List ViaOp) :
    (∀ reached, reached <+: ops → Mirrored (v.run reached) (v'.run (reached.map ViaOp.swap))) ↔
      Steps.Each (fun v (op : ViaOp) => (op.step v).via) (fun v op => ∀ porta, op.EvenHanded v porta)
        v ops := by
  have hlike : PairLike (v, v') := fun porta => Port.like_of_eq (h porta)
  calc
    _ ↔ ∀ reached, reached <+: ops →
        Mirrored (reached.foldl pairStep (v, v')).1 (reached.foldl pairStep (v, v')).2 := by
      simp only [foldl_pairStep]
    _ ↔ Steps.Always pairStep (fun s => Mirrored s.1 s.2) (v, v') ops := by
      rw [Steps.always_iff_prefix]
    _ ↔ Steps.Each pairStep (fun s op => ∀ porta, op.EvenHanded s.1 porta) (v, v') ops :=
      Steps.always_iff pairLike_step mirrored_step_iff hlike ((mirrored_iff hlike).mpr h) ops
    _ ↔ _ := Steps.each_map (fun v (op : ViaOp) => ∀ porta, op.EvenHanded v porta) Prod.fst
      (fun _ _ => rfl) (v, v') ops

/-- The input register of a port is what its own operations make of it, exactly if the port is
port A, or each write of its direction register is even-handed. -/
theorem run_apart_iff (v : Via) (porta : Bool) (ops : List ViaOp) :
    (∀ reached, reached <+: ops →
        ((v.run reached).port porta).ir = (ownPort v porta reached).ir) ↔
      Steps.Each (fun v (op : ViaOp) => (op.step v).via)
        (fun v op => porta = true ∨ op.EvenHanded v porta) v ops := by
  calc
    _ ↔ ∀ reached, reached <+: ops →
        ((reached.foldl (apartStep porta) (v, v.inputPort porta)).1.port porta).ir =
          (reached.foldl (apartStep porta) (v, v.inputPort porta)).2.ir := by
      simp only [foldl_apartStep, ownPort]
    _ ↔ Steps.Always (apartStep porta) (fun s => (s.1.port porta).ir = s.2.ir)
        (v, v.inputPort porta) ops := by
      rw [Steps.always_iff_prefix]
    _ ↔ Steps.Each (apartStep porta) (fun s op => porta = true ∨ op.EvenHanded s.1 porta)
        (v, v.inputPort porta) ops :=
      Steps.always_iff (apart_like_step porta) (apart_step_iff porta) (Port.like_of_eq rfl) rfl ops
    _ ↔ _ := Steps.each_map (fun v (op : ViaOp) => porta = true ∨ op.EvenHanded v porta) Prod.fst
      (fun _ _ => rfl) (v, v.inputPort porta) ops

/-- In every run of a VIA, wherever it is on the bus: the run with the ports swapped shows the
input registers, the directions and the reads of the two ports swapped, exactly if each write of a
direction register is even-handed; and the input register of a port depends on nothing but its
own operations, exactly if the port is port A, or each write of its direction register is. -/
theorem latching_mirrored_iff (busHandle : Option Nat) (voter : BitVec 32) (base : BitVec 16)
    (callbacks : List Nat) (ops : List ViaOp) :
    let v : Via := { viaInit with busHandle, voter, base, callbacks }
    ((∀ reached, reached <+: ops → Mirrored (v.run reached) (v.run (reached.map ViaOp.swap))) ↔
      Steps.Each (fun v (op : ViaOp) => (op.step v).via) (fun v op => ∀ porta, op.EvenHanded v porta)
        v ops) ∧
    ∀ porta, (∀ reached, reached <+: ops →
        ((v.run reached).port porta).ir = (ownPort v porta reached).ir) ↔
      Steps.Each (fun v (op : ViaOp) => (op.step v).via)
        (fun v op => porta = true ∨ op.EvenHanded v porta) v ops := by
  intro v
  have hsame : ∀ porta, v.inputPort (!porta) = v.inputPort porta := by
    have hinit : ∀ porta, viaInit.inputPort (!porta) = viaInit.inputPort porta := by decide
    exact hinit
  exact ⟨run_mirrored_iff hsame ops, fun porta => run_apart_iff v porta ops⟩

/-- Latching is on at port B only, and its pins turn to inputs at 0x55: its input register keeps
zero. With the ports swapped port A latches 0x55. -/
theorem ddrb_asks_pa_latch :
    ¬∀ ops : List ViaOp, Mirrored (viaInit.run ops) (viaInit.run (ops.map ViaOp.swap)) := by
  intro h
  have hrun := h [.write 0x0B 0x02, .write 0x02 0xFF, .dataPort false 0xFF 0x55, .write 0x02 0x00]
  exact absurd (hrun true).1 (by decide)

/-! ## Without latching -/

/-- The level of a pin that was last driven. -/
def pinStep (porta : Bool) (i : Nat) (level : Bool) (op : ViaOp) : Bool :=
  match op with
  | .dataPort porta' mask data =>
    if porta' = porta ∧ mask.getLsbD i then data.getLsbD i else level
  | _ => level

/-- The level of a pin after a run of operations; low at first. -/
def pinLevel (porta : Bool) (i : Nat) (ops : List ViaOp) : Bool := ops.foldl (pinStep porta i) false

theorem portStep_pinIn (take : Bool) (p : Port 8) (op : ViaOp) (porta : Bool) {i : Nat} (hi : i < 8) :
    (portStep take p (op.forPort porta)).pinIn.getLsbD i = pinStep porta i (p.pinIn.getLsbD i) op := by
  have hother : (∀ mask data, op.forPort porta ≠ some (.drive mask data)) →
      (portStep take p (op.forPort porta)).pinIn = p.pinIn := by
    intro h
    cases hop : op.forPort porta with
    | none => rfl
    | some o =>
      refine InputPort.pinIn_stepWith (fun mask data heq => h mask data ?_) take
      rw [hop, heq]
  cases op with
  | write reg val =>
    rw [hother]
    · rfl
    · -- a register is not a pin
      intro mask data
      unfold ViaOp.forPort
      dsimp only
      cases viaReg reg with
      | none => exact fun h => nomatch h
      | some r => cases porta <;> cases r <;> exact fun h => nomatch h
  | read reg => rfl
  | dataPort porta' mask data =>
    unfold ViaOp.forPort pinStep
    dsimp only
    by_cases hport : porta' = porta
    · rw [if_pos hport]
      refine (InputPort.pinIn_drive take mask data hi).trans ?_
      simp only [hport, true_and]
    · rw [if_neg hport, if_neg fun h => hport h.1]
      rfl
  | ctrl pin val =>
    rw [hother]
    · rfl
    · intro mask data
      unfold ViaOp.forPort
      dsimp only
      split <;> exact fun h => nomatch h
  | clock edge => rfl

theorem run_pinIn (ops : List ViaOp) (v : Via) (porta : Bool) {i : Nat} (hi : i < 8) :
    ((v.run ops).inputPort porta).pinIn.getLsbD i =
      ops.foldl (pinStep porta i) ((v.inputPort porta).pinIn.getLsbD i) := by
  induction ops generalizing v with
  | nil => rfl
  | cons op ops ih =>
    have hstep := portStep_pinIn v.paLatch (v.inputPort porta) op porta hi
    rw [← ViaOp.inputPort_step] at hstep
    refine (ih (op.step v).via).trans ?_
    rw [hstep]
    rfl

/-- Where latching is off, the input registers hold the level of each input. -/
def Via.Transparent (v : Via) : Prop := ∀ porta, (v.inputPort porta).Transparent

/-- The operation finds the input register of a port holding the level of each input when it turns
latching off there, and that of each pin it turns to an input when it does not latch it. -/
def ViaOp.Clear (op : ViaOp) (v : Via) : Prop :=
  ∀ porta o, op.forPort porta = some o → o.Clear (v.inputPort porta) v.paLatch

theorem ViaOp.transparent_iff (op : ViaOp) {v : Via} (h : v.Transparent) :
    (op.step v).via.Transparent ↔ op.Clear v := by
  refine forall_congr' fun porta => ?_
  rw [ViaOp.inputPort_step]
  cases op.forPort porta with
  | none => exact iff_of_true (h porta) fun _ hop => nomatch hop
  | some o =>
    refine (InputPort.transparent_step_iff (h porta) v.paLatch o).trans ?_
    constructor
    · rintro hclear o' heq
      obtain rfl := Option.some.inj heq
      exact hclear
    · intro hclear
      exact hclear o rfl

/-- In every run of a VIA, wherever it is on the bus: while latching is off at a port, a read of it
returns the level of each input that was last driven and the output register's bit of each
output, exactly if each operation of the run is clear. -/
theorem port_transparent_iff (busHandle : Option Nat) (voter : BitVec 32) (base : BitVec 16)
    (callbacks : List Nat) (ops : List ViaOp) :
    let v : Via := { viaInit with busHandle, voter, base, callbacks }
    (∀ reached, reached <+: ops → ∀ porta, (v.run reached).latch porta = false → ∀ i < 8,
      (viaRead (v.run reached) (dataNum porta)).1.getLsbD i =
        if ((v.run reached).port porta).ddr.getLsbD i then ((v.run reached).port porta).or.getLsbD i
        else pinLevel porta i reached) ↔
      Steps.Each (fun v (op : ViaOp) => (op.step v).via) (fun v op => op.Clear v) v ops := by
  intro v
  have hinit : v.Transparent := by
    have hheld : ∀ porta,
        (viaInit.inputPort porta).stale &&& ~~~(viaInit.inputPort porta).ddr = 0 := by decide
    exact fun porta _ => hheld porta
  have hlow : ∀ porta i, (v.inputPort porta).pinIn.getLsbD i = false := by
    intro porta i
    have hpins : (v.inputPort porta).pinIn = 0 := by cases porta <;> rfl
    rw [hpins]
    exact BitVec.getLsbD_zero
  have hread : ∀ reached porta, ((v.run reached).inputPort porta).Transparent ↔
      ((v.run reached).latch porta = false → ∀ i < 8,
        (viaRead (v.run reached) (dataNum porta)).1.getLsbD i =
          if ((v.run reached).port porta).ddr.getLsbD i
          then ((v.run reached).port porta).or.getLsbD i else pinLevel porta i reached) := by
    intro reached porta
    rw [InputPort.transparent_iff_read, ← viaRead_data]
    refine forall_congr' fun _ => forall_congr' fun i => forall_congr' fun hi => ?_
    rw [run_pinIn reached v porta hi, hlow]
    exact Iff.rfl
  calc
    _ ↔ ∀ reached, reached <+: ops → (v.run reached).Transparent :=
      forall_congr' fun reached => forall_congr' fun _ => forall_congr' fun porta =>
        (hread reached porta).symm
    _ ↔ Steps.Always (fun v (op : ViaOp) => (op.step v).via) Via.Transparent v ops := by
      rw [Steps.always_iff_prefix]
      exact Iff.rfl
    _ ↔ _ := Steps.always_iff (J := fun _ => True) (fun _ _ _ => trivial)
      (fun v op _ h => op.transparent_iff h) trivial hinit ops

/-- Latching is turned off after pins of port A were driven: a read still returns what the input
register kept. -/
theorem acr_keeps_latched : ¬∀ ops : List ViaOp, ∀ porta, (viaInit.run ops).latch porta = false →
    ∀ i < 8, (viaRead (viaInit.run ops) (dataNum porta)).1.getLsbD i =
      if ((viaInit.run ops).port porta).ddr.getLsbD i
      then ((viaInit.run ops).port porta).or.getLsbD i else pinLevel porta i ops := by
  intro h
  have hread := h [.write 0x0B 0x01, .dataPort true 0xFF 0x55, .write 0x0B 0x00] true (by decide) 0
    (by decide)
  exact absurd hread (by decide)

end Cb6502
