import Mathlib.Data.BitVec

/- A port of `w` pins with an input latch. Each pin is an input or an output. A register holds
   what is read of the inputs: while latching is off it follows the pins, while it is on it keeps
   the levels at the last active edge of a control line. Pins that turn to inputs while latching
   is on are latched then.

   An implementation may ask another latch bit than the port's own when pins turn to inputs. So
   `stepWith` takes that bit, and `step` is the port that asks its own.

   What is proved:
     1. `stepWith_eq_iff` (the two bits make no difference exactly if they are equal, or no pin
        that turns to an input is held otherwise than it is).
     2. `transparent_step_iff` (what an operation must meet so that without latching a read shows
        the pins), `transparent_iff_read`. -/
namespace InputPort

variable {w : Nat}

structure Port (w : Nat) where
  /-- The input register. -/
  ir : BitVec w
  /-- The output register. -/
  or : BitVec w
  /-- The direction of each pin, set for an output. -/
  ddr : BitVec w
  /-- The level of each pin from outside. -/
  pinIn : BitVec w
  /-- The control line. -/
  c1In : Bool
  /-- Whether latching is on. -/
  latch : Bool
  /-- The level after the active edge. -/
  active : Bool
  deriving DecidableEq

inductive Op (w : Nat) where
  | turn (ddr : BitVec w)
  | put (or : BitVec w)
  | drive (mask data : BitVec w)
  | edge (level : Bool)
  | select (active : Bool)
  | latch (on : Bool)
  deriving DecidableEq

/-- The bits of `x` where the mask is set, and of `y` elsewhere. -/
def merge (x y mask : BitVec w) : BitVec w := (x &&& mask) ||| (y &&& ~~~mask)

namespace Port

/-- What is read: outputs from the output register, inputs from the input register. -/
def read (p : Port w) : BitVec w := merge p.or p.ir p.ddr

/-- The pins whose level the input register does not hold. -/
def stale (p : Port w) : BitVec w := p.ir ^^^ p.pinIn

/-- The pins that a new direction turns to inputs. -/
def turned (p : Port w) (ddr : BitVec w) : BitVec w := (p.ddr ^^^ ddr) &&& ~~~ddr

/-- An operation, where `take` is whether pins that turn to inputs are latched. -/
def stepWith (take : Bool) (p : Port w) : Op w → Port w
  | .turn ddr =>
    { p with ir := if take then merge p.pinIn p.ir (p.turned ddr) else p.ir, ddr }
  | .put or => { p with or }
  | .drive mask data =>
    if mask = 0#w then p
    else
      { p with
        pinIn := merge data p.pinIn mask
        ir := if p.latch then p.ir else merge data p.pinIn mask }
  | .edge level =>
    if level = p.c1In then p
    else if level = p.active then
      { p with c1In := level, ir := if p.latch then p.pinIn else p.ir }
    else { p with c1In := level }
  | .select active => { p with active }
  | .latch on => { p with latch := on }

/-- An operation of a port that asks its own latch bit. -/
def step (p : Port w) (op : Op w) : Port w := p.stepWith p.latch op

/-- Two ports that differ in their input registers at most. -/
def Like (p p' : Port w) : Prop := { p with ir := 0 } = { p' with ir := 0 }

/-- Without latching, the input register holds the level of each input. -/
def Transparent (p : Port w) : Prop := p.latch = false → p.stale &&& ~~~p.ddr = 0

end Port

/-- The two bits make no difference: they are equal, or each pin that turns to an input is held
as it is. -/
def Op.Indifferent (op : Op w) (p : Port w) (take take' : Bool) : Prop :=
  ∀ ddr, op = .turn ddr → take = take' ∨ p.stale &&& p.turned ddr = 0

/-- The operation finds the inputs held as they are, where it could uncover that they are not:
when latching is turned off, and when pins turn to inputs and are not latched. -/
def Op.Clear (op : Op w) (p : Port w) (take : Bool) : Prop :=
  match op with
  | .turn ddr => p.latch = false → take = false → p.stale &&& p.turned ddr = 0
  | .latch on => p.latch = true → on = false → p.stale &&& ~~~p.ddr = 0
  | _ => True

section Bits

theorem eq_zero_iff {x : BitVec w} : x = 0 ↔ ∀ i < w, x.getLsbD i = false := by
  constructor
  · rintro rfl i -
    exact BitVec.getLsbD_zero
  · intro h
    apply BitVec.eq_of_getLsbD_eq
    intro i hi
    rw [h i hi]
    exact BitVec.getLsbD_zero.symm

theorem getLsbD_merge (x y mask : BitVec w) (i : Nat) (hi : i < w) : (merge x y mask).getLsbD i =
    if mask.getLsbD i then x.getLsbD i else y.getLsbD i := by
  unfold merge
  rw [BitVec.getLsbD_or, BitVec.getLsbD_and, BitVec.getLsbD_and, BitVec.getLsbD_not, decide_eq_true hi]
  cases mask.getLsbD i <;> simp

/-- A merge changes nothing exactly if the two agree where the mask is set. -/
theorem merge_eq_right_iff (x y mask : BitVec w) : merge x y mask = y ↔ (y ^^^ x) &&& mask = 0 := by
  rw [eq_zero_iff]
  constructor
  · intro h i hi
    have hbit := congrArg (fun z => z.getLsbD i) h
    rw [getLsbD_merge x y mask i hi] at hbit
    rw [BitVec.getLsbD_and, BitVec.getLsbD_xor]
    cases hmask : mask.getLsbD i with
    | true =>
      rw [hmask, if_pos rfl] at hbit
      rw [hbit, Bool.xor_self, Bool.false_and]
    | false => exact Bool.and_false _
  · intro h
    apply BitVec.eq_of_getLsbD_eq
    intro i hi
    have hbit := h i hi
    rw [BitVec.getLsbD_and, BitVec.getLsbD_xor] at hbit
    rw [getLsbD_merge x y mask i hi]
    cases hmask : mask.getLsbD i with
    | true =>
      rw [hmask, Bool.and_true] at hbit
      rw [if_pos rfl]
      exact (bne_eq_false_iff_eq.mp hbit).symm
    | false => exact if_neg Bool.false_ne_true

end Bits

section Steps
variable {p p' : Port w}

/-- What the bit decides. -/
theorem turn_eq_iff (take take' : Bool) (ddr : BitVec w) :
    p.stepWith take (.turn ddr) = p.stepWith take' (.turn ddr) ↔
      take = take' ∨ p.stale &&& p.turned ddr = 0 := by
  have hmerge := merge_eq_right_iff p.pinIn p.ir (p.turned ddr)
  have hport : p.stepWith take (.turn ddr) = p.stepWith take' (.turn ddr) ↔
      (p.stepWith take (.turn ddr)).ir = (p.stepWith take' (.turn ddr)).ir := by
    constructor
    · exact congrArg Port.ir
    · intro hir
      show ({ p with ir := (p.stepWith take (.turn ddr)).ir, ddr } : Port w) = _
      rw [hir]
      rfl
  rw [hport]
  unfold Port.stepWith Port.stale
  cases take with
  | true =>
    cases take' with
    | true => exact iff_of_true rfl (.inl rfl)
    | false =>
      rw [or_iff_right (by decide), ← hmerge]
      rfl
  | false =>
    cases take' with
    | true =>
      rw [or_iff_right (by decide), ← hmerge]
      exact eq_comm
    | false => exact iff_of_true rfl (.inl rfl)

theorem stepWith_eq_iff (op : Op w) (take take' : Bool) :
    p.stepWith take op = p.stepWith take' op ↔ op.Indifferent p take take' := by
  cases op with
  | turn ddr =>
    rw [turn_eq_iff]
    constructor
    · rintro h ddr' heq
      cases heq
      exact h
    · intro h
      exact h ddr rfl
  | put | drive | edge | select | latch => exact iff_of_true rfl fun _ h => nomatch h

theorem Port.like_of_eq (h : p = p') : p.Like p' := by
  rw [h]
  exact rfl

theorem Port.Like.eq (h : p.Like p') (hir : p.ir = p'.ir) : p = p' := by
  have heq := congrArg (fun q : Port w => { q with ir := p.ir }) h
  calc p = { ({ p with ir := 0 } : Port w) with ir := p.ir } := rfl
    _ = { ({ p' with ir := 0 } : Port w) with ir := p.ir } := heq
    _ = p' := by rw [hir]

/-- Nothing but the input register depends on the input register, or on the bit. -/
theorem Port.Like.stepWith (h : p.Like p') (take take' : Bool) (op : Op w) :
    (p.stepWith take op).Like (p'.stepWith take' op) := by
  have hform : ∀ (q : Port w) (take : Bool),
      ({ q.stepWith take op with ir := 0 } : Port w) =
        { ({ q with ir := 0 } : Port w).stepWith false op with ir := 0 } := by
    intro q take
    cases op with
    | turn ddr => rfl
    | put or => rfl
    | drive mask data =>
      unfold Port.stepWith
      dsimp only
      split <;> rfl
    | edge level =>
      unfold Port.stepWith
      dsimp only
      split
      · rfl
      · split <;> rfl
    | select active => rfl
    | latch on => rfl
  unfold Port.Like at h ⊢
  rw [hform p, hform p', h]

/-- Nothing but a driver moves a pin. -/
theorem pinIn_stepWith {op : Op w} (h : ∀ mask data, op ≠ .drive mask data) (take : Bool) :
    (p.stepWith take op).pinIn = p.pinIn := by
  cases op with
  | drive mask data => exact absurd rfl (h mask data)
  | edge level =>
    unfold Port.stepWith
    dsimp only
    split
    · rfl
    · split <;> rfl
  | turn | put | select | latch => rfl

theorem pinIn_drive (take : Bool) (mask data : BitVec w) {i : Nat} (hi : i < w) :
    (p.stepWith take (.drive mask data)).pinIn.getLsbD i =
      if mask.getLsbD i then data.getLsbD i else p.pinIn.getLsbD i := by
  unfold Port.stepWith
  dsimp only
  split
  · rename_i hmask
    rw [hmask, BitVec.getLsbD_zero, if_neg Bool.false_ne_true]
  · exact getLsbD_merge data p.pinIn mask i hi

/-- Bit by bit: an input that was one before, or that turns to one. -/
theorem stale_inputs_iff {stale ddr ddr' : BitVec w} (h : stale &&& ~~~ddr = 0) :
    stale &&& ~~~ddr' = 0 ↔ stale &&& ((ddr ^^^ ddr') &&& ~~~ddr') = 0 := by
  rw [eq_zero_iff] at h ⊢
  rw [eq_zero_iff]
  refine forall_congr' fun i => forall_congr' fun hi => ?_
  have hbit := h i hi
  simp only [BitVec.getLsbD_and, BitVec.getLsbD_xor, BitVec.getLsbD_not, hi, decide_true,
    Bool.true_and] at hbit ⊢
  revert hbit
  cases stale.getLsbD i <;> cases ddr.getLsbD i <;> cases ddr'.getLsbD i <;> decide

/-- The pins that turn to inputs are latched: no input is held otherwise than it is. -/
theorem turn_taken {ddr : BitVec w} (h : p.stale &&& ~~~p.ddr = 0) :
    (p.stepWith true (.turn ddr)).stale &&& ~~~ddr = 0 := by
  rw [eq_zero_iff] at h ⊢
  intro i hi
  have hbit := h i hi
  have hir : (p.stepWith true (.turn ddr)).ir = merge p.pinIn p.ir (p.turned ddr) := rfl
  have hpin : (p.stepWith true (.turn ddr)).pinIn = p.pinIn := rfl
  unfold Port.stale at hbit ⊢
  rw [hir, hpin]
  unfold Port.turned
  simp only [BitVec.getLsbD_and, BitVec.getLsbD_xor, BitVec.getLsbD_not, hi, decide_true,
    Bool.true_and, getLsbD_merge _ _ _ i hi] at hbit ⊢
  revert hbit
  cases p.ir.getLsbD i <;> cases p.pinIn.getLsbD i <;> cases p.ddr.getLsbD i <;>
    cases ddr.getLsbD i <;> decide

theorem transparent_turn_iff (h : p.Transparent) (take : Bool) (ddr : BitVec w) :
    (p.stepWith take (.turn ddr)).Transparent ↔ Op.Clear (.turn ddr) p take := by
  unfold Port.Transparent Op.Clear
  refine forall_congr' fun hoff => ?_
  have hbefore := h hoff
  cases take with
  | true => exact iff_of_true (turn_taken hbefore) fun h => nomatch h
  | false =>
    have hstale : (p.stepWith false (.turn ddr)).stale = p.stale := rfl
    have hddr : (p.stepWith false (.turn ddr)).ddr = ddr := rfl
    rw [hstale, hddr, stale_inputs_iff hbefore]
    exact ⟨fun h _ => h, fun h => h rfl⟩

/-- What an operation must meet so that the port is still transparent. -/
theorem transparent_step_iff (h : p.Transparent) (take : Bool) (op : Op w) :
    (p.stepWith take op).Transparent ↔ op.Clear p take := by
  cases op with
  | turn ddr => exact transparent_turn_iff h take ddr
  | put or => exact iff_of_true h trivial
  | drive mask data =>
    refine iff_of_true ?_ trivial
    unfold Port.stepWith
    dsimp only
    split
    · exact h
    · -- the register follows the pins
      intro hoff
      have hoff' : p.latch = false := hoff
      unfold Port.stale
      dsimp only
      rw [hoff', if_neg Bool.false_ne_true, BitVec.xor_self, BitVec.zero_and]
      rfl
  | edge level =>
    refine iff_of_true ?_ trivial
    unfold Port.stepWith
    dsimp only
    split
    · exact h
    · split
      · intro hoff
        have hoff' : p.latch = false := hoff
        unfold Port.stale
        dsimp only
        rw [hoff', if_neg Bool.false_ne_true]
        exact h hoff'
      · exact h
  | select active => exact iff_of_true h trivial
  | latch on =>
    constructor
    · intro hafter _ hoff
      exact hafter hoff
    · intro hclear hoff
      cases hlatch : p.latch with
      | true => exact hclear hlatch hoff
      | false => exact h hlatch

/-- A read of a transparent port shows the pins. -/
theorem transparent_iff_read : p.Transparent ↔ (p.latch = false → ∀ i < w,
    p.read.getLsbD i = if p.ddr.getLsbD i then p.or.getLsbD i else p.pinIn.getLsbD i) := by
  unfold Port.Transparent
  refine forall_congr' fun _ => ?_
  rw [eq_zero_iff]
  refine forall_congr' fun i => forall_congr' fun hi => ?_
  unfold Port.read Port.stale
  rw [getLsbD_merge _ _ _ i hi]
  simp only [BitVec.getLsbD_and, BitVec.getLsbD_xor, BitVec.getLsbD_not, hi, decide_true,
    Bool.true_and]
  cases p.ddr.getLsbD i with
  | true => exact iff_of_true (Bool.and_false _) rfl
  | false =>
    rw [Bool.not_false, Bool.and_true]
    exact bne_eq_false_iff_eq

end Steps

end InputPort
