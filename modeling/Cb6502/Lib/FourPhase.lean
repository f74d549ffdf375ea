import Mathlib.Logic.Relation

/- A four-phase handshake over a place for one item. The source writes the place and raises a request;
   the sink takes the item, acknowledges it, which ends the request and tells the source, and
   releases the acknowledge. The source only knows that it was told.

   What is proved:
     1. `Step.conserves` (each step keeps what the stage says of the items sent and received).
     2. `Conserves.received_or`, `Conserves.received_of_ready` (nothing is lost, doubled or
        reordered, and a source that was told has nothing under way). -/
namespace FourPhase

/-- Where the item is that was sent last. -/
inductive Stage (α : Type) where
  | idle
  | posted (a : α)
  | offered (a : α)
  | accepted
  deriving DecidableEq

namespace Stage
variable {α : Type}

/-- The item that is still to be received. -/
def items : Stage α → List α
  | idle | accepted => []
  | posted a | offered a => [a]

def isPosted : Stage α → Bool
  | posted _ => true
  | _ => false

theorem eq_posted {stage : Stage α} (h : stage.isPosted = true) : ∃ a, stage = .posted a := by
  cases stage with
  | posted a => exact ⟨a, rfl⟩
  | idle | offered a | accepted => exact Bool.noConfusion h

/-- The request is up: the item is offered, or accepted and not acknowledged. -/
def requested : Stage α → Bool
  | offered _ | accepted => true
  | _ => false

/-- What the place holds, where it matters. -/
def Holds (stage : Stage α) (place : α) : Prop := ∀ a ∈ stage.items, a = place

end Stage

structure Channel (α : Type) where
  stage : Stage α := .idle
  /-- The acknowledge is not released yet. -/
  acking : Bool := false
  /-- The source was told, and has not sent since. -/
  ready : Bool := false
  sent : List α := []
  received : List α := []

variable {α : Type}

/-- A step of the source, of the sink, or of the line between them. The source sends the first item
without being told, and may forget that it was told. -/
inductive Step : Channel α → Channel α → Prop where
  | send {c : Channel α} (a : α) (h : c.ready = true ∨ c.sent = []) :
    Step c { c with stage := .posted a, ready := false, sent := c.sent ++ [a] }
  | raise {c : Channel α} {a : α} (h : c.stage = .posted a) : Step c { c with stage := .offered a }
  | accept {c : Channel α} {a : α} (h : c.stage = .offered a) (hidle : c.acking = false) :
    Step c { c with stage := .accepted, received := c.received ++ [a] }
  | acknowledge {c : Channel α} (h : c.stage = .accepted) :
    Step c { c with stage := .idle, acking := true, ready := true }
  | release {c : Channel α} (h : c.acking = true) : Step c { c with acking := false }
  | forget {c : Channel α} : Step c { c with ready := false }

variable {c c' : Channel α}

/-- Everything that was sent was received, in order, up to the item under way. -/
structure Conserves (c : Channel α) : Prop where
  balance : c.sent = c.received ++ c.stage.items
  ready : c.ready = true → c.stage = .idle
  busy : c.stage ≠ .idle → c.sent ≠ []
  settled : c.stage = .accepted → c.acking = false

/-- A channel that nothing went through; the source may have been told already. -/
theorem conserves_start (ready : Bool) : Conserves ({ ready } : Channel α) :=
  ⟨rfl, fun _ => rfl, fun hbusy => absurd rfl hbusy, fun _ => rfl⟩

/-- A source that may send has nothing under way. -/
theorem Conserves.idle (h : Conserves c) (hsend : c.ready = true ∨ c.sent = []) :
    c.stage = .idle := by
  rcases hsend with hready | hnone
  · exact h.ready hready
  · exact Classical.byContradiction fun hbusy => h.busy hbusy hnone

theorem Step.conserves (hstep : Step c c') (h : Conserves c) : Conserves c' := by
  cases hstep with
  | send a hsend =>
    have hidle := h.idle hsend
    refine ⟨?_, fun hready => Bool.noConfusion hready, fun _ => ?_, fun hacc => by cases hacc⟩
    · have hbalance := h.balance
      rw [hidle] at hbalance
      show c.sent ++ [a] = c.received ++ [a]
      rw [hbalance, Stage.items, List.append_nil]
    · exact List.append_ne_nil_of_right_ne_nil _ (List.cons_ne_nil a [])
  | @raise a hposted =>
    have hbusy : c.stage ≠ .idle := by
      rw [hposted]
      exact fun heq => by cases heq
    refine ⟨?_, fun hready => absurd (h.ready hready) hbusy, fun _ => h.busy hbusy,
      fun hacc => by cases hacc⟩
    have hbalance := h.balance
    rw [hposted] at hbalance
    exact hbalance
  | @accept a hoffered hrest =>
    have hbusy : c.stage ≠ .idle := by
      rw [hoffered]
      exact fun heq => by cases heq
    refine ⟨?_, fun hready => absurd (h.ready hready) hbusy, fun _ => h.busy hbusy, fun _ => hrest⟩
    have hbalance := h.balance
    rw [hoffered] at hbalance
    show c.sent = (c.received ++ [a]) ++ []
    rw [hbalance, Stage.items, List.append_nil]
  | acknowledge haccepted =>
    refine ⟨?_, fun _ => rfl, fun hbusy => absurd rfl hbusy, fun hacc => by cases hacc⟩
    have hbalance := h.balance
    rw [haccepted] at hbalance
    exact hbalance
  | release hacking => exact ⟨h.balance, h.ready, h.busy, fun _ => rfl⟩
  | forget => exact ⟨h.balance, fun hready => Bool.noConfusion hready, h.busy, h.settled⟩

/-- What the source was told, or forgot since. -/
theorem Step.dim {ready : Bool} (h : ready = true → c.ready = true) :
    Relation.ReflTransGen Step c { c with ready } := by
  cases ready with
  | true =>
    have hsame : { c with ready := true } = c := by rw [← h rfl]
    rw [hsame]
  | false => exact Relation.ReflTransGen.single Step.forget

theorem Conserves.run (h : Conserves c) (hrun : Relation.ReflTransGen Step c c') : Conserves c' := by
  induction hrun with
  | refl => exact h
  | tail _ hstep ih => exact hstep.conserves ih

/-- Nothing is lost, doubled or reordered: at most the item sent last is missing. -/
theorem Conserves.received_or (h : Conserves c) :
    c.received = c.sent ∨ ∃ a, c.sent = c.received ++ [a] := by
  have hbalance := h.balance
  cases hstage : c.stage with
  | idle | accepted =>
    rw [hstage, Stage.items, List.append_nil] at hbalance
    exact Or.inl hbalance.symm
  | posted a | offered a =>
    rw [hstage] at hbalance
    exact Or.inr ⟨a, hbalance⟩

theorem Conserves.received_of_ready (h : Conserves c) (hready : c.ready = true) :
    c.received = c.sent := by
  have hbalance := h.balance
  rw [h.ready hready, Stage.items, List.append_nil] at hbalance
  exact hbalance.symm

end FourPhase
