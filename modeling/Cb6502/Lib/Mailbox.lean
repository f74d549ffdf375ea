/- A one-place mailbox that discards what arrives while it is full. The ledger has every
   item that arrived, in order, with what became of it: delivered, held, or discarded.

   What is proved:
     1. `Balanced.arrive_empty`, `Balanced.arrive_full`, `Balanced.deliver` (the ledger
        without the discarded items is what was delivered, then what is held).
     2. `Balanced.delivered`, `Balanced.held` (the deliveries and the contents of the mailbox,
        read off the ledger). -/
namespace Mailbox

inductive Fate where
  | delivered | held | discarded
  deriving DecidableEq

/-- Delivered, or still to be. -/
def Fate.kept : Fate → Bool
  | .discarded => false
  | .delivered | .held => true

abbrev Ledger (α : Type) := List (α × Fate)

variable {α : Type} {l : Ledger α} {out : List α} {inside : Option α}

/-- Everything that arrived. -/
def Ledger.items (l : Ledger α) : List α := l.map Prod.fst

def Ledger.withFate (l : Ledger α) (f : Fate) : List α := (l.filter fun e => e.2 = f).map Prod.fst

def Ledger.arrive (l : Ledger α) (a : α) (full : Bool) : Ledger α :=
  l ++ [(a, if full then .discarded else .held)]

/-- The item held is delivered. -/
def Ledger.deliver (l : Ledger α) : Ledger α :=
  l.map fun e => (e.1, if e.2 = .held then .delivered else e.2)

/-- The ledger agrees with the deliveries made, in order, and the contents of the mailbox. -/
def Balanced (l : Ledger α) (out : List α) (inside : Option α) : Prop :=
  l.filter (fun e => e.2.kept) =
    out.map (fun a => (a, .delivered)) ++ inside.toList.map fun a => (a, .held)

@[simp] theorem items_arrive (a : α) (full : Bool) : (l.arrive a full).items = l.items ++ [a] := by
  simp [Ledger.items, Ledger.arrive]

@[simp] theorem items_deliver : l.deliver.items = l.items := by
  simp [Ledger.items, Ledger.deliver]

theorem balanced_nil : Balanced ([] : Ledger α) [] none := rfl

theorem Balanced.arrive_empty (h : Balanced l out none) (a : α) :
    Balanced (l.arrive a false) out (some a) := by
  unfold Balanced at h ⊢
  rw [Ledger.arrive, List.filter_append, h]
  simp [Fate.kept]

theorem Balanced.arrive_full (h : Balanced l out inside) (a : α) :
    Balanced (l.arrive a true) out inside := by
  unfold Balanced at h ⊢
  rw [Ledger.arrive, List.filter_append, h]
  simp [Fate.kept]

theorem Balanced.deliver {a : α} (h : Balanced l out (some a)) :
    Balanced l.deliver (out ++ [a]) none := by
  have hsettle : ∀ e : α × Fate, Fate.kept (if e.2 = .held then .delivered else e.2) = e.2.kept := by
    intro e
    cases e.2 <;> rfl
  unfold Balanced at h ⊢
  calc l.deliver.filter (fun e => e.2.kept)
      = Ledger.deliver (l.filter fun e => e.2.kept) := by
        simp only [Ledger.deliver, List.filter_map, Function.comp_def, hsettle]
    _ = (out ++ [a]).map (fun a => (a, .delivered)) := by
        rw [h]
        simp [Ledger.deliver]
    _ = _ := by simp

theorem withFate_kept {f : Fate} (hf : f.kept = true) :
    l.withFate f = Ledger.withFate (l.filter fun e => e.2.kept) f := by
  unfold Ledger.withFate
  rw [List.filter_filter]
  congr 1
  apply List.filter_congr
  intro e _
  by_cases he : e.2 = f
  · simp [he, hf]
  · simp [he]

theorem Balanced.delivered (h : Balanced l out inside) : l.withFate .delivered = out := by
  unfold Balanced at h
  rw [withFate_kept rfl, h, Ledger.withFate, List.filter_append,
    List.filter_eq_self.mpr (by simp), List.filter_eq_nil_iff.mpr (by simp)]
  simp [Function.comp_def]

theorem Balanced.held (h : Balanced l out inside) : l.withFate .held = inside.toList := by
  unfold Balanced at h
  rw [withFate_kept rfl, h, Ledger.withFate, List.filter_append,
    List.filter_eq_nil_iff.mpr (by simp), List.filter_eq_self.mpr (by simp)]
  simp [Function.comp_def]

end Mailbox
