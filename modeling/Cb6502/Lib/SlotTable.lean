import Mathlib.Logic.Function.Basic

/- A table of `n` slots, each free or with a value, where new values go to the first free
   slot. Read as a map from slots to values, an allocation adds a slot that was free, and a
   release removes one.

   What is proved:
     1. `firstFree_eq_some`, `firstFree_eq_none` (which slot an allocation takes, and that it
        fails on a full table only).
     2. `put_apply` (an allocation as a map).
     3. `mem_entries` (the listing of the table is the map). -/
namespace SlotTable

variable {n : Nat} {α : Type}

abbrev Table (n : Nat) (α : Type) := Fin n → Option α

/-- The first free slot. -/
def firstFree (t : Table n α) : Option (Fin n) := (List.finRange n).find? fun i => (t i).isNone

def put (t : Table n α) (i : Fin n) (a : α) : Table n α := Function.update t i (some a)

def release (t : Table n α) (i : Fin n) : Table n α := Function.update t i none

/-- The slots in use, in order, with their values. -/
def entries (t : Table n α) : List (Fin n × α) :=
  (List.finRange n).filterMap fun i => (t i).map fun a => (i, a)

theorem firstFree_eq_some {t : Table n α} {i : Fin n} (h : firstFree t = some i) : t i = none := by
  have hfree := List.find?_some (p := fun i => (t i).isNone) h
  exact Option.isNone_iff_eq_none.mp hfree

theorem firstFree_eq_none {t : Table n α} (h : firstFree t = none) (i : Fin n) : (t i).isSome = true := by
  have hused := List.find?_eq_none.mp h i (List.mem_finRange i)
  simpa [Option.isNone_iff_eq_none, Option.isSome_iff_ne_none] using hused

theorem put_apply (t : Table n α) (i j : Fin n) (a : α) :
    put t i a j = if j = i then some a else t j := Function.update_apply t i (some a) j

theorem mem_entries (t : Table n α) (i : Fin n) (a : α) : (i, a) ∈ entries t ↔ t i = some a := by
  unfold entries
  rw [List.mem_filterMap]
  constructor
  · rintro ⟨j, -, hj⟩
    obtain ⟨b, hb, heq⟩ := Option.map_eq_some_iff.mp hj
    obtain ⟨rfl, rfl⟩ := Prod.mk.inj heq
    exact hb
  · intro h
    exact ⟨i, List.mem_finRange i, by rw [h]; rfl⟩

end SlotTable
