import Mathlib.Data.List.FinRange
import Cb6502.Lib.SlotTable

/- A hash table of buckets with `n` slots each, filled from the first slot on. Nothing is removed and
   keys may be entered more than once. A table that holds a sequence of entries has in each bucket
   the entries of that bucket, in the order of the sequence.

   What is proved:
     1. `Holds.add`, `Holds.add_full` (an entry is added exactly if its bucket is not full).
     2. `Holds.find` (a search finds the first entry of a key). -/
namespace BucketTable

variable {B K V : Type} [DecidableEq B] {n : Nat}

abbrev Table (B K V : Type) (n : Nat) := B → SlotTable.Table n (K × V)

/-- Adds an entry in the first free slot of its bucket. -/
def add (bucket : K → B) (t : Table B K V n) (e : K × V) : Option (Table B K V n) :=
  (SlotTable.firstFree (t (bucket e.1))).map fun i =>
    Function.update t (bucket e.1) (SlotTable.put (t (bucket e.1)) i e)

/-- The first slot with the key, in its bucket. -/
def find [DecidableEq K] (bucket : K → B) (t : Table B K V n) (k : K) : Option (Fin n) :=
  (List.finRange n).find? fun i => (t (bucket k) i).any fun e => e.1 = k

/-- The entries of a bucket. -/
def chain (bucket : K → B) (es : List (K × V)) (b : B) : List (K × V) :=
  es.filter fun e => bucket e.1 = b

/-- A bucket with the entries `es` from its first slot on. -/
def filled (n : Nat) (es : List (K × V)) : SlotTable.Table n (K × V) := fun i => es[i.val]?

structure Holds (bucket : K → B) (t : Table B K V n) (es : List (K × V)) : Prop where
  slots : ∀ b, t b = filled n (chain bucket es b)
  fits : ∀ b, (chain bucket es b).length ≤ n

/-! ## One bucket -/

theorem firstFree_filled (c : List (K × V)) :
    SlotTable.firstFree (filled n c) = if h : c.length < n then some ⟨c.length, h⟩ else none := by
  unfold SlotTable.firstFree
  induction c generalizing n with
  | nil =>
    cases n with
    | zero => rfl
    | succ n =>
      rw [List.finRange_succ]
      rfl
  | cons e c ih =>
    cases n with
    | zero => rfl
    | succ n =>
      have hrest : ((fun i => (filled (n + 1) (e :: c) i).isNone) ∘ Fin.succ) =
          fun i : Fin n => (filled n c i).isNone := rfl
      have hhead : (filled (n + 1) (e :: c) 0).isNone = false := rfl
      rw [List.finRange_succ, List.find?_cons, hhead, List.find?_map, hrest, ih]
      by_cases hlt : c.length < n
      · have hlt' : (e :: c).length < n + 1 := Nat.succ_lt_succ hlt
        rw [dif_pos hlt, dif_pos hlt']
        rfl
      · have hlt' : ¬(e :: c).length < n + 1 := fun h => hlt (Nat.lt_of_succ_lt_succ h)
        rw [dif_neg hlt, dif_neg hlt']
        rfl

theorem put_filled (c : List (K × V)) (e : K × V) (h : c.length < n) :
    SlotTable.put (filled n c) ⟨c.length, h⟩ e = filled n (c ++ [e]) := by
  funext i
  rw [SlotTable.put_apply]
  by_cases hi : i = ⟨c.length, h⟩
  · rw [if_pos hi, hi]
    exact List.getElem?_concat_length.symm
  · have hne : i.val ≠ c.length := fun heq => hi (Fin.ext heq)
    rw [if_neg hi, filled, filled, List.getElem?_append]
    split
    · rfl
    · have hout : 1 ≤ i.val - c.length := by omega
      rw [List.getElem?_eq_none (by omega)]
      exact (List.getElem?_eq_none hout).symm

theorem find_filled (c : List (K × V)) (hfits : c.length ≤ n) (p : K × V → Bool) :
    ((List.finRange n).find? fun i => (filled n c i).any p).bind (filled n c) = c.find? p := by
  induction c generalizing n with
  | nil =>
    have hnone : (List.finRange n).find? (fun i => (filled n ([] : List (K × V)) i).any p) = none := by
      rw [List.find?_eq_none]
      exact fun i _ => Bool.false_ne_true
    rw [hnone]
    rfl
  | cons e c ih =>
    cases n with
    | zero => exact absurd hfits (Nat.not_succ_le_zero _)
    | succ n =>
      have hrest : ((fun i => (filled (n + 1) (e :: c) i).any p) ∘ Fin.succ) =
          fun i : Fin n => (filled n c i).any p := rfl
      have hhead : (filled (n + 1) (e :: c) 0).any p = p e := rfl
      rw [List.finRange_succ, List.find?_cons, hhead, List.find?_cons]
      cases p e with
      | true => rfl
      | false =>
        rw [← ih (Nat.le_of_succ_le_succ hfits)]
        dsimp only
        rw [List.find?_map, hrest, Option.bind_map]
        rfl

/-! ## The table -/

section Holds
variable {bucket : K → B} {t : Table B K V n} {es : List (K × V)}

theorem Holds.empty (bucket : K → B) : Holds bucket (fun _ _ => none : Table B K V n) [] :=
  ⟨fun _ => rfl, fun _ => Nat.zero_le _⟩

/-- Entries that fit together leave a slot for each of them. -/
theorem chain_lt_of_fits {before after : List (K × V)} {e : K × V}
    (h : ∀ b, (chain bucket (before ++ e :: after) b).length ≤ n) :
    (chain bucket before (bucket e.1)).length < n := by
  have hfits := h (bucket e.1)
  rw [chain, List.filter_append, List.filter_cons_of_pos (by simp), List.length_append,
    List.length_cons] at hfits
  rw [chain]
  omega

theorem chain_concat (bucket : K → B) (es : List (K × V)) (e : K × V) (b : B) :
    chain bucket (es ++ [e]) b = chain bucket es b ++ if bucket e.1 = b then [e] else [] := by
  rw [chain, List.filter_append, List.filter_singleton]
  by_cases h : bucket e.1 = b <;> simp [h, chain]

theorem Holds.add (h : Holds bucket t es) (e : K × V)
    (hfree : (chain bucket es (bucket e.1)).length < n) :
    ∃ t', add bucket t e = some t' ∧ Holds bucket t' (es ++ [e]) := by
  have hadd : BucketTable.add bucket t e = some (Function.update t (bucket e.1)
      (filled n (chain bucket es (bucket e.1) ++ [e]))) := by
    rw [BucketTable.add, h.slots, firstFree_filled, dif_pos hfree, Option.map_some, put_filled]
  refine ⟨_, hadd, fun b => ?_, fun b => ?_⟩
  · rw [chain_concat]
    by_cases hb : bucket e.1 = b
    · subst hb
      rw [Function.update_self, if_pos rfl]
    · rw [Function.update_of_ne (Ne.symm hb), h.slots, if_neg hb, List.append_nil]
  · rw [chain_concat, List.length_append]
    by_cases hb : bucket e.1 = b
    · subst hb
      rw [if_pos rfl]
      exact hfree
    · rw [if_neg hb]
      exact h.fits b

theorem Holds.add_full (h : Holds bucket t es) (e : K × V)
    (hfull : n ≤ (chain bucket es (bucket e.1)).length) : BucketTable.add bucket t e = none := by
  rw [BucketTable.add, h.slots, firstFree_filled, dif_neg (Nat.not_lt.mpr hfull)]
  rfl

/-- The keys of a bucket are found in it. -/
theorem Holds.find [DecidableEq K] (h : Holds bucket t es) (k : K) :
    (find bucket t k).bind (t (bucket k)) = es.find? fun e => e.1 = k := by
  have hchain : (chain bucket es (bucket k)).find? (fun e => e.1 = k) =
      es.find? fun e => e.1 = k := by
    rw [chain, List.find?_filter]
    congr 1
    funext e
    by_cases hk : e.1 = k <;> simp [hk]
  rw [BucketTable.find, h.slots, ← hchain]
  exact find_filled _ (h.fits _) _

end Holds

end BucketTable
