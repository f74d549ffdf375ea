import Mathlib.Data.List.Chain
import Mathlib.Data.List.Nodup

/- Circular doubly linked lists in one set of nodes. Each list has a head, which is a node that is
   not an element. A ring is the chain of links from the head through the elements and back to it.

   What is proved:
     1. `Ring.splice`, `Ring.unlink` (a node is linked in between two neighbours, or taken out).
     2. `Rings.replace` (a change of one ring that spares the nodes of the others).
     3. `Rings.init`, `Rings.splice`, `Rings.remove` (the lists that the links then hold). -/
namespace LinkedRing

variable {N : Type}

@[ext] structure Links (N : Type) where
  next : N → N
  prev : N → N

/-- The two nodes are neighbours. -/
def Linked (l : Links N) (a b : N) : Prop := l.next a = b ∧ l.prev b = a

/-- A well-formed circular list without repetitions. -/
structure Ring (l : Links N) (head : N) (xs : List N) : Prop where
  chain : List.IsChain (Linked l) (head :: (xs ++ [head]))
  nodup : (head :: xs).Nodup

/-- The links with the two directions exchanged. -/
def Links.mirror (l : Links N) : Links N := ⟨l.prev, l.next⟩

theorem Ring.mirror {l : Links N} {head : N} {xs : List N} (h : Ring l head xs) :
    Ring l.mirror head xs.reverse := by
  constructor
  · have hreverse : head :: (xs.reverse ++ [head]) = (head :: (xs ++ [head])).reverse := by simp
    rw [hreverse, List.isChain_reverse]
    exact h.chain.imp fun a b hab => ⟨hab.2, hab.1⟩
  · obtain ⟨hhead, hxs⟩ := List.nodup_cons.mp h.nodup
    exact List.nodup_cons.mpr
      ⟨fun hmem => hhead (List.mem_reverse.mp hmem), List.nodup_reverse.mpr hxs⟩

/-! ## A ring cut in two -/

section Seam
variable {l l' : Links N} {R : N → N → Prop} {head c : N} {xs ys zs : List N}

/-- The neighbours where a ring is cut. -/
theorem seam (head : N) (ys zs : List N) : ∃ p q,
    head :: ys = p ++ [ys.getLastD head] ∧ zs ++ [head] = zs.headD head :: q := by
  refine ⟨(head :: ys).dropLast, (zs ++ [head]).tail, ?_, ?_⟩
  · rw [← List.getLast_eq_getLastD (List.cons_ne_nil head ys), List.dropLast_append_getLast]
  · cases zs with
    | nil => rfl
    | cons z zs => rfl

/-- The neighbours at a seam of a ring are nodes of the ring. -/
theorem last_mem (head : N) (ys zs : List N) : ys.getLastD head ∈ head :: (ys ++ zs) :=
  List.mem_append_left zs List.getLastD_mem_cons

theorem first_mem (head : N) (ys zs : List N) : zs.headD head ∈ head :: (ys ++ zs) := by
  cases zs with
  | nil => exact List.mem_cons_self
  | cons z zs => exact List.mem_cons_of_mem _ (List.mem_append_right _ List.mem_cons_self)

theorem nodup_middle_iff : (head :: (ys ++ c :: zs)).Nodup ↔
    c ∉ head :: (ys ++ zs) ∧ (head :: (ys ++ zs)).Nodup := by
  rw [← List.cons_append, ← List.cons_append, List.nodup_middle, List.nodup_cons]

theorem chain_seam_iff : List.IsChain R (head :: (ys ++ zs ++ [head])) ↔
    List.IsChain R (head :: ys) ∧ R (ys.getLastD head) (zs.headD head) ∧
      List.IsChain R (zs ++ [head]) := by
  obtain ⟨p, q, hp, hq⟩ := seam head ys zs
  have hsplit : head :: (ys ++ zs ++ [head]) = p ++ ys.getLastD head :: zs.headD head :: q := by
    rw [List.append_assoc, ← List.cons_append, hp, hq, List.append_assoc]
    rfl
  rw [hsplit, List.isChain_append_cons_cons, ← hp, ← hq]

theorem chain_middle_iff : List.IsChain R (head :: (ys ++ c :: zs ++ [head])) ↔
    List.IsChain R (head :: ys) ∧ R (ys.getLastD head) c ∧ R c (zs.headD head) ∧
      List.IsChain R (zs ++ [head]) := by
  obtain ⟨_, q, _, hq⟩ := seam head ys zs
  rw [chain_seam_iff, List.cons_append, List.headD_cons, hq, List.isChain_cons_cons]

/-- A chain reads the link to the next node of all nodes but the last one, and the link to the
previous one of all but the first. -/
theorem chain_congr (h : List.IsChain (Linked l) xs)
    (hnext : ∀ x ∈ xs.dropLast, l'.next x = l.next x) (hprev : ∀ y ∈ xs.tail, l'.prev y = l.prev y) :
    List.IsChain (Linked l') xs := by
  induction xs with
  | nil => exact .nil
  | cons x xs ih =>
    cases xs with
    | nil => exact .singleton x
    | cons y ys =>
      obtain ⟨hxy, hrest⟩ := List.isChain_cons_cons.mp h
      rw [List.dropLast_cons_cons] at hnext
      refine List.isChain_cons_cons.mpr ⟨⟨?_, ?_⟩, ih hrest ?_ ?_⟩
      · exact (hnext x List.mem_cons_self).trans hxy.1
      · exact (hprev y List.mem_cons_self).trans hxy.2
      · exact fun z hz => hnext z (List.mem_cons_of_mem _ hz)
      · exact fun z hz => hprev z (List.mem_cons_of_mem _ hz)

/-- What the seam of a ring touches is read nowhere else in it. -/
theorem seam_unread (hnodup : (head :: (ys ++ zs)).Nodup) :
    (ys.getLastD head ∉ (head :: ys).dropLast ∧ ys.getLastD head ∉ zs) ∧
    zs.headD head ∉ ys ∧ zs.headD head ∉ (zs ++ [head]).tail := by
  obtain ⟨p, q, hp, hq⟩ := seam head ys zs
  have hleft : (p ++ ys.getLastD head :: zs).Nodup := by
    have hsplit : head :: (ys ++ zs) = p ++ ys.getLastD head :: zs := by
      rw [← List.cons_append, hp, List.append_assoc]
      rfl
    exact hsplit ▸ hnodup
  have hright : (ys ++ zs.headD head :: q).Nodup := by
    rw [← hq, ← List.append_assoc]
    exact List.nodup_append_comm.mp hnodup
  obtain ⟨_, hlast, hdisjoint⟩ := List.nodup_append.mp hleft
  obtain ⟨_, hfirst, hapart⟩ := List.nodup_append.mp hright
  rw [hp, hq, List.dropLast_concat, List.tail_cons]
  refine ⟨⟨fun hmem => ?_, (List.nodup_cons.mp hlast).1⟩, fun hmem => ?_,
    (List.nodup_cons.mp hfirst).1⟩
  · exact hdisjoint _ hmem _ List.mem_cons_self rfl
  · exact hapart _ hmem _ List.mem_cons_self rfl

/-- The two halves under links that are changed at the seam, and at a node outside the ring. -/
theorem halves_congr (hnodup : (head :: (ys ++ zs)).Nodup) (hc : c ∉ head :: (ys ++ zs))
    (hnext : ∀ n, n ≠ ys.getLastD head → n ≠ c → l'.next n = l.next n)
    (hprev : ∀ n, n ≠ zs.headD head → n ≠ c → l'.prev n = l.prev n)
    (hleft : List.IsChain (Linked l) (head :: ys)) (hright : List.IsChain (Linked l) (zs ++ [head])) :
    List.IsChain (Linked l') (head :: ys) ∧ List.IsChain (Linked l') (zs ++ [head]) := by
  obtain ⟨⟨hlast, hlast'⟩, hfirst, hfirst'⟩ := seam_unread hnodup
  have hys : ∀ n ∈ head :: ys, n ≠ c := by
    rintro n hn rfl
    exact hc (List.mem_append_left zs hn)
  have hzs : ∀ n ∈ zs ++ [head], n ≠ c := by
    rintro n hn rfl
    refine hc (List.mem_cons.mpr ?_)
    rcases List.mem_append.mp hn with hn | hn
    · exact Or.inr (List.mem_append_right _ hn)
    · exact Or.inl (List.mem_singleton.mp hn)
  constructor
  · refine chain_congr hleft (fun x hx => hnext x ?_ ?_) fun y hy => hprev y ?_ ?_
    · exact ne_of_mem_of_not_mem hx hlast
    · exact hys x (List.dropLast_subset _ hx)
    · exact ne_of_mem_of_not_mem hy hfirst
    · exact hys y (List.mem_cons_of_mem _ hy)
  · refine chain_congr hright (fun x hx => ?_) fun y hy => hprev y ?_ ?_
    · rw [List.dropLast_concat] at hx
      exact hnext x (ne_of_mem_of_not_mem hx hlast') (hzs x (List.mem_append_left _ hx))
    · exact ne_of_mem_of_not_mem hy hfirst'
    · exact hzs y (List.mem_of_mem_tail hy)

theorem Ring.congr (h : Ring l head xs)
    (hsame : ∀ n ∈ head :: xs, l'.next n = l.next n ∧ l'.prev n = l.prev n) : Ring l' head xs := by
  refine ⟨chain_congr h.chain (fun x hx => ?_) fun y hy => ?_, h.nodup⟩
  · rw [← List.cons_append, List.dropLast_concat] at hx
    exact (hsame x hx).1
  · rw [List.tail_cons] at hy
    exact (hsame y ((List.perm_append_singleton head xs).mem_iff.mp hy)).2

theorem Ring.neighbours (h : Ring l head (ys ++ zs)) : Linked l (ys.getLastD head) (zs.headD head) :=
  (chain_seam_iff.mp h.chain).2.1

end Seam

/-! ## Changes of links -/

section Change
variable [DecidableEq N] {l : Links N} {head a b c n : N} {ys zs : List N}

/-- Makes two nodes neighbours. -/
def Links.join (l : Links N) (a b : N) : Links N :=
  ⟨Function.update l.next a b, Function.update l.prev b a⟩

/-- Puts `c` between two nodes. -/
def Links.splice (l : Links N) (a c b : N) : Links N := (l.join c b).join a c

theorem join_linked : Linked (l.join a b) a b :=
  ⟨Function.update_self .., Function.update_self ..⟩

theorem join_next (h : n ≠ a) : (l.join a b).next n = l.next n := Function.update_of_ne h ..

theorem join_prev (h : n ≠ b) : (l.join a b).prev n = l.prev n := Function.update_of_ne h ..

theorem splice_next (ha : n ≠ a) (hc : n ≠ c) : (l.splice a c b).next n = l.next n :=
  (join_next ha).trans (join_next hc)

theorem splice_prev (hb : n ≠ b) (hc : n ≠ c) : (l.splice a c b).prev n = l.prev n :=
  (join_prev hc).trans (join_prev hb)

theorem splice_linked_left : Linked (l.splice a c b) a c := join_linked

theorem splice_linked_right (ha : c ≠ a) (hb : b ≠ c) : Linked (l.splice a c b) c b :=
  ⟨(join_next ha).trans join_linked.1, (join_prev hb).trans join_linked.2⟩

theorem Ring.splice (h : Ring l head (ys ++ zs)) (hc : c ∉ head :: (ys ++ zs)) :
    Ring (l.splice (ys.getLastD head) c (zs.headD head)) head (ys ++ c :: zs) := by
  obtain ⟨hleft, -, hright⟩ := chain_seam_iff.mp h.chain
  obtain ⟨hleft', hright'⟩ := halves_congr h.nodup hc
    (fun n => splice_next (l := l) (b := zs.headD head))
    (fun n => splice_prev (a := ys.getLastD head)) hleft hright
  refine ⟨chain_middle_iff.mpr ⟨hleft', splice_linked_left, ?_, hright'⟩,
    nodup_middle_iff.mpr ⟨hc, h.nodup⟩⟩
  exact splice_linked_right (ne_of_mem_of_not_mem (last_mem head ys zs) hc).symm
    (ne_of_mem_of_not_mem (first_mem head ys zs) hc)

theorem Ring.unlink (h : Ring l head (ys ++ c :: zs)) :
    Ring (l.join (ys.getLastD head) (zs.headD head)) head (ys ++ zs) := by
  obtain ⟨hleft, -, -, hright⟩ := chain_middle_iff.mp h.chain
  obtain ⟨hc, hnodup⟩ := nodup_middle_iff.mp h.nodup
  obtain ⟨hleft', hright'⟩ := halves_congr hnodup hc
    (fun n hn _ => join_next (l := l) (b := zs.headD head) hn)
    (fun n hn _ => join_prev (a := ys.getLastD head) hn) hleft hright
  exact ⟨chain_seam_iff.mpr ⟨hleft', join_linked, hright'⟩, hnodup⟩

theorem Ring.init (l : Links N) (head : N) : Ring (l.join head head) head [] :=
  ⟨.cons_cons join_linked (.singleton _), List.nodup_singleton head⟩

end Change

/-! ## Several rings -/

abbrev Seqs (N : Type) := N → Option (List N)

/-- `n` is the head of the list `head`, or an element of it. -/
def InList (L : Seqs N) (head n : N) : Prop := ∃ xs, L head = some xs ∧ n ∈ head :: xs

def Free (L : Seqs N) (n : N) : Prop := ∀ head, ¬InList L head n

structure Rings (l : Links N) (L : Seqs N) : Prop where
  ring : ∀ head xs, L head = some xs → Ring l head xs
  apart : ∀ head head' n, InList L head n → InList L head' n → head = head'

section Rings
variable {l l' : Links N} {L : Seqs N} {head entry c n : N} {xs ys zs : List N}

theorem InList.of_eq (h : L head = some xs) (hn : n ∈ head :: xs) : InList L head n := ⟨xs, h, hn⟩

theorem inList_iff (h : L head = some xs) : InList L head n ↔ n ∈ head :: xs := by
  constructor
  · rintro ⟨xs', h', hn⟩
    rw [h, Option.some.injEq] at h'
    exact h' ▸ hn
  · exact InList.of_eq h

theorem Free.ne (hfree : Free L c) (hn : InList L head n) : c ≠ n :=
  fun heq => hfree head (heq ▸ hn)

theorem Rings.none (l : Links N) : Rings l (fun _ => none : Seqs N) where
  ring _ _ h := nomatch h
  apart _ _ _ := fun ⟨_, h, _⟩ => nomatch h

/-- The links of the nodes of all lists but one stay. -/
def Spares (L : Seqs N) (head : N) (l l' : Links N) : Prop :=
  ∀ head' n, head' ≠ head → InList L head' n → l'.next n = l.next n ∧ l'.prev n = l.prev n

variable [DecidableEq N]

theorem inList_update_of_ne {head' : N} (h : head' ≠ head) :
    InList (Function.update L head (some xs)) head' n ↔ InList L head' n := by
  rw [InList, Function.update_of_ne h]
  exact Iff.rfl

/-- A change of one ring. Its new nodes are in no list. -/
theorem Rings.replace (h : Rings l L) (hring : Ring l' head ys)
    (hnodes : ∀ n ∈ head :: ys, InList L head n ∨ Free L n)
    (hspares : Spares L head l l') : Rings l' (Function.update L head (some ys)) := by
  have hself : ∀ n, InList (Function.update L head (some ys)) head n → n ∈ head :: ys :=
    fun n hn => (inList_iff (Function.update_self ..)).mp hn
  -- A node of the changed list is in no other list.
  have hother : ∀ head' n, head' ≠ head → InList L head' n → n ∉ head :: ys := by
    intro head' n hne hn hmem
    rcases hnodes n hmem with hin | hfree
    · exact hne (h.apart head' head n hn hin)
    · exact hfree head' hn
  constructor
  · intro head' xs hxs
    by_cases hhead : head' = head
    · subst hhead
      rw [Function.update_self, Option.some.injEq] at hxs
      exact hxs ▸ hring
    · rw [Function.update_of_ne hhead] at hxs
      exact (h.ring head' xs hxs).congr fun n hn => hspares head' n hhead (InList.of_eq hxs hn)
  · intro head₁ head₂ n h₁ h₂
    by_cases hhead₁ : head₁ = head
    · subst hhead₁
      by_contra hne
      rw [inList_update_of_ne (Ne.symm hne)] at h₂
      exact hother head₂ n (Ne.symm hne) h₂ (hself n h₁)
    · rw [inList_update_of_ne hhead₁] at h₁
      by_cases hhead₂ : head₂ = head
      · subst hhead₂
        exact absurd (hself n h₂) (hother head₁ n hhead₁ h₁)
      · rw [inList_update_of_ne hhead₂] at h₂
        exact h.apart head₁ head₂ n h₁ h₂

/-- Makes an empty list, also of the head of a list. -/
theorem Rings.init (h : Rings l L) (hhead : ∀ head', InList L head' head → head' = head) :
    Rings (l.join head head) (Function.update L head (some [])) ∧
      Spares L head l (l.join head head) := by
  have hspares : Spares L head l (l.join head head) := by
    intro head' n hne hn
    have hother : n ≠ head := fun heq => hne (hhead head' (heq ▸ hn))
    exact ⟨join_next hother, join_prev hother⟩
  refine ⟨h.replace (Ring.init l head) (fun n hn => ?_) hspares, hspares⟩
  obtain rfl := List.mem_singleton.mp hn
  by_cases hin : InList L n n
  · exact Or.inl hin
  · exact Or.inr fun head' hn' => hin (hhead head' hn' ▸ hn')

theorem Rings.splice (h : Rings l L) (hlist : L head = some (ys ++ zs)) (hc : Free L c) :
    Rings (l.splice (ys.getLastD head) c (zs.headD head))
        (Function.update L head (some (ys ++ c :: zs))) ∧
      Spares L head l (l.splice (ys.getLastD head) c (zs.headD head)) := by
  have hspares : Spares L head l (l.splice (ys.getLastD head) c (zs.headD head)) := by
    intro head' n hne hn
    have hring : n ∉ head :: (ys ++ zs) :=
      fun hmem => hne (h.apart head' head n hn (InList.of_eq hlist hmem))
    have hnc : n ≠ c := (hc.ne hn).symm
    exact ⟨splice_next (ne_of_mem_of_not_mem (last_mem head ys zs) hring).symm hnc,
      splice_prev (ne_of_mem_of_not_mem (first_mem head ys zs) hring).symm hnc⟩
  have hnew : c ∉ head :: (ys ++ zs) := fun hmem => hc head (InList.of_eq hlist hmem)
  refine ⟨h.replace ((h.ring head _ hlist).splice hnew) (fun n hn => ?_) hspares, hspares⟩
  rw [← List.cons_append, List.perm_middle.mem_iff] at hn
  rcases List.mem_cons.mp hn with rfl | hn
  · exact Or.inr hc
  · exact Or.inl (InList.of_eq hlist hn)

theorem Rings.remove (h : Rings l L) (hlist : L head = some (ys ++ c :: zs)) :
    Rings (l.join (l.prev c) (l.next c)) (Function.update L head (some (ys ++ zs))) ∧
      Spares L head l (l.join (l.prev c) (l.next c)) := by
  have hring := h.ring head _ hlist
  obtain ⟨_, hprev, hnext, _⟩ := chain_middle_iff.mp hring.chain
  rw [hprev.2, hnext.1]
  have hsub : head :: (ys ++ zs) ⊆ head :: (ys ++ c :: zs) := by
    intro n hn
    rw [← List.cons_append, List.perm_middle.mem_iff]
    exact List.mem_cons_of_mem c hn
  have hspares : Spares L head l (l.join (ys.getLastD head) (zs.headD head)) := by
    intro head' n hne hn
    have hout : n ∉ head :: (ys ++ zs) :=
      fun hmem => hne (h.apart head' head n hn (InList.of_eq hlist (hsub hmem)))
    exact ⟨join_next (ne_of_mem_of_not_mem (last_mem head ys zs) hout).symm,
      join_prev (ne_of_mem_of_not_mem (first_mem head ys zs) hout).symm⟩
  refine ⟨h.replace hring.unlink (fun n hn => Or.inl ?_) hspares, hspares⟩
  exact InList.of_eq hlist (hsub hn)

end Rings

end LinkedRing
