import Cb6502.Lib.LinkedRing
import Cb6502.Lib.Steps

/- The intrusive list (core/util/inc/util.h, core/util/src/util.c) on a heap of nodes. The other
   modules take their lists for sequences, and here is why they may.

   What is proved:
     1. `links_listAddTail` and its siblings (the assignments of an operation, in their order, link
        the node in between its neighbours, or take it out).
     2. `ListOp.run_refines` (an operation on the heap is the one on the sequences).
     3. `listFree_spec` (which nodes `list_free` hands to its callback).
     4. `intrusive_list_refines` (after any operations). -/
namespace Cb6502

open LinkedRing

structure ListNode where
  next : Nat
  prev : Nat

abbrev ListHeap := Nat → ListNode

def ListHeap.setNext (h : ListHeap) (p v : Nat) : ListHeap :=
  Function.update h p { h p with next := v }

def ListHeap.setPrev (h : ListHeap) (p v : Nat) : ListHeap :=
  Function.update h p { h p with prev := v }

/-! ## The source -/

def listInit (h : ListHeap) (head : Nat) : ListHeap :=
  let h := h.setNext head head
  h.setPrev head head

def listEmpty (h : ListHeap) (head : Nat) : Bool := (h head).next == head

def listAddTail (h : ListHeap) (head add : Nat) : ListHeap :=
  let h := h.setNext (h head).prev add
  let h := h.setPrev add (h head).prev
  let h := h.setPrev head add
  h.setNext add head

def listAddHead (h : ListHeap) (head add : Nat) : ListHeap :=
  let h := h.setPrev (h head).next add
  let h := h.setNext add (h head).next
  let h := h.setNext head add
  h.setPrev add head

def listRemove (h : ListHeap) (rem : Nat) : ListHeap :=
  let h := h.setNext (h rem).prev (h rem).next
  h.setPrev (h rem).next (h rem).prev

def listInsertBefore (h : ListHeap) (entry add : Nat) : ListHeap :=
  let h := h.setNext add entry
  let h := h.setPrev add (h entry).prev
  let h := h.setPrev entry add
  h.setNext (h add).prev add

def listInsertAfter (h : ListHeap) (entry add : Nat) : ListHeap :=
  let h := h.setNext add (h entry).next
  let h := h.setPrev add entry
  let h := h.setNext entry add
  h.setPrev (h add).next add

/-- The nodes from `p` to the head of the list, along one of the two links. `none` if there are
`fuel` nodes or more. -/
def walkList (follow : Nat → Nat) (head : Nat) : Nat → Nat → Option (List Nat)
  | 0, _ => none
  | fuel + 1, p => if p = head then some [] else (walkList follow head fuel (follow p)).map (p :: ·)

/-- The nodes that `list_iterate` goes through. -/
def listIterate (fuel : Nat) (h : ListHeap) (head : Nat) : Option (List Nat) :=
  walkList (fun p => (h p).next) head fuel (h head).next

/-- The nodes from the tail of the list, along the links to the previous node. -/
def listIterateBack (fuel : Nat) (h : ListHeap) (head : Nat) : Option (List Nat) :=
  walkList (fun p => (h p).prev) head fuel (h head).prev

def listContainsFrom (h : ListHeap) (head node : Nat) : Nat → Nat → Option Bool
  | 0, _ => none
  | fuel + 1, iter =>
    if iter = head then some false
    else if iter = node then some true
    else listContainsFrom h head node fuel (h iter).next

def listContains (fuel : Nat) (h : ListHeap) (head node : Nat) : Option Bool :=
  listContainsFrom h head node fuel (h head).next

/-- `list_free_entry_cb_t`: the callback gets the node and `param`, and may change the heap. -/
abbrev ListFreeEntryCb := Nat → Nat → ListHeap → ListHeap

/-- The heap afterwards, and the calls of the callback. -/
def listFree (callback : Option ListFreeEntryCb) (param : Nat) :
    Nat → ListHeap → Nat → Option (ListHeap × List (Nat × Nat))
  | 0, _, _ => none
  | fuel + 1, h, head =>
    if listEmpty h head then some (h, [])
    else
      let tail := (h head).prev
      let h := listRemove h tail
      match callback with
      | none => listFree callback param fuel h head
      | some cb => (listFree callback param fuel (cb tail param h) head).map fun r =>
          (r.1, (tail, param) :: r.2)

/-! ## The links of the heap -/

def links (h : ListHeap) : Links Nat := ⟨fun p => (h p).next, fun p => (h p).prev⟩

section Links
variable {h h' : ListHeap} {head entry add rem p n : Nat}

theorem links_setNext (h : ListHeap) (p v : Nat) :
    links (h.setNext p v) = ⟨Function.update (links h).next p v, (links h).prev⟩ := by
  ext n
  · by_cases hn : n = p
    · subst hn
      simp [links, ListHeap.setNext]
    · simp [links, ListHeap.setNext, Function.update_of_ne hn]
  · by_cases hn : n = p
    · subst hn
      simp [links, ListHeap.setNext]
    · simp [links, ListHeap.setNext, Function.update_of_ne hn]

theorem links_setPrev (h : ListHeap) (p v : Nat) :
    links (h.setPrev p v) = ⟨(links h).next, Function.update (links h).prev p v⟩ := by
  ext n
  · by_cases hn : n = p
    · subst hn
      simp [links, ListHeap.setPrev]
    · simp [links, ListHeap.setPrev, Function.update_of_ne hn]
  · by_cases hn : n = p
    · subst hn
      simp [links, ListHeap.setPrev]
    · simp [links, ListHeap.setPrev, Function.update_of_ne hn]

theorem heap_next (h : ListHeap) (p : Nat) : (h p).next = (links h).next p := rfl

theorem heap_prev (h : ListHeap) (p : Nat) : (h p).prev = (links h).prev p := rfl

theorem cell_eq_iff : h' n = h n ↔
    (links h').next n = (links h).next n ∧ (links h').prev n = (links h).prev n := by
  rw [← heap_next, ← heap_next, ← heap_prev, ← heap_prev]
  cases h' n
  cases h n
  exact ListNode.mk.injEq .. ▸ Iff.rfl

theorem links_listInit (h : ListHeap) (head : Nat) :
    links (listInit h head) = (links h).join head head := by
  rw [listInit, links_setPrev, links_setNext]
  rfl

theorem links_listAddTail (hhead : add ≠ head) (hprev : add ≠ (links h).prev head) :
    links (listAddTail h head add) = (links h).splice ((links h).prev head) add head := by
  simp only [listAddTail, heap_prev, links_setNext, links_setPrev]
  rw [Links.splice, Links.join, Links.join, Function.update_comm hprev,
    Function.update_comm hhead]

theorem links_listAddHead (h : ListHeap) (head add : Nat) :
    links (listAddHead h head add) = (links h).splice head add ((links h).next head) := by
  simp only [listAddHead, heap_next, links_setNext, links_setPrev]
  rfl

theorem links_listRemove (h : ListHeap) (rem : Nat) :
    links (listRemove h rem) = (links h).join ((links h).prev rem) ((links h).next rem) := by
  simp only [listRemove, heap_next, heap_prev, links_setNext, links_setPrev]
  -- The first assignment changes `rem->next` only if `rem` is its own neighbour, and then not.
  have hnext : Function.update (links h).next ((links h).prev rem) ((links h).next rem) rem =
      (links h).next rem := by
    rw [Function.update_apply]
    exact ite_self _
  rw [hnext]
  rfl

theorem links_listInsertBefore (hentry : add ≠ entry) :
    links (listInsertBefore h entry add) =
      (links h).splice ((links h).prev entry) add entry := by
  simp only [listInsertBefore, heap_prev, links_setNext, links_setPrev]
  rw [Function.update_of_ne hentry, Function.update_self, Function.update_comm hentry]
  rfl

theorem links_listInsertAfter (hentry : add ≠ entry) (hnext : add ≠ (links h).next entry) :
    links (listInsertAfter h entry add) =
      (links h).splice entry add ((links h).next entry) := by
  simp only [listInsertAfter, heap_next, links_setNext, links_setPrev]
  rw [Function.update_of_ne hentry, Function.update_self, Function.update_comm hnext]
  rfl

end Links

/-! ## One list -/

section Ring
variable {h h' : ListHeap} {head t : Nat} {xs ys : List Nat}

theorem ring_first (hring : Ring (links h) head xs) :
    (h head).next = xs.headD head :=
  (Ring.neighbours (show Ring (links h) head ([] ++ xs) from hring)).1

theorem listEmpty_eq (hring : Ring (links h) head xs) : listEmpty h head = xs.isEmpty := by
  rw [listEmpty, ring_first hring]
  cases xs with
  | nil => exact beq_self_eq_true head
  | cons x xs =>
    have hne : x ≠ head := fun heq => (List.nodup_cons.mp hring.nodup).1 (heq ▸ List.mem_cons_self)
    exact beq_eq_false_iff_ne.mpr hne

theorem walkList_eq {l : Links Nat} {a fuel : Nat}
    (hchain : List.IsChain (Linked l) (a :: (xs ++ [head]))) (hhead : head ∉ xs)
    (hfuel : xs.length < fuel) : walkList l.next head fuel (l.next a) = some xs := by
  induction xs generalizing a fuel with
  | nil =>
    obtain ⟨fuel, rfl⟩ := Nat.exists_eq_add_of_lt hfuel
    have hnext : l.next a = head := (List.isChain_cons_cons.mp hchain).1.1
    rw [hnext, List.length_nil, Nat.zero_add]
    exact if_pos rfl
  | cons x xs ih =>
    cases fuel with
    | zero => exact absurd hfuel (Nat.not_lt_zero _)
    | succ fuel =>
      obtain ⟨hlinked, hrest⟩ := List.isChain_cons_cons.mp hchain
      have hx : x ≠ head := fun heq => hhead (heq ▸ List.mem_cons_self)
      have hxs : head ∉ xs := fun hmem => hhead (List.mem_cons_of_mem x hmem)
      rw [hlinked.1, walkList, if_neg hx, ih hrest hxs (Nat.lt_of_succ_lt_succ hfuel)]
      rfl

theorem listIterate_eq {fuel : Nat} (hring : Ring (links h) head xs) (hfuel : xs.length < fuel) :
    listIterate fuel h head = some xs :=
  walkList_eq hring.chain (List.nodup_cons.mp hring.nodup).1 hfuel

theorem listIterateBack_eq {fuel : Nat} (hring : Ring (links h) head xs)
    (hfuel : xs.length < fuel) : listIterateBack fuel h head = some xs.reverse := by
  have hmirror := hring.mirror
  exact walkList_eq hmirror.chain (List.nodup_cons.mp hmirror.nodup).1
    (xs.length_reverse ▸ hfuel)

theorem listContainsFrom_eq {a fuel : Nat} (node : Nat)
    (hchain : List.IsChain (Linked (links h)) (a :: (xs ++ [head]))) (hhead : head ∉ xs)
    (hfuel : xs.length < fuel) :
    listContainsFrom h head node fuel ((links h).next a) = some (decide (node ∈ xs)) := by
  induction xs generalizing a fuel with
  | nil =>
    obtain ⟨fuel, rfl⟩ := Nat.exists_eq_add_of_lt hfuel
    have hnext : (links h).next a = head := (List.isChain_cons_cons.mp hchain).1.1
    rw [hnext, List.length_nil, Nat.zero_add]
    exact if_pos rfl
  | cons x xs ih =>
    cases fuel with
    | zero => exact absurd hfuel (Nat.not_lt_zero _)
    | succ fuel =>
      obtain ⟨hlinked, hrest⟩ := List.isChain_cons_cons.mp hchain
      have hx : x ≠ head := fun heq => hhead (heq ▸ List.mem_cons_self)
      have hxs : head ∉ xs := fun hmem => hhead (List.mem_cons_of_mem x hmem)
      rw [hlinked.1, listContainsFrom, if_neg hx]
      by_cases hnode : x = node
      · rw [if_pos hnode, decide_eq_true (hnode ▸ List.mem_cons_self)]
      · have hmem : node ∈ x :: xs ↔ node ∈ xs :=
          ⟨fun hmem => (List.mem_cons.mp hmem).resolve_left (Ne.symm hnode),
            List.mem_cons_of_mem x⟩
        rw [if_neg hnode, heap_next, ih hrest hxs (Nat.lt_of_succ_lt_succ hfuel),
          decide_eq_decide.mpr hmem]

theorem listContains_eq {fuel : Nat} (node : Nat) (hring : Ring (links h) head xs)
    (hfuel : xs.length < fuel) : listContains fuel h head node = some (decide (node ∈ xs)) :=
  listContainsFrom_eq node hring.chain (List.nodup_cons.mp hring.nodup).1 hfuel

/-- The callback for a node of the list `xs` changes neither the head nor the nodes before it, which
are still in the list. -/
def SparesRest (callback : Option ListFreeEntryCb) (param head : Nat) (xs : List Nat) : Prop :=
  ∀ cb ∈ callback, ∀ h ys node zs, xs = ys ++ node :: zs → ∀ n ∈ head :: ys, cb node param h n = h n

/-- The callback changes the node `n` for no node of the list. -/
def SparesNode (callback : Option ListFreeEntryCb) (param : Nat) (xs : List Nat) (n : Nat) : Prop :=
  ∀ cb ∈ callback, ∀ node ∈ xs, ∀ h, cb node param h n = h n

/-- What `list_free` does to the list: the calls, and the heap. -/
structure Freed (callback : Option ListFreeEntryCb) (param head : Nat) (xs : List Nat)
    (h h' : ListHeap) (calls : List (Nat × Nat)) : Prop where
  calls : calls = if callback.isSome then xs.reverse.map (·, param) else []
  ring : Ring (links h') head []
  empty : listEmpty h' head = true
  others : ∀ n, n ∉ head :: xs → SparesNode callback param xs n → h' n = h n

theorem listRemove_last (hring : Ring (links h) head (ys ++ [t])) :
    (h head).prev = t ∧ Ring (links (listRemove h t)) head ys ∧
      ∀ n, n ∉ head :: (ys ++ [t]) → listRemove h t n = h n := by
  obtain ⟨_, hprev, hnext, _⟩ := chain_middle_iff.mp hring.chain
  have hunlink := hring.unlink
  rw [← hprev.2, ← hnext.1, List.append_nil, ← links_listRemove] at hunlink
  refine ⟨hnext.2, hunlink, fun n hn => ?_⟩
  have hout : n ∉ head :: (ys ++ []) := by
    rw [List.append_nil]
    exact fun hmem => hn (List.mem_append_left [t] hmem)
  rw [cell_eq_iff, links_listRemove, hprev.2, hnext.1]
  exact ⟨join_next (ne_of_mem_of_not_mem (last_mem head ys []) hout).symm,
    join_prev (ne_of_mem_of_not_mem (first_mem head ys []) hout).symm⟩

theorem SparesRest.init {callback : Option ListFreeEntryCb} {param : Nat}
    (hspares : SparesRest callback param head (ys ++ [t])) :
    SparesRest callback param head ys := by
  rintro cb hcb h ys' node zs rfl
  exact hspares cb hcb h ys' node (zs ++ [t]) (by simp)

/-- A callback that changes the node it gets, and no other one. -/
theorem SparesRest.of_own {cb : ListFreeEntryCb} {param : Nat}
    (hown : ∀ node h n, n ≠ node → cb node param h n = h n) (hnodup : (head :: xs).Nodup) :
    SparesRest (some cb) param head xs := by
  rintro cb' hcb h ys node zs rfl n hn
  obtain rfl := Option.mem_some_iff.mp hcb
  have hnode := (nodup_middle_iff.mp hnodup).1
  exact hown node h n (ne_of_mem_of_not_mem (List.mem_append_left zs hn) hnode)

theorem SparesNode.init {callback : Option ListFreeEntryCb} {param n : Nat}
    (hspares : SparesNode callback param (ys ++ [t]) n) : SparesNode callback param ys n :=
  fun cb hcb node hnode => hspares cb hcb node (List.mem_append_left _ hnode)

theorem listFree_pass {callback : Option ListFreeEntryCb} {param fuel : Nat}
    (hempty : listEmpty h head = false) (htail : (h head).prev = t) :
    listFree callback param (fuel + 1) h head = match callback with
      | none => listFree callback param fuel (listRemove h t) head
      | some cb => (listFree callback param fuel (cb t param (listRemove h t)) head).map fun r =>
          (r.1, (t, param) :: r.2) := by
  rw [listFree, hempty, if_neg Bool.false_ne_true, htail]

/-- A pass of the loop that comes to the heap `h₁`, and the ones after it. -/
theorem Freed.pass {callback : Option ListFreeEntryCb} {param : Nat} {h₁ : ListHeap}
    {calls : List (Nat × Nat)} (hfreed : Freed callback param head ys h₁ h' calls)
    (hframe : ∀ n, n ∉ head :: (ys ++ [t]) → SparesNode callback param (ys ++ [t]) n → h₁ n = h n) :
    Freed callback param head (ys ++ [t]) h h'
      (if callback.isSome then (t, param) :: calls else calls) := by
  refine ⟨?_, hfreed.ring, hfreed.empty, fun n hn hspared => ?_⟩
  · rw [hfreed.calls, List.reverse_append]
    split <;> rfl
  · have hout : n ∉ head :: ys := fun hmem => hn (List.mem_append_left [t] hmem)
    exact (hfreed.others n hout hspared.init).trans (hframe n hn hspared)

/-- `list_free` takes the nodes out from the tail on, hands each to the callback, and leaves the list empty. -/
theorem listFree_spec {callback : Option ListFreeEntryCb} {param fuel : Nat}
    (hring : Ring (links h) head xs) (hspares : SparesRest callback param head xs)
    (hfuel : xs.length < fuel) :
    ∃ h' calls, listFree callback param fuel h head = some (h', calls) ∧
      Freed callback param head xs h h' calls := by
  induction xs using List.reverseRecOn generalizing h fuel with
  | nil =>
    obtain ⟨fuel, rfl⟩ := Nat.exists_eq_add_of_lt hfuel
    have hempty : listEmpty h head = true := listEmpty_eq hring
    refine ⟨h, [], ?_, ⟨(ite_self _).symm, hring, hempty, fun n _ _ => rfl⟩⟩
    rw [listFree, if_pos hempty]
  | append_singleton ys t ih =>
    cases fuel with
    | zero => exact absurd hfuel (Nat.not_lt_zero _)
    | succ fuel =>
      have hempty : listEmpty h head = false := by
        rw [listEmpty_eq hring]
        cases ys <;> rfl
      obtain ⟨htail, hrest, hframe⟩ := listRemove_last hring
      rw [List.length_append, List.length_singleton] at hfuel
      have hfuel' : ys.length < fuel := Nat.lt_of_succ_lt_succ hfuel
      rw [listFree_pass hempty htail]
      cases callback with
      | none =>
        obtain ⟨h', calls, hrun, hfreed⟩ := ih hrest hspares.init hfuel'
        exact ⟨h', calls, hrun, hfreed.pass fun n hn _ => hframe n hn⟩
      | some cb =>
        have hcalled : Ring (links (cb t param (listRemove h t))) head ys := by
          refine hrest.congr fun n hn => cell_eq_iff.mp ?_
          exact hspares cb rfl (listRemove h t) ys t [] rfl n hn
        obtain ⟨h', calls, hrun, hfreed⟩ := ih hcalled hspares.init hfuel'
        refine ⟨h', (t, param) :: calls, ?_, hfreed.pass fun n hn hspared => ?_⟩
        · dsimp only
          rw [hrun]
          rfl
        · have hkept := hspared cb rfl t (List.mem_append_right _ List.mem_cons_self) (listRemove h t)
          exact hkept.trans (hframe n hn)

end Ring

/-! ## The operations -/

inductive ListOp where
  | init (head : Nat)
  | addTail (head add : Nat)
  | addHead (head add : Nat)
  | insertBefore (entry add : Nat)
  | insertAfter (entry add : Nat)
  | remove (rem : Nat)

def ListOp.run (h : ListHeap) : ListOp → ListHeap
  | .init head => listInit h head
  | .addTail head add => listAddTail h head add
  | .addHead head add => listAddHead h head add
  | .insertBefore entry add => listInsertBefore h entry add
  | .insertAfter entry add => listInsertAfter h entry add
  | .remove rem => listRemove h rem

/-- The sequence with other nodes for `entry`. -/
def seqReplace (entry : Nat) (nodes : List Nat) : List Nat → List Nat
  | [] => []
  | x :: xs => if x = entry then nodes ++ xs else x :: seqReplace entry nodes xs

/-- The operation on sequences. The source takes a node as the insertion point, or to be removed,
and not the list it is in. The head stands before the first element and after the last one. -/
def ListOp.apply (L : Seqs Nat) : ListOp → Seqs Nat
  | .init head => Function.update L head (some [])
  | .addTail head add => Function.update L head ((L head).map (· ++ [add]))
  | .addHead head add => Function.update L head ((L head).map (add :: ·))
  | .insertBefore entry add => fun head => (L head).map fun xs =>
      if entry = head then xs ++ [add] else seqReplace entry [add, entry] xs
  | .insertAfter entry add => fun head => (L head).map fun xs =>
      if entry = head then add :: xs else seqReplace entry [entry, add] xs
  | .remove rem => fun head => (L head).map (·.erase rem)

/-- The node whose list the operation is about. -/
def ListOp.place : ListOp → Nat
  | .init head => head
  | .addTail head _ => head
  | .addHead head _ => head
  | .insertBefore entry _ => entry
  | .insertAfter entry _ => entry
  | .remove rem => rem

/-- Only nodes that are in no list are inserted, and only nodes in a list are removed or used as the
insertion point. A head is in its list and cannot be removed from it. The head of a new list is not
an element of one. -/
def ListOp.Legal (L : Seqs Nat) : ListOp → Prop
  | .init head => ∀ head', InList L head' head → head' = head
  | .addTail head add => (∃ xs, L head = some xs) ∧ Free L add
  | .addHead head add => (∃ xs, L head = some xs) ∧ Free L add
  | .insertBefore entry add => (∃ head, InList L head entry) ∧ Free L add
  | .insertAfter entry add => (∃ head, InList L head entry) ∧ Free L add
  | .remove rem => ∃ head xs, L head = some xs ∧ rem ∈ xs

/-- No list has been made yet. -/
def noLists : Seqs Nat := fun _ => none

/-- What an operation does: it changes the list `head`, in the heap as in the sequences. -/
structure ListOp.Refines (op : ListOp) (h : ListHeap) (L : Seqs Nat) (head : Nat) : Prop where
  place : op.place = head ∨ InList L head op.place
  rings : Rings (links (op.run h)) (op.apply L)
  spares : Spares L head (links h) (links (op.run h))
  others : ∀ head', head' ≠ head → op.apply L head' = L head'

section Refines
variable {h : ListHeap} {L : Seqs Nat} {head entry add : Nat} {xs ys zs nodes : List Nat}

theorem seqReplace_of_notMem (hout : entry ∉ xs) : seqReplace entry nodes xs = xs := by
  induction xs with
  | nil => rfl
  | cons x xs ih =>
    obtain ⟨hx, hxs⟩ := List.ne_and_not_mem_of_not_mem_cons hout
    rw [seqReplace, if_neg (Ne.symm hx), ih hxs]

theorem seqReplace_split (hout : entry ∉ ys) :
    seqReplace entry nodes (ys ++ entry :: zs) = ys ++ (nodes ++ zs) := by
  induction ys with
  | nil => exact if_pos rfl
  | cons y ys ih =>
    obtain ⟨hy, hys⟩ := List.ne_and_not_mem_of_not_mem_cons hout
    rw [List.cons_append, seqReplace, if_neg (Ne.symm hy), ih hys]
    rfl

/-- A function of all lists that changes one of them. -/
theorem map_eq_update {f : Nat → List Nat → List Nat} (hlist : L head = some xs)
    (hothers : ∀ head' xs', head' ≠ head → L head' = some xs' → f head' xs' = xs') :
    (fun head' => (L head').map (f head')) = Function.update L head (some (f head xs)) := by
  funext head'
  by_cases hhead : head' = head
  · subst hhead
    rw [Function.update_self, hlist]
    rfl
  · rw [Function.update_of_ne hhead]
    cases hother : L head' with
    | none => rfl
    | some xs' => exact congrArg some (hothers head' xs' hhead hother)

/-- A list without the node of a list is another one. -/
theorem notMem_other {head' : Nat} {xs' : List Nat} (hrings : Rings (links h) L)
    (hentry : InList L head entry) (hne : head' ≠ head) (hlist : L head' = some xs') :
    entry ∉ head' :: xs' :=
  fun hmem => hne (hrings.apart head' head entry (InList.of_eq hlist hmem) hentry)

/-- An operation that links a node in where a list is cut in two. -/
theorem refines_splice (op : ListOp) (hrings : Rings (links h) L) (hlist : L head = some (ys ++ zs))
    (hfree : Free L add) (hplace : op.place ∈ head :: (ys ++ zs))
    (hrun : links (op.run h) = (links h).splice (ys.getLastD head) add (zs.headD head))
    (happly : op.apply L = Function.update L head (some (ys ++ add :: zs))) :
    op.Refines h L head := by
  obtain ⟨hring, hspares⟩ := hrings.splice hlist hfree
  rw [← hrun] at hring hspares
  refine ⟨Or.inr (InList.of_eq hlist hplace), happly ▸ hring, hspares, fun head' hne => ?_⟩
  rw [happly, Function.update_of_ne hne]

theorem refines_init (hrings : Rings (links h) L) (hlegal : (ListOp.init head).Legal L) :
    (ListOp.init head).Refines h L head := by
  obtain ⟨hring, hspares⟩ := hrings.init hlegal
  rw [← links_listInit] at hring hspares
  exact ⟨Or.inl rfl, hring, hspares, fun head' hne => Function.update_of_ne hne ..⟩

/-- An insertion before the node `entry`, also as the head of the list. -/
theorem refines_before (op : ListOp) (hplace : op.place = entry) (hrings : Rings (links h) L)
    (hlist : L head = some (ys ++ zs)) (hentry : zs.headD head = entry) (hfree : Free L add)
    (hrun : add ≠ entry → add ≠ (links h).prev entry →
      links (op.run h) = (links h).splice ((links h).prev entry) add entry)
    (happly : op.apply L = Function.update L head (some (ys ++ add :: zs))) :
    op.Refines h L head := by
  subst hentry
  have hprev := (hrings.ring head _ hlist).neighbours.2
  have hnew : ∀ n ∈ head :: (ys ++ zs), add ≠ n := fun n hn => hfree.ne (InList.of_eq hlist hn)
  rw [hprev] at hrun
  refine refines_splice op hrings hlist hfree (hplace ▸ first_mem head ys zs) ?_ happly
  exact hrun (hnew _ (first_mem head ys zs)) (hnew _ (last_mem head ys zs))

/-- An insertion after the node `entry`, also as the head of the list. -/
theorem refines_after (op : ListOp) (hplace : op.place = entry) (hrings : Rings (links h) L)
    (hlist : L head = some (ys ++ zs)) (hentry : ys.getLastD head = entry) (hfree : Free L add)
    (hrun : add ≠ entry → add ≠ (links h).next entry →
      links (op.run h) = (links h).splice entry add ((links h).next entry))
    (happly : op.apply L = Function.update L head (some (ys ++ add :: zs))) :
    op.Refines h L head := by
  subst hentry
  have hnext := (hrings.ring head _ hlist).neighbours.1
  have hnew : ∀ n ∈ head :: (ys ++ zs), add ≠ n := fun n hn => hfree.ne (InList.of_eq hlist hn)
  rw [hnext] at hrun
  refine refines_splice op hrings hlist hfree (hplace ▸ last_mem head ys zs) ?_ happly
  exact hrun (hnew _ (last_mem head ys zs)) (hnew _ (first_mem head ys zs))

/-- Where the heap is changed in one list only, all sequences can be mapped: the others have no
`entry`. -/
theorem insert_eq_update (hrings : Rings (links h) L) (hlist : L head = some xs)
    (hmem : entry ∈ head :: xs) (ends : List Nat → List Nat) (nodes : List Nat) :
    (fun head' => (L head').map fun xs' =>
        if entry = head' then ends xs' else seqReplace entry nodes xs') =
      Function.update L head
        (some (if entry = head then ends xs else seqReplace entry nodes xs)) := by
  refine map_eq_update hlist fun head' xs' hne hother => ?_
  obtain ⟨hhead', hout⟩ := List.ne_and_not_mem_of_not_mem_cons
    (notMem_other hrings (InList.of_eq hlist hmem) hne hother)
  rw [if_neg hhead', seqReplace_of_notMem hout]

theorem refines_insertBefore (hrings : Rings (links h) L) (hin : InList L head entry)
    (hfree : Free L add) : (ListOp.insertBefore entry add).Refines h L head := by
  obtain ⟨xs, hlist, hmem⟩ := hin
  have happly := insert_eq_update hrings hlist hmem (· ++ [add]) [add, entry]
  by_cases hhead : entry = head
  · rw [if_pos hhead] at happly
    rw [← List.append_nil xs] at hlist
    exact refines_before _ rfl hrings hlist hhead.symm hfree
      (fun hne _ => links_listInsertBefore hne) happly
  · have hxs := (List.mem_cons.mp hmem).resolve_left hhead
    obtain ⟨ys, zs, hout, rfl, -⟩ := List.exists_erase_eq hxs
    rw [if_neg hhead, seqReplace_split hout] at happly
    exact refines_before _ rfl hrings hlist rfl hfree
      (fun hne _ => links_listInsertBefore hne) happly

theorem refines_insertAfter (hrings : Rings (links h) L) (hin : InList L head entry)
    (hfree : Free L add) : (ListOp.insertAfter entry add).Refines h L head := by
  obtain ⟨xs, hlist, hmem⟩ := hin
  have happly := insert_eq_update hrings hlist hmem (add :: ·) [entry, add]
  by_cases hhead : entry = head
  · rw [if_pos hhead] at happly
    exact refines_after _ rfl hrings (show L head = some ([] ++ xs) from hlist) hhead.symm hfree
      links_listInsertAfter happly
  · have hxs := (List.mem_cons.mp hmem).resolve_left hhead
    obtain ⟨ys, zs, hout, rfl, -⟩ := List.exists_erase_eq hxs
    rw [if_neg hhead, seqReplace_split hout] at happly
    rw [List.append_cons] at hlist
    refine refines_after _ rfl hrings hlist List.getLastD_concat hfree links_listInsertAfter ?_
    rw [← List.append_cons]
    exact happly

theorem refines_addTail (hrings : Rings (links h) L) (hlist : L head = some xs)
    (hfree : Free L add) :
    (ListOp.addTail head add).Refines h L head := by
  have happly : (ListOp.addTail head add).apply L =
      Function.update L head (some (xs ++ [add])) := by
    rw [ListOp.apply, hlist]
    rfl
  rw [← List.append_nil xs] at hlist
  exact refines_before _ rfl hrings hlist rfl hfree links_listAddTail happly

theorem refines_addHead (hrings : Rings (links h) L) (hlist : L head = some xs)
    (hfree : Free L add) :
    (ListOp.addHead head add).Refines h L head := by
  have happly : (ListOp.addHead head add).apply L =
      Function.update L head (some (add :: xs)) := by
    rw [ListOp.apply, hlist]
    rfl
  exact refines_after _ rfl hrings (show L head = some ([] ++ xs) from hlist) rfl hfree
    (fun _ _ => links_listAddHead h head add) happly

theorem refines_remove {rem : Nat} (hrings : Rings (links h) L) (hlist : L head = some xs)
    (hmem : rem ∈ xs) : (ListOp.remove rem).Refines h L head := by
  have hin : InList L head rem := InList.of_eq hlist (List.mem_cons_of_mem _ hmem)
  have happly := map_eq_update (f := fun _ xs => xs.erase rem) hlist fun head' xs' hne hother =>
    List.erase_of_not_mem (List.not_mem_of_not_mem_cons (notMem_other hrings hin hne hother))
  obtain ⟨ys, zs, hout, rfl, herase⟩ := List.exists_erase_eq hmem
  rw [herase] at happly
  obtain ⟨hring, hspares⟩ := hrings.remove hlist
  rw [← links_listRemove, ← happly] at hring
  rw [← links_listRemove] at hspares
  refine ⟨Or.inr hin, hring, hspares, fun head' hne => ?_⟩
  exact (congrFun happly head').trans (Function.update_of_ne hne ..)

theorem ListOp.run_refines (op : ListOp) (hrings : Rings (links h) L) (hlegal : op.Legal L) :
    ∃ head, op.Refines h L head := by
  cases op with
  | init head => exact ⟨head, refines_init hrings hlegal⟩
  | addTail head add =>
    obtain ⟨⟨xs, hlist⟩, hfree⟩ := hlegal
    exact ⟨head, refines_addTail hrings hlist hfree⟩
  | addHead head add =>
    obtain ⟨⟨xs, hlist⟩, hfree⟩ := hlegal
    exact ⟨head, refines_addHead hrings hlist hfree⟩
  | insertBefore entry add =>
    obtain ⟨⟨head, hin⟩, hfree⟩ := hlegal
    exact ⟨head, refines_insertBefore hrings hin hfree⟩
  | insertAfter entry add =>
    obtain ⟨⟨head, hin⟩, hfree⟩ := hlegal
    exact ⟨head, refines_insertAfter hrings hin hfree⟩
  | remove rem =>
    obtain ⟨head, xs, hlist, hmem⟩ := hlegal
    exact ⟨head, refines_remove hrings hlist hmem⟩

end Refines

/-! ## Any operations -/

/-- An operation on the heap and on the sequences that it stands for. -/
def listStep (s : ListHeap × Seqs Nat) (op : ListOp) : ListHeap × Seqs Nat :=
  (op.run s.1, op.apply s.2)

/-- The operation changes neither the sequence nor a node of a list that it is not about. -/
def ListOp.SparesOthers (s : ListHeap × Seqs Nat) (op : ListOp) : Prop :=
  ∀ head xs, s.2 head = some xs → op.place ∉ head :: xs →
    op.apply s.2 head = some xs ∧ ∀ n ∈ head :: xs, op.run s.1 n = s.1 n

/-- The list `head` of the heap is the sequence `xs`. -/
structure IsList (h : ListHeap) (head : Nat) (xs : List Nat) : Prop where
  ring : Ring (links h) head xs
  forward : ∀ fuel, xs.length < fuel → listIterate fuel h head = some xs
  backward : ∀ fuel, xs.length < fuel → listIterateBack fuel h head = some xs.reverse
  empty : listEmpty h head = xs.isEmpty
  contains : ∀ node fuel, xs.length < fuel →
    listContains fuel h head node = some (decide (node ∈ xs))
  free : ∀ callback param fuel, SparesRest callback param head xs → xs.length < fuel →
    ∃ h' calls, listFree callback param fuel h head = some (h', calls) ∧
      Freed callback param head xs h h' calls

section Runs
variable {h : ListHeap} {L : Seqs Nat} {head : Nat} {xs : List Nat}

theorem IsList.of_ring (hring : Ring (links h) head xs) : IsList h head xs where
  ring := hring
  forward _ hfuel := listIterate_eq hring hfuel
  backward _ hfuel := listIterateBack_eq hring hfuel
  empty := listEmpty_eq hring
  contains node _ hfuel := listContains_eq node hring hfuel
  free _ _ _ hspares hfuel := listFree_spec hring hspares hfuel

theorem ListOp.Refines.sparesOthers {op : ListOp} (hop : op.Refines h L head) :
    op.SparesOthers (h, L) := by
  intro head' xs hlist hplace
  have hne : head' ≠ head := by
    rintro rfl
    rcases hop.place with hhead | hin
    · exact hplace (hhead ▸ List.mem_cons_self)
    · exact hplace ((inList_iff hlist).mp hin)
  refine ⟨(hop.others head' hne).trans hlist, fun n hn => cell_eq_iff.mpr ?_⟩
  exact hop.spares head' n hne (InList.of_eq hlist hn)

theorem listSteps_refine {ops : List ListOp} (hrings : Rings (links h) L)
    (hlegal : Steps.Each ListOp.apply ListOp.Legal L ops) :
    Steps.Each listStep ListOp.SparesOthers (h, L) ops ∧
      Rings (links (ops.foldl ListOp.run h)) (ops.foldl ListOp.apply L) := by
  induction ops generalizing h L with
  | nil => exact ⟨trivial, hrings⟩
  | cons op ops ih =>
    obtain ⟨hfirst, hrest⟩ := hlegal
    obtain ⟨head, hop⟩ := op.run_refines hrings hfirst
    obtain ⟨hsteps, hend⟩ := ih hop.rings hrest
    exact ⟨⟨hop.sparesOthers, hsteps⟩, hend⟩

/-- From a heap without lists, for any operations as their callers may make them. -/
theorem intrusive_list_refines (h : ListHeap) (ops : List ListOp)
    (hlegal : Steps.Each ListOp.apply ListOp.Legal noLists ops) :
    Steps.Each listStep ListOp.SparesOthers (h, noLists) ops ∧
      ∀ head xs, ops.foldl ListOp.apply noLists head = some xs →
        IsList (ops.foldl ListOp.run h) head xs := by
  obtain ⟨hsteps, hrings⟩ := listSteps_refine (Rings.none (links h)) hlegal
  exact ⟨hsteps, fun head xs hlist => .of_ring (hrings.ring head xs hlist)⟩

/-- Two lists, with the heads 1 and 2. -/
def twoSeqs (xs ys : List Nat) : Seqs Nat :=
  fun head => if head = 1 then some xs else if head = 2 then some ys else none

theorem twoSeqs_map (f : Nat → List Nat → List Nat) (xs ys : List Nat) :
    (fun head => (twoSeqs xs ys head).map (f head)) = twoSeqs (f 1 xs) (f 2 ys) := by
  funext head
  unfold twoSeqs
  split_ifs with h₁ h₂
  · rw [h₁, Option.map_some]
  · rw [h₂, Option.map_some]
  · exact Option.map_none ..

theorem twoSeqs_free {n : Nat} {xs ys : List Nat} (hxs : n ∉ 1 :: xs) (hys : n ∉ 2 :: ys) :
    Free (twoSeqs xs ys) n := by
  rintro head ⟨zs, hlist, hmem⟩
  unfold twoSeqs at hlist
  split_ifs at hlist with h₁ h₂
  · subst h₁
    obtain rfl := Option.some.inj hlist
    exact hxs hmem
  · subst h₂
    obtain rfl := Option.some.inj hlist
    exact hys hmem

def twoListsOps : List ListOp :=
  [.init 1, .init 2, .addTail 1 10, .addHead 2 20, .insertBefore 10 11, .insertAfter 20 21,
    .remove 10]

theorem twoSeqs_init : (ListOp.init 2).apply ((ListOp.init 1).apply noLists) = twoSeqs [] [] := by
  funext head
  simp only [ListOp.apply, noLists, twoSeqs, Function.update_apply]
  grind

theorem twoListsOps_legal : Steps.Each ListOp.apply ListOp.Legal noLists twoListsOps := by
  have hfirst : (ListOp.init 1).Legal noLists := fun _ ⟨_, hlist, _⟩ => nomatch hlist
  have hsecond : (ListOp.init 2).Legal ((ListOp.init 1).apply noLists) := by
    rintro head ⟨xs, hlist, hmem⟩
    simp only [ListOp.apply, noLists, Function.update_apply] at hlist
    grind
  have htail : (ListOp.addTail 1 10).apply (twoSeqs [] []) = twoSeqs [10] [] := by
    funext head
    simp only [ListOp.apply, twoSeqs, Function.update_apply]
    grind
  have hhead : (ListOp.addHead 2 20).apply (twoSeqs [10] []) = twoSeqs [10] [20] := by
    funext head
    simp only [ListOp.apply, twoSeqs, Function.update_apply]
    grind
  have hbefore : (ListOp.insertBefore 10 11).apply (twoSeqs [10] [20]) = twoSeqs [11, 10] [20] :=
    twoSeqs_map ..
  have hafter : (ListOp.insertAfter 20 21).apply (twoSeqs [11, 10] [20]) =
      twoSeqs [11, 10] [20, 21] := twoSeqs_map ..
  refine ⟨hfirst, hsecond, ?_⟩
  rw [twoSeqs_init]
  refine ⟨⟨⟨[], rfl⟩, twoSeqs_free (by decide) (by decide)⟩, ?_⟩
  rw [htail]
  refine ⟨⟨⟨[], rfl⟩, twoSeqs_free (by decide) (by decide)⟩, ?_⟩
  rw [hhead]
  refine ⟨⟨⟨1, [10], rfl, by decide⟩, twoSeqs_free (by decide) (by decide)⟩, ?_⟩
  rw [hbefore]
  refine ⟨⟨⟨2, [20], rfl, by decide⟩, twoSeqs_free (by decide) (by decide)⟩, ?_⟩
  rw [hafter]
  exact ⟨⟨1, [11, 10], rfl, by decide⟩, trivial⟩

/-- A callback that clears the node. -/
def clearNode : ListFreeEntryCb := fun node _ h => Function.update h node ⟨0, 0⟩

theorem twoListsOps_refined :
    IsList (twoListsOps.foldl ListOp.run fun _ => ⟨0, 0⟩) 1 [11] ∧
    IsList (twoListsOps.foldl ListOp.run fun _ => ⟨0, 0⟩) 2 [20, 21] ∧
    ∃ h', listFree (some clearNode) 7 3 (twoListsOps.foldl ListOp.run fun _ => ⟨0, 0⟩) 2 =
      some (h', [(21, 7), (20, 7)]) ∧ listEmpty h' 2 = true := by
  have hlists := (intrusive_list_refines (fun _ => ⟨0, 0⟩) twoListsOps twoListsOps_legal).2
  have htwo := hlists 2 [20, 21] rfl
  have hspares : SparesRest (some clearNode) 7 2 [20, 21] :=
    .of_own (fun _ _ _ hne => Function.update_of_ne hne ..) htwo.ring.nodup
  obtain ⟨h', calls, hrun, hfreed⟩ := htwo.free (some clearNode) 7 3 hspares (by decide)
  obtain rfl := hfreed.calls
  exact ⟨hlists 1 [11] rfl, htwo, h', hrun, hfreed.empty⟩

end Runs

end Cb6502
