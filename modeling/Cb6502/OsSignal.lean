import Cb6502.IntrusiveList
import Cb6502.Lib.Steps

/- Signals of the operating system (port/os/linux/src/os_signal.c): the callbacks for Ctrl-C, in an
   intrusive list, behind one handler of `SIGINT`. The table of the actions and `sigaction` are those of
   the system: an action can be set for the signals from 1 to 64 that are not `SIGKILL` or `SIGSTOP`.
   The callbacks themselves neither register nor unregister one.

   The source masks `SIGINT` nowhere. In a run a Ctrl-C comes between two calls; what one finds in the
   middle of a call is said apart.

   What is proved:
     1. `ring_addTail`, `ring_remove` (the list of the callbacks).
     2. `SignalRecord.Holds.step`; so `os_signal_callbacks` (in every run a Ctrl-C between the calls calls
        what is registered, in order, and what `SIGINT` did before the first registration never comes back).
     3. `register_interrupted`, `unregister_interrupted` (a Ctrl-C in the middle of `list_add_tail` comes to
        `NULL`; one in the middle of `list_remove` calls what stays registered). -/
namespace Cb6502
open LinkedRing

def SIGINT : Nat := 2

/-- The one value of `os_signal_t` -/
def OS_CTRLC : Nat := 0

/-- The address of `sigint_list` -/
def sigintList : Nat := 1

/-- `signal_data_t`, whose node has the address of the whole. A callback of 0 is `NULL`. -/
structure SignalData where
  signal : Nat
  callback : Nat
  userdata : Nat
  deriving DecidableEq

/-- What is done with a signal: `sig_handler` is called, or something else. -/
inductive SigAction where
  | sigHandler
  | other (n : Nat)
  deriving DecidableEq

/-- The heap with the nodes, the data that are allocated, `old_sigint`, and the system's actions. -/
structure OsSignals where
  heap : ListHeap
  signalData : Nat → Option SignalData
  oldSigint : SigAction
  actions : Nat → SigAction

/-- `sigaction`, which fails for a number that is not one of a signal or one that cannot be caught. -/
def sigaction (actions : Nat → SigAction) (signum : Nat) (new : SigAction) : Option (Nat → SigAction) :=
  if signum = 0 ∨ 64 < signum ∨ signum = 9 ∨ signum = 19 then none
  else some (Function.update actions signum new)

/-- `os_register_signal`; `data` is what `malloc` returns. -/
def osRegisterSignal (s : OsSignals) (data signal callback userdata : Nat) : Option Nat × OsSignals :=
  if callback = 0 then (none, s)
  else if data = 0 then (none, s)
  else if signal ≠ OS_CTRLC then (none, s)
  else
    let registered :=
      if listEmpty s.heap sigintList then
        (sigaction s.actions SIGINT .sigHandler).map fun actions =>
          { s with oldSigint := s.actions SIGINT, actions }
      else some s
    match registered with
    | none => (none, s)
    | some s =>
      (some data, { s with
        heap := listAddTail s.heap sigintList data
        signalData := Function.update s.signalData data (some ⟨signal, callback, userdata⟩) })

/-- `os_unregister_signal`, for `NULL` and for a handle whose data are allocated. -/
def osUnregisterSignal (fuel : Nat) (s : OsSignals) (handle : Nat) : Option OsSignals :=
  match s.signalData handle with
  | none => some s
  | some data =>
    if data.signal ≠ OS_CTRLC then some s
    else (listContains fuel s.heap sigintList handle).map fun found =>
      if found then
        let heap := listRemove s.heap handle
        let actions :=
          if listEmpty heap sigintList then
            -- The number is that of the enumeration.
            (sigaction s.actions data.signal s.oldSigint).getD s.actions
          else s.actions
        { s with heap, actions, signalData := Function.update s.signalData handle none }
      else s

/-- `sig_handler`: the callbacks that are called. -/
def sigHandler (fuel : Nat) (s : OsSignals) (signum : Nat) : Option (List SignalData) :=
  if signum = SIGINT then (listIterate fuel s.heap sigintList).map (·.filterMap s.signalData) else some []

/-! ## Runs -/

inductive SignalOp where
  | register (data signal callback userdata : Nat)
  | unregister (handle : Nat)
  | ctrlC

inductive SignalOutcome where
  | handle (handle : Option Nat)
  | done
  | calls (callbacks : List SignalData)
  | action (n : Nat)
  deriving DecidableEq

/-- A Ctrl-C between two calls. -/
def SignalOp.step (fuel : Nat) (s : OsSignals) : SignalOp → Option (SignalOutcome × OsSignals)
  | .register data signal callback userdata =>
    let (handle, s) := osRegisterSignal s data signal callback userdata
    some (.handle handle, s)
  | .unregister handle => (osUnregisterSignal fuel s handle).map fun s => (.done, s)
  | .ctrlC =>
    match s.actions SIGINT with
    | .sigHandler => (sigHandler fuel s SIGINT).map fun callbacks => (.calls callbacks, s)
    | .other n => some (.action n, s)

def signalRun (fuel : Nat) : OsSignals → List SignalOp → Option (List SignalOutcome × OsSignals)
  | s, [] => some ([], s)
  | s, op :: ops =>
    (op.step fuel s).bind fun (outcome, s) =>
      (signalRun fuel s ops).map fun (outcomes, s) => (outcome :: outcomes, s)

/-- When the program starts. -/
def OsSignals.start (actions : Nat → SigAction) : OsSignals where
  heap := listInit (fun _ => ⟨0, 0⟩) sigintList
  signalData _ := none
  oldSigint := .other 0
  actions := actions

/-! ## What is registered -/

/-- The callbacks by their handles, in the order of their registration; whether there has been one, and
one behind an empty list. -/
structure SignalRecord where
  live : List (Nat × SignalData) := []
  caught : Bool := false
  again : Bool := false

/-- An operation, when the program started with the action `n` for `SIGINT`. -/
def SignalOp.record (n : Nat) (r : SignalRecord) : SignalOp → SignalOutcome × SignalRecord
  | .register data signal callback userdata =>
    if callback = 0 ∨ data = 0 ∨ signal ≠ OS_CTRLC then (.handle none, r)
    else (.handle (some data),
      { live := r.live ++ [(data, ⟨signal, callback, userdata⟩)], caught := true,
        again := r.again || (r.caught && r.live.isEmpty) })
  | .unregister handle => (.done, { r with live := r.live.filter (·.1 ≠ handle) })
  | .ctrlC => (if r.caught then .calls (r.live.map (·.2)) else .action n, r)

def recordRun (n : Nat) : SignalRecord → List SignalOp → List SignalOutcome × SignalRecord
  | r, [] => ([], r)
  | r, op :: ops =>
    ((op.record n r).1 :: (recordRun n (op.record n r).2 ops).1, (recordRun n (op.record n r).2 ops).2)

/-- `malloc` returns memory that is not in use, and a handle is `NULL` or one that is registered. -/
def SignalOp.Legal (r : SignalRecord) : SignalOp → Prop
  | .register data _ _ _ => data ≠ sigintList ∧ data ∉ r.live.map (·.1)
  | .unregister handle => handle = 0 ∨ handle ∈ r.live.map (·.1)
  | .ctrlC => True

/-- The state of the source and what is registered. -/
structure SignalRecord.Holds (n : Nat) (r : SignalRecord) (s : OsSignals) : Prop where
  ring : Ring (links s.heap) sigintList (r.live.map (·.1))
  data : ∀ node d, s.signalData node = some d ↔ (node, d) ∈ r.live
  signal : ∀ entry ∈ r.live, entry.2.signal = OS_CTRLC
  action : s.actions SIGINT = if r.caught then .sigHandler else .other n
  old : r.caught = true → s.oldSigint = if r.again then .sigHandler else .other n
  any : r.caught = false → r.live = [] ∧ r.again = false

/-! ## The list -/

section Ring
variable {h : ListHeap} {head node : Nat} {xs : List Nat}

/-- The one list of the heap. -/
theorem rings_one (hring : Ring (links h) head xs) :
    Rings (links h) (Function.update noLists head (some xs)) := by
  have hone : ∀ head' ys, Function.update noLists head (some xs) head' = some ys → head' = head ∧ ys = xs := by
    intro head' ys hys
    by_cases hhead : head' = head
    · subst hhead
      rw [Function.update_self] at hys
      exact ⟨rfl, (Option.some.inj hys).symm⟩
    · rw [Function.update_of_ne hhead] at hys
      cases hys
  refine ⟨fun head' ys hys => ?_, ?_⟩
  · obtain ⟨rfl, rfl⟩ := hone head' ys hys
    exact hring
  · rintro head₁ head₂ n ⟨ys, hys, -⟩ ⟨zs, hzs, -⟩
    rw [(hone head₁ ys hys).1, (hone head₂ zs hzs).1]

theorem ring_addTail (hring : Ring (links h) head xs) (hnew : node ∉ head :: xs) :
    Ring (links (listAddTail h head node)) head (xs ++ [node]) := by
  have hlist : Function.update noLists head (some xs) head = some xs := Function.update_self ..
  have hfree : Free (Function.update noLists head (some xs)) node := by
    rintro head' ⟨ys, hys, hmem⟩
    by_cases hhead : head' = head
    · subst hhead
      rw [hlist] at hys
      obtain rfl := Option.some.inj hys
      exact hnew hmem
    · rw [Function.update_of_ne hhead] at hys
      cases hys
  have hrefines := refines_addTail (rings_one hring) hlist hfree
  refine hrefines.rings.ring head _ ?_
  rw [ListOp.apply, Function.update_self, hlist]
  rfl

theorem ring_remove (hring : Ring (links h) head xs) (hmem : node ∈ xs) :
    Ring (links (listRemove h node)) head (xs.erase node) := by
  have hlist : Function.update noLists head (some xs) head = some xs := Function.update_self ..
  have hrefines := refines_remove (rings_one hring) hlist hmem
  refine hrefines.rings.ring head _ ?_
  show ((Function.update noLists head (some xs)) head).map (·.erase node) = _
  rw [hlist]
  rfl

end Ring

/-! ## In the middle of an operation -/

/-- The heaps between the assignments of `list_add_tail`. -/
def listAddTailInside (h : ListHeap) (head add : Nat) : List ListHeap :=
  let h₁ := h.setNext (h head).prev add
  let h₂ := h₁.setPrev add (h₁ head).prev
  let h₃ := h₂.setPrev head add
  [h₁, h₂, h₃]

theorem next_setPrev (h : ListHeap) (p v n : Nat) : ((h.setPrev p v) n).next = (h n).next := by
  rw [heap_next, links_setPrev]
  rfl

section Inside
variable {h heap : ListHeap} {head node : Nat} {xs : List Nat}

theorem next_inside (hin : heap ∈ listAddTailInside h head node) (n : Nat) :
    (heap n).next = Function.update (fun p => (h p).next) (h head).prev node n := by
  simp only [listAddTailInside, List.mem_cons, List.not_mem_nil, or_false] at hin
  rcases hin with rfl | rfl | rfl
  · rw [heap_next, links_setNext]
    rfl
  · rw [next_setPrev, heap_next, links_setNext]
    rfl
  · rw [next_setPrev, next_setPrev, heap_next, links_setNext]
    rfl

/-- The last assignment is that of the link from the new node to the head. -/
theorem listAddTail_inside (h : ListHeap) (head add : Nat) :
    ∃ heap ∈ listAddTailInside h head add, listAddTail h head add = heap.setNext add head :=
  ⟨_, .tail _ (.tail _ (.head _)), rfl⟩

theorem prev_mem (hring : Ring (links h) head xs) : (h head).prev ∈ head :: xs := by
  have hring' : Ring (links h) head (xs ++ []) := by rwa [List.append_nil]
  have hprev : (h head).prev = xs.getLastD head := hring'.neighbours.2
  rw [hprev]
  exact List.getLastD_mem_cons ..

/-- The links to the next node lead to the new one, and from there where it led before. -/
theorem chain_inside (hring : Ring (links h) head xs) (hnew : node ∉ head :: xs)
    (hin : heap ∈ listAddTailInside h head node) :
    List.IsChain (fun a b => (heap a).next = b) ((head :: xs) ++ [node, (h node).next]) := by
  have hdone := ring_addTail hring hnew
  have hchain : List.IsChain (Linked (links (listAddTail h head node))) ((head :: xs) ++ [node, head]) := by
    have hchain := hdone.chain
    rw [List.append_assoc] at hchain
    exact hchain
  have hhead : head ∉ xs ++ [node] := (List.nodup_cons.mp hdone.nodup).1
  have hnode : (heap node).next = (h node).next := by
    rw [next_inside hin]
    refine Function.update_of_ne (fun heq => hnew ?_) ..
    rw [heq]
    exact prev_mem hring
  refine List.isChain_split.mpr ⟨?_, List.isChain_pair.mpr hnode⟩
  refine (List.isChain_split.mp hchain).1.imp_of_mem_tail_imp ?_
  rintro a b - hb ⟨hnext, -⟩
  have hne : a ≠ node := by
    -- Behind the new node is the head, which is not in the tail.
    rintro rfl
    have hback : head = b := (List.isChain_pair.mp (List.isChain_split.mp hchain).2).1.symm.trans hnext
    exact hhead (hback ▸ hb)
  obtain ⟨heap₃, hin₃, hlast⟩ := listAddTail_inside h head node
  calc (heap a).next = (heap₃ a).next := by rw [next_inside hin, next_inside hin₃]
    _ = (listAddTail h head node a).next := by rw [hlast, ListHeap.setNext, Function.update_of_ne hne]
    _ = b := hnext
end Inside

/-! ## The data of the nodes -/

section Data
variable {f : Nat → Option SignalData} {live : List (Nat × SignalData)} {node : Nat}

theorem data_append (h : ∀ n d, f n = some d ↔ (n, d) ∈ live) (hnew : node ∉ live.map (·.1)) (new : SignalData)
    (n : Nat) (d : SignalData) :
    Function.update f node (some new) n = some d ↔ (n, d) ∈ live ++ [(node, new)] := by
  rw [List.mem_append, List.mem_singleton]
  by_cases hnode : n = node
  · subst hnode
    have hold : (n, d) ∉ live := fun hmem => hnew (List.mem_map_of_mem hmem)
    rw [Function.update_self, Option.some.injEq, or_iff_right hold, Prod.mk.injEq]
    exact ⟨fun hd => ⟨rfl, hd.symm⟩, fun hd => hd.2.symm⟩
  · rw [Function.update_of_ne hnode, h, or_iff_left]
    exact fun hd => hnode (Prod.mk.inj hd).1

theorem data_filter (h : ∀ n d, f n = some d ↔ (n, d) ∈ live) (n : Nat) (d : SignalData) :
    Function.update f node none n = some d ↔ (n, d) ∈ live.filter (·.1 ≠ node) := by
  rw [List.mem_filter]
  by_cases hnode : n = node
  · subst hnode
    simp
  · rw [Function.update_of_ne hnode, h]
    simp [hnode]

/-- The data of the nodes, in their order. -/
theorem data_calls (h : ∀ entry ∈ live, f entry.1 = some entry.2) :
    (live.map (·.1)).filterMap f = live.map (·.2) := by
  induction live with
  | nil => rfl
  | cons entry live ih =>
    obtain ⟨hfirst, hrest⟩ := List.forall_mem_cons.mp h
    rw [List.map_cons, List.filterMap_cons_some hfirst, ih hrest, List.map_cons]

theorem nodes_erase (hnodup : (live.map (·.1)).Nodup) (node : Nat) :
    (live.map (·.1)).erase node = (live.filter (·.1 ≠ node)).map (·.1) := by
  rw [hnodup.erase_eq_filter, List.filter_map]
  congr 2
  funext entry
  by_cases hnode : entry.1 = node <;> simp [hnode]

end Data

/-! ## One operation -/

section Step
variable {n fuel : Nat} {r : SignalRecord} {s : OsSignals}

theorem SignalRecord.Holds.start (n : Nat) {actions : Nat → SigAction} (h : actions SIGINT = .other n) :
    ({} : SignalRecord).Holds n (OsSignals.start actions) := by
  refine ⟨?_, ?_, ?_, h, fun hcaught => Bool.noConfusion hcaught, fun _ => ⟨rfl, rfl⟩⟩
  · show Ring (links (listInit _ sigintList)) sigintList []
    rw [links_listInit]
    exact Ring.init _ _
  · intro node d
    refine ⟨fun hd => ?_, fun hd => absurd hd List.not_mem_nil⟩
    cases hd
  · exact fun entry hentry => absurd hentry List.not_mem_nil

theorem SignalRecord.Holds.empty (h : r.Holds n s) : listEmpty s.heap sigintList = r.live.isEmpty := by
  rw [listEmpty_eq h.ring]
  cases r.live <;> rfl

/-- The one number that is passed to `sigaction` for a new list, and the one for a list that got empty. -/
theorem sigaction_sigint (actions : Nat → SigAction) (new : SigAction) :
    sigaction actions SIGINT new = some (Function.update actions SIGINT new) := if_neg (by decide)

theorem sigaction_ctrlc (actions : Nat → SigAction) (new : SigAction) :
    sigaction actions OS_CTRLC new = none :=
  if_pos (.inl rfl)

theorem osRegisterSignal_refused {data signal callback : Nat}
    (h : callback = 0 ∨ data = 0 ∨ signal ≠ OS_CTRLC) (userdata : Nat) :
    osRegisterSignal s data signal callback userdata = (none, s) := by
  unfold osRegisterSignal
  by_cases hcallback : callback = 0
  · rw [if_pos hcallback]
  · by_cases hdata : data = 0
    · rw [if_neg hcallback, if_pos hdata]
    · rw [if_neg hcallback, if_neg hdata, if_pos ((h.resolve_left hcallback).resolve_left hdata)]

theorem SignalRecord.Holds.register (h : r.Holds n s) {data callback : Nat} (userdata : Nat)
    (hcallback : callback ≠ 0) (hdata : data ≠ 0) (hhead : data ≠ sigintList)
    (hnew : data ∉ r.live.map (·.1)) :
    ∃ s', osRegisterSignal s data OS_CTRLC callback userdata = (some data, s') ∧
      SignalRecord.Holds n ⟨r.live ++ [(data, ⟨OS_CTRLC, callback, userdata⟩)], true,
        r.again || (r.caught && r.live.isEmpty)⟩ s' := by
  have hring : Ring (links (listAddTail s.heap sigintList data)) sigintList
      ((r.live ++ [(data, SignalData.mk OS_CTRLC callback userdata)]).map (·.1)) := by
    rw [List.map_append]
    refine ring_addTail h.ring fun hmem => ?_
    exact (List.mem_cons.mp hmem).elim hhead hnew
  have hlive := data_append h.data hnew ⟨OS_CTRLC, callback, userdata⟩
  have hsignal : ∀ entry ∈ r.live ++ [(data, SignalData.mk OS_CTRLC callback userdata)],
      entry.2.signal = OS_CTRLC := by
    intro entry hentry
    rcases List.mem_append.mp hentry with hold | hlast
    · exact h.signal entry hold
    · obtain rfl := List.mem_singleton.mp hlast
      rfl
  unfold osRegisterSignal
  rw [if_neg hcallback, if_neg hdata, if_neg (not_not.mpr rfl), h.empty]
  cases hempty : r.live.isEmpty with
  | true =>
    -- The handler is set, and what was set before is kept: the handler itself the second time.
    simp only [if_true, sigaction_sigint, Option.map_some]
    refine ⟨_, rfl, hring, hlive, hsignal, ?_, fun _ => ?_, fun hc => Bool.noConfusion hc⟩
    · show Function.update s.actions SIGINT .sigHandler SIGINT = .sigHandler
      exact Function.update_self ..
    · show s.actions SIGINT = _
      rw [h.action, Bool.and_true]
      cases hcaught : r.caught with
      | true => rw [Bool.or_true]
      | false => rw [(h.any hcaught).2, Bool.or_false]
  | false =>
    have hcaught : r.caught = true := by
      cases hno : r.caught with
      | true => rfl
      | false =>
        rw [(h.any hno).1] at hempty
        cases hempty
    simp only [Bool.false_eq_true, if_false]
    refine ⟨_, rfl, hring, hlive, hsignal, ?_, fun _ => ?_, fun hc => Bool.noConfusion hc⟩
    · show s.actions SIGINT = _
      rw [h.action, hcaught]
    · show s.oldSigint = _
      rw [h.old hcaught, Bool.and_false, Bool.or_false]

theorem SignalRecord.Holds.unregister (h : r.Holds n s) (hfuel : r.live.length < fuel) (handle : Nat) :
    ∃ s', osUnregisterSignal fuel s handle = some s' ∧
      SignalRecord.Holds n { r with live := r.live.filter (·.1 ≠ handle) } s' := by
  cases hdata : s.signalData handle with
  | none =>
    have hsame : r.live.filter (·.1 ≠ handle) = r.live := by
      rw [List.filter_eq_self]
      rintro ⟨node, d⟩ hentry
      refine decide_eq_true fun hnode => ?_
      obtain rfl : node = handle := hnode
      rw [(h.data node d).mpr hentry] at hdata
      cases hdata
    refine ⟨s, by rw [osUnregisterSignal, hdata], ?_⟩
    rw [hsame]
    exact h
  | some d =>
    have hentry := (h.data handle d).mp hdata
    have hsignal : d.signal = OS_CTRLC := h.signal _ hentry
    have hmem : handle ∈ r.live.map (·.1) := List.mem_map_of_mem hentry
    have hfound : listContains fuel s.heap sigintList handle = some true := by
      rw [listContains_eq handle h.ring (by rw [List.length_map]; exact hfuel), decide_eq_true hmem]
    have herase := nodes_erase (List.nodup_cons.mp h.ring.nodup).2 handle
    refine ⟨{ s with
      heap := listRemove s.heap handle
      signalData := Function.update s.signalData handle none }, ?_, ?_⟩
    · rw [osUnregisterSignal, hdata]
      dsimp only
      rw [if_neg (not_not.mpr hsignal), hfound, hsignal, sigaction_ctrlc]
      simp
    · refine ⟨?_, data_filter h.data, ?_, h.action, h.old, ?_⟩
      · show Ring (links (listRemove s.heap handle)) sigintList _
        rw [← herase]
        exact ring_remove h.ring hmem
      · exact fun entry hentry => h.signal entry (List.mem_filter.mp hentry).1
      · intro hcaught
        have hnone := (h.any hcaught).1
        rw [hnone] at hentry
        cases hentry

theorem SignalRecord.Holds.calls (h : r.Holds n s) (hfuel : r.live.length < fuel) :
    sigHandler fuel s SIGINT = some (r.live.map (·.2)) := by
  rw [sigHandler, if_pos rfl, listIterate_eq h.ring (by rw [List.length_map]; exact hfuel), Option.map_some,
    data_calls fun entry hentry => (h.data entry.1 entry.2).mpr hentry]

theorem SignalRecord.Holds.step (h : r.Holds n s) {op : SignalOp} (hlegal : op.Legal r)
    (hfuel : r.live.length < fuel) :
    ∃ s', op.step fuel s = some ((op.record n r).1, s') ∧ (op.record n r).2.Holds n s' ∧
      (op.record n r).2.live.length ≤ r.live.length + 1 := by
  cases op with
  | register data signal callback userdata =>
    by_cases hrefused : callback = 0 ∨ data = 0 ∨ signal ≠ OS_CTRLC
    · refine ⟨s, ?_, ?_, ?_⟩
      · rw [SignalOp.step, osRegisterSignal_refused hrefused, SignalOp.record, if_pos hrefused]
      · rw [SignalOp.record, if_pos hrefused]
        exact h
      · rw [SignalOp.record, if_pos hrefused]
        exact Nat.le_succ _
    · obtain ⟨hcallback, hdata, hsignal⟩ := not_or.mp hrefused |>.imp_right not_or.mp
      obtain rfl := not_not.mp hsignal
      obtain ⟨s', hstep, hholds⟩ := h.register userdata hcallback hdata hlegal.1 hlegal.2
      refine ⟨s', ?_, ?_, ?_⟩
      · rw [SignalOp.step, hstep, SignalOp.record, if_neg hrefused]
      · rw [SignalOp.record, if_neg hrefused]
        exact hholds
      · rw [SignalOp.record, if_neg hrefused]
        exact Nat.le_of_eq List.length_append
  | unregister handle =>
    obtain ⟨s', hstep, hholds⟩ := h.unregister hfuel handle
    refine ⟨s', ?_, hholds, Nat.le_succ_of_le (List.length_filter_le ..)⟩
    rw [SignalOp.step, hstep]
    rfl
  | ctrlC =>
    refine ⟨s, ?_, h, Nat.le_succ _⟩
    rw [SignalOp.step, h.action, SignalOp.record]
    cases hcaught : r.caught with
    | true =>
      simp only [if_true]
      rw [h.calls hfuel]
      rfl
    | false => rfl

/-- A Ctrl-C between the first and the last assignment of `list_add_tail`: behind the callbacks that are
registered is the new one, and behind that, where `memset` has been, is `NULL`. -/
theorem register_interrupted (h : r.Holds n s) {data : Nat} (hhead : data ≠ sigintList)
    (hnew : data ∉ r.live.map (·.1)) {heap : ListHeap}
    (hin : heap ∈ listAddTailInside (Function.update s.heap data ⟨0, 0⟩) sigintList data) :
    List.IsChain (fun a b => (heap a).next = b) ((sigintList :: r.live.map (·.1)) ++ [data, 0]) := by
  have hout : data ∉ sigintList :: r.live.map (·.1) :=
    fun hmem => (List.mem_cons.mp hmem).elim hhead hnew
  have hring : Ring (links (Function.update s.heap data ⟨0, 0⟩)) sigintList (r.live.map (·.1)) := by
    refine h.ring.congr fun node hnode => ?_
    have hne : node ≠ data := fun heq => hout (heq ▸ hnode)
    simp [links, Function.update_of_ne hne]
  have hchain := chain_inside hring hout hin
  rwa [Function.update_self] at hchain

/-- A Ctrl-C between the two assignments of `list_remove`. -/
theorem unregister_interrupted (h : r.Holds n s) (hfuel : r.live.length < fuel) {handle : Nat}
    (hmem : handle ∈ r.live.map (·.1)) :
    listIterate fuel (s.heap.setNext (s.heap handle).prev (s.heap handle).next) sigintList =
      some ((r.live.filter (·.1 ≠ handle)).map (·.1)) := by
  have hring := ring_remove h.ring hmem
  rw [nodes_erase (List.nodup_cons.mp h.ring.nodup).2] at hring
  have hlength : ((r.live.filter (·.1 ≠ handle)).map (·.1)).length < fuel := by
    rw [List.length_map]
    exact Nat.lt_of_le_of_lt (List.length_filter_le ..) hfuel
  rw [← listIterate_eq hring hlength]
  -- The second assignment is that of a link to the previous node.
  simp only [listIterate, listRemove, next_setPrev]

end Step

/-! ## Any operations -/

/-- A run of legal operations ends, with the outcomes of the record. -/
theorem signalRun_holds {n fuel : Nat} {r : SignalRecord} {s : OsSignals} (h : r.Holds n s)
    {ops : List SignalOp} (hlegal : Steps.Each (fun r op => (op.record n r).2) (fun r op => op.Legal r) r ops)
    (hfuel : r.live.length + ops.length ≤ fuel) :
    ∃ s', signalRun fuel s ops = some ((recordRun n r ops).1, s') ∧ (recordRun n r ops).2.Holds n s' := by
  induction ops generalizing r s with
  | nil => exact ⟨s, rfl, h⟩
  | cons op ops ih =>
    obtain ⟨hop, hrest⟩ := hlegal
    rw [List.length_cons] at hfuel
    obtain ⟨s₁, hstep, hholds, hlength⟩ := h.step hop (show r.live.length < fuel by omega)
    obtain ⟨s', hrun, hend⟩ := ih hholds hrest (by omega)
    refine ⟨s', ?_, hend⟩
    rw [signalRun, hstep, Option.bind_some]
    show (signalRun fuel s₁ ops).map _ = _
    rw [hrun]
    rfl

/-- Every run of registrations, removals and Ctrl-C between them, whatever memory `malloc` returns, keeps to
the record: a Ctrl-C calls the callbacks that are registered, each once, in the order of their registration. What
`SIGINT` did before the first of them is never done again, not even when the last one is removed; and once
there has been a registration behind an empty list it is not known any more. -/
theorem os_signal_callbacks (actions : Nat → SigAction) {n : Nat} (hstart : actions SIGINT = .other n)
    {ops : List SignalOp}
    (hlegal : Steps.Each (fun r op => (op.record n r).2) (fun r op => op.Legal r) {} ops) {fuel : Nat}
    (hfuel : ops.length ≤ fuel) :
    ∃ s, signalRun fuel (OsSignals.start actions) ops = some ((recordRun n {} ops).1, s) ∧
      s.actions SIGINT = (if (recordRun n {} ops).2.caught then .sigHandler else .other n) ∧
      ((recordRun n {} ops).2.caught = true →
        s.oldSigint = if (recordRun n {} ops).2.again then .sigHandler else .other n) := by
  have hlength : ({} : SignalRecord).live.length + ops.length ≤ fuel := by
    rw [List.length_nil, Nat.zero_add]
    exact hfuel
  obtain ⟨s, hrun, hend⟩ := signalRun_holds (.start n hstart) hlegal hlength
  exact ⟨s, hrun, hend.action, hend.old⟩

/-- Two callbacks, a Ctrl-C, both removed, and a Ctrl-C. -/
def ctrlCOps : List SignalOp :=
  [.ctrlC, .register 16 OS_CTRLC 7 1, .register 32 OS_CTRLC 8 2, .ctrlC, .unregister 16, .ctrlC, .unregister 32,
   .ctrlC, .register 16 OS_CTRLC 9 3]

theorem os_signal_callbacks_of_two :
    ∃ s, signalRun 9 (OsSignals.start fun _ => .other 0) ctrlCOps =
        some ([.action 0, .handle (some 16), .handle (some 32), .calls [⟨0, 7, 1⟩, ⟨0, 8, 2⟩], .done,
          .calls [⟨0, 8, 2⟩], .done, .calls [], .handle (some 16)], s) ∧ s.oldSigint = .sigHandler := by
  have hlegal : Steps.Each (fun r op => (SignalOp.record 0 r op).2) (fun r op => op.Legal r) {} ctrlCOps := by
    simp [ctrlCOps, Steps.Each, SignalOp.Legal, SignalOp.record, sigintList, OS_CTRLC]
  obtain ⟨s, hrun, -, hold⟩ := os_signal_callbacks (fun _ => .other 0) rfl hlegal (Nat.le_refl 9)
  exact ⟨s, hrun, hold rfl⟩

end Cb6502
