/- A machine whose states expire. Time passes for it in slices: a state waits while a slice is
   short of the time it has left, and a longer slice goes on in the state that follows with the
   rest. Between the slices there are accesses, which take no time.

   What is proved:
     1. `Passes.unique`, `Passes.add` (the state after some time is determined, and two slices
        are one of their sum).
     2. `Follows.unique` (a run is determined by its timeline: its accesses and the time before
        each, however that time was sliced). -/
namespace Timeout

variable {S A O : Type}

/-- The time a state has left (none where it does not expire), the state after a shorter time,
and the state that follows it. -/
structure Machine (S : Type) where
  left : S → Option Nat
  wait : S → Nat → S
  expire : S → S

/-- Waiting uses up the time that is left, and changes nothing that the next state depends on. -/
structure Machine.Lawful (m : Machine S) : Prop where
  wait_zero : ∀ s, m.wait s 0 = s
  wait_wait : ∀ s a b, m.wait (m.wait s a) b = m.wait s (a + b)
  left_wait : ∀ {s t a}, m.left s = some t → a < t → m.left (m.wait s a) = some (t - a)
  expire_wait : ∀ {s t a}, m.left s = some t → a < t → m.expire (m.wait s a) = m.expire s

/-- `s'` is the state when the time given has passed. -/
inductive Passes (m : Machine S) : S → Nat → S → Prop where
  | rest {s : S} {n : Nat} (h : m.left s = none) : Passes m s n s
  | wait {s : S} {n t : Nat} (h : m.left s = some t) (hn : n < t) : Passes m s n (m.wait s n)
  | expire {s s' : S} {n t : Nat} (h : m.left s = some t) (hn : t ≤ n)
      (hrest : Passes m (m.expire s) (n - t) s') : Passes m s n s'

section Passes
variable {m : Machine S} {s s' s'' : S} {a b : Nat}

theorem Passes.none (hm : m.Lawful) (h : m.left s ≠ some 0) : Passes m s 0 s := by
  cases hleft : m.left s with
  | none => exact .rest hleft
  | some t =>
    have hpos : 0 < t := Nat.pos_of_ne_zero fun hzero => h (by rw [hleft, hzero])
    have hwait : Passes m s 0 (m.wait s 0) := .wait hleft hpos
    rwa [hm.wait_zero] at hwait

theorem Passes.unique (h : Passes m s a s') (h' : Passes m s a s'') : s' = s'' := by
  induction h with
  | rest hleft =>
    cases h' with
    | rest => rfl
    | wait hleft' | expire hleft' => exact absurd (hleft.symm.trans hleft') (Option.some_ne_none _).symm
  | wait hleft hn =>
    cases h' with
    | rest hleft' => exact absurd (hleft'.symm.trans hleft) (Option.some_ne_none _).symm
    | wait => rfl
    | expire hleft' hn' =>
      obtain rfl := Option.some.inj (hleft.symm.trans hleft')
      omega
  | expire hleft hn _ ih =>
    cases h' with
    | rest hleft' => exact absurd (hleft'.symm.trans hleft) (Option.some_ne_none _).symm
    | wait hleft' hn' =>
      obtain rfl := Option.some.inj (hleft.symm.trans hleft')
      omega
    | expire hleft' _ hrest' =>
      obtain rfl := Option.some.inj (hleft.symm.trans hleft')
      exact ih hrest'

theorem Passes.add (hm : m.Lawful) (h : Passes m s a s') (h' : Passes m s' b s'') :
    Passes m s (a + b) s'' := by
  induction h with
  | rest hleft =>
    cases h' with
    | rest => exact .rest hleft
    | wait hleft' | expire hleft' => exact absurd (hleft.symm.trans hleft') (Option.some_ne_none _).symm
  | @wait s a t hleft hn =>
    have hwaited := hm.left_wait hleft hn
    cases h' with
    | rest hleft' => exact absurd (hleft'.symm.trans hwaited) (Option.some_ne_none _).symm
    | wait hleft' hn' =>
      obtain rfl := Option.some.inj (hwaited.symm.trans hleft')
      rw [hm.wait_wait]
      exact .wait hleft (by omega)
    | expire hleft' hn' hrest' =>
      obtain rfl := Option.some.inj (hwaited.symm.trans hleft')
      have htime : b - (t - a) = a + b - t := by omega
      rw [hm.expire_wait hleft hn, htime] at hrest'
      exact .expire hleft (by omega) hrest'
  | @expire s _ a t hleft hn _ ih =>
    have htime : a - t + b = a + b - t := by omega
    exact .expire hleft (Nat.le_add_right_of_le hn) (htime ▸ ih h')

end Passes

/-! ## Runs -/

/-- The accesses of a run, each with the time since the one before, and the time after the last.
`slice` is the length of a slice of time, and none for an access. -/
def timeline (slice : A → Option Nat) : Nat → List A → List (Nat × A) × Nat
  | since, [] => ([], since)
  | since, op :: ops =>
    match slice op with
    | some n => timeline slice (since + n) ops
    | none => ((since, op) :: (timeline slice 0 ops).1, (timeline slice 0 ops).2)

/-- A run along a timeline, with what each access returns. -/
inductive Follows (m : Machine S) (access : S → A → O × S) :
    S → List (Nat × A) → Nat → List O → S → Prop where
  | done {s s' : S} {n : Nat} (h : Passes m s n s') : Follows m access s [] n [] s'
  | access {s s₁ s' : S} {n last : Nat} {op : A} {ops : List (Nat × A)} {outs : List O}
      (h : Passes m s n s₁) (hrest : Follows m access (access s₁ op).2 ops last outs s') :
      Follows m access s ((n, op) :: ops) last ((access s₁ op).1 :: outs) s'

section Follows
variable {m : Machine S} {access : S → A → O × S} {s s' s'' : S} {last : Nat}
  {ops : List (Nat × A)} {outs outs' : List O}

theorem Follows.unique (h : Follows m access s ops last outs s')
    (h' : Follows m access s ops last outs' s'') : outs = outs' ∧ s' = s'' := by
  induction h generalizing outs' s'' with
  | done h =>
    cases h' with
    | done h' => exact ⟨rfl, h.unique h'⟩
  | access h _ ih =>
    cases h' with
    | access h' hrest' =>
      obtain rfl := h.unique h'
      obtain ⟨houts, hend⟩ := ih hrest'
      exact ⟨by rw [houts], hend⟩

end Follows

end Timeout
