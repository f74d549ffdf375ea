/- Programs that talk to an environment. A program is a finite tree: it asks a
   query of type `Q` and continues with the answer of type `R`, or it issues a
   command of type `C`, or it is done. `run` executes a program against an
   environment with state `σ`.

   Four judgements, each with a rule that carries it to every run:
     `Ends P p`    every path of `p`, whatever the answers, ends in a result
                   that satisfies `P` together with the number of requests made;
     `Asks p`      no path of `p` issues a command;
     `Match R p p'` `p` and `p'` make the same requests whatever the answers,
                   and end in results related by `R`;
     `Simulates`   two environments give the same answers from related states. -/
namespace Dialogue

inductive Prog (Q C R : Type) (α : Type) where
  | done (a : α)
  | ask (q : Q) (k : R → Prog Q C R α)
  | tell (c : C) (k : Prog Q C R α)

namespace Prog
variable {Q C R α β γ δ : Type}

def bind : Prog Q C R α → (α → Prog Q C R β) → Prog Q C R β
  | .done a, f => f a
  | .ask q k, f => .ask q (fun r => bind (k r) f)
  | .tell c k, f => .tell c (bind k f)

instance : Monad (Prog Q C R) where
  pure := .done
  bind := Prog.bind

@[simp] theorem pure_eq (a : α) : (pure a : Prog Q C R α) = .done a := rfl

@[simp] theorem done_bind (a : α) (f : α → Prog Q C R β) : (Prog.done a >>= f) = f a := rfl

@[simp] theorem ask_bind (q : Q) (k : R → Prog Q C R α) (f : α → Prog Q C R β) :
    (Prog.ask q k >>= f) = .ask q (fun r => k r >>= f) := rfl

@[simp] theorem tell_bind (c : C) (k : Prog Q C R α) (f : α → Prog Q C R β) :
    (Prog.tell c k >>= f) = .tell c (k >>= f) := rfl

/-- An environment with state `σ`: how it answers a query and obeys a command. -/
structure Env (Q C R σ : Type) where
  answer : Q → σ → R × σ
  obey : C → σ → σ

variable {σ τ : Type}

def run (E : Env Q C R σ) : Prog Q C R α → σ → α × σ
  | .done a, s => (a, s)
  | .ask q k, s => run E (k (E.answer q s).1) (E.answer q s).2
  | .tell c k, s => run E k (E.obey c s)

@[simp] theorem run_done (E : Env Q C R σ) (a : α) (s : σ) : run E (.done a) s = (a, s) := rfl

@[simp] theorem run_ask (E : Env Q C R σ) (q : Q) (k : R → Prog Q C R α) (s : σ) :
    run E (.ask q k) s = run E (k (E.answer q s).1) (E.answer q s).2 := rfl

@[simp] theorem run_tell (E : Env Q C R σ) (c : C) (k : Prog Q C R α) (s : σ) :
    run E (.tell c k) s = run E k (E.obey c s) := rfl

@[simp] theorem run_ite (E : Env Q C R σ) (c : Prop) [Decidable c] (p q : Prog Q C R α) (s : σ) :
    run E (if c then p else q) s = if c then run E p s else run E q s := by
  split <;> rfl

theorem run_bind (E : Env Q C R σ) (p : Prog Q C R α) (f : α → Prog Q C R β) (s : σ) :
    run E (p >>= f) s = run E (f (run E p s).1) (run E p s).2 := by
  induction p generalizing s with
  | done a => rfl
  | ask q k ih => exact ih _ _
  | tell c k ih => exact ih _

/-! ## What every path ends in -/

/-- Every path ends in a result `a` after `m` more requests with `P (n + m) a`. -/
def EndsFrom (P : Nat → α → Prop) : Nat → Prog Q C R α → Prop
  | n, .done a => P n a
  | n, .ask _ k => ∀ r, EndsFrom P (n + 1) (k r)
  | n, .tell _ k => EndsFrom P (n + 1) k

/-- Every path ends in a result `a` after `m` requests with `P m a`. -/
def Ends (P : Nat → α → Prop) (p : Prog Q C R α) : Prop := EndsFrom P 0 p

@[simp] theorem endsFrom_done (P : Nat → α → Prop) (n : Nat) (a : α) :
    EndsFrom P n (.done a : Prog Q C R α) ↔ P n a := Iff.rfl

@[simp] theorem endsFrom_ask (P : Nat → α → Prop) (n : Nat) (q : Q) (k : R → Prog Q C R α) :
    EndsFrom P n (.ask q k) ↔ ∀ r, EndsFrom P (n + 1) (k r) := Iff.rfl

@[simp] theorem endsFrom_tell (P : Nat → α → Prop) (n : Nat) (c : C) (k : Prog Q C R α) :
    EndsFrom P n (.tell c k) ↔ EndsFrom P (n + 1) k := Iff.rfl

@[simp] theorem endsFrom_ite (P : Nat → α → Prop) (n : Nat) (c : Prop) [Decidable c]
    (p q : Prog Q C R α) :
    EndsFrom P n (if c then p else q) ↔ (c → EndsFrom P n p) ∧ (¬c → EndsFrom P n q) := by
  split <;> simp [*]

theorem EndsFrom.mono {P P' : Nat → α → Prop} {p : Prog Q C R α} {n : Nat}
    (h : EndsFrom P n p) (himp : ∀ m a, P m a → P' m a) : EndsFrom P' n p := by
  induction p generalizing n with
  | done a => exact himp n a h
  | ask q k ih => exact fun r => ih r (h r)
  | tell c k ih => exact ih h

theorem EndsFrom.and {P P' : Nat → α → Prop} {p : Prog Q C R α} {n : Nat}
    (h : EndsFrom P n p) (h' : EndsFrom P' n p) : EndsFrom (fun m a => P m a ∧ P' m a) n p := by
  induction p generalizing n with
  | done a => exact ⟨h, h'⟩
  | ask q k ih => exact fun r => ih r (h r) (h' r)
  | tell c k ih => exact ih h h'

theorem EndsFrom.bind {P : Nat → α → Prop} {P' : Nat → β → Prop} {p : Prog Q C R α}
    {f : α → Prog Q C R β} {n : Nat} (h : EndsFrom P n p)
    (hf : ∀ m a, P m a → EndsFrom P' m (f a)) : EndsFrom P' n (p >>= f) := by
  induction p generalizing n with
  | done a => exact hf n a h
  | ask q k ih => exact fun r => ih r (h r)
  | tell c k ih => exact ih h

/-- Requests made before the program starts are added to the count. -/
theorem EndsFrom.shift {P : Nat → α → Prop} {p : Prog Q C R α} {n : Nat} (h : EndsFrom P n p)
    (k : Nat) : EndsFrom (fun m a => ∃ m', m = k + m' ∧ P m' a) (k + n) p := by
  induction p generalizing n with
  | done a => exact ⟨n, rfl, h⟩
  | ask q p ih => exact fun r => ih r (h r)
  | tell c p ih => exact ih h

theorem Ends.mono {P P' : Nat → α → Prop} {p : Prog Q C R α} (h : Ends P p)
    (himp : ∀ m a, P m a → P' m a) : Ends P' p := EndsFrom.mono h himp

/-- On a run, with the requests counted by any `count` every request raises by one. -/
theorem EndsFrom.run {P : Nat → α → Prop} {p : Prog Q C R α} {n : Nat} (h : EndsFrom P n p)
    (E : Env Q C R σ) (count : σ → Nat) (hask : ∀ q s, count (E.answer q s).2 = count s + 1)
    (htell : ∀ c s, count (E.obey c s) = count s + 1) (s : σ) :
    ∃ m, P (n + m) (run E p s).1 ∧ count (run E p s).2 = count s + m := by
  induction p generalizing n s with
  | done a => exact ⟨0, h, rfl⟩
  | ask q k ih =>
    obtain ⟨m, hP, hc⟩ := ih _ (h (E.answer q s).1) (E.answer q s).2
    refine ⟨m + 1, ?_, ?_⟩
    · rw [show n + (m + 1) = n + 1 + m by omega]
      exact hP
    · rw [run_ask, hc, hask]; omega
  | tell c k ih =>
    obtain ⟨m, hP, hc⟩ := ih h (E.obey c s)
    refine ⟨m + 1, ?_, ?_⟩
    · rw [show n + (m + 1) = n + 1 + m by omega]
      exact hP
    · rw [run_tell, hc, htell]; omega

/-- A property of the result alone holds of the result of every run. -/
theorem Ends.result {P : α → Prop} {p : Prog Q C R α} (h : Ends (fun _ a => P a) p)
    (E : Env Q C R σ) (s : σ) : P (Prog.run E p s).1 := by
  have key : ∀ (p : Prog Q C R α) (n : Nat) (s : σ),
      EndsFrom (fun _ a => P a) n p → P (Prog.run E p s).1 := by
    intro p
    induction p with
    | done a => exact fun n s h => h
    | ask q k ih => exact fun n s h => ih _ _ _ (h _)
    | tell c k ih => exact fun n s h => ih _ _ h
  exact key p 0 s h

/-- What every request preserves, a run preserves. -/
theorem run_invariant {I : σ → Prop} (E : Env Q C R σ) (hask : ∀ q s, I s → I (E.answer q s).2)
    (htell : ∀ c s, I s → I (E.obey c s)) (p : Prog Q C R α) (s : σ) (hs : I s) :
    I (run E p s).2 := by
  induction p generalizing s with
  | done a => exact hs
  | ask q k ih => exact ih _ _ (hask q s hs)
  | tell c k ih => exact ih _ (htell c s hs)

/-! ## Programs that only ask -/

/-- No path of the program issues a command. -/
def Asks : Prog Q C R α → Prop
  | .done _ => True
  | .ask _ k => ∀ r, Asks (k r)
  | .tell _ _ => False

@[simp] theorem asks_done (a : α) : (Prog.done a : Prog Q C R α).Asks := trivial

@[simp] theorem asks_ask (q : Q) (k : R → Prog Q C R α) : (Prog.ask q k).Asks ↔ ∀ r, (k r).Asks := Iff.rfl

@[simp] theorem asks_ite (c : Prop) [Decidable c] (p q : Prog Q C R α) :
    (if c then p else q).Asks ↔ (c → p.Asks) ∧ (¬c → q.Asks) := by
  split <;> simp [*]

/-- What every query preserves, a run of such a program preserves. -/
theorem Asks.run {I : σ → Prop} {p : Prog Q C R α} (h : p.Asks) (E : Env Q C R σ)
    (hask : ∀ q s, I s → I (E.answer q s).2) (s : σ) (hs : I s) : I (Prog.run E p s).2 := by
  induction p generalizing s with
  | done a => exact hs
  | ask q k ih => exact ih _ (h _) _ (hask q s hs)
  | tell c k ih => exact h.elim

/-! ## Programs that make the same requests -/

/-- The two programs make the same requests whatever the answers, and end in
related results. -/
def Match (S : α → β → Prop) : Prog Q C R α → Prog Q C R β → Prop
  | .done a, .done b => S a b
  | .ask q k, .ask q' k' => q = q' ∧ ∀ r, Match S (k r) (k' r)
  | .tell c k, .tell c' k' => c = c' ∧ Match S k k'
  | _, _ => False

@[simp] theorem match_done (S : α → β → Prop) (a : α) (b : β) :
    Match S (.done a : Prog Q C R α) (.done b) ↔ S a b := Iff.rfl

@[simp] theorem match_ask (S : α → β → Prop) (q q' : Q) (k : R → Prog Q C R α)
    (k' : R → Prog Q C R β) :
    Match S (.ask q k) (.ask q' k') ↔ q = q' ∧ ∀ r, Match S (k r) (k' r) := Iff.rfl

@[simp] theorem match_tell (S : α → β → Prop) (c c' : C) (k : Prog Q C R α) (k' : Prog Q C R β) :
    Match S (.tell c k) (.tell c' k') ↔ c = c' ∧ Match S k k' := Iff.rfl

@[simp] theorem match_ite (S : α → β → Prop) (c : Prop) [Decidable c] (p q : Prog Q C R α)
    (p' q' : Prog Q C R β) :
    Match S (if c then p else q) (if c then p' else q') ↔
      (c → Match S p p') ∧ (¬c → Match S q q') := by
  split <;> simp [*]

theorem Match.mono {S S' : α → β → Prop} {p : Prog Q C R α} {p' : Prog Q C R β}
    (h : Match S p p') (himp : ∀ a b, S a b → S' a b) : Match S' p p' := by
  induction p generalizing p' with
  | done a => cases p' <;> simp_all [Match]
  | ask q k ih =>
    cases p' with
    | ask q' k' => exact ⟨h.1, fun r => ih r (h.2 r)⟩
    | done b => exact h.elim
    | tell c k' => exact h.elim
  | tell c k ih =>
    cases p' with
    | tell c' k' => exact ⟨h.1, ih h.2⟩
    | done b => exact h.elim
    | ask q k' => exact h.elim

theorem Match.bind {S : α → β → Prop} {T : γ → δ → Prop} {p : Prog Q C R α} {p' : Prog Q C R β}
    {f : α → Prog Q C R γ} {f' : β → Prog Q C R δ} (h : Match S p p')
    (hf : ∀ a b, S a b → Match T (f a) (f' b)) : Match T (p >>= f) (p' >>= f') := by
  induction p generalizing p' with
  | done a =>
    cases p' with
    | done b => exact hf a b h
    | ask q k' => exact h.elim
    | tell c k' => exact h.elim
  | ask q k ih =>
    cases p' with
    | ask q' k' => exact ⟨h.1, fun r => ih r (h.2 r)⟩
    | done b => exact h.elim
    | tell c k' => exact h.elim
  | tell c k ih =>
    cases p' with
    | tell c' k' => exact ⟨h.1, ih h.2⟩
    | done b => exact h.elim
    | ask q k' => exact h.elim

theorem Match.refl {S : α → α → Prop} (hS : ∀ a, S a a) : ∀ p : Prog Q C R α, Match S p p
  | .done a => hS a
  | .ask _ k => ⟨rfl, fun r => Match.refl hS (k r)⟩
  | .tell _ k => ⟨rfl, Match.refl hS k⟩

/-! ## Environments that give the same answers -/

/-- From `S`-related states the two environments answer alike and stay related. -/
structure Simulates (E : Env Q C R σ) (F : Env Q C R τ) (S : σ → τ → Prop) : Prop where
  answer : ∀ q s t, S s t → (E.answer q s).1 = (F.answer q t).1 ∧ S (E.answer q s).2 (F.answer q t).2
  obey : ∀ c s t, S s t → S (E.obey c s) (F.obey c t)

theorem Simulates.run {E : Env Q C R σ} {F : Env Q C R τ} {S : σ → τ → Prop}
    (h : Simulates E F S) {T : α → β → Prop} {p : Prog Q C R α} {p' : Prog Q C R β}
    (hm : Match T p p') {s : σ} {t : τ} (hs : S s t) :
    T (Prog.run E p s).1 (Prog.run F p' t).1 ∧ S (Prog.run E p s).2 (Prog.run F p' t).2 := by
  induction p generalizing p' s t with
  | done a =>
    cases p' with
    | done b => exact ⟨hm, hs⟩
    | ask q k' => exact hm.elim
    | tell c k' => exact hm.elim
  | ask q k ih =>
    cases p' with
    | ask q' k' =>
      obtain ⟨rfl, hk⟩ := hm
      obtain ⟨hr, hn⟩ := h.answer q s t hs
      rw [run_ask, run_ask, hr]
      exact ih _ (hk _) hn
    | done b => exact hm.elim
    | tell c k' => exact hm.elim
  | tell c k ih =>
    cases p' with
    | tell c' k' =>
      obtain ⟨rfl, hk⟩ := hm
      exact ih hk (h.obey c s t hs)
    | done b => exact hm.elim
    | ask q k' => exact hm.elim

end Prog
end Dialogue
