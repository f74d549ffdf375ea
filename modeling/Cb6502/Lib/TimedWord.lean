import Mathlib.Data.List.Infix

/- Words spelled out in a stream of events. Some events carry a letter (`mark`), each takes a
   time (`time`), and the letters of a word follow each other with no other letter between and
   less than `limit` of time.

   What is proved:
     1. `Contains.append`, `Contains.letter` (a stream goes on containing what it contains; every
        letter of a word it contains is in it).
     2. `Recent.start`, `Recent.pass`, `Recent.next`, `Recent.contains` (the rules by which a
        machine that has read a part of a word goes on). -/
namespace TimedWord

variable {E W : Type} (mark : E → Option W) (time : E → Nat) (limit : Nat)

def elapsed : List E → Nat
  | [] => 0
  | e :: es => time e + elapsed es

/-- Events without a letter. -/
def Silent (es : List E) : Prop := ∀ e ∈ es, mark e = none

/-- The events spell the word, from its first letter to its last. -/
inductive Spells : List W → List E → Prop where
  | one {e : E} {w : W} (h : mark e = some w) : Spells [w] [e]
  | next {word : List W} {es gap : List E} {e : E} {w : W} (h : Spells word es)
      (hgap : Silent mark gap) (htime : elapsed time gap < limit) (he : mark e = some w) :
      Spells (word ++ [w]) (es ++ gap ++ [e])

/-- Some part of the stream spells the word. -/
def Contains (word : List W) (es : List E) : Prop :=
  ∃ part, part <:+: es ∧ Spells mark time limit word part

/-- The last letters of the stream are the word, and the time given has passed since. -/
def Recent (word : List W) (since : Nat) (es : List E) : Prop :=
  ∃ part gap, part ++ gap <:+ es ∧ Spells mark time limit word part ∧ Silent mark gap ∧
    elapsed time gap = since

variable {mark time limit} {word : List W} {es : List E} {since : Nat} {e : E} {w : W}

@[simp] theorem elapsed_append (es fs : List E) :
    elapsed time (es ++ fs) = elapsed time es + elapsed time fs := by
  induction es with
  | nil => simp [elapsed]
  | cons e es ih =>
    simp only [List.cons_append, elapsed, ih]
    omega

theorem silent_nil : Silent mark [] := List.forall_mem_nil _

theorem Silent.concat {es : List E} (h : Silent mark es) (he : mark e = none) :
    Silent mark (es ++ [e]) := by
  intro f hf
  rcases List.mem_append.mp hf with hf | hf
  · exact h f hf
  · rw [List.mem_singleton.mp hf]
    exact he

/-! ## What a stream contains -/

theorem Contains.append (h : Contains mark time limit word es) (fs : List E) :
    Contains mark time limit word (es ++ fs) := by
  obtain ⟨part, hpart, hspells⟩ := h
  exact ⟨part, hpart.trans (List.prefix_append es fs).isInfix, hspells⟩

theorem Spells.letter (h : Spells mark time limit word es) (hw : w ∈ word) :
    ∃ e ∈ es, mark e = some w := by
  induction h with
  | one he =>
    rw [List.mem_singleton.mp hw]
    exact ⟨_, List.mem_singleton_self _, he⟩
  | next _ _ _ he ih =>
    rcases List.mem_append.mp hw with hold | hlast
    · obtain ⟨f, hf, hmark⟩ := ih hold
      exact ⟨f, by simp [hf], hmark⟩
    · rw [List.mem_singleton.mp hlast]
      exact ⟨_, by simp, he⟩

theorem Contains.letter (h : Contains mark time limit word es) (hw : w ∈ word) :
    ∃ e ∈ es, mark e = some w := by
  obtain ⟨part, hpart, hspells⟩ := h
  obtain ⟨f, hf, hmark⟩ := hspells.letter hw
  exact ⟨f, hpart.subset hf, hmark⟩

/-! ## A word being read -/

theorem Recent.start (he : mark e = some w) : Recent mark time limit [w] 0 (es ++ [e]) := by
  refine ⟨[e], [], ?_, .one he, silent_nil, rfl⟩
  rw [List.append_nil]
  exact List.suffix_append es [e]

theorem Recent.pass (h : Recent mark time limit word since es) (he : mark e = none) :
    Recent mark time limit word (since + time e) (es ++ [e]) := by
  obtain ⟨part, gap, ⟨before, rfl⟩, hspells, hsilent, rfl⟩ := h
  refine ⟨part, gap ++ [e], ⟨before, by simp⟩, hspells, hsilent.concat he, ?_⟩
  simp [elapsed]

theorem Recent.next (h : Recent mark time limit word since es) (hsince : since < limit)
    (he : mark e = some w) : Recent mark time limit (word ++ [w]) 0 (es ++ [e]) := by
  obtain ⟨part, gap, ⟨before, rfl⟩, hspells, hsilent, htime⟩ := h
  refine ⟨part ++ gap ++ [e], [], ⟨before, by simp⟩, .next hspells hsilent ?_ he,
    silent_nil, rfl⟩
  rw [htime]
  exact hsince

theorem Recent.contains (h : Recent mark time limit word since es) :
    Contains mark time limit word es := by
  obtain ⟨part, gap, ⟨before, rfl⟩, hspells, -⟩ := h
  exact ⟨part, ⟨before, gap, by simp⟩, hspells⟩

end TimedWord
