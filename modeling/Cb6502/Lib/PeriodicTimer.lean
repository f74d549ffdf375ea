/- A timer of period `p` that delivers two kinds of edges in turn, the second kind at every
   multiple of `p` and the first kind half a period (rounded down) after each of them. Edge
   number `n` is due at `edgeAt p n`. A timer kept as "edges delivered, time remaining" is on
   time when age plus remaining time is the due time of its next edge; running the time down
   and delivering an edge at zero keep it on time, whatever slices the time is run down in.

   What is proved:
     1. `OnTime.run`, `OnTime.fire` (the two moves keep a timer on time).
     2. `OnTime.count` (a timer on time that owes no second edge has delivered `age / p`). -/
namespace PeriodicTimer

/-- The length of the phase that ends with edge `n`: rounded down before a first edge, the
    rest of the period before a second one. -/
def phaseLength (period n : Nat) : Nat :=
  if n % 2 = 0 then period / 2 else period - period / 2

/-- When edge `n` is due, counted from the start of the timer. -/
def edgeAt (period n : Nat) : Nat :=
  n / 2 * period + if n % 2 = 0 then period / 2 else period

/-- At `age`, with `n` edges delivered, the next one is `remaining` away, and the current
    phase has begun. -/
structure OnTime (period age remaining n : Nat) : Prop where
  due : age + remaining = edgeAt period n
  begun : remaining ≤ phaseLength period n

theorem edgeAt_zero (period : Nat) : edgeAt period 0 = phaseLength period 0 := by
  simp [edgeAt, phaseLength]

/-- Consecutive edges are one phase apart. -/
theorem edgeAt_succ (period n : Nat) :
    edgeAt period (n + 1) = edgeAt period n + phaseLength period (n + 1) := by
  rcases Nat.mod_two_eq_zero_or_one n with hn | hn
  · have hhalf : (n + 1) / 2 = n / 2 := by omega
    have hodd : (n + 1) % 2 = 1 := by omega
    simp only [edgeAt, phaseLength, hhalf, hn, hodd, if_true, if_neg Nat.one_ne_zero]
    omega
  · have hhalf : (n + 1) / 2 = n / 2 + 1 := by omega
    have heven : (n + 1) % 2 = 0 := by omega
    simp only [edgeAt, phaseLength, hhalf, hn, heven, if_true, if_neg Nat.one_ne_zero,
      Nat.add_mul]
    omega

/-- A timer that starts with one phase to go is on time. -/
theorem OnTime.start (period : Nat) : OnTime period 0 (phaseLength period 0) 0 :=
  ⟨by rw [edgeAt_zero, Nat.zero_add], Nat.le_refl _⟩

/-- Time runs down. -/
theorem OnTime.run {period age remaining n c : Nat} (h : OnTime period age remaining n)
    (hc : c ≤ remaining) : OnTime period (age + c) (remaining - c) n := by
  refine ⟨?_, ?_⟩
  · rw [← h.due]
    omega
  · have hb := h.begun
    omega

/-- With no time left the edge is delivered and the next phase begins. -/
theorem OnTime.fire {period age n : Nat} (h : OnTime period age 0 n) :
    OnTime period age (phaseLength period (n + 1)) (n + 1) := by
  refine ⟨?_, Nat.le_refl _⟩
  have hdue := h.due
  rw [edgeAt_succ]
  omega

/-- The second edges delivered are the whole periods elapsed, unless one is owed at this very
    instant. -/
theorem OnTime.count {period age remaining n : Nat} (h : OnTime period age remaining n)
    (howed : n % 2 = 1 → 0 < remaining) (hp : 0 < period) : n / 2 = age / period := by
  have hdue := h.due
  have hbegun := h.begun
  have hlow : n / 2 * period ≤ age := by
    unfold edgeAt at hdue
    unfold phaseLength at hbegun
    split at hdue <;> split at hbegun <;> omega
  have hhigh : age < (n / 2 + 1) * period := by
    rw [Nat.add_mul, Nat.one_mul]
    unfold edgeAt at hdue
    split at hdue
    · omega
    · have := howed (by omega)
      omega
  have hle : n / 2 ≤ age / period := (Nat.le_div_iff_mul_le hp).2 hlow
  have hlt : age / period < n / 2 + 1 := (Nat.div_lt_iff_lt_mul hp).2 hhigh
  omega

end PeriodicTimer
