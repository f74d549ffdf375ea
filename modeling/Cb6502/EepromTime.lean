import Cb6502.Lib.Timeout
import Cb6502.PageWrite

/- The time of the EEPROM (io/at28c256/src/at28c256.c): `at28c256_tick` as the passage of time in
   a machine with two timeouts.

   What is proved:
     1. `at28c256Tick_passes` (`at28c256_tick` passes the time it is given, through both timeouts
        if it reaches them).
     2. `eeprom_time_additive` (two ticks are one of their sum; and the result of a run depends
        on the accesses and the time between them, and not on its slices). -/
namespace Cb6502

open Timeout

/-- The timeout that runs in a state. -/
def WriteState.limit : WriteState → Option (BitVec 64)
  | .idle => none
  | .sdp | .sdpWriteEn | .byteLoad => some T_BLC
  | .writeCycle => some T_WC

/-- The EEPROM as time passes for it. -/
def eepromTime : Machine At28c256 where
  left s := s.writeState.limit.map fun limit => limit.toNat - s.stateElapsed.toNat
  wait s nanos := { s with stateElapsed := s.stateElapsed + BitVec.ofNat 64 nanos }
  expire s := if s.writeState = .writeCycle then endWriteCycle s else s.startCycle

section Time
variable {s s' : At28c256} {nanos : BitVec 32}

theorem WriteState.limit_small {w : WriteState} {limit : BitVec 64} (h : w.limit = some limit) :
    limit.toNat < 2 ^ 32 := by
  cases w with
  | idle => exact absurd h.symm (Option.some_ne_none _)
  | sdp | sdpWriteEn | byteLoad | writeCycle =>
    obtain rfl := Option.some.inj h
    decide

theorem eepromTime_left {t : Nat} (h : eepromTime.left s = some t) :
    ∃ limit, s.writeState.limit = some limit ∧ limit.toNat - s.stateElapsed.toNat = t :=
  Option.map_eq_some_iff.mp h

theorem eepromTime_lawful : eepromTime.Lawful where
  wait_zero s := by simp [eepromTime]
  wait_wait s a b := by simp [eepromTime, BitVec.add_assoc, BitVec.ofNat_add]
  left_wait := by
    intro s t a h ha
    obtain ⟨limit, hlimit, rfl⟩ := eepromTime_left h
    have hsmall := WriteState.limit_small hlimit
    have hsum : (s.stateElapsed + BitVec.ofNat 64 a).toNat = s.stateElapsed.toNat + a := by
      rw [BitVec.toNat_add, BitVec.toNat_ofNat]
      omega
    simp only [eepromTime, hlimit, hsum, Option.map_some, Nat.sub_add_eq]
  expire_wait := by
    intro s t a _ _
    simp only [eepromTime]
    split
    · rfl
    · rfl

theorem limit_loading (h : s.Loading) : s.writeState.limit = some T_BLC := by
  rcases h with h | h | h <;> rw [h] <;> rfl

/-- The timer is short of the timeout that runs. -/
theorem At28c256.Consistent.short (h : s.Consistent) {limit : BitVec 64}
    (hlimit : s.writeState.limit = some limit) : s.stateElapsed.toNat < limit.toNat := by
  cases hstate : s.writeState with
  | idle =>
    rw [hstate] at hlimit
    exact absurd hlimit.symm (Option.some_ne_none _)
  | sdp | sdpWriteEn | byteLoad =>
    have hload : s.Loading := by simp [At28c256.Loading, hstate]
    obtain rfl := Option.some.inj ((limit_loading hload).symm.trans hlimit)
    exact BitVec.lt_def.mp (h.loadTime hload)
  | writeCycle =>
    rw [hstate] at hlimit
    obtain rfl := Option.some.inj hlimit
    exact BitVec.lt_def.mp (h.cycleTime hstate)

theorem At28c256.Consistent.left_ne_zero (h : s.Consistent) : eepromTime.left s ≠ some 0 := by
  intro hleft
  obtain ⟨limit, hlimit, hzero⟩ := eepromTime_left hleft
  have hshort := h.short hlimit
  omega

/-- A round that the timeout outlasts. -/
theorem passes_wait (hs : s.Consistent) {limit : BitVec 64} (hlimit : s.writeState.limit = some limit)
    (htime : s.elapsedWith nanos < limit) :
    Passes eepromTime s nanos.toNat { s with stateElapsed := s.elapsedWith nanos } := by
  have hsum := elapsedWith_toNat limit (WriteState.limit_small hlimit) (hs.short hlimit) nanos
  have hless := BitVec.lt_def.mp htime
  have hleft : eepromTime.left s = some (limit.toNat - s.stateElapsed.toNat) := by
    simp only [eepromTime, hlimit, Option.map_some]
  have hwait : Passes eepromTime s nanos.toNat (eepromTime.wait s nanos.toNat) :=
    .wait hleft (by omega)
  have hnanos : nanos.setWidth 64 = BitVec.ofNat 64 nanos.toNat := by simp
  rw [At28c256.elapsedWith, hnanos]
  exact hwait

/-- A round in which the state expires, and the time after it. -/
theorem passes_expire (hs : s.Consistent) {limit : BitVec 64}
    (hlimit : s.writeState.limit = some limit) (htime : limit ≤ s.elapsedWith nanos)
    (hrest : Passes eepromTime (eepromTime.expire s)
      (nanos - (limit - s.stateElapsed).setWidth 32).toNat s') :
    Passes eepromTime s nanos.toNat s' := by
  have hshort := hs.short hlimit
  have hsum := elapsedWith_toNat limit (WriteState.limit_small hlimit) hshort nanos
  have hover := BitVec.le_def.mp htime
  have hused := left_toNat limit hshort nanos (by omega)
  have hleft : eepromTime.left s = some (limit.toNat - s.stateElapsed.toNat) := by
    simp only [eepromTime, hlimit, Option.map_some]
  refine .expire hleft (by omega) ?_
  have hnanos : nanos.toNat - (limit.toNat - s.stateElapsed.toNat) =
      (nanos - (limit - s.stateElapsed).setWidth 32).toNat := by omega
  rw [hnanos]
  exact hrest

/-- What passes after a round has passed with the time the round was given. -/
theorem tickRound_passes (hs : s.Consistent)
    (hrest : Passes eepromTime (tickRound s nanos).1 (tickRound s nanos).2.toNat s') :
    Passes eepromTime s nanos.toNat s' := by
  have hcase := tickRound_case s nanos
  have hround := hs.round nanos
  generalize tickRound s nanos = result at hcase hround hrest
  have hdone : result.2 = 0 → result.1 = s' := by
    intro hspent
    rw [hspent] at hrest
    exact (Passes.none eepromTime_lawful hround.left_ne_zero).unique hrest
  cases hcase with
  | idle h =>
    obtain rfl := hdone rfl
    exact .rest (by simp only [eepromTime, h]; rfl)
  | loading h htime =>
    obtain rfl := hdone rfl
    exact passes_wait hs (limit_loading h) htime
  | loaded h htime =>
    refine passes_expire hs (limit_loading h) htime ?_
    have hnot : s.writeState ≠ .writeCycle := by rcases h with h | h | h <;> rw [h] <;> decide
    have hnext : eepromTime.expire s = s.startCycle := if_neg hnot
    rwa [hnext]
  | writing h htime =>
    obtain rfl := hdone rfl
    exact passes_wait hs (by rw [h]; rfl) htime
  | written h htime =>
    refine passes_expire hs (by rw [h]; rfl) htime ?_
    have hnext : eepromTime.expire s = endWriteCycle s := if_pos h
    rwa [hnext]

theorem tickRounds_passes (rounds : Nat) (hs : s.Consistent)
    (hspent : (tickRounds rounds s nanos).2 = 0) :
    Passes eepromTime s nanos.toNat (tickRounds rounds s nanos).1 := by
  have hnone : ∀ {s : At28c256}, s.Consistent → Passes eepromTime s (0#32).toNat s :=
    fun hs => Passes.none eepromTime_lawful hs.left_ne_zero
  induction rounds generalizing s nanos with
  | zero =>
    obtain rfl : nanos = 0 := hspent
    exact hnone hs
  | succ rounds ih =>
    rw [tickRounds] at hspent ⊢
    split at hspent
    · rename_i hzero
      rw [if_pos hzero, hzero]
      exact hnone hs
    · rename_i hsome
      rw [if_neg hsome]
      exact tickRound_passes hs (ih (hs.round nanos) hspent)

/-- `at28c256_tick` passes the time it is given. -/
theorem at28c256Tick_passes (hs : s.Consistent) (nanos : BitVec 32) :
    Passes eepromTime s nanos.toNat (at28c256Tick s nanos) :=
  tickRounds_passes _ hs (tickRounds_spent (Nat.le_refl _) nanos)

end Time

/-! ## Runs -/

/-- What a read returns. -/
def At28Op.returned (s : At28c256) : At28Op → Option (BitVec 8)
  | .read addr => some (at28c256Read s addr).1
  | .write _ _ | .tick _ => none

/-- What the reads and writes of a run return. -/
def at28Observed (s : At28c256) : List At28Op → List (Option (BitVec 8))
  | [] => []
  | .tick nanos :: ops => at28Observed (at28c256Tick s nanos) ops
  | op :: ops => op.returned s :: at28Observed (op.step s) ops

/-- The nanoseconds of a tick. -/
def At28Op.slice : At28Op → Option Nat
  | .tick nanos => some nanos.toNat
  | .write _ _ | .read _ => none

/-- The reads and writes of a run, each with the time since the one before, and the time after the
last. -/
def at28Timeline (ops : List At28Op) : List (Nat × At28Op) × Nat := timeline At28Op.slice 0 ops

/-- A run follows its timeline. -/
theorem at28Run_follows {s₀ s : At28c256} {since : Nat} (ops : List At28Op) (hs : s.Consistent)
    (hsince : Passes eepromTime s₀ since s) :
    Follows eepromTime (fun s op => (op.returned s, op.step s)) s₀
      (timeline At28Op.slice since ops).1 (timeline At28Op.slice since ops).2
      (at28Observed s ops) (at28Run s ops) := by
  induction ops generalizing s₀ s since with
  | nil => exact .done hsince
  | cons op ops ih =>
    have hstep := hs.step op
    have hnone := Passes.none eepromTime_lawful hstep.left_ne_zero
    cases op with
    | write addr val => exact .access hsince (ih hstep hnone)
    | read addr => exact .access hsince (ih hstep hnone)
    | tick nanos => exact ih hstep (hsince.add eepromTime_lawful (at28c256Tick_passes hs nanos))

/-- Two ticks are one of their sum, the loop ends for every time, and runs with one timeline have
one result. -/
theorem eeprom_time_additive {s : At28c256} (h : At28Reachable s) :
    (∀ a b : BitVec 32, a.toNat + b.toNat < 2 ^ 32 →
      at28c256Tick (at28c256Tick s a) b = at28c256Tick s (a + b)) ∧
    (∀ (nanos : BitVec 32) (rounds : Nat), s.writeState.roundsLeft ≤ rounds →
      tickRounds rounds s nanos = (at28c256Tick s nanos, 0)) ∧
    ∀ ops ops' : List At28Op, at28Timeline ops = at28Timeline ops' →
      at28Run s ops = at28Run s ops' ∧ at28Observed s ops = at28Observed s ops' := by
  have hs := h.consistent
  refine ⟨?_, ?_, ?_⟩
  · intro a b hsum
    have hadd : (a + b).toNat = a.toNat + b.toNat := BitVec.toNat_add_of_lt hsum
    have hfirst := at28c256Tick_passes hs a
    have hboth := hfirst.add eepromTime_lawful (at28c256Tick_passes (hs.step (.tick a)) b)
    rw [← hadd] at hboth
    exact hboth.unique (at28c256Tick_passes hs (a + b))
  · intro nanos rounds hrounds
    have hspent := tickRounds_spent hrounds nanos
    have hsame := (tickRounds_passes rounds hs hspent).unique (at28c256Tick_passes hs nanos)
    exact Prod.ext hsame hspent
  · intro ops ops' hsame
    have hnone := Passes.none eepromTime_lawful hs.left_ne_zero
    have hrun := at28Run_follows ops hs hnone
    have hrun' := at28Run_follows ops' hs hnone
    unfold at28Timeline at hsame
    rw [← hsame] at hrun'
    exact (hrun.unique hrun').symm

/-- A byte load cut inside the byte load and inside the write cycle, and the whole in one slice. -/
def slicedWrite : List At28Op :=
  [.tick 149999, .tick 1, .tick 9999999, .read 0x1000, .tick 0, .tick 1, .read 0x1000]

def unslicedWrite : List At28Op := [.tick 10149999, .read 0x1000, .tick 1, .read 0x1000]

theorem eeprom_time_additive_slicedWrite :
    at28c256Tick (at28c256Tick (at28c256Write (at28c256Init false) 0x1000 0x42) 149999) 10000001 =
        at28c256Tick (at28c256Write (at28c256Init false) 0x1000 0x42) (149999 + 10000001) ∧
      tickRounds 7 (at28c256Write (at28c256Init false) 0x1000 0x42) 10150000 =
        (at28c256Tick (at28c256Write (at28c256Init false) 0x1000 0x42) 10150000, 0) ∧
      at28Run (at28c256Write (at28c256Init false) 0x1000 0x42) slicedWrite =
        at28Run (at28c256Write (at28c256Init false) 0x1000 0x42) unslicedWrite := by
  have h := eeprom_time_additive (.step (.write 0x1000 0x42) (.init false))
  exact ⟨h.1 149999 10000001 (by decide), h.2.1 10150000 7 (by decide),
    (h.2.2 slicedWrite unslicedWrite rfl).1⟩

end Cb6502
