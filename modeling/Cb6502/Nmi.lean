import Cb6502.Runs

/- The NMI edge flag. The voters' side sets `SV_NMI_EDGE_PENDING` on each transition of
   the NMI vote mask from zero to non-zero, the CPU's side clears it where it begins the
   sequence. Votes come between ticks and, from the callbacks of devices and tracers, in
   the middle of one. `NmiRun` carries two ghost values: the number of edges there had
   been when the last sequence began, and the number of sequences begun. -/
namespace Cb6502
open Dialogue

variable {ω : Type}

/-! ## The voters' side -/

/-- The edges come to at least `mark`, and the flag is set exactly when there are more. -/
def Bus.PendingSince (mark : Nat) (bus : Bus ω) : Prop :=
  mark ≤ bus.nmiEdges ∧ (bus.sigvotes.nmiEdgePending = true ↔ mark < bus.nmiEdges)

theorem nmi_setMask (v : SigVotes) (signal : BusSignal) (m : BitVec 32) :
    (v.setMask signal m).nmi = if signal = .nmi then m else v.nmi := by
  cases signal <;> rfl

theorem nmiEdgePending_setMask (v : SigVotes) (signal : BusSignal) (m : BitVec 32) :
    (v.setMask signal m).nmiEdgePending = v.nmiEdgePending := by
  cases signal <;> rfl

theorem or_voter_ne_zero (allocated voter m : BitVec 32) (h : allocated &&& voter ≠ 0) :
    m ||| voter ≠ 0 := by
  intro hor
  obtain rfl : voter = 0#32 := (BitVec.or_eq_zero_iff.mp hor).2
  exact h BitVec.and_zero

/-- The flag is raised by the votes that make the mask non-zero, and by no other. -/
theorem nmiEdgePending_vote (v : SigVotes) (voter : BitVec 32) (signal : BusSignal) (voted : Bool) :
    (emuBusSigVote v voter signal voted).nmiEdgePending =
      (v.nmiEdgePending || decide (v.nmi = 0 ∧ (emuBusSigVote v voter signal voted).nmi ≠ 0)) := by
  unfold emuBusSigVote
  by_cases ha : v.allocated &&& voter = 0
  · simp [ha]
  · have hor := or_voter_ne_zero v.allocated voter v.nmi ha
    simp only [if_neg ha]
    by_cases he : signal = .nmi ∧ voted = true ∧ v.nmi = 0
    · obtain ⟨rfl, rfl, h0⟩ := he
      simp_all [SigVotes.setMask, SigVotes.mask]
    · simp only [if_neg he, nmiEdgePending_setMask, nmi_setMask]
      by_cases h0 : v.nmi = 0#32
      · by_cases hs : signal = .nmi
        · obtain rfl : voted = false := by simp_all
          simp [hs, SigVotes.mask, h0]
        · simp [hs]
      · simp [h0]

theorem pendingSince_sigVote (mark : Nat) (bus : Bus ω) (c : SigVote)
    (h : bus.PendingSince mark) : (bus.sigVote c).PendingSince mark := by
  obtain ⟨hle, hiff⟩ := h
  have hflag := nmiEdgePending_vote bus.sigvotes c.voter c.signal c.voted
  unfold Bus.sigVote Bus.PendingSince
  dsimp only
  rw [hflag]
  by_cases he : bus.sigvotes.nmi = 0 ∧
      (emuBusSigVote bus.sigvotes c.voter c.signal c.voted).nmi ≠ 0
  · simp only [if_pos he, decide_eq_true he, Bool.or_true, true_iff]
    omega
  · simp only [if_neg he, decide_eq_false he, Bool.or_false]
    exact ⟨hle, hiff⟩

theorem pendingSince_voteStable (mark : Nat) :
    Bus.VoteStable (Bus.PendingSince mark : Bus ω → Prop) :=
  ⟨fun _ _ _ _ h => h, pendingSince_sigVote mark⟩

/-! ## The CPU's side -/

/-- The tick from `emu` to `emu'` begins an NMI sequence: its first cycle is done. -/
def Emu.BeginsNmi (emu emu' : Emu ω) : Prop :=
  emu'.cpu.opState = .vec1 ∧ emu'.cpu.vecSrc = .nmi ∧ emu.cpu.opState ≠ .vec1

/-- What decides that a tick begins an NMI sequence. -/
def Emu.nmiDue (emu : Emu ω) : Prop :=
  emu.cpu.opState = .opcode ∧ emu.bus.sigvotes.nmiEdgePending = true ∧ emu.bus.sigvotes.rdy = 0

/-- Only `cpu_init` leaves the CPU before the first cycle of a vector sequence. -/
def Cpu.ResetOnly (cpu : Cpu) : Prop := cpu.opState = .vec0 → cpu.vecSrc = .rst

theorem tickRun_boundary (emu : Emu ω) (hs : emu.cpu.opState = .opcode) :
    (emu.bus.sigvotes.nmiEdgePending = true →
      emu.tickRun.1.opState = .vec1 ∧ emu.tickRun.1.vecSrc = .nmi) ∧
    (emu.bus.sigvotes.nmiEdgePending = false → emu.tickRun.1.opState ≠ .vec0 ∧
      (emu.tickRun.1.opState = .vec1 → emu.tickRun.1.vecSrc = .irq)) := by
  refine ⟨?_, ?_⟩
  · intro hp
    simp [Emu.tickRun, tickProg, hs, hp, vector, Cpu.beginVector, advanceState]
  · intro hp
    by_cases hirq : irqTaken emu.bus.sigvotes emu.cpu.regs = true
    · simp [Emu.tickRun, tickProg, hs, hp, hirq, vector, Cpu.beginVector, advanceState]
    · simp [Emu.tickRun, tickProg, hs, hp, hirq, fetch]

theorem cycle_vec0_vecSrc (cpu : Cpu) (bus : Bus ω) (h : cpu.opState = .vec0) :
    ((cycle cpu).run busEnv bus).1.vecSrc = cpu.vecSrc := by
  simp [cycle, cycleFrom, handler, vector, h, advanceState]

theorem tickRun_inside (emu : Emu ω) (hfresh : emu.cpu.ctl.fresh = true)
    (hs : emu.cpu.opState ≠ .opcode) :
    emu.tickRun.1.opState ≠ .vec0 ∧ (emu.tickRun.1.opState = .vec1 →
      emu.cpu.opState = .vec0 ∧ emu.tickRun.1.vecSrc = emu.cpu.vecSrc) := by
  have hrun : emu.tickRun = (cycle emu.cpu.clearCycle).run busEnv (emu.bus.ackNmi emu.cpu) := by
    rw [Emu.tickRun, tickProg_inside _ emu.cpu.clearCycle hs]
  have hends := Prog.Ends.mono (cycle_ends emu.cpu.clearCycle hfresh hs rfl) fun _ _ h => h.2
  have hend := hends.result busEnv (emu.bus.ackNmi emu.cpu)
  rw [hrun]
  refine ⟨hend.vec0, fun h => ⟨hend.vec1 h, ?_⟩⟩
  exact cycle_vec0_vecSrc emu.cpu.clearCycle _ (hend.vec1 h)

theorem resetOnly_tick (emu : Emu ω) (hfresh : emu.cpu.ctl.fresh = true)
    (hreset : emu.cpu.ResetOnly) : emu.tick.cpu.ResetOnly := by
  by_cases hrdy : emu.bus.sigvotes.rdy = 0
  · rw [tick_unstalled emu hrdy]
    intro h0
    by_cases hs : emu.cpu.opState = .opcode
    · obtain ⟨hnmi, hother⟩ := tickRun_boundary emu hs
      cases hp : emu.bus.sigvotes.nmiEdgePending with
      | true => exact absurd ((hnmi hp).1.symm.trans h0) (by decide)
      | false => exact absurd h0 (hother hp).1
    · exact absurd h0 (tickRun_inside emu hfresh hs).1
  · rw [tick_stalled emu hrdy]
    exact hreset

/-- A tick begins an NMI sequence exactly at a boundary with the flag set and RDY not held. -/
theorem beginsNmi_tick (emu : Emu ω) (hfresh : emu.cpu.ctl.fresh = true)
    (hreset : emu.cpu.ResetOnly) : emu.BeginsNmi emu.tick ↔ emu.nmiDue := by
  by_cases hrdy : emu.bus.sigvotes.rdy = 0
  · rw [tick_unstalled emu hrdy]
    by_cases hs : emu.cpu.opState = .opcode
    · obtain ⟨hnmi, hother⟩ := tickRun_boundary emu hs
      refine ⟨?_, ?_⟩
      · rintro ⟨h1, hsrc, -⟩
        cases hp : emu.bus.sigvotes.nmiEdgePending with
        | true => exact ⟨hs, hp, hrdy⟩
        | false => exact absurd (((hother hp).2 h1).symm.trans hsrc) (by decide)
      · rintro ⟨-, hp, -⟩
        obtain ⟨h1, hsrc⟩ := hnmi hp
        exact ⟨h1, hsrc, by rw [hs]; decide⟩
    · refine ⟨?_, fun h => absurd h.1 hs⟩
      rintro ⟨h1, hsrc, -⟩
      obtain ⟨h0, hkeep⟩ := (tickRun_inside emu hfresh hs).2 h1
      have hrst := hreset h0
      exact absurd ((hkeep.trans hrst).symm.trans hsrc) (by decide)
  · rw [tick_stalled emu hrdy]
    exact ⟨fun h => absurd h.1 h.2.2, fun h => absurd h.2.2 hrdy⟩

/-! ## Runs -/

/-- Runs from `cpu_init` on a fresh bus, by votes, registrations, changes of the devices
and connections, and ticks. The ghost values are the number of edges when the last NMI
sequence began and the number of sequences begun. -/
inductive NmiRun : Emu ω → Nat → Nat → Prop where
  | init (connlist : List (BusConn ω)) (tracelist : List (BusTraceCb ω)) (devs : ω) :
      NmiRun { bus := Bus.init connlist tracelist devs, cpu := cpuInit } 0 0
  | vote {emu : Emu ω} {mark begun : Nat} (c : SigVote) (h : NmiRun emu mark begun) :
      NmiRun { emu with bus := emu.bus.sigVote c } mark begun
  | register {emu : Emu ω} {mark begun : Nat} (h : NmiRun emu mark begun) :
      NmiRun { emu with bus.sigvotes := (emuBusRegisterSigVoter emu.bus.sigvotes).2 } mark begun
  | unregister {emu : Emu ω} {mark begun : Nat} (voter : BitVec 32) (h : NmiRun emu mark begun) :
      NmiRun { emu with bus.sigvotes := emuBusUnregisterSigVoter emu.bus.sigvotes voter } mark begun
  | devices {emu : Emu ω} {mark begun : Nat} (bus : Bus ω) (h : NmiRun emu mark begun)
      (hvotes : bus.sigvotes = emu.bus.sigvotes) (hedges : bus.nmiEdges = emu.bus.nmiEdges) :
      NmiRun { emu with bus } mark begun
  | tick {emu emu' : Emu ω} {mark begun : Nat} (fuel : Nat) (h : NmiRun emu mark begun)
      (ht : cpuTick fuel emu = some emu') (hb : ¬emu.BeginsNmi emu') : NmiRun emu' mark begun
  | nmi {emu emu' : Emu ω} {mark begun : Nat} (fuel : Nat) (h : NmiRun emu mark begun)
      (ht : cpuTick fuel emu = some emu') (hb : emu.BeginsNmi emu') :
      NmiRun emu' emu.bus.nmiEdges (begun + 1)

theorem NmiRun.reachable {emu : Emu ω} {mark begun : Nat} (h : NmiRun emu mark begun) :
    Reachable emu := by
  induction h with
  | init connlist tracelist devs => exact .init _
  | vote c _ ih => exact .between _ ih
  | register _ ih => exact .between _ ih
  | unregister voter _ ih => exact .between _ ih
  | devices bus _ _ _ ih => exact .between bus ih
  | tick fuel _ ht _ ih => exact .tick fuel ih ht
  | nmi fuel _ ht _ ih => exact .tick fuel ih ht

theorem Reachable.resetOnly {emu : Emu ω} (h : Reachable emu) : emu.cpu.ResetOnly := by
  induction h with
  | init bus => exact fun _ => rfl
  | tick fuel h ht ih =>
    rw [eq_tick_of_cpuTick h.fresh ht]
    exact resetOnly_tick _ h.fresh ih
  | between bus _ ih => exact ih

theorem Reachable.beginsNmi_iff {emu emu' : Emu ω} {fuel : Nat} (h : Reachable emu)
    (ht : cpuTick fuel emu = some emu') : emu.BeginsNmi emu' ↔ emu.nmiDue := by
  rw [eq_tick_of_cpuTick h.fresh ht]
  exact beginsNmi_tick emu h.fresh h.resetOnly

/-- A tick that begins no NMI sequence keeps the mark. -/
theorem pendingSince_tick (mark : Nat) (emu : Emu ω) (h : emu.bus.PendingSince mark)
    (hdue : ¬emu.nmiDue) : emu.tick.bus.PendingSince mark := by
  by_cases hrdy : emu.bus.sigvotes.rdy = 0
  · rw [tick_unstalled emu hrdy]
    refine (pendingSince_voteStable mark).kept.run ?_ _
    by_cases hs : emu.cpu.opState = .opcode
    · have hp : emu.bus.sigvotes.nmiEdgePending = false := by
        cases hp : emu.bus.sigvotes.nmiEdgePending with
        | false => rfl
        | true => exact absurd ⟨hs, hp, hrdy⟩ hdue
      rw [Bus.ackNmi_of_not_pending _ _ hp]
      exact h
    · simpa only [Bus.ackNmi, if_neg hs] using h
  · rw [tick_stalled emu hrdy]
    exact (pendingSince_voteStable mark).kept.replay h

/-- A tick that begins an NMI sequence starts the count afresh, from its own start. -/
theorem pendingSince_nmiDue (emu : Emu ω) (hdue : emu.nmiDue) :
    emu.tick.bus.PendingSince emu.bus.nmiEdges := by
  rw [tick_unstalled emu hdue.2.2]
  refine (pendingSince_voteStable _).kept.run ?_ _
  simp only [Bus.ackNmi, if_pos hdue.1]
  exact ⟨Nat.le_refl _, by simp⟩

theorem NmiRun.pendingSince {emu : Emu ω} {mark begun : Nat} (h : NmiRun emu mark begun) :
    emu.bus.PendingSince mark := by
  induction h with
  | init connlist tracelist devs => exact ⟨Nat.le_refl 0, by simp [Bus.init]⟩
  | vote c _ ih => exact pendingSince_sigVote _ _ c ih
  | register _ ih =>
    simp only [Bus.PendingSince, emuBusRegisterSigVoter]
    split <;> exact ih
  | unregister voter _ ih => exact ih
  | devices bus _ hvotes hedges ih =>
    simpa only [Bus.PendingSince, hvotes, hedges] using ih
  | tick fuel h ht hb ih =>
    have hdue := mt (h.reachable.beginsNmi_iff ht).mpr hb
    rw [eq_tick_of_cpuTick h.reachable.fresh ht]
    exact pendingSince_tick _ _ ih hdue
  | nmi fuel h ht hb ih =>
    have hdue := (h.reachable.beginsNmi_iff ht).mp hb
    rw [eq_tick_of_cpuTick h.reachable.fresh ht]
    exact pendingSince_nmiDue _ hdue

/-- Each sequence begun moves the mark past at least one more edge. -/
theorem NmiRun.begun_le {emu : Emu ω} {mark begun : Nat} (h : NmiRun emu mark begun) :
    begun ≤ mark := by
  induction h with
  | init connlist tracelist devs => exact Nat.le_refl 0
  | vote c _ ih => exact ih
  | register _ ih => exact ih
  | unregister voter _ ih => exact ih
  | devices bus _ _ _ ih => exact ih
  | tick fuel _ _ _ ih => exact ih
  | nmi fuel h ht hb ih =>
    have hdue := (h.reachable.beginsNmi_iff ht).mp hb
    have := h.pendingSince.2.mp hdue.2.1
    omega

/-- No NMI edge is lost or served twice. In every run the flag is set exactly when there
was an edge since the last NMI sequence began; the next tick ends, and it begins a sequence
exactly when it starts at an instruction boundary with the flag set and RDY not held; there
was then an edge since the last one began, so the sequences begun never outnumber the edges. -/
theorem nmi_edge_served_once (emu : Emu ω) (mark begun : Nat) (h : NmiRun emu mark begun) :
    (emu.bus.sigvotes.nmiEdgePending = true ↔ mark < emu.bus.nmiEdges) ∧
    (∃ emu', cpuTick 4 emu = some emu') ∧
    (∀ fuel emu', cpuTick fuel emu = some emu' →
      (emu.BeginsNmi emu' ↔ emu.cpu.opState = .opcode ∧
        emu.bus.sigvotes.nmiEdgePending = true ∧ emu.bus.sigvotes.rdy = 0) ∧
      (emu.BeginsNmi emu' → mark < emu.bus.nmiEdges)) ∧
    begun ≤ emu.bus.nmiEdges := by
  have hpending := h.pendingSince
  refine ⟨hpending.2, ⟨emu.tick, h.reachable.tick_some⟩, ?_, Nat.le_trans h.begun_le hpending.1⟩
  intro fuel emu' ht
  have hiff := h.reachable.beginsNmi_iff ht
  refine ⟨hiff, fun hb => ?_⟩
  exact hpending.2.mp (hiff.mp hb).2.1

/-- A fresh emulator on which the first voter asserts NMI. -/
def nmiVoted : Emu Unit :=
  let bus : Bus Unit := Bus.init [] [] ()
  { bus := { bus with sigvotes := (emuBusRegisterSigVoter bus.sigvotes).2 }.sigVote ⟨1, .nmi, true⟩
    cpu := cpuInit }

theorem nmiVoted_run {n : Nat} (hn : n ≤ 7) : NmiRun (Nat.repeat Emu.tick n nmiVoted) 0 0 := by
  have hoff : ∀ k < 7, (Nat.repeat Emu.tick k nmiVoted).cpu.opState ≠ .opcode := by decide +kernel
  induction n with
  | zero => exact .vote ⟨1, .nmi, true⟩ (.register (.init [] [] ()))
  | succ n ih =>
    have hrun := ih (Nat.le_of_succ_le hn)
    have ht := hrun.reachable.tick_some
    refine .tick 4 hrun ht fun hb => ?_
    exact hoff n hn ((hrun.reachable.beginsNmi_iff ht).mp hb).1

/-- The edge comes in the middle of the reset sequence. At the boundary behind it the CPU begins the
NMI sequence, and with that the edge is served. -/
theorem nmi_edge_served_once_after_vote :
    ∃ emu emu' : Emu Unit, NmiRun emu 0 0 ∧ emu.bus.nmiEdges = 1 ∧ cpuTick 4 emu = some emu' ∧
      emu.BeginsNmi emu' ∧ emu'.bus.sigvotes.nmiEdgePending = false := by
  have hrun := nmiVoted_run (Nat.le_refl 7)
  have hdue : (Nat.repeat Emu.tick 7 nmiVoted).cpu.opState = .opcode ∧
      (Nat.repeat Emu.tick 7 nmiVoted).bus.sigvotes.rdy = 0 ∧
      (Nat.repeat Emu.tick 7 nmiVoted).bus.nmiEdges = 1 := by decide +kernel
  obtain ⟨hboundary, hrdy, hedges⟩ := hdue
  obtain ⟨hflag, ⟨emu', ht⟩, hbegins, -⟩ := nmi_edge_served_once _ 0 0 hrun
  have hpending := hflag.mpr (by rw [hedges]; decide)
  have hb := (hbegins 4 emu' ht).1.mpr ⟨hboundary, hpending, hrdy⟩
  refine ⟨_, emu', hrun, hedges, ht, hb, ?_⟩
  have hserved := (nmi_edge_served_once emu' _ 1 (.nmi 4 hrun ht hb)).1
  have hsame : emu'.bus.nmiEdges = 1 := by
    rw [eq_tick_of_cpuTick hrun.reachable.fresh ht]
    decide +kernel
  rw [hsame, hedges] at hserved
  exact Bool.eq_false_iff.mpr fun hset => Nat.lt_irrefl 1 (hserved.mp hset)

end Cb6502
