import Cb6502.Lib.ReloadCounter
import Cb6502.ViaIrq

/- Timer 1 of the VIA. The counter is a `ReloadCounter` that moves at negative edges and is
   looked at, at positive edges, for `0xFFFF`. Every other operation leaves the timer alone and
   can only clear its flag (`T1Quiet`), so the timer's own two edges decide the run: after a
   load of `N` it expires at the positive edge behind negative edge `N + 1`, and every `N + 2`
   from then on in continuous mode (`T1At.step`). A latch of `0xFFFF` is the value looked for:
   such a timer expires at the first positive edge. -/
namespace Cb6502

/-! ## The timer -/

/-- The part of a VIA that is timer 1. -/
structure T1 where
  latch : BitVec 16
  counter : BitVec 16
  pb7 : Bool
  armed : Bool
  writePend : Bool
  continuous : Bool
  deriving DecidableEq

def Via.t1 (v : Via) : T1 where
  latch := v.t1l
  counter := v.t1c
  pb7 := v.t1pb7
  armed := v.flags.t1Armed
  writePend := v.flags.t1WritePend
  continuous := v.t1Mode

/-- Bit 6 of IFR. -/
def Via.t1Flag (v : Via) : Bool := v.ifr.getLsbD 6

/-- The timer has run out, and the next positive edge says so. -/
def T1.Expiring (t : T1) : Prop := t.armed = true ∧ t.counter = 0xFFFF

instance (t : T1) : Decidable t.Expiring := inferInstanceAs (Decidable (_ ∧ _))

/-- A one-shot timer is done when it expires. -/
def T1.posedge (t : T1) : T1 :=
  if t.Expiring then { t with pb7 := !t.pb7, armed := t.continuous } else t

def T1.negedge (t : T1) : T1 :=
  if t.writePend then { t with writePend := false }
  else { t with counter := ReloadCounter.step t.latch t.counter }

/-! ## What leaves the timer alone -/

/-- From `s` to `s'` the timer is as it was, and its flag is not set. -/
structure T1Quiet (s s' : ViaStep) : Prop where
  timer : s'.via.t1 = s.via.t1
  flag : s'.via.t1Flag = true → s.via.t1Flag = true

namespace T1Quiet
variable {s s' s'' : ViaStep}

theorem refl (s : ViaStep) : T1Quiet s s := ⟨rfl, id⟩

theorem trans (h : T1Quiet s s') (h' : T1Quiet s' s'') : T1Quiet s s'' :=
  ⟨h'.timer.trans h.timer, fun hflag => h.flag (h'.flag hflag)⟩

theorem frame (htimer : s'.via.t1 = s.via.t1) (hifr : s'.via.ifr = s.via.ifr) : T1Quiet s s' := by
  refine ⟨htimer, ?_⟩
  unfold Via.t1Flag
  rw [hifr]
  exact id

/-- The flags of the handshake lines. -/
theorem flags (s : ViaStep) {f : ViaFlags → ViaFlags}
    (hf : ∀ x, (f x).t1Armed = x.t1Armed ∧ (f x).t1WritePend = x.t1WritePend) :
    T1Quiet s (s.mapFlags f) := by
  obtain ⟨harmed, hpend⟩ := hf s.via.flags
  refine frame ?_ rfl
  show { s.via.t1 with armed := (f s.via.flags).t1Armed, writePend := (f s.via.flags).t1WritePend } = _
  rw [harmed, hpend]
  rfl

theorem callbacks (s : ViaStep) (event : ViaPortData) : T1Quiet s (viaMakeCallbacks s event) :=
  frame rfl rfl

theorem setPort (s : ViaStep) (porta : Bool) (p : ViaPortState) :
    T1Quiet s { s with via := s.via.setPort porta p } := by
  cases porta <;> exact frame rfl rfl

theorem c2 (s : ViaStep) (porta state : Bool) : T1Quiet s (viaWriteC2State s porta state) := by
  unfold viaWriteC2State
  dsimp only
  split
  · exact refl s
  · split
    · exact (setPort s porta _).trans (callbacks _ _)
    · exact setPort s porta _

theorem voteIrq (s : ViaStep) (voted : Bool) : T1Quiet s (s.voteIrq voted) :=
  frame (by rw [ViaStep.voteIrq_via]) (by rw [ViaStep.voteIrq_via])

/-- A flag of another source. -/
theorem setIfr (s : ViaStep) {bits : BitVec 8} (hbits : bits.getLsbD 6 = false) :
    T1Quiet s (viaSetIfr s bits) := by
  have hset : T1Quiet s { s with via := { s.via with ifr := s.via.ifr ||| (bits ||| 0x80) } } := by
    refine ⟨rfl, fun hflag => ?_⟩
    have hor : (s.via.ifr ||| (bits ||| 0x80#8)).getLsbD 6 = true := hflag
    rw [BitVec.getLsbD_or, BitVec.getLsbD_or, hbits] at hor
    simpa [Via.t1Flag] using hor
  unfold viaSetIfr
  split
  · exact refl s
  · dsimp only
    split
    · exact hset.trans (voteIrq _ _)
    · exact hset

theorem clearIfr (s : ViaStep) (bits : BitVec 8) : T1Quiet s (viaClearIfr s bits) := by
  have hclear : T1Quiet s { s with via := { s.via with
      ifr := s.via.ifr &&& ~~~(bits &&& 0x7F) } } := by
    refine ⟨rfl, fun hflag => ?_⟩
    have hand : (s.via.ifr &&& ~~~(bits &&& 0x7F#8)).getLsbD 6 = true := hflag
    rw [BitVec.getLsbD_and, Bool.and_eq_true] at hand
    exact hand.1
  have hzero : T1Quiet s { s with via := { s.via with ifr := 0 } } :=
    ⟨rfl, fun hflag => absurd (show (0#8).getLsbD 6 = true from hflag) (by decide)⟩
  unfold viaClearIfr
  dsimp only
  split
  · split
    · exact hzero.trans (voteIrq _ _)
    · exact hzero
  · exact hclear

end T1Quiet

theorem t1Quiet_rule : HandshakeRule T1Quiet where
  refl := .refl
  trans h h' := h.trans h'
  flags s _ hf := .flags s hf
  set s _ _ hbits := .setIfr s hbits
  clear := .clearIfr
  latch s porta _ := .setPort s porta _
  c2 := .c2

/-! ## Clock edges -/

theorem viaSetIfr_t1 (s : ViaStep) :
    (viaSetIfr s IFR_T1).via.t1 = s.via.t1 ∧ (viaSetIfr s IFR_T1).via.t1Flag = true := by
  have hset : (s.via.ifr ||| (IFR_T1 ||| 0x80)).getLsbD 6 = true := by
    have hbit : (IFR_T1 ||| 0x80).getLsbD 6 = true := by decide
    rw [BitVec.getLsbD_or, hbit, Bool.or_true]
  unfold viaSetIfr
  rw [if_neg (by decide)]
  dsimp only
  split
  · rw [ViaStep.voteIrq_via]
    exact ⟨rfl, hset⟩
  · exact ⟨rfl, hset⟩

/-- What is left to do once PB7 has toggled: the callbacks of port B, and the end of a
one-shot. -/
theorem viaT1Toggled_t1 {s : ViaStep} (h : s.via.t1.armed = true) {s' : ViaStep}
    (hcall : s' = if s.via.t1Pb7Enabled then viaMakeCallbacks s .portb else s) :
    (if s'.via.t1Mode then s' else s'.mapFlags fun f => { f with t1Armed := false }).via.t1 =
        { s.via.t1 with armed := s.via.t1.continuous } ∧
      (if s'.via.t1Mode then s' else s'.mapFlags fun f => { f with t1Armed := false }).via.ifr =
        s.via.ifr := by
  have hsame : s'.via.t1 = s.via.t1 ∧ s'.via.ifr = s.via.ifr := by
    rw [hcall]
    split <;> exact ⟨rfl, rfl⟩
  obtain ⟨htimer, hifr⟩ := hsame
  rw [← htimer, ← hifr]
  rw [← htimer] at h
  split
  · rename_i hmode
    have hcont : s'.via.t1.continuous = true := hmode
    rw [hcont, ← h]
    exact ⟨rfl, rfl⟩
  · rename_i hmode
    have hcont : s'.via.t1.continuous = false := Bool.eq_false_iff.mpr hmode
    rw [hcont]
    exact ⟨rfl, rfl⟩

/-- The timer's part of a positive edge, when it expires. -/
theorem viaT1Posedge_expiring {s : ViaStep} (h : s.via.t1.Expiring) :
    (viaT1Posedge s).via.t1 = s.via.t1.posedge ∧ (viaT1Posedge s).via.t1Flag = true := by
  have harmed : s.via.flags.t1Armed = true := h.1
  have hcounter : s.via.t1c = 0xFFFF := h.2
  have hposedge : s.via.t1.posedge = { s.via.t1 with pb7 := !s.via.t1.pb7, armed := s.via.t1.continuous } :=
    if_pos h
  obtain ⟨htimer, hflag⟩ := viaSetIfr_t1 s
  unfold viaT1Posedge
  rw [if_pos harmed, if_pos hcounter, hposedge, ← htimer]
  -- the state with the flag set and PB7 toggled
  have htoggled := viaT1Toggled_t1 (s := { viaSetIfr s IFR_T1 with via :=
    { (viaSetIfr s IFR_T1).via with t1pb7 := !(viaSetIfr s IFR_T1).via.t1pb7 } })
    (congrArg T1.armed htimer ▸ h.1) rfl
  refine ⟨htoggled.1, ?_⟩
  unfold Via.t1Flag at hflag ⊢
  exact (congrArg (fun ifr => ifr.getLsbD 6) htoggled.2).trans hflag

theorem viaT1Posedge_idle {s : ViaStep} (h : ¬s.via.t1.Expiring) : viaT1Posedge s = s := by
  unfold viaT1Posedge
  split
  · rename_i harmed
    split
    · rename_i hcounter
      exact absurd ⟨harmed, hcounter⟩ h
    · rfl
  · rfl

theorem viaT1Negedge_t1 (s : ViaStep) :
    (viaT1Negedge s).via.t1 = s.via.t1.negedge ∧ (viaT1Negedge s).via.ifr = s.via.ifr := by
  unfold viaT1Negedge
  by_cases hpend : s.via.flags.t1WritePend = true
  · have hnegedge : s.via.t1.negedge = { s.via.t1 with writePend := false } := if_pos hpend
    rw [hnegedge, hpend]
    exact ⟨rfl, rfl⟩
  · have hnegedge : s.via.t1.negedge =
        { s.via.t1 with counter := ReloadCounter.step s.via.t1l s.via.t1c } := if_neg hpend
    rw [hnegedge, Bool.eq_false_iff.mpr hpend]
    unfold ReloadCounter.step
    by_cases hlast : s.via.t1c = 0xFFFF
    · rw [hlast]
      exact ⟨rfl, rfl⟩
    · have hne : s.via.t1c ≠ BitVec.allOnes 16 := hlast
      rw [if_neg hlast, if_neg hne]
      exact ⟨rfl, rfl⟩

/-- A positive edge. -/
theorem viaClockTick_posedge_t1 (v : Via) :
    (viaClockTick v .posedge).via.t1 = v.t1.posedge ∧
      (v.t1.Expiring → (viaClockTick v .posedge).via.t1Flag = true) ∧
      (¬v.t1.Expiring → (viaClockTick v .posedge).via.t1Flag = true → v.t1Flag = true) := by
  obtain ⟨s, hquiet, hs⟩ := t1Quiet_rule.posedge v
  have htimer : s.via.t1 = v.t1 := hquiet.timer
  rw [hs, ← htimer]
  by_cases hexpiring : s.via.t1.Expiring
  · obtain ⟨hposedge, hflag⟩ := viaT1Posedge_expiring hexpiring
    exact ⟨hposedge, fun _ => hflag, fun hnot => absurd hexpiring hnot⟩
  · rw [viaT1Posedge_idle hexpiring, T1.posedge, if_neg hexpiring]
    exact ⟨rfl, fun hnot => absurd hnot hexpiring, fun _ => hquiet.flag⟩

theorem viaClockTick_negedge_t1 (v : Via) :
    (viaClockTick v .negedge).via.t1 = v.t1.negedge ∧
      ((viaClockTick v .negedge).via.t1Flag = true → v.t1Flag = true) := by
  obtain ⟨s, hquiet, hs⟩ := t1Quiet_rule.negedge v
  obtain ⟨hnegedge, hifr⟩ := viaT1Negedge_t1 s
  have htimer : s.via.t1 = v.t1 := hquiet.timer
  rw [hs, hnegedge, htimer]
  refine ⟨rfl, ?_⟩
  intro hflag
  unfold Via.t1Flag at hflag
  rw [hifr] at hflag
  exact hquiet.flag hflag

/-! ## The other operations -/

/-- A register whose writes reach the timer: its counter, its latches and its mode. -/
def ViaReg.reachesT1 : ViaReg → Bool
  | .t1cl | .t1ch | .t1ll | .t1lh | .acr => true
  | _ => false

/-- A write of one of the timer's registers, or of ACR. -/
def ViaOp.writesT1 : ViaOp → Bool
  | .write reg _ => (viaReg reg).any ViaReg.reachesT1
  | _ => false

theorem viaDdrWrite_quiet (s : ViaStep) (porta : Bool) (val : BitVec 8) :
    T1Quiet s (viaDdrWrite s porta val).1 := by
  unfold viaDdrWrite
  dsimp only
  split
  · exact T1Quiet.setPort s porta _
  · exact T1Quiet.refl s

theorem viaWriteReg_quiet (s : ViaStep) (reg : ViaReg) (val : BitVec 8)
    (hreg : reg.reachesT1 = false) : T1Quiet s (viaWriteReg s reg val).1 := by
  cases reg with
  | ddra => exact viaDdrWrite_quiet s true val
  | ddrb => exact viaDdrWrite_quiet s false val
  | dataa =>
    unfold viaWriteReg
    dsimp only
    apply T1Quiet.trans _ (t1Quiet_rule.ite (T1Quiet.flags _ (by simp)))
    apply T1Quiet.trans _ (T1Quiet.clearIfr _ _)
    exact T1Quiet.frame rfl rfl
  | datab =>
    unfold viaWriteReg
    dsimp only
    apply T1Quiet.trans _ (t1Quiet_rule.ite (T1Quiet.flags _ (by simp)))
    apply T1Quiet.trans _ (T1Quiet.clearIfr _ _)
    exact T1Quiet.frame rfl rfl
  | pcr =>
    unfold viaWriteReg
    dsimp only
    apply T1Quiet.trans _ (t1Quiet_rule.c2Mode _ false _ _)
    apply T1Quiet.trans _ (t1Quiet_rule.c2Mode _ true _ _)
    exact T1Quiet.frame rfl rfl
  | ier => exact T1Quiet.frame rfl rfl
  | ifr => exact T1Quiet.clearIfr s _
  | t2cl | t2ch | sr | da2 => exact T1Quiet.refl s
  | t1cl | t1ch | t1ll | t1lh | acr => exact absurd hreg (by decide)

/-- What is neither a clock edge nor a write of the timer. -/
theorem ViaOp.quiet {op : ViaOp} (hwrite : op.writesT1 = false) (hclock : ∀ edge, op ≠ .clock edge)
    (v : Via) : T1Quiet { via := v } (op.step v) := by
  cases op with
  | write reg val =>
    show T1Quiet _ (viaWrite v reg val)
    unfold viaWrite
    split
    · exact T1Quiet.refl _
    · rename_i r hr
      have hreg : r.reachesT1 = false := by
        have hany : (viaReg reg).any ViaReg.reachesT1 = false := hwrite
        rw [hr] at hany
        exact hany
      exact t1Quiet_rule.dispatch T1Quiet.callbacks (viaWriteReg_quiet _ r val hreg)
  | read reg => exact t1Quiet_rule.read v reg
  | dataPort porta mask data => exact t1Quiet_rule.dataPort T1Quiet.setPort v porta mask data
  | ctrl pin val => exact t1Quiet_rule.ctrl T1Quiet.setPort v pin val
  | clock edge => exact absurd rfl (hclock edge)

/-! ## The law of a run -/

/-- The clock edges among `ops` alternate, and the first one is `next`. -/
def Alternates : ClockEdge → List ViaOp → Prop
  | _, [] => True
  | next, .clock edge :: ops =>
    edge = next ∧ Alternates (if next = .posedge then .negedge else .posedge) ops
  | next, _ :: ops => Alternates next ops

/-- The VIA after the operations `ops`. -/
def Via.run (v : Via) (ops : List ViaOp) : Via := ops.foldl (fun v op => (op.step v).via) v

/-- The negative edges among `ops`, the one of the write skipped. -/
def countedNegedges (ops : List ViaOp) : Nat := ops.count (.clock .negedge) - 1

/-- After `ops`, the operation `op` is the positive edge at which a timer loaded with `n`
expires: once for a one-shot, every `n + 2` cycles in continuous mode. -/
def T1Due (n : Nat) (continuous : Bool) (ops : List ViaOp) (op : ViaOp) : Prop :=
  op = .clock .posedge ∧
    if continuous then countedNegedges ops % (n + 2) = n + 1 else countedNegedges ops = n + 1

/-- From a load of `n` on: the flag is clear and PB7 low, every operation at which the timer is
due sets the flag and inverts PB7, and no other one does either. -/
structure T1Timed (n : Nat) (continuous : Bool) (v : Via) (ops : List ViaOp) : Prop where
  clear : v.t1Flag = false
  low : v.t1pb7 = false
  due : ∀ before op after, ops = before ++ op :: after → T1Due n continuous before op →
    (op.step (v.run before)).via.t1Flag = true ∧
      (op.step (v.run before)).via.t1pb7 = !(v.run before).t1pb7
  idle : ∀ before op after, ops = before ++ op :: after → ¬T1Due n continuous before op →
    ((op.step (v.run before)).via.t1Flag = true → (v.run before).t1Flag = true) ∧
      (op.step (v.run before)).via.t1pb7 = (v.run before).t1pb7

/-- A write of T1CH, by `via_write` or at an address of the VIA on the bus. -/
inductive T1chWrite (v : Via) (val : BitVec 8) : ViaStep → Prop where
  | direct : T1chWrite v val (viaWrite v 0x05 val)
  | bus (addr : BitVec 16) (h : u8 (addr - v.base) = 0x05) : T1chWrite v val (viaBusWriteCb v addr val)

/-! ## The timer of a run -/

/-- The timer `negs` negative edges after a load of `n`, with `next` the edge to come. -/
structure T1At (n : BitVec 16) (continuous : Bool) (next : ClockEdge) (negs : Nat) (t : T1) :
    Prop where
  latch : t.latch = n
  mode : t.continuous = continuous
  writePend : t.writePend = true ↔ negs = 0
  counter : t.counter = ReloadCounter.value n (negs - 1)
  armed : t.armed = true ↔ continuous = true ∨ negs - 1 < n.toNat + 1 ∨
    negs - 1 = n.toNat + 1 ∧ next = .posedge

section Run
variable {n : BitVec 16} {continuous : Bool} {next : ClockEdge} {negs : Nat} {t : T1}

/-- At a positive edge the timer expires when it is due. -/
theorem T1At.expiring_iff (h : T1At n continuous .posedge negs t) (hn : n ≠ 0xFFFF) :
    t.Expiring ↔ if continuous then (negs - 1) % (n.toNat + 2) = n.toNat + 1
      else negs - 1 = n.toNat + 1 := by
  have hlast : t.counter = 0xFFFF ↔ (negs - 1) % (n.toNat + 2) = n.toNat + 1 := by
    rw [h.counter]
    exact ReloadCounter.value_eq_allOnes_iff hn (negs - 1)
  unfold T1.Expiring
  rw [hlast, h.armed]
  cases continuous with
  | true => simp
  | false =>
    rw [if_neg Bool.false_ne_true]
    constructor
    · rintro ⟨harmed, hmod⟩
      have hle : negs - 1 ≤ n.toNat + 1 := by
        rcases harmed with hcont | hlt | ⟨heq, -⟩
        · exact absurd hcont Bool.false_ne_true
        · omega
        · omega
      rwa [Nat.mod_eq_of_lt (by omega)] at hmod
    · intro heq
      refine ⟨.inr (.inr ⟨heq, rfl⟩), ?_⟩
      rw [heq]
      exact Nat.mod_eq_of_lt (by omega)

theorem T1At.posedge (h : T1At n continuous .posedge negs t) (hn : n ≠ 0xFFFF) :
    T1At n continuous .negedge negs t.posedge := by
  have hexpiring := h.expiring_iff hn
  have harmed := h.armed
  unfold T1.posedge
  split
  · rename_i hexp
    refine ⟨h.latch, h.mode, h.writePend, h.counter, ?_⟩
    rw [hexpiring] at hexp
    show t.continuous = true ↔ _
    rw [h.mode]
    cases continuous with
    | true => simp
    | false =>
      rw [if_neg Bool.false_ne_true] at hexp
      simp [hexp]
  · rename_i hexp
    refine ⟨h.latch, h.mode, h.writePend, h.counter, ?_⟩
    rw [hexpiring] at hexp
    rw [harmed]
    cases continuous with
    | true => simp
    | false =>
      rw [if_neg Bool.false_ne_true] at hexp
      simp [hexp]

theorem T1At.negedge (h : T1At n continuous .negedge negs t) (hn : n ≠ 0xFFFF) :
    T1At n continuous .posedge (negs + 1) t.negedge := by
  have harmed : t.armed = true ↔ continuous = true ∨ negs - 1 < n.toNat + 1 := by
    rw [h.armed]
    simp
  unfold T1.negedge
  split
  · -- the edge of the write
    rename_i hpend
    obtain rfl := h.writePend.mp hpend
    refine ⟨h.latch, h.mode, by simp, h.counter, ?_⟩
    show t.armed = true ↔ _
    rw [harmed]
    simp
  · rename_i hpend
    have hpos : negs ≠ 0 := fun hzero => hpend (h.writePend.mpr hzero)
    refine ⟨h.latch, h.mode, by simp [hpend], ?_, ?_⟩
    · show ReloadCounter.step t.latch t.counter = _
      rw [h.latch, h.counter, ReloadCounter.step_value hn]
      congr 1
      omega
    · show t.armed = true ↔ _
      rw [harmed]
      cases continuous with
      | true => simp
      | false =>
        simp
        omega

/-- The edge after an operation. -/
theorem T1At.step {v : Via} {op : ViaOp} {ops : List ViaOp} (h : T1At n continuous next negs v.t1)
    (hn : n ≠ 0xFFFF) (hwrite : op.writesT1 = false) (halt : Alternates next (op :: ops)) :
    ∃ next', T1At n continuous next' (negs + [op].count (.clock .negedge)) (op.step v).via.t1 ∧
      Alternates next' ops := by
  by_cases hclock : ∃ edge, op = .clock edge
  · obtain ⟨edge, rfl⟩ := hclock
    obtain ⟨rfl, hrest⟩ := halt
    refine ⟨_, ?_, hrest⟩
    cases edge with
    | posedge =>
      show T1At _ _ _ _ (viaClockTick v .posedge).via.t1
      rw [(viaClockTick_posedge_t1 v).1]
      exact h.posedge hn
    | negedge =>
      show T1At _ _ _ _ (viaClockTick v .negedge).via.t1
      rw [(viaClockTick_negedge_t1 v).1]
      exact h.negedge hn
  · have hnot : ∀ edge, op ≠ .clock edge := fun edge heq => hclock ⟨edge, heq⟩
    have hcount : [op].count (.clock .negedge) = 0 :=
      List.count_eq_zero.mpr fun hmem => hnot _ (List.mem_singleton.mp hmem).symm
    refine ⟨next, ?_, ?_⟩
    · rw [hcount, (ViaOp.quiet hwrite hnot v).timer]
      exact h
    · cases op with
      | clock edge => exact absurd rfl (hnot edge)
      | write | read | dataPort | ctrl => exact halt

theorem T1At.run {v : Via} {before after : List ViaOp} (h : T1At n continuous next negs v.t1)
    (hn : n ≠ 0xFFFF) (hwrite : ∀ op ∈ before, op.writesT1 = false)
    (halt : Alternates next (before ++ after)) :
    ∃ next', T1At n continuous next' (negs + before.count (.clock .negedge)) (v.run before).t1 ∧
      Alternates next' after := by
  induction before generalizing v next negs with
  | nil => exact ⟨next, h, halt⟩
  | cons op before ih =>
    obtain ⟨next', hnext, hrest⟩ := h.step hn (hwrite op List.mem_cons_self) halt
    obtain ⟨last, hlast, hafter⟩ := ih hnext (fun o ho => hwrite o (List.mem_cons_of_mem op ho)) hrest
    refine ⟨last, ?_, hafter⟩
    have hcount : (op :: before).count (.clock .negedge) =
        [op].count (.clock .negedge) + before.count (.clock .negedge) := by
      rw [← List.singleton_append, List.count_append]
    rw [hcount, ← Nat.add_assoc]
    exact hlast

end Run

/-! ## The write and the run after it -/

theorem viaClearIfr_t1 (s : ViaStep) :
    (viaClearIfr s IFR_T1).via.t1 = s.via.t1 ∧ (viaClearIfr s IFR_T1).via.t1Flag = false := by
  refine ⟨(T1Quiet.clearIfr s IFR_T1).timer, ?_⟩
  have hbit : (s.via.ifr &&& ~~~(IFR_T1 &&& 0x7F)).getLsbD 6 = false := by
    rw [BitVec.getLsbD_and]
    simp [IFR_T1]
  unfold viaClearIfr Via.t1Flag
  dsimp only
  split
  · have hzero : (0#8).getLsbD 6 = false := by decide
    split
    · rw [ViaStep.voteIrq_via]
      exact hzero
    · exact hzero
  · exact hbit

/-- The write loads the counter and the latch, clears the flag and arms the timer; PB7 goes
low. -/
theorem T1chWrite.loads {v : Via} {val : BitVec 8} {s : ViaStep} (h : T1chWrite v val s)
    (harmed : v.flags.t1Armed = false) :
    s.via.t1 = T1.mk s.via.t1l s.via.t1l false true true v.t1Mode ∧ s.via.t1Flag = false := by
  have hwrite : s = viaWrite v 0x05 val := by
    cases h with
    | direct => rfl
    | bus addr haddr =>
      unfold viaBusWriteCb
      rw [haddr]
      rfl
  have hloaded : ∀ t1l, ∃ s' : ViaStep, s'.via.t1 = { v.t1 with latch := t1l, counter := t1l } ∧
      s'.via.t1Flag = false ∧ viaClearIfr { via := { v with t1l, t1c := t1l } } IFR_T1 = s' := by
    intro t1l
    obtain ⟨htimer, hflag⟩ := viaClearIfr_t1 { via := { v with t1l, t1c := t1l } }
    exact ⟨_, htimer, hflag, rfl⟩
  obtain ⟨s', htimer, hflag, hs'⟩ := hloaded ((v.t1l &&& 0x00FF) ||| (u16 val <<< 8))
  have hidle : s'.via.flags.t1Armed = false := (congrArg T1.armed htimer).trans harmed
  have hresult : viaWrite v 0x05 val =
      viaMakeCallbacks (({ s' with via := { s'.via with t1pb7 := false } } : ViaStep).mapFlags
        fun f => { f with t1Armed := true, t1WritePend := true }) .portb := by
    unfold viaWrite
    rw [show viaReg 0x05 = some .t1ch from rfl]
    unfold viaWriteReg
    dsimp only
    rw [hs', hidle]
    rfl
  rw [hwrite, hresult]
  refine ⟨?_, hflag⟩
  have hlatch : s'.via.t1c = s'.via.t1l := by
    calc s'.via.t1c = (v.t1l &&& 0x00FF) ||| (u16 val <<< 8) := congrArg T1.counter htimer
      _ = s'.via.t1l := (congrArg T1.latch htimer).symm
  have hmode : s'.via.t1Mode = v.t1Mode := congrArg T1.continuous htimer
  show T1.mk s'.via.t1l s'.via.t1c false true true s'.via.t1Mode = _
  rw [hlatch, hmode]
  rfl

/-- Only a positive edge sets the flag or moves PB7. -/
theorem ViaOp.t1_kept {op : ViaOp} (hpos : op ≠ .clock .posedge) (hwrite : op.writesT1 = false)
    (v : Via) :
    ((op.step v).via.t1Flag = true → v.t1Flag = true) ∧ (op.step v).via.t1pb7 = v.t1pb7 ∧
      ((op.step v).via.t1 = v.t1 ∨ (op.step v).via.t1 = v.t1.negedge) := by
  by_cases hneg : op = .clock .negedge
  · subst hneg
    obtain ⟨htimer, hkeep⟩ := viaClockTick_negedge_t1 v
    refine ⟨hkeep, (congrArg T1.pb7 htimer).trans ?_, .inr htimer⟩
    unfold T1.negedge
    split <;> rfl
  · have hclock : ∀ edge, op ≠ .clock edge := by
      intro edge
      cases edge with
      | posedge => exact hpos
      | negedge => exact hneg
    have hquiet := ViaOp.quiet hwrite hclock v
    exact ⟨hquiet.flag, congrArg T1.pb7 hquiet.timer, .inl hquiet.timer⟩

/-- A due edge sets the flag and inverts PB7, another positive edge does neither. -/
theorem T1At.law {n : BitVec 16} {continuous : Bool} {v : Via} {before : List ViaOp}
    (h : T1At n continuous .posedge (before.count (.clock .negedge)) v.t1) (hn : n ≠ 0xFFFF) :
    (T1Due n.toNat continuous before (.clock .posedge) →
        (viaClockTick v .posedge).via.t1Flag = true ∧
          (viaClockTick v .posedge).via.t1pb7 = !v.t1pb7) ∧
      (¬T1Due n.toNat continuous before (.clock .posedge) →
        ((viaClockTick v .posedge).via.t1Flag = true → v.t1Flag = true) ∧
          (viaClockTick v .posedge).via.t1pb7 = v.t1pb7) := by
  obtain ⟨htimer, hset, hkeep⟩ := viaClockTick_posedge_t1 v
  have hpb7 : (viaClockTick v .posedge).via.t1pb7 = v.t1.posedge.pb7 := congrArg T1.pb7 htimer
  have hdue : T1Due n.toNat continuous before (.clock .posedge) ↔ v.t1.Expiring := by
    rw [h.expiring_iff hn]
    exact and_iff_right rfl
  rw [hdue, hpb7]
  constructor
  · intro hexp
    rw [T1.posedge, if_pos hexp]
    exact ⟨hset hexp, rfl⟩
  · intro hexp
    rw [T1.posedge, if_neg hexp]
    exact ⟨hkeep hexp, rfl⟩

/-! ## The latch `0xFFFF` -/

/-- Without a positive edge there is at most one negative edge. -/
theorem Alternates.count_le {next : ClockEdge} {before after : List ViaOp}
    (halt : Alternates next (before ++ after)) (hpos : .clock .posedge ∉ before) :
    before.count (.clock .negedge) ≤ if next = .negedge then 1 else 0 := by
  induction before generalizing next with
  | nil => exact Nat.zero_le _
  | cons op before ih =>
    have hrest : .clock .posedge ∉ before := fun hmem => hpos (List.mem_cons_of_mem op hmem)
    cases op with
    | clock edge =>
      obtain ⟨rfl, halt⟩ := halt
      cases edge with
      | posedge => exact absurd List.mem_cons_self hpos
      | negedge =>
        have hnone := ih halt hrest
        rw [List.count_cons_self, if_pos rfl]
        exact Nat.succ_le_succ hnone
    | write | read | dataPort | ctrl =>
      rw [List.count_cons_of_ne (by simp)]
      exact ih halt hrest

/-- The counter stays at the value looked for. -/
theorem Via.run_expiring {v : Via} {ops : List ViaOp} (hpos : .clock .posedge ∉ ops)
    (hwrite : ∀ op ∈ ops, op.writesT1 = false) (hexp : v.t1.Expiring) (hlatch : v.t1l = 0xFFFF) :
    (v.run ops).t1.Expiring := by
  induction ops generalizing v with
  | nil => exact hexp
  | cons op ops ih =>
    have hop : op ≠ .clock .posedge := fun heq => hpos (heq ▸ List.mem_cons_self)
    have hnegedge : v.t1.negedge.Expiring ∧ v.t1.negedge.latch = 0xFFFF := by
      unfold T1.negedge
      split
      · exact ⟨hexp, hlatch⟩
      · refine ⟨⟨hexp.1, ?_⟩, hlatch⟩
        show ReloadCounter.step v.t1.latch v.t1.counter = 0xFFFF
        rw [hexp.2]
        exact (if_pos rfl).trans hlatch
    apply ih (fun hmem => hpos (List.mem_cons_of_mem op hmem))
      (fun o ho => hwrite o (List.mem_cons_of_mem op ho))
    · rcases (op.t1_kept hop (hwrite op List.mem_cons_self) v).2.2 with hsame | hneg
      · rw [hsame]
        exact hexp
      · rw [hneg]
        exact hnegedge.1
    · rcases (op.t1_kept hop (hwrite op List.mem_cons_self) v).2.2 with hsame | hneg
      · exact (congrArg T1.latch hsame).trans hlatch
      · exact (congrArg T1.latch hneg).trans hnegedge.2

/-- With `0xFFFF` in the counter the first positive edge inverts PB7, long before it is due. -/
theorem T1Timed.no_posedge {v : Via} {continuous : Bool} {next : ClockEdge} {ops : List ViaOp}
    (hexp : v.t1.Expiring) (hlatch : v.t1l = 0xFFFF) (hwrite : ∀ op ∈ ops, op.writesT1 = false)
    (halt : Alternates next ops) (h : T1Timed 0xFFFF continuous v ops) :
    .clock .posedge ∉ ops := by
  intro hmem
  obtain ⟨before, after, rfl, hfirst⟩ := List.eq_append_cons_of_mem hmem
  have hexpiring : (v.run before).t1.Expiring :=
    v.run_expiring hfirst (fun op hop => hwrite op (List.mem_append_left _ hop)) hexp hlatch
  have hcount : countedNegedges before = 0 := by
    have hle := halt.count_le hfirst
    unfold countedNegedges
    split at hle <;> omega
  have hnotDue : ¬T1Due 0xFFFF continuous before (.clock .posedge) := by
    rintro ⟨-, hdue⟩
    rw [hcount] at hdue
    split at hdue <;> omega
  have hkept := (h.idle before _ after rfl hnotDue).2
  have htoggled : (viaClockTick (v.run before) .posedge).via.t1pb7 = !(v.run before).t1pb7 := by
    have htimer := (viaClockTick_posedge_t1 (v.run before)).1
    rw [T1.posedge, if_pos hexpiring] at htimer
    exact congrArg T1.pb7 htimer
  exact Bool.not_ne_self _ (htoggled.symm.trans hkept)

/-! ## The timing of timer 1 -/

/-- Timer 1 keeps its time, from a write of T1CH on, exactly when the latch is not the value
`0xFFFF` that the counter is looked for, or no positive edge follows. -/
theorem t1_timing {v : Via} {val : BitVec 8} {s : ViaStep} (hwrite : T1chWrite v val s)
    (harmed : v.flags.t1Armed = false) {next : ClockEdge} {ops : List ViaOp}
    (halt : Alternates next ops) (hops : ∀ op ∈ ops, op.writesT1 = false) :
    T1Timed s.via.t1l.toNat v.t1Mode s.via ops ↔ s.via.t1l ≠ 0xFFFF ∨ .clock .posedge ∉ ops := by
  obtain ⟨htimer, hflag⟩ := hwrite.loads harmed
  have hlow : s.via.t1pb7 = false := congrArg T1.pb7 htimer
  constructor
  · intro h
    by_cases hlatch : s.via.t1l = 0xFFFF
    · right
      have hexp : s.via.t1.Expiring := by
        rw [htimer, hlatch]
        exact ⟨rfl, rfl⟩
      rw [hlatch] at h
      exact h.no_posedge hexp hlatch hops halt
    · exact .inl hlatch
  · intro hcond
    -- a positive edge finds the counter where the count says
    have hat : s.via.t1l ≠ 0xFFFF → ∀ before after, ops = before ++ .clock .posedge :: after →
        T1At s.via.t1l v.t1Mode .posedge (before.count (.clock .negedge)) (s.via.run before).t1 := by
      intro hn before after heq
      have hstart : T1At s.via.t1l v.t1Mode next 0 s.via.t1 := by
        rw [htimer]
        exact ⟨rfl, rfl, iff_of_true rfl rfl, (ReloadCounter.value_zero _).symm,
          iff_of_true rfl (.inr (.inl (Nat.succ_pos _)))⟩
      rw [heq] at halt hops
      obtain ⟨next', hat, halt'⟩ :=
        hstart.run hn (fun op hop => hops op (List.mem_append_left _ hop)) halt
      rw [Nat.zero_add] at hat
      obtain ⟨rfl, -⟩ := halt'
      exact hat
    have hlatch : ∀ before after, ops = before ++ .clock .posedge :: after → s.via.t1l ≠ 0xFFFF := by
      intro before after heq
      rcases hcond with hn | hnone
      · exact hn
      · rw [heq] at hnone
        exact absurd (List.mem_append_right _ List.mem_cons_self) hnone
    refine ⟨hflag, hlow, ?_, ?_⟩
    · intro before op after heq hdue
      obtain rfl := hdue.1
      have hn := hlatch before after heq
      exact ((hat hn before after heq).law hn).1 hdue
    · intro before op after heq hdue
      by_cases hpos : op = .clock .posedge
      · subst hpos
        have hn := hlatch before after heq
        exact ((hat hn before after heq).law hn).2 hdue
      · have hop : op.writesT1 = false := hops op (heq ▸ List.mem_append_right _ List.mem_cons_self)
        obtain ⟨hkeep, hpb7, -⟩ := op.t1_kept hpos hop (s.via.run before)
        exact ⟨hkeep, hpb7⟩

/-- Four cycles, with a read of T1CL that clears the flag. -/
def fourCycles : List ViaOp :=
  [.clock .negedge, .clock .posedge, .clock .negedge, .clock .posedge, .clock .negedge,
    .clock .posedge, .read 0x04, .clock .negedge, .clock .posedge]

/-- A one-shot loaded with 1. -/
theorem t1_timing_of_one_shot :
    T1Timed 0x0001 false (viaWrite { viaInit with t1l := 0x0001 } 0x05 0x00).via fourCycles := by
  have hwrite : T1chWrite { viaInit with t1l := 0x0001 } 0x00
      (viaWrite { viaInit with t1l := 0x0001 } 0x05 0x00) := .direct
  have halt : Alternates .negedge fourCycles := by simp [fourCycles, Alternates]
  exact (t1_timing hwrite rfl halt (by decide)).mpr (.inl (by decide))

/-- Latch `0xFFFF`: the flag is there at the first positive edge, 65536 cycles early. -/
theorem t1_expires_at_once :
    ¬T1Timed 0xFFFF false (viaWrite { viaInit with t1l := 0x00FF } 0x05 0xFF).via
      [.clock .negedge, .clock .posedge] := by
  intro h
  have hnotDue : ¬T1Due 0xFFFF false [.clock .negedge] (.clock .posedge) := fun hdue =>
    absurd hdue.2 (by decide)
  have hidle := (h.idle [.clock .negedge] (.clock .posedge) [] rfl hnotDue).1
  exact absurd (hidle (by decide)) (by decide)

end Cb6502
