import Cb6502.Latching
import Cb6502.Lib.FourPhase

/- The write handshake of a VIA's port, between a program and a peripheral. The program writes the
   data register whenever it finds the flag of the C1 pin set; the peripheral takes the levels of
   the port when C2 is low, answers with the active edge of C1, and takes the edge back. Everything
   else may happen in between: clock edges, the other port, the timer, the interrupt registers.

   What is proved:
     1. `ViaOp.aside`, `viaClockTick_begins` (what an operation that leaves the port alone does to
        the handshake under way, and what a positive clock edge does).
     2. `Shake.On.step` (every move is a step of the four-phase handshake).
     3. `handshake_delivers` (in every interleaving the bytes taken are the bytes written, in order,
        up to the one under way; and that one can always be taken). -/
namespace Cb6502
open FourPhase (Channel Conserves)

/-! ## What leaves a handshake alone -/

/-- The flags of a write handshake. The pulse of a read is port A's only. -/
structure ShakeBits where
  trig : Bool
  pulse : Bool
  readPulse : Bool
  deriving DecidableEq

def ViaFlags.shake (f : ViaFlags) (porta : Bool) : ShakeBits where
  trig := f.trigPend porta
  pulse := f.pulsePend porta
  readPulse := porta && f.ca2ReadPulsePend

/-- The flag of the C1 pin in IFR. -/
def Via.c1Flag (v : Via) (porta : Bool) : Bool := v.ifr.getLsbD (if porta then 1 else 4)

/-- The handshake of the port is where it was; its flag may have been cleared. -/
structure Aside (porta : Bool) (s s' : ViaStep) : Prop where
  shake : s'.via.flags.shake porta = s.via.flags.shake porta
  flag : s'.via.c1Flag porta = true → s.via.c1Flag porta = true

namespace Aside
variable {porta : Bool} {s s' s'' : ViaStep}

theorem refl (s : ViaStep) : Aside porta s s := ⟨rfl, id⟩

theorem trans (h : Aside porta s s') (h' : Aside porta s' s'') : Aside porta s s'' :=
  ⟨h'.shake.trans h.shake, fun hflag => h.flag (h'.flag hflag)⟩

theorem ite {p : Prop} [Decidable p] (h : Aside porta s s') :
    Aside porta s (if p then s' else s) := by
  split
  · exact h
  · exact .refl s

theorem frame (hshake : s'.via.flags.shake porta = s.via.flags.shake porta)
    (hifr : s'.via.ifr = s.via.ifr) : Aside porta s s' := by
  refine ⟨hshake, ?_⟩
  unfold Via.c1Flag
  rw [hifr]
  exact id

theorem callbacks (s : ViaStep) (event : ViaPortData) : Aside porta s (viaMakeCallbacks s event) :=
  frame rfl rfl

theorem mapFlags (s : ViaStep) {f : ViaFlags → ViaFlags}
    (hf : ∀ x, (f x).shake porta = x.shake porta) : Aside porta s (s.mapFlags f) :=
  frame (hf _) rfl

theorem setPort (s : ViaStep) (porta' : Bool) (p : ViaPortState) :
    Aside porta s { s with via := s.via.setPort porta' p } := by
  cases porta' <;> exact frame rfl rfl

theorem c2 (s : ViaStep) (porta' state : Bool) : Aside porta s (viaWriteC2State s porta' state) := by
  obtain ⟨hifr, -, hflags, -⟩ := viaWriteC2State_frame s porta' state
  exact frame (by rw [hflags]) hifr

theorem voteIrq (s : ViaStep) (voted : Bool) : Aside porta s (s.voteIrq voted) :=
  frame (by rw [ViaStep.voteIrq_via]) (by rw [ViaStep.voteIrq_via])

end Aside

/-- The bit of a port's C1 pin in IFR. -/
def c1Bit (porta : Bool) : BitVec 8 := if porta then IFR_CA1 else IFR_CB1

theorem viaSetIfr_via {s : ViaStep} {bits : BitVec 8} (h : bits ≠ 0) :
    (viaSetIfr s bits).via = { s.via with ifr := s.via.ifr ||| (bits ||| 0x80) } := by
  unfold viaSetIfr
  rw [if_neg h]
  dsimp only
  split
  · rw [ViaStep.voteIrq_via]
  · rfl

/-- The C1 flag after bits of IFR are set, none of which is bit 7. -/
theorem viaSetIfr_c1Flag (s : ViaStep) {bits : BitVec 8} (h : bits ≠ 0) (porta : Bool) :
    (viaSetIfr s bits).via.c1Flag porta =
      (s.via.c1Flag porta || bits.getLsbD (if porta then 1 else 4)) := by
  unfold Via.c1Flag
  rw [viaSetIfr_via h]
  cases porta <;> simp

theorem clearedIfr_c1Flag (ifr bits : BitVec 8) (i : Nat) :
    (clearedIfr ifr bits).getLsbD i = true → ifr.getLsbD i = true := by
  unfold clearedIfr
  split
  · intro hflag
    exact absurd hflag (by simp)
  · rw [BitVec.getLsbD_and, Bool.and_eq_true]
    exact And.left

namespace Aside
variable {porta : Bool} (s : ViaStep)

theorem clearIfr (bits : BitVec 8) : Aside porta s (viaClearIfr s bits) := by
  have hvia := viaClearIfr_via s bits
  refine ⟨by rw [hvia], ?_⟩
  unfold Via.c1Flag
  rw [hvia]
  exact clearedIfr_c1Flag _ _ _

/-- A flag of another source. -/
theorem setIfr {bits : BitVec 8} (h : bits ≠ 0)
    (hbits : bits.getLsbD (if porta then 1 else 4) = false) : Aside porta s (viaSetIfr s bits) := by
  refine ⟨by rw [viaSetIfr_via h], ?_⟩
  rw [viaSetIfr_c1Flag s h, hbits, Bool.or_false]
  exact id

theorem t1Posedge : Aside porta s (viaT1Posedge s) := by
  have hflag : (IFR_T1).getLsbD (if porta then 1 else 4) = false := by cases porta <;> decide
  have hpb7 : ∀ s : ViaStep, Aside porta s { s with via := { s.via with t1pb7 := !s.via.t1pb7 } } :=
    fun _ => frame rfl rfl
  unfold viaT1Posedge
  split
  · split
    · dsimp only
      apply (setIfr s (by decide) hflag).trans
      apply (hpb7 _).trans
      split
      · split
        · exact callbacks _ _
        · exact (callbacks _ _).trans (mapFlags _ fun _ => rfl)
      · split
        · exact refl _
        · exact mapFlags _ fun _ => rfl
    · exact refl s
  · exact refl s

theorem t1Negedge : Aside porta s (viaT1Negedge s) := by
  unfold viaT1Negedge
  split
  · split <;> exact frame rfl rfl
  · exact mapFlags s fun _ => rfl

/-- The end of a pulse, where none is under way on the port. -/
theorem endPulse (porta' : Bool) (h : (s.via.flags.shake porta).pulse = false) :
    Aside porta s (endPulse s porta') := by
  obtain ⟨hifr, -, hflags, -⟩ := viaWriteC2State_frame s porta' true
  by_cases hport : porta' = porta
  · rw [hport, Cb6502.endPulse, if_neg (by rw [show s.via.flags.pulsePend porta = false from h]; decide)]
    exact refl s
  · obtain rfl := Bool.eq_not.mpr hport
    apply ite
    apply (c2 s _ true).trans
    apply mapFlags
    intro x
    cases porta <;> rfl

theorem beginWrite_other : Aside porta s (beginWrite s (!porta)) := by
  have hport : ∀ f : ViaFlags, ∀ pend, (f.setTrigPend (!porta) pend).shake porta = f.shake porta ∧
      (f.setPulsePend (!porta) pend).shake porta = f.shake porta := by
    intro f pend
    cases porta <;> exact ⟨rfl, rfl⟩
  apply ite
  have hbegun : Aside porta s ((viaWriteC2State s (!porta) false).mapFlags fun f =>
      f.setTrigPend (!porta) false) :=
    (c2 s (!porta) false).trans (mapFlags _ fun x => (hport x false).1)
  dsimp only
  split
  · exact hbegun.trans (mapFlags _ fun x => (hport x true).2)
  · exact hbegun

/-- The pulse of a read is under way on port A only, if on any. -/
theorem endReadPulse (h : (s.via.flags.shake porta).readPulse = false) :
    Aside porta s (endReadPulse s) := by
  unfold Cb6502.endReadPulse
  split
  · rename_i hpulse
    have hport : porta = false := by
      cases porta with
      | false => rfl
      | true => exact absurd (hpulse.symm.trans h) (by decide)
    subst hport
    split
    · exact mapFlags s fun _ => rfl
    · exact (c2 s true true).trans (mapFlags _ fun _ => rfl)
  · exact refl s

theorem readHandshake : Aside false s (readHandshake s) := by
  apply ite
  dsimp only
  split
  · exact (c2 s true false).trans (mapFlags _ fun _ => rfl)
  · exact c2 s true false

theorem c1Edge : Aside porta s (viaHandleC1Edge s (!porta)) := by
  have hbits : (if !porta then IFR_CA1 else IFR_CB1) ≠ 0 ∧
      (if !porta then IFR_CA1 else IFR_CB1).getLsbD (if porta then 1 else 4) = false := by
    cases porta <;> decide
  unfold viaHandleC1Edge
  apply ite
  apply trans _ (c2 _ (!porta) true).ite
  apply trans _ (setIfr _ hbits.1 hbits.2)
  exact (setPort s (!porta) _).ite

end Aside

/-! ## The operations that leave a port alone -/

/-- The operation neither reaches the handshake of the port nor its direction, and does not put the
timer on its PB7. -/
def ViaOp.Leaves (porta : Bool) : ViaOp → Prop
  | .write reg val =>
    viaReg reg ≠ some (dataReg porta) ∧ viaReg reg ≠ some (ddrReg porta) ∧ viaReg reg ≠ some .pcr ∧
      (viaReg reg = some .acr → porta = true ∨ val.getLsbD 7 = false)
  | .read reg => ¬(porta = true ∧ viaReg reg = some .dataa)
  | .dataPort _ _ _ => True
  | .ctrl pin _ => pin ≠ c1Pin porta
  | .clock _ => True

instance (porta : Bool) (op : ViaOp) : Decidable (op.Leaves porta) := by
  cases op <;> unfold ViaOp.Leaves <;> infer_instance

section Leaves
variable {porta : Bool}

/-- A write of the data register, without the event. -/
def dataWritten (s : ViaStep) (porta : Bool) (val : BitVec 8) : ViaStep :=
  let s := { s with via := s.via.setPort porta { s.via.port porta with or := val } }
  let s := viaClearIfr s (c1Bit porta |||
    if viaIsIndependentInt s.via porta then if porta then IFR_CA2 else IFR_CB2 else 0)
  if viaIsHandshakeOutput s.via porta then s.mapFlags fun f => f.setTrigPend porta true else s

theorem viaWriteReg_data (s : ViaStep) (porta : Bool) (val : BitVec 8) :
    (viaWriteReg s (dataReg porta) val).1 = dataWritten s porta val := by
  cases porta <;> rfl

theorem dataWritten_aside (s : ViaStep) (val : BitVec 8) :
    Aside porta s (dataWritten s (!porta) val) := by
  have htrig : ∀ f : ViaFlags, (f.setTrigPend (!porta) true).shake porta = f.shake porta := by
    intro f
    cases porta <;> rfl
  unfold dataWritten
  dsimp only
  refine Aside.trans ?_ (Aside.ite (Aside.mapFlags _ htrig))
  exact (Aside.setPort s _ _).trans (.clearIfr _ _)

theorem viaWriteReg_aside (s : ViaStep) {r : ViaReg} (val : BitVec 8) (hdata : r ≠ dataReg porta)
    (hpcr : r ≠ .pcr) : Aside porta s (viaWriteReg s r val).1 := by
  have hddr : ∀ porta', Aside porta s (viaDdrWrite s porta' val).1 := by
    intro porta'
    unfold viaDdrWrite
    dsimp only
    split
    · exact .setPort s porta' _
    · exact .refl s
  cases r with
  | ddra => exact hddr true
  | ddrb => exact hddr false
  | dataa =>
    cases porta with
    | true => exact absurd rfl hdata
    | false => exact dataWritten_aside s val
  | datab =>
    cases porta with
    | false => exact absurd rfl hdata
    | true => exact dataWritten_aside s val
  | t1ch =>
    unfold viaWriteReg
    dsimp only
    have hloaded : ∀ t1l, Aside porta s
        (viaClearIfr { s with via := { s.via with t1l := t1l, t1c := t1l } } IFR_T1) := by
      intro t1l
      refine Aside.trans ?_ (.clearIfr _ _)
      exact .frame rfl rfl
    split
    · -- PB7 goes low
      have hlow : ∀ s : ViaStep, Aside porta s { s with via := { s.via with t1pb7 := false } } :=
        fun _ => .frame rfl rfl
      refine ((hloaded _).trans (hlow _)).trans (Aside.mapFlags _ ?_)
      exact fun _ => rfl
    · refine (hloaded _).trans (Aside.mapFlags _ ?_)
      exact fun _ => rfl
  | t1lh =>
    refine Aside.trans ?_ (.clearIfr _ _)
    exact .frame rfl rfl
  | ifr => exact .clearIfr s _
  | t1cl | t1ll | acr | ier => exact .frame rfl rfl
  | t2cl | t2ch | sr | da2 => exact .refl s
  | pcr => exact absurd rfl hpcr

theorem viaWrite_aside (v : Via) {reg val : BitVec 8} (h : (ViaOp.write reg val).Leaves porta) :
    Aside porta { via := v } (viaWrite v reg val) := by
  obtain ⟨hdata, -, hpcr, -⟩ := h
  unfold viaWrite
  split
  · exact .refl _
  · rename_i r hr
    rw [hr] at hdata hpcr
    have hswitch := viaWriteReg_aside { via := v } val (fun heq => hdata (congrArg some heq))
      (fun heq => hpcr (congrArg some heq))
    generalize viaWriteReg { via := v } r val = switched at hswitch ⊢
    obtain ⟨s, event⟩ := switched
    cases event with
    | none => exact hswitch
    | some port => exact hswitch.trans (.callbacks _ _)

theorem viaRead_aside (v : Via) {reg : BitVec 8} (h : (ViaOp.read reg).Leaves porta) :
    Aside porta { via := v } (viaRead v reg).2 := by
  unfold viaRead
  split
  · exact .refl _
  · rename_i r hr
    rw [viaReadReg_step]
    cases r with
    | dataa =>
      have hport : porta = false := Bool.eq_false_iff.mpr fun heq => h ⟨heq, hr⟩
      subst hport
      exact (Aside.clearIfr _ _).trans (.readHandshake _)
    | datab | t1cl => exact .clearIfr _ _
    | ddra | ddrb | t1ch | t1ll | t1lh | acr | pcr | ier | ifr | t2cl | t2ch | sr | da2 =>
      exact .refl _

theorem viaWriteCtrl_aside (v : Via) {pin : ViaCtrlPin} {val : Bool}
    (h : (ViaOp.ctrl pin val).Leaves porta) : Aside porta { via := v } (viaWriteCtrl v pin val) := by
  have hc1 : ∀ porta', pin = c1Pin porta' → ∀ p, Aside porta { via := v }
      (viaHandleC1Edge { via := v.setPort porta' p } porta') := by
    intro porta' hpin p
    have hother : porta' = !porta := Bool.eq_not.mpr fun heq => h (hpin.trans (by rw [heq]))
    subst hother
    exact (Aside.setPort { via := v } _ p).trans (.c1Edge _)
  unfold viaWriteCtrl
  cases pin with
  | ca1 =>
    dsimp only
    split
    · exact .refl _
    · exact hc1 true rfl _
  | cb1 =>
    dsimp only
    split
    · exact .refl _
    · exact hc1 false rfl _
  | ca2 => exact .frame rfl rfl
  | cb2 => exact .frame rfl rfl

end Leaves

/-! ## The moves of the handshake -/

/-- From `s` to `s'` a write handshake of the port has begun, if one was pending. -/
structure Begun (porta : Bool) (s s' : ViaStep) : Prop where
  shake : s'.via.flags.shake porta = { s.via.flags.shake porta with trig := false }
  flag : s'.via.c1Flag porta = true → s.via.c1Flag porta = true

section Moves
variable {porta : Bool} {s s' s'' : ViaStep}

theorem Aside.begun (h : Aside porta s s') (h' : Begun porta s' s'') : Begun porta s s'' :=
  ⟨by rw [h'.shake, h.shake], fun hflag => h.flag (h'.flag hflag)⟩

theorem Begun.aside (h : Begun porta s s') (h' : Aside porta s' s'') : Begun porta s s'' :=
  ⟨h'.shake.trans h.shake, fun hflag => h.flag (h'.flag hflag)⟩

theorem beginWrite_begun (h : s.via.c2Ctrl porta = VIA_C2_CTRL_OUTPUT_HANDSAKE) :
    Begun porta s (beginWrite s porta) := by
  obtain ⟨hifr, hpcr, hflags, -⟩ := viaWriteC2State_frame s porta false
  unfold beginWrite
  split
  · have hsame : ((viaWriteC2State s porta false).mapFlags fun f =>
        f.setTrigPend porta false).via.c2Ctrl porta = s.via.c2Ctrl porta := c2Ctrl_congr hpcr porta
    have hmode : ¬((viaWriteC2State s porta false).mapFlags fun f =>
        f.setTrigPend porta false).via.c2Ctrl porta = VIA_C2_CTRL_OUTPUT_PULSE := by
      rw [hsame, h]
      decide
    dsimp only
    rw [if_neg hmode]
    refine ⟨?_, ?_⟩
    · unfold ViaStep.mapFlags
      rw [hflags]
      cases porta <;> rfl
    · unfold Via.c1Flag ViaStep.mapFlags
      rw [hifr]
      exact id
  · rename_i hnone
    have htrig : (s.via.flags.shake porta).trig = false := Bool.eq_false_iff.mpr hnone
    exact ⟨by rw [← htrig], id⟩

/-- A positive clock edge begins the write handshake that is pending. -/
theorem viaClockTick_begins {v : Via} (h : v.c2Ctrl porta = VIA_C2_CTRL_OUTPUT_HANDSAKE)
    (hpulse : (v.flags.shake porta).pulse = false) :
    Begun porta { via := v } (viaClockTick v .posedge) := by
  rw [viaClockTick_posedge]
  have h1 : Aside porta { via := v } (endPulse { via := v } true) := .endPulse _ true hpulse
  have h2 : Aside porta (endPulse { via := v } true) (endPulse (endPulse { via := v } true) false) :=
    .endPulse _ false (by rw [h1.shake]; exact hpulse)
  have hpcr : (endPulse (endPulse { via := v } true) false).via.pcr = v.pcr :=
    ((endPulse_written { via := v } true).trans (endPulse_written _ false)).pcr
  generalize endPulse (endPulse { via := v } true) false = ended at h2 hpcr ⊢
  have hended := h1.trans h2
  refine Begun.aside ?_ (.t1Posedge _)
  cases porta with
  | true =>
    have hbegun := beginWrite_begun ((c2Ctrl_congr hpcr true).trans h)
    exact (hended.begun hbegun).aside (Aside.beginWrite_other _)
  | false =>
    have hpcr' : (beginWrite ended true).via.pcr = v.pcr :=
      (beginWrite_written ended true).pcr.trans hpcr
    have hbegun := beginWrite_begun ((c2Ctrl_congr hpcr' false).trans h)
    exact (hended.trans (Aside.beginWrite_other ended)).begun hbegun

theorem viaClockTick_aside {v : Via} (hread : (v.flags.shake porta).readPulse = false) :
    Aside porta { via := v } (viaClockTick v .negedge) := by
  rw [viaClockTick_negedge]
  exact (Aside.endReadPulse _ hread).trans (.t1Negedge _)

/-- Whatever leaves the port alone, but for the edge that begins what is pending. -/
theorem ViaOp.Leaves.aside {op : ViaOp} (hop : op.Leaves porta) {v : Via}
    (hmode : v.c2Ctrl porta = VIA_C2_CTRL_OUTPUT_HANDSAKE) {trig : Bool}
    (hshake : v.flags.shake porta = ⟨trig, false, false⟩) (hedge : op = .clock .posedge → trig = false) :
    Aside porta { via := v } (op.step v) := by
  cases op with
  | clock edge =>
    cases edge with
    | posedge =>
      have hbegun := viaClockTick_begins hmode (congrArg ShakeBits.pulse hshake)
      refine ⟨?_, hbegun.flag⟩
      show (viaClockTick v .posedge).via.flags.shake porta = _
      rw [hbegun.shake, hshake, hedge rfl]
    | negedge => exact viaClockTick_aside (congrArg ShakeBits.readPulse hshake)
  | write reg val => exact viaWrite_aside v hop
  | read reg => exact viaRead_aside v hop
  | ctrl pin val => exact viaWriteCtrl_aside v hop
  | dataPort porta' mask data =>
    show Aside porta _ { via := viaWriteDataPort v porta' mask data }
    unfold viaWriteDataPort
    split
    · exact .refl _
    · exact .setPort { via := v } porta' _

theorem pendingLevel_none {v : Via} {trig : Bool} (hshake : v.flags.shake porta = ⟨trig, false, false⟩)
    {edge : ClockEdge} (hedge : edge = .posedge → trig = false) : v.pendingLevel edge porta = none := by
  have htrig : v.flags.trigPend porta = trig := congrArg ShakeBits.trig hshake
  have hpulse : v.flags.pulsePend porta = false := congrArg ShakeBits.pulse hshake
  have hread : (porta && v.flags.ca2ReadPulsePend) = false := congrArg ShakeBits.readPulse hshake
  cases edge with
  | posedge =>
    rw [Via.pendingLevel, htrig.trans (hedge rfl), hpulse]
    rfl
  | negedge =>
    rw [Via.pendingLevel, hread]
    rfl

/-- A flag that is among the bits is clear afterwards. -/
theorem clearedIfr_cleared (ifr bits : BitVec 8) {i : Nat} (hi : i < 7) (h : bits.getLsbD i = true) :
    (clearedIfr ifr bits).getLsbD i = false := by
  unfold clearedIfr
  split
  · simp
  · have hmask : ∀ i < 7, (0x7F#8).getLsbD i = true := by decide
    simp [h, hmask i hi]

/-- A write of the data register puts a handshake up, and clears the flag. -/
theorem dataWritten_trig (h : s.via.c2Ctrl porta = VIA_C2_CTRL_OUTPUT_HANDSAKE) (val : BitVec 8) :
    (dataWritten s porta val).via.flags.shake porta =
        { s.via.flags.shake porta with trig := true } ∧
      (dataWritten s porta val).via.c1Flag porta = false := by
  have hout : viaIsHandshakeOutput s.via porta = true := by
    unfold viaIsHandshakeOutput
    rw [h]
    decide
  have hbit : ∀ x : BitVec 8, (c1Bit porta ||| x).getLsbD (if porta then 1 else 4) = true := by
    intro x
    rw [BitVec.getLsbD_or, Bool.or_eq_true]
    exact Or.inl (by cases porta <;> decide)
  have hset : ∀ p, (s.via.setPort porta p).flags = s.via.flags ∧ (s.via.setPort porta p).pcr = s.via.pcr := by
    intro p
    cases porta <;> exact ⟨rfl, rfl⟩
  unfold dataWritten
  dsimp only
  generalize hbits : c1Bit porta ||| _ = bits
  have hvia := viaClearIfr_via
    { s with via := s.via.setPort porta { s.via.port porta with or := val } } bits
  have hmode : viaIsHandshakeOutput (viaClearIfr
      { s with via := s.via.setPort porta { s.via.port porta with or := val } } bits).via porta = true := by
    rw [← hout]
    unfold viaIsHandshakeOutput
    rw [c2Ctrl_congr (v := s.via) (by rw [hvia]; exact (hset _).2)]
  rw [if_pos hmode]
  unfold ViaStep.mapFlags Via.c1Flag
  rw [hvia]
  refine ⟨?_, ?_⟩
  · dsimp only
    rw [(hset _).1]
    cases porta <;> rfl
  · exact clearedIfr_cleared _ _ (by cases porta <;> decide) (by rw [← hbits]; exact hbit _)

theorem viaWrite_data (v : Via) (porta : Bool) {reg : BitVec 8} (hreg : viaReg reg = some (dataReg porta))
    (val : BitVec 8) : Aside porta (dataWritten { via := v } porta val) (viaWrite v reg val) := by
  have hswitch := viaWriteReg_data { via := v } porta val
  unfold viaWrite
  rw [hreg]
  dsimp only
  generalize viaWriteReg { via := v } (dataReg porta) val = switched at hswitch ⊢
  obtain ⟨s, event⟩ := switched
  rw [← hswitch]
  cases event with
  | none => exact .refl s
  | some port => exact .callbacks s port

/-- A level that a C1 pin does not have yet. -/
theorem viaWriteCtrl_c1 {v : Via} {val : Bool} (h : val ≠ (v.port porta).c1In) :
    viaWriteCtrl v (c1Pin porta) val =
      viaHandleC1Edge { via := v.setPort porta { v.port porta with c1In := val } } porta := by
  cases porta <;> exact if_neg h

/-- The active edge of C1 sets the flag. -/
theorem c1Edge_active {v : Via} (h : (v.port porta).c1In = !v.c1Ctrl porta) :
    ((viaWriteCtrl v (c1Pin porta) (v.c1Ctrl porta)).via.flags.shake porta = v.flags.shake porta) ∧
      (viaWriteCtrl v (c1Pin porta) (v.c1Ctrl porta)).via.c1Flag porta = true := by
  have hbit : c1Bit porta ≠ 0 ∧ (c1Bit porta).getLsbD (if porta then 1 else 4) = true := by
    cases porta <;> decide
  have hset : ∀ (s : ViaStep), (viaSetIfr s (c1Bit porta)).via.flags = s.via.flags ∧
      (viaSetIfr s (c1Bit porta)).via.c1Flag porta = true := by
    intro s
    rw [viaSetIfr_c1Flag s hbit.1, hbit.2, Bool.or_true, viaSetIfr_via hbit.1]
    exact ⟨rfl, rfl⟩
  have hdriven : ∀ (w : Via), w.flags = v.flags → (w.port porta).c1In = w.c1Ctrl porta →
      (viaHandleC1Edge { via := w } porta).via.flags = v.flags ∧
        (viaHandleC1Edge { via := w } porta).via.c1Flag porta = true := by
    intro w hflags hactive
    have hedge : viaHandleC1Edge { via := w } porta =
        if (viaSetIfr (c1Latched { via := w } porta) (c1Bit porta)).via.c2Ctrl porta =
          VIA_C2_CTRL_OUTPUT_HANDSAKE
        then viaWriteC2State (viaSetIfr (c1Latched { via := w } porta) (c1Bit porta)) porta true
        else viaSetIfr (c1Latched { via := w } porta) (c1Bit porta) := if_pos hactive
    have hkept : (c1Latched { via := w } porta).via.flags = v.flags := by
      rw [← hflags]
      unfold c1Latched
      split
      · cases porta <;> rfl
      · rfl
    obtain ⟨hsame, hflag⟩ := hset (c1Latched { via := w } porta)
    rw [hedge]
    split
    · obtain ⟨hifr, -, hc2, -⟩ :=
        viaWriteC2State_frame (viaSetIfr (c1Latched { via := w } porta) (c1Bit porta)) porta true
      refine ⟨hc2.trans (hsame.trans hkept), ?_⟩
      unfold Via.c1Flag at hflag ⊢
      rw [hifr]
      exact hflag
    · exact ⟨hsame.trans hkept, hflag⟩
  rw [viaWriteCtrl_c1 (by rw [h]; exact (Bool.not_ne_self _).symm)]
  have hpin : (v.setPort porta { v.port porta with c1In := v.c1Ctrl porta }).flags = v.flags ∧
      ((v.setPort porta { v.port porta with c1In := v.c1Ctrl porta }).port porta).c1In =
        (v.setPort porta { v.port porta with c1In := v.c1Ctrl porta }).c1Ctrl porta := by
    cases porta <;> exact ⟨rfl, rfl⟩
  obtain ⟨hflags, hflag⟩ := hdriven _ hpin.1 hpin.2
  exact ⟨by rw [hflags], hflag⟩

/-- The other edge does not. -/
theorem c1Edge_idle {v : Via} (h : (v.port porta).c1In = v.c1Ctrl porta) :
    Aside porta { via := v } (viaWriteCtrl v (c1Pin porta) (!v.c1Ctrl porta)) := by
  rw [viaWriteCtrl_c1 (by rw [h]; exact Bool.not_ne_self _)]
  have hidle : ¬((v.setPort porta { v.port porta with c1In := !v.c1Ctrl porta }).port porta).c1In =
      (v.setPort porta { v.port porta with c1In := !v.c1Ctrl porta }).c1Ctrl porta := by
    cases porta <;> exact Bool.not_ne_self _
  unfold viaHandleC1Edge
  dsimp only
  rw [if_neg hidle]
  exact .setPort { via := v } porta _

end Moves

/-! ## The VIA's part of the channel -/

/-- The VIA is set up for a write handshake with all pins of the port outputs, and its lines, its flag
and what it has pending are those of the channel. -/
structure ViaOn (porta : Bool) (v : Via) (c : Channel (BitVec 8)) : Prop where
  mode : v.c2Ctrl porta = VIA_C2_CTRL_OUTPUT_HANDSAKE
  out : (v.port porta).ddr = 0xFF
  pb7 : porta = true ∨ v.t1Pb7Enabled = false
  shake : v.flags.shake porta = ⟨c.stage.isPosted, false, false⟩
  c1 : (v.port porta).c1In = (v.c1Ctrl porta == c.acking)
  c2 : (v.port porta).c2Out = !c.stage.requested
  place : c.stage.Holds (v.port porta).or
  flag : v.c1Flag porta = c.ready

/-- What of a port a write handshake depends on. -/
structure ViaPortState.SameLines (p p' : ViaPortState) : Prop where
  ddr : p'.ddr = p.ddr
  or : p'.or = p.or
  c1 : p'.c1In = p.c1In
  c2 : p'.c2Out = p.c2Out

theorem ViaPortState.SameLines.refl (p : ViaPortState) : p.SameLines p := ⟨rfl, rfl, rfl, rfl⟩

section On
variable {porta : Bool} {v v' : Via} {c : Channel (BitVec 8)}

theorem t1Pb7Enabled_congr (h : v'.acr = v.acr) : v'.t1Pb7Enabled = v.t1Pb7Enabled := by
  unfold Via.t1Pb7Enabled
  rw [h]

/-- A register of the port is only written on purpose. -/
theorem portWritten_other {r : ViaReg} (hdata : r ≠ dataReg porta) (hddr : r ≠ ddrReg porta)
    (hpcr : r ≠ .pcr) (v : Via) (val : BitVec 8) : v.portWritten r val porta = v.port porta := by
  unfold Via.portWritten
  rw [if_neg hddr, if_neg hdata, if_neg hpcr]

theorem driven_sameLines (p : ViaPortState) (latch : Bool) (mask data : BitVec 8) :
    p.SameLines (p.driven latch mask data) := by
  unfold ViaPortState.driven
  split
  · exact .refl p
  · exact ⟨rfl, rfl, rfl, rfl⟩

/-- The port after an operation that leaves it alone. -/
theorem ViaOp.Leaves.port {op : ViaOp} (h : op.Leaves porta) (v : Via)
    (hc2 : ∀ edge, op = .clock edge → v.pendingLevel edge porta = none) :
    (v.port porta).SameLines (op.portAfter v porta) := by
  cases op with
  | write reg val =>
    obtain ⟨hdata, hddr, hpcr, -⟩ := h
    cases hreg : viaReg reg with
    | none =>
      rw [ViaOp.portAfter_write_none hreg]
      exact .refl _
    | some r =>
      rw [hreg, ne_eq, Option.some.injEq] at hdata hddr hpcr
      rw [ViaOp.portAfter_write hreg, portWritten_other hdata hddr hpcr]
      exact .refl _
  | read reg =>
    have hother : ¬(viaReg reg = some .dataa ∧ porta ∧ viaIsHandshakeOutput v porta) :=
      fun hread => h ⟨hread.2.1, hread.1⟩
    rw [ViaOp.portAfter, if_neg hother]
    exact .refl _
  | dataPort porta' mask data =>
    unfold ViaOp.portAfter
    dsimp only
    split
    · exact driven_sameLines _ _ _ _
    · exact .refl _
  | ctrl pin val =>
    rw [ViaOp.portAfter, if_neg h]
    split
    · exact ⟨rfl, rfl, rfl, rfl⟩
    · exact .refl _
  | clock edge =>
    rw [ViaOp.portAfter, hc2 edge rfl]
    exact .refl _

theorem ViaOp.Leaves.pcr {op : ViaOp} (h : op.Leaves porta) (pcr : BitVec 8) : op.pcrAfter pcr = pcr := by
  cases op with
  | write reg val => exact if_neg h.2.2.1
  | read _ | dataPort _ _ _ | ctrl _ _ | clock _ => rfl

theorem ViaOp.Leaves.pb7 {op : ViaOp} (h : op.Leaves porta) {v : Via}
    (hpb7 : porta = true ∨ v.t1Pb7Enabled = false) :
    porta = true ∨ (op.step v).via.t1Pb7Enabled = false := by
  unfold Via.t1Pb7Enabled at hpb7 ⊢
  rw [(op.made v).acr]
  cases op with
  | write reg val =>
    rw [ViaOp.acrAfter]
    split
    · rename_i hacr
      exact h.2.2.2 hacr
    · exact hpb7
  | read _ | dataPort _ _ _ | ctrl _ _ | clock _ => exact hpb7

theorem dataReg_ne_ddrReg (porta : Bool) : dataReg porta ≠ ddrReg porta := by cases porta <;> decide

theorem dataReg_not_control (porta : Bool) : dataReg porta ≠ .acr ∧ dataReg porta ≠ .pcr := by
  cases porta <;> decide

/-- A write of the data register posts a byte. -/
theorem ViaOn.write (h : ViaOn porta v c) (hidle : c.stage = .idle) {reg : BitVec 8}
    (hreg : viaReg reg = some (dataReg porta)) (val : BitVec 8) :
    ViaOn porta (viaWrite v reg val).via
      { c with stage := .posted val, ready := false, sent := c.sent ++ [val] } := by
  obtain ⟨hnoacr, hnopcr⟩ := dataReg_not_control porta
  have hmade := viaWrite_made v reg val
  have hpcr : (viaWrite v reg val).via.pcr = v.pcr := by
    rw [hmade.pcr]
    simp [ViaOp.pcrAfter, hreg, hnopcr]
  have hacr : (viaWrite v reg val).via.acr = v.acr := by
    rw [hmade.acr]
    simp [ViaOp.acrAfter, hreg, hnoacr]
  have hport : (viaWrite v reg val).via.port porta = { v.port porta with or := val } := by
    rw [hmade.port, ViaOp.portAfter_write hreg, Via.portWritten, if_neg (dataReg_ne_ddrReg porta),
      if_pos rfl]
  obtain ⟨htrig, hflag⟩ := dataWritten_trig (s := { via := v }) h.mode val
  have haside := viaWrite_data v porta hreg val
  have hc2 := h.c2
  rw [hidle] at hc2
  refine ⟨(c2Ctrl_congr hpcr porta).trans h.mode, ?_, ?_, ?_, ?_, ?_, ?_, ?_⟩
  · rw [hport]
    exact h.out
  · rw [t1Pb7Enabled_congr hacr]
    exact h.pb7
  · rw [haside.shake, htrig, h.shake]
    rfl
  · rw [hport, c1Ctrl_congr hpcr]
    exact h.c1
  · rw [hport]
    exact hc2
  · rw [hport]
    intro a ha
    exact List.mem_singleton.mp ha
  · exact Bool.eq_false_iff.mpr fun hset => Bool.noConfusion (hflag.symm.trans (haside.flag hset))

theorem ViaOn.flags (h : ViaOn porta v c) : v.flags.trigPend porta = c.stage.isPosted ∧
    v.flags.pulsePend porta = false ∧ (porta && v.flags.ca2ReadPulsePend) = false :=
  ⟨congrArg ShakeBits.trig h.shake, congrArg ShakeBits.pulse h.shake,
    congrArg ShakeBits.readPulse h.shake⟩

/-- A positive edge raises the request for the byte posted. -/
theorem ViaOn.raise (h : ViaOn porta v c) {a : BitVec 8} (hposted : c.stage = .posted a) :
    ViaOn porta (viaClockTick v .posedge).via
      { c with stage := .offered a, ready := (viaClockTick v .posedge).via.c1Flag porta } := by
  obtain ⟨htrig, -, -⟩ := h.flags
  have hwritten := viaClockTick_written v .posedge
  have hbegun := viaClockTick_begins h.mode (congrArg ShakeBits.pulse h.shake)
  have hlevel : v.pendingLevel .posedge porta = some false := by
    rw [hposted] at htrig
    exact if_pos htrig
  have hport : (viaClockTick v .posedge).via.port porta = { v.port porta with c2Out := false } := by
    rw [hwritten.port, hlevel]
    rfl
  have hplace := h.place
  rw [hposted] at hplace
  refine ⟨(c2Ctrl_congr hwritten.pcr porta).trans h.mode, ?_, ?_, ?_, ?_, ?_, ?_, rfl⟩
  · rw [hport]
    exact h.out
  · rw [t1Pb7Enabled_congr hwritten.acr]
    exact h.pb7
  · rw [hbegun.shake, h.shake]
    rfl
  · rw [hport, c1Ctrl_congr hwritten.pcr]
    exact h.c1
  · rw [hport]
    rfl
  · rw [hport]
    exact hplace

/-- Whatever else leaves the port alone leaves the handshake where it was. -/
theorem ViaOn.aside (h : ViaOn porta v c) {op : ViaOp} (hop : op.Leaves porta)
    (hedge : op = .clock .posedge → c.stage.isPosted = false) :
    Aside porta { via := v } (op.step v) := hop.aside h.mode h.shake hedge

/-- No level is pending then. -/
theorem ViaOn.pendingLevel (h : ViaOn porta v c) {edge : ClockEdge}
    (hedge : edge = .posedge → c.stage.isPosted = false) : v.pendingLevel edge porta = none :=
  pendingLevel_none h.shake hedge

/-- The channel as the VIA shows it after that: the flag may have been cleared. -/
theorem ViaOn.other (h : ViaOn porta v c) {op : ViaOp} (hop : op.Leaves porta)
    (hedge : op = .clock .posedge → c.stage.isPosted = false) :
    ViaOn porta (op.step v).via { c with ready := (op.step v).via.c1Flag porta } := by
  have haside := h.aside hop hedge
  obtain ⟨hddr, hor, hc1, hc2⟩ :=
    hop.port v fun edge heq => h.pendingLevel fun hpos => hedge (heq.trans (by rw [hpos]))
  have hmade := op.made v
  have hpcr : (op.step v).via.pcr = v.pcr := hmade.pcr.trans (hop.pcr v.pcr)
  rw [← hmade.port porta] at hddr hor hc1 hc2
  refine ⟨(c2Ctrl_congr hpcr porta).trans h.mode, hddr.trans h.out, hop.pb7 h.pb7, haside.shake.trans h.shake,
    ?_, hc2.trans h.c2, ?_, rfl⟩
  · rw [hc1, c1Ctrl_congr hpcr]
    exact h.c1
  · rw [hor]
    exact h.place

/-- The active edge of C1 ends the request and sets the flag. -/
theorem ViaOn.acknowledge (h : ViaOn porta v c) (hidle : c.acking = false) (hacc : c.stage = .accepted) :
    ViaOn porta (viaWriteCtrl v (c1Pin porta) (v.c1Ctrl porta)).via
      { c with stage := .idle, acking := true, ready := true } := by
  have hc1 : (v.port porta).c1In = !v.c1Ctrl porta := by
    rw [h.c1, hidle]
    cases v.c1Ctrl porta <;> rfl
  obtain ⟨hshake, hflag⟩ := c1Edge_active hc1
  have hmade := viaWriteCtrl_made v (c1Pin porta) (v.c1Ctrl porta)
  have hpcr : (viaWriteCtrl v (c1Pin porta) (v.c1Ctrl porta)).via.pcr = v.pcr := hmade.pcr
  have hacr : (viaWriteCtrl v (c1Pin porta) (v.c1Ctrl porta)).via.acr = v.acr := hmade.acr
  have hport := hmade.port porta
  rw [ViaOp.portAfter, if_pos rfl, ViaPortState.c1Driven,
    if_neg (by rw [hc1]; exact (Bool.not_ne_self _).symm), if_pos rfl, decide_eq_true h.mode] at hport
  refine ⟨(c2Ctrl_congr hpcr porta).trans h.mode, ?_, ?_, ?_, ?_, ?_, ?_, hflag⟩
  · rw [hport]
    exact h.out
  · rw [t1Pb7Enabled_congr hacr]
    exact h.pb7
  · rw [hshake, h.shake, hacc]
    rfl
  · rw [hport, c1Ctrl_congr hpcr]
    exact (beq_true _).symm
  · rw [hport]
    rfl
  · intro a ha
    exact absurd ha List.not_mem_nil

/-- The other edge of C1. -/
theorem ViaOn.release (h : ViaOn porta v c) (hacking : c.acking = true) :
    ViaOn porta (viaWriteCtrl v (c1Pin porta) (!v.c1Ctrl porta)).via
      { c with acking := false
               ready := (viaWriteCtrl v (c1Pin porta) (!v.c1Ctrl porta)).via.c1Flag porta } := by
  have hc1 : (v.port porta).c1In = v.c1Ctrl porta := by
    rw [h.c1, hacking, beq_true]
  have haside := c1Edge_idle hc1
  have hmade := viaWriteCtrl_made v (c1Pin porta) (!v.c1Ctrl porta)
  have hpcr : (viaWriteCtrl v (c1Pin porta) (!v.c1Ctrl porta)).via.pcr = v.pcr := hmade.pcr
  have hacr : (viaWriteCtrl v (c1Pin porta) (!v.c1Ctrl porta)).via.acr = v.acr := hmade.acr
  have hport := hmade.port porta
  rw [ViaOp.portAfter, if_pos rfl, ViaPortState.c1Driven, if_neg (by rw [hc1]; exact Bool.not_ne_self _),
    if_neg (Bool.not_ne_self _)] at hport
  refine ⟨(c2Ctrl_congr hpcr porta).trans h.mode, ?_, ?_, haside.shake.trans h.shake, ?_, ?_, ?_, rfl⟩
  · rw [hport]
    exact h.out
  · rw [t1Pb7Enabled_congr hacr]
    exact h.pb7
  · rw [hport, c1Ctrl_congr hpcr]
    cases v.c1Ctrl porta <;> rfl
  · rw [hport]
    exact h.c2
  · rw [hport]
    exact h.place

end On

/-! ## The two parties -/

/-- The peripheral: it waits for a request, has taken the byte, or keeps C1 active. -/
inductive Sink where
  | waiting | holding | acking
  deriving DecidableEq

/-- The VIA and the peripheral, with the bytes that the program wrote and the peripheral took. -/
structure Shake where
  via : Via
  sink : Sink := .waiting
  written : List (BitVec 8) := []
  taken : List (BitVec 8) := []
  deriving DecidableEq

/-- A move of the program (a write of the data register), of the peripheral, or of whoever else. -/
inductive ShakeMove where
  | write (val : BitVec 8)
  | take
  | acknowledge
  | release
  | other (op : ViaOp)
  deriving DecidableEq

def Shake.step (porta : Bool) (s : Shake) : ShakeMove → Shake
  | .write val =>
    { s with via := (viaWrite s.via (dataNum porta) val).via, written := s.written ++ [val] }
  | .take => { s with sink := .holding, taken := s.taken ++ [viaReadDataPort s.via porta] }
  | .acknowledge =>
    { s with via := (viaWriteCtrl s.via (c1Pin porta) (s.via.c1Ctrl porta)).via, sink := .acking }
  | .release =>
    { s with via := (viaWriteCtrl s.via (c1Pin porta) (!s.via.c1Ctrl porta)).via, sink := .waiting }
  | .other op => { s with via := (op.step s.via).via }

/-- The rules of the handshake. The program writes when it finds the flag set, and the first byte
at any time; the peripheral goes by C2. -/
def Shake.May (porta : Bool) (s : Shake) : ShakeMove → Prop
  | .write _ => s.via.c1Flag porta = true ∨ s.written = []
  | .take => s.sink = .waiting ∧ viaReadCtrl s.via (c2Pin porta) = false
  | .acknowledge => s.sink = .holding
  | .release => s.sink = .acking
  | .other op => op.Leaves porta

instance (porta : Bool) (s : Shake) (m : ShakeMove) : Decidable (s.May porta m) := by
  cases m <;> unfold Shake.May <;> infer_instance

def Shake.run (porta : Bool) (s : Shake) (moves : List ShakeMove) : Shake :=
  moves.foldl (Shake.step porta) s

/-- The moves follow the rules, each in the state that it finds. -/
def Shake.Plays (porta : Bool) (s : Shake) (moves : List ShakeMove) : Prop :=
  Steps.Each (Shake.step porta) (Shake.May porta) s moves

/-- Set up for a write handshake, with nothing pending and C1 not active. -/
structure ViaReady (porta : Bool) (v : Via) : Prop where
  mode : v.c2Ctrl porta = VIA_C2_CTRL_OUTPUT_HANDSAKE
  out : (v.port porta).ddr = 0xFF
  pb7 : porta = true ∨ v.t1Pb7Enabled = false
  shake : v.flags.shake porta = ⟨false, false, false⟩
  c1 : (v.port porta).c1In = !v.c1Ctrl porta
  c2 : (v.port porta).c2Out = true

/-- The state shows the channel. -/
structure Shake.On (porta : Bool) (s : Shake) (c : Channel (BitVec 8)) : Prop where
  via : ViaOn porta s.via c
  holding : s.sink = .holding ↔ c.stage = .accepted
  acking : s.sink = .acking ↔ c.acking = true
  written : s.written = c.sent
  taken : s.taken = c.received

section Parties
variable {porta : Bool} {s : Shake} {c : Channel (BitVec 8)}

theorem ViaReady.on {v : Via} (h : ViaReady porta v) :
    Shake.On porta { via := v } { ready := v.c1Flag porta } := by
  refine ⟨⟨h.mode, h.out, h.pb7, h.shake, ?_, h.c2, ?_, rfl⟩, ?_, ?_, rfl, rfl⟩
  · rw [h.c1]
    cases v.c1Ctrl porta <;> rfl
  · intro a ha
    exact absurd ha List.not_mem_nil
  · exact iff_of_false (by rintro ⟨⟩) (by rintro ⟨⟩)
  · exact iff_of_false (by rintro ⟨⟩) (by rintro ⟨⟩)

/-- What the peripheral sees on C2. -/
theorem ViaOn.readCtrl {v : Via} (h : ViaOn porta v c) :
    viaReadCtrl v (c2Pin porta) = !c.stage.requested := by
  rw [← h.c2]
  have hout : ¬v.c2Ctrl porta < VIA_C2_CTRL_OUTPUT_HANDSAKE := by
    rw [h.mode]
    decide
  cases porta <;> exact if_neg hout

/-- What it sees on the port. -/
theorem ViaOn.readDataPort {v : Via} (h : ViaOn porta v c) :
    viaReadDataPort v porta = (v.port porta).or := by
  have hall : ∀ p : ViaPortState, p.ddr = 0xFF → mergeBits p.or p.pinIn p.ddr = p.or := by
    intro p hddr
    have hone : p.or &&& (0xFF : BitVec 8) = p.or := BitVec.and_allOnes
    have hzero : p.pinIn &&& ~~~(0xFF : BitVec 8) = 0#8 := BitVec.and_zero
    rw [hddr, mergeBits, hone, hzero, BitVec.or_zero]
  have hout := h.out
  unfold viaReadDataPort
  cases porta with
  | true => exact hall _ hout
  | false =>
    rcases h.pb7 with hport | hpb7
    · exact Bool.noConfusion hport
    · rw [hpb7]
      exact hall _ hout

theorem ViaOn.accept {v : Via} (h : ViaOn porta v c) {a : BitVec 8} (hoffered : c.stage = .offered a)
    (received : List (BitVec 8)) : ViaOn porta v { c with stage := .accepted, received } := by
  have hshake := h.shake
  have hc2 := h.c2
  rw [hoffered] at hshake hc2
  refine ⟨h.mode, h.out, h.pb7, hshake, h.c1, hc2, ?_, h.flag⟩
  intro b hb
  exact absurd hb List.not_mem_nil

/-- C2 is low for a peripheral that waits: a byte is offered. -/
theorem Shake.On.offered (h : s.On porta c) (hwait : s.sink = .waiting)
    (hlow : viaReadCtrl s.via (c2Pin porta) = false) : ∃ a, c.stage = .offered a := by
  rw [h.via.readCtrl] at hlow
  cases hstage : c.stage with
  | offered a => exact ⟨a, rfl⟩
  | accepted =>
    have hhold := h.holding.mpr hstage
    rw [hwait] at hhold
    cases hhold
  | idle | posted a =>
    rw [hstage] at hlow
    exact Bool.noConfusion hlow

theorem viaReg_dataNum (porta : Bool) : viaReg (dataNum porta) = some (dataReg porta) := by
  cases porta <;> rfl

theorem Shake.On.write (h : s.On porta c) (hidle : c.stage = .idle) (val : BitVec 8) :
    (s.step porta (.write val)).On porta
      { c with stage := .posted val, ready := false, sent := c.sent ++ [val] } := by
  have hholding := h.holding
  rw [hidle] at hholding
  refine ⟨h.via.write hidle (viaReg_dataNum porta) val, ?_, h.acking, ?_, h.taken⟩
  · exact hholding.trans (iff_of_false (by rintro ⟨⟩) (by rintro ⟨⟩))
  · exact congrArg (· ++ [val]) h.written

theorem Shake.On.take (h : s.On porta c) {a : BitVec 8} (hoffered : c.stage = .offered a)
    (hidle : c.acking = false) : (s.step porta .take).On porta
      { c with stage := .accepted, received := c.received ++ [a] } := by
  have hseen : viaReadDataPort s.via porta = a := by
    rw [h.via.readDataPort]
    exact (h.via.place a (by rw [hoffered]; exact List.mem_singleton_self a)).symm
  refine ⟨h.via.accept hoffered _, iff_of_true rfl rfl, ?_, h.written, ?_⟩
  · rw [hidle]
    exact iff_of_false (by rintro ⟨⟩) (by rintro ⟨⟩)
  · show s.taken ++ [viaReadDataPort s.via porta] = c.received ++ [a]
    rw [hseen, h.taken]

theorem Shake.On.acknowledge (h : s.On porta c) (hc : Conserves c) (haccepted : c.stage = .accepted) :
    (s.step porta .acknowledge).On porta { c with stage := .idle, acking := true, ready := true } :=
  ⟨h.via.acknowledge (hc.settled haccepted) haccepted, iff_of_false (by rintro ⟨⟩) (by rintro ⟨⟩),
    iff_of_true rfl rfl, h.written, h.taken⟩

/-- What the VIA no longer shows, the source has forgotten. -/
theorem Shake.On.dim (h : s.On porta c) {s' : ViaStep}
    (hflag : s'.via.c1Flag porta = true → s.via.c1Flag porta = true) :
    s'.via.c1Flag porta = true → c.ready = true := by
  rw [← h.via.flag]
  exact hflag

theorem Shake.On.release (h : s.On porta c) (hc : Conserves c) (hacking : c.acking = true) :
    ∃ ready, Relation.ReflTransGen FourPhase.Step c { c with acking := false, ready } ∧
      (s.step porta .release).On porta { c with acking := false, ready } := by
  have hc1 : (s.via.port porta).c1In = s.via.c1Ctrl porta := by
    rw [h.via.c1, hacking, beq_true]
  have hdimmed := FourPhase.Step.dim (h.dim (c1Edge_idle hc1).flag)
  have hbusy : c.stage ≠ .accepted := fun hacc => by simp [hc.settled hacc] at hacking
  exact ⟨_, .tail hdimmed (.release hacking), h.via.release hacking, iff_of_false (by rintro ⟨⟩) hbusy,
    iff_of_false (by rintro ⟨⟩) (by rintro ⟨⟩), h.written, h.taken⟩

theorem Shake.On.raise (h : s.On porta c) {a : BitVec 8} (hposted : c.stage = .posted a) :
    ∃ ready, Relation.ReflTransGen FourPhase.Step c { c with stage := .offered a, ready } ∧
      (s.step porta (.other (.clock .posedge))).On porta { c with stage := .offered a, ready } := by
  have hbegun := viaClockTick_begins h.via.mode h.via.flags.2.1
  have hholding := h.holding
  rw [hposted] at hholding
  refine ⟨_, .head (.raise hposted) (FourPhase.Step.dim (h.dim hbegun.flag)), h.via.raise hposted, ?_,
    h.acking, h.written, h.taken⟩
  exact hholding.trans (iff_of_false (by rintro ⟨⟩) (by rintro ⟨⟩))

/-- Each move that follows the rules is made of steps of the four-phase handshake. -/
theorem Shake.On.step (h : s.On porta c) (hc : Conserves c) {m : ShakeMove} (hmay : s.May porta m) :
    ∃ c', Relation.ReflTransGen FourPhase.Step c c' ∧ (s.step porta m).On porta c' := by
  cases m with
  | write val =>
    have hsend : c.ready = true ∨ c.sent = [] := by
      rw [← h.via.flag, ← h.written]
      exact hmay
    exact ⟨_, .single (.send val hsend), h.write (hc.idle hsend) val⟩
  | take =>
    obtain ⟨a, hoffered⟩ := h.offered hmay.1 hmay.2
    have hidle : c.acking = false := Bool.eq_false_iff.mpr fun hacking => by
      have hsink := h.acking.mpr hacking
      rw [hmay.1] at hsink
      cases hsink
    exact ⟨_, .single (.accept hoffered hidle), h.take hoffered hidle⟩
  | acknowledge =>
    have haccepted := h.holding.mp hmay
    exact ⟨_, .single (.acknowledge haccepted), h.acknowledge hc haccepted⟩
  | release =>
    obtain ⟨ready, hsteps, hon⟩ := h.release hc (h.acking.mp hmay)
    exact ⟨_, hsteps, hon⟩
  | other op =>
    by_cases hraise : op = .clock .posedge ∧ c.stage.isPosted = true
    · -- a positive edge, with a byte posted
      obtain ⟨rfl, hposted⟩ := hraise
      obtain ⟨a, hstage⟩ := FourPhase.Stage.eq_posted hposted
      obtain ⟨ready, hsteps, hon⟩ := h.raise hstage
      exact ⟨_, hsteps, hon⟩
    · have hedge : op = .clock .posedge → c.stage.isPosted = false :=
        fun heq => Bool.eq_false_iff.mpr fun hposted => hraise ⟨heq, hposted⟩
      have haside := h.via.aside hmay hedge
      exact ⟨_, FourPhase.Step.dim (h.dim haside.flag), h.via.other hmay hedge, h.holding, h.acking, h.written,
        h.taken⟩

theorem Shake.On.run (h : s.On porta c) (hc : Conserves c) {moves : List ShakeMove}
    (hplays : s.Plays porta moves) : ∃ c', (s.run porta moves).On porta c' ∧ Conserves c' := by
  induction moves generalizing s c with
  | nil => exact ⟨c, h, hc⟩
  | cons m moves ih =>
    obtain ⟨hmay, hrest⟩ := hplays
    obtain ⟨c', hsteps, hon⟩ := h.step hc hmay
    exact ih hon (hc.run hsteps) hrest

/-! ## Delivery -/

/-- A positive clock edge, or a move of the peripheral. -/
def ShakeMove.serves : ShakeMove → Bool
  | .take | .acknowledge | .release => true
  | .other op => op = .clock .posedge
  | .write _ => false

/-- Without the program, all bytes come to be taken and the flag is set. -/
def Shake.Drains (porta : Bool) (s : Shake) : Prop :=
  ∃ moves, (∀ m ∈ moves, m.serves = true) ∧ s.Plays porta moves ∧
    (s.run porta moves).taken = s.written ∧ (s.run porta moves).via.c1Flag porta = true

theorem Shake.Drains.after {m : ShakeMove} (hserves : m.serves = true) (hmay : s.May porta m)
    (h : (s.step porta m).Drains porta) : s.Drains porta := by
  obtain ⟨moves, hall, hplays, htaken, hflag⟩ := h
  refine ⟨m :: moves, ?_, ⟨hmay, hplays⟩, ?_, hflag⟩
  · intro m' hm'
    rcases List.mem_cons.mp hm' with rfl | hm'
    · exact hserves
    · exact hall m' hm'
  · have hwritten : (s.step porta m).written = s.written := by
      cases m with
      | write val => exact Bool.noConfusion hserves
      | take | acknowledge | release | other op => rfl
    exact htaken.trans hwritten

/-- The byte is taken: the acknowledge is left. -/
theorem Shake.On.drains_accepted (h : s.On porta c) (hc : Conserves c) (hstage : c.stage = .accepted) :
    s.Drains porta := by
  have hacked := h.via.acknowledge (hc.settled hstage) hstage
  have hbalance := hc.balance
  rw [hstage, FourPhase.Stage.items, List.append_nil] at hbalance
  refine ⟨[.acknowledge], ?_, ⟨h.holding.mpr hstage, trivial⟩, ?_, hacked.flag⟩
  · intro m hm
    rw [List.mem_singleton.mp hm]
    rfl
  · show s.taken = s.written
    rw [h.taken, h.written, hbalance]

/-- The peripheral waits, unless it has taken the byte or keeps C1 active. -/
theorem Shake.On.waiting (h : s.On porta c) (hstage : c.stage ≠ .accepted) (hidle : c.acking = false) :
    s.sink = .waiting := by
  cases hsink : s.sink with
  | waiting => rfl
  | holding => exact absurd (h.holding.mp hsink) hstage
  | acking =>
    rw [h.acking.mp hsink] at hidle
    exact Bool.noConfusion hidle

theorem Shake.On.drains_waiting (h : s.On porta c) (hc : Conserves c) {a : BitVec 8}
    (hstage : c.stage = .offered a) (hidle : c.acking = false) : s.Drains porta := by
  have hbusy : c.stage ≠ .accepted := by
    rw [hstage]
    rintro ⟨⟩
  have hlow : viaReadCtrl s.via (c2Pin porta) = false := by
    rw [h.via.readCtrl, hstage]
    rfl
  have hmay : s.May porta .take := ⟨h.waiting hbusy hidle, hlow⟩
  have hc' := (FourPhase.Step.accept hstage hidle).conserves hc
  exact .after rfl hmay ((h.take hstage hidle).drains_accepted hc' rfl)

theorem Shake.On.drains_offered (h : s.On porta c) (hc : Conserves c) {a : BitVec 8}
    (hstage : c.stage = .offered a) : s.Drains porta := by
  by_cases hacking : c.acking = true
  · obtain ⟨ready, hsteps, hon⟩ := h.release hc hacking
    have hmay : s.May porta .release := h.acking.mpr hacking
    exact .after rfl hmay (hon.drains_waiting (hc.run hsteps) hstage rfl)
  · exact h.drains_waiting hc hstage (Bool.eq_false_iff.mpr hacking)

/-- A byte on its way can always be delivered. -/
theorem Shake.On.drains (h : s.On porta c) (hc : Conserves c) (hbusy : c.stage ≠ .idle) :
    s.Drains porta := by
  cases hstage : c.stage with
  | idle => exact absurd hstage hbusy
  | posted a =>
    obtain ⟨ready, hsteps, hon⟩ := h.raise hstage
    have hmay : s.May porta (.other (.clock .posedge)) := trivial
    exact .after rfl hmay (hon.drains_offered (hc.run hsteps) rfl)
  | offered a => exact h.drains_offered hc hstage
  | accepted => exact h.drains_accepted hc hstage

end Parties

/-- The write handshake delivers. From a port that is set up for it, in every interleaving of the
program, the peripheral, the clock and whatever leaves the port alone, each following the rules: the
bytes that the peripheral took are those that the program wrote, in order, none lost and none twice,
up to one byte under way; once the flag is set there is none; and a byte that is under way comes to be
taken, and the flag set, by the clock and the peripheral alone. -/
theorem handshake_delivers {porta : Bool} {v : Via} (h : ViaReady porta v) {moves : List ShakeMove}
    (hplays : Shake.Plays porta { via := v } moves) :
    ((Shake.run porta { via := v } moves).taken = (Shake.run porta { via := v } moves).written ∨
      ∃ byte, (Shake.run porta { via := v } moves).written =
        (Shake.run porta { via := v } moves).taken ++ [byte]) ∧
    ((Shake.run porta { via := v } moves).via.c1Flag porta = true →
      (Shake.run porta { via := v } moves).taken = (Shake.run porta { via := v } moves).written) ∧
    ((Shake.run porta { via := v } moves).taken ≠ (Shake.run porta { via := v } moves).written →
      (Shake.run porta { via := v } moves).Drains porta) := by
  obtain ⟨c, hon, hc⟩ := h.on.run (FourPhase.conserves_start (v.c1Flag porta)) hplays
  rw [hon.written, hon.taken, hon.via.flag]
  refine ⟨hc.received_or, hc.received_of_ready, fun hmissing => hon.drains hc fun hidle => hmissing ?_⟩
  have hbalance := hc.balance
  rw [hidle, FourPhase.Stage.items, List.append_nil] at hbalance
  exact hbalance.symm

/-- A VIA after the program has set it up: port A an output, its C2 line in handshake mode. -/
def shakeVia : Via := (viaWrite (viaWrite viaInit 3 0xFF).via 12 0x09).via

/-- Two bytes, with the second one written while C1 is still active. -/
def twoHandshakes : List ShakeMove :=
  [.write 0x41, .other (.clock .posedge), .other (.clock .negedge), .take, .other (.read 13), .acknowledge,
    .write 0x42, .other (.clock .posedge), .release, .take, .acknowledge]

/-- All is taken at the end. Behind the first eight moves the second byte is under way, and comes to be
taken. -/
theorem handshake_delivers_of_two :
    (Shake.run true { via := shakeVia } twoHandshakes).taken =
        (Shake.run true { via := shakeVia } twoHandshakes).written ∧
      (Shake.run true { via := shakeVia } twoHandshakes).written = [0x41, 0x42] ∧
      (Shake.run true { via := shakeVia } (twoHandshakes.take 8)).Drains true := by
  have hready : ViaReady true shakeVia := by
    constructor <;> decide
  have hplays : Shake.Plays true { via := shakeVia } twoHandshakes := by
    refine ⟨?_, ?_, ?_, ?_, ?_, ?_, ?_, ?_, ?_, ?_, ?_, trivial⟩ <;> decide
  have hbegun : Shake.Plays true { via := shakeVia } (twoHandshakes.take 8) := by
    refine ⟨?_, ?_, ?_, ?_, ?_, ?_, ?_, ?_, trivial⟩ <;> decide
  refine ⟨(handshake_delivers hready hplays).2.1 (by decide), by decide, ?_⟩
  exact (handshake_delivers hready hbegun).2.2 (by decide)

end Cb6502
