import Cb6502.ViaIrq

/- What the callbacks of a VIA are told of its pins. `Told line s s'` says that on the way
   from `s` to `s'` every callback was called after the last change of the line. It composes
   (`Told.trans`), holds of what leaves the pins alone and of a change followed by its event,
   and so of every operation but one: a write of PCR whose new mode shows another level on
   CA2 or CB2 while both output latches keep theirs. -/
namespace Cb6502

/-! ## Lines -/

/-- What a callback is told of. -/
inductive ViaLine where
  | porta | portb | ca2 | cb2
  deriving DecidableEq

/-- The event for a change of the line. -/
def ViaLine.event : ViaLine → ViaPortData
  | .porta => .porta
  | .portb => .portb
  | .ca2 | .cb2 => .ctrl

/-- The line shows the same level. -/
def ViaLine.Same (line : ViaLine) (l l' : ViaLevels) : Prop :=
  match line with
  | .porta => l.porta = l'.porta
  | .portb => l.portb = l'.portb
  | .ca2 => l.ca2 = l'.ca2
  | .cb2 => l.cb2 = l'.cb2

instance (line : ViaLine) (l l' : ViaLevels) : Decidable (line.Same l l') :=
  match line with
  | .porta => inferInstanceAs (Decidable (l.porta = l'.porta))
  | .portb => inferInstanceAs (Decidable (l.portb = l'.portb))
  | .ca2 => inferInstanceAs (Decidable (l.ca2 = l'.ca2))
  | .cb2 => inferInstanceAs (Decidable (l.cb2 = l'.cb2))

namespace ViaLine
variable {line : ViaLine} {l l' l'' : ViaLevels}

theorem Same.refl (line : ViaLine) (l : ViaLevels) : line.Same l l := by cases line <;> exact rfl

theorem Same.trans (h : line.Same l l') (h' : line.Same l' l'') : line.Same l l'' := by
  cases line <;> exact Eq.trans h h'

theorem Same.symm (h : line.Same l l') : line.Same l' l := by cases line <;> exact Eq.symm h

theorem eq_of_same (h : ∀ line : ViaLine, line.Same l l') : l = l' := by
  cases l
  cases l'
  simp only [ViaLevels.mk.injEq]
  exact ⟨h .porta, h .portb, h .ca2, h .cb2⟩

end ViaLine

/-! ## Told -/

/-- If the line changes from `s` to `s'`, then each callback was called with its event when
the line showed what it shows in `s'`. -/
structure Told (line : ViaLine) (s s' : ViaStep) : Prop where
  callbacks : s'.via.callbacks = s.via.callbacks
  told : ∃ notices, s'.via.notified = s.via.notified ++ notices ∧
    (¬line.Same s.via.levels s'.via.levels → ∀ callback ∈ s.via.callbacks,
      ∃ n ∈ notices, n.callback = callback ∧ n.event = line.event ∧ line.Same n.levels s'.via.levels)

/-- The pins and the callbacks are left alone. -/
structure PinsKept (s s' : ViaStep) : Prop where
  levels : s'.via.levels = s.via.levels
  callbacks : s'.via.callbacks = s.via.callbacks
  notified : s'.via.notified = s.via.notified

section Rules
variable {line : ViaLine} {s s' s'' : ViaStep}

theorem told_of_same (hcallbacks : s'.via.callbacks = s.via.callbacks)
    (hnotified : s'.via.notified = s.via.notified) (hsame : line.Same s.via.levels s'.via.levels) :
    Told line s s' := by
  refine ⟨hcallbacks, [], ?_, fun hchanged => absurd hsame hchanged⟩
  rw [List.append_nil, hnotified]

theorem PinsKept.told (h : PinsKept s s') (line : ViaLine) : Told line s s' := by
  apply told_of_same h.callbacks h.notified
  rw [h.levels]
  exact .refl line _

theorem Told.refl (line : ViaLine) (s : ViaStep) : Told line s s :=
  told_of_same rfl rfl (.refl line _)

/-- The last part that changes the line is the one that counts. -/
theorem Told.trans (h : Told line s s') (h' : Told line s' s'') : Told line s s'' := by
  obtain ⟨hcallbacks, notices, hnotified, htold⟩ := h
  obtain ⟨hcallbacks', notices', hnotified', htold'⟩ := h'
  refine ⟨hcallbacks'.trans hcallbacks, notices ++ notices', ?_, ?_⟩
  · rw [hnotified', hnotified, List.append_assoc]
  · intro hchanged callback hmem
    by_cases hlast : line.Same s'.via.levels s''.via.levels
    · have hfirst : ¬line.Same s.via.levels s'.via.levels := fun h => hchanged (h.trans hlast)
      -- told in the first part, and the line has kept its level since
      obtain ⟨n, hn, hcallback, hevent, hlevel⟩ := htold hfirst callback hmem
      exact ⟨n, List.mem_append_left _ hn, hcallback, hevent, hlevel.trans hlast⟩
    · rw [← hcallbacks] at hmem
      obtain ⟨n, hn, hrest⟩ := htold' hlast callback hmem
      exact ⟨n, List.mem_append_right _ hn, hrest⟩

/-- A change followed by its event. -/
theorem told_of_notify {event : ViaPortData} (hcallbacks : s'.via.callbacks = s.via.callbacks)
    (hnotified : s'.via.notified = s.via.notified)
    (hline : line.event = event ∨ line.Same s.via.levels s'.via.levels) :
    Told line s (viaMakeCallbacks s' event) := by
  refine ⟨hcallbacks, s'.via.callbacks.map fun callback => ⟨callback, event, s'.via.levels⟩, ?_, ?_⟩
  · rw [← hnotified]
    rfl
  · intro hchanged callback hmem
    rw [← hcallbacks] at hmem
    refine ⟨⟨callback, event, s'.via.levels⟩, List.mem_map_of_mem hmem, rfl, ?_, .refl line _⟩
    rcases hline with hevent | hsame
    · exact hevent.symm
    · exact absurd hsame hchanged

theorem PinsKept.trans (h : PinsKept s s') (h' : PinsKept s' s'') : PinsKept s s'' :=
  ⟨h'.levels.trans h.levels, h'.callbacks.trans h.callbacks, h'.notified.trans h.notified⟩

end Rules

/-! ## What leaves the pins alone -/

section Kept
variable (s : ViaStep)

theorem PinsKept.refl : PinsKept s s := ⟨rfl, rfl, rfl⟩

theorem mapFlags_pinsKept (f : ViaFlags → ViaFlags) : PinsKept s (s.mapFlags f) := ⟨rfl, rfl, rfl⟩

theorem viaClearIfr_pinsKept (bits : BitVec 8) : PinsKept s (viaClearIfr s bits) := by
  have hvia := viaClearIfr_via s bits
  refine ⟨?_, ?_, ?_⟩
  · rw [hvia]
    rfl
  · rw [hvia]
  · rw [hvia]

theorem viaSetIfr_pinsKept (bits : BitVec 8) : PinsKept s (viaSetIfr s bits) := by
  unfold viaSetIfr
  split
  · exact .refl s
  · dsimp only
    split
    · refine ⟨?_, ?_, ?_⟩
      · rw [ViaStep.voteIrq_via]
        rfl
      · rw [ViaStep.voteIrq_via]
      · rw [ViaStep.voteIrq_via]
    · exact ⟨rfl, rfl, rfl⟩

theorem latch_pinsKept (porta : Bool) (ir : BitVec 8) :
    PinsKept s { s with via := s.via.setPort porta { s.via.port porta with ir } } := by
  cases porta <;> exact ⟨rfl, rfl, rfl⟩

end Kept

/-! ## The C2 lines -/

def c2Line (porta : Bool) : ViaLine := if porta then .ca2 else .cb2

/-- The state with the output latch of the C2 line set. -/
def withC2Out (s : ViaStep) (porta state : Bool) : ViaStep :=
  { s with via := s.via.setPort porta { s.via.port porta with c2Out := state } }

theorem withC2Out_other (s : ViaStep) (porta state : Bool) {line : ViaLine} (h : line ≠ c2Line porta) :
    line.Same s.via.levels (withC2Out s porta state).via.levels := by
  cases porta <;> cases line <;> first | exact rfl | exact absurd rfl h

/-- While the line is an input its latch is not seen. -/
theorem withC2Out_input (s : ViaStep) (porta state : Bool)
    (h : ¬s.via.c2Ctrl porta ≥ VIA_C2_CTRL_OUTPUT_HANDSAKE) (line : ViaLine) :
    line.Same s.via.levels (withC2Out s porta state).via.levels := by
  have hinput : s.via.c2Ctrl porta < VIA_C2_CTRL_OUTPUT_HANDSAKE := by
    simpa only [ge_iff_le, BitVec.not_le] using h
  by_cases hline : line = c2Line porta
  · have hlevel : ∀ v : Via, v.c2Ctrl porta < VIA_C2_CTRL_OUTPUT_HANDSAKE →
        (if v.c2Ctrl porta < VIA_C2_CTRL_OUTPUT_HANDSAKE then (v.port porta).c2In
          else (v.port porta).c2Out) = (v.port porta).c2In := fun v hv => if_pos hv
    have hbefore := hlevel s.via hinput
    have hafter := hlevel (withC2Out s porta state).via (by cases porta <;> exact hinput)
    subst hline
    cases porta <;> exact hbefore.trans hafter.symm
  · exact withC2Out_other s porta state hline

theorem viaWriteC2State_eq (s : ViaStep) (porta state : Bool) : viaWriteC2State s porta state =
    if state = (s.via.port porta).c2Out then s
    else if s.via.c2Ctrl porta ≥ VIA_C2_CTRL_OUTPUT_HANDSAKE then
      viaMakeCallbacks (withC2Out s porta state) .ctrl
    else withC2Out s porta state := by
  cases porta <;> rfl

theorem withC2Out_callbacks (s : ViaStep) (porta state : Bool) :
    (withC2Out s porta state).via.callbacks = s.via.callbacks ∧
      (withC2Out s porta state).via.notified = s.via.notified := by
  cases porta <;> exact ⟨rfl, rfl⟩

theorem c2Line_event {line : ViaLine} {porta : Bool} (h : line = c2Line porta) : line.event = .ctrl := by
  subst h
  cases porta <;> rfl

theorem viaWriteC2State_told (s : ViaStep) (porta state : Bool) (line : ViaLine) :
    Told line s (viaWriteC2State s porta state) := by
  obtain ⟨hcallbacks, hnotified⟩ := withC2Out_callbacks s porta state
  rw [viaWriteC2State_eq]
  split
  · exact .refl line s
  · split
    · apply told_of_notify hcallbacks hnotified
      by_cases hline : line = c2Line porta
      · exact .inl (c2Line_event hline)
      · exact .inr (withC2Out_other s porta state hline)
    · rename_i hinput
      exact told_of_same hcallbacks hnotified (withC2Out_input s porta state hinput line)

/-! ## Edges -/

section Edges
variable (s : ViaStep) (line : ViaLine)

theorem told_rule : ViaRule (Told line) where
  refl := .refl line
  trans h h' := h.trans h'
  flags s f := (mapFlags_pinsKept s f).told line
  set s bits _ := (viaSetIfr_pinsKept s bits).told line
  clear s bits := (viaClearIfr_pinsKept s bits).told line
  latch s porta ir := (latch_pinsKept s porta ir).told line
  c2 s porta state := viaWriteC2State_told s porta state line

/-- PB7 follows the timer only where ACR says so. -/
theorem toggle_told (h : ¬s.via.t1Pb7Enabled = true) (t1pb7 : Bool) :
    PinsKept s { s with via := { s.via with t1pb7 } } := by
  refine ⟨?_, rfl, rfl⟩
  have hportb : viaReadDataPort { s.via with t1pb7 } false = viaReadDataPort s.via false := by
    have hread : ∀ v : Via, ¬v.t1Pb7Enabled = true →
        viaReadDataPort v false = mergeBits v.portb.or v.portb.pinIn v.portb.ddr := fun v hv => if_neg hv
    rw [hread { s.via with t1pb7 } h, hread s.via h]
  show ViaLevels.mk _ _ _ _ = ViaLevels.mk _ _ _ _
  rw [hportb]
  rfl

theorem viaT1Posedge_told : Told line s (viaT1Posedge s) := by
  unfold viaT1Posedge
  split
  · split
    · dsimp only
      apply Told.trans ((viaSetIfr_pinsKept s IFR_T1).told line)
      generalize viaSetIfr s IFR_T1 = s
      by_cases henabled : s.via.t1Pb7Enabled = true
      · -- the port changes and its callbacks are called
        rw [if_pos (show ({ s.via with t1pb7 := !s.via.t1pb7 } : Via).t1Pb7Enabled = true from henabled)]
        have hnotify : Told line s
            (viaMakeCallbacks { s with via := { s.via with t1pb7 := !s.via.t1pb7 } } .portb) := by
          refine told_of_notify rfl rfl ?_
          cases line with
          | porta => exact .inr rfl
          | portb => exact .inl rfl
          | ca2 => exact .inr rfl
          | cb2 => exact .inr rfl
        split
        · exact hnotify
        · exact hnotify.trans ((mapFlags_pinsKept _ _).told line)
      · rw [if_neg (show ¬({ s.via with t1pb7 := !s.via.t1pb7 } : Via).t1Pb7Enabled = true from henabled)]
        have hkept := toggle_told s henabled (!s.via.t1pb7)
        split
        · exact hkept.told line
        · exact (hkept.trans (mapFlags_pinsKept _ _)).told line
    · exact .refl line s
  · exact .refl line s

theorem viaT1Negedge_pinsKept : PinsKept s (viaT1Negedge s) := by
  unfold viaT1Negedge
  split
  · split <;> exact ⟨rfl, rfl, rfl⟩
  · exact mapFlags_pinsKept s _

theorem viaClock_told (v : Via) (edge : ClockEdge) : Told line { via := v } (viaClockTick v edge) :=
  (told_rule line).handshake.clockTick (fun s => viaT1Posedge_told s line)
    (fun s => (viaT1Negedge_pinsKept s).told line) v edge

end Edges

/-! ## Register accesses -/

/-- What the switch of `via_write` leaves to tell: the line of the event it returns may have
changed, no other has, and nobody was called yet. -/
structure ToDispatch (s : ViaStep) (r : ViaStep × Option ViaPortData) : Prop where
  callbacks : r.1.via.callbacks = s.via.callbacks
  notified : r.1.via.notified = s.via.notified
  line : ∀ line : ViaLine, r.2 = some line.event ∨ line.Same s.via.levels r.1.via.levels

theorem PinsKept.toDispatch {s s' : ViaStep} (h : PinsKept s s') (event : Option ViaPortData) :
    ToDispatch s (s', event) := by
  refine ⟨h.callbacks, h.notified, fun line => .inr ?_⟩
  show line.Same s.via.levels s'.via.levels
  rw [h.levels]
  exact .refl line _

theorem PinsKept.ite {s s' : ViaStep} {p : Prop} [Decidable p] (h : PinsKept s s') :
    PinsKept s (if p then s' else s) := by
  split
  · exact h
  · exact .refl s

/-- What happens after the change keeps the pins. -/
theorem ToDispatch.kept {s s' s'' : ViaStep} {event : Option ViaPortData}
    (h : ToDispatch s (s', event)) (hkept : PinsKept s' s'') : ToDispatch s (s'', event) := by
  refine ⟨hkept.callbacks.trans h.callbacks, hkept.notified.trans h.notified, fun line => ?_⟩
  show _ ∨ line.Same s.via.levels s''.via.levels
  rw [hkept.levels]
  exact h.line line

section Registers
variable (s : ViaStep) (val : BitVec 8)

theorem viaDdrWrite_toDispatch (porta : Bool) (event : ViaPortData)
    (hevent : event = if porta then .porta else .portb) :
    ToDispatch s ((viaDdrWrite s porta val).1,
      if (viaDdrWrite s porta val).2 = true then some event else none) := by
  subst hevent
  unfold viaDdrWrite
  dsimp only
  by_cases hddr : (s.via.port porta).ddr ≠ val
  · rw [if_pos hddr]
    dsimp only
    rw [if_pos rfl]
    refine ⟨?_, ?_, fun line => ?_⟩
    · cases porta <;> rfl
    · cases porta <;> rfl
    · -- the other port and the C2 lines do not depend on the port's latch and direction
      cases porta <;> cases line <;> first | exact .inl rfl | exact .inr rfl | skip
      all_goals
        right
        simp only [ViaLine.Same, Via.levels, viaReadCtrl, Via.port, Via.setPort, Via.c2Ctrl, if_true]
        repeat' split
        all_goals rfl
  · rw [if_neg hddr]
    exact (PinsKept.refl s).toDispatch _

/-- A new output register shows on its own port only. -/
theorem orWrite_toDispatch_a : ToDispatch s ({ s with via := { s.via with
    porta := { s.via.porta with or := val } } },
      if s.via.porta.or ≠ val then some ViaPortData.porta else none) := by
  refine ⟨rfl, rfl, fun line => ?_⟩
  cases line with
  | porta =>
    by_cases hor : s.via.porta.or ≠ val
    · exact .inl (if_pos hor)
    · obtain rfl := Decidable.not_not.mp hor
      exact .inr rfl
  | portb => exact .inr rfl
  | ca2 => exact .inr rfl
  | cb2 => exact .inr rfl

theorem orWrite_toDispatch_b : ToDispatch s ({ s with via := { s.via with
    portb := { s.via.portb with or := val } } },
      if s.via.portb.or ≠ val then some ViaPortData.portb else none) := by
  refine ⟨rfl, rfl, fun line => ?_⟩
  cases line with
  | porta => exact .inr rfl
  | portb =>
    by_cases hor : s.via.portb.or ≠ val
    · exact .inl (if_pos hor)
    · obtain rfl := Decidable.not_not.mp hor
      exact .inr rfl
  | ca2 => exact .inr rfl
  | cb2 => exact .inr rfl

/-- Without a change of the PB7 bit ACR does not show. -/
theorem acr_toDispatch : ToDispatch s ({ s with via := { s.via with acr := val } },
    if s.via.t1Pb7Enabled ≠ Via.t1Pb7Enabled { s.via with acr := val } then some ViaPortData.portb
    else none) := by
  refine ⟨rfl, rfl, fun line => ?_⟩
  cases line with
  | porta => exact .inr rfl
  | portb =>
    by_cases hpb7 : s.via.t1Pb7Enabled ≠ Via.t1Pb7Enabled { s.via with acr := val }
    · exact .inl (if_pos hpb7)
    · right
      show viaReadDataPort s.via false = viaReadDataPort { s.via with acr := val } false
      unfold viaReadDataPort
      rw [Decidable.not_not.mp hpb7]
  | ca2 => exact .inr rfl
  | cb2 => exact .inr rfl

theorem viaWriteReg_toDispatch (reg : ViaReg) (hreg : reg ≠ .pcr) :
    ToDispatch s (viaWriteReg s reg val) := by
  cases reg with
  | ddra => exact viaDdrWrite_toDispatch s val true .porta rfl
  | ddrb => exact viaDdrWrite_toDispatch s val false .portb rfl
  | dataa =>
    unfold viaWriteReg
    dsimp only
    apply ToDispatch.kept _ (mapFlags_pinsKept _ _).ite
    apply ToDispatch.kept _ (viaClearIfr_pinsKept _ _)
    exact orWrite_toDispatch_a s val
  | datab =>
    unfold viaWriteReg
    dsimp only
    apply ToDispatch.kept _ (mapFlags_pinsKept _ _).ite
    apply ToDispatch.kept _ (viaClearIfr_pinsKept _ _)
    exact orWrite_toDispatch_b s val
  | t1cl =>
    refine PinsKept.toDispatch ?_ none
    exact ⟨rfl, rfl, rfl⟩
  | t1ll =>
    refine PinsKept.toDispatch ?_ none
    exact ⟨rfl, rfl, rfl⟩
  | t1ch =>
    have hload : ∀ t1l t1c, PinsKept s { s with via := { s.via with t1l, t1c } } :=
      fun _ _ => ⟨rfl, rfl, rfl⟩
    have hcleared := fun t1l t1c => (hload t1l t1c).trans (viaClearIfr_pinsKept _ IFR_T1)
    unfold viaWriteReg
    dsimp only
    split
    · -- PB7 goes low: port B is told
      apply ToDispatch.kept _ (mapFlags_pinsKept _ _)
      refine ⟨(hcleared _ _).callbacks, (hcleared _ _).notified, fun line => ?_⟩
      cases line with
      | porta => exact .inr (congrArg ViaLevels.porta (hcleared _ _).levels).symm
      | portb => exact .inl rfl
      | ca2 => exact .inr (congrArg ViaLevels.ca2 (hcleared _ _).levels).symm
      | cb2 => exact .inr (congrArg ViaLevels.cb2 (hcleared _ _).levels).symm
    · exact ((hcleared _ _).trans (mapFlags_pinsKept _ _)).toDispatch none
  | t1lh =>
    have hload : ∀ t1l, PinsKept s { s with via := { s.via with t1l } } := fun _ => ⟨rfl, rfl, rfl⟩
    exact ((hload _).trans (viaClearIfr_pinsKept _ IFR_T1)).toDispatch none
  | acr => exact acr_toDispatch s val
  | pcr => exact absurd rfl hreg
  | ier =>
    refine PinsKept.toDispatch ?_ none
    exact ⟨rfl, rfl, rfl⟩
  | ifr => exact (viaClearIfr_pinsKept s _).toDispatch none
  | t2cl => exact (PinsKept.refl s).toDispatch none
  | t2ch => exact (PinsKept.refl s).toDispatch none
  | sr => exact (PinsKept.refl s).toDispatch none
  | da2 => exact (PinsKept.refl s).toDispatch none

end Registers

/-! ## Writes of PCR -/

/-- The level a write of PCR puts on a C2 output, by the mode. -/
def c2Level (ctrl : BitVec 3) : Option Bool :=
  if ctrl = VIA_C2_CTRL_OUTPUT_HANDSAKE ∨ ctrl = VIA_C2_CTRL_OUTPUT_PULSE ∨
      ctrl = VIA_C2_CTRL_OUTPUT_HIGH then some true
  else if ctrl = VIA_C2_CTRL_OUTPUT_LOW then some false
  else none

theorem output_of_c2Level : ∀ (ctrl : BitVec 3) (state : Bool), c2Level ctrl = some state →
    ctrl ≥ VIA_C2_CTRL_OUTPUT_HANDSAKE := by
  decide

/-- The C2 part of a write of PCR, for one port. -/
def c2Write (s : ViaStep) (porta : Bool) : ViaStep :=
  match c2Level (s.via.c2Ctrl porta) with
  | some state => viaWriteC2State s porta state
  | none => s

/-- The state with PCR written, before the C2 lines are. -/
def withPcr (s : ViaStep) (val : BitVec 8) : ViaStep := { s with via := { s.via with pcr := val } }

theorem viaWriteReg_pcr (s : ViaStep) (val : BitVec 8) :
    viaWriteReg s .pcr val = (c2Write (c2Write (withPcr s val) true) false, none) := by
  have hc2 : ∀ (s : ViaStep) (porta : Bool), c2Write s porta =
      if s.via.c2Ctrl porta = VIA_C2_CTRL_OUTPUT_HANDSAKE ∨ s.via.c2Ctrl porta = VIA_C2_CTRL_OUTPUT_PULSE ∨
          s.via.c2Ctrl porta = VIA_C2_CTRL_OUTPUT_HIGH then viaWriteC2State s porta true
      else if s.via.c2Ctrl porta = VIA_C2_CTRL_OUTPUT_LOW then viaWriteC2State s porta false
      else s := by
    intro s porta
    unfold c2Write c2Level
    split
    · rename_i h
      split at h <;> simp_all
    · rename_i h
      split at h <;> simp_all
  rw [hc2, hc2]
  rfl

/-- The mode leaves the output latch of the port as it is. -/
def Via.LatchKept (v : Via) (porta : Bool) : Prop :=
  ∀ state, c2Level (v.c2Ctrl porta) = some state → state = (v.port porta).c2Out

theorem c2Write_of_latchKept {s : ViaStep} {porta : Bool} (h : s.via.LatchKept porta) :
    c2Write s porta = s := by
  unfold c2Write
  split
  · rename_i state hstate
    rw [viaWriteC2State_eq, if_pos (h state hstate)]
  · rfl

/-- Otherwise the latch changes and the callbacks are called. -/
theorem c2Write_of_not_latchKept {s : ViaStep} {porta : Bool} (h : ¬s.via.LatchKept porta) :
    ∃ state, c2Write s porta = viaMakeCallbacks (withC2Out s porta state) .ctrl := by
  unfold Via.LatchKept at h
  obtain ⟨state, hstate⟩ := Classical.not_forall.mp h
  obtain ⟨hlevel, hchanged⟩ := Classical.not_imp.mp hstate
  have houtput := output_of_c2Level _ _ hlevel
  refine ⟨state, ?_⟩
  unfold c2Write
  rw [hlevel]
  show viaWriteC2State s porta state = _
  rw [viaWriteC2State_eq, if_neg hchanged, if_pos houtput]

/-- A write of PCR that shows another level on a C2 line and changes no output latch. -/
def PcrMute (v : Via) (val : BitVec 8) : Prop :=
  (withPcr { via := v } val).via.LatchKept true ∧ (withPcr { via := v } val).via.LatchKept false ∧
    (withPcr { via := v } val).via.levels ≠ v.levels

theorem withPcr_same (s : ViaStep) (val : BitVec 8) (line : ViaLine) :
    line.event = .ctrl ∨ line.Same s.via.levels (withPcr s val).via.levels := by
  cases line with
  | porta => exact .inr rfl
  | portb => exact .inr rfl
  | ca2 => exact .inl rfl
  | cb2 => exact .inl rfl

/-- After PCR is written, a change of a latch tells of every C2 line. -/
theorem told_of_latch (s : ViaStep) (val : BitVec 8) (porta state : Bool) (line : ViaLine) :
    Told line s (viaMakeCallbacks (withC2Out (withPcr s val) porta state) .ctrl) := by
  obtain ⟨hcallbacks, hnotified⟩ := withC2Out_callbacks (withPcr s val) porta state
  refine told_of_notify (hcallbacks.trans rfl) (hnotified.trans rfl) ?_
  rcases withPcr_same s val line with hevent | hsame
  · exact .inl hevent
  · by_cases hline : line = c2Line porta
    · exact .inl (c2Line_event hline)
    · exact .inr (hsame.trans (withC2Out_other _ porta state hline))

theorem c2Write_told (s : ViaStep) (porta : Bool) (line : ViaLine) : Told line s (c2Write s porta) := by
  unfold c2Write
  split
  · exact viaWriteC2State_told s porta _ line
  · exact .refl line s

theorem pcr_told_iff (s : ViaStep) (val : BitVec 8) (hcallbacks : s.via.callbacks ≠ []) :
    (∀ line, Told line s (viaWriteReg s .pcr val).1) ↔ ¬PcrMute s.via val := by
  rw [viaWriteReg_pcr]
  dsimp only
  by_cases ha : (withPcr s val).via.LatchKept true
  · rw [c2Write_of_latchKept ha]
    by_cases hb : (withPcr s val).via.LatchKept false
    · -- nobody is called: the lines must not have changed
      rw [c2Write_of_latchKept hb]
      constructor
      · intro htold hmute
        apply hmute.2.2
        apply ViaLine.eq_of_same
        intro line
        obtain ⟨-, notices, hnotified, hcalls⟩ := htold line
        -- the list of notices has not grown
        have hnone : notices = [] := by
          have hlength := congrArg List.length hnotified
          rw [List.length_append] at hlength
          exact List.eq_nil_of_length_eq_zero (Nat.left_eq_add.mp hlength)
        obtain ⟨callback, hmem⟩ := List.exists_mem_of_ne_nil _ hcallbacks
        by_cases hsame : line.Same s.via.levels (withPcr s val).via.levels
        · exact hsame.symm
        · obtain ⟨n, hn, -⟩ := hcalls hsame callback hmem
          rw [hnone] at hn
          exact absurd hn List.not_mem_nil
      · intro hheard line
        have hlevels : (withPcr s val).via.levels = s.via.levels :=
          Decidable.byContradiction fun h => hheard ⟨ha, hb, h⟩
        exact PinsKept.told ⟨hlevels, rfl, rfl⟩ line
    · -- the latch of CB2 changes
      obtain ⟨state, hstate⟩ := c2Write_of_not_latchKept hb
      rw [hstate]
      exact iff_of_true (told_of_latch s val false state) fun hmute => hb hmute.2.1
  · -- the latch of CA2 changes
    obtain ⟨state, hstate⟩ := c2Write_of_not_latchKept ha
    rw [hstate]
    refine iff_of_true (fun line => ?_) fun hmute => ha hmute.1
    exact (told_of_latch s val true state line).trans (c2Write_told _ false line)

/-! ## Operations and runs -/

/-- The line the operation drives from outside. -/
def ViaOp.drives : ViaOp → Option ViaLine
  | .dataPort porta _ _ => some (if porta then .porta else .portb)
  | .ctrl .ca2 _ => some .ca2
  | .ctrl .cb2 _ => some .cb2
  | _ => none

/-- The callbacks are told of every change of a line that the operation does not drive. -/
def ViaOp.Announced (op : ViaOp) (v : Via) : Prop :=
  ∀ line, op.drives ≠ some line → Told line { via := v } (op.step v)

/-- The operation is a write of PCR of the mute kind. -/
def ViaOp.Mute (op : ViaOp) (v : Via) : Prop :=
  match op with
  | .write reg val => viaReg reg = some .pcr ∧ PcrMute v val
  | _ => False

theorem viaWrite_announced_iff (v : Via) (hcallbacks : v.callbacks ≠ []) (reg val : BitVec 8) :
    ViaOp.Announced (.write reg val) v ↔ ¬ViaOp.Mute (.write reg val) v := by
  have hdrop : ViaOp.Announced (.write reg val) v ↔
      ∀ line, Told line { via := v } (viaWrite v reg val) :=
    forall_congr' fun line => ⟨fun h => h (Option.some_ne_none line).symm, fun h _ => h⟩
  have hmute : ViaOp.Mute (.write reg val) v ↔ viaReg reg = some .pcr ∧ PcrMute v val := Iff.rfl
  rw [hdrop, hmute]
  unfold viaWrite
  cases viaReg reg with
  | none => exact iff_of_true (fun line => .refl line _) fun h => Option.some_ne_none _ h.1.symm
  | some r =>
    by_cases hpcr : r = .pcr
    · subst hpcr
      have hiff := pcr_told_iff { via := v } val hcallbacks
      dsimp only
      rw [viaWriteReg_pcr] at hiff ⊢
      exact hiff.trans (not_congr ⟨fun h => ⟨rfl, h⟩, fun h => h.2⟩)
    · refine iff_of_true (fun line => ?_) fun h => hpcr (Option.some.inj h.1)
      -- any other register: the callbacks are called with the event the switch returns
      have hwrite := viaWriteReg_toDispatch { via := v } val r hpcr
      dsimp only
      split
      · rename_i s port hs
        rw [hs] at hwrite
        apply told_of_notify hwrite.callbacks hwrite.notified
        rcases hwrite.line line with hevent | hsame
        · exact .inl (Option.some.inj hevent).symm
        · exact .inr hsame
      · rename_i s hs
        rw [hs] at hwrite
        apply told_of_same hwrite.callbacks hwrite.notified
        rcases hwrite.line line with hevent | hsame
        · exact absurd hevent.symm (Option.some_ne_none _)
        · exact hsame

theorem viaWriteDataPort_told (v : Via) (porta : Bool) (mask data : BitVec 8) {line : ViaLine}
    (h : some (if porta then ViaLine.porta else .portb) ≠ some line) :
    Told line { via := v } { via := viaWriteDataPort v porta mask data } := by
  unfold viaWriteDataPort
  split
  · exact .refl line _
  · refine told_of_same ?_ ?_ ?_
    · cases porta <;> rfl
    · cases porta <;> rfl
    · cases porta <;> cases line <;> first | exact absurd rfl h | exact rfl | skip
      all_goals
        simp only [ViaLine.Same, Via.levels, viaReadCtrl, Via.port, Via.setPort, Via.c2Ctrl, if_true]
        repeat' split
        all_goals rfl

theorem viaWriteCtrl_told (v : Via) (pin : ViaCtrlPin) (val : Bool) {line : ViaLine}
    (h : ViaOp.drives (.ctrl pin val) ≠ some line) :
    Told line { via := v } (viaWriteCtrl v pin val) := by
  have hedge : ∀ (v' : Via) (porta : Bool), PinsKept { via := v } { via := v' } →
      Told line { via := v } (viaHandleC1Edge { via := v' } porta) := fun v' porta hkept =>
    (hkept.told line).trans ((told_rule line).handshake.c1Edge _ porta)
  unfold viaWriteCtrl
  cases pin with
  | ca1 =>
    dsimp only
    split
    · exact .refl line _
    · exact hedge _ true ⟨rfl, rfl, rfl⟩
  | cb1 =>
    dsimp only
    split
    · exact .refl line _
    · exact hedge _ false ⟨rfl, rfl, rfl⟩
  | ca2 =>
    refine told_of_same rfl rfl ?_
    cases line <;> first | exact absurd rfl h | exact rfl
  | cb2 =>
    refine told_of_same rfl rfl ?_
    cases line <;> first | exact absurd rfl h | exact rfl

/-- Every operation but a mute write of PCR tells of every line it changes. -/
theorem ViaOp.announced_iff (op : ViaOp) (v : Via) (hcallbacks : v.callbacks ≠ []) :
    op.Announced v ↔ ¬op.Mute v := by
  cases op with
  | write reg val => exact viaWrite_announced_iff v hcallbacks reg val
  | read reg =>
    exact iff_of_true (fun line _ => (told_rule line).handshake.read v reg) id
  | dataPort porta mask data =>
    exact iff_of_true (fun line h => viaWriteDataPort_told v porta mask data h) id
  | ctrl pin val => exact iff_of_true (fun line h => viaWriteCtrl_told v pin val h) id
  | clock edge => exact iff_of_true (fun line _ => viaClock_told line v edge) id

/-- Callbacks stay registered. -/
theorem ViaOp.step_callbacks (op : ViaOp) {v : Via} (hcallbacks : v.callbacks ≠ []) :
    (op.step v).via.callbacks = v.callbacks := by
  by_cases hmute : op.Mute v
  · cases op with
    | write reg val =>
      obtain ⟨hreg, ha, hb, -⟩ := hmute
      show (viaWrite v reg val).via.callbacks = _
      unfold viaWrite
      rw [hreg]
      dsimp only
      rw [viaWriteReg_pcr, c2Write_of_latchKept ha, c2Write_of_latchKept hb]
      rfl
    | read reg => exact hmute.elim
    | dataPort porta mask data => exact hmute.elim
    | ctrl pin val => exact hmute.elim
    | clock edge => exact hmute.elim
  · have hannounced := (op.announced_iff v hcallbacks).mpr hmute
    by_cases hporta : op.drives = some .porta
    · exact (hannounced .portb (by rw [hporta]; decide)).callbacks
    · exact (hannounced .porta hporta).callbacks

/-- `P` holds of each operation of a run and the VIA it meets. -/
def ViaOp.EachIn (P : ViaOp → Via → Prop) : List ViaOp → Via → Prop
  | [], _ => True
  | op :: ops, v => P op v ∧ EachIn P ops (op.step v).via

/-- In every run with a callback registered, the callbacks are told of every change that an
operation makes to a line it does not drive, exactly if no operation is a mute write of PCR. -/
theorem via_changes_announced (ops : List ViaOp) (v : Via) (hcallbacks : v.callbacks ≠ []) :
    ViaOp.EachIn ViaOp.Announced ops v ↔ ViaOp.EachIn (fun op v => ¬op.Mute v) ops v := by
  induction ops generalizing v with
  | nil => exact Iff.rfl
  | cons op ops ih =>
    have hnext : (op.step v).via.callbacks ≠ [] := by
      rw [op.step_callbacks hcallbacks]
      exact hcallbacks
    exact and_congr (op.announced_iff v hcallbacks) (ih _ hnext)

instance (v : Via) (porta : Bool) : Decidable (v.LatchKept porta) :=
  inferInstanceAs (Decidable (∀ state, c2Level (v.c2Ctrl porta) = some state →
    state = (v.port porta).c2Out))

instance (v : Via) (val : BitVec 8) : Decidable (PcrMute v val) := instDecidableAnd

instance (op : ViaOp) (v : Via) : Decidable (op.Mute v) :=
  match op with
  | .write _ _ => instDecidableAnd
  | .read _ | .dataPort _ _ _ | .ctrl _ _ | .clock _ => instDecidableFalse

/-- A VIA with one callback. -/
def watchedVia : Via := { viaInit with callbacks := [0] }

/-- CA2 goes high by its mode, and port A shows what is written. -/
theorem via_changes_announced_of_ca2_high :
    ViaOp.EachIn ViaOp.Announced [.write 0x0C 0x0E, .write 0x03 0xFF, .write 0x01 0x55] watchedVia :=
  (via_changes_announced _ watchedVia (by decide)).mpr ⟨by decide, by decide, by decide, trivial⟩

/-- CA2 made a high output and then an input again, which is low: nobody is told. -/
theorem ca2_input_is_mute :
    ¬ ∀ ops v, v.callbacks ≠ [] → ViaOp.EachIn ViaOp.Announced ops v := by
  intro h
  have hannounced := (h [.write 0x0C 0x0E, .write 0x0C 0x00] watchedVia (by decide)).2.1
  exact absurd hannounced ((not_congr (ViaOp.announced_iff _ _ (by decide))).mpr (by decide))

end Cb6502
