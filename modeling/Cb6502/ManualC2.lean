import Cb6502.ViaPorts
import Cb6502.Lib.Steps

/- The manual output modes of CA2 and CB2.

   PCR can fix a C2 line low or high. The write of PCR puts the line there at once, and no other
   register access or edge of a pin moves it. What a handshake or a pulse has left pending is
   put on the line at the next clock edge all the same: `via_clock_tick` does not look at the
   mode.

   What is proved: `manual_c2_held_iff` (in a run the lines are always at the level that PCR
   fixes, exactly if each clock edge finds nothing pending against that level). -/
namespace Cb6502

/-- The level at which a mode fixes a C2 line: "output low" or "output high". -/
def manualLevel (ctrl : BitVec 3) : Option Bool :=
  if ctrl = VIA_C2_CTRL_OUTPUT_LOW then some false
  else if ctrl = VIA_C2_CTRL_OUTPUT_HIGH then some true
  else none

/-- Each C2 line that PCR fixes is reported at its level. -/
def Via.ManualHeld (v : Via) : Prop :=
  ∀ porta level, manualLevel (v.c2Ctrl porta) = some level → viaReadCtrl v (c2Pin porta) = level

/-- A clock edge finds nothing pending that would move a C2 line from the level that PCR fixes.
At a positive edge that is a write handshake while the line is fixed high, and the end of a
pulse, with no write handshake after it, while it is fixed low; at a negative edge the end of
the pulse of a read while CA2 is fixed low. -/
def ViaOp.InMode (op : ViaOp) (v : Via) : Prop :=
  match op with
  | .clock edge => ∀ porta level pending, manualLevel (v.c2Ctrl porta) = some level →
      v.pendingLevel edge porta = some pending → pending = level
  | _ => True

/-- A fixed line shows its output latch. -/
theorem viaReadCtrl_manual {v : Via} {porta level : Bool}
    (h : manualLevel (v.c2Ctrl porta) = some level) :
    viaReadCtrl v (c2Pin porta) = (v.port porta).c2Out := by
  have houtput : ∀ ctrl level, manualLevel ctrl = some level → ¬ctrl < VIA_C2_CTRL_OUTPUT_HANDSAKE := by
    decide
  cases porta <;> exact if_neg (houtput _ _ h)

theorem Via.manualHeld_iff (v : Via) : v.ManualHeld ↔
    ∀ porta level, manualLevel (v.c2Ctrl porta) = some level → (v.port porta).c2Out = level :=
  forall_congr' fun _ => forall_congr' fun _ => forall_congr' fun h => by rw [viaReadCtrl_manual h]

/-- A write of PCR puts each line at the level that the new mode fixes. -/
theorem c2Level_of_manual : ∀ (ctrl : BitVec 3) (level : Bool), manualLevel ctrl = some level →
    c2Level ctrl = some level := by
  decide

/-- In a manual mode there is no handshake. -/
theorem not_handshake_of_manual {v : Via} {porta level : Bool}
    (h : manualLevel (v.c2Ctrl porta) = some level) :
    v.c2Ctrl porta ≠ VIA_C2_CTRL_OUTPUT_HANDSAKE ∧ viaIsHandshakeOutput v porta = false := by
  unfold viaIsHandshakeOutput
  revert h
  generalize v.c2Ctrl porta = ctrl
  revert ctrl level
  decide

section Steps
variable {v : Via} {porta level : Bool}

theorem ViaPortState.c1Driven_c2Out (p : ViaPortState) (latch active val : Bool) :
    (p.c1Driven latch active false val).c2Out = p.c2Out := by
  unfold ViaPortState.c1Driven
  split
  · rfl
  · split <;> rfl

theorem ViaPortState.driven_c2Out (p : ViaPortState) (latch : Bool) (mask data : BitVec 8) :
    (p.driven latch mask data).c2Out = p.c2Out := by
  unfold ViaPortState.driven
  split <;> rfl

/-- A write of another register leaves the latch as it is. -/
theorem portWritten_c2Out {reg : ViaReg} (hreg : reg ≠ .pcr) (val : BitVec 8) :
    (v.portWritten reg val porta).c2Out = (v.port porta).c2Out := by
  unfold Via.portWritten
  dsimp only
  rw [if_neg hreg]
  split
  · rfl
  · split <;> rfl

/-- Register accesses and pins leave the latch of a fixed line as it is. -/
theorem portAfter_c2Out (h : manualLevel (v.c2Ctrl porta) = some level) {op : ViaOp}
    (hpcr : ∀ reg val, op = .write reg val → viaReg reg ≠ some .pcr)
    (hclock : ∀ edge, op ≠ .clock edge) :
    (op.portAfter v porta).c2Out = (v.port porta).c2Out := by
  obtain ⟨hmode, hshake⟩ := not_handshake_of_manual h
  cases op with
  | write reg val =>
    cases hreg : viaReg reg with
    | none => rw [ViaOp.portAfter_write_none hreg]
    | some r =>
      rw [ViaOp.portAfter_write hreg]
      exact portWritten_c2Out (fun hr => hpcr reg val rfl (by rw [hreg, hr])) val
  | read reg =>
    have hafter : ViaOp.portAfter (.read reg) v porta = v.port porta := by
      refine if_neg fun hread => ?_
      rw [hshake] at hread
      exact Bool.noConfusion hread.2.2
    rw [hafter]
  | dataPort porta' mask data =>
    unfold ViaOp.portAfter
    dsimp only
    split
    · exact ViaPortState.driven_c2Out _ _ _ _
    · rfl
  | ctrl pin val =>
    unfold ViaOp.portAfter
    dsimp only
    split
    · rw [decide_eq_false hmode]
      exact ViaPortState.c1Driven_c2Out _ _ _ _
    · split <;> rfl
  | clock edge => exact absurd rfl (hclock edge)

/-- What is pending decides the levels after a clock edge. -/
theorem clock_held_iff (hheld : v.ManualHeld) (edge : ClockEdge) :
    ((ViaOp.clock edge).step v).via.ManualHeld ↔ (ViaOp.clock edge).InMode v := by
  have hmade := ViaOp.made (.clock edge) v
  have hctrl := fun porta => c2Ctrl_congr hmade.pcr porta
  rw [Via.manualHeld_iff] at hheld ⊢
  refine forall_congr' fun porta => forall_congr' fun level => ?_
  rw [hmade.port, hctrl]
  have hlatch : (ViaOp.portAfter (.clock edge) v porta).c2Out =
      (v.pendingLevel edge porta).getD (v.port porta).c2Out := rfl
  rw [hlatch]
  constructor
  · intro hafter pending hmanual hpending
    have hlevel := hafter hmanual
    rw [hpending] at hlevel
    exact hlevel
  · intro hmode hmanual
    cases hpending : v.pendingLevel edge porta with
    | none => exact hheld porta level hmanual
    | some pending => exact hmode pending hmanual hpending

theorem pcr_held {reg : BitVec 8} (hreg : viaReg reg = some .pcr) (v : Via) (val : BitVec 8) :
    ((ViaOp.write reg val).step v).via.ManualHeld := by
  have hmade := ViaOp.made (.write reg val) v
  have hpcr : ((ViaOp.write reg val).step v).via.pcr = val := hmade.pcr.trans (if_pos hreg)
  rw [Via.manualHeld_iff]
  intro porta level hmanual
  have hctrl := c2Ctrl_congr (v := { v with pcr := val }) hpcr porta
  rw [hctrl] at hmanual
  have hafter : ViaOp.portAfter (.write reg val) v porta =
      (v.port porta).withC2 (c2Level (Via.c2Ctrl { v with pcr := val } porta)) := by
    rw [ViaOp.portAfter_write hreg]
    cases porta <;> rfl
  rw [hmade.port, hafter, c2Level_of_manual _ _ hmanual]
  rfl

theorem ViaOp.held_iff (op : ViaOp) (hheld : v.ManualHeld) :
    (op.step v).via.ManualHeld ↔ op.InMode v := by
  by_cases hclock : ∃ edge, op = .clock edge
  · obtain ⟨edge, rfl⟩ := hclock
    exact clock_held_iff hheld edge
  · have hmode : op.InMode v := by
      cases op with
      | clock edge => exact absurd ⟨edge, rfl⟩ hclock
      | write reg val => trivial
      | read reg => trivial
      | dataPort porta mask data => trivial
      | ctrl pin val => trivial
    refine iff_of_true ?_ hmode
    by_cases hpcr : ∃ reg val, op = .write reg val ∧ viaReg reg = some .pcr
    · obtain ⟨reg, val, rfl, hreg⟩ := hpcr
      exact pcr_held hreg v val
    · -- no other operation writes PCR or a fixed latch
      have hmade := op.made v
      have hsame : (op.step v).via.pcr = v.pcr := by
        rw [hmade.pcr]
        cases op with
        | write reg val => exact if_neg fun h => hpcr ⟨reg, val, rfl, h⟩
        | read reg => rfl
        | dataPort porta mask data => rfl
        | ctrl pin val => rfl
        | clock edge => rfl
      rw [Via.manualHeld_iff] at hheld ⊢
      intro porta level hmanual
      rw [c2Ctrl_congr hsame] at hmanual
      rw [hmade.port, portAfter_c2Out hmanual (fun reg val h hreg => hpcr ⟨reg, val, h, hreg⟩)
        fun edge h => hclock ⟨edge, h⟩]
      exact hheld porta level hmanual

end Steps

/-- In every run of a VIA, wherever it is on the bus and whoever listens to it, the C2 lines that
PCR fixes are at their levels in every state, exactly if each clock edge finds nothing pending
against them. -/
theorem manual_c2_held_iff (busHandle : Option Nat) (voter : BitVec 32) (base : BitVec 16)
    (callbacks : List Nat) (ops : List ViaOp) :
    Steps.Always (fun v (op : ViaOp) => (op.step v).via) Via.ManualHeld
        { viaInit with busHandle, voter, base, callbacks } ops ↔
      Steps.Each (fun v (op : ViaOp) => (op.step v).via) (fun v op => op.InMode v)
        { viaInit with busHandle, voter, base, callbacks } ops := by
  apply Steps.always_iff (J := fun _ => True) (fun _ _ _ => trivial) ?_ trivial ?_
  · exact fun v op _ hheld => op.held_iff hheld
  · -- PCR is zero at first: both lines are inputs
    intro porta level hmanual
    have hinput : ∀ porta, manualLevel (viaInit.c2Ctrl porta) = none := by decide
    exact (Option.some_ne_none level (hmanual.symm.trans (hinput porta))).elim

/-- A write to port A in handshake mode, and "output high" before the clock edge: CA2 is reported
low. -/
theorem pending_handshake_lowers_ca2 : ¬∀ ops : List ViaOp,
    Steps.Always (fun v (op : ViaOp) => (op.step v).via) Via.ManualHeld viaInit ops := by
  intro h
  have hlast := (h [.write 0x0C 0x08, .write 0x01 0x55, .write 0x0C 0x0E, .clock .posedge]).2.2.2.2
  exact absurd (hlast true true (by decide)) (by decide)

end Cb6502
