import Cb6502.ViaNotify

/- What each operation of a VIA does to its ports.

   What is proved:
     1. `viaClockTick_written` (a clock edge writes the C2 latches, with what is pending, and nothing
        else of a port).
     2. `ViaOp.made` (what each operation makes of a port; ACR and PCR are what was last written
        there). -/
namespace Cb6502

/-! ## What leaves the ports alone -/

/-- The ports, ACR and PCR are as before. -/
structure PortsKept (s s' : ViaStep) : Prop where
  port : ∀ porta, s'.via.port porta = s.via.port porta
  acr : s'.via.acr = s.via.acr
  pcr : s'.via.pcr = s.via.pcr

namespace PortsKept
variable {s s' s'' : ViaStep}

theorem refl (s : ViaStep) : PortsKept s s := ⟨fun _ => rfl, rfl, rfl⟩

theorem trans (h : PortsKept s s') (h' : PortsKept s' s'') : PortsKept s s'' :=
  ⟨fun porta => (h'.port porta).trans (h.port porta), h'.acr.trans h.acr, h'.pcr.trans h.pcr⟩

theorem ite {p : Prop} [Decidable p] (h : PortsKept s s') : PortsKept s (if p then s' else s) := by
  split
  · exact h
  · exact .refl s

variable (s)

theorem mapFlags (f : ViaFlags → ViaFlags) : PortsKept s (s.mapFlags f) := ⟨fun _ => rfl, rfl, rfl⟩

theorem callbacks (event : ViaPortData) : PortsKept s (viaMakeCallbacks s event) :=
  ⟨fun _ => rfl, rfl, rfl⟩

theorem clearIfr (bits : BitVec 8) : PortsKept s (viaClearIfr s bits) := by
  have hvia := viaClearIfr_via s bits
  exact ⟨fun porta => by rw [hvia]; rfl, by rw [hvia], by rw [hvia]⟩

theorem voteIrq (voted : Bool) : PortsKept s (s.voteIrq voted) := by
  have hvia := s.voteIrq_via voted
  exact ⟨fun porta => by rw [hvia], by rw [hvia], by rw [hvia]⟩

theorem setIfr (bits : BitVec 8) : PortsKept s (viaSetIfr s bits) := by
  have hflags : ∀ ifr, PortsKept s { s with via := { s.via with ifr } } :=
    fun _ => ⟨fun _ => rfl, rfl, rfl⟩
  unfold viaSetIfr
  split
  · exact .refl s
  · dsimp only
    split
    · exact (hflags _).trans (voteIrq _ _)
    · exact hflags _

theorem t1Posedge : PortsKept s (viaT1Posedge s) := by
  unfold viaT1Posedge
  split
  · split
    · dsimp only
      apply (setIfr s IFR_T1).trans
      -- PB7 is not a part of the port
      have hpb7 : ∀ s : ViaStep, PortsKept s { s with via := { s.via with t1pb7 := !s.via.t1pb7 } } :=
        fun _ => ⟨fun _ => rfl, rfl, rfl⟩
      apply (hpb7 _).trans
      split
      · split
        · exact callbacks _ _
        · exact (callbacks _ _).trans (mapFlags _ _)
      · split
        · exact .refl _
        · exact mapFlags _ _
    · exact .refl s
  · exact .refl s

theorem t1Negedge : PortsKept s (viaT1Negedge s) := by
  unfold viaT1Negedge
  split
  · split <;> exact ⟨fun _ => rfl, rfl, rfl⟩
  · exact mapFlags s _

end PortsKept

/-! ## The C2 latches -/

/-- The port with its C2 latch written, if there is a level to write. -/
def ViaPortState.withC2 (p : ViaPortState) (state : Option Bool) : ViaPortState :=
  { p with c2Out := state.getD p.c2Out }

theorem ViaPortState.withC2_withC2 (p : ViaPortState) (first last : Option Bool) :
    (p.withC2 first).withC2 last = p.withC2 (last.or first) := by
  cases last <;> rfl

/-- From `s` to `s'` nothing of the ports is written but the C2 latches, with these levels. -/
structure C2Written (levels : Bool → Option Bool) (s s' : ViaStep) : Prop where
  port : ∀ porta, s'.via.port porta = (s.via.port porta).withC2 (levels porta)
  acr : s'.via.acr = s.via.acr
  pcr : s'.via.pcr = s.via.pcr

/-- A level for the latch of one port. -/
def c2Only (porta : Bool) (state : Option Bool) : Bool → Option Bool :=
  fun porta' => if porta' = porta then state else none

@[simp] theorem c2Only_self (porta : Bool) (state : Option Bool) : c2Only porta state porta = state :=
  if_pos rfl

@[simp] theorem c2Only_none (porta : Bool) : c2Only porta none = fun _ => none := by
  funext porta'
  exact ite_self none

section Latches
variable {s s' s'' : ViaStep} {levels levels' : Bool → Option Bool}

theorem PortsKept.written (h : PortsKept s s') : C2Written (fun _ => none) s s' :=
  ⟨h.port, h.acr, h.pcr⟩

/-- The last level counts. -/
theorem C2Written.trans (h : C2Written levels s s') (h' : C2Written levels' s' s'') :
    C2Written (fun porta => (levels' porta).or (levels porta)) s s'' := by
  refine ⟨fun porta => ?_, h'.acr.trans h.acr, h'.pcr.trans h.pcr⟩
  rw [h'.port, h.port, ViaPortState.withC2_withC2]

theorem C2Written.kept (h : C2Written levels s s') (h' : PortsKept s' s'') :
    C2Written levels s s'' :=
  ⟨fun porta => (h'.port porta).trans (h.port porta), h'.acr.trans h.acr, h'.pcr.trans h.pcr⟩

/-- A level that is written in some states only. -/
theorem C2Written.ite {porta : Bool} {state : Option Bool} {p : Prop} [Decidable p]
    (h : C2Written (c2Only porta state) s s') :
    C2Written (c2Only porta (if p then state else none)) s (if p then s' else s) := by
  split
  · exact h
  · rw [c2Only_none]
    exact (PortsKept.refl s).written

theorem viaWriteC2State_written (s : ViaStep) (porta state : Bool) :
    C2Written (c2Only porta (some state)) s (viaWriteC2State s porta state) := by
  have hset : C2Written (c2Only porta (some state)) s (withC2Out s porta state) := by
    refine ⟨fun porta' => ?_, ?_, ?_⟩
    · cases porta <;> cases porta' <;> rfl
    · cases porta <;> rfl
    · cases porta <;> rfl
  rw [viaWriteC2State_eq]
  split
  · -- the latch has the level already
    rename_i hsame
    refine ⟨fun porta' => ?_, rfl, rfl⟩
    by_cases hport : porta' = porta
    · rw [hport, c2Only_self, hsame]
      rfl
    · rw [c2Only, if_neg hport]
      rfl
  · split
    · exact hset.kept (.callbacks _ _)
    · exact hset

theorem c2Write_written (s : ViaStep) (porta : Bool) :
    C2Written (c2Only porta (c2Level (s.via.c2Ctrl porta))) s (c2Write s porta) := by
  unfold c2Write
  split
  · rename_i state hstate
    rw [hstate]
    exact viaWriteC2State_written s porta state
  · rename_i hnone
    rw [hnone, c2Only_none]
    exact (PortsKept.refl s).written

end Latches

/-! ## Clock edges -/

def ViaFlags.trigPend (f : ViaFlags) (porta : Bool) : Bool :=
  if porta then f.ca2TrigPend else f.cb2TrigPend

def ViaFlags.pulsePend (f : ViaFlags) (porta : Bool) : Bool :=
  if porta then f.ca2PulsePend else f.cb2PulsePend

def ViaFlags.setTrigPend (f : ViaFlags) (porta pend : Bool) : ViaFlags :=
  if porta then { f with ca2TrigPend := pend } else { f with cb2TrigPend := pend }

def ViaFlags.setPulsePend (f : ViaFlags) (porta pend : Bool) : ViaFlags :=
  if porta then { f with ca2PulsePend := pend } else { f with cb2PulsePend := pend }

/-- The part of a positive edge that ends a pulse. -/
def endPulse (s : ViaStep) (porta : Bool) : ViaStep :=
  if s.via.flags.pulsePend porta then
    (viaWriteC2State s porta true).mapFlags fun f => f.setPulsePend porta false
  else s

/-- The part of a positive edge that begins a write handshake. -/
def beginWrite (s : ViaStep) (porta : Bool) : ViaStep :=
  if s.via.flags.trigPend porta then
    let s := (viaWriteC2State s porta false).mapFlags fun f => f.setTrigPend porta false
    if s.via.c2Ctrl porta = VIA_C2_CTRL_OUTPUT_PULSE then
      s.mapFlags fun f => f.setPulsePend porta true
    else s
  else s

/-- The part of a negative edge that ends the pulse of a read. -/
def endReadPulse (s : ViaStep) : ViaStep :=
  if s.via.flags.ca2ReadPulsePend then
    if s.via.flags.ca2ReadTrigPend then s.mapFlags fun f => { f with ca2ReadTrigPend := false }
    else (viaWriteC2State s true true).mapFlags fun f => { f with ca2ReadPulsePend := false }
  else s

theorem viaClockTick_posedge (v : Via) : viaClockTick v .posedge = viaT1Posedge
    (beginWrite (beginWrite (endPulse (endPulse { via := v } true) false) true) false) := rfl

theorem viaClockTick_negedge (v : Via) :
    viaClockTick v .negedge = viaT1Negedge (endReadPulse { via := v }) := rfl

/-- The level that is put on a C2 latch at the next edge, if any. -/
def Via.pendingLevel (v : Via) (edge : ClockEdge) (porta : Bool) : Option Bool :=
  match edge with
  | .posedge =>
    if v.flags.trigPend porta then some false
    else if v.flags.pulsePend porta then some true
    else none
  | .negedge =>
    if porta && v.flags.ca2ReadPulsePend && !v.flags.ca2ReadTrigPend then some true else none

section Edges
variable (s : ViaStep) (porta : Bool)

theorem endPulse_written : C2Written
    (c2Only porta (if s.via.flags.pulsePend porta then some true else none)) s (endPulse s porta) :=
  ((viaWriteC2State_written s porta true).kept (.mapFlags _ _)).ite

theorem beginWrite_written : C2Written
    (c2Only porta (if s.via.flags.trigPend porta then some false else none)) s
    (beginWrite s porta) := by
  apply C2Written.ite
  have hwritten := (viaWriteC2State_written s porta false).kept
    (.mapFlags _ fun f => f.setTrigPend porta false)
  dsimp only
  split
  · exact hwritten.kept (.mapFlags _ _)
  · exact hwritten

/-- The end of a pulse leaves the write handshakes pending, and the pulse of the other port. -/
theorem endPulse_flags : (∀ porta', (endPulse s porta).via.flags.trigPend porta' =
      s.via.flags.trigPend porta') ∧
    (endPulse s porta).via.flags.pulsePend (!porta) = s.via.flags.pulsePend (!porta) := by
  have hflags := (viaWriteC2State_frame s porta true).2.2.1
  unfold endPulse
  split
  · unfold ViaStep.mapFlags
    rw [hflags]
    refine ⟨fun porta' => ?_, ?_⟩
    · cases porta <;> cases porta' <;> rfl
    · cases porta <;> rfl
  · exact ⟨fun _ => rfl, rfl⟩

theorem beginWrite_flags :
    (beginWrite s porta).via.flags.trigPend (!porta) = s.via.flags.trigPend (!porta) := by
  have hflags := (viaWriteC2State_frame s porta false).2.2.1
  unfold beginWrite
  split
  · dsimp only
    unfold ViaStep.mapFlags
    rw [hflags]
    split <;> cases porta <;> rfl
  · rfl

theorem endReadPulse_written : C2Written
    (c2Only true (if s.via.flags.ca2ReadPulsePend then
      if s.via.flags.ca2ReadTrigPend then none else some true else none)) s (endReadPulse s) := by
  apply C2Written.ite
  split
  · rw [c2Only_none]
    exact (PortsKept.mapFlags s _).written
  · exact (viaWriteC2State_written s true true).kept (.mapFlags _ _)

end Edges

/-- A write handshake that begins at a positive edge comes after the end of a pulse. -/
theorem pendingLevel_posedge (v : Via) (porta : Bool) : v.pendingLevel .posedge porta =
    Option.or (if v.flags.trigPend porta then some false else none)
      (if v.flags.pulsePend porta then some true else none) := by
  unfold Via.pendingLevel
  dsimp only
  split
  · rfl
  · rw [Option.none_or]

theorem pendingLevel_negedge (v : Via) : v.pendingLevel .negedge = c2Only true
    (if v.flags.ca2ReadPulsePend then if v.flags.ca2ReadTrigPend then none else some true
      else none) := by
  funext porta
  cases porta with
  | true =>
    rw [c2Only_self]
    unfold Via.pendingLevel
    cases v.flags.ca2ReadPulsePend <;> cases v.flags.ca2ReadTrigPend <;> rfl
  | false => rfl

/-- The four parts of a positive edge. -/
theorem posedge_written (v : Via) : C2Written (v.pendingLevel .posedge) { via := v }
    (beginWrite (beginWrite (endPulse (endPulse { via := v } true) false) true) false) := by
  have h1 := endPulse_written { via := v } true
  obtain ⟨htrig, hpulse⟩ := endPulse_flags { via := v } true
  generalize endPulse { via := v } true = s1 at h1 htrig hpulse ⊢
  have h2 := h1.trans (endPulse_written s1 false)
  have htrig' := (endPulse_flags s1 false).1
  generalize endPulse s1 false = s2 at h2 htrig' ⊢
  have h3 := h2.trans (beginWrite_written s2 true)
  have hbegin := beginWrite_flags s2 true
  generalize beginWrite s2 true = s3 at h3 hbegin ⊢
  have h4 := h3.trans (beginWrite_written s3 false)
  -- what a part finds pending was pending before the edge
  have hpulseb : s1.via.flags.pulsePend false = v.flags.pulsePend false := hpulse
  have htriga : s2.via.flags.trigPend true = v.flags.trigPend true :=
    (htrig' true).trans (htrig true)
  have htrigb : s3.via.flags.trigPend false = v.flags.trigPend false :=
    hbegin.trans ((htrig' false).trans (htrig false))
  rw [hpulseb, htriga, htrigb] at h4
  refine ⟨fun porta => ?_, h4.acr, h4.pcr⟩
  rw [h4.port porta, pendingLevel_posedge]
  apply congrArg
  cases porta with
  | true => rfl
  | false =>
    show Option.or _ (Option.or none (Option.or _ none)) = _
    rw [Option.none_or, Option.or_none]
    rfl

/-- A clock edge writes what is pending, and nothing else of the ports. -/
theorem viaClockTick_written (v : Via) (edge : ClockEdge) :
    C2Written (v.pendingLevel edge) { via := v } (viaClockTick v edge) := by
  cases edge with
  | posedge =>
    rw [viaClockTick_posedge]
    exact (posedge_written v).kept (.t1Posedge _)
  | negedge =>
    rw [viaClockTick_negedge, pendingLevel_negedge]
    exact (endReadPulse_written { via := v }).kept (.t1Negedge _)

/-! ## Operations -/

def dataReg (porta : Bool) : ViaReg := if porta then .dataa else .datab
def ddrReg (porta : Bool) : ViaReg := if porta then .ddra else .ddrb
def c1Pin (porta : Bool) : ViaCtrlPin := if porta then .ca1 else .cb1
def c2Pin (porta : Bool) : ViaCtrlPin := if porta then .ca2 else .cb2

/-- `pa_latch` or `pb_latch`. -/
def Via.latch (v : Via) (porta : Bool) : Bool := if porta then v.paLatch else v.pbLatch

namespace ViaPortState
variable (p : ViaPortState)

/-- The port after a write of its direction register. `merge` is whether pins that turn to inputs
are latched. -/
def turned (merge : Bool) (val : BitVec 8) : ViaPortState :=
  { p with
    ir := if merge then mergeBits p.pinIn p.ir ((p.ddr ^^^ val) &&& ~~~val) else p.ir
    ddr := val }

/-- The port with its pins driven. -/
def driven (latch : Bool) (mask data : BitVec 8) : ViaPortState :=
  if mask = 0 then p
  else
    let pinIn := mergeBits data p.pinIn mask
    { p with pinIn, ir := if latch then p.ir else pinIn }

/-- The port after its C1 pin is driven; `active` is the level after the edge it waits for. -/
def c1Driven (latch active handshake val : Bool) : ViaPortState :=
  if val = p.c1In then p
  else if val = active then
    { p with
      c1In := val
      ir := if latch then p.pinIn else p.ir
      c2Out := if handshake then true else p.c2Out }
  else { p with c1In := val }

end ViaPortState

/-- What a write of a register makes of a port. -/
def Via.portWritten (v : Via) (reg : ViaReg) (val : BitVec 8) (porta : Bool) : ViaPortState :=
  let p := v.port porta
  if reg = ddrReg porta then p.turned v.paLatch val
  else if reg = dataReg porta then { p with or := val }
  else if reg = .pcr then p.withC2 (c2Level (Via.c2Ctrl { v with pcr := val } porta))
  else p

/-- What an operation makes of a port. -/
def ViaOp.portAfter (op : ViaOp) (v : Via) (porta : Bool) : ViaPortState :=
  let p := v.port porta
  match op with
  | .write reg val => ((viaReg reg).map fun reg => v.portWritten reg val porta).getD p
  | .read reg =>
    if viaReg reg = some .dataa ∧ porta ∧ viaIsHandshakeOutput v porta then p.withC2 (some false)
    else p
  | .dataPort porta' mask data => if porta' = porta then p.driven (v.latch porta) mask data else p
  | .ctrl pin val =>
    if pin = c1Pin porta then
      p.c1Driven (v.latch porta) (v.c1Ctrl porta) (v.c2Ctrl porta = VIA_C2_CTRL_OUTPUT_HANDSAKE) val
    else if pin = c2Pin porta then { p with c2In := val }
    else p
  | .clock edge => p.withC2 (v.pendingLevel edge porta)

theorem ViaOp.portAfter_write {reg : BitVec 8} {r : ViaReg} (hreg : viaReg reg = some r) (v : Via)
    (val : BitVec 8) (porta : Bool) :
    ViaOp.portAfter (.write reg val) v porta = v.portWritten r val porta := by
  unfold ViaOp.portAfter
  dsimp only
  rw [hreg]
  rfl

theorem ViaOp.portAfter_write_none {reg : BitVec 8} (hreg : viaReg reg = none) (v : Via)
    (val : BitVec 8) (porta : Bool) : ViaOp.portAfter (.write reg val) v porta = v.port porta := by
  unfold ViaOp.portAfter
  dsimp only
  rw [hreg]
  rfl

/-- ACR after an operation. -/
def ViaOp.acrAfter (op : ViaOp) (acr : BitVec 8) : BitVec 8 :=
  match op with
  | .write reg val => if viaReg reg = some .acr then val else acr
  | _ => acr

/-- PCR after an operation. -/
def ViaOp.pcrAfter (op : ViaOp) (pcr : BitVec 8) : BitVec 8 :=
  match op with
  | .write reg val => if viaReg reg = some .pcr then val else pcr
  | _ => pcr

/-- The state after an operation that finds `v`, as far as the ports are concerned. -/
structure ViaOp.Made (op : ViaOp) (v : Via) (s : ViaStep) : Prop where
  port : ∀ porta, s.via.port porta = op.portAfter v porta
  acr : s.via.acr = op.acrAfter v.acr
  pcr : s.via.pcr = op.pcrAfter v.pcr

section Operations
variable {op : ViaOp} {v : Via} {s s' : ViaStep}

theorem ViaOp.Made.kept (h : op.Made v s) (h' : PortsKept s s') : op.Made v s' :=
  ⟨fun porta => (h'.port porta).trans (h.port porta), h'.acr.trans h.acr, h'.pcr.trans h.pcr⟩

theorem Via.port_setPort (v : Via) (porta : Bool) (p : ViaPortState) (porta' : Bool) :
    (v.setPort porta p).port porta' = if porta' = porta then p else v.port porta' := by
  cases porta <;> cases porta' <;> rfl

/-- A change of direction of no pin latches nothing. -/
theorem ViaPortState.turned_self (p : ViaPortState) (merge : Bool) : p.turned merge p.ddr = p := by
  have hnone : mergeBits p.pinIn p.ir ((p.ddr ^^^ p.ddr) &&& ~~~p.ddr) = p.ir := by
    unfold mergeBits
    rw [BitVec.xor_self, BitVec.zero_and, BitVec.and_zero, BitVec.zero_or]
    exact BitVec.and_allOnes
  unfold ViaPortState.turned
  rw [hnone, ite_self]

theorem viaDdrWrite_port (s : ViaStep) (porta : Bool) (val : BitVec 8) :
    (viaDdrWrite s porta val).1.via.port porta = (s.via.port porta).turned s.via.paLatch val ∧
      (viaDdrWrite s porta val).1.via.port (!porta) = s.via.port (!porta) ∧
      (viaDdrWrite s porta val).1.via.acr = s.via.acr ∧
      (viaDdrWrite s porta val).1.via.pcr = s.via.pcr := by
  unfold viaDdrWrite
  dsimp only
  by_cases hddr : (s.via.port porta).ddr ≠ val
  · rw [if_pos hddr]
    unfold ViaPortState.turned
    cases s.via.paLatch <;> cases porta <;> exact ⟨rfl, rfl, rfl, rfl⟩
  · rw [if_neg hddr, ← Decidable.not_not.mp hddr, ViaPortState.turned_self]
    exact ⟨rfl, rfl, rfl, rfl⟩

/-- The event that the switch of `via_write` asks for. -/
theorem dispatch_kept (r : ViaStep × Option ViaPortData) : PortsKept r.1
    (match r with
    | (s, some port) => viaMakeCallbacks s port
    | (s, none) => s) := by
  obtain ⟨s, event⟩ := r
  cases event with
  | none => exact .refl s
  | some port => exact .callbacks s port

/-- The registers whose writes do not reach a port. -/
def ViaReg.inner : ViaReg → Bool
  | .ddra | .ddrb | .dataa | .datab | .acr | .pcr => false
  | _ => true

theorem viaWriteReg_inner (s : ViaStep) {r : ViaReg} (hinner : r.inner = true) (val : BitVec 8) :
    PortsKept s (viaWriteReg s r val).1 := by
  have hlatch : ∀ t1l t1c ier, PortsKept s { s with via := { s.via with t1l, t1c, ier } } :=
    fun _ _ _ => ⟨fun _ => rfl, rfl, rfl⟩
  cases r with
  | t1cl | t1ll => exact hlatch _ _ s.via.ier
  | ier => exact hlatch s.via.t1l s.via.t1c _
  | t1lh => exact (hlatch _ _ s.via.ier).trans (.clearIfr _ _)
  | ifr => exact .clearIfr s _
  | t1ch =>
    have hloaded := fun t1l => (hlatch t1l t1l s.via.ier).trans (.clearIfr _ IFR_T1)
    unfold viaWriteReg
    dsimp only
    split
    · -- PB7 goes low
      have hlow : ∀ s : ViaStep, PortsKept s { s with via := { s.via with t1pb7 := false } } :=
        fun _ => ⟨fun _ => rfl, rfl, rfl⟩
      exact ((hloaded _).trans (hlow _)).trans (.mapFlags _ _)
    · exact (hloaded _).trans (.mapFlags _ _)
  | t2cl | t2ch | sr | da2 => exact .refl s
  | ddra | ddrb | dataa | datab | acr | pcr => exact Bool.noConfusion hinner

/-- A register that was written, as far as the ports are concerned. -/
structure Via.Written (v : Via) (reg : ViaReg) (val : BitVec 8) (s : ViaStep) : Prop where
  port : ∀ porta, s.via.port porta = v.portWritten reg val porta
  acr : s.via.acr = if reg = .acr then val else v.acr
  pcr : s.via.pcr = if reg = .pcr then val else v.pcr

theorem viaWriteReg_written (v : Via) (reg : ViaReg) (val : BitVec 8) :
    v.Written reg val (viaWriteReg { via := v } reg val).1 := by
  have hddr := fun porta => viaDdrWrite_port { via := v } porta val
  cases hreg : reg with
  | ddra =>
    obtain ⟨hport, hother, hacr, hpcr⟩ := hddr true
    refine ⟨fun porta => ?_, hacr, hpcr⟩
    cases porta with
    | true => exact hport
    | false => exact hother
  | ddrb =>
    obtain ⟨hport, hother, hacr, hpcr⟩ := hddr false
    refine ⟨fun porta => ?_, hacr, hpcr⟩
    cases porta with
    | true => exact hother
    | false => exact hport
  | dataa =>
    have hkept : PortsKept { via := { v with porta := { v.porta with or := val } } }
        (viaWriteReg { via := v } .dataa val).1 :=
      (PortsKept.clearIfr _ _).trans (PortsKept.mapFlags _ _).ite
    refine ⟨fun porta => (hkept.port porta).trans ?_, hkept.acr, hkept.pcr⟩
    cases porta <;> rfl
  | datab =>
    have hkept : PortsKept { via := { v with portb := { v.portb with or := val } } }
        (viaWriteReg { via := v } .datab val).1 :=
      (PortsKept.clearIfr _ _).trans (PortsKept.mapFlags _ _).ite
    refine ⟨fun porta => (hkept.port porta).trans ?_, hkept.acr, hkept.pcr⟩
    cases porta <;> rfl
  | acr => exact ⟨fun porta => by cases porta <;> rfl, rfl, rfl⟩
  | pcr =>
    have ha := c2Write_written (withPcr { via := v } val) true
    have hb := c2Write_written (c2Write (withPcr { via := v } val) true) false
    rw [viaWriteReg_pcr]
    refine ⟨fun porta => ?_, hb.acr.trans ha.acr, hb.pcr.trans ha.pcr⟩
    have hctrl := c2Ctrl_congr ha.pcr false
    rw [hb.port, ha.port, hctrl]
    cases porta <;> rfl
  | t1cl | t1ch | t1ll | t1lh | t2cl | t2ch | sr | ifr | ier | da2 =>
    have hkept := viaWriteReg_inner { via := v } (r := reg) (by rw [hreg]; rfl) val
    rw [hreg] at hkept
    refine ⟨fun porta => (hkept.port porta).trans ?_, hkept.acr, hkept.pcr⟩
    cases porta <;> rfl

theorem viaWrite_made (v : Via) (reg val : BitVec 8) :
    ViaOp.Made (.write reg val) v (viaWrite v reg val) := by
  unfold viaWrite
  cases hreg : viaReg reg with
  | none =>
    refine ⟨fun porta => ?_, ?_, ?_⟩
    · rw [ViaOp.portAfter_write_none hreg]
    · simp only [ViaOp.acrAfter, hreg, reduceCtorEq, if_false]
    · simp only [ViaOp.pcrAfter, hreg, reduceCtorEq, if_false]
  | some r =>
    apply ViaOp.Made.kept _ (dispatch_kept _)
    have hwritten := viaWriteReg_written v r val
    refine ⟨fun porta => ?_, ?_, ?_⟩
    · rw [ViaOp.portAfter_write hreg, hwritten.port]
    · simp only [ViaOp.acrAfter, hreg, Option.some.injEq, hwritten.acr]
    · simp only [ViaOp.pcrAfter, hreg, Option.some.injEq, hwritten.pcr]

theorem readHandshake_written (s : ViaStep) : C2Written
    (c2Only true (if viaIsHandshakeOutput s.via true then some false else none)) s
    (readHandshake s) := by
  have hwritten := viaWriteC2State_written s true false
  apply C2Written.ite
  dsimp only
  split
  · exact hwritten.kept (.mapFlags _ _)
  · exact hwritten

/-- A read of port A, the only one that reaches a port. -/
theorem viaReadDataa_made {reg : BitVec 8} (hreg : viaReg reg = some .dataa) (v : Via) :
    ViaOp.Made (.read reg) v (readHandshake (viaClearIfr { via := v } IFR_CA1)) := by
  have hcleared := PortsKept.clearIfr { via := v } IFR_CA1
  have hread := readHandshake_written (viaClearIfr { via := v } IFR_CA1)
  have hmode : viaIsHandshakeOutput (viaClearIfr { via := v } IFR_CA1).via true =
      viaIsHandshakeOutput v true := by
    unfold viaIsHandshakeOutput
    rw [c2Ctrl_congr hcleared.pcr]
  refine ⟨fun porta => ?_, hread.acr.trans hcleared.acr, hread.pcr.trans hcleared.pcr⟩
  rw [hread.port, hcleared.port, hmode]
  unfold ViaOp.portAfter
  dsimp only
  cases porta with
  | true =>
    rw [c2Only_self, hreg]
    cases viaIsHandshakeOutput v true <;> rfl
  | false => exact (if_neg fun h => Bool.noConfusion h.2.1).symm

theorem viaRead_made (v : Via) (reg : BitVec 8) : ViaOp.Made (.read reg) v (viaRead v reg).2 := by
  have hother : ∀ s, PortsKept { via := v } s → viaReg reg ≠ some .dataa →
      ViaOp.Made (.read reg) v s := by
    intro s hkept hreg
    refine ⟨fun porta => ?_, hkept.acr, hkept.pcr⟩
    rw [hkept.port]
    exact (if_neg fun h => hreg h.1).symm
  unfold viaRead
  cases hreg : viaReg reg with
  | none => exact hother _ (.refl _) (by rw [hreg]; decide)
  | some r =>
    dsimp only
    rw [viaReadReg_step]
    cases r with
    | dataa => exact viaReadDataa_made hreg v
    | datab => exact hother _ (.clearIfr _ _) (by rw [hreg]; decide)
    | t1cl => exact hother _ (.clearIfr _ _) (by rw [hreg]; decide)
    | ddra | ddrb | t1ch | t1ll | t1lh | t2cl | t2ch | sr | acr | pcr | ifr | ier | da2 =>
      exact hother _ (.refl _) (by rw [hreg]; decide)

/-- The state with the input register of the port latched, where latching is on. -/
def c1Latched (s : ViaStep) (porta : Bool) : ViaStep :=
  if s.via.latch porta then
    { s with via := s.via.setPort porta { s.via.port porta with ir := (s.via.port porta).pinIn } }
  else s

theorem c1Latched_port (s : ViaStep) (porta : Bool) :
    (c1Latched s porta).via.port porta = { s.via.port porta with
        ir := if s.via.latch porta then (s.via.port porta).pinIn else (s.via.port porta).ir } ∧
      (c1Latched s porta).via.port (!porta) = s.via.port (!porta) ∧
      (c1Latched s porta).via.acr = s.via.acr ∧ (c1Latched s porta).via.pcr = s.via.pcr := by
  unfold c1Latched
  split <;> cases porta <;> exact ⟨rfl, rfl, rfl, rfl⟩

/-- The edge that a C1 pin waits for: the latch, the flag, and the end of a handshake. -/
theorem viaHandleC1Edge_written {s : ViaStep} {porta : Bool}
    (h : (s.via.port porta).c1In = s.via.c1Ctrl porta) : C2Written
      (c2Only porta (if s.via.c2Ctrl porta = VIA_C2_CTRL_OUTPUT_HANDSAKE then some true else none))
      (c1Latched s porta) (viaHandleC1Edge s porta) := by
  have hset := PortsKept.setIfr (c1Latched s porta) (if porta then IFR_CA1 else IFR_CB1)
  have hedge : viaHandleC1Edge s porta =
      if (viaSetIfr (c1Latched s porta) (if porta then IFR_CA1 else IFR_CB1)).via.c2Ctrl porta =
        VIA_C2_CTRL_OUTPUT_HANDSAKE
      then viaWriteC2State (viaSetIfr (c1Latched s porta) (if porta then IFR_CA1 else IFR_CB1)) porta
        true
      else viaSetIfr (c1Latched s porta) (if porta then IFR_CA1 else IFR_CB1) := if_pos h
  have hctrl := c2Ctrl_congr (hset.pcr.trans (c1Latched_port s porta).2.2.2) porta
  rw [hedge, hctrl]
  generalize viaSetIfr (c1Latched s porta) (if porta then IFR_CA1 else IFR_CB1) = s' at hset ⊢
  have hwritten := (viaWriteC2State_written s' porta true).ite
    (p := s.via.c2Ctrl porta = VIA_C2_CTRL_OUTPUT_HANDSAKE)
  exact ⟨fun porta' => by rw [hwritten.port, hset.port], hwritten.acr.trans hset.acr,
    hwritten.pcr.trans hset.pcr⟩

theorem viaHandleC1Edge_port (s : ViaStep) (porta : Bool) :
    (viaHandleC1Edge s porta).via.port porta =
        (if (s.via.port porta).c1In = s.via.c1Ctrl porta then
          ((c1Latched s porta).via.port porta).withC2
            (if s.via.c2Ctrl porta = VIA_C2_CTRL_OUTPUT_HANDSAKE then some true else none)
        else s.via.port porta) ∧
      (viaHandleC1Edge s porta).via.port (!porta) = s.via.port (!porta) ∧
      (viaHandleC1Edge s porta).via.acr = s.via.acr ∧
      (viaHandleC1Edge s porta).via.pcr = s.via.pcr := by
  obtain ⟨-, hother, hacr, hpcr⟩ := c1Latched_port s porta
  split
  · rename_i hactive
    have hwritten := viaHandleC1Edge_written hactive
    refine ⟨?_, ?_, hwritten.acr.trans hacr, hwritten.pcr.trans hpcr⟩
    · rw [hwritten.port, c2Only_self]
    · rw [hwritten.port, hother]
      cases porta <;> rfl
  · rename_i hactive
    have hidle : viaHandleC1Edge s porta = s := if_neg hactive
    rw [hidle]
    exact ⟨rfl, rfl, rfl, rfl⟩

theorem latch_congr {v v' : Via} (h : v'.acr = v.acr) (porta : Bool) : v'.latch porta = v.latch porta := by
  unfold Via.latch Via.paLatch Via.pbLatch
  rw [h]

theorem c1Ctrl_congr {v v' : Via} (h : v'.pcr = v.pcr) (porta : Bool) :
    v'.c1Ctrl porta = v.c1Ctrl porta := by
  unfold Via.c1Ctrl
  rw [h]

/-- A C1 pin that has been driven to another level. -/
structure C1Changed (v : Via) (porta val : Bool) (v' : Via) : Prop where
  edge : val ≠ (v.port porta).c1In
  port : v'.port porta = { v.port porta with c1In := val }
  other : v'.port (!porta) = v.port (!porta)
  acr : v'.acr = v.acr
  pcr : v'.pcr = v.pcr

theorem C1Changed.made {v v' : Via} {porta val : Bool} (h : C1Changed v porta val v') :
    ViaOp.Made (.ctrl (c1Pin porta) val) v (viaHandleC1Edge { via := v' } porta) := by
  obtain ⟨hport, hother, hacr, hpcr⟩ := viaHandleC1Edge_port { via := v' } porta
  refine ⟨fun porta' => ?_, hacr.trans h.acr, hpcr.trans h.pcr⟩
  by_cases heq : porta' = porta
  · rw [heq, hport]
    have hafter : ViaOp.portAfter (.ctrl (c1Pin porta) val) v porta =
        (v.port porta).c1Driven (v.latch porta) (v.c1Ctrl porta)
          (v.c2Ctrl porta = VIA_C2_CTRL_OUTPUT_HANDSAKE) val := if_pos rfl
    rw [hafter, (c1Latched_port _ porta).1]
    dsimp only
    rw [h.port, latch_congr h.acr, c1Ctrl_congr h.pcr, c2Ctrl_congr h.pcr]
    unfold ViaPortState.c1Driven
    rw [if_neg h.edge]
    dsimp only
    split
    · by_cases hshake : v.c2Ctrl porta = VIA_C2_CTRL_OUTPUT_HANDSAKE
      · rw [if_pos hshake, decide_eq_true hshake]
        rfl
      · rw [if_neg hshake, decide_eq_false hshake]
        rfl
    · rfl
  · rw [Bool.eq_not.mpr heq, hother]
    exact h.other.trans (by cases porta <;> rfl)

theorem viaWriteCtrl_made (v : Via) (pin : ViaCtrlPin) (val : Bool) :
    ViaOp.Made (.ctrl pin val) v (viaWriteCtrl v pin val) := by
  have hsame : ∀ porta, val = (v.port porta).c1In →
      ViaOp.Made (.ctrl (c1Pin porta) val) v { via := v } := by
    intro porta heq
    refine ⟨fun porta' => ?_, rfl, rfl⟩
    cases porta <;> cases porta' <;> first | exact (if_pos heq).symm | rfl
  unfold viaWriteCtrl
  cases pin with
  | ca1 =>
    dsimp only
    split
    · rename_i heq
      exact hsame true heq
    · rename_i hne
      have hchanged : C1Changed v true val { v with porta := { v.porta with c1In := val } } :=
        ⟨hne, rfl, rfl, rfl, rfl⟩
      exact hchanged.made
  | cb1 =>
    dsimp only
    split
    · rename_i heq
      exact hsame false heq
    · rename_i hne
      have hchanged : C1Changed v false val { v with portb := { v.portb with c1In := val } } :=
        ⟨hne, rfl, rfl, rfl, rfl⟩
      exact hchanged.made
  | ca2 => exact ⟨fun porta => by cases porta <;> rfl, rfl, rfl⟩
  | cb2 => exact ⟨fun porta => by cases porta <;> rfl, rfl, rfl⟩

theorem viaWriteDataPort_made (v : Via) (porta : Bool) (mask data : BitVec 8) :
    ViaOp.Made (.dataPort porta mask data) v { via := viaWriteDataPort v porta mask data } := by
  unfold viaWriteDataPort
  dsimp only
  split
  · rename_i hmask
    refine ⟨fun porta' => ?_, rfl, rfl⟩
    cases porta <;> cases porta' <;> first | rfl | exact (if_pos hmask).symm
  · rename_i hmask
    refine ⟨fun porta' => ?_, ?_, ?_⟩
    · rw [Via.port_setPort]
      by_cases hport : porta' = porta
      · have hafter : ViaOp.portAfter (.dataPort porta mask data) v porta =
            (v.port porta).driven (v.latch porta) mask data := if_pos rfl
        rw [if_pos hport, hport, hafter, ViaPortState.driven, if_neg hmask]
        show (if v.latch porta = true then _ else _) = _
        cases v.latch porta <;> rfl
      · rw [if_neg hport]
        exact (if_neg fun h => hport h.symm).symm
    · cases porta <;> rfl
    · cases porta <;> rfl

theorem ViaOp.made (op : ViaOp) (v : Via) : op.Made v (op.step v) := by
  cases op with
  | write reg val => exact viaWrite_made v reg val
  | read reg => exact viaRead_made v reg
  | dataPort porta mask data => exact viaWriteDataPort_made v porta mask data
  | ctrl pin val => exact viaWriteCtrl_made v pin val
  | clock edge =>
    have hwritten := viaClockTick_written v edge
    exact ⟨hwritten.port, hwritten.acr, hwritten.pcr⟩

end Operations

end Cb6502
