import Cb6502.ViaHandshake

/- The read handshake of the VIA's port A, between a peripheral and a program: the four-phase handshake
   with the parties the other way round. The peripheral puts a byte on the pins when C2 is low, announces
   it with the active edge of C1, and takes the edge back; the program reads the data register when it
   finds the flag of C1 set. Everything else may happen in between, and the input may be latched or not.

   What is proved:
     1. `viaRead_handshake` (a read answers on C2 and clears the flag).
     2. `Feed.On.step` (every move is steps of the four-phase handshake).
     3. `read_handshake_delivers` (in every interleaving the bytes read are the bytes put, in order, up to
        the one under way; and what the flag announces is that one). -/
namespace Cb6502

open FourPhase (Channel Conserves)

/-! ## What leaves the input alone -/

/-- The port has the same lines, and its pins show the same. -/
structure ViaPortState.SameInput (p p' : ViaPortState) : Prop where
  ir : p'.ir = p.ir
  pinIn : p'.pinIn = p.pinIn
  ddr : p'.ddr = p.ddr
  c2 : p'.c2Out = p.c2Out

theorem ViaPortState.SameInput.refl (p : ViaPortState) : p.SameInput p := ⟨rfl, rfl, rfl, rfl⟩

/-- The operation does not drive the pins of port A. -/
def ViaOp.SparesPins : ViaOp → Prop
  | .dataPort porta _ _ => porta = false
  | _ => True

/-- The operation does not switch the latch of port A. -/
def ViaOp.KeepsLatch (v : Via) : ViaOp → Prop
  | .write reg val => viaReg reg = some .acr → acrLatch val true = v.paLatch
  | _ => True

instance : (op : ViaOp) → Decidable op.SparesPins
  | .dataPort porta _ _ => inferInstanceAs (Decidable (porta = false))
  | .write _ _ | .read _ | .ctrl _ _ | .clock _ => .isTrue trivial

instance (v : Via) : (op : ViaOp) → Decidable (op.KeepsLatch v)
  | .write reg val => inferInstanceAs (Decidable (viaReg reg = some .acr → acrLatch val true = v.paLatch))
  | .read _ | .dataPort _ _ _ | .ctrl _ _ | .clock _ => .isTrue trivial

theorem ViaOp.Leaves.input {op : ViaOp} (h : op.Leaves true) (hpins : op.SparesPins) (v : Via)
    (hc2 : ∀ edge, op = .clock edge → v.pendingLevel edge true = none) :
    (v.port true).SameInput (op.portAfter v true) := by
  cases op with
  | write reg val =>
    obtain ⟨hdata, hddr, hpcr, -⟩ := h
    cases hreg : viaReg reg with
    | none =>
      rw [ViaOp.portAfter_write_none hreg]
      exact .refl _
    | some r =>
      rw [hreg, ne_eq, Option.some.injEq] at hdata hddr hpcr
      rw [ViaOp.portAfter_write hreg, portWritten_other hdata hddr hpcr]
      exact .refl _
  | read reg =>
    have hother : ¬(viaReg reg = some .dataa ∧ true ∧ viaIsHandshakeOutput v true) :=
      fun hread => h ⟨rfl, hread.1⟩
    rw [ViaOp.portAfter, if_neg hother]
    exact .refl _
  | dataPort porta mask data =>
    obtain rfl : porta = false := hpins
    exact .refl _
  | ctrl pin val =>
    rw [ViaOp.portAfter, if_neg h]
    split
    · exact ⟨rfl, rfl, rfl, rfl⟩
    · exact .refl _
  | clock edge =>
    rw [ViaOp.portAfter, hc2 edge rfl]
    exact .refl _

theorem ViaOp.KeepsLatch.paLatch {v : Via} {op : ViaOp} (h : op.KeepsLatch v) :
    (op.step v).via.paLatch = v.paLatch := by
  unfold Via.paLatch
  rw [(op.made v).acr]
  cases op with
  | write reg val =>
    rw [ViaOp.acrAfter]
    split
    · rename_i hacr
      exact h hacr
    · rfl
  | read _ | dataPort _ _ _ | ctrl _ _ | clock _ => rfl

/-- A read of port A in handshake mode. -/
theorem viaRead_handshake {v : Via} (h : v.c2Ctrl true = VIA_C2_CTRL_OUTPUT_HANDSAKE) :
    (viaRead v (dataNum true)).2.via.flags = v.flags ∧
      (viaRead v (dataNum true)).2.via.c1Flag true = false := by
  have hread : (viaRead v (dataNum true)).2 = readHandshake (viaClearIfr { via := v } IFR_CA1) := rfl
  have hclear := viaClearIfr_via { via := v } IFR_CA1
  have hcleared : (viaClearIfr { via := v } IFR_CA1).via.flags = v.flags ∧
      (viaClearIfr { via := v } IFR_CA1).via.c1Flag true = false := by
    unfold Via.c1Flag
    rw [hclear]
    exact ⟨rfl, clearedIfr_cleared _ _ (by decide) (by decide)⟩
  obtain ⟨hifr, hpcr, hflags, -⟩ := viaWriteC2State_frame (viaClearIfr { via := v } IFR_CA1) true false
  have hmode : ¬(viaWriteC2State (viaClearIfr { via := v } IFR_CA1) true false).via.c2Ctrl true =
      VIA_C2_CTRL_OUTPUT_PULSE := by
    have hsame : (viaClearIfr { via := v } IFR_CA1).via.pcr = v.pcr := by rw [hclear]
    rw [c2Ctrl_congr (hpcr.trans hsame), h]
    decide
  rw [hread, readHandshake]
  dsimp only
  rw [if_neg hmode]
  split
  · refine ⟨hflags.trans hcleared.1, ?_⟩
    unfold Via.c1Flag at hcleared ⊢
    rw [hifr]
    exact hcleared.2
  · exact hcleared

/-! ## The two parties -/

/-- The VIA and the peripheral, with the bytes that the peripheral put and the program read; `put` is
whether the last one is not announced yet. -/
structure Feed where
  via : Via
  put : Bool := false
  sent : List (BitVec 8) := []
  got : List (BitVec 8) := []

/-- A move of the peripheral, of the program (a read of the data register), or of whoever else. -/
inductive FeedMove where
  | put (val : BitVec 8)
  | announce
  | release
  | read
  | other (op : ViaOp)
  deriving DecidableEq

def Feed.step (s : Feed) : FeedMove → Feed
  | .put val =>
    { s with via := viaWriteDataPort s.via true 0xFF val, put := true, sent := s.sent ++ [val] }
  | .announce => { s with via := (viaWriteCtrl s.via (c1Pin true) (s.via.c1Ctrl true)).via, put := false }
  | .release => { s with via := (viaWriteCtrl s.via (c1Pin true) (!s.via.c1Ctrl true)).via }
  | .read =>
    { s with via := (viaRead s.via (dataNum true)).2.via, got := s.got ++ [(viaRead s.via (dataNum true)).1] }
  | .other op => { s with via := (op.step s.via).via }

/-- The rules of the handshake. The peripheral puts a byte when C2 is low, and the first one at any time;
the program goes by the flag. The latch is not switched under a byte that is not announced. -/
def Feed.May (s : Feed) : FeedMove → Prop
  | .put _ => s.put = false ∧ (viaReadCtrl s.via (c2Pin true) = false ∨ s.sent = [])
  | .announce => s.put = true ∧ (s.via.port true).c1In = !s.via.c1Ctrl true
  | .release => (s.via.port true).c1In = s.via.c1Ctrl true
  | .read => s.via.c1Flag true = true
  | .other op => op.Leaves true ∧ op.SparesPins ∧ (s.put = true → op.KeepsLatch s.via)

instance (s : Feed) (m : FeedMove) : Decidable (s.May m) := by
  cases m <;> unfold Feed.May <;> infer_instance

def Feed.run (s : Feed) (moves : List FeedMove) : Feed := moves.foldl Feed.step s

/-- The moves follow the rules, each in the state that it finds. -/
def Feed.Plays (s : Feed) (moves : List FeedMove) : Prop := Steps.Each Feed.step Feed.May s moves

/-- Set up for a read handshake, with nothing pending and no byte announced. -/
structure ViaReceives (v : Via) : Prop where
  mode : v.c2Ctrl true = VIA_C2_CTRL_OUTPUT_HANDSAKE
  input : (v.port true).ddr = 0
  shake : v.flags.shake true = ⟨false, false, false⟩
  flag : v.c1Flag true = false

/-- The VIA shows the channel: C2 is the acknowledge, the flag the request. -/
structure ViaFed (v : Via) (c : Channel (BitVec 8)) : Prop where
  mode : v.c2Ctrl true = VIA_C2_CTRL_OUTPUT_HANDSAKE
  input : (v.port true).ddr = 0
  shake : v.flags.shake true = ⟨false, false, false⟩
  c2 : (v.port true).c2Out = !c.acking
  flag : v.c1Flag true = true → ∃ a, c.stage = .offered a
  posted : ∀ a, c.stage = .posted a → (v.port true).pinIn = a ∧ (v.paLatch = false → (v.port true).ir = a)
  offered : ∀ a, c.stage = .offered a → (v.port true).ir = a

/-- The state shows the channel. The peripheral is told by C2. -/
structure Feed.On (s : Feed) (c : Channel (BitVec 8)) : Prop where
  via : ViaFed s.via c
  put : s.put = c.stage.isPosted
  ready : c.ready = (c.acking && !c.stage.isPosted)
  up : ∀ a, c.stage = .offered a → c.acking = false
  sent : s.sent = c.sent
  got : s.got = c.received

section Parties
variable {v : Via} {s : Feed} {c : Channel (BitVec 8)}

/-- What the peripheral sees on C2. -/
theorem ViaFed.readCtrl (h : ViaFed v c) : viaReadCtrl v (c2Pin true) = !c.acking := by
  have hout : ¬v.c2Ctrl true < VIA_C2_CTRL_OUTPUT_HANDSAKE := by
    rw [h.mode]
    decide
  rw [← h.c2]
  exact if_neg hout

/-- What the program reads. -/
theorem ViaFed.readData (h : ViaFed v c) : (viaRead v (dataNum true)).1 = (v.port true).ir := by
  have hzero : ∀ x y : BitVec 8, mergeBits x y 0 = y := by
    intro x y
    have hnone : x &&& (0 : BitVec 8) = 0#8 := BitVec.and_zero
    have hall : y &&& ~~~(0 : BitVec 8) = y := BitVec.and_allOnes
    rw [mergeBits, hnone, hall, BitVec.zero_or]
  have hread : (viaRead v (dataNum true)).1 =
      mergeBits (v.port true).or (v.port true).ir (v.port true).ddr := viaRead_data v true
  rw [hread, h.input, hzero]

/-- Nobody has announced anything: the channel with the byte posted. -/
theorem ViaFed.put (h : ViaFed v c) (hidle : c.stage = .idle) (val : BitVec 8) {ready : Bool}
    {sent : List (BitVec 8)} :
    ViaFed (viaWriteDataPort v true 0xFF val) { c with stage := .posted val, ready, sent } := by
  have hmade := viaWriteDataPort_made v true 0xFF val
  have hport := hmade.port true
  have hall : mergeBits val (v.port true).pinIn 0xFF = val := by
    have hone : val &&& (0xFF : BitVec 8) = val := BitVec.and_allOnes
    have hzero : (v.port true).pinIn &&& ~~~(0xFF : BitVec 8) = 0#8 := BitVec.and_zero
    rw [mergeBits, hone, hzero, BitVec.or_zero]
  rw [ViaOp.portAfter, if_pos rfl, ViaPortState.driven, if_neg (by decide), hall] at hport
  have haside : Aside true { via := v } { via := viaWriteDataPort v true 0xFF val } := .setPort _ true _
  have hlatch : (viaWriteDataPort v true 0xFF val).paLatch = v.paLatch := rfl
  refine ⟨h.mode, ?_, haside.shake.trans h.shake, ?_, fun hflag => ?_, ?_, fun a ha => ?_⟩
  · rw [hport]
    exact h.input
  · rw [hport]
    exact h.c2
  · obtain ⟨a, ha⟩ := h.flag (haside.flag hflag)
    rw [hidle] at ha
    cases ha
  · rintro a ⟨⟩
    rw [hport, hlatch]
    exact ⟨rfl, fun hopen => if_neg (by rw [show v.latch true = v.paLatch from rfl, hopen]; decide)⟩
  · cases ha

/-- The active edge of C1 sets the flag, takes C2 up and latches what is on the pins. -/
theorem ViaFed.announce (h : ViaFed v c) {a : BitVec 8} (hposted : c.stage = .posted a)
    (hc1 : (v.port true).c1In = !v.c1Ctrl true) :
    ViaFed (viaWriteCtrl v (c1Pin true) (v.c1Ctrl true)).via
      { c with stage := .offered a, acking := false } := by
  obtain ⟨hshake, -⟩ := c1Edge_active hc1
  obtain ⟨hpins, hopen⟩ := h.posted a hposted
  have hmade := viaWriteCtrl_made v (c1Pin true) (v.c1Ctrl true)
  have hpcr : (viaWriteCtrl v (c1Pin true) (v.c1Ctrl true)).via.pcr = v.pcr := hmade.pcr
  have hport := hmade.port true
  rw [ViaOp.portAfter, if_pos rfl, ViaPortState.c1Driven,
    if_neg (by rw [hc1]; exact (Bool.not_ne_self _).symm), if_pos rfl, decide_eq_true h.mode] at hport
  refine ⟨(c2Ctrl_congr hpcr true).trans h.mode, ?_, hshake.trans h.shake, ?_, fun _ => ⟨a, rfl⟩,
    fun b hb => ?_, ?_⟩
  · rw [hport]
    exact h.input
  · rw [hport]
    rfl
  · cases hb
  · rintro b ⟨⟩
    rw [hport]
    show (if v.paLatch then (v.port true).pinIn else (v.port true).ir) = a
    split
    · exact hpins
    · rename_i hlatch
      exact hopen (Bool.eq_false_iff.mpr hlatch)

/-- An operation that leaves the handshake and the pins alone. -/
theorem ViaFed.aside (h : ViaFed v c) {s' : ViaStep} (haside : Aside true { via := v } s')
    (hpcr : s'.via.pcr = v.pcr) (hinput : (v.port true).SameInput (s'.via.port true))
    (hlatch : c.stage.isPosted = true → s'.via.paLatch = v.paLatch) : ViaFed s'.via c := by
  refine ⟨(c2Ctrl_congr hpcr true).trans h.mode, hinput.ddr.trans h.input, haside.shake.trans h.shake,
    hinput.c2.trans h.c2, fun hflag => h.flag (haside.flag hflag), fun a ha => ?_, fun a ha => ?_⟩
  · rw [hinput.pinIn, hinput.ir, hlatch (by rw [ha]; rfl)]
    exact h.posted a ha
  · rw [hinput.ir]
    exact h.offered a ha

theorem ViaFed.release (h : ViaFed v c) (hc1 : (v.port true).c1In = v.c1Ctrl true) :
    ViaFed (viaWriteCtrl v (c1Pin true) (!v.c1Ctrl true)).via c := by
  have hmade := viaWriteCtrl_made v (c1Pin true) (!v.c1Ctrl true)
  have hport := hmade.port true
  rw [ViaOp.portAfter, if_pos rfl, ViaPortState.c1Driven, if_neg (by rw [hc1]; exact Bool.not_ne_self _),
    if_neg (Bool.not_ne_self _)] at hport
  have hinput : (v.port true).SameInput ((viaWriteCtrl v (c1Pin true) (!v.c1Ctrl true)).via.port true) := by
    rw [hport]
    exact ⟨rfl, rfl, rfl, rfl⟩
  refine h.aside (c1Edge_idle hc1) hmade.pcr hinput fun _ => ?_
  unfold Via.paLatch
  rw [hmade.acr]
  rfl

/-- The program takes the byte that is announced, and acknowledges it on C2. -/
theorem ViaFed.read (h : ViaFed v c) {ready : Bool} {received : List (BitVec 8)} :
    ViaFed (viaRead v (dataNum true)).2.via
      { c with stage := .idle, acking := true, ready, received } := by
  obtain ⟨hflags, hflag⟩ := viaRead_handshake h.mode
  have hmade := viaRead_made v (dataNum true)
  have hpcr : (viaRead v (dataNum true)).2.via.pcr = v.pcr := hmade.pcr
  have hout : viaIsHandshakeOutput v true = true := by
    unfold viaIsHandshakeOutput
    rw [h.mode]
    decide
  have hport : (viaRead v (dataNum true)).2.via.port true = { v.port true with c2Out := false } := by
    rw [hmade.port true, ViaOp.portAfter, if_pos ⟨rfl, rfl, hout⟩]
    rfl
  refine ⟨(c2Ctrl_congr hpcr true).trans h.mode, ?_, ?_, ?_, fun hset => ?_, fun a ha => ?_, fun a ha => ?_⟩
  · rw [hport]
    exact h.input
  · rw [hflags]
    exact h.shake
  · rw [hport]
    rfl
  · rw [hflag] at hset
    cases hset
  · cases ha
  · cases ha

/-- Each move that follows the rules is made of steps of the four-phase handshake. -/
theorem Feed.On.step (h : s.On c) (hc : Conserves c) {m : FeedMove} (hmay : s.May m) :
    ∃ c', Relation.ReflTransGen FourPhase.Step c c' ∧ (s.step m).On c' := by
  cases m with
  | put val =>
    obtain ⟨hunput, htold⟩ := hmay
    rw [h.put] at hunput
    have hsend : c.ready = true ∨ c.sent = [] := by
      rcases htold with hlow | hfirst
      · rw [h.via.readCtrl, Bool.not_eq_false'] at hlow
        exact .inl (by rw [h.ready, hlow, hunput]; rfl)
      · exact .inr (h.sent.symm.trans hfirst)
    refine ⟨_, .single (.send val hsend), h.via.put (hc.idle hsend) val, rfl, ?_, fun a ha => ?_, ?_, h.got⟩
    · exact (Bool.and_false _).symm
    · cases ha
    · exact congrArg (· ++ [val]) h.sent
  | announce =>
    obtain ⟨hput, hc1⟩ := hmay
    rw [h.put] at hput
    obtain ⟨a, hposted⟩ := FourPhase.Stage.eq_posted hput
    have hready : c.ready = false := by rw [h.ready, hput, Bool.not_true, Bool.and_false]
    have hon : (s.step .announce).On { c with stage := .offered a, acking := false } :=
      ⟨h.via.announce hposted hc1, rfl, hready, fun _ _ => rfl, h.sent, h.got⟩
    refine ⟨_, ?_, hon⟩
    cases hacking : c.acking with
    | true => exact .tail (.single (.raise hposted)) (.release hacking)
    | false =>
      have hraised : { c with stage := .offered a, acking := false } = { c with stage := .offered a } := by
        rw [← hacking]
      rw [hraised]
      exact .single (.raise hposted)
  | release =>
    exact ⟨c, .refl, h.via.release hmay, h.put, h.ready, h.up, h.sent, h.got⟩
  | read =>
    obtain ⟨a, hoffered⟩ := h.via.flag hmay
    have hvalue : (viaRead s.via (dataNum true)).1 = a := by
      rw [h.via.readData, h.via.offered a hoffered]
    refine ⟨_, .tail (.single (.accept hoffered (h.up a hoffered))) (.acknowledge rfl), h.via.read, ?_, rfl,
      fun b hb => ?_, h.sent, ?_⟩
    · show s.put = false
      rw [h.put, hoffered]
      rfl
    · cases hb
    · show s.got ++ [(viaRead s.via (dataNum true)).1] = c.received ++ [a]
      rw [hvalue, h.got]
  | other op =>
    obtain ⟨hop, hpins, hlatch⟩ := hmay
    have haside := hop.aside h.via.mode h.via.shake fun _ => rfl
    have hinput : (s.via.port true).SameInput ((op.step s.via).via.port true) := by
      rw [(op.made s.via).port true]
      exact hop.input hpins s.via fun edge _ => pendingLevel_none h.via.shake fun _ => rfl
    have hpcr : (op.step s.via).via.pcr = s.via.pcr := (op.made s.via).pcr.trans (hop.pcr s.via.pcr)
    refine ⟨c, .refl, h.via.aside haside hpcr hinput fun hposted => ?_, h.put, h.ready, h.up, h.sent, h.got⟩
    exact (hlatch (h.put.trans hposted)).paLatch

theorem Feed.On.run (h : s.On c) (hc : Conserves c) {moves : List FeedMove} (hplays : s.Plays moves) :
    ∃ c', (s.run moves).On c' ∧ Conserves c' := by
  induction moves generalizing s c with
  | nil => exact ⟨c, h, hc⟩
  | cons m moves ih =>
    obtain ⟨hmay, hrest⟩ := hplays
    obtain ⟨c', hsteps, hon⟩ := h.step hc hmay
    exact ih hon (hc.run hsteps) hrest

theorem ViaReceives.on (h : ViaReceives v) :
    Feed.On { via := v } { acking := !(v.port true).c2Out, ready := !(v.port true).c2Out } := by
  refine ⟨⟨h.mode, h.input, h.shake, (Bool.not_not _).symm, fun hflag => ?_, fun a ha => ?_, fun a ha => ?_⟩,
    rfl, (Bool.and_true _).symm, fun a ha => ?_, rfl, rfl⟩
  · rw [h.flag] at hflag
    cases hflag
  · cases ha
  · cases ha
  · cases ha

/-! ## Delivery -/

/-- A move of the peripheral that puts nothing, or a read of the program. -/
def FeedMove.serves : FeedMove → Bool
  | .announce | .release | .read => true
  | .put _ | .other _ => false

/-- Without further bytes, all of them come to be read. -/
def Feed.Drains (s : Feed) : Prop :=
  ∃ moves, (∀ m ∈ moves, m.serves = true) ∧ s.Plays moves ∧ (s.run moves).got = s.sent

theorem Feed.Drains.after {m : FeedMove} (hserves : m.serves = true) (hmay : s.May m)
    (h : (s.step m).Drains) : s.Drains := by
  obtain ⟨moves, hall, hplays, hgot⟩ := h
  refine ⟨m :: moves, ?_, ⟨hmay, hplays⟩, ?_⟩
  · intro m' hm'
    rcases List.mem_cons.mp hm' with rfl | hm'
    · exact hserves
    · exact hall m' hm'
  · have hsent : (s.step m).sent = s.sent := by
      cases m with
      | announce | release | read => rfl
      | put _ | other _ => exact Bool.noConfusion hserves
    exact hgot.trans hsent

/-- A byte that is announced is the next one to be read. -/
theorem Feed.On.announced (h : s.On c) (hc : Conserves c) (hflag : s.via.c1Flag true = true) :
    s.sent = s.got ++ [(viaRead s.via (dataNum true)).1] := by
  obtain ⟨a, hoffered⟩ := h.via.flag hflag
  have hbalance := hc.balance
  rw [hoffered] at hbalance
  rw [h.sent, h.got, h.via.readData, h.via.offered a hoffered]
  exact hbalance

theorem Feed.On.drains_announced (h : s.On c) (hc : Conserves c) (hflag : s.via.c1Flag true = true) :
    s.Drains := by
  refine ⟨[.read], ?_, ⟨hflag, trivial⟩, (h.announced hc hflag).symm⟩
  intro m hm
  rw [List.mem_singleton.mp hm]
  rfl

/-- A byte that is put is announced with C1 ready for it. -/
theorem Feed.On.drains_put (h : s.On c) (hc : Conserves c) (hput : s.put = true)
    (hc1 : (s.via.port true).c1In = !s.via.c1Ctrl true) : s.Drains := by
  have hmay : s.May .announce := ⟨hput, hc1⟩
  obtain ⟨c', hsteps, hon⟩ := h.step hc hmay
  have hset : (s.step .announce).via.c1Flag true = true := (c1Edge_active hc1).2
  exact .after rfl hmay (hon.drains_announced (hc.run hsteps) hset)

theorem Feed.On.drains (h : s.On c) (hc : Conserves c) (hbusy : s.put = true ∨ s.via.c1Flag true = true) :
    s.Drains := by
  rcases hbusy with hput | hflag
  · by_cases hc1 : (s.via.port true).c1In = s.via.c1Ctrl true
    · -- C1 goes back first
      have hmay : s.May .release := hc1
      obtain ⟨c', hsteps, hon⟩ := h.step hc hmay
      have hmade := viaWriteCtrl_made s.via (c1Pin true) (!s.via.c1Ctrl true)
      have hback : ((s.step .release).via.port true).c1In = !(s.step .release).via.c1Ctrl true := by
        show ((viaWriteCtrl s.via (c1Pin true) (!s.via.c1Ctrl true)).via.port true).c1In = _
        rw [hmade.port true, ViaOp.portAfter, if_pos rfl, ViaPortState.c1Driven,
          if_neg (by rw [hc1]; exact Bool.not_ne_self _), if_neg (Bool.not_ne_self _)]
        exact congrArg (!·) (c1Ctrl_congr hmade.pcr true).symm
      have hstill : (s.step .release).put = true := hput
      exact .after rfl hmay (hon.drains_put (hc.run hsteps) hstill hback)
    · refine h.drains_put hc hput ?_
      cases hlevel : s.via.c1Ctrl true <;> rw [hlevel] at hc1 <;> simpa using hc1
  · exact h.drains_announced hc hflag

end Parties

/-- The read handshake delivers. From a port that is set up for it, in every interleaving of the
peripheral, the program and whatever leaves the port alone, with the input latched or not: the bytes read
are those that the peripheral put, in order, none lost and none twice, up to one under way; where the
flag is set there is one, and a read gives it; where C2 is low and nothing new is on the pins there is
none; and one that waits to be announced or read comes to be read by the two parties alone. -/
theorem read_handshake_delivers {v : Via} (h : ViaReceives v) {moves : List FeedMove}
    (hplays : Feed.Plays { via := v } moves) :
    ((Feed.run { via := v } moves).got = (Feed.run { via := v } moves).sent ∨
      ∃ byte, (Feed.run { via := v } moves).sent = (Feed.run { via := v } moves).got ++ [byte]) ∧
    ((Feed.run { via := v } moves).via.c1Flag true = true →
      (Feed.run { via := v } moves).sent = (Feed.run { via := v } moves).got ++
        [(viaRead (Feed.run { via := v } moves).via (dataNum true)).1]) ∧
    ((Feed.run { via := v } moves).put = false →
      viaReadCtrl (Feed.run { via := v } moves).via (c2Pin true) = false →
        (Feed.run { via := v } moves).got = (Feed.run { via := v } moves).sent) ∧
    ((Feed.run { via := v } moves).put = true ∨ (Feed.run { via := v } moves).via.c1Flag true = true →
      (Feed.run { via := v } moves).Drains) := by
  have hstart : Conserves ({ acking := !(v.port true).c2Out, ready := !(v.port true).c2Out } :
      Channel (BitVec 8)) :=
    ⟨rfl, fun _ => rfl, fun hbusy => absurd rfl hbusy, fun hacc => by cases hacc⟩
  obtain ⟨c, hon, hc⟩ := h.on.run hstart hplays
  refine ⟨?_, hon.announced hc, fun hunput hlow => ?_, hon.drains hc⟩
  · rw [hon.sent, hon.got]
    exact hc.received_or
  · rw [hon.via.readCtrl, Bool.not_eq_false'] at hlow
    rw [hon.put] at hunput
    rw [hon.sent, hon.got]
    exact hc.received_of_ready (by rw [hon.ready, hlow, hunput]; rfl)

/-- A VIA after the program has set it up: port A an input that is latched, its C2 line in handshake
mode. -/
def feedVia : Via := (viaWrite (viaWrite viaInit 11 0x01).via 12 0x09).via

/-- Two bytes, the second put while C1 is still active, with a clock edge and a read of port B between. -/
def twoFeeds : List FeedMove :=
  [.put 0x41, .announce, .other (.clock .posedge), .read, .put 0x42, .other (.read 0), .release, .announce]

theorem read_handshake_delivers_of_two :
    (Feed.run { via := feedVia } twoFeeds).got = [0x41] ∧
    (Feed.run { via := feedVia } twoFeeds).sent = (Feed.run { via := feedVia } twoFeeds).got ++
      [(viaRead (Feed.run { via := feedVia } twoFeeds).via (dataNum true)).1] := by
  have hready : ViaReceives feedVia := by
    constructor <;> decide
  have hplays : Feed.Plays { via := feedVia } twoFeeds := by
    refine ⟨?_, ?_, ?_, ?_, ?_, ?_, ?_, ?_, trivial⟩ <;> decide
  exact ⟨by decide, (read_handshake_delivers hready hplays).2.1 (by decide)⟩

end Cb6502
