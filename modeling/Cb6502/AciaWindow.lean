import Cb6502.Arbitration
import Cb6502.Board

/- The registers of an ACIA as the bus reaches them. `WindowOp` is an operation on the
   ACIA: a bit-clock tick, or an access at an address; `busStep` makes the access over the
   bus, `directStep` calls `acia_read` and `acia_write` with the offset from the base. The
   two are compared by what is observed after each operation. The bus callbacks take
   `ACIA_REG_MAX` for the number of registers, where it is the last register, so the
   control register is the one the bus does not reach. -/
namespace Cb6502

variable {τ : Type}

/-! ## The two ways to the registers -/

inductive WindowOp where
  | tick
  | read (addr : BitVec 16)
  | write (addr : BitVec 16) (val : BitVec 8)

/-- The address of a bus access. -/
def WindowOp.addr? : WindowOp → Option (BitVec 16)
  | .tick => none
  | .read addr | .write addr _ => some addr

/-- `acia_tick` of the ACIA `id`, called by the bit clock. -/
def aciaTickOnBoard (transport : AciaTransInterface τ) (id : Nat) (bus : Bus (Board τ)) :
    Bus (Board τ) :=
  let (a, votes) := aciaTick transport (bus.devs.acia id)
  bus.afterCallback (bus.devs.putAcia id a, votes)

/-- The operation over the bus, with the value a read returns. -/
def busStep (transport : AciaTransInterface τ) (id : Nat) (op : WindowOp) (bus : Bus (Board τ)) :
    Option (BitVec 8) × Bus (Board τ) :=
  match op with
  | .tick => (none, aciaTickOnBoard transport id bus)
  | .read addr => (some (busRead bus addr).1, (busRead bus addr).2)
  | .write addr val => (none, busWrite bus addr val)

/-- `acia_read` of the register, called on the ACIA `id`. -/
def aciaReadDirect (id : Nat) (reg : BitVec 8) (bus : Bus (Board τ)) : BitVec 8 × Bus (Board τ) :=
  let (val, a, votes) := aciaRead (bus.devs.acia id) reg
  (val, bus.afterCallback (bus.devs.putAcia id a, votes))

/-- `acia_write` of the register, called on the ACIA `id`. -/
def aciaWriteDirect (id : Nat) (reg val : BitVec 8) (bus : Bus (Board τ)) : Bus (Board τ) :=
  bus.afterCallback (bus.devs.putAcia id (aciaWrite (bus.devs.acia id) reg val), [])

/-- The operation by `acia_read` and `acia_write`; outside the four registers a read
gives `$FF` and nothing happens. -/
def directStep (transport : AciaTransInterface τ) (id : Nat) (op : WindowOp) (bus : Bus (Board τ)) :
    Option (BitVec 8) × Bus (Board τ) :=
  let base := (bus.devs.acia id).base
  match op with
  | .tick => (none, aciaTickOnBoard transport id bus)
  | .read addr =>
    if addr - base < 4 then
      (some (aciaReadDirect id (u8 (addr - base)) bus).1, (aciaReadDirect id (u8 (addr - base)) bus).2)
    else (some 0xFF, bus)
  | .write addr val =>
    if addr - base < 4 then (none, aciaWriteDirect id (u8 (addr - base)) val bus) else (none, bus)

/-- The devices and the votes are the same. -/
def SameView (bus bus' : Bus (Board τ)) : Prop :=
  bus.devs = bus'.devs ∧ bus.sigvotes = bus'.sigvotes

/-! ## The ACIA's place on the bus -/

/-- No tracer touches the devices or casts votes. -/
def PassiveTracers (bus : Bus (Board τ)) : Prop :=
  ∀ cb ∈ bus.tracelist, ∀ addr val write sync d, cb addr val write sync d = (d, [])

/-- The decoder matches the address in every access, or in none. -/
def BusDecodeParams.Always {ω : Type} (matched : Bool) (params : BusDecodeParams ω)
    (addr : BitVec 16) : Prop :=
  ∀ write devs, busMatchAddr params addr write devs = matched

/-- `conn` is the connection of the ACIA `id`, and no other matches the address. -/
def OnlyAcia (id : Nat) (conn : BusConn (Board τ)) (bus : Bus (Board τ)) (addr : BitVec 16) : Prop :=
  conn.handlers = aciaBusHandlers id ∧
    ∃ before after, bus.connlist = before ++ conn :: after ∧
      ∀ c ∈ before ++ after, c.params.Always false addr

theorem foldl_of_idle {α β : Type} (f : β → α → β) (l : List α) (h : ∀ a ∈ l, ∀ b, f b a = b)
    (b : β) : l.foldl f b = b := by
  induction l with
  | nil => rfl
  | cons a l ih =>
    obtain ⟨ha, hl⟩ := List.forall_mem_cons.mp h
    rw [List.foldl_cons, ha]
    exact ih hl

theorem BusDecodeParams.Always.readConn {ω : Type} {addr : BitVec 16} {conn : BusConn ω}
    (h : conn.params.Always false addr) (peek sync : Bool) (acc : Option (BitVec 8) × Bus ω) :
    busReadConn addr peek sync acc conn = acc := by
  rw [busReadConn, h true acc.2.devs, if_neg Bool.false_ne_true]

theorem BusDecodeParams.Always.writeConn {ω : Type} {addr : BitVec 16} {conn : BusConn ω}
    (h : conn.params.Always false addr) (val : BitVec 8) (bus : Bus ω) :
    busWriteConn addr val bus conn = bus := by
  rw [busWriteConn, h false bus.devs, if_neg Bool.false_ne_true]

theorem afterCallback_passive (bus : Bus (Board τ)) : bus.afterCallback (bus.devs, []) = bus := rfl

theorem callTracers_passive {bus : Bus (Board τ)} (h : PassiveTracers bus) (op : BusOp) :
    bus.callTracers op = { bus with trace := bus.trace ++ [op] } := by
  have key : ∀ (tracers : List (BusTraceCb (Board τ))),
      (∀ cb ∈ tracers, ∀ addr val write sync d, cb addr val write sync d = (d, [])) →
      ∀ b : Bus (Board τ), tracers.foldl
        (fun b cb => b.afterCallback (cb op.addr op.val op.write op.sync b.devs)) b = b := by
    intro tracers htracers b
    apply foldl_of_idle
    intro cb hcb b
    rw [htracers cb hcb]
    exact afterCallback_passive b
  exact key bus.tracelist h { bus with trace := bus.trace ++ [op] }

section Access
variable {id : Nat} {conn : BusConn (Board τ)} {bus : Bus (Board τ)} {addr : BitVec 16}
  (honly : OnlyAcia id conn bus addr) (htracers : PassiveTracers bus)
include honly htracers

/-- A read is the callback's, where the ACIA decodes. -/
theorem busRead_acia (hmatch : busMatchAddr conn.params addr true bus.devs = true) :
    (busRead bus addr).1 = (aciaReadOnBoard id addr false bus.devs).1 ∧
      SameView (busRead bus addr).2 (bus.afterCallback (aciaReadOnBoard id addr false bus.devs).2) := by
  obtain ⟨hhandlers, before, after, hconns, hidle⟩ := honly
  have hread : conn.handlers.reader false = some (aciaReadOnBoard id) := by rw [hhandlers]; rfl
  have hothers : ∀ c ∈ before ++ after, ∀ acc, busReadConn addr false false acc c = acc :=
    fun c hc acc => (hidle c hc).readConn false false acc
  have hfold : bus.connlist.foldl (busReadConn addr false false) (none, bus) =
      (some (aciaReadOnBoard id addr false bus.devs).1,
        bus.afterCallback (aciaReadOnBoard id addr false bus.devs).2) := by
    rw [hconns, List.foldl_append, List.foldl_cons,
      foldl_of_idle _ before fun c hc => hothers c (List.mem_append_left _ hc),
      busReadConn_of_match false _ hmatch hread,
      foldl_of_idle _ after fun c hc => hothers c (List.mem_append_right _ hc)]
    rfl
  have hpassive : PassiveTracers (bus.afterCallback (aciaReadOnBoard id addr false bus.devs).2) := by
    intro cb hcb
    rw [(bus.sameRecord_afterCallback _).tracelist] at hcb
    exact htracers cb hcb
  simp only [busRead, busReadPeekI, hfold, Bool.false_eq_true, if_false,
    callTracers_passive hpassive, Option.getD_some]
  exact ⟨trivial, rfl, rfl⟩

/-- Where the ACIA's decoder does not match, nobody answers a read. -/
theorem busRead_undecoded (hmatch : busMatchAddr conn.params addr true bus.devs = false) :
    (busRead bus addr).1 = 0xFF ∧ SameView (busRead bus addr).2 bus := by
  obtain ⟨-, before, after, hconns, hidle⟩ := honly
  have hconn : busReadConn addr false false (none, bus) conn = (none, bus) := by
    rw [busReadConn, hmatch, if_neg Bool.false_ne_true]
  have hfold : bus.connlist.foldl (busReadConn addr false false) (none, bus) = (none, bus) := by
    rw [hconns, List.foldl_append, List.foldl_cons,
      foldl_of_idle _ before fun c hc => (hidle c (List.mem_append_left _ hc)).readConn false false,
      hconn, foldl_of_idle _ after fun c hc => (hidle c (List.mem_append_right _ hc)).readConn false false]
  simp only [busRead, busReadPeekI, hfold, Bool.false_eq_true, if_false, callTracers_passive htracers]
  exact ⟨rfl, rfl, rfl⟩

/-- A write is the callback's, where the ACIA decodes, and nothing elsewhere. -/
theorem busWrite_acia (val : BitVec 8) :
    SameView (busWrite bus addr val)
      (if busMatchAddr conn.params addr false bus.devs then
        bus.afterCallback (bus.devs.putAcia id (aciaBusWriteCb (bus.devs.acia id) addr val), [])
      else bus) := by
  obtain ⟨hhandlers, before, after, hconns, hidle⟩ := honly
  have hothers : ∀ c ∈ before ++ after, ∀ b, busWriteConn addr val b c = b :=
    fun c hc b => (hidle c hc).writeConn val b
  have hfold : bus.connlist.foldl (busWriteConn addr val) bus = busWriteConn addr val bus conn := by
    rw [hconns, List.foldl_append, List.foldl_cons,
      foldl_of_idle _ before fun c hc => hothers c (List.mem_append_left _ hc),
      foldl_of_idle _ after fun c hc => hothers c (List.mem_append_right _ hc)]
  have hpassive : PassiveTracers (busWriteConn addr val bus conn) := by
    intro cb hcb
    rw [(sameRecord_busWriteConn addr val bus conn).tracelist] at hcb
    exact htracers cb hcb
  have hconn : busWriteConn addr val bus conn =
      if busMatchAddr conn.params addr false bus.devs then
        bus.afterCallback (bus.devs.putAcia id (aciaBusWriteCb (bus.devs.acia id) addr val), [])
      else bus := by
    rw [busWriteConn, hhandlers]
    rfl
  simp only [busWrite, hfold, callTracers_passive hpassive]
  rw [← hconn]
  exact ⟨rfl, rfl⟩

end Access

/-! ## The callbacks and the functions they call -/

theorem Board.putAcia_self (b : Board τ) (id : Nat) : b.putAcia id (b.acia id) = b := by
  unfold Board.putAcia
  rw [Function.update_eq_self]

theorem Board.acia_putAcia (b : Board τ) (id : Nat) (a : Acia τ) : (b.putAcia id a).acia id = a := by
  show Function.update b.acia id a id = a
  exact Function.update_self id a b.acia

/-- Below the last register the callback reads the register. -/
theorem aciaBusReadCb_below (a : Acia τ) {addr : BitVec 16} (h : addr - a.base < 3) :
    aciaBusReadCb a addr = aciaRead a (u8 (addr - a.base)) :=
  if_neg (by simpa only [aciaRegMax, BitVec.not_le, ge_iff_le] using h)

theorem aciaBusReadCb_above (a : Acia τ) {addr : BitVec 16} (h : ¬addr - a.base < 3) :
    aciaBusReadCb a addr = (0xFF, a, []) :=
  if_pos (by simpa only [aciaRegMax, BitVec.not_lt, ge_iff_le] using h)

theorem aciaBusWriteCb_below (a : Acia τ) {addr : BitVec 16} (val : BitVec 8)
    (h : addr - a.base < 3) : aciaBusWriteCb a addr val = aciaWrite a (u8 (addr - a.base)) val :=
  if_neg (by simpa only [aciaRegMax, BitVec.not_le, ge_iff_le] using h)

theorem aciaBusWriteCb_above (a : Acia τ) {addr : BitVec 16} (val : BitVec 8)
    (h : ¬addr - a.base < 3) : aciaBusWriteCb a addr val = a :=
  if_pos (by simpa only [aciaRegMax, BitVec.not_lt, ge_iff_le] using h)

/-- The window has one register more than the callbacks let through. -/
theorem window_cases (reg : BitVec 16) : reg < 4 ↔ reg < 3 ∨ reg = 3 := by
  bv_omega

theorem aciaRead_ctrl (a : Acia τ) : aciaRead a (u8 3) = (a.ctlReg, a, []) := rfl

theorem aciaWrite_ctrl (a : Acia τ) (val : BitVec 8) :
    aciaWrite a (u8 3) val = { a with ctlReg := val } := rfl

/-- What the operation must be like for the bus to do it as `acia_read` and `acia_write` do:
at the control register, a read while it holds `$FF` or a write of what it holds. -/
def windowOk (a : Acia τ) : WindowOp → Prop
  | .tick => True
  | .read addr => addr - a.base = 3 → a.ctlReg = 0xFF
  | .write addr val => addr - a.base = 3 → val = a.ctlReg

instance (a : Acia τ) (op : WindowOp) : Decidable (windowOk a op) :=
  match op with
  | .tick => inferInstanceAs (Decidable True)
  | .read addr => inferInstanceAs (Decidable (addr - a.base = 3 → a.ctlReg = 0xFF))
  | .write addr val => inferInstanceAs (Decidable (addr - a.base = 3 → val = a.ctlReg))

theorem sameView_refl (bus : Bus (Board τ)) : SameView bus bus := ⟨rfl, rfl⟩

theorem SameView.trans {b b' b'' : Bus (Board τ)} (h : SameView b b') (h' : SameView b' b'') :
    SameView b b'' := ⟨h.1.trans h'.1, h.2.trans h'.2⟩

theorem SameView.symm {b b' : Bus (Board τ)} (h : SameView b b') : SameView b' b :=
  ⟨h.1.symm, h.2.symm⟩

/-- Without votes a callback leaves its owner's new state and nothing else. -/
theorem sameView_callback_iff (bus : Bus (Board τ)) (d : Board τ) :
    SameView (bus.afterCallback (d, [])) bus ↔ d = bus.devs :=
  ⟨fun h => h.1, fun h => ⟨h, rfl⟩⟩

/-- The operation does the same over the bus and directly. -/
def Coincides (transport : AciaTransInterface τ) (id : Nat) (op : WindowOp) (bus : Bus (Board τ)) :
    Prop :=
  (busStep transport id op bus).1 = (directStep transport id op bus).1 ∧
    SameView (busStep transport id op bus).2 (directStep transport id op bus).2

section Step
variable (transport : AciaTransInterface τ) {id : Nat} {conn : BusConn (Board τ)}
  {bus : Bus (Board τ)} {addr : BitVec 16} (honly : OnlyAcia id conn bus addr)
  (htracers : PassiveTracers bus)
  (hcover : addr - (bus.devs.acia id).base < 4 → conn.params.Always true addr)
include honly htracers

/-- Outside the window a read gives `$FF` and nothing happens, decoded or not. -/
theorem busRead_outside (hout : ¬addr - (bus.devs.acia id).base < 3) :
    (busRead bus addr).1 = 0xFF ∧ SameView (busRead bus addr).2 bus := by
  cases hmatch : busMatchAddr conn.params addr true bus.devs with
  | false => exact busRead_undecoded honly htracers hmatch
  | true =>
    have hread := busRead_acia honly htracers hmatch
    have hcb : aciaReadOnBoard id addr false bus.devs = (0xFF, bus.devs, []) := by
      rw [aciaReadOnBoard, aciaBusReadCb_above _ hout]
      dsimp only
      rw [Board.putAcia_self]
    rw [hcb] at hread
    exact hread

theorem busWrite_outside (val : BitVec 8) (hout : ¬addr - (bus.devs.acia id).base < 3) :
    SameView (busWrite bus addr val) bus := by
  have hwrite := busWrite_acia honly htracers val
  rw [aciaBusWriteCb_above _ val hout, Board.putAcia_self, afterCallback_passive, ite_self] at hwrite
  exact hwrite

include hcover

theorem coincides_read : Coincides transport id (.read addr) bus ↔
    windowOk (bus.devs.acia id) (.read addr) := by
  unfold Coincides busStep directStep windowOk
  dsimp only
  by_cases hin : addr - (bus.devs.acia id).base < 4
  · rw [if_pos hin]
    rcases (window_cases _).mp hin with hlow | hctrl
    · have hne : addr - (bus.devs.acia id).base ≠ 3 := by bv_omega
      have hread := busRead_acia honly htracers (hcover hin true bus.devs)
      rw [aciaReadOnBoard, aciaBusReadCb_below _ hlow] at hread
      exact iff_of_true ⟨congrArg some hread.1, hread.2⟩ fun h => absurd h hne
    · have hread := busRead_outside honly htracers (by rw [hctrl]; decide)
      rw [hctrl, aciaReadDirect, aciaRead_ctrl]
      dsimp only
      rw [Board.putAcia_self, afterCallback_passive, hread.1]
      exact ⟨fun h _ => (Option.some.inj h.1).symm, fun h => ⟨congrArg some (h rfl).symm, hread.2⟩⟩
  · have hlow : ¬addr - (bus.devs.acia id).base < 3 := fun h => hin ((window_cases _).mpr (.inl h))
    have hne : addr - (bus.devs.acia id).base ≠ 3 := fun h => hin ((window_cases _).mpr (.inr h))
    have hread := busRead_outside honly htracers hlow
    rw [if_neg hin]
    exact iff_of_true ⟨congrArg some hread.1, hread.2⟩ fun h => absurd h hne

theorem coincides_write (val : BitVec 8) : Coincides transport id (.write addr val) bus ↔
    windowOk (bus.devs.acia id) (.write addr val) := by
  unfold Coincides busStep directStep windowOk
  dsimp only
  by_cases hin : addr - (bus.devs.acia id).base < 4
  · rw [if_pos hin]
    rcases (window_cases _).mp hin with hlow | hctrl
    · have hne : addr - (bus.devs.acia id).base ≠ 3 := by bv_omega
      have hwrite := busWrite_acia honly htracers val
      rw [if_pos (hcover hin false bus.devs), aciaBusWriteCb_below _ val hlow] at hwrite
      exact iff_of_true ⟨rfl, hwrite⟩ fun h => absurd h hne
    · have hwrite := busWrite_outside honly htracers val (by rw [hctrl]; decide)
      rw [hctrl, aciaWriteDirect, aciaWrite_ctrl]
      constructor
      · intro h _
        have hdevs := (sameView_callback_iff bus _).mp (h.2.symm.trans hwrite)
        have hacia := congrArg (fun d => (d.acia id).ctlReg) hdevs
        simp only [Board.acia_putAcia] at hacia
        exact hacia
      · intro h
        refine ⟨rfl, hwrite.trans ?_⟩
        rw [h rfl, Board.putAcia_self, afterCallback_passive]
        exact sameView_refl bus
  · have hlow : ¬addr - (bus.devs.acia id).base < 3 := fun h => hin ((window_cases _).mpr (.inl h))
    have hne : addr - (bus.devs.acia id).base ≠ 3 := fun h => hin ((window_cases _).mpr (.inr h))
    rw [if_neg hin]
    exact iff_of_true ⟨rfl, busWrite_outside honly htracers val hlow⟩ fun h => absurd h hne

end Step

/-! ## Runs -/

theorem SameView.afterCallback {b b' : Bus (Board τ)} (h : SameView b b')
    (r : Board τ × List SigVote) : SameView (b.afterCallback r) (b'.afterCallback r) := by
  have key : ∀ (votes : List SigVote) (c c' : Bus (Board τ)), SameView c c' →
      SameView (votes.foldl Bus.sigVote c) (votes.foldl Bus.sigVote c') := by
    intro votes
    induction votes with
    | nil => exact fun c c' h => h
    | cons vote votes ih =>
      intro c c' hcc
      apply ih
      refine ⟨hcc.1, ?_⟩
      show emuBusSigVote c.sigvotes _ _ _ = emuBusSigVote c'.sigvotes _ _ _
      rw [hcc.2]
  exact key r.2 _ _ ⟨rfl, h.2⟩

section Runs
variable (transport : AciaTransInterface τ) (id : Nat)

/-- The direct operation depends on the devices and the votes only. -/
theorem directStep_sameView (op : WindowOp) {b b' : Bus (Board τ)} (h : SameView b b') :
    (directStep transport id op b).1 = (directStep transport id op b').1 ∧
      SameView (directStep transport id op b).2 (directStep transport id op b').2 := by
  cases op with
  | tick =>
    refine ⟨rfl, ?_⟩
    simp only [directStep, aciaTickOnBoard, h.1]
    exact h.afterCallback _
  | read addr =>
    simp only [directStep, aciaReadDirect, h.1]
    split
    · exact ⟨rfl, h.afterCallback _⟩
    · exact ⟨rfl, h⟩
  | write addr val =>
    simp only [directStep, aciaWriteDirect, h.1]
    split
    · exact ⟨rfl, h.afterCallback _⟩
    · exact ⟨rfl, h⟩

theorem aciaTickRx_base (a : Acia τ) : (aciaTickRx transport a).1.base = a.base := by
  unfold aciaTickRx
  dsimp only
  split
  · split
    · split
      · split <;> rfl
      · rfl
    · rfl
  · split <;> rfl

theorem aciaTick_base (a : Acia τ) : (aciaTick transport a).1.base = a.base := by
  have hrx := aciaTickRx_base transport a
  unfold aciaTick
  dsimp only
  split
  · split <;> exact hrx
  · exact hrx

theorem aciaRead_base (a : Acia τ) (reg : BitVec 8) : (aciaRead a reg).2.1.base = a.base := by
  unfold aciaRead
  repeat' split
  all_goals rfl

theorem aciaWrite_base (a : Acia τ) (reg val : BitVec 8) : (aciaWrite a reg val).base = a.base := by
  unfold aciaWrite
  repeat' split
  all_goals rfl

/-- No operation moves the window. -/
theorem directStep_base (op : WindowOp) (bus : Bus (Board τ)) :
    ((directStep transport id op bus).2.devs.acia id).base = (bus.devs.acia id).base := by
  have hafter : ∀ (a : Acia τ) votes, a.base = (bus.devs.acia id).base →
      ((bus.afterCallback (bus.devs.putAcia id a, votes)).devs.acia id).base =
        (bus.devs.acia id).base := by
    intro a votes ha
    obtain ⟨v, n, hframe⟩ := bus.afterCallback_frame (bus.devs.putAcia id a, votes)
    rw [hframe, Board.acia_putAcia, ha]
  cases op with
  | tick => exact hafter _ _ (aciaTick_base transport _)
  | read addr =>
    unfold directStep
    dsimp only
    split
    · exact hafter _ _ (aciaRead_base _ _)
    · rfl
  | write addr val =>
    unfold directStep
    dsimp only
    split
    · exact hafter _ _ (aciaWrite_base _ _ _)
    · rfl

theorem busStep_conns (op : WindowOp) (bus : Bus (Board τ)) :
    (busStep transport id op bus).2.connlist = bus.connlist ∧
      (busStep transport id op bus).2.tracelist = bus.tracelist := by
  cases op with
  | tick =>
    have hsame := bus.sameRecord_afterCallback
      (bus.devs.putAcia id (aciaTick transport (bus.devs.acia id)).1,
        (aciaTick transport (bus.devs.acia id)).2)
    exact ⟨hsame.connlist, hsame.tracelist⟩
  | read addr =>
    have hread := committed_read bus addr false
    exact ⟨hread.connlist, hread.tracelist⟩
  | write addr val =>
    have hwrite := committed_write bus addr val
    exact ⟨hwrite.connlist, hwrite.tracelist⟩

/-- What each operation of a run shows: the value read, and the devices and votes after it. -/
def observed (step : WindowOp → Bus (Board τ) → Option (BitVec 8) × Bus (Board τ)) :
    List WindowOp → Bus (Board τ) → List (Option (BitVec 8) × Board τ × SigVotes)
  | [], _ => []
  | op :: ops, bus =>
    ((step op bus).1, (step op bus).2.devs, (step op bus).2.sigvotes) :: observed step ops (step op bus).2

/-- Every operation of the run is one the bus does as `acia_read` and `acia_write` do. -/
def EachOk : List WindowOp → Bus (Board τ) → Prop
  | [], _ => True
  | op :: ops, bus => windowOk (bus.devs.acia id) op ∧ EachOk ops (directStep transport id op bus).2

/-- The ACIA alone answers at the addresses of the run. -/
def AciaRun (conn : BusConn (Board τ)) (ops : List WindowOp) (bus : Bus (Board τ)) : Prop :=
  PassiveTracers bus ∧
    (∀ addr, addr - (bus.devs.acia id).base < 4 → conn.params.Always true addr) ∧
    ∀ op ∈ ops, ∀ addr, op.addr? = some addr → OnlyAcia id conn bus addr

theorem coincides_iff {conn : BusConn (Board τ)} {ops : List WindowOp} {bus : Bus (Board τ)}
    (h : AciaRun id conn ops bus) {op : WindowOp} (hop : op ∈ ops) :
    Coincides transport id op bus ↔ windowOk (bus.devs.acia id) op := by
  obtain ⟨htracers, hcover, honly⟩ := h
  cases op with
  | tick => exact iff_of_true ⟨rfl, sameView_refl _⟩ trivial
  | read addr => exact coincides_read transport (honly _ hop addr rfl) htracers (hcover addr)
  | write addr val => exact coincides_write transport (honly _ hop addr rfl) htracers (hcover addr) val

theorem AciaRun.step {conn : BusConn (Board τ)} {op : WindowOp} {ops : List WindowOp}
    {bus : Bus (Board τ)} (h : AciaRun id conn (op :: ops) bus)
    (hsame : SameView (busStep transport id op bus).2 (directStep transport id op bus).2) :
    AciaRun id conn ops (busStep transport id op bus).2 := by
  obtain ⟨htracers, hcover, honly⟩ := h
  obtain ⟨hconns, htrace⟩ := busStep_conns transport id op bus
  refine ⟨?_, ?_, ?_⟩
  · intro cb hcb
    rw [htrace] at hcb
    exact htracers cb hcb
  · rw [hsame.1, directStep_base]
    exact hcover
  · intro op' hop' addr haddr
    have := honly op' (List.mem_cons_of_mem _ hop') addr haddr
    unfold OnlyAcia at this ⊢
    rw [hconns]
    exact this

/-- From buses that look the same, the bus and the device agree exactly if every operation is `windowOk`
where it comes. -/
theorem observed_eq_iff {conn : BusConn (Board τ)} (ops : List WindowOp) {b b' : Bus (Board τ)}
    (h : AciaRun id conn ops b) (hsame : SameView b b') :
    observed (busStep transport id) ops b = observed (directStep transport id) ops b' ↔
      EachOk transport id ops b' := by
  induction ops generalizing b b' with
  | nil => exact iff_of_true rfl trivial
  | cons op ops ih =>
    have hiff := coincides_iff transport id h List.mem_cons_self
    obtain ⟨hval, hview⟩ := directStep_sameView transport id op hsame
    rw [hsame.1] at hiff
    simp only [observed, EachOk, List.cons.injEq, Prod.mk.injEq]
    constructor
    · intro hobs
      obtain ⟨⟨hv, hd, hs⟩, hrest⟩ := hobs
      have hstep : SameView (busStep transport id op b).2 (directStep transport id op b').2 := ⟨hd, hs⟩
      -- the observations agree now, so the operation is fine and the rest agree too
      have hok := hiff.mp ⟨hv.trans hval.symm, hstep.trans hview.symm⟩
      exact ⟨hok, (ih (h.step transport id (hstep.trans hview.symm)) hstep).mp hrest⟩
    · intro hok
      obtain ⟨hv, hstep⟩ := hiff.mpr hok.1
      have hstep' := hstep.trans hview
      exact ⟨⟨hv.trans hval, hstep'.1, hstep'.2⟩, (ih (h.step transport id hstep) hstep').mpr hok.2⟩

/-- The bus window of the ACIA is its registers on exactly the runs that are `EachOk`; an
access outside the window gives `$FF` and nothing happens. -/
theorem acia_bus_window {conn : BusConn (Board τ)} {ops : List WindowOp} {bus : Bus (Board τ)}
    (h : AciaRun id conn ops bus) :
    (observed (busStep transport id) ops bus = observed (directStep transport id) ops bus ↔
      EachOk transport id ops bus) ∧
    ∀ op ∈ ops, ∀ addr, op.addr? = some addr → ¬addr - (bus.devs.acia id).base < 4 →
      (busRead bus addr).1 = 0xFF ∧ SameView (busRead bus addr).2 bus ∧
        ∀ val, SameView (busWrite bus addr val) bus := by
  refine ⟨observed_eq_iff transport id ops h (sameView_refl bus), ?_⟩
  intro op hop addr haddr hout
  have hlow : ¬addr - (bus.devs.acia id).base < 3 := fun hlt => hout ((window_cases _).mpr (.inl hlt))
  have honly : OnlyAcia id conn bus addr := h.2.2 op hop addr haddr
  obtain ⟨hval, hread⟩ := busRead_outside honly h.1 hlow
  exact ⟨hval, hread, fun val => busWrite_outside honly h.1 val hlow⟩

end Runs

/-! ## Registration -/

/-- The bus after `acia_register` of the ACIA `id`. -/
def busOfAcia (bus : Bus (Board τ)) (id : Nat) (decoder : BusDecodeParams (Board τ))
    (baseAddr : BitVec 16) (interrupt : Bool) : Bus (Board τ) :=
  let (_, a, bus) := aciaRegister (bus.devs.acia id) bus (some decoder) (aciaBusHandlers id) baseAddr
    interrupt
  { bus with devs := bus.devs.putAcia id a }

/-- A registration that succeeds puts the ACIA last on the bus. -/
theorem aciaRegister_eq {a : Acia τ} {bus : Bus (Board τ)} {decoder : BusDecodeParams (Board τ)}
    {handlers : BusHandlers (Board τ)} {baseAddr : BitVec 16} {interrupt : Bool}
    (h : (aciaRegister a bus (some decoder) handlers baseAddr interrupt).1 = true) :
    (aciaRegister a bus (some decoder) handlers baseAddr interrupt).2.1.base = baseAddr ∧
      (aciaRegister a bus (some decoder) handlers baseAddr interrupt).2.2.devs = bus.devs ∧
      (aciaRegister a bus (some decoder) handlers baseAddr interrupt).2.2.tracelist = bus.tracelist ∧
      (aciaRegister a bus (some decoder) handlers baseAddr interrupt).2.2.connlist =
        bus.connlist ++ [{ handle := bus.freeHandle, params := decoder, handlers }] := by
  unfold aciaRegister emuBusRegister at h ⊢
  by_cases hvalid : busValidateParams decoder = true
  · cases interrupt with
    | false =>
      simp only [hvalid, if_true]
      exact ⟨rfl, rfl, rfl, rfl⟩
    | true =>
      simp only [hvalid, if_true] at h ⊢
      -- a voter is wanted, and there must be one left
      by_cases hvoter : (emuBusRegisterSigVoter bus.sigvotes).1 = BUS_SIGNAL_INVALID_VOTER
      · simp [hvoter] at h
      · simp [hvoter]
  · simp [hvalid] at h

/-- An ACIA registered with a decoder over its window, where nobody else answers. -/
theorem aciaRun_of_register {id : Nat} {bus : Bus (Board τ)} {decoder : BusDecodeParams (Board τ)}
    {baseAddr : BitVec 16} {interrupt : Bool} {ops : List WindowOp}
    (hregister : (aciaRegister (bus.devs.acia id) bus (some decoder) (aciaBusHandlers id) baseAddr
      interrupt).1 = true)
    (hcover : ∀ addr, addr - baseAddr < 4 → decoder.Always true addr) (htracers : PassiveTracers bus)
    (hothers : ∀ op ∈ ops, ∀ addr, op.addr? = some addr →
      ∀ c ∈ bus.connlist, c.params.Always false addr) :
    AciaRun id { handle := bus.freeHandle, params := decoder, handlers := aciaBusHandlers id } ops
      (busOfAcia bus id decoder baseAddr interrupt) := by
  obtain ⟨hbase, hdevs, htrace, hconns⟩ := aciaRegister_eq hregister
  refine ⟨?_, ?_, ?_⟩
  · show ∀ cb ∈ (aciaRegister (bus.devs.acia id) bus (some decoder) (aciaBusHandlers id) baseAddr
      interrupt).2.2.tracelist, _
    rw [htrace]
    exact htracers
  · intro addr haddr
    apply hcover addr
    rw [← hbase]
    simpa only [busOfAcia, Board.acia_putAcia] using haddr
  · intro op hop addr haddr
    refine ⟨rfl, bus.connlist, [], hconns, ?_⟩
    rw [List.append_nil]
    exact hothers op hop addr haddr

/-! ## The ACIA of the board at `$5000`, alone on its bus -/

/-- A transport with nothing to say. -/
def silentTransport : AciaTransInterface Unit where
  available t := (false, t)
  read t := (0, t)
  write _ t := t

/-- A bus with an ACIA, before its registration. -/
def emptyBus : Bus (Board Unit) :=
  Bus.init [] [] {
    memory := fun _ => { size := 0x10, rom := false, base := 0, buffer := .replicate _ 0 }
    via := fun _ => viaInit
    acia := fun _ => aciaInit ()
    eeprom := fun _ => at28c256Init false }

/-- `$5000` to `$5003`, the addresses of the ACIA. -/
def aciaRange : BusDecodeParams (Board Unit) := .range 0x5000 0x5003

/-- The ACIA registered at `$5000`, with the accesses of `ops`. -/
theorem aciaRun_at_5000 (ops : List WindowOp) :
    AciaRun 0 { handle := 1, params := aciaRange, handlers := aciaBusHandlers 0 } ops
      (busOfAcia emptyBus 0 aciaRange 0x5000 false) := by
  refine aciaRun_of_register (by decide) ?_ (fun _ h => absurd h List.not_mem_nil)
    (fun _ _ _ _ _ h => absurd h List.not_mem_nil)
  intro addr haddr write devs
  have hrange : 0x5000 ≤ addr ∧ addr ≤ 0x5003 := by bv_omega
  show (decide (0x5000 ≤ addr) && decide (addr ≤ 0x5003)) = true
  rw [decide_eq_true hrange.1, decide_eq_true hrange.2]
  rfl

/-- A run with the data, status and command registers, and one that reaches past the window. -/
theorem acia_bus_window_of_driver :
    observed (busStep silentTransport 0) [.write 0x5002 0x09, .write 0x5000 0x41, .tick, .read 0x5001]
        (busOfAcia emptyBus 0 aciaRange 0x5000 false) =
      observed (directStep silentTransport 0)
        [.write 0x5002 0x09, .write 0x5000 0x41, .tick, .read 0x5001]
        (busOfAcia emptyBus 0 aciaRange 0x5000 false) ∧
    (busRead (busOfAcia emptyBus 0 aciaRange 0x5000 false) 0x5004).1 = 0xFF := by
  refine ⟨(acia_bus_window silentTransport 0 (aciaRun_at_5000 _)).1.mpr ?_,
    ((acia_bus_window silentTransport 0 (aciaRun_at_5000 [.read 0x5004])).2 (.read 0x5004)
      List.mem_cons_self 0x5004 rfl (by decide)).1⟩
  exact ⟨by decide, by decide, trivial, by decide, trivial⟩

/-- A control byte written over the bus does not arrive. -/
theorem acia_bus_window_misses_control :
    ∃ ops, (∀ op ∈ ops, ∀ addr, op.addr? = some addr → addr - 0x5000 < 4) ∧
      AciaRun 0 { handle := 1, params := aciaRange, handlers := aciaBusHandlers 0 } ops
        (busOfAcia emptyBus 0 aciaRange 0x5000 false) ∧
      observed (busStep silentTransport 0) ops (busOfAcia emptyBus 0 aciaRange 0x5000 false) ≠
        observed (directStep silentTransport 0) ops (busOfAcia emptyBus 0 aciaRange 0x5000 false) := by
  refine ⟨[.write 0x5003 0x1F], ?_, aciaRun_at_5000 _, ?_⟩
  · intro op hop addr haddr
    obtain rfl := List.mem_singleton.mp hop
    obtain rfl := Option.some.inj haddr
    decide
  · intro hsame
    have hok := (observed_eq_iff silentTransport 0 _ (aciaRun_at_5000 _) (sameView_refl _)).mp hsame
    exact absurd hok.1 (by decide)

end Cb6502
