import Cb6502.Direction
import Cb6502.ViaPorts
import Cb6502.Quiet
import Cb6502.AciaWindow
import Cb6502.Lib.Steps

/- The sixteen registers of a VIA as its connection to the bus reaches them. `connAccess` is the
   connection's turn in an access, as `bus_match_addr` and the callbacks make it; `viaAccess` is
   the access by `via_read` and `via_write` of the register `addr - base`. The callbacks keep the
   low byte of the difference only, before they compare it with `REG_MAX`.

   What is proved:
     1. `viaBusWriteCb_of_not_aliased`, `viaBusReadCb_of_not_aliased` — the callbacks take the
        right register where the offset does not lose a high byte that matters.
     2. `via_window_iff` — so do all accesses of a run that meet no such address, and a decoder
        that looks at nothing but the address and the direction has only such runs exactly if it
        accepts no such address. -/
namespace Cb6502

variable {τ : Type}

/-! ## The two ways to the registers -/

/-- The turn of the connection in the access, with the value that its callback returns. -/
def connAccess {ω : Type} (conn : BusConn ω) (bus : Bus ω) : BusAccess → Option (BitVec 8) × Bus ω
  | .read addr peek sync => busReadConn addr peek sync (none, bus) conn
  | .write addr value => (none, busWriteConn addr value bus conn)

/-- The decoder of the connection accepts the access. -/
def Accepted {ω : Type} (conn : BusConn ω) (bus : Bus ω) (a : BusAccess) : Prop :=
  busMatchAddr conn.params a.addr (!a.isWrite) bus.devs = true

/-- What a call of `via_read` or `via_write` leaves on the bus. -/
def putViaStep (id : Nat) (bus : Bus (Board τ)) (s : ViaStep) : Bus (Board τ) :=
  bus.afterCallback (bus.devs.putVia id s.via, s.votes)

/-- The access by `via_read` and `via_write`; outside the sixteen registers a read gives `$FF`
and nothing happens. -/
def viaAccess (id : Nat) (bus : Bus (Board τ)) : BusAccess → Option (BitVec 8) × Bus (Board τ)
  | .read addr _ _ =>
    let v := bus.devs.via id
    if addr - v.base ≤ 15 then
      (some (viaRead v (u8 (addr - v.base))).1, putViaStep id bus (viaRead v (u8 (addr - v.base))).2)
    else (some 0xFF, bus)
  | .write addr value =>
    let v := bus.devs.via id
    if addr - v.base ≤ 15 then (none, putViaStep id bus (viaWrite v (u8 (addr - v.base)) value))
    else (none, bus)

/-- The connection that `via_register` makes for the VIA `id`. -/
def viaConn (id handle : Nat) (params : BusDecodeParams (Board τ)) : BusConn (Board τ) :=
  { handle, params, handlers := viaBusHandlers id }

/-- `via_write` does nothing for these registers. -/
def ViaReg.inert : ViaReg → Bool
  | .t2cl | .t2ch | .sr | .da2 => true
  | _ => false

/-- The access is to an address outside the window whose offset has a register in its low byte, one
that the access could disturb. -/
def BusAccess.Aliased (base : BitVec 16) : BusAccess → Prop
  | .read addr _ _ => 15 < addr - base ∧ u8 (addr - base) ≤ viaRegMax
  | .write addr _ => 15 < addr - base ∧ u8 (addr - base) ≤ viaRegMax ∧
      (viaReg (u8 (addr - base))).any ViaReg.inert = false

/-! ## The callbacks -/

theorem inert_write {v : Via} {reg val : BitVec 8} (h : (viaReg reg).any ViaReg.inert = true) :
    viaWrite v reg val = { via := v } := by
  rw [viaWrite]
  cases hreg : viaReg reg with
  | none => rfl
  | some r =>
    rw [hreg] at h
    cases r <;> first | rfl | cases h

/-- An offset inside the window is its own low byte. -/
theorem u8_le_of_le {offset : BitVec 16} (h : offset ≤ 15) : ¬ u8 offset > viaRegMax := by
  have hmax : viaRegMax = 0x0F#8 := rfl
  rw [hmax]
  bv_omega

theorem viaBusReadCb_of_not_aliased {v : Via} {addr : BitVec 16} {peek sync : Bool}
    (h : ¬ (BusAccess.read addr peek sync).Aliased v.base) :
    viaBusReadCb v addr =
      if addr - v.base ≤ 15 then viaRead v (u8 (addr - v.base)) else (0xFF, { via := v }) := by
  rw [viaBusReadCb]
  by_cases hin : addr - v.base ≤ 15
  · rw [if_pos hin]
    exact if_neg (u8_le_of_le hin)
  · rw [if_neg hin]
    exact if_pos (BitVec.not_le.mp fun hlow => h ⟨BitVec.not_le.mp hin, hlow⟩)

theorem viaBusWriteCb_of_not_aliased {v : Via} {addr : BitVec 16} {val : BitVec 8}
    (h : ¬ (BusAccess.write addr val).Aliased v.base) :
    viaBusWriteCb v addr val =
      if addr - v.base ≤ 15 then viaWrite v (u8 (addr - v.base)) val else { via := v } := by
  rw [viaBusWriteCb]
  by_cases hin : addr - v.base ≤ 15
  · rw [if_pos hin]
    exact if_neg (u8_le_of_le hin)
  · rw [if_neg hin]
    by_cases hlow : u8 (addr - v.base) ≤ viaRegMax
    · -- the register is hit, but it is one that does not react
      have hinert : (viaReg (u8 (addr - v.base))).any ViaReg.inert = true := by
        cases hany : (viaReg (u8 (addr - v.base))).any ViaReg.inert with
        | true => rfl
        | false => exact absurd ⟨BitVec.not_le.mp hin, hlow, hany⟩ h
      exact (if_neg (BitVec.not_lt.mpr hlow)).trans (inert_write hinert)
    · exact if_pos (BitVec.not_le.mp hlow)

/-! ## One access -/

theorem Board.putVia_self (b : Board τ) (id : Nat) : b.putVia id (b.via id) = b := by
  unfold Board.putVia
  rw [Function.update_eq_self]

theorem Board.via_putVia (b : Board τ) (id : Nat) (v : Via) : (b.putVia id v).via id = v := by
  show Function.update b.via id v id = v
  exact Function.update_self id v b.via

theorem putViaStep_via (id : Nat) (bus : Bus (Board τ)) (s : ViaStep) :
    (putViaStep id bus s).devs.via id = s.via := by
  rw [putViaStep, Bus.afterCallback_devs]
  exact Board.via_putVia ..

theorem putViaStep_self (id : Nat) (bus : Bus (Board τ)) :
    putViaStep id bus { via := bus.devs.via id } = bus := by
  rw [putViaStep, Board.putVia_self]
  rfl

/-- An accepted access is the callback's. -/
theorem connAccess_accepted {id handle : Nat} {params : BusDecodeParams (Board τ)}
    {bus : Bus (Board τ)} {a : BusAccess} (h : Accepted (viaConn id handle params) bus a) :
    connAccess (viaConn id handle params) bus a =
      match a with
      | .read addr _ _ => (some (viaBusReadCb (bus.devs.via id) addr).1,
          putViaStep id bus (viaBusReadCb (bus.devs.via id) addr).2)
      | .write addr value => (none, putViaStep id bus (viaBusWriteCb (bus.devs.via id) addr value)) := by
  cases a with
  | read addr peek sync =>
    have hcb : (viaConn id handle params).handlers.reader peek = some (viaReadOnBoard id) := by
      cases peek <;> rfl
    exact busReadConn_of_match sync (none, bus) h hcb
  | write addr value =>
    have hmatch : busMatchAddr (viaConn id handle params).params addr false bus.devs = true := h
    show (none, busWriteConn addr value bus (viaConn id handle params)) = _
    rw [busWriteConn, if_pos hmatch]
    rfl

theorem connAccess_of_not_aliased {id handle : Nat} {params : BusDecodeParams (Board τ)}
    {bus : Bus (Board τ)} {a : BusAccess} (h : Accepted (viaConn id handle params) bus a)
    (hok : ¬ a.Aliased (bus.devs.via id).base) :
    connAccess (viaConn id handle params) bus a = viaAccess id bus a := by
  rw [connAccess_accepted h]
  cases a with
  | read addr peek sync =>
    simp only [viaAccess, viaBusReadCb_of_not_aliased hok]
    split
    · rfl
    · rw [putViaStep_self]
  | write addr value =>
    simp only [viaAccess, viaBusWriteCb_of_not_aliased hok]
    split
    · rfl
    · rw [putViaStep_self]

/-! ## The base stays -/

section
variable (s : ViaStep)

theorem ViaStep.ite_base {base : BitVec 16} {p : Prop} [Decidable p] {s s' : ViaStep}
    (h : s.via.base = base) (h' : s'.via.base = base) : (if p then s else s').via.base = base := by
  split
  · exact h
  · exact h'

theorem viaMakeCallbacks_base (event : ViaPortData) :
    (viaMakeCallbacks s event).via.base = s.via.base := rfl

theorem viaClearIfr_base (bit : BitVec 8) : (viaClearIfr s bit).via.base = s.via.base := by
  rw [viaClearIfr_via]

theorem Via.setPort_base (v : Via) (porta : Bool) (p : ViaPortState) :
    (v.setPort porta p).base = v.base := by
  cases porta <;> rfl

theorem viaWriteC2State_base (porta state : Bool) :
    (viaWriteC2State s porta state).via.base = s.via.base := by
  rw [viaWriteC2State]
  by_cases hsame : state = (s.via.port porta).c2Out
  · rw [if_pos hsame]
  · rw [if_neg hsame]
    dsimp only
    split
    · rw [viaMakeCallbacks_base, Via.setPort_base]
    · rw [Via.setPort_base]

theorem viaDdrWrite_base (porta : Bool) (val : BitVec 8) :
    (viaDdrWrite s porta val).1.via.base = s.via.base := by
  rw [viaDdrWrite]
  dsimp only
  split
  · rw [Via.setPort_base]
  · rfl

theorem viaWriteReg_base (reg : ViaReg) (val : BitVec 8) :
    (viaWriteReg s reg val).1.via.base = s.via.base := by
  cases reg with
  | ddra | ddrb => exact viaDdrWrite_base ..
  | datab | dataa => exact ViaStep.ite_base (viaClearIfr_base ..) (viaClearIfr_base ..)
  | t1lh | ifr => exact viaClearIfr_base ..
  | t1ch =>
    simp only [viaWriteReg]
    split
    · exact viaClearIfr_base ..
    · exact viaClearIfr_base ..
  | pcr =>
    -- each port's C2 is written, or it is not
    have hc2 : ∀ (s : ViaStep) (porta : Bool) (p q : Prop) [Decidable p] [Decidable q],
        (if p then viaWriteC2State s porta true
          else if q then viaWriteC2State s porta false else s).via.base = s.via.base := by
      intro s porta p q _ _
      exact ViaStep.ite_base (viaWriteC2State_base ..) (ViaStep.ite_base (viaWriteC2State_base ..) rfl)
    exact (hc2 ..).trans (hc2 ..)
  | _ => rfl

theorem viaWrite_base (v : Via) (reg val : BitVec 8) : (viaWrite v reg val).via.base = v.base := by
  rw [viaWrite]
  cases viaReg reg with
  | none => rfl
  | some r =>
    have hreg := viaWriteReg_base { via := v } r val
    dsimp only
    split
    · rename_i heq
      rw [heq] at hreg
      exact hreg
    · rename_i heq
      rw [heq] at hreg
      exact hreg

theorem viaRead_base (v : Via) (reg : BitVec 8) : (viaRead v reg).2.via.base = v.base := by
  rw [viaRead]
  cases viaReg reg with
  | none => rfl
  | some r =>
    cases r with
    | dataa =>
      have hwrite := (viaWriteC2State_base (viaClearIfr { via := v } IFR_CA1) true false).trans
        (viaClearIfr_base ..)
      exact ViaStep.ite_base (ViaStep.ite_base hwrite hwrite) (viaClearIfr_base ..)
    | datab | t1cl => exact viaClearIfr_base ..
    | _ => rfl

end

theorem viaAccess_base (id : Nat) (bus : Bus (Board τ)) (a : BusAccess) :
    ((viaAccess id bus a).2.devs.via id).base = (bus.devs.via id).base := by
  cases a with
  | read addr peek sync =>
    simp only [viaAccess]
    split
    · rw [putViaStep_via, viaRead_base]
    · rfl
  | write addr value =>
    simp only [viaAccess]
    split
    · rw [putViaStep_via, viaWrite_base]
    · rfl

/-! ## Runs of accesses -/

/-- The accesses, one after the other, are each accepted by the connection's decoder. -/
def AcceptedRun (conn : BusConn (Board τ)) : Bus (Board τ) → List BusAccess → Prop :=
  Steps.Each (fun bus a => (connAccess conn bus a).2) (Accepted conn)

/-- Each of the accesses is one of the register that its address names. -/
def WindowRun (id : Nat) (conn : BusConn (Board τ)) : Bus (Board τ) → List BusAccess → Prop :=
  Steps.Each (fun bus a => (connAccess conn bus a).2)
    fun bus a => connAccess conn bus a = viaAccess id bus a

/-- Where no access is aliased, each access of the run is one of the register that its address names. -/
theorem windowRun_of_not_aliased {id handle : Nat} {params : BusDecodeParams (Board τ)}
    {accesses : List BusAccess} {bus : Bus (Board τ)}
    (h : AcceptedRun (viaConn id handle params) bus accesses)
    (hok : ∀ a ∈ accesses, ¬ a.Aliased (bus.devs.via id).base) :
    WindowRun id (viaConn id handle params) bus accesses := by
  induction accesses generalizing bus with
  | nil => trivial
  | cons a accesses ih =>
    obtain ⟨haccepted, hrest⟩ := h
    obtain ⟨ha, hok⟩ := List.forall_mem_cons.mp hok
    have hstep := connAccess_of_not_aliased haccepted ha
    have hbase : ((connAccess (viaConn id handle params) bus a).2.devs.via id).base =
        (bus.devs.via id).base := by
      rw [hstep, viaAccess_base]
    refine ⟨hstep, ih hrest ?_⟩
    show ∀ b ∈ accesses, ¬ b.Aliased ((connAccess (viaConn id handle params) bus a).2.devs.via id).base
    rw [hbase]
    exact hok

/-- The decoder looks at the address and the direction only. -/
def BusDecodeParams.AddressOnly {ω : Type} (params : BusDecodeParams ω) : Prop :=
  ∀ addr write devs devs', busMatchAddr params addr write devs = busMatchAddr params addr write devs'

/-- A VIA that shows an access to any of its registers: none reads as `$FF`, and `$FF` written to one
that reacts changes it. -/
def telltaleVia (base : BitVec 16) : Via := { viaInit with base, ifr := 0x01 }

theorem telltale_read (base : BitVec 16) (reg : BitVec 8) : (viaRead (telltaleVia base) reg).1 ≠ 0xFF := by
  rw [viaRead]
  cases viaReg reg with
  | none => exact (by decide : (0x00#8) ≠ 0xFF)
  | some r =>
    show (viaReadReg { via := telltaleVia base } r).1 ≠ 0xFF
    cases r <;>
      simp [viaReadReg, viaClearIfr, viaIsHandshakeOutput, Via.c2Ctrl, mergeBits, telltaleVia, viaInit,
        IFR_CA1, IFR_CB1, IFR_T1, VIA_C2_CTRL_OUTPUT_HANDSAKE, VIA_C2_CTRL_OUTPUT_PULSE]

theorem telltale_write (base : BitVec 16) {reg : BitVec 8} (hreg : reg ≤ viaRegMax)
    (hreacts : (viaReg reg).any ViaReg.inert = false) :
    (viaWrite (telltaleVia base) reg 0xFF).via ≠ telltaleVia base := by
  have hsome : ∀ reg : BitVec 8, reg ≤ viaRegMax → (viaReg reg).isSome = true := by decide
  obtain ⟨r, hr⟩ := Option.isSome_iff_exists.mp (hsome reg hreg)
  have hmade := viaWrite_made (telltaleVia base) reg 0xFF
  intro hsame
  have hport : ∀ porta, (telltaleVia base).port porta = (telltaleVia base).portWritten r 0xFF porta := by
    intro porta
    calc (telltaleVia base).port porta
        = (viaWrite (telltaleVia base) reg 0xFF).via.port porta := by rw [hsame]
      _ = ViaOp.portAfter (.write reg 0xFF) (telltaleVia base) porta := hmade.port porta
      _ = (telltaleVia base).portWritten r 0xFF porta := ViaOp.portAfter_write hr ..
  have hacr : (telltaleVia base).acr = _ := (congrArg Via.acr hsame).symm.trans hmade.acr
  have hpcr : (telltaleVia base).pcr = _ := (congrArg Via.pcr hsame).symm.trans hmade.pcr
  have hlatch := congrArg Via.t1l hsame
  have hier := congrArg Via.ier hsame
  have hifr := congrArg Via.ifr hsame
  rw [hr] at hreacts
  simp only [viaWrite, hr] at hlatch hier hifr
  have hff : (0x00#8) ≠ 0xFF := by decide
  cases r with
  | datab => exact hff (congrArg ViaPortState.or (hport false))
  | dataa => exact hff (congrArg ViaPortState.or (hport true))
  | ddrb => exact hff (congrArg ViaPortState.ddr (hport false))
  | ddra => exact hff (congrArg ViaPortState.ddr (hport true))
  | acr => exact absurd hacr (by simp [ViaOp.acrAfter, hr, telltaleVia, viaInit])
  | pcr => exact absurd hpcr (by simp [ViaOp.pcrAfter, hr, telltaleVia, viaInit])
  | t2cl | t2ch | sr | da2 => cases hreacts
  | t1cl | t1ll => exact (by decide : ((0x0000#16 &&& 0xFF00) ||| u16 0xFF) ≠ 0x0000) hlatch
  | t1lh | t1ch =>
    simp only [viaWriteReg, viaClearIfr_via] at hlatch
    exact (by decide : ((0x0000#16 &&& 0x00FF) ||| (u16 0xFF <<< 8)) ≠ 0x0000) hlatch
  | ier => exact (by decide : (0x00#8 ||| (0xFF &&& 0x7F)) ≠ 0x00) hier
  | ifr =>
    simp only [viaWriteReg, viaClearIfr_via] at hifr
    exact (by decide : clearedIfr 0x01 (0xFF &&& 0x7F) ≠ 0x01) hifr

/-- A decoder that looks at the address only accepts the accesses of the run on every bus. -/
theorem AcceptedRun.accepted {conn : BusConn (Board τ)} (honly : conn.params.AddressOnly)
    {accesses : List BusAccess} {bus : Bus (Board τ)} (h : AcceptedRun conn bus accesses)
    (bus₀ : Bus (Board τ)) : ∀ a ∈ accesses, Accepted conn bus₀ a := by
  induction accesses generalizing bus with
  | nil => exact fun a ha => absurd ha List.not_mem_nil
  | cons a accesses ih =>
    obtain ⟨haccepted, hrest⟩ := h
    refine List.forall_mem_cons.mpr ⟨?_, ih hrest⟩
    exact (honly ..).trans haccepted

/-- An access that an aliased address is met in, and the VIA that shows it. -/
theorem BusAccess.Aliased.shows {base : BitVec 16} {a : BusAccess} (h : a.Aliased base)
    {id handle : Nat} {params : BusDecodeParams (Board τ)} {bus : Bus (Board τ)}
    (hvia : bus.devs.via id = telltaleVia base)
    (haccepted : ∀ a' : BusAccess, a'.addr = a.addr → a'.isWrite = a.isWrite →
      Accepted (viaConn id handle params) bus a') :
    ∃ a' : BusAccess, Accepted (viaConn id handle params) bus a' ∧
      connAccess (viaConn id handle params) bus a' ≠ viaAccess id bus a' := by
  cases a with
  | read addr peek sync =>
    obtain ⟨hout, hlow⟩ := h
    have hacc := haccepted (.read addr peek sync) rfl rfl
    refine ⟨.read addr peek sync, hacc, fun hsame => ?_⟩
    rw [connAccess_accepted hacc] at hsame
    simp only [viaAccess, hvia, if_neg (BitVec.not_le.mpr hout), viaBusReadCb,
      show (telltaleVia base).base = base from rfl, if_neg (BitVec.not_lt.mpr hlow)] at hsame
    exact telltale_read base _ (Option.some.inj (Prod.mk.inj hsame).1)
  | write addr value =>
    obtain ⟨hout, hlow, hreacts⟩ := h
    have hacc := haccepted (.write addr 0xFF) rfl rfl
    refine ⟨.write addr 0xFF, hacc, fun hsame => ?_⟩
    rw [connAccess_accepted hacc] at hsame
    simp only [viaAccess, hvia, if_neg (BitVec.not_le.mpr hout), viaBusWriteCb,
      show (telltaleVia base).base = base from rfl, if_neg (BitVec.not_lt.mpr hlow)] at hsame
    have hleft := congrArg (fun b : Bus (Board τ) => b.devs.via id) (Prod.mk.inj hsame).2
    simp only [putViaStep_via, hvia] at hleft
    exact telltale_write base hlow hreacts hleft

/-- A run that meets no aliased address has the registers that it names. A decoder that looks at
the address and the direction only has no other runs exactly if it accepts no such address. -/
theorem via_window_iff (id handle : Nat) (params : BusDecodeParams (Board τ)) (bus₀ : Bus (Board τ))
    (base : BitVec 16) :
    (∀ bus accesses, (bus.devs.via id).base = base → AcceptedRun (viaConn id handle params) bus accesses →
      (∀ a ∈ accesses, ¬ a.Aliased base) → WindowRun id (viaConn id handle params) bus accesses) ∧
    (params.AddressOnly →
      ((∀ bus accesses, (bus.devs.via id).base = base →
          AcceptedRun (viaConn id handle params) bus accesses →
          WindowRun id (viaConn id handle params) bus accesses) ↔
        ∀ a, Accepted (viaConn id handle params) bus₀ a → ¬ a.Aliased base)) := by
  refine ⟨?_, fun honly => ⟨?_, ?_⟩⟩
  · rintro bus accesses rfl haccepted hok
    exact windowRun_of_not_aliased haccepted hok
  · intro hruns a haccepted haliased
    let bus : Bus (Board τ) := { bus₀ with devs := bus₀.devs.putVia id (telltaleVia base) }
    have hvia : bus.devs.via id = telltaleVia base := Board.via_putVia ..
    have hsame : ∀ a' : BusAccess, a'.addr = a.addr → a'.isWrite = a.isWrite →
        Accepted (viaConn id handle params) bus a' := by
      intro a' haddr hwrite
      rw [Accepted, haddr, hwrite]
      exact (honly ..).trans haccepted
    obtain ⟨a', hacc', hdiffer⟩ := haliased.shows hvia hsame
    have hwindow := hruns bus [a'] (by rw [hvia]; rfl) ⟨hacc', trivial⟩
    exact hdiffer hwindow.1
  · rintro hnone bus accesses rfl haccepted
    exact windowRun_of_not_aliased haccepted fun a ha => hnone a (haccepted.accepted honly bus₀ a ha)

/-! ## A VIA at `$1000` that decodes `$1xxx` -/

def viaMask : BusDecodeParams (Board Unit) := .mask 0xF000 0x1000

/-- A bus with a VIA at `$1000`, before its registration. -/
def viaBus : Bus (Board Unit) :=
  { emptyBus with devs := emptyBus.devs.putVia 0 { viaInit with base := 0x1000 } }

theorem via_window_of_registers :
    WindowRun 0 (viaConn 0 1 viaMask) viaBus
        [.write 0x1003 0x0F, .read 0x1003 false false, .read 0x1010 false false] ∧
      ¬ ∀ bus accesses, (bus.devs.via 0).base = 0x1000 → AcceptedRun (viaConn 0 1 viaMask) bus accesses →
        WindowRun 0 (viaConn 0 1 viaMask) bus accesses := by
  have hwindow := via_window_iff 0 1 viaMask viaBus 0x1000
  refine ⟨hwindow.1 viaBus _ rfl ?_ ?_, fun hruns => ?_⟩
  · exact ⟨rfl, rfl, rfl, trivial⟩
  · simp [BusAccess.Aliased, viaRegMax]
  · have hnone := (hwindow.2 fun _ _ _ _ => rfl).mp hruns
    exact hnone (.write 0x1103 0xFF) rfl ⟨by decide, by decide, by decide⟩

/-- A byte written at `$1103` is in the direction register of port A. -/
theorem via_window_leaks :
    AcceptedRun (viaConn 0 1 viaMask) viaBus [.write 0x1103 0xFF] ∧
      ¬ (0x1103#16 - (viaBus.devs.via 0).base ≤ 15) ∧
      ((connAccess (viaConn 0 1 viaMask) viaBus (.write 0x1103 0xFF)).2.devs.via 0).porta.ddr = 0xFF ∧
      ¬ WindowRun 0 (viaConn 0 1 viaMask) viaBus [.write 0x1103 0xFF] := by
  have hddr : ((connAccess (viaConn 0 1 viaMask) viaBus (.write 0x1103 0xFF)).2.devs.via 0).porta.ddr =
      0xFF := by
    have hacc : Accepted (viaConn 0 1 viaMask) viaBus (.write 0x1103 0xFF) := rfl
    rw [connAccess_accepted hacc]
    dsimp only
    rw [putViaStep_via]
    rfl
  refine ⟨⟨rfl, trivial⟩, by decide, hddr, fun hwindow => ?_⟩
  rw [hwindow.1] at hddr
  exact absurd hddr (by decide)

end Cb6502
