import Cb6502.Board

/- When a read of a device's register has no side effect.

   What is proved: `Via.peekQuiet_iff`, `Acia.state_eq_iff`, `At28c256.peekQuiet_iff` — the
   read callback leaves the device as it was exactly if the device is quiet at the address
   (for the ACIA: its registers; what its vote changes is on the bus). -/
namespace Cb6502


/-! ## Quiet devices -/

/-- Clearing the flag `bit` does nothing. -/
def Via.FlagQuiet (v : Via) (bit : BitVec 8) : Prop := v.ifr &&& bit = 0#8 ∧ v.ifr ≠ 0x80#8

/-- A read of port A starts no handshake that is not going on already. -/
def Via.HandshakeQuiet (v : Via) : Prop :=
  viaIsHandshakeOutput v true = true → v.porta.c2Out = false ∧
    (v.c2Ctrl true = VIA_C2_CTRL_OUTPUT_PULSE →
      v.flags.ca2ReadTrigPend = true ∧ v.flags.ca2ReadPulsePend = true)

/-- The register of a VIA at an address. -/
def Via.window (v : Via) (addr : BitVec 16) : Option ViaReg :=
  let reg := u8 (addr - v.base)
  if reg > viaRegMax then none else viaReg reg

def Via.PeekQuiet (v : Via) (addr : BitVec 16) : Prop :=
  match v.window addr with
  | some .dataa => v.FlagQuiet IFR_CA1 ∧ v.HandshakeQuiet
  | some .datab => v.FlagQuiet IFR_CB1
  | some .t1cl => v.FlagQuiet IFR_T1
  | _ => True

section
variable {τ : Type}

/-- Voting IRQ false does nothing for this voter. -/
def VoteQuiet (v : SigVotes) (voter : BitVec 32) : Prop :=
  voter = BUS_SIGNAL_INVALID_VOTER ∨ v.allocated &&& voter = 0#32 ∨ v.irq &&& voter = 0#32

def Acia.PeekQuiet (a : Acia τ) (v : SigVotes) (addr : BitVec 16) : Prop :=
  (addr - a.base = 0#16 → a.statReg &&& ACIA_STATUS_RDRF = 0#8) ∧
    (addr - a.base = 1#16 → a.statReg &&& ACIA_STATUS_IRQ = 0#8 ∧ VoteQuiet v a.voter)

end

def At28c256.PeekQuiet (e : At28c256) (addr : BitVec 16) : Prop :=
  (addr - e.base).toNat < at28ImageSize →
    e.writeState = .idle ∨ addr - e.base ≠ e.lastWriteAddr

/-! ## The VIA -/

/-- IFR after `via_clear_ifr`. -/
def clearedIfr (ifr bit : BitVec 8) : BitVec 8 :=
  if (ifr &&& ~~~(bit &&& 0x7F)) &&& 0x7F = 0 then 0 else ifr &&& ~~~(bit &&& 0x7F)

@[simp] theorem ViaStep.voteIrq_via (s : ViaStep) (voted : Bool) : (s.voteIrq voted).via = s.via := by
  unfold ViaStep.voteIrq
  split <;> rfl

theorem viaClearIfr_via (s : ViaStep) (bit : BitVec 8) :
    (viaClearIfr s bit).via = { s.via with ifr := clearedIfr s.via.ifr bit } := by
  unfold viaClearIfr clearedIfr
  by_cases hlow : (s.via.ifr &&& ~~~(bit &&& 0x7F)) &&& 0x7F = 0
  · rw [if_pos hlow, if_pos hlow]
    split
    · rw [ViaStep.voteIrq_via]
    · rfl
  · rw [if_neg hlow, if_neg hlow]

/-- Without a change of IFR there is no vote. -/
theorem viaClearIfr_of_same {s : ViaStep} {bit : BitVec 8}
    (h : clearedIfr s.via.ifr bit = s.via.ifr) : viaClearIfr s bit = s := by
  have hvia : (viaClearIfr s bit).via = s.via := by rw [viaClearIfr_via, h]
  have hvotes : (viaClearIfr s bit).votes = s.votes := by
    unfold viaClearIfr
    unfold clearedIfr at h
    by_cases hlow : (s.via.ifr &&& ~~~(bit &&& 0x7F)) &&& 0x7F = 0
    · rw [if_pos hlow] at h ⊢
      rw [if_neg (show ¬ s.via.ifr ≠ 0 from fun hne => hne h.symm)]
    · rw [if_neg hlow]
  cases hs : viaClearIfr s bit
  rw [hs] at hvia hvotes
  subst hvia hvotes
  rfl

/-- The flags that reads clear. -/
theorem clearedIfr_eq_self_iff {bit : BitVec 8} (hbit : bit = IFR_CA1 ∨ bit = IFR_CB1 ∨ bit = IFR_T1)
    (v : Via) : clearedIfr v.ifr bit = v.ifr ↔ v.FlagQuiet bit := by
  unfold Via.FlagQuiet
  generalize v.ifr = ifr
  rcases hbit with rfl | rfl | rfl <;> revert ifr <;> decide

/-- The part of a read of port A after the flag is cleared. -/
def readHandshake (s : ViaStep) : ViaStep :=
  if viaIsHandshakeOutput s.via true then
    let s := viaWriteC2State s true false
    if s.via.c2Ctrl true = VIA_C2_CTRL_OUTPUT_PULSE then
      s.mapFlags fun f => { f with ca2ReadTrigPend := true, ca2ReadPulsePend := true }
    else s
  else s

theorem viaWriteC2State_frame (s : ViaStep) (porta state : Bool) :
    (viaWriteC2State s porta state).via.ifr = s.via.ifr ∧
      (viaWriteC2State s porta state).via.pcr = s.via.pcr ∧
      (viaWriteC2State s porta state).via.flags = s.via.flags ∧
      ((viaWriteC2State s porta state).via.port porta).c2Out = state := by
  unfold viaWriteC2State
  by_cases hsame : state = (s.via.port porta).c2Out
  · rw [if_pos hsame]
    exact ⟨rfl, rfl, rfl, hsame.symm⟩
  · rw [if_neg hsame]
    dsimp only
    split <;> cases porta <;> exact ⟨rfl, rfl, rfl, rfl⟩

theorem readHandshake_ifr (s : ViaStep) : (readHandshake s).via.ifr = s.via.ifr := by
  have hframe := (viaWriteC2State_frame s true false).1
  unfold readHandshake
  split
  · simp only
    split
    · exact hframe
    · exact hframe
  · rfl

theorem c2Ctrl_congr {v v' : Via} (h : v'.pcr = v.pcr) (porta : Bool) :
    v'.c2Ctrl porta = v.c2Ctrl porta := by
  unfold Via.c2Ctrl
  rw [h]

theorem ViaStep.mapFlags_of_same {s : ViaStep} {f : ViaFlags → ViaFlags}
    (h : f s.via.flags = s.via.flags) : s.mapFlags f = s := by
  unfold ViaStep.mapFlags
  rw [h]

theorem readHandshake_of_quiet {s : ViaStep} (h : s.via.HandshakeQuiet) : readHandshake s = s := by
  unfold readHandshake
  split
  · rename_i hshake
    obtain ⟨hout, hpulse⟩ := h hshake
    have hwrite : viaWriteC2State s true false = s := if_pos hout.symm
    rw [hwrite]
    dsimp only
    split
    · rename_i hmode
      obtain ⟨htrig, hpend⟩ := hpulse hmode
      apply ViaStep.mapFlags_of_same
      revert htrig hpend
      generalize s.via.flags = flags
      obtain ⟨_, _, _, _, _, _, _, _⟩ := flags
      rintro rfl rfl
      rfl
    · rfl
  · rfl

theorem quiet_of_readHandshake {s : ViaStep} (h : (readHandshake s).via = s.via) :
    s.via.HandshakeQuiet := by
  intro hshake
  obtain ⟨_, hpcr, _, hout⟩ := viaWriteC2State_frame s true false
  have hmode := c2Ctrl_congr hpcr true
  unfold readHandshake at h
  rw [if_pos hshake] at h
  dsimp only at h
  by_cases hpulse : s.via.c2Ctrl true = VIA_C2_CTRL_OUTPUT_PULSE
  · rw [if_pos (hmode.trans hpulse)] at h
    have hflags := congrArg Via.flags h
    have hport := congrArg (fun v => (Via.port v true).c2Out) h
    refine ⟨hport.symm.trans hout, fun _ => ?_⟩
    rw [← hflags]
    exact ⟨rfl, rfl⟩
  · rw [if_neg fun heq => hpulse (hmode.symm.trans heq)] at h
    have hport := congrArg (fun v => (Via.port v true).c2Out) h
    exact ⟨hport.symm.trans hout, fun heq => absurd heq hpulse⟩

/-- What a read of a register does to the VIA. -/
theorem viaReadReg_step (s : ViaStep) (reg : ViaReg) :
    (viaReadReg s reg).2 = match reg with
      | .dataa => readHandshake (viaClearIfr s IFR_CA1)
      | .datab => viaClearIfr s IFR_CB1
      | .t1cl => viaClearIfr s IFR_T1
      | _ => s := by
  cases reg <;> rfl

theorem viaBusReadCb_step (v : Via) (addr : BitVec 16) :
    (viaBusReadCb v addr).2 = match v.window addr with
      | some .dataa => readHandshake (viaClearIfr { via := v } IFR_CA1)
      | some .datab => viaClearIfr { via := v } IFR_CB1
      | some .t1cl => viaClearIfr { via := v } IFR_T1
      | _ => { via := v } := by
  unfold viaBusReadCb Via.window viaRead
  by_cases hout : u8 (addr - v.base) > viaRegMax
  · simp only [hout, if_true]
  · simp only [hout, if_false]
    cases viaReg (u8 (addr - v.base)) with
    | none => rfl
    | some reg =>
      rw [viaReadReg_step]
      cases reg <;> rfl

/-- Clearing one of the flags leaves a VIA as it was exactly if it is quiet. -/
theorem viaClearIfr_via_eq_iff {bit : BitVec 8}
    (hbit : bit = IFR_CA1 ∨ bit = IFR_CB1 ∨ bit = IFR_T1) (v : Via) :
    (viaClearIfr { via := v } bit).via = v ↔ v.FlagQuiet bit := by
  rw [viaClearIfr_via, ← clearedIfr_eq_self_iff hbit]
  constructor
  · intro h
    exact congrArg Via.ifr h
  · intro h
    rw [h]

/-- A peek leaves a VIA as it was, and casts no vote, exactly if the VIA is quiet. -/
theorem Via.peekQuiet_iff (v : Via) (addr : BitVec 16) :
    v.PeekQuiet addr ↔ (viaBusReadCb v addr).2.via = v := by
  unfold Via.PeekQuiet
  rw [viaBusReadCb_step]
  cases v.window addr with
  | none => exact ⟨fun _ => rfl, fun _ => trivial⟩
  | some reg =>
    cases reg with
    | dataa =>
      constructor
      · rintro ⟨hflag, hshake⟩
        have hsame := viaClearIfr_of_same (s := { via := v })
          ((clearedIfr_eq_self_iff (Or.inl rfl) v).2 hflag)
        simp only [hsame, readHandshake_of_quiet (s := { via := v }) hshake]
      · intro h
        have hifr := congrArg Via.ifr h
        rw [readHandshake_ifr, viaClearIfr_via] at hifr
        have hsame := viaClearIfr_of_same (s := { via := v }) hifr
        rw [hsame] at h
        exact ⟨(clearedIfr_eq_self_iff (Or.inl rfl) v).1 hifr,
          quiet_of_readHandshake (s := { via := v }) h⟩
    | datab => exact (viaClearIfr_via_eq_iff (Or.inr (Or.inl rfl)) v).symm
    | t1cl => exact (viaClearIfr_via_eq_iff (Or.inr (Or.inr rfl)) v).symm
    | _ => exact ⟨fun _ => rfl, fun _ => trivial⟩

theorem Via.PeekQuiet.votes {v : Via} {addr : BitVec 16} (h : v.PeekQuiet addr) :
    (viaBusReadCb v addr).2 = { via := v } := by
  unfold Via.PeekQuiet at h
  rw [viaBusReadCb_step]
  have hclear : ∀ {bit : BitVec 8}, bit = IFR_CA1 ∨ bit = IFR_CB1 ∨ bit = IFR_T1 →
      v.FlagQuiet bit → viaClearIfr { via := v } bit = { via := v } :=
    fun hbit hflag => viaClearIfr_of_same ((clearedIfr_eq_self_iff hbit v).2 hflag)
  cases hreg : v.window addr with
  | none => rfl
  | some reg =>
    rw [hreg] at h
    cases reg with
    | dataa =>
      simp only [hclear (Or.inl rfl) h.1]
      exact readHandshake_of_quiet h.2
    | datab => exact hclear (Or.inr (Or.inl rfl)) h
    | t1cl => exact hclear (Or.inr (Or.inr rfl)) h
    | _ => rfl

/-! ## The ACIA and the EEPROM -/

section
variable {τ : Type}

/-- The registers of the ACIA's window: data, status, and those whose reads do nothing. -/
theorem aciaBusReadCb_step (a : Acia τ) (addr : BitVec 16) :
    (aciaBusReadCb a addr).2 =
      if addr - a.base = 0#16 then
        (if a.statReg &&& ACIA_STATUS_RDRF ≠ 0 then
          { a with statReg := a.statReg &&& ~~~aciaRxReadClearBits } else a, [])
      else if addr - a.base = 1#16 then
        ({ a with statReg := a.statReg &&& ~~~ACIA_STATUS_IRQ }, a.voteIrq false)
      else (a, []) := by
  unfold aciaBusReadCb aciaRead
  generalize addr - a.base = reg
  by_cases hdata : reg = 0#16
  · subst hdata
    rw [if_neg (by decide), if_pos (by decide), if_pos rfl]
    split <;> rfl
  · rw [if_neg hdata]
    by_cases hstatus : reg = 1#16
    · subst hstatus
      rw [if_neg (by decide), if_neg (by decide), if_pos (by decide), if_pos rfl]
    · rw [if_neg hstatus]
      dsimp only
      split
      · rfl
      · rename_i hin
        have hcmd : reg = 2#16 := by
          have hlt : reg.toNat < 3 := Nat.lt_of_not_le fun hle => hin (BitVec.le_def.2 hle)
          have hne0 : reg.toNat ≠ 0 := fun h => hdata (BitVec.eq_of_toNat_eq h)
          have hne1 : reg.toNat ≠ 1 := fun h => hstatus (BitVec.eq_of_toNat_eq h)
          apply BitVec.eq_of_toNat_eq
          show reg.toNat = 2
          omega
        subst hcmd
        rfl

theorem status_after_data_read (x : BitVec 8) (h : x &&& ~~~aciaRxReadClearBits = x) :
    x &&& ACIA_STATUS_RDRF = 0#8 := by
  revert x
  decide

theorem status_after_status_read (x : BitVec 8) :
    x &&& ~~~ACIA_STATUS_IRQ = x ↔ x &&& ACIA_STATUS_IRQ = 0#8 := by
  revert x
  decide

/-- The part of `PeekQuiet` that is about the registers. -/
theorem Acia.state_eq_iff (a : Acia τ) (addr : BitVec 16) :
    (aciaBusReadCb a addr).2.1 = a ↔
      (addr - a.base = 0#16 → a.statReg &&& ACIA_STATUS_RDRF = 0#8) ∧
        (addr - a.base = 1#16 → a.statReg &&& ACIA_STATUS_IRQ = 0#8) := by
  rw [aciaBusReadCb_step]
  generalize addr - a.base = reg
  by_cases hdata : reg = 0#16
  · have hne : reg ≠ 1#16 := by
      rw [hdata]
      decide
    rw [if_pos hdata]
    constructor
    · intro h
      refine ⟨fun _ => ?_, fun hstatus => absurd hstatus hne⟩
      apply Decidable.byContradiction
      intro hrdrf
      dsimp only at h
      rw [if_pos (show a.statReg &&& ACIA_STATUS_RDRF ≠ 0 from hrdrf)] at h
      exact hrdrf (status_after_data_read _ (congrArg Acia.statReg h))
    · intro h
      exact if_neg (Decidable.not_not.2 (h.1 hdata))
  · rw [if_neg hdata]
    by_cases hstatus : reg = 1#16
    · rw [if_pos hstatus]
      constructor
      · intro h
        exact ⟨fun heq => absurd heq hdata, fun _ =>
          (status_after_status_read _).1 (congrArg Acia.statReg h)⟩
      · intro h
        dsimp only
        rw [(status_after_status_read _).2 (h.2 hstatus)]
    · rw [if_neg hstatus]
      exact ⟨fun _ => ⟨fun heq => absurd heq hdata, fun heq => absurd heq hstatus⟩, fun _ => rfl⟩

/-- A status read votes; no other read does. -/
theorem aciaBusReadCb_votes (a : Acia τ) (addr : BitVec 16) :
    (aciaBusReadCb a addr).2.2 = if addr - a.base = 1#16 then a.voteIrq false else [] := by
  rw [aciaBusReadCb_step]
  by_cases hdata : addr - a.base = 0#16
  · rw [if_pos hdata, hdata]
    rfl
  · rw [if_neg hdata]
    split <;> rfl

end

theorem At28c256.peekQuiet_iff (e : At28c256) (addr : BitVec 16) :
    e.PeekQuiet addr ↔ (at28c256ReadCb e addr).2 = e := by
  unfold At28c256.PeekQuiet at28c256ReadCb at28c256Read
  by_cases hin : (addr - e.base).toNat < at28ImageSize
  · rw [if_neg (Nat.not_le.2 hin)]
    by_cases hpoll : e.writeState ≠ .idle ∧ addr - e.base = e.lastWriteAddr
    · rw [if_pos hpoll]
      refine ⟨fun h => ?_, fun h => ?_⟩
      · rcases h hin with hidle | hother
        · exact absurd hidle hpoll.1
        · exact absurd hpoll.2 hother
      · -- the strobe bit has been toggled
        have hwrite := congrArg At28c256.lastWrite h
        have htoggle : ∀ x : BitVec 8, x ^^^ STROBE_BIT ≠ x := by decide
        exact absurd hwrite (htoggle _)
    · rw [if_neg hpoll]
      refine ⟨fun _ => rfl, fun _ _ => ?_⟩
      by_cases hidle : e.writeState = .idle
      · exact Or.inl hidle
      · exact Or.inr fun heq => hpoll ⟨hidle, heq⟩
  · rw [if_pos (Nat.le_of_not_lt hin)]
    exact ⟨fun _ => rfl, fun _ h => absurd h hin⟩

end Cb6502
