import Cb6502.SteppingRam
import Cb6502.Stack

/- `debug_next` on a call. It looks for the first boundary at the return address, and between two
   steps it compares the breakpoints with the address that the last step began at.

   What is proved:
     1. `debug_next_breakpoints` — it is true to the breakpoints exactly if the first one on its path,
        should there be one, is at the call itself or has RDY held or an interrupt taken there, and the
        step from it stays there.
     2. `debug_next_same_activation` — it stops in the activation it was called in exactly if the
        call passes no boundary at the return address before it returns. -/
namespace Cb6502
open Phase

variable {ω : Type} {w : World ω}

/-! ## Breakpoints -/

/-- An active breakpoint is at the address. -/
def Debug.Active (handle : Debug) (i : Fin maxBreakpoints) (pc : BitVec 16) : Prop :=
  (handle.breakpoints i).used = true ∧ (handle.breakpoints i).addr = pc

instance (handle : Debug) (i : Fin maxBreakpoints) (pc : BitVec 16) : Decidable (handle.Active i pc) :=
  inferInstanceAs (Decidable (_ ∧ _))

theorem Debug.active_of_breakpointAt {handle : Debug} {pc : BitVec 16} {i : Fin maxBreakpoints}
    (h : handle.breakpointAt pc = some i) : handle.Active i pc := by
  have hfound := List.find?_some h
  rw [Bool.and_eq_true, beq_iff_eq] at hfound
  exact hfound

theorem Debug.not_active_of_breakpointAt {handle : Debug} {pc : BitVec 16}
    (h : handle.breakpointAt pc = none) (i : Fin maxBreakpoints) : ¬handle.Active i pc := by
  rintro ⟨hused, haddr⟩
  have hno := List.find?_eq_none.mp h i (List.mem_finRange i)
  rw [hused, haddr] at hno
  exact hno (by simp)

theorem handle_ne_swRequest (i : Fin maxBreakpoints) : BitVec.ofNat 32 i ≠ breakpointHandleSwRequest := by
  revert i
  decide

theorem handle_injective {i j : Fin maxBreakpoints} (h : BitVec.ofNat 32 i = BitVec.ofNat 32 j) :
    i = j := by
  have htoNat := congrArg BitVec.toNat h
  rw [toNat_handle, toNat_handle] at htoNat
  exact Fin.ext htoNat

/-! ## The loop -/

/-- The loop of `debug_next` from `s`: what it returns, `*breakpoint_hit` and the session. -/
inductive NextLoop (w : World ω) (nextPc : BitVec 16) (bp : Option (BitVec 32)) :
    Session ω → Bool → Option (BitVec 32) → Session ω → Prop where
  | broken {s : Session ω} (h : s.swBreak = true) :
      NextLoop w nextPc bp s true (bp.map fun _ => breakpointHandleSwRequest) s
  | there {s : Session ω} (h : s.swBreak = false) (hpc : s.emu.cpu.regs.pc = nextPc) :
      NextLoop w nextPc bp s false bp s
  | hit {s t : Session ω} {i : Fin maxBreakpoints} (h : s.swBreak = false)
      (hpc : s.emu.cpu.regs.pc ≠ nextPc) (hs : Steps w s t)
      (hi : s.dbg.breakpointAt s.emu.cpu.regs.pc = some i) :
      NextLoop w nextPc bp s true (bp.map fun _ => BitVec.ofNat 32 i) t
  | step {s s' t : Session ω} {r : Bool} {b : Option (BitVec 32)} (h : s.swBreak = false)
      (hpc : s.emu.cpu.regs.pc ≠ nextPc) (hs : Steps w s s')
      (hnone : s.dbg.breakpointAt s.emu.cpu.regs.pc = none) (ht : NextLoop w nextPc bp s' r b t) :
      NextLoop w nextPc bp s r b t

theorem debugNextLoop_nextLoop {stepFuel fuel : Nat} {nextPc : BitVec 16} {bp b : Option (BitVec 32)}
    {s t : Session ω} {r : Bool}
    (h : debugNextLoop w stepFuel nextPc fuel s.emu.cpu.regs.pc bp s = some (r, b, t)) :
    NextLoop w nextPc bp s r b t := by
  induction fuel generalizing s with
  | zero => cases h
  | succ fuel ih =>
    rw [debugNextLoop] at h
    by_cases hgo : s.swBreak = false ∧ nextPc ≠ s.emu.cpu.regs.pc
    · rw [if_pos hgo] at h
      obtain ⟨u, hstep, hrest⟩ := Option.bind_eq_some_iff.mp h
      have hs : Steps w s u := ⟨stepFuel, hstep⟩
      have hpc : s.emu.cpu.regs.pc ≠ nextPc := fun heq => hgo.2 heq.symm
      rw [dbgEvalBreakpoints, hs.frame.dbg] at hrest
      cases hat : s.dbg.breakpointAt s.emu.cpu.regs.pc with
      | some i =>
        rw [hat] at hrest
        obtain ⟨rfl, heq⟩ := Prod.mk.inj (Option.some.inj hrest)
        obtain ⟨rfl, rfl⟩ := Prod.mk.inj heq
        exact .hit hgo.1 hpc hs hat
      | none =>
        rw [hat] at hrest
        exact .step hgo.1 hpc hs hat (ih hrest)
    · rw [if_neg hgo] at h
      cases hbreak : s.swBreak with
      | true =>
        rw [hbreak, if_pos rfl] at h
        obtain ⟨rfl, heq⟩ := Prod.mk.inj (Option.some.inj h)
        obtain ⟨rfl, rfl⟩ := Prod.mk.inj heq
        exact .broken hbreak
      | false =>
        rw [hbreak, if_neg Bool.false_ne_true] at h
        obtain ⟨rfl, heq⟩ := Prod.mk.inj (Option.some.inj h)
        obtain ⟨rfl, rfl⟩ := Prod.mk.inj heq
        have hpc : s.emu.cpu.regs.pc = nextPc := by
          by_contra hne
          exact hgo ⟨hbreak, fun heq => hne heq.symm⟩
        exact .there hbreak hpc

/-- The session that the loop starts with. -/
def Session.nextStart (s : Session ω) : Session ω :=
  { s with emu := (cpuIsSubroutine s.emu).2, swBreak := false }

theorem debugNext_nextLoop {fuel : Nat} {bp b : Option (BitVec 32)} {s t : Session ω} {r : Bool}
    (hjsr : (cpuIsSubroutine s.emu).1 = true) (h : debugNext w fuel s bp = some (r, b, t)) :
    NextLoop w (s.emu.cpu.regs.pc + 3) bp s.nextStart r b t := by
  unfold debugNext at h
  simp only [hjsr, if_true] at h
  exact debugNextLoop_nextLoop h

/-! ## Where the loop stops -/

/-- A request to break, the return address or a breakpoint. -/
def Session.Watched (nextPc : BitVec 16) (v : Session ω) : Prop :=
  v.swBreak = true ∨ v.emu.cpu.regs.pc = nextPc ∨ ∃ i, v.dbg.Active i v.emu.cpu.regs.pc

/-- On the path of steps from `s`, `v` is the first state at a breakpoint, and there was no request to
break and no state at the return address until then. -/
structure MeetsBreakpoint (w : World ω) (nextPc : BitVec 16) (s v : Session ω) : Prop where
  first : Until (Steps w) (Session.Watched nextPc) s v
  unbroken : v.swBreak = false
  away : v.emu.cpu.regs.pc ≠ nextPc

/-- The loop goes to the first state that is watched. At a breakpoint it makes one step more. -/
theorem NextLoop.search {nextPc : BitVec 16} {bp b : Option (BitVec 32)} {s t : Session ω} {r : Bool}
    (h : NextLoop w nextPc bp s r b t) :
    (Until (Steps w) (Session.Watched nextPc) s t ∧ (t.swBreak = true ∨ t.emu.cpu.regs.pc = nextPc) ∧
        (r = false ∨ b = bp.map fun _ => breakpointHandleSwRequest)) ∨
      ∃ v, ∃ i : Fin maxBreakpoints, MeetsBreakpoint w nextPc s v ∧ v.dbg.Active i v.emu.cpu.regs.pc ∧
        Steps w v t ∧ r = true ∧ b = bp.map fun _ => BitVec.ofNat 32 i := by
  induction h with
  | broken h => exact .inl ⟨.here (.inl h), .inl h, .inr rfl⟩
  | there h hpc => exact .inl ⟨.here (.inr (.inl hpc)), .inr hpc, .inl rfl⟩
  | hit h hpc hs hi =>
    have hactive := Debug.active_of_breakpointAt hi
    exact .inr ⟨_, _, ⟨.here (.inr (.inr ⟨_, hactive⟩)), h, hpc⟩, hactive, hs, rfl, rfl⟩
  | @step s s' t r b h hpc hs hnone ht ih =>
    have hno : ¬s.Watched nextPc := by
      rintro (hbreak | hthere | ⟨i, hactive⟩)
      · exact absurd (hbreak.symm.trans h) (by decide)
      · exact hpc hthere
      · exact Debug.not_active_of_breakpointAt hnone i hactive
    rcases ih with ⟨hfirst, hstop⟩ | ⟨v, i, ⟨hfirst, hquiet, haway⟩, hhit⟩
    · exact .inl ⟨.step hno hs hfirst, hstop⟩
    · exact .inr ⟨v, i, ⟨.step hno hs hfirst, hquiet, haway⟩, hhit⟩

/-! ## Truth to the breakpoints -/

/-- The step from `v` fetches an instruction: RDY is not held, and no interrupt is taken. -/
def Session.fetches (w : World ω) (v : Session ω) : Bool :=
  (v.tickStart w).bus.sigvotes.rdy == 0 && !intTaken (v.tickStart w).bus.sigvotes v.emu.cpu.regs

/-- The breakpoint returned is at the program counter, and no instruction at a breakpoint has been
executed but the first. -/
structure StopsTruthfully (w : World ω) (s : Session ω) (r : Bool) (b : Option (BitVec 32))
    (t : Session ω) : Prop where
  hit : r = true → ∀ h, b = some h → h ≠ breakpointHandleSwRequest →
    ∃ i : Fin maxBreakpoints, h = BitVec.ofNat 32 i ∧ t.dbg.Active i t.emu.cpu.regs.pc
  passed : ∀ v, Later (Steps w) s v → v.ticks < t.ticks → v ≠ s → v.fetches w = true →
    ∀ i, ¬s.dbg.Active i v.emu.cpu.regs.pc

theorem later_dbg {s v : Session ω} (h : Later (Steps w) s v) : v.dbg = s.dbg := by
  induction h with
  | refl => rfl
  | tail _ hs ih => exact hs.frame.dbg.trans ih

/-- In the first tick of the step from `v` RDY is held, or an interrupt is taken. -/
def Session.Diverted (w : World ω) (v : Session ω) : Prop :=
  (v.tickStart w).bus.sigvotes.rdy ≠ 0 ∨ intTaken (v.tickStart w).bus.sigvotes v.emu.cpu.regs = true

theorem diverted_iff {v : Session ω} : v.Diverted w ↔ v.fetches w = false := by
  unfold Session.Diverted Session.fetches
  by_cases hrdy : (v.tickStart w).bus.sigvotes.rdy = 0
  · simp [hrdy]
  · have hheld : ((v.tickStart w).bus.sigvotes.rdy == 0) = false := beq_eq_false_iff_ne.mpr hrdy
    rw [hheld, Bool.false_and]
    exact iff_of_true (.inl hrdy) rfl

/-- The step from `v` leaves the program counter where it is. -/
def Session.Stays (w : World ω) (v : Session ω) : Prop :=
  ∀ v', Steps w v v' → v'.emu.cpu.regs.pc = v.emu.cpu.regs.pc

theorem not_active_before {nextPc : BitVec 16} {s u v : Session ω}
    (h : Until (Steps w) (Session.Watched nextPc) s v) (hu : Later (Steps w) s u)
    (hlt : u.ticks < v.ticks) (i : Fin maxBreakpoints) : ¬s.dbg.Active i u.emu.cpu.regs.pc := by
  intro hactive
  rw [← later_dbg hu] at hactive
  exact h.before (clocked_steps w) hu hlt (.inr (.inr ⟨i, hactive⟩))

/-- Where no step begins at a breakpoint there is nothing to be true to. -/
theorem StopsTruthfully.of_passed {bp b : Option (BitVec 32)} {s t : Session ω} {r : Bool}
    (hend : r = false ∨ b = bp.map fun _ => breakpointHandleSwRequest)
    (hoff : ∀ u, Later (Steps w) s u → u.ticks < t.ticks →
      ∀ i, ¬s.dbg.Active i u.emu.cpu.regs.pc) : StopsTruthfully w s r b t := by
  refine ⟨?_, fun u hu hlt _ _ => hoff u hu hlt⟩
  intro hr handle hb hne
  rcases hend with hfalse | hsw
  · exact absurd (hr.symm.trans hfalse) (by decide)
  · rw [hsw] at hb
    obtain ⟨-, -, rfl⟩ := Option.map_eq_some_iff.mp hb
    exact absurd rfl hne

/-- The step from the breakpoint that is met is the last one, and decides whether the stop is truthful. -/
theorem stopsTruthfully_hit {nextPc : BitVec 16} {bp : Option (BitVec 32)} {s v t : Session ω}
    {i : Fin maxBreakpoints} (hmeets : MeetsBreakpoint w nextPc s v)
    (hactive : v.dbg.Active i v.emu.cpu.regs.pc) (hstep : Steps w v t) :
    StopsTruthfully w s true (bp.map fun _ => BitVec.ofNat 32 i) t ↔
      (v = s ∨ v.Diverted w) ∧ (bp = none ∨ v.Stays w) := by
  rw [diverted_iff]
  have hc := clocked_steps w
  have hlater := hmeets.first.later
  have hdbg : t.dbg = v.dbg := hstep.frame.dbg
  constructor
  · rintro ⟨hhit, hpassed⟩
    refine ⟨?_, ?_⟩
    · by_contra hno
      obtain ⟨hne, hfetch⟩ := not_or.mp hno
      rw [later_dbg hlater] at hactive
      exact hpassed v hlater hstep.frame.ticks hne (Bool.eq_true_of_not_eq_false hfetch) i hactive
    · cases bp with
      | none => exact .inl rfl
      | some old =>
        refine .inr fun v' hv' => ?_
        obtain rfl := hc.functional hv' hstep
        obtain ⟨j, hj, hat⟩ := hhit rfl _ rfl (handle_ne_swRequest i)
        obtain rfl := handle_injective hj
        rw [hdbg] at hat
        exact hat.2.symm.trans hactive.2
  · rintro ⟨hfirst, hstays⟩
    refine ⟨?_, ?_⟩
    · intro _ handle hb _
      obtain ⟨old, rfl, rfl⟩ := Option.map_eq_some_iff.mp hb
      refine ⟨i, rfl, ?_⟩
      rw [hdbg, (hstays.resolve_left (Option.some_ne_none old)) t hstep]
      exact hactive
    · intro u hu hlt hne hfetch j hj
      by_cases hearly : u.ticks < v.ticks
      · exact not_active_before hmeets.first hu hearly j hj
      · obtain rfl := Later.eq_of_between hc hu hlater hstep (Nat.not_lt.mp hearly) hlt
        exact Bool.noConfusion (hfetch.symm.trans (hfirst.resolve_left hne))

/-- On a call, for every bus, world, table of breakpoints and pointer, `debug_next` is true to the
breakpoints exactly if the first state at a breakpoint on the path of steps, should there be one before
a request to break and before the return address, is the start or has RDY held or an interrupt to take,
and the step from it leaves the program counter where it is, unless the pointer is null. -/
theorem debug_next_breakpoints {fuel : Nat} {bp b : Option (BitVec 32)} {s t : Session ω} {r : Bool}
    (hjsr : (cpuIsSubroutine s.emu).1 = true) (h : debugNext w fuel s bp = some (r, b, t)) :
    StopsTruthfully w s.nextStart r b t ↔
      ∀ v, MeetsBreakpoint w (s.emu.cpu.regs.pc + 3) s.nextStart v →
        (v = s.nextStart ∨ v.Diverted w) ∧ (bp = none ∨ v.Stays w) := by
  have hc := clocked_steps w
  rcases (debugNext_nextLoop hjsr h).search with ⟨hfirst, hstop, hend⟩ | ⟨v, i, hmeets, hactive, hstep, rfl, rfl⟩
  · -- no breakpoint is met
    refine iff_of_true (.of_passed hend fun u hu hlt => not_active_before hfirst hu hlt) fun v hmeets => ?_
    obtain rfl := hfirst.unique hc hmeets.first
    rcases hstop with hbreak | hthere
    · exact absurd (hbreak.symm.trans hmeets.unbroken) (by decide)
    · exact absurd hthere hmeets.away
  · rw [stopsTruthfully_hit hmeets hactive hstep]
    constructor
    · intro hv v' hmeets'
      obtain rfl := hmeets.first.unique hc hmeets'.first
      exact hv
    · intro hall
      exact hall v hmeets

/-- The loop of `debug_run` stopped at a breakpoint or on a request to break, and began no step at a
breakpoint. -/
structure RunStops (w : World ω) (bp b : Option (BitVec 32)) (s t : Session ω) : Prop where
  stop : t.swBreak = true ∨ ∃ i : Fin maxBreakpoints, t.dbg.Active i t.emu.cpu.regs.pc ∧
    b = bp.map fun _ => BitVec.ofNat 32 i
  passed : ∀ v, Later (Steps w) s v → v.ticks < t.ticks → ∀ i, ¬t.dbg.Active i v.emu.cpu.regs.pc

theorem debugRunLoop_stops {stepFuel fuel : Nat} {bp b : Option (BitVec 32)} {s t : Session ω}
    (h : debugRunLoop w stepFuel fuel bp s = some (b, t)) : t.dbg = s.dbg ∧ RunStops w bp b s t := by
  have hc := clocked_steps w
  have hnone : ∀ {u v : Session ω}, Later (Steps w) u v → ¬v.ticks < u.ticks :=
    fun hv => Nat.not_lt.mpr (hv.clock_le hc)
  induction fuel generalizing s with
  | zero => cases h
  | succ fuel ih =>
    rw [debugRunLoop, dbgEvalBreakpoints] at h
    by_cases hgo : s.swBreak = false
    · rw [if_pos hgo] at h
      cases hat : s.dbg.breakpointAt s.emu.cpu.regs.pc with
      | some i =>
        rw [hat] at h
        obtain ⟨rfl, rfl⟩ := Prod.mk.inj (Option.some.inj h)
        have hactive := Debug.active_of_breakpointAt hat
        exact ⟨rfl, .inr ⟨i, hactive, rfl⟩, fun v hv hlt => absurd hlt (hnone hv)⟩
      | none =>
        rw [hat] at h
        obtain ⟨u, hstep, hrest⟩ := Option.bind_eq_some_iff.mp h
        have hs : Steps w s u := ⟨stepFuel, hstep⟩
        obtain ⟨hkept, hstop, hpassed⟩ := ih hrest
        have hdbg : t.dbg = s.dbg := hkept.trans hs.frame.dbg
        refine ⟨hdbg, hstop, fun v hv hlt i => ?_⟩
        rcases hv.cases hc hs with rfl | hv
        · rw [hdbg]
          exact Debug.not_active_of_breakpointAt hat i
        · exact hpassed v hv hlt i
    · rw [if_neg hgo] at h
      obtain ⟨rfl, rfl⟩ := Prod.mk.inj (Option.some.inj h)
      exact ⟨rfl, .inl (by simpa using hgo), fun v hv hlt => absurd hlt (hnone hv)⟩

/-- `debug_run` compares before it steps: it stops at the breakpoint it returns, and no step began
at one. -/
theorem debug_run_breakpoints {fuel : Nat} {bp b : Option (BitVec 32)} {s t : Session ω}
    (h : debugRun w fuel s bp = some (b, t)) : RunStops w bp b { s with swBreak := false } t :=
  (debugRunLoop_stops h).2

/-- Nothing happens besides the CPU's cycles. -/
def idleWorld : World ω := { before := fun _ bus => bus, after := fun _ bus => bus, breaks := fun _ => false }

/-- `JSR target` at `$0200`, `opcode` everywhere else, and one breakpoint. -/
def callSession (target : BitVec 16) (opcode : BitVec 8) (breakpoint : BitVec 16) : Session Mem :=
  { dbg := (debugSetBreakpointAddr debugInit 0 breakpoint).2.2
    emu :=
      { bus := Bus.init flatRam.conns [] fun addr =>
          if addr = 0x0200 then 0x20 else if addr = 0x0201 then u8 target
          else if addr = 0x0202 then u8 (target >>> 8) else opcode
        cpu := { regs := { pc := 0x0200, sp := 0xFF } } }
    swBreak := false
    ticks := 0 }

/-- `JSR $0200` at `$0200`, and the breakpoint there. -/
theorem debug_next_breakpoints_of_self_call :
    ∃ t, debugNext idleWorld 20 (callSession 0x0200 0xEA 0x0200) (some 7) = some (true, some 0, t) ∧
      t.emu.cpu.regs.pc = 0x0200 ∧ t.ticks = 6 ∧
      StopsTruthfully idleWorld (callSession 0x0200 0xEA 0x0200).nextStart true (some 0) t := by
  have hrun : ((debugNext idleWorld 20 (callSession 0x0200 0xEA 0x0200) (some 7)).map fun x =>
      (x.1, x.2.1, x.2.2.emu.cpu.regs.pc, x.2.2.ticks)) = some (true, some 0, 0x0200, 6) := by
    decide +kernel
  have hstep : ((debugStepI idleWorld 20 (callSession 0x0200 0xEA 0x0200).nextStart).map fun v =>
      v.emu.cpu.regs.pc) = some 0x0200 := by decide +kernel
  obtain ⟨⟨r, b, t⟩, hnext, heq⟩ := Option.map_eq_some_iff.mp hrun
  obtain ⟨rfl, heq⟩ := Prod.mk.inj heq
  obtain ⟨rfl, heq⟩ := Prod.mk.inj heq
  obtain ⟨hpc, hticks⟩ := Prod.mk.inj heq
  obtain ⟨u, hu, hstays⟩ := Option.map_eq_some_iff.mp hstep
  refine ⟨t, hnext, hpc, hticks, (debug_next_breakpoints (by decide) hnext).mpr fun v hmeets => ?_⟩
  -- the call itself is at the breakpoint
  have hstart : Session.Watched (0x0200 + 3) (callSession 0x0200 0xEA 0x0200).nextStart :=
    .inr (.inr ⟨⟨0, by decide⟩, by decide⟩)
  obtain rfl := hmeets.first.unique (clocked_steps idleWorld) (.here hstart)
  refine ⟨.inl rfl, .inr fun v' hv' => ?_⟩
  obtain rfl := (clocked_steps idleWorld).functional hv' ⟨20, hu⟩
  exact hstays

/-- `NOP` at `$0300` with the breakpoint there: it is executed, and `debug_next` stops behind it. -/
theorem debug_next_passes_breakpoint :
    ¬ ∀ (w : World Mem) (fuel : Nat) (s : Session Mem) (bp b : Option (BitVec 32)) (r : Bool)
      (t : Session Mem), (cpuIsSubroutine s.emu).1 = true → debugNext w fuel s bp = some (r, b, t) →
        StopsTruthfully w s.nextStart r b t := by
  intro hclaim
  have hrun : ((debugNext idleWorld 20 (callSession 0x0300 0xEA 0x0300) (some 7)).map fun x =>
      (x.1, x.2.1, x.2.2.emu.cpu.regs.pc)) = some (true, some 0, 0x0301) := by decide +kernel
  obtain ⟨⟨r, b, t⟩, hnext, heq⟩ := Option.map_eq_some_iff.mp hrun
  obtain ⟨rfl, heq⟩ := Prod.mk.inj heq
  obtain ⟨rfl, hpc⟩ := Prod.mk.inj heq
  have htrue := hclaim _ _ _ _ _ _ t (by decide) hnext
  obtain ⟨i, -, hactive⟩ := htrue.hit rfl 0 rfl (by decide)
  have hdbg : t.dbg = (callSession 0x0300 0xEA 0x0300).dbg := by
    rcases (debugNext_nextLoop (by decide) hnext).search with ⟨hfirst, -⟩ | ⟨v, j, hmeets, -, hstep, -⟩
    · exact later_dbg hfirst.later
    · exact hstep.frame.dbg.trans (later_dbg hmeets.first.later)
  rw [hdbg, hpc] at hactive
  revert i
  decide

/-! ## Activations -/

section
variable {R : Ram ω}

/-- The step from `v` executes the RTS that returns from the call that `s` made and that `e` has
just entered: it pulls the two bytes that JSR pushed, from where it pushed them. -/
def ReturnsFrom (w : World ω) (R : Ram ω) (s e v : Session ω) : Prop :=
  Resumes R e.emu (v.tickStart w) 0x60 [stackAddr s.emu.cpu.regs.sp, stackAddr (s.emu.cpu.regs.sp - 1)]

/-- `v` is a boundary inside the call. -/
def InCall (w : World ω) (R : Ram ω) (s e v : Session ω) : Prop :=
  Inside (Steps w) (ReturnsFrom w R s e) e v

/-- The call returns at `t`. -/
def CallReturns (w : World ω) (R : Ram ω) (s e t : Session ω) : Prop :=
  EndsAt (Steps w) (ReturnsFrom w R s e) e t

/-- A call at `s`, just entered at `e`. -/
structure Call (w : World ω) (R : Ram ω) (s e : Session ω) : Prop where
  fetches : Fetches R (s.tickStart w)
  jsr : R.mem s.emu.bus.devs s.emu.cpu.regs.pc = 0x20
  enters : Steps w { s with swBreak := false } e

section
variable (hw : w.OnlyVotes) {s e : Session ω} (h : Call w R s e)
include hw h

/-- What JSR does. -/
theorem Call.entered :
    R.mem e.emu.bus.devs =
        pushWord (R.mem s.emu.bus.devs) s.emu.cpu.regs.sp (s.emu.cpu.regs.pc + 2) ∧
      e.emu.cpu.regs = { s.emu.cpu.regs with
        pc := joinBytes (R.mem s.emu.bus.devs (s.emu.cpu.regs.pc + 1))
          (R.mem e.emu.bus.devs (s.emu.cpu.regs.pc + 2))
        sp := s.emu.cpu.regs.sp - 2 } := by
  have hdevs := tickStart_devs hw s
  have hrun : Executes (s.tickStart w) e.emu := h.enters.executes hw h.fetches.rdy
  have hop : R.mem (s.tickStart w).bus.devs (s.tickStart w).cpu.regs.pc = 0x20 := by
    rw [hdevs]
    exact h.jsr
  have hjsr := hrun.jsr h.fetches hop
  rw [hdevs] at hjsr
  exact hjsr

/-- The return leads behind the JSR, with its stack pointer. -/
theorem Call.returned {v t : Session ω} (hv : ReturnsFrom w R s e v) (hs : Steps w v t) :
    t.emu.cpu.regs.pc = s.emu.cpu.regs.pc + 3 ∧ t.emu.cpu.regs.sp = s.emu.cpu.regs.sp := by
  obtain ⟨hmem, hregs⟩ := h.entered hw
  have hsp : e.emu.cpu.regs.sp = s.emu.cpu.regs.sp - 2 := by rw [hregs]
  obtain ⟨hpc, hback⟩ := (hs.executes hw hv.rdy).rts_pushed hv hmem hsp
  refine ⟨?_, hback⟩
  calc t.emu.cpu.regs.pc = s.emu.cpu.regs.pc + 2 + 1 := hpc
    _ = s.emu.cpu.regs.pc + 3 := by bv_omega

theorem Call.nextStart (hR : R.Peeks) :
    (cpuIsSubroutine s.emu).1 = true ∧ s.nextStart = { s with swBreak := false } := by
  have hram := (tickStart_onRam hw s).mp h.fetches.ram
  have hpeek := cpuIsSubroutine_onRam hR hram
  refine ⟨?_, ?_⟩
  · rw [hpeek, h.jsr]
    rfl
  · rw [Session.nextStart, hpeek]

end

theorem NextLoop.until {nextPc : BitVec 16} {bp b : Option (BitVec 32)} {s t : Session ω} {r : Bool}
    (h : NextLoop w nextPc bp s r b t) (hr : r = false) :
    Until (Steps w) (fun v => v.emu.cpu.regs.pc = nextPc) s t := by
  induction h with
  | broken => cases hr
  | there _ hpc => exact .here hpc
  | hit => cases hr
  | step _ hpc hs _ _ ih => exact .step hpc hs (ih hr)

theorem pc_add_three_ne (pc : BitVec 16) : pc ≠ pc + 3 := by bv_omega

/-- On a RAM, in a world that changes the votes only, `debug_next` on a call returns false in the
activation that made it exactly if no boundary inside the call is at the return address. -/
theorem debug_next_same_activation (hR : R.Peeks) (hw : w.OnlyVotes) {fuel : Nat}
    {bp b : Option (BitVec 32)} {s e t : Session ω} (hcall : Call w R s e)
    (hnext : debugNext w fuel s bp = some (false, b, t)) :
    (t.emu.cpu.regs.pc = s.emu.cpu.regs.pc + 3 ∧ t.emu.cpu.regs.sp = s.emu.cpu.regs.sp ∧
        CallReturns w R s e t) ↔
      ∀ v, InCall w R s e v → v.emu.cpu.regs.pc ≠ s.emu.cpu.regs.pc + 3 := by
  have hc := clocked_steps w
  obtain ⟨hjsr, hstart⟩ := hcall.nextStart hw hR
  have hloop := debugNext_nextLoop hjsr hnext
  rw [hstart] at hloop
  have hsearch : Until (Steps w) (fun v => v.emu.cpu.regs.pc = s.emu.cpu.regs.pc + 3) e t := by
    cases hloop.until rfl with
    | here hpc => exact absurd hpc (pc_add_three_ne _)
    | step _ hs hrest =>
      obtain rfl := hc.functional hs hcall.enters
      exact hrest
  have hexit : ∀ v u, ReturnsFrom w R s e v → Steps w v u →
      u.emu.cpu.regs.pc = s.emu.cpu.regs.pc + 3 := fun v u hv hs => (hcall.returned hw hv hs).1
  refine Iff.trans ?_ (hsearch.endsAt_iff hc hexit)
  constructor
  · intro h
    exact h.2.2
  · intro hends
    obtain ⟨v, -, hv, hs⟩ := id hends
    obtain ⟨hpc, hsp⟩ := hcall.returned hw hv hs
    exact ⟨hpc, hsp, hends⟩

/-! ## The search comes to an end -/

theorem debugNextLoop_mono {stepFuel fuel : Nat} (j k : Nat) {nextPc pc : BitVec 16}
    {bp : Option (BitVec 32)} {s : Session ω} {x : Bool × Option (BitVec 32) × Session ω}
    (h : debugNextLoop w stepFuel nextPc fuel pc bp s = some x) :
    debugNextLoop w (stepFuel + j) nextPc (fuel + k) pc bp s = some x := by
  induction fuel generalizing pc bp s with
  | zero => cases h
  | succ fuel ih =>
    rw [Nat.add_right_comm]
    rw [debugNextLoop] at h ⊢
    by_cases hgo : s.swBreak = false ∧ nextPc ≠ s.emu.cpu.regs.pc
    · rw [if_pos hgo] at h ⊢
      obtain ⟨u, hstep, hrest⟩ := Option.bind_eq_some_iff.mp h
      refine Option.bind_eq_some_iff.mpr ⟨u, debugStepI_mono (Nat.le_add_right _ _) hstep, ?_⟩
      rcases hat : dbgEvalBreakpoints u.dbg pc bp with ⟨_ | _, b⟩
      · rw [hat] at hrest
        exact ih hrest
      · rw [hat] at hrest
        exact hrest
    · rw [if_neg hgo] at h ⊢
      exact h

/-- The loop from `s` returns false. -/
def NextReturns (w : World ω) (nextPc : BitVec 16) (bp : Option (BitVec 32)) (s : Session ω) : Prop :=
  ∃ fuel t, debugNextLoop w fuel nextPc fuel s.emu.cpu.regs.pc bp s = some (false, bp, t)

theorem nextReturns_there {nextPc : BitVec 16} {bp : Option (BitVec 32)} {s : Session ω}
    (hbreak : s.swBreak = false) (hpc : s.emu.cpu.regs.pc = nextPc) : NextReturns w nextPc bp s := by
  refine ⟨1, s, ?_⟩
  rw [debugNextLoop, if_neg fun h => h.2 hpc.symm, hbreak]
  rfl

theorem NextReturns.step {nextPc : BitVec 16} {bp : Option (BitVec 32)} {s s' : Session ω}
    (h : NextReturns w nextPc bp s') (hbreak : s.swBreak = false) (hs : Steps w s s')
    (hnone : s.dbg.breakpointAt s.emu.cpu.regs.pc = none) : NextReturns w nextPc bp s := by
  by_cases hpc : s.emu.cpu.regs.pc = nextPc
  · exact nextReturns_there hbreak hpc
  · obtain ⟨fuel, t, hrest⟩ := h
    obtain ⟨stepFuel, hstep⟩ := hs
    refine ⟨fuel + stepFuel + 1, t, ?_⟩
    rw [debugNextLoop, if_pos ⟨hbreak, fun heq => hpc heq.symm⟩]
    refine Option.bind_eq_some_iff.mpr ⟨s', debugStepI_mono (by omega) hstep, ?_⟩
    rw [dbgEvalBreakpoints, (Steps.frame ⟨stepFuel, hstep⟩).dbg, hnone]
    exact debugNextLoop_mono (stepFuel + 1) stepFuel hrest

/-- The loop returns from where a phase without breakpoints begins, if it does from a state inside. -/
theorem NextReturns.back {nextPc : BitVec 16} {bp : Option (BitVec 32)} {e v : Session ω}
    {exit : Session ω → Prop} (hin : Inside (Steps w) exit e v)
    (hnone : ∀ a, Inside (Steps w) exit e a → a.dbg.breakpointAt a.emu.cpu.regs.pc = none)
    (h : NextReturns w nextPc bp v) (hbreak : v.swBreak = false) :
    NextReturns w nextPc bp e ∧ e.swBreak = false := by
  induction hin with
  | refl => exact ⟨h, hbreak⟩
  | @tail a b hea hab ih =>
    have hquiet : a.swBreak = false := hab.2.unbroken hbreak
    exact ih (h.step hquiet hab.2 (hnone a hea)) hquiet

/-- A call that returns, with no breakpoint on its way and no request to break: `debug_next`
returns false. -/
theorem debug_next_returns (hR : R.Peeks) (hw : w.OnlyVotes) {s e u : Session ω}
    (bp : Option (BitVec 32)) (hcall : Call w R s e) (hret : CallReturns w R s e u)
    (hat : s.dbg.breakpointAt s.emu.cpu.regs.pc = none)
    (hinside : ∀ v, InCall w R s e v → s.dbg.breakpointAt v.emu.cpu.regs.pc = none)
    (hbreak : u.swBreak = false) : ∃ fuel t, debugNext w fuel s bp = some (false, bp, t) := by
  obtain ⟨hjsr, hstart⟩ := hcall.nextStart hw hR
  obtain ⟨v, hin, hv, hs⟩ := hret
  have hnone : ∀ a, InCall w R s e a → a.dbg.breakpointAt a.emu.cpu.regs.pc = none := by
    intro a ha
    have hlater : Later (Steps w) e a := Relation.ReflTransGen.mono (fun _ _ h => h.2) _ _ ha
    rw [later_dbg hlater, hcall.enters.frame.dbg]
    exact hinside a ha
  have hlast : NextReturns w (s.emu.cpu.regs.pc + 3) bp u :=
    nextReturns_there hbreak (hcall.returned hw hv hs).1
  have hquiet : v.swBreak = false := hs.unbroken hbreak
  have hentered : NextReturns w (s.emu.cpu.regs.pc + 3) bp e :=
    (NextReturns.back hin hnone (hlast.step hquiet hs (hnone v hin)) hquiet).1
  obtain ⟨fuel, t, hloop⟩ := hentered.step (s := { s with swBreak := false }) rfl hcall.enters hat
  refine ⟨fuel, t, ?_⟩
  unfold debugNext
  simp only [hjsr, if_true]
  have hemu : (cpuIsSubroutine s.emu).2 = s.emu := congrArg Session.emu hstart
  rw [hemu]
  exact hloop

end

/-! ## A call to RTS -/

theorem idleWorld_onlyVotes : (idleWorld : World ω).OnlyVotes :=
  ⟨fun _ bus => ⟨bus.sigvotes, rfl⟩, fun _ bus => ⟨bus.sigvotes, rfl⟩⟩

/-- An RTS off the stack and off the JSR returns at once. -/
theorem callSession_returns (target : BitVec 16) (hpage : page target ≠ 0x0100)
    (hrts : (callSession target 0x60 0).emu.bus.devs target = 0x60)
    (hrun : ((debugStepI idleWorld 20 (callSession target 0x60 0)).map fun e => e.emu.bus.sigvotes) =
      some {}) :
    ∃ e, Call idleWorld flatRam (callSession target 0x60 0) e ∧ e.emu.cpu.regs.pc = target ∧
      ReturnsFrom idleWorld flatRam (callSession target 0x60 0) e e := by
  obtain ⟨e, hstep, hvotes⟩ := Option.map_eq_some_iff.mp hrun
  have hfetch : Fetches flatRam ((callSession target 0x60 0).tickStart idleWorld) :=
    ⟨⟨rfl, rfl, trivial⟩, rfl, rfl, rfl⟩
  have hcall : Call idleWorld flatRam (callSession target 0x60 0) e := ⟨hfetch, rfl, 20, hstep⟩
  obtain ⟨hmem, hregs⟩ := hcall.entered idleWorld_onlyVotes
  have hoff : ∀ addr, page addr ≠ 0x0100 →
      flatRam.mem e.emu.bus.devs addr = (callSession target 0x60 0).emu.bus.devs addr := by
    intro addr haddr
    rw [hmem]
    exact pushWord_off _ _ _ haddr
  have hpc : e.emu.cpu.regs.pc = target := by
    rw [hregs]
    show joinBytes (u8 target) (flatRam.mem e.emu.bus.devs 0x0202) = target
    rw [hoff 0x0202 (by decide)]
    exact joinBytes_split target
  obtain ⟨n, hrun, he⟩ := hcall.enters.executes idleWorld_onlyVotes rfl
  refine ⟨e, hcall, hpc, ⟨hrun.onRam hfetch.ram hfetch.boundary, he, ?_, ?_⟩, ?_, rfl, fun _ _ => rfl⟩
  · show e.emu.bus.sigvotes.rdy = 0
    rw [hvotes]
  · show intTaken e.emu.bus.sigvotes e.emu.cpu.regs = false
    rw [hvotes]
    rfl
  · show flatRam.mem e.emu.bus.devs e.emu.cpu.regs.pc = 0x60
    rw [hpc, hoff target hpage]
    exact hrts

theorem debug_next_same_activation_of_rts :
    ∃ e t, debugNext idleWorld 20 (callSession 0x0300 0x60 0) none = some (false, none, t) ∧
      t.emu.cpu.regs.pc = 0x0203 ∧ t.emu.cpu.regs.sp = 0xFF ∧
      CallReturns idleWorld flatRam (callSession 0x0300 0x60 0) e t := by
  obtain ⟨e, hcall, hpc, hexit⟩ :=
    callSession_returns 0x0300 (by decide) (by decide) (by decide +kernel)
  have hrun : ((debugNext idleWorld 20 (callSession 0x0300 0x60 0) none).map fun x =>
      (x.1, x.2.1)) = some (false, none) := by decide +kernel
  obtain ⟨⟨r, b, t⟩, hnext, heq⟩ := Option.map_eq_some_iff.mp hrun
  obtain ⟨rfl, rfl⟩ := Prod.mk.inj heq
  refine ⟨e, t, hnext, ?_⟩
  apply (debug_next_same_activation flatRam_peeks idleWorld_onlyVotes hcall hnext).mpr
  intro v hin
  rw [inside_exit hexit hin, hpc]
  decide

/-- `JSR $0203` at `$0200`, and `RTS` at `$0203`. -/
theorem debug_next_stops_in_callee :
    ¬ ∀ (w : World Mem) (fuel : Nat) (bp b : Option (BitVec 32)) (s e t : Session Mem), w.OnlyVotes →
      Call w flatRam s e → (∃ u, CallReturns w flatRam s e u) →
      debugNext w fuel s bp = some (false, b, t) →
        t.emu.cpu.regs.pc = s.emu.cpu.regs.pc + 3 ∧ t.emu.cpu.regs.sp = s.emu.cpu.regs.sp := by
  intro hclaim
  obtain ⟨e, hcall, -, hexit⟩ :=
    callSession_returns 0x0203 (by decide) (by decide) (by decide +kernel)
  have hrun : ((debugNext idleWorld 20 (callSession 0x0203 0x60 0) none).map fun x =>
      (x.1, x.2.2.emu.cpu.regs.sp)) = some (false, 0xFD) := by decide +kernel
  obtain ⟨⟨r, b, t⟩, hnext, heq⟩ := Option.map_eq_some_iff.mp hrun
  obtain ⟨rfl, hsp⟩ := Prod.mk.inj heq
  have hreturns : ∃ u, CallReturns idleWorld flatRam (callSession 0x0203 0x60 0) e u := by
    have htwo : ((debugStepI idleWorld 20 (callSession 0x0203 0x60 0)).bind
        (debugStepI idleWorld 20)).isSome = true := by decide +kernel
    obtain ⟨u, hu⟩ := Option.isSome_iff_exists.mp htwo
    obtain ⟨e', hfirst, hsecond⟩ := Option.bind_eq_some_iff.mp hu
    obtain rfl := (clocked_steps idleWorld).functional ⟨20, hfirst⟩ hcall.enters
    exact ⟨u, e', .refl e', hexit, 20, hsecond⟩
  obtain ⟨-, hback⟩ := hclaim _ _ _ _ _ _ _ idleWorld_onlyVotes hcall hreturns hnext
  rw [hsp] at hback
  exact absurd hback (by decide)

end Cb6502
