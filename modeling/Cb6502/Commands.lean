import Cb6502.StepOver
import Mathlib.Data.List.Chain

/- Commands of the debugger one after another. `sw_break` is shared by all of them: `debug_run`
   and `debug_next` clear it on entry, no command clears it on exit, and `debug_finish` tests it
   without clearing it.

   What is proved:
     1. `request_consumed_iff` — in a history of commands, a request that one command has
        returned with has no effect on the next one, exactly if that is not `debug_finish`.
     2. `debug_run_stays` — from a stop at a breakpoint, `debug_run` reports the breakpoint again
        and executes nothing, however often it is called. -/
namespace Cb6502
open Phase

variable {ω : Type} {w : World ω}

inductive Cmd where
  | run | next | step | finish
  deriving DecidableEq

/-- What a command leaves: what it returns, `*breakpoint_hit` and the session. -/
structure CmdResult (ω : Type) where
  ret : Option Bool
  hit : Option (BitVec 32)
  session : Session ω

/-- The call of a command; `hit` is `*breakpoint_hit` before it. -/
def Cmd.exec (w : World ω) (cmd : Cmd) (fuel : Nat) (s : Session ω) (hit : Option (BitVec 32)) :
    Option (CmdResult ω) :=
  match cmd with
  | .run => (debugRun w fuel s hit).map fun x => ⟨none, x.1, x.2⟩
  | .next => (debugNext w fuel s hit).map fun x => ⟨some x.1, x.2.1, x.2.2⟩
  | .step => (debugStep w fuel s).map fun s => ⟨none, none, s⟩
  | .finish => (debugFinish w fuel s hit).map fun x => ⟨some x.1, x.2.1, x.2.2⟩

/-- The command stops and leaves the handle `h` in `*breakpoint_hit`, when it has one. -/
def Cmd.Reports (w : World ω) (cmd : Cmd) (fuel : Nat) (s : Session ω) (h : BitVec 32)
    (t : Session ω) : Prop :=
  ∃ old o, cmd.exec w fuel s (some old) = some o ∧ o.ret ≠ some false ∧ o.hit = some h ∧ o.session = t

/-- As if no request had been made. -/
def Session.unasked (s : Session ω) : Session ω := { s with swBreak := false }

/-! ## The session and the handle -/

theorem debugRunLoop_session (stepFuel fuel : Nat) (bp bp' : Option (BitVec 32)) (s : Session ω) :
    (debugRunLoop w stepFuel fuel bp s).map (·.2) = (debugRunLoop w stepFuel fuel bp' s).map (·.2) := by
  induction fuel generalizing s with
  | zero => rfl
  | succ fuel ih =>
    rw [debugRunLoop, debugRunLoop, dbgEvalBreakpoints, dbgEvalBreakpoints]
    by_cases hgo : s.swBreak = false
    · rw [if_pos hgo, if_pos hgo]
      cases s.dbg.breakpointAt s.emu.cpu.regs.pc with
      | some i => rfl
      | none =>
        cases hstep : debugStepI w stepFuel s with
        | none => simp only [Option.bind_none, Option.map_none]
        | some u =>
          simp only [Option.bind_some]
          exact ih u
    · rw [if_neg hgo, if_neg hgo]
      rfl

theorem debugNextLoop_session (stepFuel fuel : Nat) (nextPc pc : BitVec 16) (bp bp' : Option (BitVec 32))
    (s : Session ω) :
    (debugNextLoop w stepFuel nextPc fuel pc bp s).map (·.2.2) =
      (debugNextLoop w stepFuel nextPc fuel pc bp' s).map (·.2.2) := by
  induction fuel generalizing pc s with
  | zero => rfl
  | succ fuel ih =>
    rw [debugNextLoop, debugNextLoop]
    by_cases hgo : s.swBreak = false ∧ nextPc ≠ s.emu.cpu.regs.pc
    · rw [if_pos hgo, if_pos hgo]
      cases hstep : debugStepI w stepFuel s with
      | none => rfl
      | some u =>
        simp only [Option.bind_some, dbgEvalBreakpoints]
        cases u.dbg.breakpointAt pc with
        | some i => rfl
        | none => exact ih _ u
    · rw [if_neg hgo, if_neg hgo]
      cases s.swBreak <;> rfl

theorem debugFinishLoop_session (stepFuel fuel : Nat) (isRet : Bool) (c : BitVec 32)
    (bp bp' : Option (BitVec 32)) (s : Session ω) :
    (debugFinishLoop w stepFuel fuel isRet c bp s).map (·.2.2) =
      (debugFinishLoop w stepFuel fuel isRet c bp' s).map (·.2.2) := by
  induction fuel generalizing isRet c s with
  | zero => rfl
  | succ fuel ih =>
    unfold debugFinishLoop
    by_cases hgo : isRet = false ∧ s.swBreak = false
    · rw [if_pos hgo, if_pos hgo]
      simp only [dbgEvalBreakpoints]
      cases s.dbg.breakpointAt s.emu.cpu.regs.pc with
      | some i => rfl
      | none =>
        dsimp only
        cases hstep : debugStepI w stepFuel { s with emu.bus := (busPeek s.emu.bus s.emu.cpu.regs.pc).2 } with
        | none => rfl
        | some u => exact ih _ _ u
    · rw [if_neg hgo, if_neg hgo]
      cases bp <;> cases bp' <;> cases s.swBreak <;> rfl

/-- `debug_next` where there is no call. -/
theorem debugNext_plain {fuel : Nat} {s : Session ω} (h : ¬(cpuIsSubroutine s.emu).1 = true)
    (bp : Option (BitVec 32)) : debugNext w fuel s bp =
      (debugStepI w fuel { s with emu := (cpuIsSubroutine s.emu).2 }).map fun t => (false, bp, t) := by
  unfold debugNext
  simp only [h]
  rfl

/-- The handle decides nothing but what is left in it. -/
theorem exec_session (cmd : Cmd) (fuel : Nat) (s : Session ω) (bp bp' : Option (BitVec 32)) :
    (cmd.exec w fuel s bp).map CmdResult.session = (cmd.exec w fuel s bp').map CmdResult.session := by
  cases cmd with
  | run =>
    simp only [Cmd.exec, Option.map_map]
    exact debugRunLoop_session fuel fuel bp bp' { s with swBreak := false }
  | next =>
    simp only [Cmd.exec, Option.map_map]
    by_cases hjsr : (cpuIsSubroutine s.emu).1 = true
    · simp only [debugNext, hjsr, if_true]
      exact debugNextLoop_session fuel fuel _ _ bp bp' _
    · rw [debugNext_plain hjsr, debugNext_plain hjsr, Option.map_map, Option.map_map]
      rfl
  | step => rfl
  | finish =>
    simp only [Cmd.exec, Option.map_map]
    exact debugFinishLoop_session fuel fuel false 0 bp bp' s

theorem Cmd.Reports.session {cmd : Cmd} {fuel : Nat} {s t : Session ω} {h : BitVec 32}
    {bp : Option (BitVec 32)} {o : CmdResult ω} (hrep : cmd.Reports w fuel s h t)
    (hexec : cmd.exec w fuel s bp = some o) : t = o.session := by
  obtain ⟨old, o', hexec', -, -, rfl⟩ := hrep
  have hsame := exec_session (w := w) cmd fuel s (some old) bp
  rw [hexec, hexec'] at hsame
  exact Option.some.inj hsame

/-! ## Requests -/

/-- No request arrives in the ticks from `s` to `t`. -/
def Unbroken (w : World ω) (s t : Session ω) : Prop :=
  ∀ n, s.ticks ≤ n → n < t.ticks → w.breaks n = false

theorem debugStepLoop_unbroken {tickFuel fuel : Nat} {s t : Session ω}
    (h : debugStepLoop w tickFuel fuel s = some t) (hun : Unbroken w s t) (hbreak : s.swBreak = false) :
    t.swBreak = false := by
  have hlt := (debugStepLoop_frame h).ticks
  induction fuel generalizing s with
  | zero => cases h
  | succ fuel ih =>
    obtain ⟨u, htick, hrest⟩ := Option.bind_eq_some_iff.mp h
    have hu : u.swBreak = false := by
      obtain ⟨emu, -, rfl⟩ := Option.map_eq_some_iff.mp htick
      show (s.swBreak || w.breaks s.ticks) = false
      rw [hbreak, hun s.ticks (Nat.le_refl _) hlt]
      rfl
    have hticks := (emuTick_frame htick).2.1
    by_cases hboundary : u.emu.cpu.opState = .opcode
    · rw [if_pos hboundary] at hrest
      obtain rfl := Option.some.inj hrest
      exact hu
    · rw [if_neg hboundary] at hrest
      exact ih hrest (fun n hn hnt => hun n (by omega) hnt) hu (debugStepLoop_frame hrest).ticks

theorem Unbroken.later {s t : Session ω} (h : Unbroken w s t) (hs : Later (Steps w) s t)
    (hbreak : s.swBreak = false) : t.swBreak = false := by
  induction hs using Relation.ReflTransGen.head_induction_on with
  | refl => exact hbreak
  | @head s u hstep hrest ih =>
    have hlt := hstep.frame.ticks
    have hle := Later.clock_le (clocked_steps w) hrest
    obtain ⟨fuel, hloop⟩ := hstep
    apply ih
    · exact fun n hn hnt => h n (by omega) hnt
    · exact debugStepLoop_unbroken hloop (fun n hn hnt => h n hn (by omega)) hbreak

theorem debugRunLoop_later {stepFuel fuel : Nat} {bp b : Option (BitVec 32)} {s t : Session ω}
    (h : debugRunLoop w stepFuel fuel bp s = some (b, t)) : Later (Steps w) s t := by
  induction fuel generalizing s with
  | zero => cases h
  | succ fuel ih =>
    rw [debugRunLoop, dbgEvalBreakpoints] at h
    by_cases hgo : s.swBreak = false
    · rw [if_pos hgo] at h
      cases hat : s.dbg.breakpointAt s.emu.cpu.regs.pc with
      | some i =>
        rw [hat] at h
        obtain ⟨-, rfl⟩ := Prod.mk.inj (Option.some.inj h)
        exact .refl
      | none =>
        rw [hat] at h
        obtain ⟨u, hstep, hrest⟩ := Option.bind_eq_some_iff.mp h
        exact .head ⟨stepFuel, hstep⟩ (ih hrest)
    · rw [if_neg hgo] at h
      obtain ⟨-, rfl⟩ := Prod.mk.inj (Option.some.inj h)
      exact .refl

theorem NextLoop.later {nextPc : BitVec 16} {bp b : Option (BitVec 32)} {s t : Session ω} {r : Bool}
    (h : NextLoop w nextPc bp s r b t) : Later (Steps w) s t := by
  induction h with
  | broken h => exact .refl
  | there h hpc => exact .refl
  | hit h hpc hs hi => exact .single hs
  | step h hpc hs hnone ht ih => exact .head hs ih

theorem debugFinishLoop_request {stepFuel fuel : Nat} {isRet : Bool} {c : BitVec 32}
    {bp : Option (BitVec 32)} {s t : Session ω} (h : debugFinishLoop w stepFuel fuel isRet c bp s =
      some (true, some breakpointHandleSwRequest, t)) : t.swBreak = true := by
  induction fuel generalizing isRet c s with
  | zero => cases h
  | succ fuel ih =>
    unfold debugFinishLoop at h
    by_cases hgo : isRet = false ∧ s.swBreak = false
    · rw [if_pos hgo] at h
      simp only [dbgEvalBreakpoints] at h
      cases hat : s.dbg.breakpointAt s.emu.cpu.regs.pc with
      | some i =>
        rw [hat] at h
        obtain ⟨-, heq⟩ := Prod.mk.inj (Option.some.inj h)
        obtain ⟨old, -, hi⟩ := Option.map_eq_some_iff.mp (Prod.mk.inj heq).1
        exact absurd hi (handle_ne_swRequest i)
      | none =>
        rw [hat] at h
        obtain ⟨u, -, hrest⟩ := Option.bind_eq_some_iff.mp h
        exact ih hrest
    · rw [if_neg hgo] at h
      cases bp with
      | none => cases h
      | some old =>
        cases hbreak : s.swBreak with
        | true =>
          rw [hbreak] at h
          obtain ⟨-, heq⟩ := Prod.mk.inj (Option.some.inj h)
          obtain ⟨-, rfl⟩ := Prod.mk.inj heq
          exact hbreak
        | false =>
          rw [hbreak] at h
          cases h

theorem Cmd.Reports.run {fuel : Nat} {s t : Session ω} {h : BitVec 32} (hrep : Cmd.run.Reports w fuel s h t) :
    ∃ old, debugRun w fuel s (some old) = some (some h, t) := by
  obtain ⟨old, o, hexec, -, hhit, rfl⟩ := hrep
  obtain ⟨⟨b, t⟩, hrun, rfl⟩ := Option.map_eq_some_iff.mp hexec
  obtain rfl : b = some h := hhit
  exact ⟨old, hrun⟩

/-- `debug_next` reports on calls only. -/
theorem Cmd.Reports.next {fuel : Nat} {s t : Session ω} {h : BitVec 32}
    (hrep : Cmd.next.Reports w fuel s h t) : ∃ nextPc old,
      NextLoop w nextPc (some old) s.nextStart true (some h) t := by
  obtain ⟨old, o, hexec, hret, hhit, rfl⟩ := hrep
  obtain ⟨⟨r, b, t⟩, hnext, rfl⟩ := Option.map_eq_some_iff.mp hexec
  obtain rfl : r = true := by simpa using hret
  obtain rfl : b = some h := hhit
  by_cases hjsr : (cpuIsSubroutine s.emu).1 = true
  · exact ⟨_, old, debugNext_nextLoop hjsr hnext⟩
  · rw [debugNext_plain hjsr] at hnext
    obtain ⟨u, -, heq⟩ := Option.map_eq_some_iff.mp hnext
    cases heq

/-- A command that reports a request ended on the flag. -/
theorem Cmd.Reports.swBreak {cmd : Cmd} {fuel : Nat} {s t : Session ω}
    (h : cmd.Reports w fuel s breakpointHandleSwRequest t) : t.swBreak = true := by
  cases cmd with
  | run =>
    obtain ⟨old, hrun⟩ := h.run
    rcases (debug_run_breakpoints hrun).stop with hbreak | ⟨i, -, hi⟩
    · exact hbreak
    · exact absurd (Option.some.inj hi).symm (handle_ne_swRequest i)
  | next =>
    obtain ⟨nextPc, old, hloop⟩ := h.next
    generalize hb : some breakpointHandleSwRequest = b at hloop
    generalize hr : true = r at hloop
    generalize s.nextStart = start at hloop
    clear h
    induction hloop with
    | broken h => exact h
    | there h hpc => cases hr
    | @hit s t i h hpc hs hi => exact absurd (Option.some.inj hb).symm (handle_ne_swRequest i)
    | step h hpc hs hnone ht ih => exact ih hb hr
  | step =>
    obtain ⟨old, o, hexec, -, hhit, rfl⟩ := h
    obtain ⟨t, -, rfl⟩ := Option.map_eq_some_iff.mp hexec
    cases hhit
  | finish =>
    obtain ⟨old, o, hexec, hret, hhit, rfl⟩ := h
    obtain ⟨⟨r, b, t⟩, hfinish, rfl⟩ := Option.map_eq_some_iff.mp hexec
    obtain rfl : r = true := by simpa using hret
    obtain rfl : b = _ := hhit
    exact debugFinishLoop_request hfinish

/-- The commands but `debug_finish` end on new requests only. -/
theorem not_reports_request {cmd : Cmd} (hcmd : cmd ≠ .finish) {fuel : Nat} {s t : Session ω}
    (hun : Unbroken w s t) : ¬cmd.Reports w fuel s breakpointHandleSwRequest t := by
  intro h
  have hbreak := h.swBreak
  cases cmd with
  | run =>
    obtain ⟨old, hrun⟩ := h.run
    have hlater : Later (Steps w) s.unasked t := debugRunLoop_later hrun
    have hclear : t.swBreak = false := Unbroken.later (s := s.unasked) hun hlater rfl
    exact Bool.false_ne_true (hclear.symm.trans hbreak)
  | next =>
    obtain ⟨nextPc, old, hloop⟩ := h.next
    have hclear : t.swBreak = false := Unbroken.later (s := s.nextStart) hun hloop.later rfl
    exact Bool.false_ne_true (hclear.symm.trans hbreak)
  | step =>
    obtain ⟨old, o, hexec, -, hhit, rfl⟩ := h
    obtain ⟨t, -, rfl⟩ := Option.map_eq_some_iff.mp hexec
    cases hhit
  | finish => exact hcmd rfl

/-! ## The session without the request -/

theorem unasked_eq_iff {s s' : Session ω} :
    s'.unasked = s.unasked ↔ s'.dbg = s.dbg ∧ s'.emu = s.emu ∧ s'.ticks = s.ticks := by
  simp [Session.unasked]

theorem emuTick_unasked {fuel : Nat} {s s' t : Session ω} (hs : s'.unasked = s.unasked)
    (h : emuTick w fuel s = some t) : ∃ t', emuTick w fuel s' = some t' ∧ t'.unasked = t.unasked := by
  obtain ⟨emu, htick, rfl⟩ := Option.map_eq_some_iff.mp h
  obtain ⟨hdbg, hemu, hticks⟩ := unasked_eq_iff.mp hs
  have htick' : cpuTick fuel (s'.tickStart w) = some emu := by
    rw [Session.tickStart, hemu, hticks]
    exact htick
  refine ⟨_, Option.map_eq_some_iff.mpr ⟨emu, htick', rfl⟩, ?_⟩
  exact unasked_eq_iff.mpr ⟨hdbg, by simp only [hticks], congrArg (· + 1) hticks⟩

/-- The flag does not matter to a step. -/
theorem debugStepLoop_unasked {tickFuel fuel : Nat} {s s' t : Session ω} (hs : s'.unasked = s.unasked)
    (h : debugStepLoop w tickFuel fuel s = some t) :
    ∃ t', debugStepLoop w tickFuel fuel s' = some t' ∧ t'.unasked = t.unasked := by
  induction fuel generalizing s s' with
  | zero => cases h
  | succ fuel ih =>
    obtain ⟨u, htick, hrest⟩ := Option.bind_eq_some_iff.mp h
    obtain ⟨u', htick', hu⟩ := emuTick_unasked hs htick
    have hemu := (unasked_eq_iff.mp hu).2.1
    rw [debugStepLoop, htick', Option.bind_some, hemu]
    by_cases hboundary : u.emu.cpu.opState = .opcode
    · rw [if_pos hboundary] at hrest ⊢
      obtain rfl := Option.some.inj hrest
      exact ⟨u', rfl, hu⟩
    · rw [if_neg hboundary] at hrest ⊢
      exact ih hu hrest

/-! ## Histories -/

/-- A call in a history; `requested` tells of a request that arrives just before it. -/
structure CmdCall (ω : Type) where
  requested : Bool
  cmd : Cmd
  fuel : Nat
  pointer : Option (BitVec 32)
  start : Session ω
  result : CmdResult ω

/-- `b` is called where `a` has ended. -/
def CmdCall.Follows (a b : CmdCall ω) : Prop :=
  b.start = if b.requested then debugBreak a.result.session else a.result.session

/-- A sequence of commands, from any session. -/
structure History (w : World ω) (calls : List (CmdCall ω)) : Prop where
  made : ∀ c ∈ calls, c.cmd.exec w c.fuel c.start c.pointer = some c.result
  chain : calls.IsChain CmdCall.Follows

/-- The command stops on a request. -/
def CmdCall.StopsOnRequest (w : World ω) (c : CmdCall ω) : Prop :=
  ∃ t, c.cmd.Reports w c.fuel c.start breakpointHandleSwRequest t

/-- No request arrives just before the command or during it. -/
def CmdCall.Unrequested (w : World ω) (c : CmdCall ω) : Prop :=
  c.requested = false ∧ Unbroken w c.start c.result.session

/-- The command does not stop on a request, and it returns and executes what it does where none has
been made. -/
structure CmdCall.Unaffected (w : World ω) (c : CmdCall ω) : Prop where
  stop : ¬c.StopsOnRequest w
  same : ∃ o, c.cmd.exec w c.fuel c.start.unasked c.pointer = some o ∧ o.ret = c.result.ret ∧
    o.hit = c.result.hit ∧ o.session.unasked = c.result.session.unasked

/-- The flag on entry does not matter to the commands but `debug_finish`. -/
theorem exec_unasked {cmd : Cmd} (hcmd : cmd ≠ .finish) {fuel : Nat} {s : Session ω}
    {bp : Option (BitVec 32)} {o : CmdResult ω} (h : cmd.exec w fuel s bp = some o) :
    ∃ o', cmd.exec w fuel s.unasked bp = some o' ∧ o'.ret = o.ret ∧ o'.hit = o.hit ∧
      o'.session.unasked = o.session.unasked := by
  cases cmd with
  | run => exact ⟨o, h, rfl, rfl, rfl⟩
  | next =>
    by_cases hjsr : (cpuIsSubroutine s.emu).1 = true
    · refine ⟨o, ?_, rfl, rfl, rfl⟩
      rw [← h]
      have hjsr' : (cpuIsSubroutine s.unasked.emu).1 = true := hjsr
      simp only [Cmd.exec, debugNext, hjsr, hjsr', if_true]
      rfl
    · obtain ⟨x, hnext, rfl⟩ := Option.map_eq_some_iff.mp h
      rw [debugNext_plain hjsr] at hnext
      obtain ⟨t, ht, rfl⟩ := Option.map_eq_some_iff.mp hnext
      have hstart : ({ s.unasked with emu := (cpuIsSubroutine s.emu).2 } : Session ω).unasked =
          ({ s with emu := (cpuIsSubroutine s.emu).2 } : Session ω).unasked := rfl
      obtain ⟨t', ht', hsame⟩ := debugStepLoop_unasked hstart ht
      refine ⟨⟨some false, bp, t'⟩, Option.map_eq_some_iff.mpr ⟨(false, bp, t'), ?_, rfl⟩, rfl, rfl, hsame⟩
      rw [debugNext_plain (s := s.unasked) hjsr]
      exact Option.map_eq_some_iff.mpr ⟨t', ht', rfl⟩
  | step =>
    obtain ⟨t, ht, rfl⟩ := Option.map_eq_some_iff.mp h
    have hstart : s.unasked.unasked = s.unasked := rfl
    obtain ⟨t', ht', hsame⟩ := debugStepLoop_unasked hstart ht
    exact ⟨⟨none, none, t'⟩, Option.map_eq_some_iff.mpr ⟨t', ht', rfl⟩, rfl, rfl, hsame⟩
  | finish => exact absurd rfl hcmd

/-- `debug_finish` ends at once where the flag is set. -/
theorem finish_stopsOnRequest {fuel : Nat} {s : Session ω} (hbreak : s.swBreak = true) (old : BitVec 32) :
    debugFinish w (fuel + 1) s (some old) = some (true, some breakpointHandleSwRequest, s) := by
  unfold debugFinish debugFinishLoop
  simp [hbreak]

section
variable {a b : CmdCall ω}

/-- A request that `a` has stopped on is not seen by `b`, exactly if `b` is not `debug_finish`. -/
theorem CmdCall.unaffected_iff (ha : a.cmd.exec w a.fuel a.start a.pointer = some a.result)
    (hb : b.cmd.exec w b.fuel b.start b.pointer = some b.result) (hfollows : a.Follows b)
    (hstop : a.StopsOnRequest w) (hnone : b.Unrequested w) : b.Unaffected w ↔ b.cmd ≠ .finish := by
  obtain ⟨t, hreports⟩ := hstop
  have hstart : b.start = a.result.session := by
    rw [hfollows, hnone.1]
    rfl
  have hbreak : b.start.swBreak = true := by
    rw [hstart, ← hreports.session ha]
    exact hreports.swBreak
  constructor
  · rintro hun hfinish
    apply hun.stop
    unfold CmdCall.StopsOnRequest
    rw [hfinish] at hb ⊢
    cases hfuel : b.fuel with
    | zero =>
      rw [hfuel] at hb
      cases hb
    | succ fuel =>
      refine ⟨b.start, 0, _, Option.map_eq_some_iff.mpr ⟨_, finish_stopsOnRequest hbreak 0, rfl⟩, ?_, rfl, rfl⟩
      exact fun h => Bool.noConfusion (Option.some.inj h)
  · intro hcmd
    refine ⟨?_, exec_unasked hcmd hb⟩
    rintro ⟨u, hu⟩
    refine not_reports_request hcmd ?_ hu
    rw [hu.session hb]
    exact hnone.2

end

/-- In every history of commands, with requests that arrive at any points: the requests that one
command has returned with have no effect on the next one, in which none arrives, exactly if no such
command is `debug_finish`. -/
theorem request_consumed_iff {calls : List (CmdCall ω)} (h : History w calls) :
    (∀ a b, [a, b] <:+: calls → a.StopsOnRequest w → b.Unrequested w → b.Unaffected w) ↔
      ∀ a b, [a, b] <:+: calls → a.StopsOnRequest w → b.Unrequested w → b.cmd ≠ .finish := by
  have hpair : ∀ a b, [a, b] <:+: calls → a.StopsOnRequest w → b.Unrequested w →
      (b.Unaffected w ↔ b.cmd ≠ .finish) := by
    intro a b hinfix
    have hmem : ∀ c ∈ [a, b], c ∈ calls := fun c hc => hinfix.subset hc
    apply CmdCall.unaffected_iff
    · exact h.made a (hmem a (by simp))
    · exact h.made b (hmem b (by simp))
    · exact List.isChain_pair.mp <| List.IsChain.infix h.chain hinfix
  constructor
  · intro hall a b hinfix hstop hnone
    exact (hpair a b hinfix hstop hnone).mp (hall a b hinfix hstop hnone)
  · intro hall a b hinfix hstop hnone
    exact (hpair a b hinfix hstop hnone).mpr (hall a b hinfix hstop hnone)

/-- A request arrives in the first tick. -/
def askingWorld : World ω := { idleWorld with breaks := fun n => n == 0 }

/-- A call that is made where the one before has ended. -/
theorem History.pair {a b : CmdCall ω} (ha : a.cmd.exec w a.fuel a.start a.pointer = some a.result)
    (hb : b.cmd.exec w b.fuel b.start b.pointer = some b.result) (hfollows : a.Follows b) :
    History w [a, b] := by
  refine ⟨?_, List.isChain_pair.mpr hfollows⟩
  intro c hc
  rcases List.mem_pair.mp hc with rfl | rfl
  · exact ha
  · exact hb

/-- `debug_run` is stopped after its first instruction. -/
theorem run_asked : ∃ t u, debugRun askingWorld 20 (callSession 0x0300 0xEA 0x0400) (some 7) =
    some (some breakpointHandleSwRequest, t) ∧ 0 < t.ticks ∧ debugStep askingWorld 20 t = some u := by
  have hrun : ((debugRun askingWorld 20 (callSession 0x0300 0xEA 0x0400) (some 7)).bind fun x =>
      (debugStep askingWorld 20 x.2).map fun _ => (x.1, x.2.ticks)) =
        some (some breakpointHandleSwRequest, 6) := by
    decide +kernel
  obtain ⟨⟨b, t⟩, hrun, hrest⟩ := Option.bind_eq_some_iff.mp hrun
  obtain ⟨u, hstep, heq⟩ := Option.map_eq_some_iff.mp hrest
  obtain ⟨rfl, hticks⟩ := Prod.mk.inj heq
  refine ⟨t, u, hrun, ?_, hstep⟩
  have hsix : t.ticks = 6 := hticks
  omega

/-- `debug_step` after a `debug_run` that has been stopped. -/
theorem request_consumed_by_step : ∃ a b : CmdCall Mem, History askingWorld [a, b] ∧
    a.StopsOnRequest askingWorld ∧ b.cmd = .step ∧ b.Unaffected askingWorld := by
  obtain ⟨t, u, hrun, hlate, hstep⟩ := run_asked
  have ha : Cmd.run.exec askingWorld 20 (callSession 0x0300 0xEA 0x0400) (some 7) =
      some ⟨none, some breakpointHandleSwRequest, t⟩ := by
    rw [Cmd.exec, hrun]
    rfl
  have hb : Cmd.step.exec askingWorld 20 t none = some ⟨none, none, u⟩ :=
    Option.map_eq_some_iff.mpr ⟨u, hstep, rfl⟩
  let a : CmdCall Mem := ⟨false, .run, 20, some 7, callSession 0x0300 0xEA 0x0400,
    ⟨none, some breakpointHandleSwRequest, t⟩⟩
  let b : CmdCall Mem := ⟨false, .step, 20, none, t, ⟨none, none, u⟩⟩
  have hhistory : History askingWorld [a, b] := .pair ha hb rfl
  have hstop : a.StopsOnRequest askingWorld := ⟨t, 7, _, ha, by simp, rfl, rfl⟩
  refine ⟨a, b, hhistory, hstop, rfl, ?_⟩
  refine (request_consumed_iff hhistory).mpr ?_ a b List.infix_rfl hstop ⟨rfl, ?_⟩
  · intro c d hinfix _ _
    have hmem : d ∈ [a, b] := hinfix.subset (by simp)
    rcases List.mem_pair.mp hmem with rfl | rfl <;> exact Cmd.noConfusion
  · intro n hn _
    have hpos : n ≠ 0 := Nat.ne_of_gt (Nat.lt_of_lt_of_le hlate hn)
    exact beq_false_of_ne hpos

/-- `debug_finish` after it. -/
theorem finish_stops_on_old_request : ¬∀ (w : World Mem) (calls : List (CmdCall Mem)), History w calls →
    ∀ a b, [a, b] <:+: calls → a.StopsOnRequest w → b.Unrequested w → b.Unaffected w := by
  intro hall
  obtain ⟨t, u, hrun, -⟩ := run_asked
  have ha : Cmd.run.exec askingWorld 20 (callSession 0x0300 0xEA 0x0400) (some 7) =
      some ⟨none, some breakpointHandleSwRequest, t⟩ := by
    rw [Cmd.exec, hrun]
    rfl
  have hstop : Cmd.run.Reports askingWorld 20 _ _ t := ⟨7, _, ha, by simp, rfl, rfl⟩
  have hb : Cmd.finish.exec askingWorld 1 t (some 7) =
      some ⟨some true, some breakpointHandleSwRequest, t⟩ :=
    Option.map_eq_some_iff.mpr ⟨_, finish_stopsOnRequest hstop.swBreak 7, rfl⟩
  let a : CmdCall Mem := ⟨false, .run, 20, some 7, callSession 0x0300 0xEA 0x0400,
    ⟨none, some breakpointHandleSwRequest, t⟩⟩
  let b : CmdCall Mem := ⟨false, .finish, 1, some 7, t, ⟨some true, some breakpointHandleSwRequest, t⟩⟩
  have hunaffected : b.Unaffected askingWorld := by
    refine hall _ [a, b] (.pair ha hb rfl) a b List.infix_rfl ⟨t, hstop⟩ ⟨rfl, ?_⟩
    intro n hn hlt
    exact absurd hlt (Nat.not_lt.mpr hn)
  apply hunaffected.stop
  exact ⟨t, 7, _, hb, by simp, rfl, rfl⟩

/-! ## Stops at a breakpoint -/

/-- A command has stopped at `t` because of a breakpoint at the program counter. -/
def BreakpointStop (w : World ω) (t : Session ω) : Prop :=
  ∃ (i : Fin maxBreakpoints) (cmd : Cmd) (fuel : Nat) (s : Session ω),
    cmd.Reports w fuel s (BitVec.ofNat 32 i) t ∧ t.dbg.Active i t.emu.cpu.regs.pc

/-- `debug_run` executes an instruction before it reports a breakpoint. -/
def RunProgresses (w : World ω) (s : Session ω) : Prop :=
  ∀ (fuel : Nat) (i : Fin maxBreakpoints) (t : Session ω), Cmd.run.Reports w fuel s (BitVec.ofNat 32 i) t →
    ∃ u, Steps w s.unasked u ∧ Later (Steps w) u t

theorem Debug.Active.breakpointAt {handle : Debug} {i : Fin maxBreakpoints} {pc : BitVec 16}
    (h : handle.Active i pc) : ∃ j, handle.breakpointAt pc = some j := by
  cases hat : handle.breakpointAt pc with
  | some j => exact ⟨j, rfl⟩
  | none => exact absurd h (Debug.not_active_of_breakpointAt hat i)

section
variable {s : Session ω} {i : Fin maxBreakpoints} (hat : s.dbg.breakpointAt s.emu.cpu.regs.pc = some i)
include hat

/-- The breakpoints are compared before the first step. -/
theorem debugRun_at_breakpoint (fuel : Nat) (bp : Option (BitVec 32)) :
    debugRun w (fuel + 1) s bp = some (bp.map fun _ => BitVec.ofNat 32 i, s.unasked) := by
  unfold debugRun debugRunLoop
  simp only [dbgEvalBreakpoints, hat, if_true]
  rfl

theorem not_runProgresses : ¬RunProgresses w s := by
  intro hprogress
  have hreports : Cmd.run.Reports w 1 s (BitVec.ofNat 32 i) s.unasked :=
    ⟨0, _, Option.map_eq_some_iff.mpr ⟨_, debugRun_at_breakpoint hat 0 (some 0), rfl⟩, by simp, rfl, rfl⟩
  obtain ⟨u, hs, hlater⟩ := hprogress 1 i _ hreports
  have hlt := hs.frame.ticks
  have hle := Later.clock_le (clocked_steps w) hlater
  omega

/-- All calls of `debug_run` from there on. -/
theorem debugRun_repeats {calls : List (CmdCall ω)} (h : History w calls)
    (hstart : ∀ c ∈ calls.head?, c.start.unasked = s.unasked) (hrun : ∀ c ∈ calls, c.cmd = .run) :
    ∀ c ∈ calls, c.result = ⟨none, c.pointer.map fun _ => BitVec.ofNat 32 i, s.unasked⟩ := by
  induction calls with
  | nil => simp
  | cons c rest ih =>
    obtain ⟨hdbg, hemu, -⟩ := unasked_eq_iff.mp (hstart c rfl)
    have hhere : c.start.dbg.breakpointAt c.start.emu.cpu.regs.pc = some i := by
      rw [hdbg, hemu]
      exact hat
    have hmade := h.made c List.mem_cons_self
    rw [hrun c List.mem_cons_self] at hmade
    obtain ⟨x, hcall, hresult⟩ := Option.map_eq_some_iff.mp hmade
    have hfuel : c.fuel ≠ 0 := by
      intro hzero
      rw [hzero] at hcall
      cases hcall
    obtain ⟨fuel, hsucc⟩ := Nat.exists_eq_succ_of_ne_zero hfuel
    rw [hsucc, debugRun_at_breakpoint hhere, hstart c rfl] at hcall
    obtain rfl := Option.some.inj hcall
    have hfirst : c.result = ⟨none, c.pointer.map fun _ => BitVec.ofNat 32 i, s.unasked⟩ := hresult.symm
    have hnext : ∀ d ∈ rest.head?, d.start.unasked = s.unasked := by
      intro d hd
      have hfollows := (List.isChain_cons.mp h.chain).1 d hd
      rw [hfollows, hfirst]
      cases d.requested <;> rfl
    have hrest := ih ⟨fun d hd => h.made d (List.mem_cons_of_mem c hd), (List.isChain_cons.mp h.chain).2⟩
      hnext fun d hd => hrun d (List.mem_cons_of_mem c hd)
    intro d hd
    rcases List.mem_cons.mp hd with rfl | hd
    · exact hfirst
    · exact hrest d hd

end

/-- Where a command has stopped because of a breakpoint at the program counter, `debug_run` reports
a breakpoint without executing an instruction, and so do all its calls after that: the session stays
as it is. -/
theorem debug_run_stays {t : Session ω} (h : BreakpointStop w t) :
    ¬RunProgresses w t ∧ ∃ i : Fin maxBreakpoints, t.dbg.Active i t.emu.cpu.regs.pc ∧
      ∀ calls, History w calls → (∀ c ∈ calls.head?, c.start = t) → (∀ c ∈ calls, c.cmd = .run) →
        ∀ c ∈ calls, c.result = ⟨none, c.pointer.map fun _ => BitVec.ofNat 32 i, t.unasked⟩ := by
  obtain ⟨i, cmd, fuel, s, -, hactive⟩ := h
  obtain ⟨j, hat⟩ := hactive.breakpointAt
  refine ⟨not_runProgresses hat, j, Debug.active_of_breakpointAt hat, ?_⟩
  intro calls hhistory hstart hrun
  exact debugRun_repeats hat hhistory (fun c hc => by rw [hstart c hc]) hrun

/-- `debug_run` stops at `$0300`. -/
theorem run_stopped : ∃ t, BreakpointStop idleWorld t ∧
    debugRun idleWorld 20 (callSession 0x0300 0xEA 0x0300) (some 7) = some (some 0, t) := by
  have hrun : ((debugRun idleWorld 20 (callSession 0x0300 0xEA 0x0300) (some 7)).map fun x =>
      (x.1, x.2.swBreak)) = some (some 0, false) := by decide +kernel
  obtain ⟨⟨b, t⟩, hrun, heq⟩ := Option.map_eq_some_iff.mp hrun
  obtain ⟨rfl, hclear⟩ := Prod.mk.inj heq
  refine ⟨t, ?_, hrun⟩
  rcases (debug_run_breakpoints hrun).stop with hbreak | ⟨i, hactive, hi⟩
  · exact absurd (hclear.symm.trans hbreak) Bool.false_ne_true
  · refine ⟨i, .run, 20, callSession 0x0300 0xEA 0x0300, ⟨7, ⟨none, some 0, t⟩, ?_, by simp, hi, rfl⟩, hactive⟩
    rw [Cmd.exec, hrun]
    rfl

theorem debug_run_stays_at_callee : ∃ t : Session Mem, BreakpointStop idleWorld t ∧
    ¬RunProgresses idleWorld t := by
  obtain ⟨t, hstop, -⟩ := run_stopped
  exact ⟨t, hstop, (debug_run_stays hstop).1⟩

theorem debug_run_stuck : ¬∀ (w : World Mem) (t : Session Mem), BreakpointStop w t → RunProgresses w t := by
  intro hall
  obtain ⟨t, hstop, -⟩ := run_stopped
  have hprogress := hall idleWorld t hstop
  obtain ⟨i, cmd, fuel, s, -, hactive⟩ := hstop
  obtain ⟨j, hat⟩ := hactive.breakpointAt
  exact not_runProgresses hat hprogress

end Cb6502
