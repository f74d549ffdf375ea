import Cb6502.Commands
import Cb6502.DbgCli
import Cb6502.MemoryMap
import Cb6502.Peek

/- The command line over the emulator (frontend/dbgcli/src/dbgcli.c): `dbgcli_run` with what its calls
   do to the debugger and to the machine, Ctrl-C included. At every prompt the next instruction is
   peeked at, and so do `examine`, `next` and `finish`.

   What is proved:
     1. `Ticked` (what the commands do to a session), `Cmd.exec_ticked` and `DbgCall.perform_ticked`.
     2. `dbgcliRun_ticked` (a whole session is ticks for the machine, and its breakpoint commands for the
        table).
     3. `dbgcli_runs_machine` (so on any memory map it is a run of the instruction set). -/
namespace Cb6502

open Phase
open Printf (Text)

variable {ω : Type}

/-! ## The loop and the machine -/

/-- What a call does to the session; what `bp` has before it decides nothing (`exec_session`). -/
def DbgCall.perform (w : World ω) (fuel : Nat) (call : DbgCall) (s : Session ω) : Option (Session ω) :=
  match call with
  | .run => (Cmd.run.exec w fuel s (some 0)).map CmdResult.session
  | .next => (Cmd.next.exec w fuel s (some 0)).map CmdResult.session
  | .step => (Cmd.step.exec w fuel s none).map CmdResult.session
  | .finish => (Cmd.finish.exec w fuel s (some 0)).map CmdResult.session
  | .setBreakpointAddr addr => some { s with dbg := (debugSetBreakpointAddr s.dbg 0 addr).2.2 }
  | .setBreakpointLabel label => some { s with dbg := (debugSetBreakpointLabel s.dbg 0 label).2.2 }
  | .dump addr len => some { s with emu := (debugDump s.emu addr len).2 }
  | .getCpuRegs | .getBreakpoints | .exit => some s

/-- What a line leads to. -/
def performEvent (w : World ω) (fuel : Nat) (event : Option CliEvent) (s : Session ω) : Option (Session ω) :=
  match event with
  | some (.call call) => call.perform w fuel s
  | some .unknown | none => some s

/-- `disassemble_pc_string` in front of the prompt. -/
def Session.prompt (s : Session ω) : Session ω := { s with emu := (disassemblePcBuf s.emu).2 }

/-- What `fgets` delivers, and whether Ctrl-C was pressed at the prompt. -/
structure CliInput where
  requested : Bool
  got : Text

/-- The loop of `dbgcli_run`. -/
def dbgcliRun (w : World ω) (fuel : Nat) : DbgCli → Session ω → List CliInput → Option (Session ω)
  | cli, s, [] => some (if cli.exit then s else s.prompt)
  | cli, s, input :: rest =>
    if cli.exit then some s
    else
      let s := if input.requested then debugBreak s.prompt else s.prompt
      let (event, cli) := cli.line input.got
      (performEvent w fuel event s).bind fun s => dbgcliRun w fuel cli s rest

/-! ## The machine by itself, and the table by itself -/

/-- `n` calls of `emu_tick` with nobody at the debugger, after `ticks` others. -/
def emulate (w : World ω) : Nat → Nat → Emu ω → Option (Emu ω)
  | 0, _, emu => some emu
  | n + 1, ticks, emu =>
    (cpuTick 4 { emu with bus := w.before ticks emu.bus }).bind fun emu =>
      emulate w n (ticks + 1) { emu with bus := w.after ticks emu.bus }

/-- The debugger after the calls that set breakpoints. -/
def Debug.afterEvents (dbg : Debug) (events : List CliEvent) : Debug :=
  events.foldl (fun dbg event =>
    match event with
    | .call (.setBreakpointAddr addr) => (debugSetBreakpointAddr dbg 0 addr).2.2
    | .call (.setBreakpointLabel label) => (debugSetBreakpointLabel dbg 0 label).2.2
    | _ => dbg) dbg

/-! ## What a command may do -/

/-- The emulator runs on the map, between two ticks. -/
structure Emu.OnMap (M : MemoryMap ω) (emu : Emu ω) : Prop where
  mapped : emu.bus.Mapped M
  fresh : emu.cpu.ctl.fresh = true

/-- From `s` to `t` there were ticks only, and after them the emulator rests at a boundary. -/
structure Ticked (w : World ω) (s t : Session ω) : Prop where
  run : ∃ n, t.ticks = s.ticks + n ∧ emulate w n s.ticks s.emu = some t.emu
  rests : t.ticks = s.ticks ∨ t.emu.cpu.opState = .opcode

section
variable {w : World ω} {M : MemoryMap ω}

theorem emulate_add {m n ticks : Nat} {e e' : Emu ω} (h : emulate w m ticks e = some e') :
    emulate w (m + n) ticks e = emulate w n (ticks + m) e' := by
  induction m generalizing ticks e with
  | zero =>
    obtain rfl := Option.some.inj h
    rw [Nat.zero_add, Nat.add_zero]
  | succ m ih =>
    obtain ⟨u, htick, hrest⟩ := Option.bind_eq_some_iff.mp h
    rw [Nat.succ_add, emulate, htick, Option.bind_some, ih hrest, Nat.add_assoc, Nat.add_comm 1 m]

theorem Bus.Mapped.votes {bus : Bus ω} (h : bus.Mapped M) (v : SigVotes) :
    Bus.Mapped M { bus with sigvotes := v } := ⟨h.conns, h.tracers, h.inv⟩

/-- A tick, between changes of the votes. -/
theorem Emu.OnMap.tick (hw : w.OnlyVotes) {fuel ticks : Nat} {e e' : Emu ω} (h : e.OnMap M)
    (ht : cpuTick fuel { e with bus := w.before ticks e.bus } = some e') :
    ({ e' with bus := w.after ticks e'.bus } : Emu ω).OnMap M ∧
      cpuTick 4 { e with bus := w.before ticks e.bus } = some e' := by
  obtain ⟨v, hv⟩ := hw.before ticks e.bus
  obtain ⟨v', hv'⟩ := hw.after ticks e'.bus
  have hfresh : ({ e with bus := w.before ticks e.bus } : Emu ω).cpu.ctl.fresh = true := h.fresh
  obtain rfl := eq_tick_of_cpuTick hfresh ht
  have hstart : (w.before ticks e.bus).Mapped M := by
    rw [hv]
    exact h.mapped.votes v
  refine ⟨⟨?_, fresh_tick _ hfresh⟩, cpuTick_eq 0 _ hfresh⟩
  show (w.after ticks _).Mapped M
  rw [hv']
  exact (Bus.Mapped.kept.tick hstart (hstart.ackNmi e.cpu)).votes v'

theorem emulate_onMap (hw : w.OnlyVotes) {n ticks : Nat} {e e' : Emu ω} (h : e.OnMap M)
    (hrun : emulate w n ticks e = some e') : e'.OnMap M := by
  induction n generalizing ticks e with
  | zero => exact Option.some.inj hrun ▸ h
  | succ n ih =>
    obtain ⟨u, htick, hrest⟩ := Option.bind_eq_some_iff.mp hrun
    exact ih (h.tick hw htick).1 hrest

theorem Ticked.refl (s : Session ω) : Ticked w s s := ⟨⟨0, rfl, rfl⟩, .inl rfl⟩

/-- Sessions of one emulator at one time. -/
theorem Ticked.of_same {s t : Session ω} (hemu : t.emu = s.emu) (hticks : t.ticks = s.ticks) : Ticked w s t :=
  ⟨⟨0, hticks, by rw [hemu]; rfl⟩, .inl hticks⟩

theorem Ticked.trans {s t u : Session ω} (h : Ticked w s t) (h' : Ticked w t u) : Ticked w s u := by
  obtain ⟨m, hm, hfirst⟩ := h.run
  obtain ⟨n, hn, hsecond⟩ := h'.run
  refine ⟨⟨m + n, by omega, ?_⟩, ?_⟩
  · rw [emulate_add hfirst, ← hm]
    exact hsecond
  · rcases h'.rests with hsame | hboundary
    · obtain rfl : n = 0 := by omega
      rw [← Option.some.inj hsecond, hsame]
      exact h.rests
    · exact .inr hboundary

theorem Ticked.onMap (hw : w.OnlyVotes) {s t : Session ω} (h : Ticked w s t) (hs : s.emu.OnMap M) :
    t.emu.OnMap M := by
  obtain ⟨n, -, hrun⟩ := h.run
  exact emulate_onMap hw hs hrun

/-! ## Peeks -/

theorem busPeek_mapped {bus : Bus ω} (h : bus.Mapped M) (addr : BitVec 16) : (busPeek bus addr).2 = bus := by
  have hread := readConns_store h.stores.conns addr true false none bus
  unfold busPeek busReadPeekI
  simp only [hread, if_true]

theorem peekAll_mapped {emu : Emu ω} (h : emu.bus.Mapped M) (addrs : List (BitVec 16)) :
    (peekAll emu addrs).2 = emu := by
  induction addrs with
  | nil => rfl
  | cons addr addrs ih =>
    rw [peekAll]
    simp only [busPeek_mapped h]
    exact ih

theorem prompt_mapped {s : Session ω} (h : s.emu.bus.Mapped M) : s.prompt = s := by
  rw [Session.prompt, disassemblePcBuf, peekAll_mapped h]

/-! ## Commands -/

theorem debugStepLoop_ticked (hw : w.OnlyVotes) {tickFuel fuel : Nat} {s t : Session ω}
    (hs : s.emu.OnMap M) (h : debugStepLoop w tickFuel fuel s = some t) :
    ∃ n, t.ticks = s.ticks + n ∧ emulate w n s.ticks s.emu = some t.emu := by
  induction fuel generalizing s with
  | zero => cases h
  | succ fuel ih =>
    obtain ⟨u, htick, hrest⟩ := Option.bind_eq_some_iff.mp h
    obtain ⟨e, hcpu, rfl⟩ := Option.map_eq_some_iff.mp htick
    obtain ⟨hnext, hcpu⟩ := hs.tick hw hcpu
    split at hrest
    · obtain rfl := Option.some.inj hrest
      refine ⟨1, rfl, ?_⟩
      rw [emulate, hcpu]
      rfl
    · obtain ⟨n, hn, hrun⟩ := ih hnext hrest
      refine ⟨n + 1, ?_, ?_⟩
      · rw [hn, Nat.add_assoc, Nat.add_comm 1 n]
      · rw [emulate, hcpu]
        exact hrun

theorem Steps.ticked (hw : w.OnlyVotes) {s t : Session ω} (hs : s.emu.OnMap M) (h : Steps w s t) :
    Ticked w s t := by
  have hboundary := h.frame.boundary
  obtain ⟨fuel, hloop⟩ := h
  exact ⟨debugStepLoop_ticked hw hs hloop, .inr hboundary⟩

theorem later_ticked (hw : w.OnlyVotes) {s t : Session ω} (hs : s.emu.OnMap M) (h : Later (Steps w) s t) :
    Ticked w s t := by
  induction h with
  | refl => exact .refl s
  | tail _ hstep ih => exact ih.trans (hstep.ticked hw (ih.onMap hw hs))

/-- `debug_finish` does nothing but tick: the peek of a turn changes nothing. -/
theorem debugFinishLoop_ticked (hw : w.OnlyVotes) {stepFuel fuel : Nat} {isRet r : Bool} {c : BitVec 32}
    {bp b : Option (BitVec 32)} {s t : Session ω} (hs : s.emu.OnMap M)
    (h : debugFinishLoop w stepFuel fuel isRet c bp s = some (r, b, t)) :
    Ticked w s t ∧ t.dbg = s.dbg := by
  induction fuel generalizing isRet c bp s with
  | zero => cases h
  | succ fuel ih =>
    unfold debugFinishLoop at h
    by_cases hgo : isRet = false ∧ s.swBreak = false
    · rw [if_pos hgo] at h
      simp only [busPeek_mapped hs.mapped, dbgEvalBreakpoints] at h
      cases hat : s.dbg.breakpointAt s.emu.cpu.regs.pc with
      | some i =>
        rw [hat] at h
        obtain ⟨-, heq⟩ := Prod.mk.inj (Option.some.inj h)
        obtain ⟨-, rfl⟩ := Prod.mk.inj heq
        exact ⟨.refl s, rfl⟩
      | none =>
        rw [hat] at h
        obtain ⟨u, hstep, hrest⟩ := Option.bind_eq_some_iff.mp h
        have hsteps : Steps w s u := ⟨stepFuel, hstep⟩
        have hfirst := hsteps.ticked hw hs
        obtain ⟨hsecond, hdbg⟩ := ih (hfirst.onMap hw hs) hrest
        exact ⟨hfirst.trans hsecond, hdbg.trans hsteps.frame.dbg⟩
    · rw [if_neg hgo] at h
      have hend : t = s := by
        split at h
        · split at h
          · exact ((Prod.mk.inj (Prod.mk.inj (Option.some.inj h)).2).2).symm
          · exact ((Prod.mk.inj (Prod.mk.inj (Option.some.inj h)).2).2).symm
        · exact ((Prod.mk.inj (Prod.mk.inj (Option.some.inj h)).2).2).symm
      rw [hend]
      exact ⟨.refl s, rfl⟩

theorem Cmd.exec_ticked (hw : w.OnlyVotes) {cmd : Cmd} {fuel : Nat} {s : Session ω}
    {bp : Option (BitVec 32)} {o : CmdResult ω} (hs : s.emu.OnMap M) (h : cmd.exec w fuel s bp = some o) :
    Ticked w s o.session ∧ o.session.dbg = s.dbg := by
  have hlooks : (cpuIsSubroutine s.emu).2 = s.emu := by
    unfold cpuIsSubroutine
    simp only [busPeek_mapped hs.mapped]
  cases cmd with
  | run =>
    obtain ⟨⟨b, t⟩, hrun, rfl⟩ := Option.map_eq_some_iff.mp h
    have hlater : Later (Steps w) s.unasked t := debugRunLoop_later hrun
    have hasked : Ticked w s s.unasked := .of_same rfl rfl
    have hdbg : t.dbg = s.unasked.dbg := later_dbg hlater
    exact ⟨hasked.trans (later_ticked hw hs hlater), hdbg⟩
  | next =>
    obtain ⟨⟨r, b, t⟩, hnext, rfl⟩ := Option.map_eq_some_iff.mp h
    by_cases hjsr : (cpuIsSubroutine s.emu).1 = true
    · have hlater := (debugNext_nextLoop hjsr hnext).later
      have hstart : s.nextStart.emu.OnMap M := by
        show (cpuIsSubroutine s.emu).2.OnMap M
        rw [hlooks]
        exact hs
      have hlooked : Ticked w s s.nextStart := .of_same hlooks rfl
      have hdbg : t.dbg = s.nextStart.dbg := later_dbg hlater
      exact ⟨hlooked.trans (later_ticked hw hstart hlater), hdbg⟩
    · rw [debugNext_plain hjsr, hlooks] at hnext
      obtain ⟨u, hstep, heq⟩ := Option.map_eq_some_iff.mp hnext
      obtain rfl := (Prod.mk.inj (Prod.mk.inj heq).2).2
      have hsteps : Steps w s u := ⟨fuel, hstep⟩
      exact ⟨hsteps.ticked hw hs, hsteps.frame.dbg⟩
  | step =>
    obtain ⟨t, hstep, rfl⟩ := Option.map_eq_some_iff.mp h
    have hsteps : Steps w s t := ⟨fuel, hstep⟩
    exact ⟨hsteps.ticked hw hs, hsteps.frame.dbg⟩
  | finish =>
    obtain ⟨⟨r, b, t⟩, hfinish, rfl⟩ := Option.map_eq_some_iff.mp h
    exact debugFinishLoop_ticked hw hs hfinish

/-- The commands that run leave the table, the others the machine. -/
theorem DbgCall.perform_ticked (hw : w.OnlyVotes) {call : DbgCall} {fuel : Nat} {s t : Session ω}
    (hs : s.emu.OnMap M) (h : call.perform w fuel s = some t) :
    Ticked w s t ∧ t.dbg = s.dbg.afterEvents [.call call] := by
  have hruns : ∀ {cmd : Cmd} {bp : Option (BitVec 32)},
      (cmd.exec w fuel s bp).map CmdResult.session = some t → Ticked w s t ∧ t.dbg = s.dbg := by
    intro cmd bp hmap
    obtain ⟨o, hexec, rfl⟩ := Option.map_eq_some_iff.mp hmap
    exact Cmd.exec_ticked hw hs hexec
  cases call with
  | run | next | step | finish => exact hruns h
  | setBreakpointAddr addr | setBreakpointLabel label =>
    obtain rfl := Option.some.inj h
    exact ⟨.of_same rfl rfl, rfl⟩
  | dump addr len =>
    obtain rfl := Option.some.inj h
    exact ⟨.of_same (peekAll_mapped hs.mapped _) rfl, rfl⟩
  | getCpuRegs | getBreakpoints | exit =>
    obtain rfl := Option.some.inj h
    exact ⟨.refl s, rfl⟩

theorem performEvent_ticked (hw : w.OnlyVotes) {event : Option CliEvent} {fuel : Nat} {s t : Session ω}
    (hs : s.emu.OnMap M) (h : performEvent w fuel event s = some t) :
    Ticked w s t ∧ t.dbg = s.dbg.afterEvents event.toList := by
  cases event with
  | none =>
    obtain rfl := Option.some.inj h
    exact ⟨.refl s, rfl⟩
  | some event =>
    cases event with
    | call call => exact DbgCall.perform_ticked hw hs h
    | unknown =>
      obtain rfl := Option.some.inj h
      exact ⟨.refl s, rfl⟩

/-! ## Sessions -/

/-- A session does nothing but tick, and its breakpoint commands decide the table. -/
theorem dbgcliRun_ticked (hw : w.OnlyVotes) {fuel : Nat} {input : List CliInput} {cli : DbgCli}
    {s t : Session ω} (hs : s.emu.OnMap M) (h : dbgcliRun w fuel cli s input = some t) :
    Ticked w s t ∧ t.dbg = s.dbg.afterEvents (cli.run (input.map CliInput.got)) := by
  induction input generalizing cli s with
  | nil =>
    rw [dbgcliRun, prompt_mapped hs.mapped, ite_self] at h
    obtain rfl := Option.some.inj h
    exact ⟨.refl s, rfl⟩
  | cons input rest ih =>
    rw [dbgcliRun, prompt_mapped hs.mapped] at h
    rw [List.map_cons, DbgCli.run]
    by_cases hexit : cli.exit = true
    · rw [if_pos hexit] at h ⊢
      obtain rfl := Option.some.inj h
      exact ⟨.refl s, rfl⟩
    · rw [if_neg hexit] at h ⊢
      obtain ⟨u, hevent, hrest⟩ := Option.bind_eq_some_iff.mp h
      -- Ctrl-C sets a flag of the session
      have hasked : Ticked w s (if input.requested then debugBreak s else s) ∧
          (if input.requested then debugBreak s else s).dbg = s.dbg := by
        split
        · exact ⟨.of_same rfl rfl, rfl⟩
        · exact ⟨.refl s, rfl⟩
      obtain ⟨hfirst, hdbg⟩ := performEvent_ticked hw (hasked.1.onMap hw hs) hevent
      have htou := hasked.1.trans hfirst
      obtain ⟨hsecond, hdbg'⟩ := ih (htou.onMap hw hs) hrest
      refine ⟨htou.trans hsecond, ?_⟩
      rw [hdbg', hdbg, hasked.2, Debug.afterEvents, Debug.afterEvents, ← List.foldl_append]
      rfl

/-- The ticks of a machine that runs by itself are a run on the map. -/
theorem MapRun.emulate (hw : w.OnlyVotes) {devs : ω} {n ticks k : Nat} {e e' : Emu ω}
    (h : MapRun M devs k e) (hrun : Cb6502.emulate w n ticks e = some e') :
    ∃ j ≤ n, MapRun M devs (k + j) e' := by
  induction n generalizing ticks k e with
  | zero =>
    obtain rfl := Option.some.inj hrun
    exact ⟨0, Nat.le_refl 0, h⟩
  | succ n ih =>
    obtain ⟨u, htick, hrest⟩ := Option.bind_eq_some_iff.mp hrun
    obtain ⟨v, hv⟩ := hw.before ticks e.bus
    obtain ⟨v', hv'⟩ := hw.after ticks u.bus
    rw [hv] at htick
    rw [hv'] at hrest
    by_cases hrdy : v.rdy = 0
    · obtain ⟨j, hj, hend⟩ := ih (((h.votes v).tick 4 hrdy htick).votes v') hrest
      exact ⟨j + 1, by omega, by rw [Nat.add_comm j 1, ← Nat.add_assoc]; exact hend⟩
    · obtain ⟨j, hj, hend⟩ := ih (((h.votes v).stalled 4 hrdy htick).votes v') hrest
      exact ⟨j, by omega, hend⟩

end

/-- The debugger on a machine that `cpu_init` has set up. -/
def debugStart (M : MemoryMap ω) (devs : ω) (dbg : Debug) : Session ω :=
  { dbg, emu := { bus := Bus.init M.conns [] devs, cpu := cpuInit }, swBreak := false, ticks := 0 }

/-- Whatever is typed, and whenever Ctrl-C is pressed: at the end of a session on a memory map the
breakpoint table is decided by the breakpoint commands alone, and the machine is as if it had run by
itself for as many ticks. It rests at an instruction boundary, unless it never ran; and where no write
was dropped its state there is that of a run of the instruction set from the reset. -/
theorem dbgcli_runs_machine {M : MemoryMap ω} {devs : ω} (hinv : M.inv devs) {w : World ω} (hw : w.OnlyVotes)
    {dbg : Debug} {inbuf : Text} {input : List CliInput} {fuel : Nat} {t : Session ω}
    (h : dbgcliRun w fuel { inbuf } (debugStart M devs dbg) input = some t) :
    t.dbg = dbg.afterEvents (DbgCli.run { inbuf } (input.map CliInput.got)) ∧
      emulate w t.ticks 0 (debugStart M devs dbg).emu = some t.emu ∧
      (t.ticks = 0 ∨ t.emu.cpu.opState = .opcode ∧ (KeptWrites M t.emu.bus.trace →
        ∃ k, MachineRun (resetMachine (M.mem devs)) k
            ⟨⟨t.emu.cpu.regs, M.mem t.emu.bus.devs⟩, t.emu.cpu.pageBoundary⟩ ∧
          resetCycles + k ≤ t.ticks)) := by
  have hstart : (debugStart M devs dbg).emu.OnMap M := ⟨⟨rfl, rfl, hinv⟩, rfl⟩
  obtain ⟨hticked, hdbg⟩ := dbgcliRun_ticked hw hstart h
  obtain ⟨n, hn, hrun⟩ := hticked.run
  obtain rfl : t.ticks = n := hn.trans (Nat.zero_add n)
  refine ⟨hdbg, hrun, hticked.rests.imp id fun hboundary => ⟨hboundary, fun hkept => ?_⟩⟩
  have hinit : MapRun M devs 0 (debugStart M devs dbg).emu := .init
  obtain ⟨j, hj, hmap⟩ := hinit.emulate hw hrun
  obtain ⟨k, hmachine, hk⟩ := hmap.machineRun hinv hkept hboundary
  exact ⟨k, hmachine, by omega⟩

/-- A breakpoint behind the program in the ROM, and `continue` up to it. -/
def continueInput : List CliInput :=
  [⟨false, Printf.ascii "b 0xfff4\n"⟩, ⟨true, Printf.ascii "c\n"⟩, ⟨false, Printf.ascii "x 0\n"⟩,
    ⟨false, Printf.ascii "q\n"⟩]

theorem dbgcli_runs_machine_of_continue :
    ∃ t, dbgcliRun idleWorld 20 { inbuf := [] } (debugStart (boardMap incConns incHeap) incHeap debugInit)
        continueInput = some t ∧ t.ticks = 15 ∧
      ∃ k, MachineRun (resetMachine (boardByte incConns incHeap)) k
          ⟨⟨t.emu.cpu.regs, boardByte incConns t.emu.bus.devs⟩, t.emu.cpu.pageBoundary⟩ ∧ 7 + k ≤ 15 := by
  have hend : ((dbgcliRun idleWorld 20 { inbuf := [] }
      (debugStart (boardMap incConns incHeap) incHeap debugInit) continueInput).map fun t =>
        (t.ticks, decide (KeptWrites (boardMap incConns incHeap) t.emu.bus.trace))) = some (15, true) := by
    decide +kernel
  obtain ⟨t, hrun, heq⟩ := Option.map_eq_some_iff.mp hend
  obtain ⟨hticks, hkept⟩ := Prod.mk.inj heq
  have hinv : (boardMap incConns incHeap).inv incHeap := fun _ => ⟨rfl, rfl, rfl⟩
  obtain ⟨-, -, hnever | ⟨-, hmachine⟩⟩ :=
    dbgcli_runs_machine hinv ⟨fun _ _ => ⟨_, rfl⟩, fun _ _ => ⟨_, rfl⟩⟩ hrun
  · rw [hticks] at hnever
    cases hnever
  · obtain ⟨k, hk, hle⟩ := hmachine (of_decide_eq_true hkept)
    rw [hticks] at hle
    exact ⟨t, hrun, hticks, k, hk, hle⟩

end Cb6502
