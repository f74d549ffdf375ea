import Cb6502.Lib.Erasure
import Cb6502.Memory
import Cb6502.Runs

/- RDY stalls on a board of memories. A stalled tick repeats the last transaction, which
   changes nothing: the byte a write stored is there already, and a read returns what it
   returned before (`Repeats`). Erasing the RDY votes and the stalled ticks from a run
   gives a run that goes through the same states with the other transactions. -/
namespace Cb6502
open Dialogue Erasure

/-! ## The last transaction -/

/-- Doing the operation `lastop` on the stored bytes `d` is the transaction `op` and
changes nothing. -/
structure Repeats (conns : List (BusConn Heap)) (d : Heap) (lastop op : BusOp) : Prop where
  addr : lastop.addr = op.addr
  write : lastop.write = op.write
  sync : lastop.sync = op.sync
  read : op.write = false → storeRead conns d op.addr false op.sync = op.val
  stored : op.write = true → lastop.val = op.val ∧ op.sync = false ∧
    storeWrite conns d op.addr op.val = d

/-- The last operation repeats the last transaction; before the first one it reads address 0. -/
structure Bus.LastOk (bus : Bus Heap) : Prop where
  last : ∀ op, bus.trace.getLast? = some op → Repeats bus.connlist bus.devs bus.lastop op
  first : bus.trace = [] → bus.lastop = {}

theorem replay_of_repeats {bus : Bus Heap} (h : bus.Stores) {op : BusOp}
    (hr : Repeats bus.connlist bus.devs bus.lastop op) :
    busReplay bus = { bus with trace := bus.trace ++ [op] } := by
  obtain ⟨opAddr, opVal, opWrite, opSync⟩ := op
  obtain ⟨conns, tracers, votes, ⟨addr, val, write, sync⟩, devs, trace, edges⟩ := bus
  obtain ⟨rfl, rfl, rfl, hread, hstored⟩ := hr
  cases write with
  | true =>
    obtain ⟨rfl, rfl, hdevs⟩ := hstored rfl
    have hwrite := h.busWrite addr val
    dsimp only at hwrite hdevs
    simp only [busReplay, if_true, hwrite, hdevs, Bus.commit]
  | false =>
    have hval := hread rfl
    have hrd := h.busReadPeekI addr sync
    dsimp only at hrd hval
    simp only [busReplay, Bool.false_eq_true, if_false, hrd, hval, Bus.commit]

theorem lastOk_read {bus : Bus Heap} (h : bus.Stores) (addr : BitVec 16) (sync : Bool) :
    (busReadPeekI bus addr false sync).2.LastOk := by
  rw [h.busReadPeekI addr sync]
  refine ⟨?_, fun hnil => absurd hnil (by simp [Bus.commit])⟩
  intro op hop
  simp only [Bus.commit, List.getLast?_append, List.getLast?_singleton, Option.some_or,
    Option.some.injEq] at hop
  subst hop
  exact ⟨rfl, rfl, rfl, fun _ => rfl, fun h => absurd h Bool.false_ne_true⟩

theorem lastOk_write {bus : Bus Heap} (h : bus.Stores) (hc : MemoryConns bus.connlist)
    (addr : BitVec 16) (value : BitVec 8) : (busWrite bus addr value).LastOk := by
  rw [h.busWrite addr value]
  refine ⟨?_, fun hnil => absurd hnil (by simp [Bus.commit])⟩
  intro op hop
  simp only [Bus.commit, List.getLast?_append, List.getLast?_singleton, Option.some_or,
    Option.some.injEq] at hop
  subst hop
  exact ⟨rfl, rfl, rfl, fun h => absurd h Bool.noConfusion,
    fun _ => ⟨rfl, rfl, storeWrite_idem hc addr value bus.devs⟩⟩

/-- Before the first transaction a replay reads address 0. -/
theorem replay_first {bus : Bus Heap} (h : bus.Stores) (hfirst : bus.lastop = {}) :
    busReplay bus = { bus with
      trace := bus.trace ++ [⟨0, storeRead bus.connlist bus.devs 0 false false, false, false⟩] } := by
  have hrd := h.busReadPeekI 0 false
  simp only [busReplay, hfirst, Bool.false_eq_true, if_false, hrd, Bus.commit]

/-! ## The invariant of a run -/

/-- A state between two ticks of a board of memories. -/
structure Steady (conns : List (BusConn Heap)) (emu : Emu Heap) : Prop where
  conns : emu.bus.connlist = conns
  tracers : emu.bus.tracelist = []
  lastOk : emu.bus.LastOk
  fresh : emu.cpu.ctl.fresh = true
  clear : emu.cpu.cycleConsumed = false

/-- The part of `Steady` that is about the bus. -/
def SteadyBus (conns : List (BusConn Heap)) (bus : Bus Heap) : Prop :=
  bus.connlist = conns ∧ bus.tracelist = [] ∧ bus.LastOk

section
variable {conns : List (BusConn Heap)} (hc : MemoryConns conns)
include hc

theorem SteadyBus.stores {bus : Bus Heap} (h : SteadyBus conns bus) : bus.Stores :=
  ⟨by rw [h.1]; exact hc.stores, h.2.1⟩

theorem SteadyBus.read {bus : Bus Heap} (h : SteadyBus conns bus) (addr : BitVec 16) (sync : Bool) :
    SteadyBus conns (busReadPeekI bus addr false sync).2 := by
  have hcommit := committed_read bus addr sync
  exact ⟨hcommit.connlist.trans h.1, hcommit.tracelist.trans h.2.1, lastOk_read (h.stores hc) addr sync⟩

theorem SteadyBus.write {bus : Bus Heap} (h : SteadyBus conns bus) (addr : BitVec 16)
    (value : BitVec 8) : SteadyBus conns (busWrite bus addr value) := by
  have hcommit := committed_write bus addr value
  have hcb : MemoryConns bus.connlist := by rw [h.1]; exact hc
  exact ⟨hcommit.connlist.trans h.1, hcommit.tracelist.trans h.2.1,
    lastOk_write (h.stores hc) hcb addr value⟩

theorem SteadyBus.kept : Bus.Kept (SteadyBus conns) :=
  ⟨fun h addr sync => h.read hc addr sync, fun h addr value => h.write hc addr value⟩

theorem Steady.tick {emu : Emu Heap} (h : Steady conns emu) : Steady conns emu.tick := by
  have hbus : SteadyBus conns emu.bus := ⟨h.conns, h.tracers, h.lastOk⟩
  have hack : SteadyBus conns (emu.bus.ackNmi emu.cpu) := by
    unfold Bus.ackNmi
    split
    · exact ⟨h.conns, h.tracers, h.lastOk.last, h.lastOk.first⟩
    · exact hbus
  obtain ⟨hconns, htracers, hlast⟩ := (SteadyBus.kept hc).tick hbus hack
  exact ⟨hconns, htracers, hlast, fresh_tick emu h.fresh, clear_tick emu⟩

omit hc in
/-- A change of the votes alone. -/
theorem Steady.votes {emu : Emu Heap} (h : Steady conns emu) (v : SigVotes) (n : Nat) :
    Steady conns { emu with bus.sigvotes := v, bus.nmiEdges := n } :=
  ⟨h.conns, h.tracers, ⟨h.lastOk.last, h.lastOk.first⟩, h.fresh, h.clear⟩

/-- A stalled tick repeats a transaction and changes nothing else. -/
theorem Steady.stalled {emu : Emu Heap} (h : Steady conns emu) (hrdy : emu.bus.sigvotes.rdy ≠ 0) :
    ∃ op, emu.tick = { emu with bus.trace := emu.bus.trace ++ [op] } ∧
      ∀ last, emu.bus.trace.getLast? = some last → op = last := by
  have hstores : emu.bus.Stores := ⟨by rw [h.conns]; exact hc.stores, h.tracers⟩
  rw [tick_stalled emu hrdy, Cpu.clearCycle_of_clear h.clear]
  cases hlast : emu.bus.trace.getLast? with
  | none =>
    have hfirst := h.lastOk.first (List.getLast?_eq_none_iff.mp hlast)
    exact ⟨_, by rw [replay_first hstores hfirst], nofun⟩
  | some op =>
    refine ⟨op, by rw [replay_of_repeats hstores (h.lastOk.last op hlast)], ?_⟩
    intro last hl
    exact Option.some.inj hl

end

/-! ## Runs with stalls -/

/-- What happens to the emulator: votes and registrations of voters, and ticks. -/
inductive StallAct where
  | vote (c : SigVote)
  | register
  | unregister (voter : BitVec 32)
  | tick

def StallAct.step : StallAct → Emu Heap → Option (Emu Heap)
  | .vote c, emu => some { emu with bus := emu.bus.sigVote c }
  | .register, emu => some { emu with bus.sigvotes := (emuBusRegisterSigVoter emu.bus.sigvotes).2 }
  | .unregister voter, emu =>
    some { emu with bus.sigvotes := emuBusUnregisterSigVoter emu.bus.sigvotes voter }
  | .tick, emu => cpuTick 4 emu

/-- The actions erased: the votes on RDY and the stalled ticks. -/
def StallAct.stalls : StallAct → Emu Heap → Bool
  | .vote c, _ => c.signal == .rdy
  | .tick, emu => emu.bus.sigvotes.rdy != 0
  | _, _ => false

/-- A run observed: the emulator, and the transactions of the ticks that were not stalled. -/
structure Observed where
  emu : Emu Heap
  kept : List BusOp

def StallAct.observe (a : StallAct) (o : Observed) : Option Observed :=
  (a.step o.emu).map fun emu =>
    { emu
      kept := if a.stalls o.emu then o.kept
        else o.kept ++ emu.bus.trace.drop o.emu.bus.trace.length }

/-! ## The erased run -/

/-- The votes with RDY released by everyone. -/
def SigVotes.noRdy (v : SigVotes) : SigVotes := { v with rdy := 0 }

theorem noRdy_of_released (v : SigVotes) (h : v.rdy = 0) : v.noRdy = v := by
  obtain ⟨_, _, _, _, _, _⟩ := v
  cases h
  rfl

theorem noRdy_vote_rdy (v : SigVotes) (voter : BitVec 32) (voted : Bool) :
    (emuBusSigVote v voter .rdy voted).noRdy = v.noRdy ∧
      (emuBusSigVote v voter .rdy voted).nmi = v.nmi := by
  unfold emuBusSigVote
  split
  · exact ⟨rfl, rfl⟩
  · simp [SigVotes.setMask, SigVotes.noRdy]

theorem noRdy_vote (v : SigVotes) (voter : BitVec 32) (signal : BusSignal) (voted : Bool)
    (h : signal ≠ .rdy) :
    emuBusSigVote v.noRdy voter signal voted = (emuBusSigVote v voter signal voted).noRdy := by
  unfold emuBusSigVote
  have halloc : v.noRdy.allocated = v.allocated := rfl
  have hnmi : v.noRdy.nmi = v.nmi := rfl
  rw [halloc, hnmi]
  split
  · rfl
  · cases signal with
    | rdy => exact absurd rfl h
    | nmi =>
      dsimp only
      split <;> rfl
    | irq => rfl
    | be => rfl

theorem noRdy_register (v : SigVotes) :
    (emuBusRegisterSigVoter v.noRdy).2 = (emuBusRegisterSigVoter v).2.noRdy := by
  have halloc : v.noRdy.allocated = v.allocated := rfl
  unfold emuBusRegisterSigVoter
  rw [halloc]
  split <;> rfl

/-- The emulator with RDY released and only the kept transactions on record. -/
def Observed.unstalled (o : Observed) : Emu Heap :=
  { o.emu with bus.trace := o.kept, bus.sigvotes := o.emu.bus.sigvotes.noRdy }

theorem Bus.after_setTrace (bus : Bus Heap) (trace : List BusOp) (s : StoreState Heap) :
    Bus.after { bus with trace } s = { bus.after s with trace := trace ++ s.log } := by
  obtain ⟨op, h⟩ := bus.after_frame s
  obtain ⟨op', h'⟩ := Bus.after_frame { bus with trace } s
  have hlast : op' = op := by
    have h₁ := Bus.after_lastop { bus with trace } s
    have h₂ := Bus.after_lastop bus s
    rw [h'] at h₁
    rw [h] at h₂
    exact h₁.trans h₂.symm
  rw [h, h', hlast]

theorem Bus.ackNmi_setTrace (bus : Bus Heap) (trace : List BusOp) (cpu : Cpu) :
    Bus.ackNmi { bus with trace } cpu = { bus.ackNmi cpu with trace } := by
  unfold Bus.ackNmi
  split <;> rfl

section
variable {conns : List (BusConn Heap)} (hc : MemoryConns conns)
include hc

/-- A tick that is not stalled does the same on the erased record. -/
theorem unstalled_tick {o : Observed} (h : Steady conns o.emu) (hrdy : o.emu.bus.sigvotes.rdy = 0) :
    o.unstalled.tick = Observed.unstalled
      { emu := o.emu.tick, kept := o.kept ++ o.emu.tick.bus.trace.drop o.emu.bus.trace.length } := by
  have hstores : o.emu.bus.Stores := ⟨by rw [h.conns]; exact hc.stores, h.tracers⟩
  have hvotes := noRdy_of_released _ hrdy
  have hunstalled : o.unstalled = { o.emu with bus.trace := o.kept } := by
    rw [Observed.unstalled, hvotes]
  have hstores' : Bus.Stores { o.emu.bus with trace := o.kept } := ⟨hstores.conns, hstores.tracers⟩
  have htick := tick_store o.emu hstores hrdy
  have htick' := tick_store { o.emu with bus.trace := o.kept } hstores' hrdy
  have hlog : o.emu.tick.bus.trace.drop o.emu.bus.trace.length =
      (storeTick o.emu.bus.connlist o.emu.bus.sigvotes o.emu.cpu o.emu.bus.devs).2.log := by
    rw [htick, Bus.after_trace, Bus.ackNmi_trace, List.drop_left]
  have hreleased : o.emu.tick.bus.sigvotes.rdy = 0 := by
    rw [htick, Bus.after_sigvotes]
    unfold Bus.ackNmi
    split <;> exact hrdy
  rw [hlog, hunstalled, htick', Observed.unstalled]
  dsimp only
  rw [noRdy_of_released _ hreleased, htick, Bus.ackNmi_setTrace, Bus.after_setTrace]

theorem Steady.step {a : StallAct} {emu emu' : Emu Heap} (h : Steady conns emu)
    (hs : a.step emu = some emu') : Steady conns emu' := by
  cases a with
  | vote c =>
    obtain rfl := Option.some.inj hs
    exact h.votes _ _
  | register =>
    obtain rfl := Option.some.inj hs
    exact h.votes _ emu.bus.nmiEdges
  | unregister voter =>
    obtain rfl := Option.some.inj hs
    exact h.votes _ emu.bus.nmiEdges
  | tick =>
    rw [eq_tick_of_cpuTick h.fresh hs]
    exact h.tick hc

/-- Erased actions do nothing to the erased emulator. -/
theorem unstalled_silent {a : StallAct} {o o' : Observed} (h : Steady conns o.emu)
    (hs : a.observe o = some o') (hstall : a.stalls o.emu = true) :
    o'.unstalled = o.unstalled := by
  obtain ⟨emu', he, rfl⟩ := Option.map_eq_some_iff.mp hs
  simp only [hstall, if_true]
  cases a with
  | vote c =>
    obtain rfl := Option.some.inj he
    obtain ⟨voter, signal, voted⟩ := c
    obtain rfl : signal = .rdy := by simpa [StallAct.stalls] using hstall
    obtain ⟨hvotes, hnmi⟩ := noRdy_vote_rdy o.emu.bus.sigvotes voter voted
    simp only [Observed.unstalled, Bus.sigVote, hvotes, hnmi]
    simp
  | register => cases hstall
  | unregister voter => cases hstall
  | tick =>
    have hrdy : o.emu.bus.sigvotes.rdy ≠ 0 := by simpa [StallAct.stalls] using hstall
    obtain ⟨op, htick, -⟩ := h.stalled hc hrdy
    rw [eq_tick_of_cpuTick h.fresh he, htick]
    rfl

/-- The other actions are matched on the erased emulator. -/
theorem unstalled_visible {a : StallAct} {o o' : Observed} (h : Steady conns o.emu)
    (hs : a.observe o = some o') (hstall : a.stalls o.emu = false) :
    a.step o.unstalled = some o'.unstalled := by
  obtain ⟨emu', he, rfl⟩ := Option.map_eq_some_iff.mp hs
  simp only [hstall, Bool.false_eq_true, if_false]
  cases a with
  | vote c =>
    obtain rfl := Option.some.inj he
    have hsig : c.signal ≠ .rdy := by simpa [StallAct.stalls] using hstall
    have hvotes := noRdy_vote o.emu.bus.sigvotes c.voter c.signal c.voted hsig
    have hedge : o.emu.bus.sigvotes.noRdy.nmi = o.emu.bus.sigvotes.nmi := rfl
    simp only [StallAct.step, Observed.unstalled, Bus.sigVote, hvotes, hedge, List.drop_length,
      List.append_nil]
    rfl
  | register =>
    obtain rfl := Option.some.inj he
    simp only [StallAct.step, Observed.unstalled, noRdy_register, List.drop_length, List.append_nil]
  | unregister voter =>
    obtain rfl := Option.some.inj he
    simp only [StallAct.step, Observed.unstalled, List.drop_length, List.append_nil]
    rfl
  | tick =>
    have hrdy : o.emu.bus.sigvotes.rdy = 0 := by simpa [StallAct.stalls] using hstall
    have htick := unstalled_tick hc h hrdy
    rw [← eq_tick_of_cpuTick h.fresh he] at htick
    rw [← htick]
    exact cpuTick_eq 0 o.unstalled h.fresh

end

theorem Steady.init (conns : List (BusConn Heap)) (devs : Heap) :
    Steady conns ⟨Bus.init conns [] devs, cpuInit⟩ :=
  ⟨rfl, rfl, ⟨nofun, fun _ => rfl⟩, rfl, rfl⟩

theorem Steady.observe_total {conns : List (BusConn Heap)} (hc : MemoryConns conns) (a : StallAct)
    (o : Observed) (h : Steady conns o.emu) : ∃ o', a.observe o = some o' ∧ Steady conns o'.emu := by
  have hstep : ∃ emu', a.step o.emu = some emu' := by
    cases a with
    | tick => exact ⟨_, cpuTick_eq 0 o.emu h.fresh⟩
    | vote c => exact ⟨_, rfl⟩
    | register => exact ⟨_, rfl⟩
    | unregister voter => exact ⟨_, rfl⟩
  obtain ⟨emu', he⟩ := hstep
  exact ⟨_, by rw [StallAct.observe, he, Option.map_some], h.step hc he⟩

/-- RDY stalls are stuttering. On a board of memories, after any run from `cpu_init`: a
stalled tick leaves the CPU and the memories as they are and repeats the last transaction,
and the run without the stalled ticks and the RDY votes goes to the same CPU, memories
and votes, with exactly the transactions of the ticks that were not stalled. -/
theorem rdy_stalls_stutter (conns : List (BusConn Heap)) (hc : MemoryConns conns) (devs : Heap)
    (acts : List StallAct) :
    ∃ emu kept,
      runActs StallAct.observe acts ⟨⟨Bus.init conns [] devs, cpuInit⟩, []⟩ = some ⟨emu, kept⟩ ∧
      (emu.bus.sigvotes.rdy ≠ 0 → ∃ emu' op, cpuTick 4 emu = some emu' ∧
        emu'.cpu = emu.cpu ∧ emu'.bus.devs = emu.bus.devs ∧
        emu'.bus.trace = emu.bus.trace ++ [op] ∧
        ∀ last, emu.bus.trace.getLast? = some last → op = last) ∧
      ∃ e, runActs StallAct.step
          (erase StallAct.observe (fun a o => a.stalls o.emu) acts
            ⟨⟨Bus.init conns [] devs, cpuInit⟩, []⟩)
          ⟨Bus.init conns [] devs, cpuInit⟩ = some e ∧
        e.cpu = emu.cpu ∧ e.bus.devs = emu.bus.devs ∧ e.bus.trace = kept ∧
        e.bus.sigvotes = { emu.bus.sigvotes with rdy := 0 } := by
  have hinit := Steady.init conns devs
  obtain ⟨⟨emu, kept⟩, h⟩ := runActs_total (I := fun o : Observed => Steady conns o.emu)
    (fun a o ho => ho.observe_total hc a) acts ⟨_, []⟩ hinit
  -- The erased emulator is the observed one with RDY released and the kept transactions.
  obtain ⟨e, he, rfl, hsteady⟩ := runActs_erase StallAct.step
    (fun a o => a.stalls o.emu)
    (R := fun (o : Observed) t => t = o.unstalled ∧ Steady conns o.emu)
    (by
      rintro a o o' t ⟨rfl, ho⟩ hs hstall
      -- a stalled tick, or an RDY vote: the erased run stays where it is
      obtain ⟨emu', hstep, rfl⟩ := Option.map_eq_some_iff.mp hs
      exact ⟨(unstalled_silent hc ho hs hstall).symm, ho.step hc hstep⟩)
    (by
      rintro a o o' t ⟨rfl, ho⟩ hs hstall
      -- any other step is a step of the erased run
      refine ⟨_, unstalled_visible hc ho hs hstall, rfl, ?_⟩
      obtain ⟨emu', hstep, rfl⟩ := Option.map_eq_some_iff.mp hs
      exact ho.step hc hstep)
    acts _ _ _ ⟨rfl, hinit⟩ h
  refine ⟨emu, kept, h, ?_, _, he, rfl, rfl, rfl, rfl⟩
  intro hrdy
  obtain ⟨op, htick, hlast⟩ := hsteady.stalled hc hrdy
  refine ⟨_, op, cpuTick_eq 0 emu hsteady.fresh, ?_⟩
  rw [htick]
  exact ⟨rfl, rfl, rfl, hlast⟩

/-- Two RAMs side by side at `$0000` and `$8000`. -/
def twoRams : List (BusConn Heap) :=
  [{ handle := 0, params := .range 0x0000 0x7FFF, handlers := memBusHandlers 0 },
   { handle := 1, params := .mask 0x8000 0x8000, handlers := memBusHandlers 1 }]

theorem rdy_stalls_stutter_on_two_rams :
    let ram (base : BitVec 16) : Memory :=
      { size := 0x8000, rom := false, base, buffer := Vector.replicate 0x8000 0xEA }
    let devs : Heap := fun id => if id = 0 then ram 0x0000 else ram 0x8000
    ∃ emu kept, runActs StallAct.observe
      [.register, .tick, .tick, .vote ⟨1, .rdy, true⟩, .tick, .vote ⟨1, .rdy, false⟩, .tick]
      ⟨⟨Bus.init twoRams [] devs, cpuInit⟩, []⟩ = some ⟨emu, kept⟩ := by
  intro ram devs
  have hc : MemoryConns twoRams := by
    intro conn hm
    rcases List.mem_cons.mp hm with rfl | hm
    · exact ⟨fun _ _ _ _ => rfl, 0, rfl⟩
    · obtain rfl := List.mem_singleton.mp hm
      exact ⟨fun _ _ _ _ => rfl, 1, rfl⟩
  obtain ⟨emu, kept, h, -⟩ := rdy_stalls_stutter twoRams hc devs
    [.register, .tick, .tick, .vote ⟨1, .rdy, true⟩, .tick, .vote ⟨1, .rdy, false⟩, .tick]
  exact ⟨emu, kept, h⟩

end Cb6502
