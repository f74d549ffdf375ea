import Mathlib.Logic.Function.Basic
import Cb6502.Memory

/- Boards that are a 64K RAM. `Ram` says what makes a list of connections one: every
   address reads back the byte last written to it, and nothing else happens. A tick on such
   a board is the run of its program on the bytes (`ramEnv`, `Bus.OnRam.run`), and a stalled
   tick changes no byte (`Bus.RamSteady.replay`). A flat RAM and a board of two memories of
   32K are instances. -/
namespace Cb6502
open Dialogue

/-- The bytes of a 64K memory. -/
abbrev Mem := BitVec 16 → BitVec 8

/-- Connections that are a RAM while the devices satisfy `inv`; `mem` gives the bytes. -/
structure Ram (ω : Type) where
  conns : List (BusConn ω)
  inv : ω → Prop
  mem : ω → Mem
  stores : StoreConns conns
  read : ∀ d, inv d → ∀ addr sync, storeRead conns d addr false sync = mem d addr
  keeps : ∀ d, inv d → ∀ addr value, inv (storeWrite conns d addr value)
  write : ∀ d, inv d → ∀ addr value,
    mem (storeWrite conns d addr value) = Function.update (mem d) addr value

variable {ω : Type} {R : Ram ω}

/-- The bus has the RAM's connections and no tracer. -/
structure Bus.OnRam (R : Ram ω) (bus : Bus ω) : Prop where
  conns : bus.connlist = R.conns
  tracers : bus.tracelist = []
  inv : R.inv bus.devs

theorem Bus.OnRam.stores {bus : Bus ω} (h : bus.OnRam R) : bus.Stores :=
  ⟨by rw [h.conns]; exact R.stores, h.tracers⟩

/-! ## The RAM as an environment -/

/-- The bytes, and the transactions made. -/
structure RamState where
  mem : Mem
  log : List BusOp

/-- The environment that `busEnv` is on a RAM. -/
def ramEnv : Prog.Env BusRead BusWrite (BitVec 8) RamState where
  answer q s := (s.mem q.addr, { s with log := s.log ++ [⟨q.addr, s.mem q.addr, false, q.sync⟩] })
  obey c s :=
    { mem := Function.update s.mem c.addr c.val, log := s.log ++ [⟨c.addr, c.val, true, false⟩] }

theorem Ram.simulates (R : Ram ω) :
    Prog.Simulates (storeEnv R.conns) ramEnv fun s t =>
      R.inv s.devs ∧ R.mem s.devs = t.mem ∧ s.log = t.log := by
  refine ⟨?_, ?_⟩
  · rintro q s t ⟨hinv, hmem, hlog⟩
    have hread : storeRead R.conns s.devs q.addr false q.sync = t.mem q.addr := by
      rw [R.read _ hinv, hmem]
    refine ⟨hread, hinv, hmem, ?_⟩
    simp only [storeEnv, ramEnv, hread, hlog]
  · rintro c s t ⟨hinv, hmem, hlog⟩
    refine ⟨R.keeps _ hinv _ _, ?_, ?_⟩
    · simp only [storeEnv, ramEnv, R.write _ hinv, hmem]
    · simp only [storeEnv, ramEnv, hlog]

/-- `bus'` is `bus` after the transactions of `s`, which left the bytes of `s`. -/
structure Bus.After (R : Ram ω) (bus : Bus ω) (s : RamState) (bus' : Bus ω) : Prop where
  onRam : bus'.OnRam R
  mem : R.mem bus'.devs = s.mem
  trace : bus'.trace = bus.trace ++ s.log
  sigvotes : bus'.sigvotes = bus.sigvotes

/-- A program run on a RAM's bus. -/
theorem Bus.OnRam.run {α : Type} {bus : Bus ω} (h : bus.OnRam R) (p : BusM α) :
    (p.run busEnv bus).1 = (p.run ramEnv ⟨R.mem bus.devs, []⟩).1 ∧
      bus.After R (p.run ramEnv ⟨R.mem bus.devs, []⟩).2 (p.run busEnv bus).2 := by
  have hrel := R.simulates.run (Prog.Match.refl (S := Eq) (fun _ => rfl) p)
    (s := ⟨bus.devs, []⟩) (t := ⟨R.mem bus.devs, []⟩) ⟨h.inv, rfl, rfl⟩
  obtain ⟨hcpu, hinv, hmem, hlog⟩ := hrel
  rw [run_store h.stores p, h.conns]
  refine ⟨hcpu, ⟨?_, ?_, ?_⟩, ?_, ?_, ?_⟩
  · rw [Bus.after_connlist]
    exact h.conns
  · rw [Bus.after_tracelist]
    exact h.tracers
  · rw [Bus.after_devs]
    exact hinv
  · rw [Bus.after_devs]
    exact hmem
  · rw [Bus.after_trace, hlog]
  · rw [Bus.after_sigvotes]

theorem Bus.OnRam.ackNmi {bus : Bus ω} (h : bus.OnRam R) (cpu : Cpu) : (bus.ackNmi cpu).OnRam R :=
  ⟨by rw [Bus.ackNmi_connlist]; exact h.conns, (h.stores.ackNmi cpu).tracers,
    by rw [Bus.ackNmi_devs]; exact h.inv⟩

/-! ## Ticks on a RAM -/

/-- The CPU and the bytes: what a tick on a RAM depends on besides the votes. -/
structure Core where
  cpu : Cpu
  mem : Mem

/-- The core of an emulator on the RAM `R`. -/
def Emu.core (R : Ram ω) (emu : Emu ω) : Core := ⟨emu.cpu.clearCycle, R.mem emu.bus.devs⟩

/-- The core after the program `p`. -/
def Core.after (c : Core) (p : BusM Cpu) : Core :=
  ⟨(p.run ramEnv ⟨c.mem, []⟩).1.clearCycle, (p.run ramEnv ⟨c.mem, []⟩).2.mem⟩

/-- One tick with RDY not held, the votes at its start being `v`. -/
def Core.tick (v : SigVotes) (c : Core) : Core := c.after (tickProg v c.cpu)

/-- The last write stands in the memory, so that repeating it changes nothing. -/
structure Bus.RamSteady (R : Ram ω) (bus : Bus ω) : Prop extends bus.OnRam R where
  last : bus.lastop.write = true → R.mem bus.devs bus.lastop.addr = bus.lastop.val

theorem Bus.OnRam.read {bus : Bus ω} (h : bus.OnRam R) (addr : BitVec 16) (sync : Bool) :
    (busReadPeekI bus addr false sync).2.RamSteady R ∧
      (busReadPeekI bus addr false sync).2.devs = bus.devs := by
  rw [h.stores.busReadPeekI addr sync]
  exact ⟨⟨⟨h.conns, h.tracers, h.inv⟩, nofun⟩, rfl⟩

theorem Bus.OnRam.write {bus : Bus ω} (h : bus.OnRam R) (addr : BitVec 16) (value : BitVec 8) :
    (busWrite bus addr value).RamSteady R ∧
      R.mem (busWrite bus addr value).devs = Function.update (R.mem bus.devs) addr value := by
  rw [h.stores.busWrite addr value, h.conns]
  have hwrite := R.write _ h.inv addr value
  refine ⟨⟨⟨rfl, h.tracers, R.keeps _ h.inv _ _⟩, ?_⟩, hwrite⟩
  intro _
  show R.mem (storeWrite R.conns bus.devs addr value) addr = value
  rw [hwrite, Function.update_self]

theorem kept_ramSteady : Bus.Kept (Bus.RamSteady R) :=
  ⟨fun h addr sync => (h.toOnRam.read addr sync).1,
    fun h addr value => (h.toOnRam.write addr value).1⟩

theorem Bus.RamSteady.ackNmi {bus : Bus ω} (h : bus.RamSteady R) (cpu : Cpu) :
    (bus.ackNmi cpu).RamSteady R := by
  refine ⟨h.toOnRam.ackNmi cpu, ?_⟩
  rw [Bus.ackNmi_lastop, Bus.ackNmi_devs]
  exact h.last

/-- A replay changes no byte. -/
theorem Bus.RamSteady.replay {bus : Bus ω} (h : bus.RamSteady R) :
    (busReplay bus).RamSteady R ∧ R.mem (busReplay bus).devs = R.mem bus.devs := by
  unfold busReplay
  split
  · rename_i hw
    obtain ⟨hsteady, hmem⟩ := h.toOnRam.write bus.lastop.addr bus.lastop.val
    refine ⟨hsteady, ?_⟩
    rw [hmem, ← h.last hw, Function.update_eq_self]
  · obtain ⟨hsteady, hdevs⟩ := h.toOnRam.read bus.lastop.addr bus.lastop.sync
    exact ⟨hsteady, by rw [hdevs]⟩

theorem core_tick_stalled {emu : Emu ω} (h : emu.bus.RamSteady R) (hrdy : emu.bus.sigvotes.rdy ≠ 0) :
    emu.tick.bus.RamSteady R ∧ emu.tick.core R = emu.core R := by
  obtain ⟨hsteady, hmem⟩ := h.replay
  rw [tick_stalled emu hrdy]
  refine ⟨hsteady, ?_⟩
  show Core.mk emu.cpu.clearCycle (R.mem (busReplay emu.bus).devs) = _
  rw [hmem]
  rfl

theorem core_tick {emu : Emu ω} (h : emu.bus.OnRam R) (hrdy : emu.bus.sigvotes.rdy = 0) :
    emu.tick.bus.OnRam R ∧ emu.tick.core R = (emu.core R).tick emu.bus.sigvotes ∧
      emu.tick.bus.sigvotes = (emu.bus.ackNmi emu.cpu).sigvotes := by
  obtain ⟨hcpu, hafter⟩ := (h.ackNmi emu.cpu).run (tickProg emu.bus.sigvotes emu.cpu.clearCycle)
  rw [Bus.ackNmi_devs] at hcpu hafter
  rw [tick_unstalled emu hrdy]
  refine ⟨hafter.onRam, ?_, hafter.sigvotes⟩
  show Core.mk _ _ = Core.mk _ _
  rw [Emu.tickRun, hcpu, hafter.mem]
  rfl

/-- A steady bus stays steady. -/
theorem ramSteady_tick {emu : Emu ω} (h : emu.bus.RamSteady R) : emu.tick.bus.RamSteady R :=
  kept_ramSteady.tick h (h.ackNmi emu.cpu)

/-! ## The bytes as what was written -/

/-- The bytes after the transaction `op`. -/
def Mem.apply (m : Mem) (op : BusOp) : Mem :=
  if op.write then Function.update m op.addr op.val else m

/-- The bytes are the writes on record, made on `m`. -/
structure Bus.Wrote (R : Ram ω) (m : Mem) (bus : Bus ω) : Prop extends bus.OnRam R where
  mem : R.mem bus.devs = bus.trace.foldl Mem.apply m

/-- The reads on record do not matter. -/
theorem Bus.Wrote.mem_writes {m : Mem} {bus : Bus ω} (h : bus.Wrote R m) :
    R.mem bus.devs = (bus.trace.filter (·.write)).foldl Mem.apply m := by
  rw [h.mem, List.foldl_filter]
  refine congrArg (fun f => bus.trace.foldl f m) ?_
  funext m op
  unfold Mem.apply
  split <;> rfl

theorem Bus.Wrote.read {m : Mem} {bus : Bus ω} (h : bus.Wrote R m) (addr : BitVec 16) (sync : Bool) :
    (busReadPeekI bus addr false sync).2.Wrote R m := by
  obtain ⟨hsteady, hdevs⟩ := h.toOnRam.read addr sync
  refine ⟨hsteady.toOnRam, ?_⟩
  rw [hdevs, (committed_read bus addr sync).trace, List.foldl_append, h.mem]
  rfl

theorem Bus.Wrote.write {m : Mem} {bus : Bus ω} (h : bus.Wrote R m) (addr : BitVec 16)
    (value : BitVec 8) : (busWrite bus addr value).Wrote R m := by
  obtain ⟨hsteady, hmem⟩ := h.toOnRam.write addr value
  refine ⟨hsteady.toOnRam, ?_⟩
  rw [hmem, (committed_write bus addr value).trace, List.foldl_append, h.mem]
  rfl

theorem kept_wrote (m : Mem) : Bus.Kept (Bus.Wrote R m) :=
  ⟨fun h addr sync => h.read addr sync, fun h addr value => h.write addr value⟩

/-- Every tick, stalled or not, keeps the record. -/
theorem wrote_tick {m : Mem} {emu : Emu ω} (h : emu.bus.Wrote R m) : emu.tick.bus.Wrote R m := by
  refine (kept_wrote m).tick h ⟨h.toOnRam.ackNmi emu.cpu, ?_⟩
  rw [Bus.ackNmi_devs, Bus.ackNmi_trace]
  exact h.mem

theorem wrote_repeat {m : Mem} {emu : Emu ω} (h : emu.bus.Wrote R m) (n : Nat) :
    (Nat.repeat Emu.tick n emu).bus.Wrote R m := by
  induction n with
  | zero => exact h
  | succ n ih => exact wrote_tick ih

/-! ## RAMs -/

theorem match_all (addr : BitVec 16) (write : Bool) (d : ω) :
    busMatchAddr (.range 0 0xFFFF) addr write d = true := by
  simp only [busMatchAddr, Bool.and_eq_true, decide_eq_true_eq]
  bv_omega

/-- A RAM on a connection of its own, as the tests of the core set up. -/
def flatRam : Ram Mem where
  conns :=
    [{ handle := 0
       params := .range 0 0xFFFF
       handlers :=
         { write := some fun addr value _ m => (Function.update m addr value, [])
           read := some fun addr _ m => (m addr, m, [])
           peek := some fun addr _ m => (m addr, m, []) } }]
  inv _ := True
  mem m := m
  stores := by
    intro conn hc
    obtain rfl := List.mem_singleton.mp hc
    refine ⟨fun _ _ _ _ => rfl, ?_, ?_, ?_⟩
    all_goals
      intro cb hcb
      obtain rfl := Option.some.inj hcb
      intros
      rfl
  read d _ addr sync := by
    simp only [storeRead, List.foldl_cons, List.foldl_nil, readStoreConn, match_all, if_true]
    rfl
  keeps _ _ _ _ := trivial
  write d _ addr value := by
    simp only [storeWrite, List.foldl_cons, List.foldl_nil, writeStoreConn, match_all, if_true]

/-- A writable memory of 32K at `base`. -/
structure Memory.IsHalf (base : BitVec 16) (m : Memory) : Prop where
  size : m.size = 0x8000
  rom : m.rom = false
  base : m.base = base

theorem Memory.IsHalf.write {base : BitVec 16} {m : Memory} (h : m.IsHalf base) (addr : BitVec 16)
    (value : BitVec 8) : (memBusWriteCb m addr value).IsHalf base := by
  unfold memBusWriteCb
  split
  · exact h
  · dsimp only
    split <;> exact ⟨h.size, h.rom, h.base⟩

/-- A memory reads back what was written to it, within its window. -/
theorem memBusReadCb_write {m : Memory} (hrom : m.rom = false) {addr : BitVec 16}
    (h : addr - m.base < m.size) (value : BitVec 8) (addr' : BitVec 16) :
    memBusReadCb (memBusWriteCb m addr value) addr' =
      if addr' = addr then value else memBusReadCb m addr' := by
  rw [memBusWriteCb_stored m addr value hrom h]
  unfold memBusReadCb
  dsimp only
  by_cases heq : addr' = addr
  · subst heq
    rw [dif_pos h, if_pos rfl]
    exact Vector.getElem_set_self h
  · rw [if_neg heq]
    split
    · rename_i h'
      refine Vector.getElem_set_ne h h' ?_
      intro hsame
      have := BitVec.eq_of_toNat_eq hsame
      exact heq (by bv_omega)
    · rfl

theorem match_lower (addr : BitVec 16) (write : Bool) (d : ω) :
    busMatchAddr (.range 0x0000 0x7FFF) addr write d = decide (addr < 0x8000#16) := by
  simp only [busMatchAddr, ← Bool.decide_and, decide_eq_decide]
  bv_omega

theorem match_upper (addr : BitVec 16) (write : Bool) (d : ω) :
    busMatchAddr (.range 0x8000 0xFFFF) addr write d = decide (¬addr < 0x8000#16) := by
  simp only [busMatchAddr, ← Bool.decide_and, decide_eq_decide]
  bv_omega

/-- Two memories, `0` below `$8000` and `1` from there on. -/
def halvesConns : List (BusConn Heap) :=
  [{ handle := 0, params := .range 0x0000 0x7FFF, handlers := memBusHandlers 0 },
   { handle := 1, params := .range 0x8000 0xFFFF, handlers := memBusHandlers 1 }]

/-- Both memories are writable and cover their half. -/
def Heap.AreHalves (h : Heap) : Prop := (h 0).IsHalf 0x0000 ∧ (h 1).IsHalf 0x8000

def Heap.halvesMem (h : Heap) : Mem := fun addr =>
  if addr < 0x8000#16 then memBusReadCb (h 0) addr else memBusReadCb (h 1) addr

theorem halvesConns_stores : StoreConns halvesConns := by
  refine MemoryConns.stores ?_
  intro conn hc
  rcases List.mem_cons.mp hc with rfl | hc
  · exact ⟨fun _ _ _ _ => rfl, 0, rfl⟩
  · obtain rfl := List.mem_singleton.mp hc
    exact ⟨fun _ _ _ _ => rfl, 1, rfl⟩

theorem halves_read (h : Heap) (addr : BitVec 16) (sync : Bool) :
    storeRead halvesConns h addr false sync = h.halvesMem addr := by
  simp only [storeRead, halvesConns, List.foldl_cons, List.foldl_nil, readStoreConn, match_lower,
    match_upper, memBusHandlers, decide_eq_true_eq, decide_not, Bool.not_eq_true', Heap.halvesMem]
  by_cases hlow : addr < 0x8000#16
  · simp only [hlow, if_true, decide_true, Bool.true_eq_false, if_false]
    rfl
  · simp only [hlow, if_false, decide_false, if_true]
    rfl

theorem Heap.AreHalves.put {h : Heap} (hinv : h.AreHalves) (addr : BitVec 16) (value : BitVec 8)
    {conn : BusConn Heap} {id : Nat} (hconn : conn.handlers = memBusHandlers id) :
    (writeStoreConn addr value h conn).AreHalves := by
  show (writeStoreConn addr value h conn 0).IsHalf 0x0000 ∧
    (writeStoreConn addr value h conn 1).IsHalf 0x8000
  rw [writeStoreConn_board hconn]
  split
  · refine ⟨?_, ?_⟩ <;> unfold Heap.put <;> split
    · rename_i hid; rw [← hid]; exact hinv.1.write addr value
    · exact hinv.1
    · rename_i hid; rw [← hid]; exact hinv.2.write addr value
    · exact hinv.2
  · exact hinv

theorem halves_keeps (h : Heap) (hinv : h.AreHalves) (addr : BitVec 16) (value : BitVec 8) :
    (storeWrite halvesConns h addr value).AreHalves :=
  Heap.AreHalves.put (Heap.AreHalves.put hinv addr value rfl) addr value rfl

theorem halves_write (h : Heap) (hinv : h.AreHalves) (addr : BitVec 16) (value : BitVec 8) :
    (storeWrite halvesConns h addr value).halvesMem = Function.update h.halvesMem addr value := by
  obtain ⟨h0, h1⟩ := hinv
  funext addr'
  simp only [storeWrite, halvesConns, List.foldl_cons, List.foldl_nil, writeStoreConn, match_lower,
    match_upper, memBusHandlers, decide_eq_true_eq, Function.update_apply, Heap.halvesMem]
  by_cases hlow : addr < 0x8000#16
  · have hin : addr - (h 0).base < (h 0).size := by
      rw [h0.base, h0.size]
      bv_omega
    by_cases heq : addr' = addr
    · simp [hlow, heq, Heap.put, memBusReadCb_write h0.rom hin]
    · simp [hlow, heq, Heap.put, memBusReadCb_write h0.rom hin]
  · have hin : addr - (h 1).base < (h 1).size := by
      rw [h1.base, h1.size]
      bv_omega
    by_cases heq : addr' = addr
    · simp [hlow, heq, Heap.put, memBusReadCb_write h1.rom hin]
    · simp [hlow, heq, Heap.put, memBusReadCb_write h1.rom hin]

/-- A RAM of two memories of 32K. -/
def halves : Ram Heap where
  conns := halvesConns
  inv := Heap.AreHalves
  mem := Heap.halvesMem
  stores := halvesConns_stores
  read h _ addr sync := halves_read h addr sync
  keeps := halves_keeps
  write := halves_write

end Cb6502
