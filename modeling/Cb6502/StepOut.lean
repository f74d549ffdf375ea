import Cb6502.SteppingRam
import Cb6502.Stack
import Cb6502.Lib.Nesting

/- `debug_finish` on a RAM. It counts the calls and returns that it peeks before each step, but an
   interrupt is taken in place of the instruction peeked, and opens an activation of its own; so
   does BRK. `debug_finish_returns` is the exact condition under which it stops at the return from
   the activation it was called in. -/
namespace Cb6502
open Phase Nesting

variable {ω : Type} {R : Ram ω} {w : World ω}

/-! ## Activations -/

/-- What `debug_finish` makes of an opcode. -/
def opcodeMove (opcode : BitVec 8) : Move :=
  if opcode = 0x20 then .enter else if opcode = 0x40 ∨ opcode = 0x60 then .leave else .same

/-- The opcode at the program counter. -/
def Session.opcode (R : Ram ω) (s : Session ω) : BitVec 8 := R.mem s.emu.bus.devs s.emu.cpu.regs.pc

/-- The step from `s` takes an interrupt. -/
def Session.interrupted (w : World ω) (s : Session ω) : Bool :=
  intTaken (s.tickStart w).bus.sigvotes s.emu.cpu.regs

/-- What the step from `s` does to the nesting of activations. -/
def Session.move (w : World ω) (R : Ram ω) (s : Session ω) : Move :=
  if s.interrupted w = true ∨ s.opcode R = 0x00 then .enter else opcodeMove (s.opcode R)

theorem move_of_mistaken {s : Session ω} (h : opcodeMove (s.opcode R) ≠ s.move w R) :
    s.move w R = .enter := by
  unfold Session.move at h ⊢
  split at h
  · rename_i henter
    exact if_pos henter
  · exact absurd rfl h

theorem opcodeMove_eq_move_iff (s : Session ω) :
    opcodeMove (s.opcode R) = s.move w R ↔
      (s.interrupted w = true → s.opcode R = 0x20) ∧ s.opcode R ≠ 0x00 := by
  unfold Session.move
  by_cases henter : s.interrupted w = true ∨ s.opcode R = 0x00
  · rw [if_pos henter]
    unfold opcodeMove
    by_cases hjsr : s.opcode R = 0x20
    · rw [if_pos hjsr, hjsr]
      exact iff_of_true rfl ⟨fun _ => rfl, by decide⟩
    · rw [if_neg hjsr]
      refine iff_of_false ?_ fun h => ?_
      · split <;> exact Move.noConfusion
      · rcases henter with hint | hbrk
        · exact hjsr (h.1 hint)
        · exact h.2 hbrk
  · rw [if_neg henter]
    obtain ⟨hint, hbrk⟩ := not_or.mp henter
    exact iff_of_true rfl ⟨fun h => absurd h hint, hbrk⟩

/-- How an activation was entered. -/
inductive Entry where
  | call | interrupt
  deriving DecidableEq

/-- An activation: the stack pointer on its entry, and where it returns to. -/
structure Activation where
  entry : Entry
  sp : BitVec 8
  ret : BitVec 16

/-- The bytes that its return pulls. -/
def Entry.frameSize : Entry → BitVec 8
  | .call => 2
  | .interrupt => 3

/-- The return from the activation is the instruction at the program counter, the stack pointer is
that of the entry, and the frame has the return address. -/
structure Activation.Intact (R : Ram ω) (a : Activation) (s : Session ω) : Prop where
  sp : s.emu.cpu.regs.sp = a.sp
  frame : match a.entry with
    | .call => s.opcode R = 0x60 ∧ a.ret = joinBytes (R.mem s.emu.bus.devs (stackAddr (a.sp + 1)))
        (R.mem s.emu.bus.devs (stackAddr (a.sp + 2))) + 1
    | .interrupt => s.opcode R = 0x40 ∧ a.ret = joinBytes (R.mem s.emu.bus.devs (stackAddr (a.sp + 2)))
        (R.mem s.emu.bus.devs (stackAddr (a.sp + 3)))

/-- The program comes to the return from `a`, the activation at `s`, with its frame intact. -/
def Balanced (w : World ω) (R : Ram ω) (a : Activation) (s : Session ω) : Prop :=
  ∀ v, Within (Steps w) (Session.move w R) (0, s) (0, v) → v.move w R = .leave → a.Intact R v

/-- The last instruction before `t` is the return from `a`, the activation at `s`. -/
structure ReturnsFromActivation (w : World ω) (R : Ram ω) (a : Activation) (s t : Session ω) : Prop where
  last : Returns (Steps w) (Session.move w R) 0 s t
  sp : t.emu.cpu.regs.sp = a.sp + a.entry.frameSize
  pc : t.emu.cpu.regs.pc = a.ret

/-- The world votes for IRQ and NMI only. -/
structure World.OnlyInterrupts (w : World ω) : Prop extends w.OnlyVotes where
  rdy : ∀ n bus, (w.before n bus).sigvotes.rdy = 0

/-- At a boundary, on a RAM. -/
structure Session.AtBoundary (R : Ram ω) (s : Session ω) : Prop where
  ram : s.emu.bus.OnRam R
  boundary : s.emu.cpu.opState = .opcode

theorem Steps.atBoundary {s t : Session ω} (h : Steps w s t) (hw : w.OnlyInterrupts)
    (hs : s.AtBoundary R) : t.AtBoundary R := by
  obtain ⟨n, hrun, hboundary⟩ := h.executes hw.toOnlyVotes (hw.rdy _ _)
  exact ⟨hrun.onRam ((tickStart_onRam hw.toOnlyVotes s).mpr hs.ram) hs.boundary, hboundary⟩

/-- What the return from an activation does. -/
theorem Activation.Intact.returns {a : Activation} {v t : Session ω} (h : a.Intact R v)
    (hw : w.OnlyInterrupts) (hv : v.AtBoundary R) (hmove : v.move w R = .leave) (hs : Steps w v t) :
    t.emu.cpu.regs.sp = a.sp + a.entry.frameSize ∧ t.emu.cpu.regs.pc = a.ret := by
  have hdevs := tickStart_devs hw.toOnlyVotes v
  have hnoInt : intTaken (v.tickStart w).bus.sigvotes v.emu.cpu.regs = false := by
    unfold Session.move at hmove
    split at hmove
    · cases hmove
    · rename_i henter
      simpa [Session.interrupted] using (not_or.mp henter).1
  have hfetch : Fetches R (v.tickStart w) :=
    ⟨(tickStart_onRam hw.toOnlyVotes v).mpr hv.ram, hv.boundary, hw.rdy _ _, hnoInt⟩
  have hrun := hs.executes hw.toOnlyVotes (hw.rdy _ _)
  obtain ⟨hsp, hframe⟩ := h
  rw [← hsp] at hframe ⊢
  cases hentry : a.entry with
  | call =>
    rw [hentry] at hframe
    obtain ⟨hop, hret⟩ := hframe
    obtain ⟨-, hback, hpc⟩ := hrun.rts hfetch (by rw [hdevs]; exact hop)
    rw [hdevs] at hpc
    exact ⟨hback, hpc.trans hret.symm⟩
  | interrupt =>
    rw [hentry] at hframe
    obtain ⟨hop, hret⟩ := hframe
    obtain ⟨hback, hpc⟩ := hrun.rti hfetch (by rw [hdevs]; exact hop)
    rw [hdevs] at hpc
    exact ⟨hback, hpc.trans hret.symm⟩

/-! ## The loop -/

/-- The count of one opcode that is no return from the activation looked for. -/
theorem countOpcode_go {opcode : BitVec 8} {c : BitVec 32}
    (h : ¬(c = 0 ∧ opcodeMove opcode = .leave)) :
    ∃ c', countOpcode opcode false c = (false, c') ∧
      c'.toNat = (opcodeMove opcode).count (2 ^ 32) c.toNat := by
  unfold countOpcode
  unfold opcodeMove at h ⊢
  split
  · refine ⟨c + 1, rfl, ?_⟩
    show (c + 1).toNat = (c.toNat + 1) % 2 ^ 32
    bv_omega
  · split
    · rename_i hjsr hleave
      rw [if_neg hjsr, if_pos hleave] at h
      have hpos : 0 < c := by
        have hne : c ≠ 0 := fun heq => h ⟨heq, rfl⟩
        bv_omega
      refine ⟨c - 1, if_pos hpos, ?_⟩
      show (c - 1).toNat = c.toNat - 1
      bv_omega
    · exact ⟨c, rfl, rfl⟩

theorem countOpcode_stop {opcode : BitVec 8} (h : opcodeMove opcode = .leave) :
    countOpcode opcode false 0 = (true, 0) := by
  unfold countOpcode
  unfold opcodeMove at h
  split at h
  · cases h
  · rename_i hjsr
    split at h
    · rename_i hleave
      rw [if_neg hjsr, if_pos hleave]
      rfl
    · cases h

/-- One pass of the loop that returns false: it ends here, or counts the opcode and steps. -/
theorem debugFinishLoop_cases (hR : R.Peeks) {stepFuel fuel : Nat} {isRet : Bool} {c : BitVec 32}
    {bp b : Option (BitVec 32)} {s t : Session ω} (hs : s.AtBoundary R)
    (h : debugFinishLoop w stepFuel (fuel + 1) isRet c bp s = some (false, b, t)) :
    ((isRet = true ∨ s.swBreak = true) ∧ (s.swBreak = true → bp = none) ∧ t = s) ∨
      (isRet = false ∧ s.swBreak = false ∧ ∃ u, Steps w s u ∧
        debugFinishLoop w stepFuel fuel (countOpcode (s.opcode R) isRet c).1
          (countOpcode (s.opcode R) isRet c).2 bp u = some (false, b, t)) := by
  unfold debugFinishLoop at h
  by_cases hgo : isRet = false ∧ s.swBreak = false
  · rw [if_pos hgo] at h
    simp only [dbgEvalBreakpoints, busPeek_onRam hR hs.ram] at h
    refine .inr ⟨hgo.1, hgo.2, ?_⟩
    cases hat : s.dbg.breakpointAt s.emu.cpu.regs.pc with
    | some i =>
      rw [hat] at h
      cases h
    | none =>
      rw [hat] at h
      obtain ⟨u, hstep, hrest⟩ := Option.bind_eq_some_iff.mp h
      exact ⟨u, ⟨stepFuel, hstep⟩, hrest⟩
  · rw [if_neg hgo] at h
    have hend : isRet = true ∨ s.swBreak = true := by
      simpa only [not_and_or, Bool.not_eq_false] using hgo
    cases bp with
    | none =>
      have heq := congrArg (fun x => x.2.2) (Option.some.inj h)
      exact .inl ⟨hend, fun _ => rfl, heq.symm⟩
    | some old =>
      cases hbreak : s.swBreak with
      | true =>
        rw [hbreak] at h
        cases h
      | false =>
        rw [hbreak] at h
        have heq := congrArg (fun x => x.2.2) (Option.some.inj h)
        refine .inl ⟨?_, fun hno => Bool.noConfusion hno, heq.symm⟩
        rw [← hbreak]
        exact hend

/-- The loop that returns false is a search by counting, which a break halts where there is no
`breakpoint_hit`. -/
theorem debugFinishLoop_counts (hR : R.Peeks) (hw : w.OnlyInterrupts) {stepFuel fuel : Nat}
    {c : BitVec 32} {bp b : Option (BitVec 32)} {s t : Session ω} (hs : s.AtBoundary R)
    (h : debugFinishLoop w stepFuel fuel false c bp s = some (false, b, t)) :
    Counts (Steps w) (fun v => opcodeMove (v.opcode R)) (fun v => bp = none ∧ v.swBreak = true)
      (2 ^ 32) c.toNat s t := by
  induction fuel generalizing c s with
  | zero => cases h
  | succ fuel ih =>
    rcases debugFinishLoop_cases hR hs h with ⟨hend, hnull, rfl⟩ | ⟨-, hgo, u, hsu, hrest⟩
    · have hbreak : t.swBreak = true := hend.resolve_left Bool.false_ne_true
      exact .halt ⟨hnull hbreak, hbreak⟩
    · have hlive : ¬(bp = none ∧ s.swBreak = true) :=
        fun hhalt => Bool.false_ne_true (hgo.symm.trans hhalt.2)
      have hu := hsu.atBoundary hw hs
      by_cases hstop : c = 0 ∧ opcodeMove (s.opcode R) = .leave
      · -- the opcode is taken for the return: the loop ends after the step
        obtain ⟨rfl, hclaim⟩ := hstop
        rw [countOpcode_stop hclaim] at hrest
        cases fuel with
        | zero => cases hrest
        | succ fuel =>
          rcases debugFinishLoop_cases hR hu hrest with ⟨-, -, rfl⟩ | ⟨hno, -⟩
          · exact .stop hlive hclaim hsu
          · cases hno
      · obtain ⟨c', hcount, hc'⟩ := countOpcode_go hstop
        rw [hcount] at hrest
        have hgo' : ¬(c.toNat = 0 ∧ opcodeMove (s.opcode R) = .leave) :=
          fun h => hstop ⟨BitVec.eq_of_toNat_eq h.1, h.2⟩
        refine .step hlive hgo' hsu ?_
        rw [← hc']
        exact ih hu hrest

/-- Every boundary inside the activation is one on the RAM. -/
theorem Session.AtBoundary.within {s : Session ω} (hs : s.AtBoundary R) (hw : w.OnlyInterrupts)
    {d : Nat} {x : Nat × Session ω} (h : Within (Steps w) (Session.move w R) (d, s) x) :
    x.2.AtBoundary R := by
  induction h with
  | refl => exact hs
  | tail _ hstep ih => exact hstep.2.1.atBoundary hw ih

/-- On a RAM, with any schedule of IRQ and NMI votes, and from any boundary inside an activation
that the program returns from with its frame intact: `debug_finish` that returns false has stopped
at the return from the activation exactly if, at every boundary inside the activation, an interrupt
is taken only where JSR is, BRK is not executed, fewer than 2^32 activations are open, and, where
there is no `breakpoint_hit`, no break is requested. -/
theorem debug_finish_returns (hR : R.Peeks) (hw : w.OnlyInterrupts) {fuel : Nat}
    {bp b : Option (BitVec 32)} {s t : Session ω} {a : Activation} (hs : s.AtBoundary R)
    (hbalanced : Balanced w R a s) (h : debugFinish w fuel s bp = some (false, b, t)) :
    ReturnsFromActivation w R a s t ↔
      ∀ d v, Within (Steps w) (Session.move w R) (0, s) (d, v) →
        ((v.interrupted w = true → v.opcode R = 0x20) ∧ v.opcode R ≠ 0x00) ∧ d < 2 ^ 32 ∧
          (bp = none → v.swBreak = false) := by
  have hcounts := debugFinishLoop_counts hR hw hs h
  have hmistake : ∀ v : Session ω, opcodeMove (v.opcode R) ≠ v.move w R → v.move w R = .enter :=
    fun v => move_of_mistaken
  have hiff := hcounts.returns_iff (clocked_steps w) hmistake (by decide)
  have hlast : ReturnsFromActivation w R a s t ↔ Returns (Steps w) (Session.move w R) 0 s t := by
    refine ⟨fun h => h.last, fun hret => ?_⟩
    obtain ⟨⟨d, v⟩, hin, ⟨hd, hmove⟩, hstep, -⟩ := id hret
    obtain rfl : d = 0 := hd
    have hv : v.AtBoundary R := hs.within hw hin
    obtain ⟨hsp, hpc⟩ := (hbalanced v hin hmove).returns hw hv hmove hstep
    exact ⟨hret, hsp, hpc⟩
  rw [hlast]
  refine hiff.trans ⟨fun hall d v hv => ?_, fun hall x hx => ?_⟩
  · obtain ⟨hright, hdeep, hlive⟩ := hall (d, v) hv
    refine ⟨(opcodeMove_eq_move_iff v).mp hright, hdeep, fun hnone => ?_⟩
    by_contra hbreak
    exact hlive ⟨hnone, by simpa using hbreak⟩
  · obtain ⟨hright, hdeep, hlive⟩ := hall x.1 x.2 hx
    refine ⟨(opcodeMove_eq_move_iff x.2).mpr hright, hdeep, fun hhalt => ?_⟩
    exact Bool.false_ne_true ((hlive hhalt.1).symm.trans hhalt.2)

/-! ## Short runs -/

/-- After `n` steps of `debug_step_i`. -/
def stepped (w : World Mem) (s : Session Mem) (n : Nat) : Session Mem :=
  Nat.repeat (fun s => (debugStepI w 20 s).getD s) n s

/-- The activations opened in these steps. -/
def steppedDepth (w : World Mem) (s : Session Mem) : Nat → Nat
  | 0 => 0
  | n + 1 => ((stepped w s n).move w flatRam).depth (steppedDepth w s n)

theorem deepNext_stepped {w : World Mem} {s : Session Mem} {n : Nat}
    (h : (debugStepI w 20 (stepped w s n)).isSome = true) :
    DeepNext (Steps w) (Session.move w flatRam) (steppedDepth w s n, stepped w s n)
      (steppedDepth w s (n + 1), stepped w s (n + 1)) := by
  obtain ⟨t, ht⟩ := Option.isSome_iff_exists.mp h
  refine ⟨⟨20, ?_⟩, rfl⟩
  show debugStepI w 20 (stepped w s n) = some ((debugStepI w 20 (stepped w s n)).getD (stepped w s n))
  rw [ht]
  rfl

/-- An activation that is left behind `n` steps has no other states than these steps lead to. -/
theorem within_stepped {w : World Mem} {s : Session Mem} {n : Nat}
    (hsome : ∀ k < n, (debugStepI w 20 (stepped w s k)).isSome = true)
    (hleaves : Leaves (Session.move w flatRam) (steppedDepth w s n, stepped w s n)) {x : Nat × Session Mem}
    (h : Within (Steps w) (Session.move w flatRam) (0, s) x) :
    ∃ k ≤ n, x = (steppedDepth w s k, stepped w s k) := by
  have hc : Clocked (DeepNext (Steps w) (Session.move w flatRam)) fun a => a.2.ticks :=
    clocked_deepNext (clocked_steps w)
  -- from behind `j` steps, by the number of those left
  have hfrom : ∀ m j, j + m = n → Within (Steps w) (Session.move w flatRam)
      (steppedDepth w s j, stepped w s j) x → ∃ k ≤ n, x = (steppedDepth w s k, stepped w s k) := by
    intro m
    induction m with
    | zero =>
      rintro j rfl hin
      exact ⟨j, Nat.le_refl j, inside_exit hleaves hin⟩
    | succ m ih =>
      intro j hj hin
      rcases Inside.cases hc (deepNext_stepped (hsome j (by omega))) hin with rfl | ⟨-, hin⟩
      · exact ⟨j, by omega, rfl⟩
      · exact ih (j + 1) (by omega) hin
  exact hfrom n 0 (Nat.zero_add n) h

/-- An activation that is left behind these steps and at no other of them, with its frame intact. -/
theorem balanced_stepped {w : World Mem} {s : Session Mem} {a : Activation} {n : Nat}
    (hsome : ∀ k < n, (debugStepI w 20 (stepped w s k)).isSome = true)
    (hleaves : ∀ k ≤ n, Leaves (Session.move w flatRam) (steppedDepth w s k, stepped w s k) ↔ k = n)
    (hintact : a.Intact flatRam (stepped w s n)) : Balanced w flatRam a s := by
  intro v hv hmove
  obtain ⟨k, hk, heq⟩ := within_stepped hsome ((hleaves n (Nat.le_refl n)).mpr rfl) hv
  obtain ⟨hdepth, rfl⟩ := Prod.mk.inj heq
  obtain rfl := (hleaves k hk).mp ⟨hdepth.symm, hmove⟩
  exact hintact

/-- IRQ is voted in the first tick only. -/
def irqWorld : World ω where
  before n bus := { bus with sigvotes := if n = 0 then { irq := 1 } else {} }
  after _ bus := bus
  breaks _ := false

theorem irqWorld_onlyInterrupts : (irqWorld : World ω).OnlyInterrupts := by
  refine ⟨⟨fun _ _ => ⟨_, rfl⟩, fun _ bus => ⟨bus.sigvotes, rfl⟩⟩, fun n bus => ?_⟩
  show (if n = 0 then ({ irq := 1 } : SigVotes) else {}).rdy = 0
  split <;> rfl

/-- `JSR $0310` and `RTS` from `$0300` on, `RTS` at `$0310`, and an interrupt handler that is RTI, in a
subroutine that returns to `$0401`. -/
def nestedMem (addr : BitVec 16) : BitVec 8 :=
  match addr.toNat with
  | 0x0300 => 0x20 | 0x0301 => 0x10 | 0x0302 => 0x03 | 0x0303 => 0x60
  | 0x0310 => 0x60
  | 0x0320 => 0x40
  | 0x01FF => 0x04
  | 0xFFFE => 0x20 | 0xFFFF => 0x03
  | _ => 0x00

def nestedSession : Session Mem :=
  { dbg := debugInit
    emu := { bus := Bus.init flatRam.conns [] nestedMem, cpu := { regs := { pc := 0x0300, sp := 0xFD } } }
    swBreak := false
    ticks := 0 }

def nestedActivation : Activation := { entry := .call, sp := 0xFD, ret := 0x0401 }

/-- The steps to the handler, back to the JSR, into the subroutine and back to the RTS. -/
theorem nestedSession_steps :
    (∀ k < 4, (debugStepI irqWorld 20 (stepped irqWorld nestedSession k)).isSome = true) ∧
      ∀ k ≤ 4, Leaves (Session.move irqWorld flatRam)
        (steppedDepth irqWorld nestedSession k, stepped irqWorld nestedSession k) ↔ k = 4 := by
  unfold Leaves
  decide +kernel

theorem nestedSession_balanced : Balanced irqWorld flatRam nestedActivation nestedSession := by
  have hframe : (stepped irqWorld nestedSession 4).emu.cpu.regs.sp = 0xFD ∧
      (stepped irqWorld nestedSession 4).opcode flatRam = 0x60 ∧ nestedActivation.ret =
        joinBytes (flatRam.mem (stepped irqWorld nestedSession 4).emu.bus.devs (stackAddr (0xFD + 1)))
          (flatRam.mem (stepped irqWorld nestedSession 4).emu.bus.devs (stackAddr (0xFD + 2))) + 1 := by
    decide +kernel
  exact balanced_stepped nestedSession_steps.1 nestedSession_steps.2 ⟨hframe.1, hframe.2⟩

/-- The interrupt is taken at the JSR, and comes between it and the call. -/
theorem debug_finish_returns_of_nested :
    ∃ t, debugFinish irqWorld 20 nestedSession none = some (false, none, t) ∧
      ReturnsFromActivation irqWorld flatRam nestedActivation nestedSession t ∧
      t.emu.cpu.regs.pc = 0x0401 ∧ t.emu.cpu.regs.sp = 0xFF := by
  have hrun : ((debugFinish irqWorld 20 nestedSession none).map fun x => (x.1, x.2.1)) =
      some (false, none) := by decide +kernel
  obtain ⟨⟨r, b, t⟩, hfinish, heq⟩ := Option.map_eq_some_iff.mp hrun
  obtain ⟨rfl, rfl⟩ := Prod.mk.inj heq
  have hright : ∀ k ≤ 4,
      (((stepped irqWorld nestedSession k).interrupted irqWorld = true →
            (stepped irqWorld nestedSession k).opcode flatRam = 0x20) ∧
          (stepped irqWorld nestedSession k).opcode flatRam ≠ 0x00) ∧
        steppedDepth irqWorld nestedSession k < 2 ^ 32 ∧
          (stepped irqWorld nestedSession k).swBreak = false := by decide +kernel
  have hreturns := (debug_finish_returns flatRam_peeks irqWorld_onlyInterrupts ⟨⟨rfl, rfl, trivial⟩, rfl⟩
    nestedSession_balanced hfinish).mpr fun d v hv => by
      obtain ⟨k, hk, heq⟩ := within_stepped nestedSession_steps.1
        ((nestedSession_steps.2 4 (Nat.le_refl 4)).mpr rfl) hv
      obtain ⟨rfl, rfl⟩ := Prod.mk.inj heq
      obtain ⟨hcount, hdepth, hbreak⟩ := hright k hk
      exact ⟨hcount, hdepth, fun _ => hbreak⟩
  exact ⟨t, hfinish, hreturns, hreturns.pc, hreturns.sp⟩

/-- At an RTS, with the stack and the vectors full of `$60`, and an interrupt handler that is RTI. -/
def rtsSession : Session Mem :=
  { dbg := debugInit
    emu :=
      { bus := Bus.init flatRam.conns [] fun addr => if addr = 0x6060 then 0x40 else 0x60
        cpu := { regs := { pc := 0x0300, sp := 0xFD } } }
    swBreak := false
    ticks := 0 }

/-- The call that `rtsSession` is about to return from. -/
def rtsActivation : Activation := { entry := .call, sp := 0xFD, ret := 0x6061 }

theorem rtsSession_atBoundary : rtsSession.AtBoundary flatRam := ⟨⟨rfl, rfl, trivial⟩, rfl⟩

theorem irqWorld_balanced : Balanced irqWorld flatRam rtsActivation rtsSession := by
  have hsteps : (∀ k < 2, (debugStepI irqWorld 20 (stepped irqWorld rtsSession k)).isSome = true) ∧
      ∀ k ≤ 2, Leaves (Session.move irqWorld flatRam)
        (steppedDepth irqWorld rtsSession k, stepped irqWorld rtsSession k) ↔ k = 2 := by
    unfold Leaves
    decide +kernel
  have hframe : (stepped irqWorld rtsSession 2).emu.cpu.regs.sp = 0xFD ∧
      (stepped irqWorld rtsSession 2).opcode flatRam = 0x60 ∧ rtsActivation.ret =
        joinBytes (flatRam.mem (stepped irqWorld rtsSession 2).emu.bus.devs (stackAddr (0xFD + 1)))
          (flatRam.mem (stepped irqWorld rtsSession 2).emu.bus.devs (stackAddr (0xFD + 2))) + 1 := by
    decide +kernel
  exact balanced_stepped hsteps.1 hsteps.2 ⟨hframe.1, hframe.2⟩

/-- The interrupt is taken at the RTS, and `debug_finish` stops at its handler. -/
theorem debug_finish_stops_at_interrupt :
    ¬ ∀ (w : World Mem) (fuel : Nat) (bp b : Option (BitVec 32)) (s t : Session Mem) (a : Activation),
      w.OnlyInterrupts → s.AtBoundary flatRam → Balanced w flatRam a s →
      debugFinish w fuel s bp = some (false, b, t) → ReturnsFromActivation w flatRam a s t := by
  intro hclaim
  have hrun : ((debugFinish irqWorld 20 rtsSession none).map fun x =>
      (x.1, x.2.2.emu.cpu.regs.pc)) = some (false, 0x6060) := by decide +kernel
  obtain ⟨⟨r, b, t⟩, hfinish, heq⟩ := Option.map_eq_some_iff.mp hrun
  obtain ⟨rfl, hpc⟩ := Prod.mk.inj heq
  have hret := hclaim _ _ _ _ _ _ _ irqWorld_onlyInterrupts rtsSession_atBoundary irqWorld_balanced hfinish
  rw [hret.pc] at hpc
  exact absurd hpc (by decide)

end Cb6502
