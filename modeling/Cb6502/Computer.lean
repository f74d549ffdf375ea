import Cb6502.MemoryMap
import Cb6502.Peek

/- The CB6502 computer (plat/cb6502/cb6502.c): `cb6502_init` with the registrations of its EEPROM, ACIA,
   VIA and RAM, and the address space that a program sees. No device is registered with a voter. The
   clocks, the SD card and the SPI bus behind the VIA belong to what happens to the devices
   between the CPU's ticks.

   What is proved:
     1. `match_region`, `busRead_computer`, `busWrite_computer` (each address is decoded by one device at
        most, which alone is touched).
     2. `loadImage_getElem`, `cb6502Init_switchedOn` (the EEPROM after the file is loaded).
     3. `Bus.Computes.kept`; so `computer_memory` (in every run reads of the RAM find the last write, those
        of a ROM that is not written its file, and no signal is ever raised).
     4. `computer_flattens`; so `computer_runs_machine` (a program that keeps to the RAM and the ROM runs
        on the instruction set). -/
namespace Cb6502

variable {τ : Type}

/-! ## The registrations -/

def ROM_SIZE : Nat := 0x8000
def RAM_SIZE : BitVec 16 := 0x8000
def ACIA_SIZE : BitVec 16 := 0x0010
def VIA_SIZE : BitVec 16 := 0x0010
def RAM_BASE : BitVec 16 := 0x0000
def ROM_BASE : BitVec 16 := 0x8000
def ROM_MAP_START : BitVec 16 := 0x8080
def ACIA_BASE : BitVec 16 := 0x8000
def VIA_BASE : BitVec 16 := 0x8010

/-- The slots of the devices before they are made. -/
def noDevices (transHandle : τ) : Board τ where
  memory _ := { size := 0, rom := false, base := 0, buffer := #v[] }
  via _ := viaInit
  acia _ := aciaInit transHandle
  eeprom _ := at28c256Init false

/-- `memory_init` without flags -/
def memoryInit (size : BitVec 16) : Memory :=
  { size, rom := false, base := 0, buffer := .replicate _ 0 }

/-- `cb6502_rom_init`, with the contents of the file if it opens. -/
def cb6502RomInit (romFile : Option (List (BitVec 8))) (bus : Bus (Board τ)) : Option (Bus (Board τ)) :=
  romFile.bind fun contents =>
    let image := contents.take ROM_SIZE
    if image = [] then none
    else
      let rom := at28c256Init false
      -- `at28c256_register`
      let (handle, bus) := emuBusRegister bus (.range ROM_MAP_START 0xFFFF) (at28c256BusHandlers 0)
      let rom := if handle.isSome then { rom with busHandle := handle, base := ROM_BASE } else rom
      let rom := (at28c256LoadImage rom image 0).2
      some { bus with devs := bus.devs.putEeprom 0 rom }

/-- `cb6502_acia_init` -/
def cb6502AciaInit (transHandle : τ) (bus : Bus (Board τ)) : Bus (Board τ) :=
  let (_, acia, bus) := aciaRegister (aciaInit transHandle) bus
    (some (.range ACIA_BASE (ACIA_BASE + ACIA_SIZE - 1))) (aciaBusHandlers 0) ACIA_BASE false
  { bus with devs := bus.devs.putAcia 0 acia }

/-- `cb6502_via_init` -/
def cb6502ViaInit (bus : Bus (Board τ)) : Bus (Board τ) :=
  let (_, via, bus) := viaRegister viaInit bus (.range VIA_BASE (VIA_BASE + VIA_SIZE - 1)) (viaBusHandlers 0)
    VIA_BASE false
  { bus with devs := bus.devs.putVia 0 via }

/-- `cb6502_ram_init` -/
def cb6502RamInit (bus : Bus (Board τ)) : Bus (Board τ) :=
  let ram := memoryInit RAM_SIZE
  -- `memory_register`
  let (handle, bus) := emuBusRegister bus (.range RAM_BASE (RAM_BASE + RAM_SIZE - 1)) (boardMemHandlers 0)
  let ram := if handle.isSome then { ram with base := RAM_BASE } else ram
  { bus with devs := bus.devs.putMemory 0 ram }

/-- `cb6502_init`: the emulator of `emu_init`, and the devices one after another. -/
def cb6502Init (romFile : Option (List (BitVec 8))) (transHandle : τ) : Option (Emu (Board τ)) :=
  (cb6502RomInit romFile (Bus.init [] [] (noDevices transHandle))).map fun bus =>
    { bus := cb6502RamInit (cb6502ViaInit (cb6502AciaInit transHandle bus)), cpu := cpuInit }

/-! ## The address space -/

inductive Region where
  | ram | acia | via | hole | rom
  deriving DecidableEq

def regionOf (addr : BitVec 16) : Region :=
  if addr ≤ 0x7FFF then .ram
  else if addr ≤ 0x800F then .acia
  else if addr ≤ 0x801F then .via
  else if addr < 0x8080 then .hole
  else .rom

/-- The connections that `cb6502_init` makes. -/
def cb6502Conns : List (DeviceConn τ) :=
  [{ handle := 1, params := .range 0x8080 0xFFFF, device := .eeprom 0 },
   { handle := 2, params := .range 0x8000 0x800F, device := .acia 0 },
   { handle := 3, params := .range 0x8010 0x801F, device := .via 0 },
   { handle := 4, params := .range 0x0000 0x7FFF, device := .memory 0 }]

/-- What a read of the address finds, and what it leaves. -/
def Board.readAt (b : Board τ) (addr : BitVec 16) (sync : Bool) : BitVec 8 × Board τ :=
  match regionOf addr with
  | .ram => (memBusReadCb (b.memory 0) addr, b)
  | .acia => ((aciaReadOnBoard 0 addr sync b).1, (aciaReadOnBoard 0 addr sync b).2.1)
  | .via => ((viaReadOnBoard 0 addr sync b).1, (viaReadOnBoard 0 addr sync b).2.1)
  | .rom => ((eepromReadOnBoard 0 addr sync b).1, (eepromReadOnBoard 0 addr sync b).2.1)
  | .hole => (0xFF, b)

/-- What a write of the address leaves. -/
def Board.writeAt (b : Board τ) (addr : BitVec 16) (value : BitVec 8) : Board τ :=
  match regionOf addr with
  | .ram => b.putMemory 0 (memBusWriteCb (b.memory 0) addr value)
  | .acia => b.putAcia 0 (aciaBusWriteCb (b.acia 0) addr value)
  | .via => b.putVia 0 (viaBusWriteCb (b.via 0) addr value).via
  | .rom => b.putEeprom 0 (at28c256WriteCb (b.eeprom 0) addr value)
  | .hole => b

/-- The bus of the computer: its connections, no tracer, and no signal. -/
structure Bus.OnComputer (bus : Bus (Board τ)) : Prop where
  conns : bus.connlist = cb6502Conns.map DeviceConn.conn
  tracers : bus.tracelist = []
  silent : bus.sigvotes = {}

/-- The decoders and the regions. -/
theorem match_region (addr : BitVec 16) (write : Bool) (d : Board τ) :
    busMatchAddr (.range 0x8080 0xFFFF) addr write d = decide (regionOf addr = .rom) ∧
      busMatchAddr (.range 0x8000 0x800F) addr write d = decide (regionOf addr = .acia) ∧
      busMatchAddr (.range 0x8010 0x801F) addr write d = decide (regionOf addr = .via) ∧
      busMatchAddr (.range 0x0000 0x7FFF) addr write d = decide (regionOf addr = .ram) := by
  have hram : addr ≤ 0x7FFF ↔ addr.toNat ≤ 0x7FFF := Iff.rfl
  have hacia : addr ≤ 0x800F ↔ addr.toNat ≤ 0x800F := Iff.rfl
  have hvia : addr ≤ 0x801F ↔ addr.toNat ≤ 0x801F := Iff.rfl
  have hrom : addr < 0x8080 ↔ addr.toNat < 0x8080 := Iff.rfl
  have htop : addr.toNat < 0x10000 := addr.isLt
  unfold regionOf
  simp only [busMatchAddr, BitVec.le_def, hram, hacia, hvia, hrom]
  by_cases h1 : addr.toNat ≤ 0x7FFF
  · rw [if_pos h1]
    refine ⟨?_, ?_, ?_, ?_⟩ <;> simp <;> omega
  · rw [if_neg h1]
    by_cases h2 : addr.toNat ≤ 0x800F
    · rw [if_pos h2]
      refine ⟨?_, ?_, ?_, ?_⟩ <;> simp <;> omega
    · rw [if_neg h2]
      by_cases h3 : addr.toNat ≤ 0x801F
      · rw [if_pos h3]
        refine ⟨?_, ?_, ?_, ?_⟩ <;> simp <;> omega
      · rw [if_neg h3]
        by_cases h4 : addr.toNat < 0x8080
        · rw [if_pos h4]
          refine ⟨?_, ?_, ?_, ?_⟩ <;> simp <;> omega
        · rw [if_neg h4]
          refine ⟨?_, ?_, ?_, ?_⟩ <;> simp <;> omega

theorem regionOf_ram {addr : BitVec 16} : regionOf addr = .ram ↔ addr.toNat ≤ 0x7FFF := by
  show regionOf addr = .ram ↔ addr ≤ 0x7FFF
  unfold regionOf
  by_cases hlow : addr ≤ 0x7FFF
  · rw [if_pos hlow]
    exact iff_of_true rfl hlow
  · rw [if_neg hlow]
    refine ⟨fun hram => ?_, fun h => absurd h hlow⟩
    repeat' split at hram
    all_goals cases hram

/-- Without voters, votes change nothing. -/
theorem afterCallback_silent {ω : Type} {bus : Bus ω} (h : bus.sigvotes = {}) (r : ω × List SigVote) :
    bus.afterCallback r = { bus with devs := r.1 } := by
  have hvote : ∀ (bus : Bus ω) c, bus.sigvotes = {} → bus.sigVote c = bus := by
    intro bus c hsilent
    have hsame : emuBusSigVote bus.sigvotes c.voter c.signal c.voted = bus.sigvotes := by
      rw [hsilent]
      exact if_pos BitVec.zero_and
    unfold Bus.sigVote
    simp only [hsame]
    rw [if_neg fun hedge => hedge.2 hedge.1]
  have hvotes : ∀ (votes : List SigVote) (bus : Bus ω), bus.sigvotes = {} →
      votes.foldl Bus.sigVote bus = bus := by
    intro votes
    induction votes with
    | nil => exact fun _ _ => rfl
    | cons c votes ih =>
      intro bus hsilent
      rw [List.foldl_cons, hvote bus c hsilent]
      exact ih bus hsilent
  exact hvotes r.2 _ h

section Transactions
variable {bus : Bus (Board τ)}

/-- A read is answered by the device of its region. -/
theorem readLoop_computer (h : bus.OnComputer) (addr : BitVec 16) (sync : Bool) :
    bus.connlist.foldl (busReadConn addr false sync) (none, bus) =
      (if regionOf addr = .hole then none else some (bus.devs.readAt addr sync).1,
        { bus with devs := (bus.devs.readAt addr sync).2 }) := by
  have hloop : bus.connlist.foldl (busReadConn addr false sync) (none, bus) =
      cb6502Conns.foldl (fun acc c => busReadConn addr false sync acc c.conn) (none, bus) := by
    rw [h.conns, List.foldl_map]
  have hmatch := match_region (τ := τ) addr true
  have hsilent := afterCallback_silent h.silent
  unfold Board.readAt
  simp only [hloop, cb6502Conns, List.foldl_cons, List.foldl_nil, busReadConn, DeviceConn.conn, fun d => (hmatch d).1,
    fun d => (hmatch d).2.1, fun d => (hmatch d).2.2.1, fun d => (hmatch d).2.2.2]
  cases regionOf addr <;>
    simp [Device.handlers, boardMemHandlers, aciaBusHandlers, viaBusHandlers, at28c256BusHandlers, hsilent]

/-- A write is taken by the device of its region. -/
theorem writeLoop_computer (h : bus.OnComputer) (addr : BitVec 16) (value : BitVec 8) :
    bus.connlist.foldl (busWriteConn addr value) bus = { bus with devs := bus.devs.writeAt addr value } := by
  have hloop : bus.connlist.foldl (busWriteConn addr value) bus =
      cb6502Conns.foldl (fun bus c => busWriteConn addr value bus c.conn) bus := by
    rw [h.conns, List.foldl_map]
  have hmatch := match_region (τ := τ) addr false
  have hsilent := afterCallback_silent h.silent
  unfold Board.writeAt
  simp only [hloop, cb6502Conns, List.foldl_cons, List.foldl_nil, busWriteConn, DeviceConn.conn, fun d => (hmatch d).1,
    fun d => (hmatch d).2.1, fun d => (hmatch d).2.2.1, fun d => (hmatch d).2.2.2]
  cases regionOf addr <;>
    simp [Device.handlers, boardMemHandlers, aciaBusHandlers, viaBusHandlers, at28c256BusHandlers, hsilent]

theorem busRead_computer (h : bus.OnComputer) (addr : BitVec 16) (sync : Bool) :
    busReadPeekI bus addr false sync = ((bus.devs.readAt addr sync).1,
      Bus.commit { bus with devs := (bus.devs.readAt addr sync).2 }
        ⟨addr, (bus.devs.readAt addr sync).1, false, sync⟩) := by
  unfold busReadPeekI
  rw [readLoop_computer h]
  have hbyte : (if regionOf addr = .hole then none else some (bus.devs.readAt addr sync).1).getD 0xFF =
      (bus.devs.readAt addr sync).1 := by
    unfold Board.readAt
    cases regionOf addr <;> rfl
  simp only [hbyte, Bus.callTracers, h.tracers, List.foldl_nil, Bool.false_eq_true, if_false]
  rfl

theorem busWrite_computer (h : bus.OnComputer) (addr : BitVec 16) (value : BitVec 8) :
    busWrite bus addr value =
      Bus.commit { bus with devs := bus.devs.writeAt addr value } ⟨addr, value, true, false⟩ := by
  unfold busWrite
  rw [writeLoop_computer h]
  simp only [Bus.callTracers, h.tracers, List.foldl_nil]
  rfl

end Transactions

/-! ## The computer as it is switched on -/

/-- The byte of the ROM at `addr`: that of the file, or the fill behind it. -/
def romByte (contents : List (BitVec 8)) (addr : BitVec 16) : BitVec 8 :=
  contents.getD (addr - ROM_BASE).toNat at28ImageFill

/-- Bytes stored one after another. -/
theorem storeAll_getD {size : Nat} (image : List (BitVec 8)) (first : Nat) (mem : Vector (BitVec 8) size)
    {i : Nat} (hi : i < size) :
    ((image.zipIdx first).foldl (fun mem b => mem.setIfInBounds b.2 b.1) mem)[i] =
      if first ≤ i then image.getD (i - first) mem[i] else mem[i] := by
  induction image generalizing first mem with
  | nil => simp
  | cons byte image ih =>
    rw [List.zipIdx_cons, List.foldl_cons, ih, Vector.getElem_setIfInBounds]
    by_cases hhere : first = i
    · subst hhere
      simp
    · rw [if_neg hhere]
      by_cases hbehind : first + 1 ≤ i
      · have hnext : i - first = i - (first + 1) + 1 := by omega
        rw [if_pos hbehind, if_pos (by omega), hnext, List.getD_cons_succ]
      · rw [if_neg hbehind, if_neg (by omega)]

/-- The image behind a file is filled. -/
theorem loadImage_getElem (rom : At28c256) {contents : List (BitVec 8)} {i : Nat} (hi : i < at28ImageSize) :
    (at28c256LoadImage rom (contents.take ROM_SIZE) 0).2.image[i] = contents.getD i at28ImageFill := by
  have hlength : (contents.take ROM_SIZE).length ≤ at28ImageSize := List.length_take_le ..
  have hfit : ¬(contents.take ROM_SIZE).length + (0 : BitVec 16).toNat > at28ImageSize := Nat.not_lt.mpr hlength
  have hbyte : (contents.take ROM_SIZE).getD i at28ImageFill = contents.getD i at28ImageFill := by
    simp only [List.getD_eq_getElem?_getD, List.getElem?_take, show i < ROM_SIZE from hi, if_true]
  rw [at28c256LoadImage, if_neg hfit]
  show ((List.zipIdx _ (0 : BitVec 16).toNat).foldl _ _)[i] = _
  rw [storeAll_getD _ _ _ hi, if_pos (show (0 : BitVec 16).toNat ≤ i from Nat.zero_le i), ← hbyte]
  show (contents.take ROM_SIZE).getD i _ = _
  split
  · simp only [Vector.getElem_replicate]
  · rename_i hwhole
    have hin : i < (contents.take ROM_SIZE).length := (not_not.mp hwhole).symm ▸ hi
    simp only [List.getD_eq_getElem?_getD, List.getElem?_eq_getElem hin, Option.getD_some]

/-- Only the image is loaded. -/
theorem loadImage_rest (rom : At28c256) (image : List (BitVec 8)) (offset : BitVec 16) :
    (at28c256LoadImage rom image offset).2.writeState = rom.writeState ∧
      (at28c256LoadImage rom image offset).2.base = rom.base := by
  unfold at28c256LoadImage
  split <;> exact ⟨rfl, rfl⟩

/-- The EEPROM is idle and holds the file. -/
structure At28c256.RomOf (contents : List (BitVec 8)) (rom : At28c256) : Prop where
  idle : rom.writeState = .idle
  base : rom.base = ROM_BASE
  image : ∀ i (hi : i < at28ImageSize), rom.image[i] = contents.getD i at28ImageFill

/-- What `cb6502_init` leaves: the connections, an empty RAM, and the file in the ROM. -/
structure Emu.SwitchedOn (contents : List (BitVec 8)) (e : Emu (Board τ)) : Prop where
  cpu : e.cpu = cpuInit
  bus : e.bus = Bus.init (cb6502Conns.map DeviceConn.conn) [] e.bus.devs
  ram : e.bus.devs.memory 0 = memoryInit RAM_SIZE
  rom : (e.bus.devs.eeprom 0).RomOf contents

theorem cb6502Init_switchedOn {romFile : Option (List (BitVec 8))} {transHandle : τ} {e : Emu (Board τ)}
    (h : cb6502Init romFile transHandle = some e) :
    ∃ contents, romFile = some contents ∧ contents ≠ [] ∧ e.SwitchedOn contents := by
  obtain ⟨bus, hrom, rfl⟩ := Option.map_eq_some_iff.mp h
  cases romFile with
  | none => cases hrom
  | some contents =>
    by_cases hbytes : contents.take ROM_SIZE = []
    · rw [cb6502RomInit, Option.bind_some] at hrom
      dsimp only at hrom
      rw [if_pos hbytes] at hrom
      cases hrom
    · rw [cb6502RomInit, Option.bind_some] at hrom
      dsimp only at hrom
      rw [if_neg hbytes] at hrom
      obtain rfl := Option.some.inj hrom
      refine ⟨contents, rfl, fun hnone => hbytes (by rw [hnone, List.take_nil]), ?_⟩
      refine ⟨rfl, rfl, rfl, ?_, ?_, ?_⟩
      · exact (loadImage_rest _ _ _).1
      · exact (loadImage_rest _ _ _).2
      · intro i hi
        exact loadImage_getElem _ hi

/-! ## The RAM and the ROM -/

section Rom
variable {contents : List (BitVec 8)} {rom : At28c256}

theorem At28c256.RomOf.read (h : rom.RomOf contents) {addr : BitVec 16} (hregion : regionOf addr = .rom) :
    at28c256ReadCb rom addr = (romByte contents addr, rom) := by
  have hin : (addr - ROM_BASE).toNat < at28ImageSize := by
    have hlow : ¬addr.toNat ≤ 0x7FFF := regionOf_ram.not.mp (by rw [hregion]; decide)
    have htop := addr.isLt
    rw [BitVec.toNat_sub_of_le (show ROM_BASE.toNat ≤ addr.toNat by show 0x8000 ≤ _; omega)]
    show addr.toNat - 0x8000 < 0x8000
    omega
  have hmask : ((addr - ROM_BASE) &&& IMAGE_MASK).toNat = (addr - ROM_BASE).toNat := by
    rw [BitVec.toNat_and]
    exact (Nat.and_two_pow_sub_one_eq_mod _ 15).trans (Nat.mod_eq_of_lt hin)
  have hbyte : ∀ i, i < at28ImageSize → rom.image.toArray.getD i 0 = contents.getD i at28ImageFill := by
    intro i hi
    rw [← h.image i hi]
    simp [Array.getD_eq_getD_getElem?, hi]
  rw [at28c256ReadCb, h.base, if_neg (Nat.not_le.mpr hin), at28c256Read, if_neg (fun hbusy => hbusy.1 h.idle),
    hmask, hbyte _ hin]
  rfl

theorem At28c256.RomOf.tick (h : rom.RomOf contents) (nanos : BitVec 32) : at28c256Tick rom nanos = rom := by
  rw [at28c256Tick, h.idle]
  show (tickRounds 1 rom nanos).1 = rom
  rw [tickRounds]
  split
  · rfl
  · rw [tickRound, h.idle]
    rfl

end Rom

/-- No transaction on record writes to the ROM. -/
def RomUnwritten (trace : List BusOp) : Prop := ∀ op ∈ trace, op.write = true → regionOf op.addr ≠ .rom

/-- What a read finds behind the transactions `pre`. -/
def ReadFinds (contents : List (BitVec 8)) (pre : List BusOp) (op : BusOp) : Prop :=
  match regionOf op.addr with
  | .ram => op.val = (lastWrite op.addr pre).getD 0
  | .hole => op.val = 0xFF
  | .rom => RomUnwritten pre → op.val = romByte contents op.addr
  | .acia | .via => True

/-- The record accounts for the RAM, for the ROM while it is not written, and for every read. -/
structure Bus.Computes (contents : List (BitVec 8)) (bus : Bus (Board τ)) : Prop extends bus.OnComputer where
  ram : (memoryInit RAM_SIZE).SameShape (bus.devs.memory 0)
  bytes : ∀ addr, regionOf addr = .ram →
    memBusReadCb (bus.devs.memory 0) addr = (lastWrite addr bus.trace).getD 0
  rom : RomUnwritten bus.trace → (bus.devs.eeprom 0).RomOf contents
  reads : ∀ pre op post, bus.trace = pre ++ op :: post → op.write = false → ReadFinds contents pre op

theorem RomUnwritten.before {trace : List BusOp} {op : BusOp} (h : RomUnwritten (trace ++ [op])) :
    RomUnwritten trace :=
  fun w hw => h w (List.mem_append_left _ hw)

section Kept
variable {contents : List (BitVec 8)} {b : Board τ}

theorem Board.readAt_memory (b : Board τ) (addr : BitVec 16) (sync : Bool) :
    (b.readAt addr sync).2.memory = b.memory := by
  unfold Board.readAt
  cases regionOf addr <;> rfl

theorem Board.readAt_eeprom (h : (b.eeprom 0).RomOf contents) (addr : BitVec 16) (sync : Bool) :
    (b.readAt addr sync).2.eeprom 0 = b.eeprom 0 := by
  unfold Board.readAt
  cases hregion : regionOf addr with
  | rom =>
    show Function.update b.eeprom 0 (at28c256ReadCb (b.eeprom 0) addr).2 0 = _
    rw [Function.update_self, h.read hregion]
  | _ => rfl

theorem Board.writeAt_memory (b : Board τ) (addr : BitVec 16) (value : BitVec 8) :
    (b.writeAt addr value).memory 0 =
      if regionOf addr = .ram then memBusWriteCb (b.memory 0) addr value else b.memory 0 := by
  unfold Board.writeAt
  cases regionOf addr with
  | ram =>
    show Function.update b.memory 0 (memBusWriteCb (b.memory 0) addr value) 0 = _
    rw [Function.update_self, if_pos rfl]
  | _ => exact (if_neg (by decide)).symm

theorem Board.writeAt_eeprom (b : Board τ) {addr : BitVec 16} (h : regionOf addr ≠ .rom) (value : BitVec 8) :
    (b.writeAt addr value).eeprom = b.eeprom := by
  unfold Board.writeAt
  cases hregion : regionOf addr with
  | rom => exact absurd hregion h
  | _ => rfl

/-- What a read finds is what it is to find. -/
theorem Bus.Computes.finds {bus : Bus (Board τ)} (h : bus.Computes contents) (addr : BitVec 16) (sync : Bool) :
    ReadFinds contents bus.trace ⟨addr, (bus.devs.readAt addr sync).1, false, sync⟩ := by
  unfold ReadFinds Board.readAt
  dsimp only
  cases hregion : regionOf addr with
  | ram => exact h.bytes addr hregion
  | hole => rfl
  | rom =>
    intro hunwritten
    show (at28c256ReadCb (bus.devs.eeprom 0) addr).1 = _
    rw [(h.rom hunwritten).read hregion]
  | acia | via => trivial

/-- The RAM keeps every write of its addresses. -/
theorem ram_keepsAt {m : Memory} (h : (memoryInit RAM_SIZE).SameShape m) {addr : BitVec 16}
    (hregion : regionOf addr = .ram) : m.keepsAt addr = true := by
  have hlow := regionOf_ram.mp hregion
  have hin : addr - 0 < RAM_SIZE := by
    rw [sub_zero, BitVec.lt_def]
    exact Nat.lt_succ_of_le hlow
  rw [h.keepsAt]
  exact decide_eq_true hin

theorem Bus.Computes.kept (contents : List (BitVec 8)) : Bus.Kept (Bus.Computes (τ := τ) contents) where
  read {bus} h addr sync := by
    rw [busRead_computer h.toOnComputer]
    refine ⟨⟨h.conns, h.tracers, h.silent⟩, ?_, ?_, ?_, ?_⟩
    · show (memoryInit RAM_SIZE).SameShape ((bus.devs.readAt addr sync).2.memory 0)
      rw [Board.readAt_memory]
      exact h.ram
    · intro addr' hregion
      show memBusReadCb ((bus.devs.readAt addr sync).2.memory 0) addr' = (lastWrite addr' (bus.trace ++ [_])).getD 0
      rw [Board.readAt_memory, lastWrite_concat, if_neg (fun hw => Bool.false_ne_true hw.1)]
      exact h.bytes addr' hregion
    · intro hunwritten
      have hrom := h.rom hunwritten.before
      show ((bus.devs.readAt addr sync).2.eeprom 0).RomOf contents
      rw [Board.readAt_eeprom hrom]
      exact hrom
    · intro pre op post hcut hread
      rcases concat_cut hcut with ⟨rfl, rfl⟩ | ⟨rest, hrest⟩
      · exact h.finds addr sync
      · exact h.reads pre op rest hrest hread
  write {bus} h addr value := by
    rw [busWrite_computer h.toOnComputer]
    refine ⟨⟨h.conns, h.tracers, h.silent⟩, ?_, ?_, ?_, ?_⟩
    · show (memoryInit RAM_SIZE).SameShape ((bus.devs.writeAt addr value).memory 0)
      rw [Board.writeAt_memory]
      split
      · exact h.ram.write addr value
      · exact h.ram
    · intro addr' hregion
      show memBusReadCb ((bus.devs.writeAt addr value).memory 0) addr' =
        (lastWrite addr' (bus.trace ++ [⟨addr, value, true, false⟩])).getD 0
      rw [Board.writeAt_memory, lastWrite_concat]
      by_cases hhere : addr = addr'
      · subst hhere
        rw [if_pos hregion, memBusReadCb_after, if_pos ⟨rfl, ram_keepsAt h.ram hregion⟩, if_pos ⟨rfl, rfl⟩]
        rfl
      · have hother : ¬((BusOp.mk addr value true false).write = true ∧ addr = addr') := fun hw => hhere hw.2
        rw [if_neg hother, ← h.bytes addr' hregion]
        split
        · rw [memBusReadCb_after, if_neg (fun hw => hhere hw.1.symm)]
        · rfl
    · intro hunwritten
      have hrom := h.rom hunwritten.before
      have haside : regionOf addr ≠ .rom :=
        hunwritten ⟨addr, value, true, false⟩ (List.mem_append_right _ (List.mem_singleton.mpr rfl)) rfl
      show ((bus.devs.writeAt addr value).eeprom 0).RomOf contents
      rw [Board.writeAt_eeprom _ haside]
      exact hrom
    · intro pre op post hcut hread
      rcases concat_cut hcut with ⟨-, rfl⟩ | ⟨rest, hrest⟩
      · exact Bool.noConfusion hread
      · exact h.reads pre op rest hrest hread

end Kept

/-! ## Runs -/

/-- The runs of the computer from `cb6502_init`: `n` ticks of the CPU, and between them what the other
clocks do: the time of the EEPROM, and any changes of the ACIA and the VIA, with their votes. -/
inductive ComputerRun (contents : List (BitVec 8)) (transHandle : τ) : Nat → Emu (Board τ) → Prop where
  | init {e : Emu (Board τ)} (h : cb6502Init (some contents) transHandle = some e) :
      ComputerRun contents transHandle 0 e
  | tick {n : Nat} {e e' : Emu (Board τ)} (fuel : Nat) (h : ComputerRun contents transHandle n e)
      (ht : cpuTick fuel e = some e') : ComputerRun contents transHandle (n + 1) e'
  | romTime {n : Nat} {e : Emu (Board τ)} (nanos : BitVec 32) (h : ComputerRun contents transHandle n e) :
      ComputerRun contents transHandle n
        { e with bus.devs := e.bus.devs.putEeprom 0 (at28c256Tick (e.bus.devs.eeprom 0) nanos) }
  | devices {n : Nat} {e : Emu (Board τ)} (acia : Acia τ) (via : Via) (votes : List SigVote)
      (h : ComputerRun contents transHandle n e) :
      ComputerRun contents transHandle n
        { e with bus := e.bus.afterCallback ((e.bus.devs.putAcia 0 acia).putVia 0 via, votes) }

section Runs
variable {contents : List (BitVec 8)} {transHandle : τ} {n : Nat} {e : Emu (Board τ)}

theorem Emu.SwitchedOn.computes (h : e.SwitchedOn contents) : e.bus.Computes contents := by
  have htrace : e.bus.trace = [] := by rw [h.bus]; rfl
  refine ⟨⟨by rw [h.bus]; rfl, by rw [h.bus]; rfl, by rw [h.bus]; rfl⟩, ?_, ?_, fun _ => h.rom, ?_⟩
  · rw [h.ram]
    exact ⟨rfl, rfl, rfl⟩
  · intro addr hregion
    have hin : addr - (memoryInit RAM_SIZE).base < (memoryInit RAM_SIZE).size :=
      of_decide_eq_true (ram_keepsAt (m := memoryInit RAM_SIZE) ⟨rfl, rfl, rfl⟩ hregion)
    rw [h.ram, htrace, memBusReadCb, dif_pos hin]
    exact Vector.getElem_replicate _
  · intro pre op post hcut
    rw [htrace] at hcut
    exact absurd (List.append_eq_nil_iff.mp hcut.symm).2 (List.cons_ne_nil op post)

theorem Emu.SwitchedOn.unwritten (h : e.SwitchedOn contents) : RomUnwritten e.bus.trace := by
  rw [h.bus]
  intro op hop
  exact absurd hop List.not_mem_nil

theorem ComputerRun.fresh_computes (h : ComputerRun contents transHandle n e) :
    e.cpu.ctl.fresh = true ∧ e.bus.Computes contents := by
  induction h with
  | init h =>
    obtain ⟨_, hcontents, -, hon⟩ := cb6502Init_switchedOn h
    obtain rfl := Option.some.inj hcontents
    exact ⟨by rw [hon.cpu]; rfl, hon.computes⟩
  | tick fuel _ ht ih =>
    obtain ⟨hfresh, hcomputes⟩ := ih
    rw [eq_tick_of_cpuTick hfresh ht]
    refine ⟨fresh_tick _ hfresh, (Bus.Computes.kept contents).tick hcomputes ?_⟩
    rw [Bus.ackNmi_of_not_pending _ _ (by rw [hcomputes.silent])]
    exact hcomputes
  | @romTime n e nanos _ ih =>
    obtain ⟨hfresh, hcomputes⟩ := ih
    refine ⟨hfresh, ⟨hcomputes.conns, hcomputes.tracers, hcomputes.silent⟩, hcomputes.ram, hcomputes.bytes, ?_,
      hcomputes.reads⟩
    intro hunwritten
    have hrom := hcomputes.rom hunwritten
    show (Function.update e.bus.devs.eeprom 0 (at28c256Tick (e.bus.devs.eeprom 0) nanos) 0).RomOf contents
    rw [Function.update_self, hrom.tick]
    exact hrom
  | devices acia via votes _ ih =>
    obtain ⟨hfresh, hcomputes⟩ := ih
    rw [afterCallback_silent hcomputes.silent]
    exact ⟨hfresh, ⟨hcomputes.conns, hcomputes.tracers, hcomputes.silent⟩, hcomputes.ram, hcomputes.bytes,
      hcomputes.rom, hcomputes.reads⟩

end Runs

/-! ## Programs that keep to the RAM and the ROM -/

/-- The bytes that such a program sees. -/
def computerBytes (contents : List (BitVec 8)) (ram : Memory) : Mem := fun addr =>
  match regionOf addr with
  | .ram => memBusReadCb ram addr
  | .rom => romByte contents addr
  | .acia | .via | .hole => 0xFF

/-- The transaction writes to the RAM only, and reaches neither the ACIA nor the VIA. -/
def Plain (op : BusOp) : Prop :=
  regionOf op.addr = .ram ∨ op.write = false ∧ (regionOf op.addr = .rom ∨ regionOf op.addr = .hole)

/-- The bus with a RAM of these bytes in place of the devices. -/
def Bus.plain (contents : List (BitVec 8)) (bus : Bus (Board τ)) : Bus Mem :=
  { bus with
    connlist := flatRam.conns
    tracelist := []
    devs := computerBytes contents (bus.devs.memory 0) }

section Plain
variable {contents : List (BitVec 8)} {bus : Bus (Board τ)}

theorem plain_onRam (bus : Bus (Board τ)) : (bus.plain contents).OnRam flatRam := ⟨rfl, rfl, trivial⟩

theorem Bus.Computes.plain_read (h : bus.Computes contents) (hrom : RomUnwritten bus.trace) (addr : BitVec 16)
    (sync : Bool) (hplain : Plain ⟨addr, (busReadPeekI bus addr false sync).1, false, sync⟩) :
    busReadPeekI (bus.plain contents) addr false sync =
      ((busReadPeekI bus addr false sync).1, (busReadPeekI bus addr false sync).2.plain contents) := by
  have hbyte : (bus.devs.readAt addr sync).1 = computerBytes contents (bus.devs.memory 0) addr := by
    unfold computerBytes Board.readAt
    rcases hplain with hregion | ⟨-, hregion | hregion⟩
    · have hram : regionOf addr = .ram := hregion
      rw [hram]
    · have hin : regionOf addr = .rom := hregion
      rw [hin]
      show (at28c256ReadCb (bus.devs.eeprom 0) addr).1 = _
      rw [(h.rom hrom).read hin]
    · have hhole : regionOf addr = .hole := hregion
      rw [hhole]
  have hsame : computerBytes contents ((bus.devs.readAt addr sync).2.memory 0) =
      computerBytes contents (bus.devs.memory 0) := by rw [Board.readAt_memory]
  rw [busRead_computer h.toOnComputer, flatRead (plain_onRam bus), hbyte]
  simp only [Bus.plain, Bus.commit, hsame]

theorem Bus.Computes.plain_write (h : bus.Computes contents) {addr : BitVec 16} (hregion : regionOf addr = .ram)
    (value : BitVec 8) :
    busWrite (bus.plain contents) addr value = (busWrite bus addr value).plain contents := by
  have hbytes : Function.update (computerBytes contents (bus.devs.memory 0)) addr value =
      computerBytes contents ((bus.devs.writeAt addr value).memory 0) := by
    funext addr'
    rw [Board.writeAt_memory, if_pos hregion, computerBytes]
    by_cases hhere : addr' = addr
    · subst hhere
      rw [Function.update_self, hregion]
      show value = memBusReadCb _ _
      rw [memBusReadCb_after, if_pos ⟨rfl, ram_keepsAt h.ram hregion⟩]
    · rw [Function.update_of_ne hhere, memBusReadCb_after, if_neg fun hw => hhere hw.1]
      rfl
  rw [busWrite_computer h.toOnComputer, flatWrite (plain_onRam bus)]
  show Bus.commit { bus.plain contents with devs := Function.update (computerBytes _ _) addr value } _ = _
  rw [hbytes]
  rfl

theorem RomUnwritten.concat {trace : List BusOp} (h : RomUnwritten trace) {op : BusOp} (hop : Plain op) :
    RomUnwritten (trace ++ [op]) := by
  intro w hw hwrite
  rcases List.mem_append.mp hw with hbefore | hhere
  · exact h w hbefore hwrite
  · obtain rfl := List.mem_singleton.mp hhere
    rcases hop with hram | ⟨hread, -⟩
    · rw [hram]
      decide
    · rw [hread] at hwrite
      cases hwrite

theorem computer_flattens (contents : List (BitVec 8)) :
    Flattens (fun bus : Bus (Board τ) => bus.Computes contents ∧ RomUnwritten bus.trace) Plain
      (Bus.plain contents) where
  sigvotes _ := rfl
  lastop _ := rfl
  value hok := hok
  ackNmi {bus} h cpu := by
    have hnone : ∀ {ω : Type} (bus : Bus ω), bus.sigvotes = {} → bus.ackNmi cpu = bus := fun bus hsilent =>
      Bus.ackNmi_of_not_pending _ _ (by rw [hsilent])
    rw [hnone bus h.1.silent, hnone (bus.plain contents) h.1.silent]
    exact ⟨h, rfl⟩
  read {bus} h addr sync hok := by
    refine ⟨⟨(Bus.Computes.kept contents).read h.1 addr sync, ?_⟩, h.1.plain_read h.2 addr sync hok⟩
    rw [(committed_read bus addr sync).trace]
    exact h.2.concat hok
  write {bus} h addr value hok := by
    have hregion : regionOf addr = .ram := hok.resolve_right fun hread => Bool.noConfusion hread.1
    refine ⟨⟨(Bus.Computes.kept contents).write h.1 addr value, ?_⟩, h.1.plain_write hregion value⟩
    rw [(committed_write bus addr value).trace]
    exact h.2.concat hok

variable {transHandle : τ} {n : Nat} {e : Emu (Board τ)}

/-- The emulator on a RAM of these bytes, after `n` ticks. -/
def plainEmu (contents : List (BitVec 8)) (n : Nat) : Emu Mem :=
  Nat.repeat Emu.tick n
    { bus := Bus.init flatRam.conns [] (computerBytes contents (memoryInit RAM_SIZE)), cpu := cpuInit }

theorem Emu.SwitchedOn.plain_start (h : e.SwitchedOn contents) :
    Emu.mk (e.bus.plain contents) e.cpu = plainEmu contents 0 := by
  have hbus : e.bus.plain contents =
      Bus.init flatRam.conns [] (computerBytes contents (e.bus.devs.memory 0)) := by
    rw [h.bus]
    rfl
  rw [hbus, h.cpu, h.ram]
  rfl

/-- The run on the RAM of the same bytes; the devices do not touch it. -/
theorem ComputerRun.plain (h : ComputerRun contents transHandle n e) (hplain : ∀ op ∈ e.bus.trace, Plain op) :
    RomUnwritten e.bus.trace ∧
      RamRun flatRam (computerBytes contents (memoryInit RAM_SIZE)) n ⟨e.bus.plain contents, e.cpu⟩ := by
  induction h with
  | @init e h =>
    obtain ⟨_, hcontents, -, hon⟩ := cb6502Init_switchedOn h
    obtain rfl := Option.some.inj hcontents
    refine ⟨hon.unwritten, ?_⟩
    rw [hon.plain_start]
    exact .init
  | @tick n e e' fuel h ht ih =>
    obtain ⟨hfresh, hcomputes⟩ := h.fresh_computes
    obtain rfl := eq_tick_of_cpuTick hfresh ht
    obtain ⟨hrom, hrun⟩ := ih fun op hop => hplain op ((prefix_tick e).subset hop)
    obtain ⟨⟨-, hromAfter⟩, htick⟩ := (computer_flattens contents).tick ⟨hcomputes, hrom⟩ (.inl hplain)
    refine ⟨hromAfter, ?_⟩
    rw [← htick]
    refine .tick 4 hrun ?_ (cpuTick_eq 0 _ hfresh)
    show e.bus.sigvotes.rdy = 0
    rw [hcomputes.silent]
  | romTime nanos h ih => exact ih hplain
  | devices acia via votes h ih =>
    rw [afterCallback_silent h.fresh_computes.2.silent] at hplain ⊢
    exact ih hplain

/-- The computer is switched on with any file that is not empty. -/
theorem cb6502Init_isSome (hne : contents ≠ []) (transHandle : τ) :
    ∃ e, cb6502Init (some contents) transHandle = some e := by
  have hbytes : ¬contents.take ROM_SIZE = [] := by
    rw [List.take_eq_nil_iff]
    rintro (hsize | hnone)
    · exact absurd hsize (by decide)
    · exact hne hnone
  refine Option.isSome_iff_exists.mp ?_
  rw [cb6502Init, Option.isSome_map, cb6502RomInit, Option.bind_some]
  dsimp only
  rw [if_neg hbytes]
  rfl

/-- The computer does what the RAM of the same bytes does, as long as that is plain. -/
theorem computerRun_plain (hne : contents ≠ []) (transHandle : τ) (n : Nat)
    (hplain : ∀ op ∈ (plainEmu contents n).bus.trace, Plain op) :
    ∃ e, ComputerRun contents transHandle n e ∧ RomUnwritten e.bus.trace ∧
      Emu.mk (e.bus.plain contents) e.cpu = plainEmu contents n := by
  induction n with
  | zero =>
    obtain ⟨e, he⟩ := cb6502Init_isSome hne transHandle
    obtain ⟨_, hcontents, -, hon⟩ := cb6502Init_switchedOn he
    obtain rfl := Option.some.inj hcontents
    exact ⟨e, .init he, hon.unwritten, hon.plain_start⟩
  | succ n ih =>
    have hnext : plainEmu contents (n + 1) = (plainEmu contents n).tick := rfl
    rw [hnext] at hplain ⊢
    obtain ⟨e, hrun, hrom, hsame⟩ := ih fun op hop => hplain op ((prefix_tick _).subset hop)
    obtain ⟨hfresh, hcomputes⟩ := hrun.fresh_computes
    rw [← hsame] at hplain ⊢
    obtain ⟨⟨-, hafter⟩, htick⟩ := (computer_flattens contents).tick ⟨hcomputes, hrom⟩ (.inr hplain)
    exact ⟨e.tick, .tick 4 hrun (cpuTick_eq 0 e hfresh), hafter, htick.symm⟩

end Plain

/-! ## Any run -/

section
variable {contents : List (BitVec 8)} {transHandle : τ} {n : Nat} {e : Emu (Board τ)}

/-- In every run of the CB6502 computer, whatever the ACIA and the VIA do in between, no signal is
raised; every read of the RAM finds the last write before it, or zero; every read between the VIA and
the ROM finds `$FF`; and every read of the ROM finds the byte of the file, `$FF` behind its end, as long
as nothing was written to the ROM before. -/
theorem computer_memory (h : ComputerRun contents transHandle n e) :
    e.bus.sigvotes = {} ∧ ∀ pre op post, e.bus.trace = pre ++ op :: post → op.write = false →
      ReadFinds contents pre op :=
  ⟨h.fresh_computes.2.silent, h.fresh_computes.2.reads⟩

/-- `INC $10` and `LDA $10` where the mapped part of the ROM begins, and the reset vector that leads there. -/
def incFile : List (BitVec 8) :=
  List.replicate 0x80 0xEA ++ [0xE6, 0x10, 0xA5, 0x10] ++ List.replicate 0x7F78 0xEA ++ [0x80, 0x80]

/-- The reset, and the two instructions. -/
def incTrace : List BusOp :=
  [⟨0x0000, 0, false, false⟩, ⟨0x0000, 0, false, false⟩, ⟨0x0100, 0, true, false⟩, ⟨0x01FF, 0, true, false⟩,
   ⟨0x01FE, 0x20, true, false⟩, ⟨0xFFFC, 0x80, false, false⟩, ⟨0xFFFD, 0x80, false, false⟩,
   ⟨0x8080, 0xE6, false, true⟩, ⟨0x8081, 0x10, false, false⟩, ⟨0x0010, 0, false, false⟩,
   ⟨0x0010, 0, false, false⟩, ⟨0x0010, 1, true, false⟩, ⟨0x8082, 0xA5, false, true⟩,
   ⟨0x8083, 0x10, false, false⟩, ⟨0x0010, 1, false, false⟩]

theorem incFile_plain : (plainEmu incFile 15).bus.trace = incTrace ∧
    (plainEmu incFile 15).cpu.opState = .opcode ∧ (plainEmu incFile 15).cpu.regs.a = 1 := by decide +kernel

theorem incTrace_plain : ∀ op ∈ incTrace, Plain op := by
  have hplain : ∀ op ∈ incTrace, regionOf op.addr = .ram ∨
      op.write = false ∧ (regionOf op.addr = .rom ∨ regionOf op.addr = .hole) := by decide
  exact hplain

theorem incFile_run : ∃ e : Emu (Board Unit), ComputerRun incFile () 15 e ∧ e.bus.trace = incTrace ∧
    e.cpu.opState = .opcode ∧ e.cpu.regs.a = 1 := by
  obtain ⟨htrace, hstate, ha⟩ := incFile_plain
  have hne : incFile ≠ [] := List.append_ne_nil_of_right_ne_nil _ (by decide)
  have hplain : ∀ op ∈ (plainEmu incFile 15).bus.trace, Plain op := by
    rw [htrace]
    exact incTrace_plain
  obtain ⟨e, hrun, -, hsame⟩ := computerRun_plain hne () 15 hplain
  rw [← hsame] at htrace hstate ha
  exact ⟨e, hrun, htrace, hstate, ha⟩

/-- `LDA` finds in the RAM what `INC` wrote. -/
theorem computer_memory_of_inc :
    ∃ (e : Emu (Board Unit)) (pre : List BusOp) (op : BusOp), ComputerRun incFile () 15 e ∧
      e.bus.trace = pre ++ [op] ∧ op.write = false ∧ regionOf op.addr = .ram ∧
        lastWrite op.addr pre = some 1 ∧ op.val = 1 := by
  obtain ⟨e, hrun, htrace, -⟩ := incFile_run
  have hfinds : ReadFinds incFile incTrace.dropLast ⟨0x0010, 1, false, false⟩ :=
    (computer_memory hrun).2 incTrace.dropLast ⟨0x0010, 1, false, false⟩ [] htrace rfl
  have hlast : lastWrite 0x0010 incTrace.dropLast = some 1 := by decide
  have hval : (BusOp.mk 0x0010 1 false false).val = (lastWrite 0x0010 incTrace.dropLast).getD 0 := hfinds
  rw [hlast] at hval
  exact ⟨e, incTrace.dropLast, ⟨0x0010, 1, false, false⟩, hrun, htrace, rfl, by decide, hlast, hval⟩

/-- A program that keeps to the RAM and the ROM runs on the instruction set: on the computer from
`cb6502_init`, whatever the ACIA and the VIA do beside it, the state at a boundary is that of a run of
the machine on the file and a RAM of zeros, and the ticks are its cycles behind the seven of the reset. -/
theorem computer_runs_machine (h : ComputerRun contents transHandle n e)
    (hplain : ∀ op ∈ e.bus.trace, Plain op) (hs : e.cpu.opState = .opcode) :
    ∃ k, MachineRun (resetMachine (computerBytes contents (memoryInit RAM_SIZE))) k
        ⟨⟨e.cpu.regs, computerBytes contents (e.bus.devs.memory 0)⟩, e.cpu.pageBoundary⟩ ∧
      n = resetCycles + k :=
  (h.plain hplain).2.machineRun trivial hs

theorem computer_runs_machine_of_inc :
    ∃ (e : Emu (Board Unit)) (k : Nat), MachineRun (resetMachine (computerBytes incFile (memoryInit RAM_SIZE))) k
        ⟨⟨e.cpu.regs, computerBytes incFile (e.bus.devs.memory 0)⟩, e.cpu.pageBoundary⟩ ∧
      e.cpu.regs.a = 1 ∧ k = 8 := by
  obtain ⟨e, hrun, htrace, hstate, ha⟩ := incFile_run
  have hplain : ∀ op ∈ e.bus.trace, Plain op := by
    rw [htrace]
    exact incTrace_plain
  obtain ⟨k, hmachine, hn⟩ := computer_runs_machine hrun hplain hstate
  have hreset : resetCycles = 7 := rfl
  exact ⟨e, k, hmachine, ha, by omega⟩

end

end Cb6502
