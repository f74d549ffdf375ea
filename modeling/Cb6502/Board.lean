import Cb6502.Memory
import Cb6502.Via
import Cb6502.Acia
import Cb6502.At28c256
import Mathlib.Logic.Function.Basic

/- Boards of memories, VIAs, ACIAs and EEPROMs, and what each of them puts on the bus. -/
namespace Cb6502

/-- The devices of an emulator, of each kind by number. -/
structure Board (τ : Type) where
  memory : Nat → Memory
  via : Nat → Via
  acia : Nat → Acia τ
  eeprom : Nat → At28c256

/-- A device of a board. -/
inductive Device where
  | memory (id : Nat)
  | via (id : Nat)
  | acia (id : Nat)
  | eeprom (id : Nat)
  deriving DecidableEq

variable {τ : Type}

namespace Board

def putMemory (b : Board τ) (id : Nat) (m : Memory) : Board τ :=
  { b with memory := Function.update b.memory id m }

def putVia (b : Board τ) (id : Nat) (v : Via) : Board τ :=
  { b with via := Function.update b.via id v }

def putAcia (b : Board τ) (id : Nat) (a : Acia τ) : Board τ :=
  { b with acia := Function.update b.acia id a }

def putEeprom (b : Board τ) (id : Nat) (e : At28c256) : Board τ :=
  { b with eeprom := Function.update b.eeprom id e }

end Board

/-! ## The handler tables -/

/-- `mem_bus_handlers` for the memory `id`: reads change nothing, and serve as peeks. -/
def boardMemHandlers (id : Nat) : BusHandlers (Board τ) where
  write := some fun addr value _ b => (b.putMemory id (memBusWriteCb (b.memory id) addr value), [])
  read := some fun addr _ b => (memBusReadCb (b.memory id) addr, b, [])
  peek := some fun addr _ b => (memBusReadCb (b.memory id) addr, b, [])

/-- `via_bus_read_cb`, on the board. -/
def viaReadOnBoard (id : Nat) : BusReadCb (Board τ) := fun addr _ b =>
  let (val, s) := viaBusReadCb (b.via id) addr
  (val, b.putVia id s.via, s.votes)

/-- `via_bus_handlers` for the VIA `id`: the peek callback is the read callback. -/
def viaBusHandlers (id : Nat) : BusHandlers (Board τ) where
  write := some fun addr val _ b =>
    let s := viaBusWriteCb (b.via id) addr val
    (b.putVia id s.via, s.votes)
  read := some (viaReadOnBoard id)
  peek := some (viaReadOnBoard id)

/-- `acia_bus_read_cb`, on the board. -/
def aciaReadOnBoard (id : Nat) : BusReadCb (Board τ) := fun addr _ b =>
  let (val, a, votes) := aciaBusReadCb (b.acia id) addr
  (val, b.putAcia id a, votes)

/-- `acia_bus_handlers` for the ACIA `id`: the peek callback is the read callback. -/
def aciaBusHandlers (id : Nat) : BusHandlers (Board τ) where
  write := some fun addr val _ b => (b.putAcia id (aciaBusWriteCb (b.acia id) addr val), [])
  read := some (aciaReadOnBoard id)
  peek := some (aciaReadOnBoard id)

/-- `at28c256_read_cb`, on the board. -/
def eepromReadOnBoard (id : Nat) : BusReadCb (Board τ) := fun addr _ b =>
  let (val, e) := at28c256ReadCb (b.eeprom id) addr
  (val, b.putEeprom id e, [])

/-- `at28c256_bus_handlers` for the EEPROM `id`: the peek callback is the read callback. -/
def at28c256BusHandlers (id : Nat) : BusHandlers (Board τ) where
  write := some fun addr val _ b => (b.putEeprom id (at28c256WriteCb (b.eeprom id) addr val), [])
  read := some (eepromReadOnBoard id)
  peek := some (eepromReadOnBoard id)

/-- The table a device registers. -/
def Device.handlers : Device → BusHandlers (Board τ)
  | .memory id => boardMemHandlers id
  | .via id => viaBusHandlers id
  | .acia id => aciaBusHandlers id
  | .eeprom id => at28c256BusHandlers id

/-- A registration of a device. -/
structure DeviceConn (τ : Type) where
  handle : Nat
  params : BusDecodeParams (Board τ)
  device : Device

/-- The connection it makes. -/
def DeviceConn.conn (c : DeviceConn τ) : BusConn (Board τ) :=
  { handle := c.handle, params := c.params, handlers := c.device.handlers }

/-! ## Slots of a board -/

/-- Two boards have the same device in a slot. -/
def Board.AgreeAt (b b' : Board τ) : Device → Prop
  | .memory id => b.memory id = b'.memory id
  | .via id => b.via id = b'.via id
  | .acia id => b.acia id = b'.acia id
  | .eeprom id => b.eeprom id = b'.eeprom id

theorem Board.ext_slots {b b' : Board τ} (h : ∀ d, b.AgreeAt b' d) : b = b' := by
  obtain ⟨memory, via, acia, eeprom⟩ := b
  obtain ⟨memory', via', acia', eeprom'⟩ := b'
  have hmemory : memory = memory' := funext fun id => h (.memory id)
  have hvia : via = via' := funext fun id => h (.via id)
  have hacia : acia = acia' := funext fun id => h (.acia id)
  have heeprom : eeprom = eeprom' := funext fun id => h (.eeprom id)
  rw [hmemory, hvia, hacia, heeprom]

theorem Board.AgreeAt.refl (b : Board τ) (d : Device) : b.AgreeAt b d := by
  cases d <;> exact rfl

theorem Board.AgreeAt.symm {b b' : Board τ} {d : Device} (h : b.AgreeAt b' d) :
    b'.AgreeAt b d := by
  cases d <;> exact Eq.symm h

theorem Board.AgreeAt.trans {b b' b'' : Board τ} {d : Device} (h : b.AgreeAt b' d)
    (h' : b'.AgreeAt b'' d) : b.AgreeAt b'' d := by
  cases d <;> exact Eq.trans h h'

end Cb6502
