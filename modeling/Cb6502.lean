import Cb6502.Lib.Dialogue
import Cb6502.Lib.Erasure
import Cb6502.Lib.PeriodicTimer
import Cb6502.Lib.Mailbox
import Cb6502.Lib.SlotTable
import Cb6502.Bus
import Cb6502.Opcodes
import Cb6502.Cpu
import Cb6502.Instructions
import Cb6502.CpuTick
import Cb6502.Control
import Cb6502.Cycle
import Cb6502.Runs
import Cb6502.Nmi
import Cb6502.StoreBus
import Cb6502.Memory
import Cb6502.Stall
import Cb6502.Ram
import Cb6502.Interrupt
import Cb6502.Agreement
import Cb6502.History
import Cb6502.Clock
import Cb6502.HalfTick
import Cb6502.ClockRuns
import Cb6502.Via
import Cb6502.Acia
import Cb6502.At28c256
import Cb6502.Voters
import Cb6502.Board
import Cb6502.Quiet
import Cb6502.Peek
import Cb6502.Frame
import Cb6502.StatusBits
import Cb6502.Operands
import Cb6502.Arbitration
import Cb6502.AciaWindow
import Cb6502.ViaIrq
import Cb6502.ViaNotify
import Cb6502.AciaReceive
import Cb6502.Debugger
import Cb6502.Breakpoints
import Cb6502.Sdcard
import Cb6502.Framing
import Cb6502.Lib.TimedWord
import Cb6502.Eeprom
import Cb6502.Protection
import Cb6502.Lib.Ring
import Cb6502.AciaUnix
import Cb6502.Direction
import Cb6502.Lib.ReloadCounter
import Cb6502.ViaTimer
import Cb6502.Execution
import Cb6502.BitInstructions
import Cb6502.Decimal
import Cb6502.Lib.PackedBcd
import Cb6502.Stack
import Cb6502.Brk
import Cb6502.Branches
import Cb6502.Lib.AddWithCarry
import Cb6502.Flags
import Cb6502.Arithmetic
import Cb6502.StatusFrame
import Cb6502.Transactions
import Cb6502.Lib.Phase
import Cb6502.Stepping
import Cb6502.SteppingRam
import Cb6502.StepOver
import Cb6502.Lib.Nesting
import Cb6502.StepOut
import Cb6502.ReadModifyWrite
import Cb6502.Commands
import Cb6502.Lib.Printf
import Cb6502.Disassemble
import Cb6502.Prompt
import Cb6502.PageWrite
import Cb6502.Lib.Timeout
import Cb6502.EepromTime
import Cb6502.Lib.Steps
import Cb6502.Polling
import Cb6502.Lib.Blocks
import Cb6502.MemoryLoad
import Cb6502.AciaTransmit
import Cb6502.Registration
import Cb6502.IrqLine
import Cb6502.ViaPorts
import Cb6502.ManualC2
import Cb6502.Lib.InputPort
import Cb6502.Latching
import Cb6502.ViaWindow
import Cb6502.ClockOrder
import Cb6502.Lib.Emission
import Cb6502.SdRead
import Cb6502.Lib.Serial
import Cb6502.BitbangSpi
import Cb6502.Lib.BucketTable
import Cb6502.Labels
import Cb6502.AciaSend
import Cb6502.ClockList
import Cb6502.EepromSafety
import Cb6502.Lib.LinkedRing
import Cb6502.IntrusiveList
import Cb6502.Isa
import Cb6502.IsaSteps
import Cb6502.IsaTiming
import Cb6502.IsaRuns
import Cb6502.Lib.Duplex
import Cb6502.SpiBoard
import Cb6502.MemoryMap
import Cb6502.SerialLine
import Cb6502.Lib.FourPhase
import Cb6502.ViaHandshake
import Cb6502.Lib.CString
import Cb6502.Lib.Numeral
import Cb6502.DbgCli
import Cb6502.EepromSession
import Cb6502.SdSession
import Cb6502.LabelFile
import Cb6502.DebugSession
import Cb6502.ViaReadHandshake
import Cb6502.Computer
import Cb6502.CpuStep
import Cb6502.OsSignal
