import Msp430.Machine
import Msp430.FlagHandler
import Msp430.Fields
import Msp430.FormatI
import Msp430.FormatII
import Msp430.FormatIII
import Msp430.Decoder
import Msp430.Peripherals
import Msp430.Run
import Msp430.Startup
import Msp430.TwoOperand
import Msp430.OperandsII
import Msp430.Stack
import Msp430.ReadOnly
import Msp430.Compare
import Msp430.Symbolic
import Msp430.Shifts
import Msp430.StatusWrites
import Msp430.MultiWord
import Msp430.OperandsI
import Msp430.Arith.Descending
import Msp430.Calls
import Msp430.Lifo
import Msp430.Alike
import Msp430.Observation
import Msp430.Transparency
import Msp430.Arith.ShiftRight
import Msp430.CString
import Msp430.Console
import Msp430.Lengths
import Msp430.MultiShift
import Msp430.Breakpoints
import Msp430.EmuServer
import Msp430.Encodings
import Msp430.SpinLock
import Msp430.Accesses
import Msp430.CommandAccesses
import Msp430.MemoryBounds
import Msp430.StartOrder
import Msp430.AddFlags
import Msp430.Clocks
import Msp430.Divisors
import Msp430.EdgeDetector
import Msp430.Jumps
import Msp430.LogicalFlags
import Msp430.MessageBounds
import Msp430.Pins
import Msp430.Reset
import Msp430.ShiftEffects
import Msp430.SubCmp
import Msp430.Uart
import Msp430.ClockUpdate
import Msp430.Polling
import Msp430.PortMirror
import Msp430.RegisterLookups
import Msp430.TimerClear
import Msp430.WaitCycles
import Msp430.Addresses
import Msp430.Interleaving
import Msp430.OperandText
import Msp430.SerialDecoding
import Msp430.SetDump
import Msp430.Listing
import Msp430.BreakpointTable
import Msp430.Overflow
import Msp430.Board
import Msp430.Client
import Msp430.Firmware
import Msp430.RegisterDisplay
import Msp430.Decimals
import Msp430.Emission
import Msp430.EndToEnd
import Msp430.Launcher
import Msp430.QueueDrain
