import FirFilter.Hardware.Backpressure
import FirFilter.Hardware.Component
import FirFilter.Hardware.Counters
import FirFilter.Hardware.Entity
import FirFilter.Hardware.Frame
import FirFilter.Hardware.Frames
import FirFilter.Hardware.Intake
import FirFilter.Hardware.JtagUart
import FirFilter.Hardware.Liveness
import FirFilter.Hardware.PerformanceCounter
import FirFilter.Hardware.Polling
import FirFilter.Hardware.Ranges
import FirFilter.Hardware.RegisterFile
import FirFilter.Hardware.Registers
import FirFilter.Hardware.RowLength
import FirFilter.Hardware.StateMachine
import FirFilter.Hardware.Stream
import FirFilter.Hardware.Timing
import FirFilter.Lib.BitSlice
import FirFilter.Lib.BusMaster
import FirFilter.Lib.Clocked
import FirFilter.Lib.DelayLine
import FirFilter.Lib.Fifo
import FirFilter.Lib.FixedPoint
import FirFilter.Lib.ForLoop
import FirFilter.Lib.Gain
import FirFilter.Lib.Imfilter
import FirFilter.Lib.Ledger
import FirFilter.Lib.LittleEndian
import FirFilter.Lib.Matlab
import FirFilter.Lib.Ownership
import FirFilter.Lib.RingBuffer
import FirFilter.Lib.RowMajor
import FirFilter.Lib.Tally
import FirFilter.Lib.WordMemory
import FirFilter.Software.Allocation
import FirFilter.Software.Arithmetic
import FirFilter.Software.Bounds
import FirFilter.Software.Console
import FirFilter.Software.ConsoleCalls
import FirFilter.Software.ConsoleInterrupt
import FirFilter.Software.ConsoleProgress
import FirFilter.Software.ConsoleStreams
import FirFilter.Software.Exactness
import FirFilter.Software.Filter
import FirFilter.Software.Formats
import FirFilter.Software.Load
import FirFilter.Software.Main
import FirFilter.Software.Measurement
import FirFilter.Software.Memory
import FirFilter.Software.Padding
import FirFilter.Software.Reference
import FirFilter.Software.Replication
import FirFilter.Software.RoundTrip
import FirFilter.Software.Scripts
import FirFilter.Software.ShortFiles
import FirFilter.Software.Symmetry
import FirFilter.Software.Trace
import FirFilter.System.Agreement
import FirFilter.System.Jobs
import FirFilter.System.MaskGain
import FirFilter.System.Narrowing
import FirFilter.System.Session
