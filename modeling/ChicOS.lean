import ChicOS.Lib.Run
import ChicOS.Lib.LockOrder
import ChicOS.Lib.Monitor
import ChicOS.Lib.Bytes
import ChicOS.Lib.Packing
import ChicOS.Lib.Ring
import ChicOS.Memory.Mem
import ChicOS.Memory.Safety
import ChicOS.App
import ChicOS.Process.Table
import ChicOS.Semaphore.Semaphore
import ChicOS.Semaphore.Lock
import ChicOS.Semaphore.MutualExclusion
import ChicOS.Fs.Synt
import ChicOS.Process.Process
import ChicOS.Scheduler.Scheduler
import ChicOS.Io.Disk
import ChicOS.Io.Printer
import ChicOS.Cpu.Cpu
import ChicOS.Machine
import ChicOS.Process.Loading
import ChicOS.Process.TableInvariant
import ChicOS.Cpu.OwnProgram
import ChicOS.Io.Queue
import ChicOS.Io.Protocol
import ChicOS.Memory.Leases
import ChicOS.Process.Life
import ChicOS.Process.Program
import ChicOS.Process.Growth
import ChicOS.Lib.Cells
import ChicOS.Lib.Chain
import ChicOS.Memory.Ownership
import ChicOS.Custody.Slots
import ChicOS.Custody.Parked
import ChicOS.Custody.Custody
import ChicOS.Custody.Calls
import ChicOS.Custody.Devices
import ChicOS.Custody.Execution
import ChicOS.Custody.NoDoubleFree
import ChicOS.Io.Sstf
import ChicOS.Lib.Interleave
import ChicOS.Io.QueueRace
import ChicOS.Process.UnblockRace
import ChicOS.Scheduler.Choice
import ChicOS.Scheduler.Fairness
import ChicOS.Scheduler.Selection
import ChicOS.Lib.Sweep
import ChicOS.Lib.Clock
import ChicOS.Memory.SecondChance
import ChicOS.Memory.FirstFit
import ChicOS.Scheduler.Reaping
import ChicOS.Semaphore.Counter
import ChicOS.Lib.Fifos
import ChicOS.Semaphore.Wakeup
import ChicOS.Io.PrintFifo
import ChicOS.Cpu.Marshalling
import ChicOS.Process.Decode
import ChicOS.Lib.Trim
import ChicOS.User.User
import ChicOS.User.Login
import ChicOS.Memory.Refusal
import ChicOS.Memory.MemoryLock
import ChicOS.Process.CodeRoom
import ChicOS.Process.Malformed
import ChicOS.Process.Lines
import ChicOS.Fs.Header
import ChicOS.Scheduler.SingleCpu
import ChicOS.Lib.Countdown
import ChicOS.Process.Holds
import ChicOS.Cpu.Slice
import ChicOS.Cpu.Others
import ChicOS.Cpu.CpuTime
import ChicOS.Memory.Replacement
import ChicOS.Memory.Fragmentation
import ChicOS.Boot
import ChicOS.Sync.Programs
import ChicOS.Sync.Obeys
import ChicOS.Memory.Release
import ChicOS.Memory.Realloc
import ChicOS.Process.FailedCreation
import ChicOS.Process.Lookup
import ChicOS.Lib.Registry
import ChicOS.Semaphore.Declared
import ChicOS.Process.Naming
import ChicOS.Lib.Buffer
import ChicOS.User.TrimWhitespace
import ChicOS.Sync.Machine
import ChicOS.Memory.Concurrent
import ChicOS.Cpu.Interpreter
import ChicOS.Process.Text
import ChicOS.Cpu.Written
import ChicOS.Lib.Rounds
import ChicOS.User.LoginFlow
import ChicOS.Io.SortRace
import ChicOS.Io.Progress
import ChicOS.Io.Timetable
import ChicOS.Custody.Deadlock
