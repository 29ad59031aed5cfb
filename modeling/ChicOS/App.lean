-- SUMMARY: The state of the simulator: the App record of chicos.h and the records of its modules.
import ChicOS.Memory.Mem
import ChicOS.Lib.File

/-!
# The application state

The records of the headers, module by module, and `App`, which holds them all.
Fixed-width fields keep their width.

Objects that the kernel keeps in `c_alloc`'ed blocks (instructions, file
buffers, file headers, print jobs) live in a `Heap` that maps the address of an
object to its value, one map for each C type, with arbitrary initial contents:
what a fresh block holds is whatever was there before. The semaphore list is
allocated once and never released, and is kept by value.

`trace` is a history variable. It records what the simulator did, oldest first,
and no function reads it.
-/

namespace ChicOS

def MAX_PCB : Nat := 11
def MAX_SIZE_SEMAPHORES : Nat := 32
def DEFAULT_WAITERS_NUM : Nat := 64
def MAX_ADDRESS_SIZE : Nat := 4096
def INSTRUCTION_SIZE : Nat := 16
def TIME_SLICE : UInt32 := 1000
def MAX_TIME_MORE_PAGES : UInt32 := 1000
def DISK_SLICE : UInt32 := 4000
def TOTAL_TRACKS : UInt32 := 20000

instance : NeZero MAX_PCB := ⟨by decide⟩

instance : NeZero MAX_SIZE_SEMAPHORES := ⟨by decide⟩

def sizeofPointer : UInt32 := 8
def sizeofPage : UInt32 := 24
def sizeofInstruction : UInt32 := 16
def sizeofSyntHeader : UInt32 := 400
def sizeofSyntBuffer : UInt32 := 4120
def sizeofSemaphore : UInt32 := 24
def sizeofSemaphoreList : UInt32 := 816
def sizeofPrintList : UInt32 := 16

/-! ## Files -/

/-- `synt_header`. Its two strings are kept without their terminators. -/
structure SyntHeader where
  name : List UInt8
  priority : Int
  rwCount : Int
  segFlag : Int
  segSize : Int
  semaphores : List UInt8
  deriving DecidableEq, Repr

structure SyntBuffer where
  fp : Option File
  h : Addr
  address : List UInt8
  deriving DecidableEq, Repr

/-! ## Processes -/

inductive PStatus where
  | new | inactive | running | ready | blocked | kill | waiting
  deriving DecidableEq, Repr

structure Instruction where
  e : Events
  remainingTime : UInt32
  fpPos : UInt32
  semName : UInt8
  deriving DecidableEq, Repr

structure CodeSection where
  it : Addr
  pc : UInt32
  size : UInt32
  last : UInt32
  deriving DecidableEq, Repr

structure Process where
  name : List UInt8
  pid : UInt32
  status : PStatus
  timeToRun : UInt32
  hUsed : UInt8
  addressSpace : Addr
  fb : Addr
  c : CodeSection
  deriving DecidableEq, Repr

/-- A slot of static storage: every byte zero, which makes its status
`RUNNING` and its pid `0`. -/
def Process.zero : Process where
  name := []
  pid := 0
  status := .running
  timeToRun := 0
  hUsed := 0
  addressSpace := 0
  fb := 0
  c := { it := 0, pc := 0, size := 0, last := 0 }

structure PCB where
  processStack : Vector Process MAX_PCB
  curr : UInt8
  last : UInt8
  lastPid : UInt16
  pcbS : Nat

/-! ## Semaphores -/

structure Semaphore where
  id : UInt16
  name : UInt8
  /-- The words at `waiters`, if that is not `NULL`. -/
  waiters : Option (Nat → UInt32)
  tail : UInt8
  head : UInt8
  value : Int8

/-- `app.semaphores`. The list and the rings are blocks of the pool: their values are those here
as long as no block that is live is handed out again. `Pooled` reads them from the bytes. -/
structure SemaphoreList where
  l : Vector Semaphore MAX_SIZE_SEMAPHORES
  max : UInt64
  last : Nat
  mutex : Nat

/-! ## Devices -/

structure IoReq where
  id : UInt32
  timeToRun : UInt32
  track : UInt32
  deriving DecidableEq, Repr

structure QueueReq where
  queue : Vector IoReq MAX_PCB
  len : UInt8
  deriving DecidableEq, Repr

structure Disk where
  qr : QueueReq
  diskS : Nat
  currentTrack : UInt32
  deriving DecidableEq, Repr

structure PrintList where
  time : UInt32
  pid : UInt32
  prox : Addr
  deriving DecidableEq, Repr

structure Printer where
  printerS : Nat
  head : Addr
  tail : Addr
  printerBuffer : Addr
  active : Bool
  deriving DecidableEq, Repr

structure Cpu where
  quantumTime : UInt64
  cpuS : Nat
  deriving DecidableEq, Repr

/-! ## The whole -/

/-- The kernel's objects in the pool, by address. -/
structure Heap where
  instructions : Addr → Instruction
  syntBuffers : Addr → SyntBuffer
  syntHeaders : Addr → SyntHeader
  printLists : Addr → PrintList

/-- A step of the simulator, as the history records it. -/
inductive Event where
  /-- `p_create` put a process in the table. -/
  | create (pid : UInt32)
  /-- `scheduler_kill_process` took a process out of the table. -/
  | reap (pid : UInt32)
  /-- `exec_process` dispatched the instruction at `pc` of a program of `last`. -/
  | dispatch (pid pc last : UInt32)
  /-- `exec_process` made a system call for a process. -/
  | sysCall (pid : UInt32) (e : Events)
  /-- An address space was passed to `c_dealloc`; the flag tells whether it
  designated a live block. -/
  | release (mem : Addr) (live : Bool)
  deriving DecidableEq, Repr

/-- The part of the state that loading a program touches. -/
structure Store where
  mem : Memory
  heap : Heap
  semaphores : SemaphoreList

structure App extends Store where
  pcb : PCB
  cpu : Cpu
  disk : Disk
  printer : Printer
  loopStop : Bool
  debug : Bool
  /-- The files of the host, by path. -/
  fs : List UInt8 → Option (List UInt8)
  trace : List Event

/-! ## Static storage -/

/-- The process table before `init_pcb`. -/
def PCB.zero : PCB where
  processStack := Vector.replicate MAX_PCB Process.zero
  curr := 0
  last := 0
  lastPid := 0
  pcbS := 0

/-- The objects of a pool of zero bytes. -/
def Heap.zero : Heap where
  instructions _ := { e := .processInterrupt, remainingTime := 0, fpPos := 0, semName := 0 }
  syntBuffers _ := { fp := none, h := 0, address := [] }
  syntHeaders _ :=
    { name := [], priority := 0, rwCount := 0, segFlag := 0, segSize := 0, semaphores := [] }
  printLists _ := { time := 0, pid := 0, prox := 0 }

def IoReq.zero : IoReq := { id := 0, timeToRun := 0, track := 0 }

/-- The global `app` before `main` runs: every byte zero. Its pointers to the
memory and to the semaphore list are null, and stand here for empty ones; what
the pool will hold is `heap`, and `fs` is what the host's file system has. -/
def App.zero (heap : Heap) (fs : List UInt8 → Option (List UInt8)) : App where
  mem :=
    { memoryS := 0
      pt := { len := 0, freePageNum := 0, freeStack := [], pages := [] }
      pool := fun _ => 0
      size := 0
      hand := 0
      calls := [] }
  heap := heap
  semaphores :=
    { l := Vector.replicate MAX_SIZE_SEMAPHORES
        { id := 0, name := 0, waiters := none, tail := 0, head := 0, value := 0 }
      max := 0
      last := 0
      mutex := 0 }
  pcb := PCB.zero
  cpu := { quantumTime := 0, cpuS := 0 }
  disk :=
    { qr := { queue := Vector.replicate MAX_PCB IoReq.zero, len := 0 }
      diskS := 0
      currentTrack := 0 }
  printer := { printerS := 0, head := 0, tail := 0, printerBuffer := 0, active := false }
  loopStop := false
  debug := false
  fs := fs
  trace := []

/-! ## History -/

/-- Record an event. -/
def App.note (app : App) (e : Event) : App := { app with trace := app.trace ++ [e] }

/-! ## The pool, seen from the kernel -/

def App.alloc (app : App) (bytes : UInt32) : Except Stop (Addr × App) := do
  let (p, mem) ← cAlloc app.mem bytes
  .ok (p, { app with mem := mem })

def App.dealloc (app : App) (p : Addr) : Except Stop App := do
  let mem ← cDealloc app.mem p
  .ok { app with mem := mem }

/-- Give an address space back. -/
def App.release (app : App) (space : Addr) : Except Stop App :=
  (app.note (.release space (decide (app.mem.IsLive space)))).dealloc space

/-- The address of an entry of an array of instructions. -/
def entryAddr (it : Addr) (i : Nat) : Addr := it + INSTRUCTION_SIZE * i

@[simp] theorem entryAddr_zero (it : Addr) : entryAddr it 0 = it := rfl

/-- `it[i]`, read. -/
def App.readEntry (app : App) (it : Addr) (i : Nat) : Except Stop Instruction :=
  if it = 0 then .error .nullDeref else .ok (app.heap.instructions (entryAddr it i))

/-- `it[i]`, written. -/
def App.writeEntry (app : App) (it : Addr) (i : Nat) (c : Instruction) : Except Stop App :=
  if it = 0 then .error .nullDeref
  else
    .ok { app with
      heap.instructions := Function.update app.heap.instructions (entryAddr it i) c }

/-! ## What returns from them -/

theorem alloc_eq_ok {app app' : App} {bytes : UInt32} {p : Addr}
    (h : app.alloc bytes = .ok (p, app')) :
    ∃ mem, cAlloc app.mem bytes = .ok (p, mem) ∧ app' = { app with mem := mem } := by
  obtain ⟨⟨q, mem⟩, halloc, h⟩ := Except.bind_eq_ok.mp h
  cases h
  exact ⟨mem, halloc, rfl⟩

theorem dealloc_eq_ok {app app' : App} {p : Addr} (h : app.dealloc p = .ok app') :
    ∃ mem, cDealloc app.mem p = .ok mem ∧ app' = { app with mem := mem } := by
  obtain ⟨mem, hfree, h⟩ := Except.bind_eq_ok.mp h
  cases h
  exact ⟨mem, hfree, rfl⟩

/-- A release that returns is in the history. -/
theorem release_eq_ok {app app' : App} {space : Addr} (h : app.release space = .ok app') :
    ∃ mem, cDealloc app.mem space = .ok mem ∧
      app' = { app with
        mem := mem
        trace := app.trace ++ [.release space (decide (app.mem.IsLive space))] } := by
  obtain ⟨mem, hfree, rfl⟩ := dealloc_eq_ok h
  exact ⟨mem, hfree, rfl⟩

theorem readEntry_eq_ok {app : App} {it : Addr} {i : Nat} {c : Instruction}
    (h : app.readEntry it i = .ok c) : it ≠ 0 ∧ c = app.heap.instructions (entryAddr it i) := by
  unfold App.readEntry at h
  split at h
  · cases h
  · cases h
    exact ⟨‹_›, rfl⟩

theorem writeEntry_eq_ok {app app' : App} {it : Addr} {i : Nat} {c : Instruction}
    (h : app.writeEntry it i c = .ok app') :
    it ≠ 0 ∧ app' = { app with
      heap.instructions := Function.update app.heap.instructions (entryAddr it i) c } := by
  unfold App.writeEntry at h
  split at h
  · cases h
  · cases h
    exact ⟨‹_›, rfl⟩

end ChicOS
