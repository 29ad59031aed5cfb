-- SUMMARY: What the functions of the simulator do to its semaphores, and that its threads never deadlock.
import ChicOS.Defines
import ChicOS.Lib.LockOrder

/-!
# The locks of the threads

For each function of the simulator, its operations on the semaphores and the order
in which it makes them, with the tests of the code left open. A call of `c_log` is
such an operation as well: in debug mode it writes to the log of the renderer, under
`renderer_s`.

The threads are the four that `init_app` creates, once they have initialised their
semaphores. `init_code_section` kills its process through `sys_call` only for a file
that is at its end already, which `open_file` and `p_realloc` never hand it; that
call, which would wait for `cpu_s` inside `cpu_s`, is left out here, and so is the
signal handler, which interrupts another thread.
-/

namespace ChicOS

open LockOrder

/-- The `sem_t` objects: those of the simulator, and the renderer's. -/
inductive Sem where
  | lock (l : Lock)
  | rendererS
  deriving DecidableEq, Repr

namespace Sem

/-- The place of a lock in the order in which the locks are taken. -/
def rank : Sem → Nat
  | lock .cpuS => 0
  | lock .mutex => 1
  | lock .pcbS => 2
  | lock .printerS | lock .diskS => 3
  | lock .memoryS => 4
  | rendererS => 5

instance instPreorder : Preorder Sem := Preorder.lift rank

instance instDecidableLT : DecidableLT Sem :=
  fun a b => inferInstanceAs (Decidable (a.rank < b.rank))

instance instWellFoundedGT : WellFoundedGT Sem where
  wf := by
    refine Subrelation.wf (r := fun a b => 5 - a.rank < 5 - b.rank) ?_
      (measure fun a => 5 - rank a).wf
    intro a b hab
    have hlt : b.rank < a.rank := hab
    have hle : a.rank ≤ 5 := by
      cases a with
      | rendererS => decide
      | lock l => cases l <;> decide
    omega

/-- `c_alloc` gives the lock of the memory back without having taken it when it finds the
memory full, and `bootstrap_ui` sets the lock of the renderer each time the window is resized. -/
def loose : Sem → Bool
  | lock .memoryS | rendererS => true
  | lock _ => false

end Sem

namespace Locks

open Prog

def memoryS : Sem := .lock .memoryS
def pcbS : Sem := .lock .pcbS
def cpuS : Sem := .lock .cpuS
def mutex : Sem := .lock .mutex
def diskS : Sem := .lock .diskS
def printerS : Sem := .lock .printerS

-- ---------------------------------------------------------------------------
-- log.c and mem.c
-- ---------------------------------------------------------------------------

def renderLog : Prog Sem := under .rendererS .skip

def cLog : Prog Sem := opt renderLog

/-- `c_crit_error`. -/
def cCritError : Prog Sem := .seq cLog .exit

def secondChance : Prog Sem := under memoryS (.loop cLog)

/-- A turn of the replacement loop of `c_alloc` that frees a page. -/
def freePage : Prog Sem := block [secondChance, cLog, under memoryS .skip]

/-- The turn that finds no page. -/
def memoryFull : Prog Sem := block [secondChance, cLog, cLog, .post memoryS]

/-- The search for a run of pages. -/
def findRegion : Prog Sem :=
  block
    [.wait memoryS, cLog,
      .alt (block [.post memoryS, cCritError]) (block [.post memoryS, cLog])]

def cAlloc : Prog Sem :=
  block
    [cLog,
      .alt .skip (.alt cLog
        (block [cLog, cLog, .seq (.loop freePage) (.alt memoryFull findRegion)]))]

def cDealloc : Prog Sem := under memoryS cLog

-- ---------------------------------------------------------------------------
-- semaphore.c and synt.c
-- ---------------------------------------------------------------------------

def initSemaphore : Prog Sem := .alt cLog (block [cAlloc, cAlloc])

def readHeader : Prog Sem := block [cAlloc, .loop initSemaphore]

def openFile : Prog Sem := block [cAlloc, .alt cLog readHeader]

-- ---------------------------------------------------------------------------
-- process.c
-- ---------------------------------------------------------------------------

/-- Past its test for a file that has ended. -/
def initCodeSection : Prog Sem := cLog

def memoryLoadReq : Prog Sem := .alt cLog (block [cAlloc, cLog])

def pCreate : Prog Sem :=
  .alt cLog (block [memoryLoadReq, openFile, initCodeSection, under pcbS .skip])

def logProcess : Prog Sem := cLog

def pFind : Prog Sem := cLog

def pKill : Prog Sem := block [pFind, .alt cLog (under pcbS (opt cDealloc))]

/-- `p_interrupt`, `p_block` and `p_unblock`. -/
def pUpdate : Prog Sem := block [pFind, under pcbS .skip]

def pRealloc : Prog Sem :=
  .alt cLog (block [cAlloc, readHeader, cDealloc, cAlloc, initCodeSection, cDealloc, cLog])

/-- `semaphoreP` and `semaphoreV`: the ring of waiters may be full, or empty. -/
def semaphorePV : Prog Sem := .alt cLog (under mutex (opt (block [cLog, pUpdate])))

-- ---------------------------------------------------------------------------
-- printer.c and disk.c
-- ---------------------------------------------------------------------------

def addToPrintQueue : Prog Sem := under printerS cAlloc

/-- `pop_from_print_queue` and `get_print_time`. -/
def printQueue : Prog Sem := under printerS .skip

def simulateIo : Prog Sem := opt cCritError

def moveHeader : Prog Sem := under diskS .skip

-- ---------------------------------------------------------------------------
-- cpu.c and scheduler.c
-- ---------------------------------------------------------------------------

def sysCall : Prog Sem :=
  under cpuS <| alts
    [block [pUpdate, simulateIo], pUpdate, block [pCreate, logProcess], pKill, memoryLoadReq,
      semaphorePV, addToPrintQueue, printQueue, .skip]

def interruptControl : Prog Sem :=
  under cpuS <| alts
    [pUpdate, block [pCreate, logProcess], pKill, cLog, addToPrintQueue, printQueue, .skip]

/-- The `process_exec` case of `exec_process`. -/
def execSlice : Prog Sem :=
  block
    [opt (under pcbS .skip), under cpuS .skip, under pcbS .skip, opt (under pcbS pRealloc), cLog]

def execProcess : Prog Sem :=
  .alt sysCall
    (block [opt sysCall, alts [sysCall, execSlice, block [under cpuS .skip, sysCall], cLog]])

def schedulerNoRunning : Prog Sem := .loop (under pcbS cLog)

def schedulerKillProcess : Prog Sem :=
  .loop (opt (block [.loop (under pcbS .skip), under pcbS .skip]))

def schedulerGetProcess : Prog Sem :=
  .alt cLog (block [.loop (under pcbS .skip), .alt cLog (under pcbS .skip)])

def cpuTurn : Prog Sem :=
  block
    [schedulerNoRunning, schedulerKillProcess, schedulerGetProcess,
      opt (block [execProcess, logProcess]), opt interruptControl]

def diskTurn : Prog Sem := alts [.skip, opt interruptControl, moveHeader]

def printerTurn : Prog Sem := block [opt cDealloc, opt interruptControl]

-- ---------------------------------------------------------------------------
-- render.c and user.c
-- ---------------------------------------------------------------------------

def readLoginData : Prog Sem := opt (block [cAlloc, opt cDealloc])

def writeLoginData : Prog Sem := opt cCritError

/-- The threads of the process. -/
inductive Thread where
  | main | cpu | disk | printer | render
  deriving DecidableEq, Repr

end Locks

end ChicOS
