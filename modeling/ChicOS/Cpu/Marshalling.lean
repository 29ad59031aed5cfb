-- SUMMARY: Arguments of system calls and interrupts: what the caller prints and what the handler gets.
import ChicOS.Render.Input

/-!
# Marshalling

A caller of `sys_call` and `interrupt_control` prints its arguments into a string,
and the `switch` scans them back. Both are a scan followed by one handler with the
arguments scanned (`sysCall_eq`, `interruptControl_eq`), so that what the handler
gets can be compared with what the caller printed.

Numbers and the names of semaphores come through. A path is scanned as a word, and
comes through exactly if there is no space in it.
-/

namespace ChicOS

/-! ## Handlers -/

/-- The branches of the two `switch`es, with their arguments. -/
inductive Handler where
  | requestIo (pid track : UInt32)
  | interrupt (pid : UInt32)
  | create (path : List UInt8)
  | kill (pid : UInt32)
  | semaphoreP (name : UInt8) (pid : UInt32)
  | semaphoreV (name : UInt8)
  | addToPrintQueue (time pid : UInt32)
  | popPrint
  | unblock (pid : UInt32)
  | nothing
  deriving DecidableEq, Repr

def Handler.run (app : App) : Handler → Except Stop App
  | .requestIo pid track => do
    let app ← pBlock app pid
    simulateIo app pid track
  | .interrupt pid => pInterrupt app pid
  | .create path => do
    let (pid, app) ← pCreate app path
    let _ ← logProcess app pid
    .ok app
  | .kill pid => pKill app pid
  | .semaphoreP name pid => ChicOS.semaphoreP app (getSemaphoreByName app name) pid
  | .semaphoreV name => ChicOS.semaphoreV app (getSemaphoreByName app name)
  | .addToPrintQueue time pid => ChicOS.addToPrintQueue app time pid
  | .popPrint => ChicOS.popPrint app
  | .unblock pid => pUnblock app pid
  | .nothing => .ok app

/-- One number. -/
def scanPid (buffer : List UInt8) (handler : UInt32 → Handler) : Except Stop Handler := do
  let (pid, _) ← scanU buffer
  .ok (handler pid)

/-- Two numbers. -/
def scanPidAnd (buffer : List UInt8) (handler : UInt32 → UInt32 → Handler) :
    Except Stop Handler := do
  let (pid, rest) ← scanU buffer
  let (n, _) ← scanU rest
  .ok (handler pid n)

def scanPath (buffer : List UInt8) : Except Stop Handler := do
  let path ← scanS buffer
  .ok (.create path)

/-- What `sys_call` scans. -/
def sysCallScan (e : Events) (buffer : List UInt8) : Except Stop Handler :=
  match e with
  | .diskRequest => scanPidAnd buffer .requestIo
  | .processInterrupt => scanPid buffer .interrupt
  | .processCreate => scanPath buffer
  | .processKill => scanPid buffer .kill
  | .memLoadReq => .error .rawPointer
  | .semaphoreP => do
    let (name, rest) ← scanC buffer
    let (pid, _) ← scanU rest
    .ok (.semaphoreP name pid)
  | .semaphoreV => do
    let (name, _) ← scanC buffer
    .ok (.semaphoreV name)
  | .printRequest => scanPidAnd buffer fun pid time => .addToPrintQueue time pid
  | .printFinish => .ok .popPrint
  | .diskFinish | .memLoadFinish | .processExec => .ok .nothing

/-- What `interrupt_control` scans. -/
def interruptScan (e : Events) (buffer : List UInt8) : Except Stop Handler :=
  match e with
  | .diskFinish => scanPid buffer .unblock
  | .processInterrupt => scanPid buffer .interrupt
  | .processCreate => scanPath buffer
  | .processKill => scanPid buffer .kill
  | .memLoadFinish => .error .rawPointer
  | .printRequest => scanPidAnd buffer fun pid time => .addToPrintQueue time pid
  | .printFinish => .ok .popPrint
  | .diskRequest | .memLoadReq | .semaphoreP | .semaphoreV | .processExec => .ok .nothing

section Scans

variable {app : App} {buffer : List UInt8}

theorem createBranch_eq :
    createBranch app buffer = scanPath buffer >>= fun h => h.run app := by
  unfold createBranch scanPath
  cases scanS buffer <;> rfl

theorem scanPid_run (handler : UInt32 → Handler) :
    (scanPid buffer handler >>= fun h => h.run app)
      = scanU buffer >>= fun r => (handler r.1).run app := by
  unfold scanPid
  cases scanU buffer <;> rfl

theorem scanPidAnd_run (handler : UInt32 → UInt32 → Handler) :
    (scanPidAnd buffer handler >>= fun h => h.run app)
      = scanU buffer >>= fun r => scanU r.2 >>= fun r' => (handler r.1 r'.1).run app := by
  unfold scanPidAnd
  rcases scanU buffer with e | ⟨pid, rest⟩
  · rfl
  · simp only [Except.ok_bind_run]
    cases scanU rest <;> rfl

/-- `sys_call` scans, and runs the handler. -/
theorem sysCall_eq (app : App) (e : Events) (buffer : List UInt8) :
    sysCall app e buffer = app.inCpu fun app => sysCallScan e buffer >>= fun h => h.run app := by
  unfold sysCall
  congr 1
  funext app
  cases e with
  | diskRequest => exact (scanPidAnd_run .requestIo).symm
  | processInterrupt => exact (scanPid_run .interrupt).symm
  | processCreate => exact createBranch_eq
  | processKill => exact (scanPid_run .kill).symm
  | semaphoreP =>
      simp only [sysCallScan]
      rcases scanC buffer with x | ⟨name, rest⟩
      · rfl
      · simp only [Except.ok_bind_run]
        cases scanU rest <;> rfl
  | semaphoreV =>
      simp only [sysCallScan]
      cases scanC buffer <;> rfl
  | printRequest => exact (scanPidAnd_run fun pid time => .addToPrintQueue time pid).symm
  | printFinish | memLoadReq | diskFinish | memLoadFinish | processExec => rfl

/-- `interrupt_control` scans, and runs the handler. -/
theorem interruptControl_eq (app : App) (e : Events) (buffer : List UInt8) :
    interruptControl app e buffer
      = app.inCpu fun app => interruptScan e buffer >>= fun h => h.run app := by
  unfold interruptControl
  congr 1
  funext app
  cases e with
  | diskFinish => exact (scanPid_run .unblock).symm
  | processInterrupt => exact (scanPid_run .interrupt).symm
  | processCreate => exact createBranch_eq
  | processKill => exact (scanPid_run .kill).symm
  | printRequest => exact (scanPidAnd_run fun pid time => .addToPrintQueue time pid).symm
  | printFinish | memLoadFinish | diskRequest | memLoadReq | semaphoreP | semaphoreV
  | processExec => rfl

end Scans

/-! ## Calls -/

/-- The calls that are made with arguments. -/
inductive KernelCall where
  | diskRequest (pid track : UInt32)
  | processInterrupt (pid : UInt32)
  | processKill (pid : UInt32)
  | printRequest (pid time : UInt32)
  | semaphoreP (name : UInt8) (pid : UInt32)
  | semaphoreV (name : UInt8) (pid : UInt32)
  | diskFinish (pid : UInt32)
  | processCreate (path : List UInt8)
  deriving DecidableEq, Repr

namespace KernelCall

def event : KernelCall → Events
  | .diskRequest _ _ => .diskRequest
  | .processInterrupt _ => .processInterrupt
  | .processKill _ => .processKill
  | .printRequest _ _ => .printRequest
  | .semaphoreP _ _ => .semaphoreP
  | .semaphoreV _ _ => .semaphoreV
  | .diskFinish _ => .diskFinish
  | .processCreate _ => .processCreate

/-- The string that the caller prints. -/
def buffer : KernelCall → List UInt8
  | .diskRequest pid n | .printRequest pid n => printPidAnd pid n
  | .processInterrupt pid | .processKill pid | .diskFinish pid => printPid pid
  | .semaphoreP name pid | .semaphoreV name pid => printSem name pid
  | .processCreate path => path

/-- `disk_loop` and `read_path` raise interrupts, `exec_process` makes system calls. -/
def isInterrupt : KernelCall → Bool
  | .diskFinish _ | .processCreate _ => true
  | .diskRequest _ _ | .processInterrupt _ | .processKill _ | .printRequest _ _ | .semaphoreP _ _
  | .semaphoreV _ _ => false

def make (app : App) (c : KernelCall) : Except Stop App :=
  if c.isInterrupt then interruptControl app c.event c.buffer else sysCall app c.event c.buffer

/-- What is scanned from the string. -/
def scanned (c : KernelCall) : Except Stop Handler :=
  if c.isInterrupt then interruptScan c.event c.buffer else sysCallScan c.event c.buffer

/-- The handler that the caller means, with the arguments it printed. -/
def handler : KernelCall → Handler
  | .diskRequest pid track => .requestIo pid track
  | .processInterrupt pid => .interrupt pid
  | .processKill pid => .kill pid
  | .printRequest pid time => .addToPrintQueue time pid
  | .semaphoreP name pid => .semaphoreP name pid
  | .semaphoreV name _ => .semaphoreV name
  | .diskFinish pid => .unblock pid
  | .processCreate path => .create path

/-- The calls that can be made: names are no terminator, and paths are typed ones
for which `valid_path` holds. -/
def Valid (access : List UInt8 → Bool) : KernelCall → Prop
  | .semaphoreP name _ | .semaphoreV name _ => name ≠ 0
  | .processCreate path => Typed (MAX_ADDRESS_SIZE - 1) path ∧ validPath access path = true
  | .diskRequest _ _ | .processInterrupt _ | .processKill _ | .printRequest _ _ | .diskFinish _ =>
    True

/-- A path, if there is one, has no space. -/
def Unspaced : KernelCall → Prop
  | .processCreate path => 32 ∉ path
  | .diskRequest _ _ | .processInterrupt _ | .processKill _ | .printRequest _ _ | .diskFinish _
  | .semaphoreP _ _ | .semaphoreV _ _ => True

instance decidableUnspaced : (c : KernelCall) → Decidable c.Unspaced
  | .processCreate path => inferInstanceAs (Decidable (32 ∉ path))
  | .diskRequest _ _ | .processInterrupt _ | .processKill _ | .printRequest _ _ | .diskFinish _
  | .semaphoreP _ _ | .semaphoreV _ _ => inferInstanceAs (Decidable True)

/-- The call runs the handler of what was scanned, with the processor held. -/
theorem make_eq (app : App) (c : KernelCall) :
    c.make app = app.inCpu fun app => c.scanned >>= fun h => h.run app := by
  unfold make scanned
  split
  · exact interruptControl_eq app c.event c.buffer
  · exact sysCall_eq app c.event c.buffer

theorem scanPid_printPid (pid : UInt32) (handler : UInt32 → Handler) :
    scanPid (printPid pid) handler = .ok (handler pid) := by
  simp [scanPid]

theorem scanPidAnd_printPidAnd (pid n : UInt32) (handler : UInt32 → UInt32 → Handler) :
    scanPidAnd (printPidAnd pid n) handler = .ok (handler pid n) := by
  obtain ⟨hpid, hn⟩ := scanU_printPidAnd pid n
  simp [scanPidAnd, hpid, hn]

/-- A path is scanned whole exactly if it has no space. -/
theorem scanPath_iff {path : List UInt8} (hne : path ≠ [])
    (hprint : ∀ b ∈ path, CString.isPrint b = true) :
    scanPath path = .ok (.create path) ↔ 32 ∉ path := by
  constructor
  · intro h
    obtain ⟨w, hscan, h⟩ := Except.bind_eq_ok.mp h
    cases h
    unfold scanS at hscan
    split at hscan
    · cases hscan
    · rename_i rest hword
      cases hscan
      intro hmem
      cases CString.isSpace_of_scanWord hword 32 hmem
  · intro h
    have hword : CString.scanWord path = (some path, []) := by
      apply CString.scanWord_eq_self hne
      intro b hb
      rw [CString.isSpace_of_isPrint (hprint b hb)]
      exact decide_eq_false fun heq => h (heq ▸ hb)
    simp [scanPath, scanS, hword]

/-- What `read_path` starts is such a call. -/
theorem readPath_make {access : List UInt8 → Bool} {app : App} {keys : List Int}
    {path : List UInt8} (hkeys : readPathKeys [] keys = .entered path)
    (hpath : validPath access path = true) :
    (processCreate path).Valid access ∧ readPath access app keys = (processCreate path).make app := by
  refine ⟨⟨readPathKeys_typed (.nil _) hkeys, hpath⟩, ?_⟩
  simp [readPath, hkeys, hpath, make, isInterrupt, event, buffer]

end KernelCall

/-- The handler gets exactly what the caller printed, unless that is a path with a
space in it. No file has the empty path. -/
theorem marshalling (access : List UInt8 → Bool) (haccess : access [] = false) (c : KernelCall)
    (hvalid : c.Valid access) :
    (∀ app, c.make app = app.inCpu fun app => c.scanned >>= fun h => h.run app) ∧
      (c.scanned = .ok c.handler ↔ c.Unspaced) := by
  refine ⟨fun app => c.make_eq app, ?_⟩
  cases c with
  | diskRequest pid track =>
      exact iff_of_true (KernelCall.scanPidAnd_printPidAnd pid track _) trivial
  | processInterrupt pid => exact iff_of_true (KernelCall.scanPid_printPid pid _) trivial
  | processKill pid => exact iff_of_true (KernelCall.scanPid_printPid pid _) trivial
  | diskFinish pid => exact iff_of_true (KernelCall.scanPid_printPid pid _) trivial
  | printRequest pid time =>
      have hscan := KernelCall.scanPidAnd_printPidAnd pid time fun p t => .addToPrintQueue t p
      exact iff_of_true hscan trivial
  | semaphoreP name pid =>
      have hn := (scanU_printPidAnd pid pid).2
      refine iff_of_true ?_ trivial
      have hbuffer := printSem_eq hvalid pid
      show sysCallScan .semaphoreP (printSem name pid) = .ok (.semaphoreP name pid)
      simp [sysCallScan, hbuffer, scanC, hn]
  | semaphoreV name pid =>
      refine iff_of_true ?_ trivial
      have hbuffer := printSem_eq hvalid pid
      show sysCallScan .semaphoreV (printSem name pid) = .ok (.semaphoreV name)
      simp [sysCallScan, hbuffer, scanC]
  | processCreate path =>
      have hne : path ≠ [] := by
        rintro rfl
        have hfound := hvalid.2
        simp [validPath, haccess] at hfound
      exact KernelCall.scanPath_iff hne hvalid.1.print

/-- The path of a program of the repository, on a host that has only this file. -/
theorem marshalling_sint1 :
    (KernelCall.processCreate (ascii "resources/sint1")).scanned
      = .ok (.create (ascii "resources/sint1")) := by
  have hvalid : (KernelCall.processCreate (ascii "resources/sint1")).Valid
      fun path => path = ascii "resources/sint1" := ⟨by decide, by decide⟩
  exact (marshalling _ (by decide) _ hvalid).2.mpr (by decide)

/-- A file named `a b` is there, and the handler is told to open `a`. -/
theorem marshalling_space :
    ¬ ∀ c : KernelCall, c.Valid (fun path => path = ascii "a b") → c.scanned = .ok c.handler := by
  intro h
  have hvalid : (KernelCall.processCreate (ascii "a b")).Valid fun path => path = ascii "a b" :=
    ⟨by decide, by decide⟩
  exact absurd (h _ hvalid) (by decide)

end ChicOS
