-- SUMMARY: The whole simulator of chicos.c: initialisation, turns of its loops, signals, and shutdown.
import ChicOS.Cpu.Cpu
import ChicOS.Semaphore.Lock

/-!
# The machine

`init_app` sets the state up and starts a thread for each of the three loops. A
run of the machine interleaves whole turns of these loops, creations from the
user interface, and the signal that makes the loops end; `clear_app` then
releases the address spaces.
-/

namespace ChicOS

/-! ## Initialisation -/

/-- `init_app`, with what the threads do before their loops. -/
def initApp (app : App) (pool : Bytes.Mem) (memSize : UInt32) : Except Stop App := do
  let app ← { app with pcb := initPcb app.pcb }.initSemaphores pool memSize
  .ok { app with
    cpu := { quantumTime := 0, cpuS := 1 }
    disk := { app.disk with qr.len := 0, diskS := 1, currentTrack := 0 }
    printer := { printerS := 1, head := 0, tail := 0, printerBuffer := 0, active := true } }

/-! ## Turns of the loops -/

/-- The start of a turn of `cpu_loop`, up to the selection of a process. -/
def schedule (app : App) : Except Stop (Option (Fin MAX_PCB) × App) := do
  let app ← schedulerNoRunning { app with cpu.quantumTime := app.cpu.quantumTime + 1 }
  let app ← schedulerKillProcess app
  schedulerGetProcess app

/-- The rest of a turn, on the process selected. -/
def runSelected (app : App) : Option (Fin MAX_PCB) → Except Stop App
  | none => .ok app
  | some k => do
    let app ← execProcess app k
    let _ ← logProcess app (app.pcb.slot k).pid
    .ok app

/-- Logging changes nothing. -/
theorem runSelected_eq_ok {app app' : App} {k : Fin MAX_PCB}
    (h : runSelected app (some k) = .ok app') : execProcess app k = .ok app' := by
  obtain ⟨app₁, hexec, h⟩ := Except.bind_eq_ok.mp h
  obtain ⟨u, -, h⟩ := Except.bind_eq_ok.mp h
  cases h
  exact hexec

/-- The program that `cpu_loop` starts in debug mode, by the time. -/
def debugProgram (time : UInt64) : Option (List UInt8) :=
  if time = 1 then some (ascii "resources/sint1")
  else if time = 2 then some (ascii "resources/sint2")
  else if time = 3 then some (ascii "resources/sint3")
  else if time = 4 then some (ascii "resources/sint4")
  else none

def createDebug (app : App) : Except Stop App :=
  match debugProgram app.cpu.quantumTime with
  | some path => if app.debug then interruptControl app .processCreate path else .ok app
  | none => .ok app

/-- A turn of `cpu_loop`. -/
def cpuTurn (app : App) : Except Stop App := do
  let (selected, app) ← schedule app
  let app ← runSelected app selected
  createDebug app

/-- A turn of `disk_loop`, its interrupt included. -/
def diskLoopTurn (app : App) : Except Stop App := do
  let (finished, app) ← diskTurn app
  match finished with
  | none => .ok app
  | some pid => interruptControl app .diskFinish (printPid pid)

/-- A turn of `printer_loop`, its interrupt included. -/
def printerLoopTurn (app : App) : Except Stop App := do
  let (finish, app) ← printerTurn app
  if finish then interruptControl app .printFinish [] else .ok app

/-! ## Runs -/

inductive Turn where
  | cpu
  | disk
  | printer
  /-- The user interface creates a process. -/
  | create (path : List UInt8)
  /-- `handle_signal`. -/
  | signal

def App.turn (app : App) : Turn → Except Stop App
  | .cpu => if app.loopStop then .ok app else cpuTurn app
  | .disk => if app.loopStop then .ok app else diskLoopTurn app
  | .printer => if app.loopStop then .ok app else printerLoopTurn app
  | .create path => if app.loopStop then .ok app else interruptControl app .processCreate path
  | .signal => .ok { app with loopStop := true }

/-! ## Shutdown -/

/-- The body of `clear_pcb`. -/
def clearBody (app : App) (k : Fin MAX_PCB) : Except Stop App :=
  let space := (app.pcb.slot k).addressSpace
  if space ≠ 0 then app.release space else .ok app

/-- `clear_pcb`, which `clear_app` calls once the loops have ended. -/
def clearPcb (app : App) : Except Stop App := forSlots MAX_PCB app clearBody

end ChicOS
