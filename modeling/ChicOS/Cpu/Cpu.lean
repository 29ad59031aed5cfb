-- SUMMARY: The CPU: system calls and interrupts with their textual arguments, and the execution of an instruction.
import ChicOS.Scheduler.Scheduler
import ChicOS.Io.Disk
import ChicOS.Io.Printer

/-!
# The CPU

`sys_call` and `interrupt_control` print their arguments into a buffer and scan
them back, each under the lock of the CPU. Here they take the buffer, and their
callers print it.

`exec_process` runs the instruction at the program counter for at most one time
slice. When the program counter is at the end of the program it kills the
process first, and goes on with the entry after the last instruction. What a time
slice leaves is said once, by `execSlice_eq_ok`.
-/

namespace ChicOS

/-! ## Arguments -/

/-- `"%u %u"`. -/
def printPidAnd (pid n : UInt32) : List UInt8 := printPid pid ++ 32 :: printPid n

/-- Two numbers printed are two numbers scanned. -/
theorem scanU_printPidAnd (pid n : UInt32) :
    scanU (printPidAnd pid n) = .ok (pid, 32 :: printPid n) ∧
      scanU (32 :: printPid n) = .ok (n, []) := by
  constructor
  · apply scanU_printPid
    intro b hb
    cases hb
    rfl
  · have hspace : scanU (32 :: printPid n) = scanU (printPid n) := by
      rw [scanU, CString.scanNumber_space, scanU]
    rw [hspace, scanU_printPid_end]

/-- `"%c %u"`, as the string it leaves in the buffer. -/
def printSem (sem : UInt8) (pid : UInt32) : List UInt8 :=
  CString.terminate (sem :: 32 :: printPid pid)

/-- A name, a space and a number: the string is not cut if the name is no terminator. -/
theorem printSem_eq {name : UInt8} (hname : name ≠ 0) (pid : UInt32) :
    printSem name pid = name :: 32 :: printPid pid := by
  have hdigits : ∀ d ∈ printPid pid, d ≠ 0 := by
    rintro d hd rfl
    cases CString.isDigit_of_mem_printUnsigned hd
  have hall : ∀ b ∈ name :: 32 :: printPid pid, b ≠ 0 := by
    simpa [hname] using hdigits
  apply List.takeWhile_eq_self_iff.mpr
  simpa using hall

/-- `sscanf` with `"%s"`. -/
def scanS (buffer : List UInt8) : Except Stop (List UInt8) :=
  match CString.scanWord buffer with
  | (none, _) => .error .uninit
  | (some w, _) => .ok w

/-- `sscanf` with `"%c"`. -/
def scanC (buffer : List UInt8) : Except Stop (UInt8 × List UInt8) :=
  match buffer with
  | [] => .error .uninit
  | c :: rest => .ok (c, rest)

/-! ## System calls and interrupts -/

/-- `p_create` and `log_process`, the `process_create` branch of both. -/
def createBranch (app : App) (buffer : List UInt8) : Except Stop App := do
  let path ← scanS buffer
  let (pid, app) ← pCreate app path
  let _ ← logProcess app pid
  .ok app

def printBranch (app : App) (buffer : List UInt8) : Except Stop App := do
  let (pid, rest) ← scanU buffer
  let (time, _) ← scanU rest
  addToPrintQueue app time pid

/-- `sys_call`, on the buffer. The branch that reads a pointer has no caller. -/
def sysCall (app : App) (e : Events) (buffer : List UInt8) : Except Stop App :=
  app.inCpu fun app =>
    match e with
    | .diskRequest => do
      let (pid, rest) ← scanU buffer
      let (track, _) ← scanU rest
      let app ← pBlock app pid
      simulateIo app pid track
    | .processInterrupt => do
      let (pid, _) ← scanU buffer
      pInterrupt app pid
    | .processCreate => createBranch app buffer
    | .processKill => killBranch app buffer
    | .memLoadReq => .error .rawPointer
    | .semaphoreP => do
      let (sem, rest) ← scanC buffer
      let (pid, _) ← scanU rest
      semaphoreP app (getSemaphoreByName app sem) pid
    | .semaphoreV => do
      let (sem, _) ← scanC buffer
      semaphoreV app (getSemaphoreByName app sem)
    | .printRequest => printBranch app buffer
    | .printFinish => popPrint app
    | .diskFinish | .memLoadFinish | .processExec => .ok app

/-- `interrupt_control`, on the buffer. -/
def interruptControl (app : App) (e : Events) (buffer : List UInt8) : Except Stop App :=
  app.inCpu fun app =>
    match e with
    | .diskFinish => do
      let (pid, _) ← scanU buffer
      pUnblock app pid
    | .processInterrupt => do
      let (pid, _) ← scanU buffer
      pInterrupt app pid
    | .processCreate => createBranch app buffer
    | .processKill => killBranch app buffer
    | .memLoadFinish => .error .rawPointer
    | .printRequest => printBranch app buffer
    | .printFinish => popPrint app
    | .diskRequest | .memLoadReq | .semaphoreP | .semaphoreV | .processExec => .ok app

/-! ## Executing an instruction -/

/-- The instruction at the program counter of a slot. -/
def App.fetch (app : App) (k : Fin MAX_PCB) : Except Stop Instruction :=
  let c := (app.pcb.slot k).c
  app.readEntry c.it c.pc.toNat

/-- The instruction that is fetched. -/
def App.next (app : App) (k : Fin MAX_PCB) : Instruction :=
  app.heap.instructions (entryAddr (app.pcb.slot k).c.it (app.pcb.slot k).c.pc.toNat)

theorem fetch_eq_ok {app : App} {k : Fin MAX_PCB} {c : Instruction} (h : app.fetch k = .ok c) :
    (app.pcb.slot k).c.it ≠ 0 ∧ c = app.next k := readEntry_eq_ok h

/-- A system call that `exec_process` makes for the process in a slot. -/
def execSysCall (app : App) (pid : UInt32) (e : Events) (buffer : List UInt8) : Except Stop App :=
  sysCall (app.note (.sysCall pid e)) e buffer

/-- The `process_exec` case of `exec_process`. The flag tells whether the
instruction is done. -/
def execSlice (app : App) (k : Fin MAX_PCB) : Except Stop (Bool × App) := do
  let c ← app.fetch k
  let app ← (if c.remainingTime < TIME_SLICE then
      app.inPcb fun pcb => pcb.modify k fun p => { p with timeToRun := c.remainingTime }
    else .ok app)
  let lTime := (app.pcb.slot k).timeToRun
  -- `sleep_ms_with_time` counts the time to run down to zero
  let app ← app.inCpu fun app =>
    .ok { app with pcb := app.pcb.modify k fun p => { p with timeToRun := 0 } }
  let app ← app.inPcb fun pcb => pcb.modify k fun p => { p with hUsed := p.hUsed + 1 }
  let c ← app.fetch k
  let code := (app.pcb.slot k).c
  let app ← app.writeEntry code.it code.pc.toNat
    { c with remainingTime := c.remainingTime - lTime }
  let app ← (if MAX_TIME_MORE_PAGES ≤ lTime then do
      let n ← semWait .pcbS app.pcb.pcbS
      let app := { app with pcb.pcbS := n }
      let app ← pRealloc app k (app.pcb.slot k).addressSpace (sizeofPointer + sizeofPage * lTime)
      .ok { app with pcb.pcbS := app.pcb.pcbS + 1 }
    else .ok app)
  let c ← app.fetch k
  .ok (decide (c.remainingTime = 0), app)

/-- The `disk_request` case of `exec_process`. -/
def execDisk (app : App) (p : Process) (c : Instruction) : Except Stop App := do
  let rw ← app.rwCount p
  let app ← app.inCpu fun app =>
    let h := (app.heap.syntBuffers p.fb).h
    let header := { app.heap.syntHeaders h with rwCount := rw + 1 }
    .ok { app with heap.syntHeaders := Function.update app.heap.syntHeaders h header }
  execSysCall app p.pid .diskRequest (printPidAnd p.pid c.remainingTime)

/-- The `switch` of `exec_process`. The flag tells whether the instruction is done. -/
def dispatch (app : App) (k : Fin MAX_PCB) (c : Instruction) : Except Stop (Bool × App) :=
  let p := app.pcb.slot k
  let done (r : Except Stop App) : Except Stop (Bool × App) := do
    let app ← r
    .ok (true, app)
  match c.e with
  | .semaphoreP => done (execSysCall app p.pid .semaphoreP (printSem c.semName p.pid))
  | .semaphoreV => done (execSysCall app p.pid .semaphoreV (printSem c.semName p.pid))
  | .processExec => execSlice app k
  | .diskRequest => done (execDisk app p c)
  | .printRequest =>
    done (execSysCall app p.pid .printRequest (printPidAnd p.pid c.remainingTime))
  | _ => .ok (true, app)

/-- The rest of `exec_process` after the test for the end of the program: fetch,
dispatch, and advance. -/
def execInstruction (app : App) (k : Fin MAX_PCB) : Except Stop App := do
  let c ← app.fetch k
  let p := app.pcb.slot k
  let (done, app) ← dispatch (app.note (.dispatch p.pid p.c.pc p.c.last)) k c
  if done then
    .ok { app with pcb := app.pcb.modify k fun p => { p with c.pc := p.c.pc + 1 } }
  else .ok app

/-- `exec_process` on the process in a slot. A process at its end is killed, and
its next entry executed all the same. -/
def execProcess (app : App) (k : Fin MAX_PCB) : Except Stop App := do
  let p := app.pcb.slot k
  if p.timeToRun = 0 then execSysCall app p.pid .processInterrupt (printPid p.pid)
  else do
    let app ← (if p.c.pc = p.c.last then execSysCall app p.pid .processKill (printPid p.pid)
      else .ok app)
    execInstruction app k

/-! ## A time slice -/

/-- `l_time`, in a slice that starts in this state. -/
def App.lTime (app : App) (k : Fin MAX_PCB) : UInt32 :=
  if (app.next k).remainingTime < TIME_SLICE then (app.next k).remainingTime
  else (app.pcb.slot k).timeToRun

/-- The time has been taken, and the process has not grown yet. -/
def App.sliced (app : App) (k : Fin MAX_PCB) : App :=
  let code := (app.pcb.slot k).c
  { app with
    heap.instructions := Function.update app.heap.instructions (entryAddr code.it code.pc.toNat)
      { app.next k with remainingTime := (app.next k).remainingTime - app.lTime k }
    pcb := app.pcb.modify k fun p => { p with timeToRun := 0, hUsed := p.hUsed + 1 } }

section Slice

variable {app app' : App} {k : Fin MAX_PCB}

@[simp] theorem App.sliced_slot :
    (app.sliced k).pcb.slot k
      = { app.pcb.slot k with timeToRun := 0, hUsed := (app.pcb.slot k).hUsed + 1 } :=
  PCB.slot_modify_self app.pcb k _

theorem App.sliced_next :
    (app.sliced k).next k
      = { app.next k with remainingTime := (app.next k).remainingTime - app.lTime k } := by
  rw [App.next, App.sliced_slot]
  exact Function.update_self _ _ _

/-- `sleep_ms_with_time` counts `time_to_run` down. -/
theorem sleep_eq_ok (h : app.inCpu (fun app =>
      .ok { app with pcb := app.pcb.modify k fun p => { p with timeToRun := 0 } }) = .ok app') :
    app' = { app with pcb := app.pcb.modify k fun p => { p with timeToRun := 0 } } := by
  obtain ⟨n, hn, h⟩ := Except.bind_eq_ok.mp h
  have hn : app.cpu.cpuS = n + 1 := semWait_eq_ok.mp hn
  cases h
  show ({ app with
    pcb := app.pcb.modify k fun p => { p with timeToRun := 0 }
    cpu.cpuS := n + 1 } : App) = _
  rw [← hn]

/-- What is left is set as the time to run, if it is less than the slice. -/
theorem short_eq_ok {app₁ : App} (h : (if (app.next k).remainingTime < TIME_SLICE then
      app.inPcb fun pcb => pcb.modify k fun p => { p with timeToRun := (app.next k).remainingTime }
    else .ok app) = .ok app₁) :
    app₁ = { app with pcb := app.pcb.modify k fun p => { p with timeToRun := app.lTime k } } := by
  unfold App.lTime
  split at h
  · rename_i hshort
    obtain ⟨-, rfl⟩ := inPcb_eq_ok h
    rw [if_pos hshort]
  · rename_i hlong
    cases h
    rw [if_neg hlong, PCB.modify_eq_self rfl]

/-- A slice takes its time from the instruction. If that is long enough, the process grows
then. -/
theorem execSlice_eq_ok {done : Bool} (h : execSlice app k = .ok (done, app')) :
    done = decide ((app'.next k).remainingTime = 0) ∧
    (app' = app.sliced k ∨ MAX_TIME_MORE_PAGES ≤ app.lTime k ∧ ∃ n bytes app₁,
      pRealloc { app.sliced k with pcb.pcbS := n } k (app.pcb.slot k).addressSpace bytes = .ok app₁ ∧
      app' = { app₁ with pcb.pcbS := app₁.pcb.pcbS + 1 }) := by
  obtain ⟨c, hfetch, h⟩ := Except.bind_eq_ok.mp h
  obtain ⟨-, rfl⟩ := fetch_eq_ok hfetch
  obtain ⟨app₁, hshort, h⟩ := Except.bind_eq_ok.mp h
  obtain ⟨app₂, hsleep, h⟩ := Except.bind_eq_ok.mp h
  obtain ⟨app₃, hused, h⟩ := Except.bind_eq_ok.mp h
  obtain ⟨c', hfetch', h⟩ := Except.bind_eq_ok.mp h
  obtain ⟨app₄, hwrite, h⟩ := Except.bind_eq_ok.mp h
  obtain ⟨app₅, hgrow, h⟩ := Except.bind_eq_ok.mp h
  obtain ⟨c'', hdone, h⟩ := Except.bind_eq_ok.mp h
  cases h
  obtain ⟨-, rfl⟩ := fetch_eq_ok hdone
  obtain ⟨-, rfl⟩ := fetch_eq_ok hfetch'
  obtain rfl := short_eq_ok hshort
  obtain rfl := sleep_eq_ok hsleep
  obtain ⟨-, rfl⟩ := inPcb_eq_ok hused
  obtain ⟨-, hwritten⟩ := writeEntry_eq_ok hwrite
  have hsliced : app₄ = app.sliced k := by
    rw [hwritten]
    simp [App.sliced, App.next, PCB.modify_modify]
  subst hsliced
  refine ⟨rfl, ?_⟩
  split at hgrow
  · rename_i hlong
    dsimp only at hlong
    rw [PCB.slot_modify_self] at hlong
    obtain ⟨n, -, hgrow⟩ := Except.bind_eq_ok.mp hgrow
    obtain ⟨app₆, hrealloc, hgrow⟩ := Except.bind_eq_ok.mp hgrow
    cases hgrow
    have hspace : ((app.sliced k).pcb.slot k).addressSpace = (app.pcb.slot k).addressSpace := by
      rw [App.sliced_slot]
    exact .inr ⟨hlong, n, _, app₆, hspace ▸ hrealloc, rfl⟩
  · cases hgrow
    exact .inl rfl

end Slice

end ChicOS
