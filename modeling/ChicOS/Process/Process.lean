-- SUMMARY: Creating, loading, growing and logging processes: process.c beyond the table.
import ChicOS.Fs.Synt

/-!
# Processes

`p_create` allocates an address space, opens the program file and loads its
instructions into the address space, one line of at most 15 bytes each.
`p_realloc` gives a process a larger address space and loads the file again.

An array the loader fills is bounded by the block it lies in, as the block's
header has it: a program that does not fit stops the run. The loader's own check
against the size of the code section compares with the largest 32-bit number,
since the section's size is computed from the size of a pointer and rounds down
to zero.
-/

namespace ChicOS

/-! ## Sections under the lock of the CPU -/

/-- What a call does between `sem_wait` and `sem_post` on `cpu_s`. -/
def App.inCpu (app : App) (f : App → Except Stop App) : Except Stop App := do
  let n ← semWait .cpuS app.cpu.cpuS
  let app ← f { app with cpu.cpuS := n }
  .ok { app with cpu.cpuS := app.cpu.cpuS + 1 }

theorem inCpu_eq_ok {app app' : App} {f : App → Except Stop App} (h : app.inCpu f = .ok app') :
    ∃ n a, f { app with cpu.cpuS := n } = .ok a ∧ app' = { a with cpu.cpuS := a.cpu.cpuS + 1 } := by
  obtain ⟨n, -, h⟩ := Except.bind_eq_ok.mp h
  obtain ⟨a, hrun, h⟩ := Except.bind_eq_ok.mp h
  cases h
  exact ⟨n, a, hrun, rfl⟩

theorem inCpu_eq {app : App} (f : App → Except Stop App) (h : app.cpu.cpuS ≠ 0) :
    app.inCpu f = f { app with cpu.cpuS := app.cpu.cpuS - 1 } >>= fun app =>
      .ok { app with cpu.cpuS := app.cpu.cpuS + 1 } := by
  have hwait : semWait .cpuS app.cpu.cpuS = .ok (app.cpu.cpuS - 1) :=
    semWait_eq_ok.mpr (Nat.succ_pred_eq_of_ne_zero h).symm
  unfold App.inCpu
  rw [hwait, Except.ok_bind_run]

/-- `"%u"`, as `vsprintf` prints it. -/
def printPid (pid : UInt32) : List UInt8 := CString.printUnsigned pid.toNat

/-- `sscanf` with `"%u"`, the result in a local. -/
def scanU (buffer : List UInt8) : Except Stop (UInt32 × List UInt8) :=
  match CString.scanNumber buffer with
  | (none, _) => .error .uninit
  | (some v, rest) => .ok (UInt32.ofInt v, rest)

theorem ofInt_toNat (n : UInt32) : UInt32.ofInt n.toNat = n := by
  have hlt : n.toNat < 2 ^ 32 := n.toNat_lt
  have hmod : ((n.toNat : Int) % 2 ^ 32).toNat = n.toNat := by omega
  rw [UInt32.ofInt, hmod, UInt32.ofNat_toNat]

theorem scanU_printPid (pid : UInt32) (rest : List UInt8)
    (hrest : ∀ b ∈ rest.head?, CString.isDigit b = false) :
    scanU (printPid pid ++ rest) = .ok (pid, rest) := by
  rw [scanU, printPid, CString.scanNumber_printUnsigned _ _ hrest]
  dsimp only
  rw [ofInt_toNat]

@[simp] theorem scanU_printPid_end (pid : UInt32) : scanU (printPid pid) = .ok (pid, []) := by
  have h := scanU_printPid pid [] (by simp)
  rwa [List.append_nil] at h

/-- The `process_kill` branch of `sys_call` and `interrupt_control`. -/
def killBranch (app : App) (buffer : List UInt8) : Except Stop App := do
  let (pid, _) ← scanU buffer
  pKill app pid

/-! ## Loading -/

/-- `retrieve_event`. A command it does not know kills. -/
def retrieveEvent (command : List UInt8) : Events :=
  if command = ascii "V" then .semaphoreV
  else if command = ascii "P" then .semaphoreP
  else if command = ascii "exec" then .processExec
  else if command = ascii "write" ∨ command = ascii "read" then .diskRequest
  else if command = ascii "print" then .printRequest
  else .processKill

/-- What a line says: the command, and its time or its semaphore. -/
structure Command where
  e : Events
  time : Option UInt32
  semName : Option UInt8
  deriving DecidableEq, Repr

/-- The body of the loop of `init_code_section` on a line. `strtok` cuts a copy at
the first parenthesis and takes the command, up to a space, from what is left. -/
def parseLine (line : List UInt8) : Except Stop Command :=
  let aux := CString.terminate line
  match CString.strtok 32 (CString.strtokCut 40 aux) with
  | none => .error .nullDeref
  | some (command, args) =>
    match retrieveEvent command with
    | .printRequest | .diskRequest | .processExec =>
      match CString.strtok 32 args with
      | none => .error .nullDeref
      | some (time, _) =>
        .ok { e := retrieveEvent command, time := some (UInt32.ofInt (CString.atoi time)), semName := none }
    | .semaphoreV | .semaphoreP =>
      match CString.strtok 40 aux with
      | none => .error .nullDeref
      | some (_, args) =>
        match CString.strtok 40 args with
        | none => .error .nullDeref
        | some (name, _) =>
          match CString.strtok 41 name with
          | none => .error .nullDeref
          | some (name, _) => .ok { e := retrieveEvent command, time := none, semName := name.head? }
    | e => .ok { e := e, time := none, semName := none }

/-- Store a command in an entry. What the line does not say stays as it was. -/
def Instruction.store (c : Instruction) (fpPos : UInt32) (cmd : Command) : Instruction where
  e := cmd.e
  remainingTime := cmd.time.getD c.remainingTime
  fpPos := fpPos
  semName := cmd.semName.getD c.semName

/-- The loop of `init_code_section`, with the number of entries filled so far. The
flag tells whether it ran to the end of the file. Every turn takes a byte. -/
def codeLoop (size : UInt32) (it : Addr) (room : Nat) :
    Nat → File → (Addr → Instruction) → Nat → Except Stop (Bool × File × (Addr → Instruction) × Nat)
  | 0, _, _, _ => .error .diverge
  | fuel + 1, fp, instrs, i =>
    if fp.eof then .ok (true, fp, instrs, i)
    else if size - 1 ≤ UInt32.ofNat i * UInt32.ofNat INSTRUCTION_SIZE then .ok (false, fp, instrs, i)
    else
      match fp.gets 15 with
      | (none, fp) => .ok (true, fp, instrs, i)
      | (some line, fp) =>
        -- the position is stored before the command is looked at
        if it = 0 then .error .nullDeref
        else if room < INSTRUCTION_SIZE * (i + 1) then .error .outOfBounds
        else do
          let cmd ← parseLine line
          let c := (instrs (entryAddr it i)).store (UInt32.ofNat fp.tell) cmd
          codeLoop size it room fuel fp (Function.update instrs (entryAddr it i) c) (i + 1)

/-- The size `init_code_section` computes: that of a pointer, in instructions. -/
def codeSize : UInt32 := sizeofPointer / UInt32.ofNat INSTRUCTION_SIZE

/-- `init_code_section` past its checks: skip the empty line, and load. -/
def loadCode (st : Store) (fb : Addr) (fp : File) (space : Addr) (c : CodeSection) :
    Except Stop (Store × CodeSection) := do
  let room := (st.mem.getHeader space).pageNum * PAGE_SIZE - sizeofAllocHeader
  let (_, fp) := fp.gets 15
  let (complete, fp, instrs, i) ←
    codeLoop codeSize space room (fp.rest.length + 2) fp st.heap.instructions 0
  let sb := st.heap.syntBuffers fb
  .ok
    ({ st with
        heap :=
          { st.heap with
            instructions := instrs
            syntBuffers := Function.update st.heap.syntBuffers fb { sb with fp := some fp } } },
      { it := space
        pc := 0
        size := codeSize
        last := if complete then UInt32.ofNat i else c.last })

/-- `init_code_section`, on the fields of the process it reads, with the code
section it leaves. It kills through `sys_call` when the file has ended already. -/
def initCodeSection (app : App) (pid : UInt32) (fb space : Addr) (c : CodeSection) :
    Except Stop (App × CodeSection) :=
  if fb = 0 then .error .nullDeref
  else
    match (app.heap.syntBuffers fb).fp with
    | none => .ok (app, c)
    | some fp =>
      if fp.eof then do
        let app ← app.inCpu fun app => killBranch app (printPid pid)
        .ok (app, c)
      else do
        let (st, c) ← loadCode app.toStore fb fp space c
        .ok ({ app with toStore := st }, c)

/-! ## Creation -/

/-- The name `p_create` gives: the last part of the path, up to a dot. A part goes
through an array of 16 bytes. -/
def createName (address : List UInt8) : Except Stop (Option (List UInt8)) :=
  let parts := CString.tokens 47 address
  if MAX_ADDRESS_SIZE ≤ address.length ∨ ∃ part ∈ parts, 16 ≤ part.length then .error .outOfBounds
  else
    match parts.getLast? with
    | none => .error .uninit
    | some ret => .ok ((CString.strtok 46 ret).map Prod.fst)

/-- The end of `p_create`: the process enters the table. -/
def enterTable (app : App) (p : Process) : Except Stop App := do
  let n ← semWait .pcbS app.pcb.pcbS
  if h : app.pcb.curr.toNat < MAX_PCB then
    .ok ({ app with pcb := { app.pcb.enter p h with pcbS := n + 1 } }.note (.create p.pid))
  else .error .outOfBounds

/-- `p_create`: the pid, or `(u32)-1` when the table is full. -/
def pCreate (app : App) (address : List UInt8) : Except Stop (UInt32 × App) := do
  let name ← createName address
  if MAX_PCB - 1 ≤ app.pcb.curr.toNat then .ok (0xFFFFFFFF, app)
  else do
    let pid := app.pcb.lastPid.toUInt32
    let app := { app with pcb.lastPid := app.pcb.lastPid + 1 }
    let (space, app) ← app.alloc (UInt32.ofNat KB)
    match name with
    | none => .error .nullDeref
    | some name => do
      let (fb, st) ← openFile app.toStore app.fs address
      let app := { app with toStore := st }
      let (app, c) ← initCodeSection app pid fb space { it := 0, pc := 0, size := 0, last := 0 }
      let app ← enterTable app
        { name := name
          pid := pid
          status := .new
          timeToRun := TIME_SLICE
          hUsed := 0
          addressSpace := space
          fb := fb
          c := c }
      .ok (pid, app)

/-- The `rw_count` behind a process's `fb->h`. -/
def App.rwCount (app : App) (p : Process) : Except Stop Int :=
  if p.fb = 0 then .error .nullDeref
  else
    let h := (app.heap.syntBuffers p.fb).h
    if h = 0 then .error .nullDeref else .ok (app.heap.syntHeaders h).rwCount

/-- `log_process`. It changes nothing, but reads the process it finds, or an
uninitialised one. -/
def logProcess (app : App) (pid : UInt32) : Except Stop Unit :=
  match pFind app pid with
  | none => .error .uninit
  | some k => do
    if pid = 0 then .ok ()
    else if (app.pcb.slot k).status = .inactive then .error .uninit
    else do
      let _ ← app.rwCount (app.pcb.slot k)
      .ok ()

/-! ## Growth -/

/-- `fseek` to the start of the file behind `fb`. -/
def App.rewindFile (app : App) (fb : Addr) : Except Stop App :=
  if fb = 0 then .error .nullDeref
  else
    let sb := app.heap.syntBuffers fb
    match sb.fp with
    | none => .error .nullDeref
    | some fp =>
      .ok { app with
        heap.syntBuffers :=
          Function.update app.heap.syntBuffers fb { sb with fp := some fp.rewind } }

/-- The size `p_realloc` asks for: what the block's header says, and more. -/
def reallocSize (m : Memory) (region : Addr) (bytes : UInt32) : UInt32 :=
  let oldSize :=
    UInt32.ofNat (m.getHeader region).pageNum * UInt32.ofNat PAGE_SIZE
      - UInt32.ofNat sizeofAllocHeader
  oldSize + bytes

/-- `p_realloc` on the process in a slot. -/
def pRealloc (app : App) (k : Fin MAX_PCB) (currRegion : Addr) (bytes : UInt32) :
    Except Stop App :=
  if currRegion = 0 then .ok app
  else do
    let totalSize := reallocSize app.mem currRegion bytes
    let p := app.pcb.slot k
    let (it, app) ← app.alloc sizeofInstruction
    let curr ← app.readEntry p.c.it p.c.pc.toNat
    let app ← app.writeEntry it 0 curr
    let app ← app.rewindFile p.fb
    let st ← readHeader app.toStore p.fb
    let app ← { app with toStore := st }.release currRegion
    let (buffer, app) ← app.alloc totalSize
    let app := { app with pcb := app.pcb.modify k fun q => { q with addressSpace := buffer } }
    let (app, c) ← initCodeSection app p.pid p.fb buffer p.c
    let curr ← app.readEntry it 0
    let app ← app.writeEntry c.it p.c.pc.toNat curr
    let app :=
      { app with
        pcb := app.pcb.modify k fun q =>
          { q with c := { it := c.it, pc := p.c.pc, size := p.c.size, last := p.c.last } } }
    app.dealloc it

end ChicOS
