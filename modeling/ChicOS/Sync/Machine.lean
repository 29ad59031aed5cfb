-- SUMMARY: The loops of the simulator follow their lock programs, so a run of the machine hangs on no lock.
import ChicOS.Cpu.OwnProgram
import ChicOS.Sync.Obeys

/-!
# The locks of the machine

The functions of the model from creation to the turns of the loops follow their lock
programs. The programs keep the order of the locks, so a turn that starts with every
lock free hangs on none of them and leaves all of them free: `turn_locks`, and
`machine_locks` for a run from the start.
-/

namespace ChicOS

open LockOrder

-- ---------------------------------------------------------------------------
-- Creation and growth
-- ---------------------------------------------------------------------------

theorem memoryLoadReq_obeys (app : App) (bytes : UInt32) :
    Obeys Locks.memoryLoadReq app.lockCounts (fun r => r.2.lockCounts) (app.alloc bytes) :=
  .right (.andLog (alloc_obeys app bytes))

theorem pCreate_obeys (app : App) (address : List UInt8) :
    Obeys Locks.pCreate app.lockCounts (fun r => r.2.lockCounts) (pCreate app address) := by
  refine .silent (createName_quiet address) fun name _ => ?_
  split
  · exact .left (.cLog rfl)
  refine .right ((memoryLoadReq_obeys { app with pcb.lastPid := app.pcb.lastPid + 1 } _).bind ?_)
  rintro ⟨space, app₁⟩ -
  dsimp only
  split
  · exact .stop rfl
  refine ((openFile_obeys (k := app₁.lockCounts) app₁.toStore app₁.fs address).bind ?_)
  rintro ⟨fb, st⟩ hopen
  refine (initCodeSection_obeys { app₁ with toStore := st } _ fb _ _ fun hfb fp hfp => ?_).bind ?_
  · obtain ⟨fp', hfp', heof⟩ := openFile_file hopen hfb
    cases hfp'.symm.trans hfp
    exact heof
  · rintro ⟨app₂, c⟩ -
    exact (enterTable_obeys app₂ _).last fun _ _ => rfl

theorem rwCount_quiet (app : App) (p : Process) : Quiet (app.rwCount p) := by
  unfold App.rwCount
  split
  · exact .stop rfl
  · dsimp only
    split
    · exact .stop rfl
    · exact .ok

theorem logProcess_quiet (app : App) (pid : UInt32) : Quiet (logProcess app pid) := by
  unfold logProcess
  split
  · exact .stop rfl
  split
  · exact .ok
  split
  · exact .stop rfl
  · exact .bind (rwCount_quiet app _) fun _ => .ok

theorem pRealloc_obeys (app : App) (k : Fin MAX_PCB) (region : Addr) (bytes : UInt32) :
    Obeys Locks.pRealloc app.lockCounts App.lockCounts (pRealloc app k region bytes) := by
  unfold pRealloc
  split
  · exact .left (.cLog rfl)
  refine .right ((alloc_obeys app _).bind ?_)
  rintro ⟨it, app₁⟩ -
  dsimp only
  refine .silent (readEntry_quiet _ _ _) fun curr _ => ?_
  refine .silent (writeEntry_quiet _ _ _ _) fun app₂ hwrite => ?_
  have hcounts₂ : app₂.lockCounts = app₁.lockCounts := by
    obtain ⟨-, rfl⟩ := writeEntry_eq_ok hwrite
    rfl
  refine .silent (rewindFile_quiet _ _) fun app₃ hrewind => ?_
  obtain ⟨-, fp, -, happ₃⟩ := rewindFile_eq_ok hrewind
  have hcounts₃ : app₃.lockCounts = app₂.lockCounts := by rw [happ₃]; rfl
  rw [← hcounts₂, ← hcounts₃]
  refine (readHeader_obeys_app app₃ _).bind fun st hheader => ?_
  obtain ⟨fp₁, hfp₁, heof⟩ := readHeader_file fp.rewind hheader (by rw [happ₃]; simp) rfl
  refine (release_obeys { app₃ with toStore := st } region).bind fun app₄ hrelease => ?_
  refine (alloc_obeys app₄ _).bind ?_
  rintro ⟨buffer, app₅⟩ hspace
  dsimp only
  refine (initCodeSection_obeys { app₅ with pcb := app₅.pcb.modify k _ } _ _ _ _
    fun _ fp₂ hfp₂ => ?_).bind ?_
  · obtain ⟨m₂, -, rfl⟩ := release_eq_ok hrelease
    obtain ⟨m₃, -, rfl⟩ := alloc_eq_ok hspace
    cases hfp₁.symm.trans hfp₂
    exact heof
  rintro ⟨app₆, c⟩ -
  refine .silent (readEntry_quiet _ _ _) fun saved _ => ?_
  refine .silent (writeEntry_quiet _ _ _ _) fun app₇ hwrite' => ?_
  have hcounts₇ : app₇.lockCounts = app₆.lockCounts := by
    obtain ⟨-, rfl⟩ := writeEntry_eq_ok hwrite'
    rfl
  dsimp only
  rw [← hcounts₇]
  exact .andLog (dealloc_obeys { app₇ with pcb := app₇.pcb.modify k _ } it)

-- ---------------------------------------------------------------------------
-- Semaphores and devices
-- ---------------------------------------------------------------------------

theorem inMutex_obeys {p : Prog Sem} {f : App → Except Stop App} (app : App)
    (hf : ∀ app : App, Obeys p app.lockCounts App.lockCounts (f app)) :
    Obeys (.under Locks.mutex p) app.lockCounts App.lockCounts (app.inMutex f) :=
  .under fun n _ => (hf { app with semaphores.mutex := n }).bind fun _ _ => .post rfl

theorem inCpu_obeys {p : Prog Sem} {f : App → Except Stop App} (app : App)
    (hf : ∀ app : App, Obeys p app.lockCounts App.lockCounts (f app)) :
    Obeys (.under Locks.cpuS p) app.lockCounts App.lockCounts (app.inCpu f) :=
  .under fun n _ => (hf { app with cpu.cpuS := n }).bind fun _ _ => .post rfl

theorem waiterPush_quiet (sem : Semaphore) (pid : UInt32) : Quiet (waiterPush sem pid) := by
  unfold waiterPush
  split
  · exact .ok
  split
  · exact .stop rfl
  · exact .ok

theorem waiterPop_quiet (sem : Semaphore) : Quiet (waiterPop sem) := by
  unfold waiterPop
  split
  · exact .ok
  split
  · exact .stop rfl
  · exact .ok

theorem semaphoreP_obeys (app : App) (s : Option (Fin MAX_SIZE_SEMAPHORES)) (pid : UInt32) :
    Obeys Locks.semaphorePV app.lockCounts App.lockCounts (semaphoreP app s pid) := by
  cases s with
  | none => exact .left (.cLog rfl)
  | some i =>
      rw [semaphoreP]
      refine .right (inMutex_obeys app fun app => ?_)
      dsimp only
      split
      · refine .silent (waiterPush_quiet _ _) fun sem _ => ?_
        exact .right (.log (pUpdate_obeys (app.setSem i sem) pid _))
      · exact .left (.skip rfl)

theorem semaphoreV_obeys (app : App) (s : Option (Fin MAX_SIZE_SEMAPHORES)) :
    Obeys Locks.semaphorePV app.lockCounts App.lockCounts (semaphoreV app s) := by
  cases s with
  | none => exact .left (.cLog rfl)
  | some i =>
      rw [semaphoreV]
      refine .right (inMutex_obeys app fun app => ?_)
      dsimp only
      split
      · refine .silent (waiterPop_quiet _) fun r _ => ?_
        exact .right (.log (pUpdate_obeys (app.setSem i r.2) r.1 _))
      · exact .left (.skip rfl)

theorem setNode_quiet (app : App) (a : Addr) (f : PrintList → PrintList) :
    Quiet (app.setNode a f) := by
  unfold App.setNode
  split
  · exact .stop rfl
  · exact .ok

theorem addToPrintQueue_obeys (app : App) (time pid : UInt32) :
    Obeys Locks.addToPrintQueue app.lockCounts App.lockCounts (addToPrintQueue app time pid) := by
  refine .under fun n _ => (alloc_obeys { app with printer.printerS := n } _).bind ?_
  rintro ⟨new, app₁⟩ -
  refine .silent (setNode_quiet _ _ _) fun app₂ hnode => ?_
  have hcounts₂ : app₂.lockCounts = app₁.lockCounts := by
    obtain ⟨-, rfl⟩ := setNode_eq_ok hnode
    rfl
  dsimp only
  rw [← hcounts₂]
  split
  · exact .post rfl
  · refine .silent (Quiet.bind (setNode_quiet _ _ _) fun _ => .ok) fun app₃ hlink => ?_
    obtain ⟨app₄, hset, hok⟩ := Except.bind_eq_ok.mp hlink
    obtain ⟨-, rfl⟩ := setNode_eq_ok hset
    cases hok
    exact .post rfl

theorem popPrint_obeys (app : App) :
    Obeys Locks.printQueue app.lockCounts App.lockCounts (popPrint app) := by
  refine .under fun n hn => .drop (.skip rfl) ?_
  split
  · exact .post (LockCounts.put_back hn)
  · exact .post (LockCounts.put_back hn)

theorem queueGet_quiet (qr : QueueReq) (i : Nat) : Quiet (qr.get i) := by
  unfold QueueReq.get
  split
  · exact .ok
  · exact .stop rfl

theorem queuePut_quiet (qr : QueueReq) (i : Nat) (r : IoReq) : Quiet (qr.put i r) := by
  unfold QueueReq.put
  split
  · exact .ok
  · exact .stop rfl

theorem qPut_obeys (app : App) (r : IoReq) :
    Obeys .skip app.lockCounts App.lockCounts (qPut app r) := by
  unfold qPut
  exact .silent (queuePut_quiet _ _ _) fun qr _ => .skip rfl

theorem simulateIo_obeys (app : App) (pid track : UInt32) :
    Obeys Locks.simulateIo app.lockCounts App.lockCounts (simulateIo app pid track) := by
  unfold simulateIo
  split
  · exact .stop rfl
  · exact .left (qPut_obeys app _)

-- ---------------------------------------------------------------------------
-- System calls and interrupts
-- ---------------------------------------------------------------------------

theorem scanU_quiet (buffer : List UInt8) : Quiet (scanU buffer) := by
  unfold scanU
  split
  · exact .stop rfl
  · exact .ok

theorem scanS_quiet (buffer : List UInt8) : Quiet (scanS buffer) := by
  unfold scanS
  split
  · exact .stop rfl
  · exact .ok

theorem scanC_quiet (buffer : List UInt8) : Quiet (scanC buffer) := by
  unfold scanC
  split
  · exact .stop rfl
  · exact .ok

theorem killBranch_obeys (app : App) (buffer : List UInt8) :
    Obeys Locks.pKill app.lockCounts App.lockCounts (killBranch app buffer) :=
  .silent (scanU_quiet _) fun r _ => pKill_obeys app r.1

theorem createBranch_obeys (app : App) (buffer : List UInt8) :
    Obeys (.block [Locks.pCreate, Locks.logProcess]) app.lockCounts App.lockCounts
      (createBranch app buffer) := by
  refine .silent (scanS_quiet _) fun path _ => (pCreate_obeys app path).bind ?_
  rintro ⟨pid, app₁⟩ -
  exact .silent (logProcess_quiet _ _) fun _ _ => .cLog rfl

theorem printBranch_obeys (app : App) (buffer : List UInt8) :
    Obeys Locks.addToPrintQueue app.lockCounts App.lockCounts (printBranch app buffer) :=
  .silent (scanU_quiet _) fun r _ => .silent (scanU_quiet _) fun r' _ =>
    addToPrintQueue_obeys app r'.1 r.1

theorem sysCall_obeys (app : App) (e : Events) (buffer : List UInt8) :
    Obeys Locks.sysCall app.lockCounts App.lockCounts (sysCall app e buffer) := by
  refine inCpu_obeys app fun app => ?_
  cases e with
  | diskRequest =>
      refine .alts (p := .block [Locks.pUpdate, Locks.simulateIo]) (by simp) ?_
      refine .silent (scanU_quiet _) fun r _ => .silent (scanU_quiet _) fun r' _ => ?_
      exact (pUpdate_obeys app r.1 _).bind fun app _ => simulateIo_obeys app r.1 r'.1
  | processInterrupt =>
      exact .alts (p := Locks.pUpdate) (by simp)
        (.silent (scanU_quiet _) fun r _ => pUpdate_obeys app r.1 _)
  | processCreate => exact .alts (by simp) (createBranch_obeys app buffer)
  | processKill => exact .alts (by simp) (killBranch_obeys app buffer)
  | memLoadReq => exact .stop rfl
  | semaphoreP =>
      refine .alts (p := Locks.semaphorePV) (by simp) ?_
      exact .silent (scanC_quiet _) fun r _ => .silent (scanU_quiet _) fun r' _ =>
        semaphoreP_obeys app _ r'.1
  | semaphoreV =>
      exact .alts (p := Locks.semaphorePV) (by simp)
        (.silent (scanC_quiet _) fun r _ => semaphoreV_obeys app _)
  | printRequest => exact .alts (by simp) (printBranch_obeys app buffer)
  | printFinish => exact .alts (by simp) (popPrint_obeys app)
  | diskFinish | memLoadFinish | processExec => exact .alts (p := .skip) (by simp) (.skip rfl)

theorem interruptControl_obeys (app : App) (e : Events) (buffer : List UInt8) :
    Obeys Locks.interruptControl app.lockCounts App.lockCounts (interruptControl app e buffer) := by
  refine inCpu_obeys app fun app => ?_
  cases e with
  | diskFinish =>
      exact .alts (p := Locks.pUpdate) (by simp)
        (.silent (scanU_quiet _) fun r _ => pUpdate_obeys app r.1 _)
  | processInterrupt =>
      exact .alts (p := Locks.pUpdate) (by simp)
        (.silent (scanU_quiet _) fun r _ => pUpdate_obeys app r.1 _)
  | processCreate => exact .alts (by simp) (createBranch_obeys app buffer)
  | processKill => exact .alts (by simp) (killBranch_obeys app buffer)
  | memLoadFinish => exact .stop rfl
  | printRequest => exact .alts (by simp) (printBranch_obeys app buffer)
  | printFinish => exact .alts (by simp) (popPrint_obeys app)
  | diskRequest | memLoadReq | semaphoreP | semaphoreV | processExec =>
      exact .alts (p := .skip) (by simp) (.skip rfl)

-- ---------------------------------------------------------------------------
-- Instructions
-- ---------------------------------------------------------------------------

theorem execSysCall_obeys (app : App) (pid : UInt32) (e : Events) (buffer : List UInt8) :
    Obeys Locks.sysCall app.lockCounts App.lockCounts (execSysCall app pid e buffer) :=
  sysCall_obeys (app.note _) e buffer

theorem fetch_quiet (app : App) (k : Fin MAX_PCB) : Quiet (app.fetch k) := readEntry_quiet _ _ _

theorem execSlice_obeys (app : App) (k : Fin MAX_PCB) :
    Obeys Locks.execSlice app.lockCounts (fun r => r.2.lockCounts) (execSlice app k) := by
  refine .silent (fetch_quiet app k) fun c _ => ?_
  refine .bind (v := App.lockCounts) ?_ fun app₁ _ => ?_
  · split
    · exact .right (inPcb_obeys app k _)
    · exact .left (.skip rfl)
  refine .bind (v := App.lockCounts) (inCpu_obeys app₁ fun app => ?_) fun app₂ _ => ?_
  · exact .skip rfl
  refine .bind (inPcb_obeys app₂ k _) fun app₃ _ => ?_
  refine .silent (fetch_quiet app₃ k) fun c' _ => ?_
  refine .silent (writeEntry_quiet _ _ _ _) fun app₄ hwrite => ?_
  have hcounts : app₄.lockCounts = app₃.lockCounts := by
    obtain ⟨-, rfl⟩ := writeEntry_eq_ok hwrite
    rfl
  rw [← hcounts]
  refine .bind (v := App.lockCounts) ?_ fun app₅ _ =>
    .silent (fetch_quiet app₅ k) fun _ _ => .cLog rfl
  split
  · refine .right (.under fun n _ => ?_)
    exact (pRealloc_obeys { app₄ with pcb.pcbS := n } k _ _).bind fun _ _ => .post rfl
  · exact .left (.skip rfl)

theorem execDisk_obeys (app : App) (p : Process) (c : Instruction) :
    Obeys (.block [.under Locks.cpuS .skip, Locks.sysCall]) app.lockCounts App.lockCounts
      (execDisk app p c) := by
  refine .silent (rwCount_quiet app p) fun rw _ => ?_
  refine .bind (inCpu_obeys app fun app => ?_) fun app _ => execSysCall_obeys app _ _ _
  exact .skip rfl

/-- The `switch` of `exec_process`. -/
theorem dispatch_obeys (app : App) (k : Fin MAX_PCB) (c : Instruction) :
    Obeys (.alts [Locks.sysCall, Locks.execSlice, .block [.under Locks.cpuS .skip, Locks.sysCall],
      Locks.cLog]) app.lockCounts (fun r => r.2.lockCounts) (dispatch app k c) := by
  have hcall (e : Events) (buffer : List UInt8) :=
    (execSysCall_obeys app (app.pcb.slot k).pid e buffer).last
      (w := fun r => r.2.lockCounts) (f := fun app => (true, app)) fun _ _ => rfl
  unfold dispatch
  cases c.e with
  | semaphoreP => exact .alts (by simp) (hcall _ _)
  | semaphoreV => exact .alts (by simp) (hcall _ _)
  | processExec => exact .alts (by simp) (execSlice_obeys app k)
  | diskRequest => exact .alts (by simp) ((execDisk_obeys app _ c).last fun _ _ => rfl)
  | printRequest => exact .alts (by simp) (hcall _ _)
  | processInterrupt | processCreate | processKill | diskFinish | memLoadReq | memLoadFinish
  | printFinish => exact .alts (p := Locks.cLog) (by simp) (.cLog rfl)

theorem execProcess_obeys (app : App) (k : Fin MAX_PCB) :
    Obeys Locks.execProcess app.lockCounts App.lockCounts (execProcess app k) := by
  unfold execProcess
  dsimp only
  split
  · exact .left (execSysCall_obeys app _ _ _)
  refine .right (.bind (v := App.lockCounts) ?_ fun app₁ _ => ?_)
  · split
    · exact .right (execSysCall_obeys app _ _ _)
    · exact .left (.skip rfl)
  refine .silent (fetch_quiet app₁ k) fun c _ => ?_
  refine (dispatch_obeys (app₁.note _) k c).andSilent ?_ ?_
  · rintro ⟨done, app₂⟩ app' - h
    dsimp only at h
    split at h
    · cases h
      rfl
    · cases h
      rfl
  · rintro ⟨done, app₂⟩
    dsimp only
    split
    · exact .ok
    · exact .ok

-- ---------------------------------------------------------------------------
-- The scheduler
-- ---------------------------------------------------------------------------

theorem forSlots_obeys {α : Type} {p : Prog Sem} {v : α → LockCounts}
    {body : α → Fin MAX_PCB → Except Stop α} (hbody : ∀ a i, Obeys p (v a) v (body a i))
    (last : Nat) (a : α) : Obeys (.loop p) (v a) v (forSlots last a body) := by
  refine .foldlM (fun a i => ?_) a _
  split
  · exact hbody a _
  · exact .stop rfl

theorem schedulerNoRunning_obeys (app : App) :
    Obeys Locks.schedulerNoRunning app.lockCounts App.lockCounts (schedulerNoRunning app) := by
  refine forSlots_obeys (fun app i => .under fun n _ => .log (.post ?_)) _ app
  dsimp only
  split
  · rfl
  · rfl

theorem schedulerKillProcess_obeys (app : App) :
    Obeys Locks.schedulerKillProcess app.lockCounts App.lockCounts (schedulerKillProcess app) := by
  refine forSlots_obeys (fun app i => ?_) _ app
  unfold killBody
  split
  · exact .right (.loopLeave (.under fun n _ => .drop (.skip rfl) (.post rfl)))
  · exact .left (.skip rfl)

theorem getProcessBody_obeys (app : App) (selected : Option (Fin MAX_PCB)) (i : Fin MAX_PCB) :
    Obeys (.under Locks.pcbS .skip) app.lockCounts (fun _ => app.lockCounts)
      (getProcessBody app selected i) := by
  refine .under fun n hn => .drop (.skip rfl) ?_
  have hback := LockCounts.put_back hn
  dsimp only
  split
  · exact .post hback
  split
  · exact .post hback
  refine .silent (rwCount_quiet app _) fun rw _ => .silent (rwCount_quiet app _) fun rwBest _ => ?_
  split
  · exact .post hback
  split
  · exact .post hback
  split
  · exact .post hback
  · exact .post hback

theorem schedulerGetProcess_obeys (app : App) :
    Obeys Locks.schedulerGetProcess app.lockCounts (fun r => r.2.lockCounts)
      (schedulerGetProcess app) := by
  unfold schedulerGetProcess
  split
  · exact .left (.cLog rfl)
  refine .right (.bind (forSlots_obeys (getProcessBody_obeys app) _ none) fun selected _ => ?_)
  split
  · exact .left (.cLog rfl)
  · exact .right ((inPcb_obeys app _ _).last fun _ _ => rfl)

-- ---------------------------------------------------------------------------
-- The loops
-- ---------------------------------------------------------------------------

theorem runSelected_obeys (app : App) (selected : Option (Fin MAX_PCB)) :
    Obeys (.opt (.block [Locks.execProcess, Locks.logProcess])) app.lockCounts App.lockCounts
      (runSelected app selected) := by
  cases selected with
  | none => exact .left (.skip rfl)
  | some k =>
      refine .right ((execProcess_obeys app k).bind fun app _ => ?_)
      exact .silent (logProcess_quiet _ _) fun _ _ => .cLog rfl

theorem createDebug_obeys (app : App) :
    Obeys (.opt Locks.interruptControl) app.lockCounts App.lockCounts (createDebug app) := by
  unfold createDebug
  split
  · split
    · exact .right (interruptControl_obeys app _ _)
    · exact .left (.skip rfl)
  · exact .left (.skip rfl)

theorem cpuTurn_obeys (app : App) :
    Obeys Locks.cpuTurn app.lockCounts App.lockCounts (cpuTurn app) := by
  unfold cpuTurn schedule
  simp only [bind_assoc]
  refine .bind (schedulerNoRunning_obeys
    { app with cpu.quantumTime := app.cpu.quantumTime + 1 }) fun app₁ _ => ?_
  refine .bind (schedulerKillProcess_obeys app₁) fun app₂ _ => ?_
  refine .bind (schedulerGetProcess_obeys app₂) ?_
  rintro ⟨selected, app₃⟩ -
  exact .bind (runSelected_obeys app₃ selected) fun app₄ _ => createDebug_obeys app₄

theorem printerLoopTurn_obeys (app : App) :
    Obeys Locks.printerTurn app.lockCounts App.lockCounts (printerLoopTurn app) := by
  unfold printerLoopTurn printerTurn
  rw [bind_assoc]
  refine .bind (v := App.lockCounts) ?_ fun app₁ _ => ?_
  · split
    · refine .silent (setNode_quiet _ _ _) fun app₂ hnode => ?_
      have hcounts : app₂.lockCounts = app.lockCounts := by
        obtain ⟨-, rfl⟩ := setNode_eq_ok hnode
        rfl
      rw [← hcounts]
      split
      · exact .right ((dealloc_obeys app₂ _).last fun _ _ => rfl)
      · exact .left (.skip rfl)
    · exact .left (.skip rfl)
  · rw [Except.ok_bind_run]
    dsimp only
    split
    · exact .right (interruptControl_obeys app₁ _ _)
    · exact .left (.skip rfl)

theorem closestLoop_quiet (qr : QueueReq) (base : UInt32) (is : List Nat) (minDiff : UInt32)
    (closest : Nat) : Quiet (closestLoop qr base is minDiff closest) := by
  induction is generalizing minDiff closest with
  | nil => exact .ok
  | cons i is ih =>
      refine .bind (queueGet_quiet qr i) fun r => ?_
      dsimp only
      split
      · exact ih _ _
      · exact ih _ _

theorem sortDisk_quiet (qr : QueueReq) (base : UInt32) : Quiet (sortDisk qr base) := by
  refine .bind (queueGet_quiet qr 0) fun first => ?_
  refine .bind (closestLoop_quiet _ _ _ _ _) fun closest => ?_
  split
  · exact .bind (queueGet_quiet _ _) fun r => .bind (queuePut_quiet _ _ _) fun qr =>
      queuePut_quiet _ _ _
  · exact .ok

theorem qRemove_quiet (qr : QueueReq) : Quiet (qRemove qr) := by
  refine .bind (.foldlM (fun qr i => ?_) qr _) fun qr => .bind (queuePut_quiet _ _ _) fun qr => .ok
  exact .bind (queueGet_quiet _ _) fun r => queuePut_quiet _ _ _

theorem execIo_quiet (app : App) : Quiet (execIo app) := by
  refine .bind (queueGet_quiet _ _) fun r => ?_
  split
  · exact .bind (queuePut_quiet _ _ _) fun qr => .ok
  · exact .bind (qRemove_quiet _) fun qr => .ok

theorem execIo_lockCounts {app app' : App} {r : Option UInt32} (h : execIo app = .ok (r, app')) :
    app'.lockCounts = app.lockCounts := by
  obtain ⟨req, -, h⟩ := Except.bind_eq_ok.mp h
  split at h
  · obtain ⟨qr, -, h⟩ := Except.bind_eq_ok.mp h
    cases h
    rfl
  · obtain ⟨qr, -, h⟩ := Except.bind_eq_ok.mp h
    cases h
    rfl

theorem moveHeader_obeys (app : App) (target : UInt32) :
    Obeys Locks.moveHeader app.lockCounts App.lockCounts (moveHeader app target) :=
  .under fun _ _ => .drop (.skip rfl) (.post rfl)

theorem diskLoopTurn_obeys (app : App) :
    Obeys Locks.diskTurn app.lockCounts App.lockCounts (diskLoopTurn app) := by
  unfold diskLoopTurn diskTurn
  rw [bind_assoc]
  refine .silent ?_ fun qr _ => ?_
  · split
    · exact sortDisk_quiet _ _
    · exact .ok
  dsimp only
  split
  · rw [bind_assoc]
    refine .silent (queueGet_quiet _ _) fun r _ => ?_
    split
    · refine .alts (p := .opt Locks.interruptControl) (by simp) ?_
      refine .silent (execIo_quiet _) ?_
      rintro ⟨finished, app₁⟩ hexec
      have hcounts : app₁.lockCounts = app.lockCounts := (execIo_lockCounts hexec).trans rfl
      rw [← hcounts]
      dsimp only
      split
      · exact .left (.skip rfl)
      · exact .right (interruptControl_obeys app₁ _ _)
    · refine .alts (p := Locks.moveHeader) (by simp) ?_
      rw [bind_assoc]
      exact (moveHeader_obeys { app with disk.qr := qr } r.track).last fun _ _ => rfl
  · exact .alts (p := .skip) (by simp) (.skip rfl)

-- ---------------------------------------------------------------------------
-- Runs of the machine
-- ---------------------------------------------------------------------------

/-- The lock program of a turn. -/
def Locks.turn : Turn → Prog Sem
  | .cpu => .opt cpuTurn
  | .disk => .opt diskTurn
  | .printer => .opt printerTurn
  | .create _ => .opt interruptControl
  | .signal => .skip

theorem turn_obeys (app : App) (t : Turn) :
    Obeys (Locks.turn t) app.lockCounts App.lockCounts (app.turn t) := by
  have hopt {p : Prog Sem} {x : Except Stop App} (hx : Obeys p app.lockCounts App.lockCounts x) :
      Obeys (.opt p) app.lockCounts App.lockCounts (if app.loopStop then .ok app else x) := by
    split
    · exact .left (.skip rfl)
    · exact .right hx
  cases t with
  | cpu => exact hopt (cpuTurn_obeys app)
  | disk => exact hopt (diskLoopTurn_obeys app)
  | printer => exact hopt (printerLoopTurn_obeys app)
  | create path => exact hopt (interruptControl_obeys app _ _)
  | signal => exact .skip rfl

theorem Locks.turn_ordered (t : Turn) : (Locks.turn t).held Sem.loose [] = some [] := by
  cases t <;> rfl

/-- No lock is taken. -/
def App.LocksFree (app : App) : Prop := ∀ l, 0 < app.lockCounts.get l

/-- A turn from free locks hangs on none and leaves them free, all but that of the memory
with the count they had. -/
theorem turn_locks {app : App} {t : Turn} (h : app.LocksFree) :
    (∀ app', app.turn t = .ok app' →
      app'.LocksFree ∧ ∀ l, Sem.loose l = false → app'.lockCounts.get l = app.lockCounts.get l) ∧
      ∀ e, app.turn t = .error e → e.hangs = none :=
  (turn_obeys app t).ordered (Locks.turn_ordered t) h

/-- The locks when the loops start: that of the semaphore list is what the pool held. -/
theorem initApp_locks {app app₀ : App} {pool : Bytes.Mem} {memSize : UInt32}
    (h : initApp app pool memSize = .ok app₀) :
    0 < app₀.mem.memoryS ∧ app₀.pcb.pcbS = 1 ∧ app₀.cpu.cpuS = 1 ∧ app₀.disk.diskS = 1 ∧
      app₀.printer.printerS = 1 := by
  obtain ⟨app₁, hsems, h⟩ := Except.bind_eq_ok.mp h
  cases h
  obtain ⟨st, hlist, hst⟩ := Except.bind_eq_ok.mp hsems
  cases hst
  obtain ⟨⟨p, mem⟩, halloc, hlist⟩ := Except.bind_eq_ok.mp hlist
  refine ⟨?_, rfl, rfl, rfl, rfl⟩
  have hmem : 0 < mem.memoryS := by
    let k : LockCounts := ⟨1, 1, 1, 1, 1, 1⟩
    have hobeys := cAlloc_obeys (k := k) (initMem pool memSize) sizeofSemaphoreList
    have hfree (l : Sem) : 0 < (k.mem (initMem pool memSize)).get l := by
      cases l with
      | rendererS => exact Nat.one_pos
      | lock l => cases l <;> exact Nat.one_pos
    have hordered : Locks.cAlloc.held Sem.loose [] = some [] := rfl
    exact ((hobeys.ordered hordered hfree).1 _ halloc).1 Locks.memoryS
  dsimp only at hlist
  split at hlist
  · cases hlist
  · cases hlist
    exact hmem

theorem initApp_locksFree {app app₀ : App} {pool : Bytes.Mem} {memSize : UInt32}
    (hinit : initApp app pool memSize = .ok app₀) (hmutex : 0 < app₀.semaphores.mutex) :
    app₀.LocksFree := by
  obtain ⟨hmem, hpcb, hcpu, hdisk, hprinter⟩ := initApp_locks hinit
  intro l
  cases l with
  | rendererS => exact Nat.one_pos
  | lock l =>
      cases l with
      | memoryS => exact hmem
      | pcbS => exact Nat.lt_of_lt_of_eq Nat.one_pos hpcb.symm
      | cpuS => exact Nat.lt_of_lt_of_eq Nat.one_pos hcpu.symm
      | mutex => exact hmutex
      | diskS => exact Nat.lt_of_lt_of_eq Nat.one_pos hdisk.symm
      | printerS => exact Nat.lt_of_lt_of_eq Nat.one_pos hprinter.symm

/-- If the pool leaves the lock of the semaphore list free, and nothing else is stored over it,
then in every run of the machine, whatever turns the loops take and whatever the user creates, no
turn hangs on a lock, and between the turns every lock is free: the memory's at least once, the others with the
counts they had at the start. -/
theorem machine_locks {app app₀ : App} {pool : Bytes.Mem} {memSize : UInt32} (ts : List Turn)
    (hinit : initApp app pool memSize = .ok app₀) (hmutex : 0 < app₀.semaphores.mutex) :
    (∀ l, Run.run App.turn app₀ ts ≠ .error (.hang l)) ∧
      ∀ app', Run.run App.turn app₀ ts = .ok app' →
        0 < app'.mem.memoryS ∧ app'.pcb.pcbS = 1 ∧ app'.cpu.cpuS = 1 ∧ app'.disk.diskS = 1 ∧
          app'.printer.printerS = 1 ∧ app'.semaphores.mutex = app₀.semaphores.mutex := by
  obtain ⟨-, hpcb, hcpu, hdisk, hprinter⟩ := initApp_locks hinit
  let Inv (app' : App) : Prop := app'.LocksFree ∧
    ∀ l, Sem.loose l = false → app'.lockCounts.get l = app₀.lockCounts.get l
  have hstart : Inv app₀ := ⟨initApp_locksFree hinit hmutex, fun _ _ => rfl⟩
  have hstep {s s' : App} {t : Turn} (hs : Inv s) (ht : s.turn t = .ok s') : Inv s' := by
    obtain ⟨hfree, hsame⟩ := (turn_locks hs.1).1 s' ht
    exact ⟨hfree, fun l hl => (hsame l hl).trans (hs.2 l hl)⟩
  constructor
  · intro l hrun
    have hnone := Run.run_error (P := fun e => e.hangs = none) Inv hstep
      (fun hs he => (turn_locks hs.1).2 _ he) hstart hrun
    cases hnone
  · intro app' hrun
    obtain ⟨hfree, hsame⟩ := Run.run_preserves Inv hstep hstart hrun
    exact ⟨hfree Locks.memoryS, (hsame Locks.pcbS rfl).trans hpcb,
      (hsame Locks.cpuS rfl).trans hcpu, (hsame Locks.diskS rfl).trans hdisk,
      (hsame Locks.printerS rfl).trans hprinter, hsame Locks.mutex rfl⟩

/-- A program takes its semaphore, grows, and gives the semaphore back, in a pool whose bytes
make the lock of the list free. -/
theorem machine_locks_program :
    ∃ app t, initApp
        (App.boot Heap.zero (oneProgram "a 1 1 1\ns\n\nP(s)\nexec 1200\nV(s)\n") false)
        (fun a => if a = 792 then 1 else 0) 65536 = .ok app ∧
      Run.run App.turn app [.create (ascii "a"), .cpu, .cpu, .disk, .cpu, .cpu, .printer] = .ok t ∧
      t.mem.calls.length = 11 ∧ 0 < t.mem.memoryS ∧ t.pcb.pcbS = 1 ∧ t.cpu.cpuS = 1 ∧
      t.disk.diskS = 1 ∧ t.printer.printerS = 1 ∧ t.semaphores.mutex = app.semaphores.mutex := by
  have hrun : (((initApp
      (App.boot Heap.zero (oneProgram "a 1 1 1\ns\n\nP(s)\nexec 1200\nV(s)\n") false)
      (fun a => if a = 792 then 1 else 0) 65536).toOption.bind fun app =>
        (Run.run App.turn app [.create (ascii "a"), .cpu, .cpu, .disk, .cpu, .cpu,
          .printer]).toOption.map fun t =>
            (decide (0 < app.semaphores.mutex), t.mem.calls.length)) = some (true, 11)) := by
    decide +kernel
  obtain ⟨app, hinit, hrun⟩ := Option.bind_eq_some_iff.mp hrun
  obtain ⟨t, ht, hend⟩ := Option.map_eq_some_iff.mp hrun
  obtain ⟨hmutex, hcalls⟩ := Prod.mk.inj hend
  have hinit := Except.toOption_eq_ok.mp hinit
  have ht := Except.toOption_eq_ok.mp ht
  exact ⟨app, t, hinit, ht, hcalls,
    (machine_locks _ hinit (of_decide_eq_true hmutex)).2 t ht⟩

end ChicOS
