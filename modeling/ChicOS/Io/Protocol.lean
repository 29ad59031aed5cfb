-- SUMMARY: The disk protocol: who is blocked, what is queued, and which interrupts are in flight, over all interleavings.
import ChicOS.Cpu.Cpu
import ChicOS.Io.Queue

/-!
# The disk protocol

A running process that requests the disk is blocked and queued in one system
call. The disk loop takes its request out of the queue when it has been served,
and raises `disk_finish`; the interrupt, when it is handled, makes the process
ready. In between, the pid is in exactly one place: in the queue, or with an
interrupt in flight. That is why the queue never holds more entries than there
are processes, which `q_put` does not check.
-/

namespace ChicOS

/-- The simulator, the pids of the `disk_finish` interrupts that have been raised
and not handled, and the history of the pids that requested and that finished. -/
structure DiskRun where
  app : App
  pending : List UInt32
  requests : List UInt32
  finishes : List UInt32

inductive DiskCall where
  /-- The scheduler makes the running process ready and chooses one to run. -/
  | select
  /-- `exec_process` dispatches a disk request. -/
  | request (pid track : UInt32)
  /-- An iteration of `disk_loop`. -/
  | turn
  /-- A `disk_finish` is handled. -/
  | finish (pid : UInt32)

def DiskRun.start (app : App) : DiskRun where
  app := app
  pending := []
  requests := []
  finishes := []

def DiskRun.step (r : DiskRun) : DiskCall → Except Stop DiskRun
  | .select => do
    let app ← schedulerNoRunning r.app
    let (_, app) ← schedulerGetProcess app
    .ok { r with app := app }
  | .request pid track => do
    let app ← sysCall r.app .diskRequest (printPidAnd pid track)
    .ok { r with app := app, requests := r.requests ++ [pid] }
  | .turn => do
    let (finished, app) ← diskTurn r.app
    .ok { r with
      app := app
      pending := r.pending ++ finished.toList
      finishes := r.finishes ++ finished.toList }
  | .finish pid => do
    let app ← interruptControl r.app .diskFinish (printPid pid)
    .ok { r with app := app, pending := r.pending.erase pid }

/-- Requests come from a live process that is running, and name a track there is.
Interrupts that are handled have been raised. -/
def DiskRun.Legal (r : DiskRun) : DiskCall → Prop
  | .request pid track => track ≤ TOTAL_TRACKS ∧ ∃ k : Fin MAX_PCB,
      k.val < r.app.pcb.last.toNat ∧ (r.app.pcb.slot k).pid = pid ∧
      (r.app.pcb.slot k).status = .running
  | .finish pid => pid ∈ r.pending
  | .select | .turn => True

/-- The pids in the queue. -/
def DiskRun.queued (r : DiskRun) : List UInt32 := r.app.disk.qr.ids

/-- The pids whose request is not over: queued, or with an interrupt in flight. -/
def DiskRun.waiting (r : DiskRun) : List UInt32 := r.queued ++ r.pending

/-- Each pid whose request is not over is of one live process, and the live
processes that are blocked are these. -/
structure DiskInv (r : DiskRun) : Prop where
  table : r.app.pcb.LiveTable r.app.pcb.last.toNat
  cpuS : r.app.cpu.cpuS ≠ 0
  pcbS : r.app.pcb.pcbS ≠ 0
  diskS : r.app.disk.diskS ≠ 0
  nodup : r.waiting.Nodup
  live : ∀ pid ∈ r.waiting, pid ∈ r.app.pcb.pids r.app.pcb.last.toNat
  blocked : ∀ k : Fin MAX_PCB, k.val < r.app.pcb.last.toNat →
    ((r.app.pcb.slot k).status = .blocked ↔ (r.app.pcb.slot k).pid ∈ r.waiting)
  conserved : ∀ pid, r.requests.count pid = r.finishes.count pid + r.queued.count pid

namespace DiskInv

variable {r r' : DiskRun}

/-- There are fewer requests than slots, since there are fewer processes. -/
theorem len_lt (h : DiskInv r) : r.app.disk.qr.len.toNat < MAX_PCB := by
  have hsub : r.waiting ⊆ r.app.pcb.pids r.app.pcb.last.toNat := h.live
  have hle := (List.subperm_of_subset h.nodup hsub).length_le
  have hpids := r.app.pcb.length_pids_le r.app.pcb.last.toNat
  have hlt := h.table.lt
  have hqueued : r.queued.length ≤ r.waiting.length := by
    rw [DiskRun.waiting, List.length_append]
    exact Nat.le_add_right _ _
  have hlen : r.queued.length = min r.app.disk.qr.len.toNat MAX_PCB := by
    rw [DiskRun.queued, QueueReq.ids, List.length_map]
    exact Front.length_front_eq_min _
  omega

/-- A pid whose request is not over is found in its slot. -/
theorem find (h : DiskInv r) {pid : UInt32} (hpid : pid ∈ r.waiting) :
    ∃ k : Fin MAX_PCB, k.val < r.app.pcb.last.toNat ∧ (r.app.pcb.slot k).pid = pid ∧
      pFind r.app pid = some k := by
  obtain ⟨k, hk, hkpid⟩ := PCB.mem_pids.mp (h.live pid hpid)
  refine ⟨k, hk, hkpid, ?_⟩
  rw [← hkpid]
  exact h.table.find hk

end DiskInv

/-! ## The calls -/

/-- A request blocks its process and queues it. -/
theorem diskRequest_eq {app : App} {pid track : UInt32} {k : Fin MAX_PCB}
    (hfind : pFind app pid = some k) (htrack : track ≤ TOTAL_TRACKS)
    (hroom : app.disk.qr.len.toNat < MAX_PCB) (hcpu : app.cpu.cpuS ≠ 0)
    (hpcb : app.pcb.pcbS ≠ 0) :
    sysCall app .diskRequest (printPidAnd pid track) = .ok { app with
      pcb := app.pcb.modify k fun p => { p with status := .blocked, timeToRun := 0 }
      disk.qr :=
        { queue := app.disk.qr.queue.set app.disk.qr.len.toNat
            { id := pid, timeToRun := DISK_SLICE, track := track }
          len := app.disk.qr.len + 1 } } := by
  obtain ⟨hpid, htrack'⟩ := scanU_printPidAnd pid track
  have hback : app.cpu.cpuS - 1 + 1 = app.cpu.cpuS := Nat.succ_pred_eq_of_ne_zero hcpu
  have hblock : pBlock { app with cpu.cpuS := app.cpu.cpuS - 1 } pid = .ok _ :=
    pUpdate_eq _ hfind hpcb
  have hput : app.disk.qr.put _ { id := pid, timeToRun := DISK_SLICE, track := track } = .ok _ :=
    QueueReq.put_of_lt _ hroom
  unfold sysCall
  rw [inCpu_eq _ hcpu]
  dsimp only
  rw [hpid, Except.ok_bind_run]
  dsimp only
  rw [htrack', Except.ok_bind_run]
  dsimp only
  rw [hblock, Except.ok_bind_run, simulateIo, if_neg (UInt32.not_lt.mpr htrack), qPut]
  dsimp only
  rw [hput]
  simp only [Except.ok_bind_run, hback]

/-- A `disk_finish` makes its process ready. -/
theorem diskFinish_eq {app : App} {pid : UInt32} {k : Fin MAX_PCB}
    (hfind : pFind app pid = some k) (hcpu : app.cpu.cpuS ≠ 0) (hpcb : app.pcb.pcbS ≠ 0) :
    interruptControl app .diskFinish (printPid pid) = .ok { app with
      pcb := app.pcb.modify k fun p => { p with status := .ready } } := by
  have hback : app.cpu.cpuS - 1 + 1 = app.cpu.cpuS := Nat.succ_pred_eq_of_ne_zero hcpu
  have hunblock : pUnblock { app with cpu.cpuS := app.cpu.cpuS - 1 } pid = .ok _ :=
    pUpdate_eq _ hfind hpcb
  unfold interruptControl
  rw [inCpu_eq _ hcpu]
  dsimp only
  rw [scanU_printPid_end, Except.ok_bind_run]
  dsimp only
  rw [hunblock]
  simp only [Except.ok_bind_run, hback]

/-- What the scheduler keeps: the devices, the locks, the pids, and who is blocked. -/
structure KeepsBlocked (app app' : App) : Prop where
  disk : app'.disk = app.disk
  cpu : app'.cpu = app.cpu
  last : app'.pcb.last = app.pcb.last
  pcbS : app'.pcb.pcbS = app.pcb.pcbS
  pid : ∀ k, (app'.pcb.slot k).pid = (app.pcb.slot k).pid
  blocked : ∀ k, (app'.pcb.slot k).status = .blocked ↔ (app.pcb.slot k).status = .blocked

theorem KeepsBlocked.refl (app : App) : KeepsBlocked app app :=
  ⟨rfl, rfl, rfl, rfl, fun _ => rfl, fun _ => Iff.rfl⟩

theorem KeepsBlocked.trans {app app' app'' : App} (h : KeepsBlocked app app')
    (h' : KeepsBlocked app' app'') : KeepsBlocked app app'' where
  disk := h'.disk.trans h.disk
  cpu := h'.cpu.trans h.cpu
  last := h'.last.trans h.last
  pcbS := h'.pcbS.trans h.pcbS
  pid k := (h'.pid k).trans (h.pid k)
  blocked k := (h'.blocked k).trans (h.blocked k)

/-- A status change between two statuses other than `BLOCKED`. -/
theorem KeepsBlocked.modify {app : App} (i : Fin MAX_PCB) {f : Process → Process}
    (hpid : ∀ p, (f p).pid = p.pid) (hf : ∀ p, (f p).status ≠ .blocked)
    (hi : (app.pcb.slot i).status ≠ .blocked) :
    KeepsBlocked app { app with pcb := app.pcb.modify i f } where
  disk := rfl
  cpu := rfl
  last := rfl
  pcbS := rfl
  pid k := PCB.slot_modify_pid app.pcb i k hpid
  blocked := by
    intro k
    dsimp only
    rw [PCB.slot_modify]
    split
    · rename_i hik
      subst hik
      exact iff_of_false (hf _) hi
    · exact Iff.rfl

theorem select_keepsBlocked {app app₁ app₂ : App} {selected : Option (Fin MAX_PCB)}
    (hready : schedulerNoRunning app = .ok app₁)
    (hget : schedulerGetProcess app₁ = .ok (selected, app₂)) : KeepsBlocked app app₂ := by
  have h₁ : KeepsBlocked app app₁ := by
    refine forSlots_induct (KeepsBlocked app) (fun {a a' k} _ ha hbody => ?_) (.refl app) hready
    rcases noRunningBody_eq_ok hbody with ⟨-, rfl⟩ | ⟨hrunning, rfl⟩
    · exact ha
    · refine ha.trans (.modify k (fun _ => rfl) (fun _ => PStatus.noConfusion) ?_)
      rw [hrunning]
      decide
  rcases schedulerGetProcess_eq_ok hget with ⟨-, rfl⟩ | ⟨k, -, -, hblocked, -, rfl⟩
  · exact h₁
  · exact h₁.trans (.modify k (fun _ => rfl) (fun _ => PStatus.noConfusion) hblocked)

/-! ## What the calls preserve -/

namespace DiskInv

variable {r : DiskRun}

theorem start {app : App} (htable : app.pcb.LiveTable app.pcb.last.toNat)
    (hempty : app.disk.qr.len = 0) (hcpu : app.cpu.cpuS ≠ 0) (hpcb : app.pcb.pcbS ≠ 0)
    (hdisk : app.disk.diskS ≠ 0)
    (hfree : ∀ k : Fin MAX_PCB, k.val < app.pcb.last.toNat →
      (app.pcb.slot k).status ≠ .blocked) : DiskInv (.start app) := by
  have hqueued : (DiskRun.start app).queued = [] := by
    show app.disk.qr.ids = []
    rw [QueueReq.ids, QueueReq.requests, hempty]
    rfl
  have hwaiting : (DiskRun.start app).waiting = [] := by
    rw [DiskRun.waiting, hqueued]
    rfl
  refine ⟨htable, hcpu, hpcb, hdisk, ?_, ?_, ?_, ?_⟩
  · rw [hwaiting]
    exact List.nodup_nil
  · rw [hwaiting]
    exact fun pid hpid => absurd hpid List.not_mem_nil
  · rw [hwaiting]
    exact fun k hk => iff_of_false (hfree k hk) List.not_mem_nil
  · rw [hqueued]
    exact fun pid => rfl

theorem select (h : DiskInv r) {app : App} (hkeep : KeepsBlocked r.app app) :
    DiskInv { r with app := app } := by
  have hqueued : ({ r with app := app } : DiskRun).queued = r.queued := by
    show app.disk.qr.ids = r.app.disk.qr.ids
    rw [hkeep.disk]
  have hwaiting : ({ r with app := app } : DiskRun).waiting = r.waiting :=
    congrArg (· ++ r.pending) hqueued
  have hpids : ∀ pid, pid ∈ app.pcb.pids app.pcb.last.toNat ↔
      pid ∈ r.app.pcb.pids r.app.pcb.last.toNat := by
    intro pid
    rw [PCB.mem_pids, PCB.mem_pids, hkeep.last]
    simp only [hkeep.pid]
  refine ⟨⟨?_, ?_⟩, ?_, ?_, ?_, ?_, ?_, ?_, ?_⟩
  · dsimp only
    rw [hkeep.last]
    exact h.table.lt
  · intro j k hj hk hjk
    dsimp only at hj hk hjk
    rw [hkeep.last] at hj hk
    rw [hkeep.pid, hkeep.pid] at hjk
    exact h.table.distinct hj hk hjk
  · dsimp only
    rw [hkeep.cpu]
    exact h.cpuS
  · dsimp only
    rw [hkeep.pcbS]
    exact h.pcbS
  · dsimp only
    rw [hkeep.disk]
    exact h.diskS
  · rw [hwaiting]
    exact h.nodup
  · rw [hwaiting]
    exact fun pid hpid => (hpids pid).mpr (h.live pid hpid)
  · rw [hwaiting]
    intro k hk
    dsimp only at hk ⊢
    rw [hkeep.last] at hk
    rw [hkeep.blocked, hkeep.pid]
    exact h.blocked k hk
  · rw [hqueued]
    exact h.conserved

/-- The process in one slot changes, and its pid alone enters or leaves the list. -/
theorem modify (h : DiskInv r) {r' : DiskRun} {k : Fin MAX_PCB} {f : Process → Process}
    (hk : k.val < r.app.pcb.last.toNat) (hpid : ∀ p, (f p).pid = p.pid)
    (hpcb : r'.app.pcb = r.app.pcb.modify k f) (hcpu : r'.app.cpu = r.app.cpu)
    (hdisk : r'.app.disk.diskS = r.app.disk.diskS) (hnodup : r'.waiting.Nodup)
    (hothers : ∀ pid, pid ≠ (r.app.pcb.slot k).pid → (pid ∈ r'.waiting ↔ pid ∈ r.waiting))
    (hself : (f (r.app.pcb.slot k)).status = .blocked ↔ (r.app.pcb.slot k).pid ∈ r'.waiting)
    (hconserved : ∀ pid, r'.requests.count pid = r'.finishes.count pid + r'.queued.count pid) :
    DiskInv r' := by
  have hpids : ∀ j, (r'.app.pcb.slot j).pid = (r.app.pcb.slot j).pid := by
    intro j
    rw [hpcb]
    exact PCB.slot_modify_pid r.app.pcb k j hpid
  have hlast : r'.app.pcb.last = r.app.pcb.last := by
    rw [hpcb, PCB.modify_last]
  refine ⟨?_, ?_, ?_, ?_, hnodup, ?_, ?_, hconserved⟩
  · rw [hlast, hpcb]
    exact h.table.modify k hpid
  · rw [hcpu]
    exact h.cpuS
  · rw [hpcb, PCB.modify_pcbS]
    exact h.pcbS
  · rw [hdisk]
    exact h.diskS
  · intro pid hmem
    rw [PCB.mem_pids, hlast]
    simp only [hpids]
    by_cases heq : pid = (r.app.pcb.slot k).pid
    · exact ⟨k, hk, heq.symm⟩
    · exact PCB.mem_pids.mp (h.live pid ((hothers pid heq).mp hmem))
  · intro j hj
    rw [hlast] at hj
    rw [hpids]
    by_cases hjk : j = k
    · subst hjk
      rw [hpcb, PCB.slot_modify_self]
      exact hself
    · have hne : (r.app.pcb.slot j).pid ≠ (r.app.pcb.slot k).pid := by
        intro heq
        exact hjk (h.table.distinct hj hk heq)
      rw [hpcb, PCB.slot_modify_ne _ _ (Ne.symm hjk), hothers _ hne]
      exact h.blocked j hj

/-- A request: its process was running, so its pid was in no place. -/
theorem request (h : DiskInv r) {pid track : UInt32} (hlegal : r.Legal (.request pid track)) :
    ∃ r', r.step (.request pid track) = .ok r' ∧ DiskInv r' := by
  obtain ⟨htrack, k, hk, rfl, hrunning⟩ := hlegal
  have hnew : (r.app.pcb.slot k).pid ∉ r.waiting := by
    intro hmem
    have hblocked := (h.blocked k hk).mpr hmem
    rw [hrunning] at hblocked
    cases hblocked
  have hcall := diskRequest_eq (h.table.find hk) htrack h.len_lt h.cpuS h.pcbS
  dsimp only [DiskRun.step]
  rw [hcall, Except.ok_bind_run]
  refine ⟨_, rfl, ?_⟩
  generalize hr' : ({ r with app := _, requests := _ } : DiskRun) = r'
  have hqueued : r'.queued = r.queued ++ [(r.app.pcb.slot k).pid] := by
    rw [← hr']
    show QueueReq.ids _ = r.app.disk.qr.ids ++ _
    rw [QueueReq.ids, requests_put _ h.len_lt, List.map_append]
    rfl
  have hpending : r'.pending = r.pending := by rw [← hr']
  have hperm : r'.waiting.Perm ((r.app.pcb.slot k).pid :: r.waiting) := by
    rw [DiskRun.waiting, hqueued, hpending, List.append_assoc]
    exact List.perm_middle
  apply h.modify hk (f := fun p => { p with status := .blocked, timeToRun := 0 }) (fun _ => rfl)
  · rw [← hr']
  · rw [← hr']
  · rw [← hr']
  · exact hperm.nodup_iff.mpr (List.nodup_cons.mpr ⟨hnew, h.nodup⟩)
  · intro q hq
    rw [hperm.mem_iff, List.mem_cons]
    exact or_iff_right hq
  · exact iff_of_true rfl (hperm.mem_iff.mpr List.mem_cons_self)
  · intro q
    have hrequests : r'.requests = r.requests ++ [(r.app.pcb.slot k).pid] := by rw [← hr']
    have hfinishes : r'.finishes = r.finishes := by rw [← hr']
    rw [hqueued, hrequests, hfinishes, List.count_append, List.count_append, h.conserved q,
      Nat.add_assoc]

/-- A `disk_finish` is handled: its pid leaves the interrupts in flight. -/
theorem finish (h : DiskInv r) {pid : UInt32} (hlegal : r.Legal (.finish pid)) :
    ∃ r', r.step (.finish pid) = .ok r' ∧ DiskInv r' := by
  obtain ⟨k, hk, hkpid, hfind⟩ := h.find (List.mem_append_right _ hlegal)
  have hcall := diskFinish_eq hfind h.cpuS h.pcbS
  dsimp only [DiskRun.step]
  rw [hcall, Except.ok_bind_run]
  refine ⟨_, rfl, ?_⟩
  generalize hr' : ({ r with app := _, pending := _ } : DiskRun) = r'
  have hqueued : r'.queued = r.queued := by
    rw [← hr']
    rfl
  have hpending : r'.pending = r.pending.erase pid := by rw [← hr']
  have hperm : (pid :: r'.waiting).Perm r.waiting := by
    rw [DiskRun.waiting, DiskRun.waiting, hqueued, hpending]
    exact List.perm_middle.symm.trans ((List.perm_cons_erase hlegal).symm.append_left _)
  have hcons := hperm.nodup_iff.mpr h.nodup
  obtain ⟨hgone, hnodup⟩ := List.nodup_cons.mp hcons
  apply h.modify hk (f := fun p => { p with status := .ready }) (fun _ => rfl)
  · rw [← hr']
  · rw [← hr']
  · rw [← hr']
  · exact hnodup
  · intro q hq
    rw [hkpid] at hq
    rw [← hperm.mem_iff, List.mem_cons]
    exact (or_iff_right hq).symm
  · rw [hkpid]
    exact iff_of_false PStatus.noConfusion hgone
  · intro q
    have hrequests : r'.requests = r.requests := by rw [← hr']
    have hfinishes : r'.finishes = r.finishes := by rw [← hr']
    rw [hqueued, hrequests, hfinishes]
    exact h.conserved q

/-- The disk moves pids about, from the queue to the interrupts in flight. -/
theorem disk (h : DiskInv r) {r' : DiskRun} (hpcb : r'.app.pcb = r.app.pcb)
    (hcpu : r'.app.cpu = r.app.cpu) (hdisk : r'.app.disk.diskS = r.app.disk.diskS)
    (hperm : r'.waiting.Perm r.waiting)
    (hconserved : ∀ pid, r'.requests.count pid = r'.finishes.count pid + r'.queued.count pid) :
    DiskInv r' := by
  refine ⟨?_, ?_, ?_, ?_, hperm.nodup_iff.mpr h.nodup, ?_, ?_, hconserved⟩
  · rw [hpcb]
    exact h.table
  · rw [hcpu]
    exact h.cpuS
  · rw [hpcb]
    exact h.pcbS
  · rw [hdisk]
    exact h.diskS
  · intro pid hpid
    rw [hpcb]
    exact h.live pid (hperm.mem_iff.mp hpid)
  · intro k hk
    rw [hpcb] at hk ⊢
    rw [hperm.mem_iff]
    exact h.blocked k hk

end DiskInv

/-! ## Turns of the disk loop -/

/-- The time that requests still take, and one millisecond for each to finish. -/
def work (queue : List IoReq) : Nat := (queue.map fun q => q.timeToRun.toNat + 1).sum

theorem work_perm {queue queue' : List IoReq} (h : queue.Perm queue') : work queue = work queue' :=
  (h.map _).sum_eq

@[simp] theorem work_cons (q : IoReq) (queue : List IoReq) :
    work (q :: queue) = q.timeToRun.toNat + 1 + work queue := by
  simp [work]

def DiskRun.queue (r : DiskRun) : List IoReq := r.app.disk.qr.requests

theorem DiskRun.queue_eq_nil {r : DiskRun} (h : r.app.disk.qr.len.toNat = 0) : r.queue = [] := by
  rw [DiskRun.queue, QueueReq.requests, h]
  rfl

theorem DiskRun.turn_nil {r : DiskRun} (hempty : r.app.disk.qr.len.toNat = 0) :
    r.step .turn = .ok r := by
  dsimp only [DiskRun.step]
  rw [diskTurn_nil hempty, Except.ok_bind_run]
  simp

/-- A turn keeps the invariant if it takes what it finishes out of the queue. -/
theorem DiskInv.turned {r : DiskRun} (h : DiskInv r) {disk : Disk} {finished : Option UInt32}
    (hlock : disk.diskS = r.app.disk.diskS)
    (hperm : (finished.toList ++ disk.qr.ids).Perm r.queued) :
    DiskInv
      { app := { r.app with disk := disk }
        pending := r.pending ++ finished.toList
        requests := r.requests
        finishes := r.finishes ++ finished.toList } := by
  refine h.disk rfl rfl hlock ?_ ?_
  · show (disk.qr.ids ++ (r.pending ++ finished.toList)).Perm (r.queued ++ r.pending)
    have hmove : (disk.qr.ids ++ (r.pending ++ finished.toList)).Perm
        (finished.toList ++ disk.qr.ids ++ r.pending) := by
      rw [← List.append_assoc, List.append_assoc finished.toList]
      exact List.perm_append_comm
    exact hmove.trans (hperm.append_right _)
  · intro pid
    have hcount := hperm.count_eq pid
    rw [List.count_append] at hcount
    show r.requests.count pid = (r.finishes ++ finished.toList).count pid + disk.qr.ids.count pid
    rw [List.count_append, h.conserved, ← hcount, Nat.add_assoc]

/-- The distance from the head to a closest request. -/
def DiskRun.gap (r : DiskRun) : Nat :=
  (r.queue.map fun q => trackDist r.app.disk.currentTrack q.track).min?.getD 0

theorem DiskRun.gap_eq {r : DiskRun} {q : IoReq} (hq : q ∈ r.queue)
    (hclosest : ∀ p ∈ r.queue, trackDist r.app.disk.currentTrack q.track
      ≤ trackDist r.app.disk.currentTrack p.track) :
    r.gap = trackDist r.app.disk.currentTrack q.track := by
  have hmin : (r.queue.map fun q => trackDist r.app.disk.currentTrack q.track).min?
      = some (trackDist r.app.disk.currentTrack q.track) := by
    rw [List.min?_eq_some_iff]
    refine ⟨List.mem_map_of_mem hq, ?_⟩
    intro d hd
    obtain ⟨p, hp, rfl⟩ := List.mem_map.mp hd
    exact hclosest p hp
  rw [DiskRun.gap, hmin, Option.getD_some]

theorem DiskRun.gap_le {r : DiskRun} {q : IoReq} (hq : q ∈ r.queue) :
    r.gap ≤ trackDist r.app.disk.currentTrack q.track := by
  have hmem := List.mem_map_of_mem (f := fun q => trackDist r.app.disk.currentTrack q.track) hq
  cases hmin : (r.queue.map fun q => trackDist r.app.disk.currentTrack q.track).min? with
  | none =>
      rw [List.min?_eq_none_iff.mp hmin] at hmem
      cases hmem
  | some d =>
      rw [DiskRun.gap, hmin, Option.getD_some]
      exact (List.min?_eq_some_iff.mp hmin).2 _ hmem

/-- A turn with something queued keeps the invariant, and either takes a
millisecond off the work or brings the head closer to a closest request. -/
theorem DiskInv.turn_cons {r : DiskRun} (h : DiskInv r) (hpos : 0 < r.app.disk.qr.len.toNat) :
    ∃ r', r.step .turn = .ok r' ∧ DiskInv r' ∧ r'.requests = r.requests ∧
      (work r'.queue < work r.queue ∨ work r'.queue = work r.queue ∧ r'.gap < r.gap) := by
  obtain ⟨q, rest, disk, finished, hturn, hperm, hclosest, -, hlock, hstep⟩ :=
    diskTurn_cons hpos h.len_lt.le h.diskS
  dsimp only [DiskRun.step]
  rw [hturn, Except.ok_bind_run]
  refine ⟨_, rfl, h.turned hlock ?_, rfl, ?_⟩
  · have hids : (q.id :: rest.map (·.id)).Perm r.queued := hperm.map IoReq.id
    unfold QueueReq.ids
    cases hstep with
    | seek hqueue | serve _ _ hqueue | finish _ _ hqueue =>
        rw [hqueue]
        exact hids
  · have hwork : work (q :: rest) = work r.queue := work_perm hperm
    rw [work_cons] at hwork
    show work disk.qr.requests < _ ∨ work disk.qr.requests = _ ∧ _
    cases hstep with
    | seek hqueue hcloser =>
        refine .inr ⟨by rw [hqueue, work_cons, hwork], ?_⟩
        have hq : q ∈ disk.qr.requests := by
          rw [hqueue]
          exact List.mem_cons_self
        rw [DiskRun.gap_eq (hperm.mem_iff.mp List.mem_cons_self) hclosest]
        exact Nat.lt_of_le_of_lt (DiskRun.gap_le hq) hcloser
    | serve _ htime hqueue =>
        have hpos : 0 < q.timeToRun.toNat := UInt32.lt_iff_toNat_lt.mp htime
        have hone : (1 : UInt32) ≤ q.timeToRun := UInt32.le_iff_toNat_le.mpr hpos
        have hdec : (q.timeToRun - 1).toNat = q.timeToRun.toNat - 1 :=
          UInt32.toNat_sub_of_le _ _ hone
        left
        rw [hqueue, work_cons, hdec]
        omega
    | finish _ _ hqueue =>
        left
        rw [hqueue]
        omega

/-- With no further requests the disk loop serves everything that is queued: each
turn takes work off, or brings the head closer. -/
theorem DiskInv.drains {r : DiskRun} (h : DiskInv r) :
    ∃ n t, Run.run DiskRun.step r (List.replicate n .turn) = .ok t ∧
      (DiskInv t ∧ t.requests = r.requests) ∧ t.queue = [] := by
  refine Run.run_until (fun t => (work t.queue, t.gap))
    (fun t => DiskInv t ∧ t.requests = r.requests) (fun t => t.queue = []) DiskCall.turn ?_ ⟨h, rfl⟩
  rintro s ⟨hs, hrequests⟩ hne
  have hpos : 0 < s.app.disk.qr.len.toNat := by
    rw [Nat.pos_iff_ne_zero]
    exact fun hempty => hne (DiskRun.queue_eq_nil hempty)
  obtain ⟨s', hstep, hinv, hsame, hlt | ⟨heq, hlt⟩⟩ := hs.turn_cons hpos
  · exact ⟨s', hstep, ⟨hinv, hsame.trans hrequests⟩, Prod.Lex.left _ _ hlt⟩
  · refine ⟨s', hstep, ⟨hinv, hsame.trans hrequests⟩, ?_⟩
    show Prod.Lex _ _ (work s'.queue, s'.gap) (work s.queue, s.gap)
    rw [heq]
    exact Prod.Lex.right _ hlt

/-! ## Runs -/

/-- What holds of every state of the protocol. -/
structure DiskOk (r : DiskRun) : Prop where
  /-- A live process is blocked when its pid is in the queue once, or its interrupt
  is in flight, and not both. -/
  blocked : ∀ k : Fin MAX_PCB, k.val < r.app.pcb.last.toNat →
    ((r.app.pcb.slot k).status = .blocked ↔
      Xor (r.queued.count (r.app.pcb.slot k).pid = 1) (r.pending.count (r.app.pcb.slot k).pid = 1))
  nodup : r.queued.Nodup
  /-- Every request is queued, or has raised one interrupt with its pid. -/
  conserved : ∀ pid, r.requests.count pid = r.finishes.count pid + r.queued.count pid
  /-- Served by the disk loop, every request raises its interrupt. -/
  served : ∃ n t, Run.run DiskRun.step r (List.replicate n .turn) = .ok t ∧
    ∀ pid, r.requests.count pid = t.finishes.count pid
  room : ∀ pid track, r.Legal (.request pid track) → r.app.disk.qr.len.toNat < MAX_PCB
  /-- Requests, iterations and interrupts return. -/
  returns : ∀ c, c ≠ .select → r.Legal c → ∃ r', r.step c = .ok r'

theorem count_eq_one_iff_mem {l : List UInt32} (h : l.Nodup) {a : UInt32} :
    l.count a = 1 ↔ a ∈ l := by
  constructor
  · intro hone
    apply List.count_pos_iff.mp
    rw [hone]
    exact Nat.one_pos
  · exact List.count_eq_one_of_mem h

theorem DiskInv.step {r r' : DiskRun} {c : DiskCall} (h : DiskInv r) (hlegal : r.Legal c)
    (hok : r.step c = .ok r') : DiskInv r' := by
  cases c with
  | select =>
      obtain ⟨app₁, hready, hok⟩ := Except.bind_eq_ok.mp hok
      obtain ⟨⟨selected, app₂⟩, hget, hok⟩ := Except.bind_eq_ok.mp hok
      cases hok
      exact h.select (select_keepsBlocked hready hget)
  | request pid track =>
      obtain ⟨r₁, hr₁, hinv⟩ := h.request hlegal
      cases hr₁.symm.trans hok
      exact hinv
  | turn =>
      by_cases hempty : r.app.disk.qr.len.toNat = 0
      · cases (DiskRun.turn_nil hempty).symm.trans hok
        exact h
      · obtain ⟨r₁, hr₁, hinv, -⟩ := h.turn_cons (Nat.pos_iff_ne_zero.mpr hempty)
        cases hr₁.symm.trans hok
        exact hinv
  | finish pid =>
      obtain ⟨r₁, hr₁, hinv⟩ := h.finish hlegal
      cases hr₁.symm.trans hok
      exact hinv

theorem DiskInv.returns {r : DiskRun} {c : DiskCall} (h : DiskInv r) (hc : c ≠ .select)
    (hlegal : r.Legal c) : ∃ r', r.step c = .ok r' := by
  cases c with
  | select => exact absurd rfl hc
  | request pid track =>
      obtain ⟨r', hr', -⟩ := h.request hlegal
      exact ⟨r', hr'⟩
  | turn =>
      by_cases hempty : r.app.disk.qr.len.toNat = 0
      · exact ⟨r, DiskRun.turn_nil hempty⟩
      · obtain ⟨r', hr', -⟩ := h.turn_cons (Nat.pos_iff_ne_zero.mpr hempty)
        exact ⟨r', hr'⟩
  | finish pid =>
      obtain ⟨r', hr', -⟩ := h.finish hlegal
      exact ⟨r', hr'⟩

theorem DiskInv.diskOk {r : DiskRun} (h : DiskInv r) : DiskOk r := by
  obtain ⟨hqueued, hpending, hdisjoint⟩ := List.nodup_append.mp h.nodup
  refine ⟨?_, hqueued, h.conserved, ?_, fun _ _ _ => h.len_lt, fun c hc hl => h.returns hc hl⟩
  · intro k hk
    rw [h.blocked k hk, count_eq_one_iff_mem hqueued, count_eq_one_iff_mem hpending,
      DiskRun.waiting, List.mem_append]
    constructor
    · rintro (hq | hp)
      · exact .inl ⟨hq, fun hp => hdisjoint _ hq _ hp rfl⟩
      · exact .inr ⟨hp, fun hq => hdisjoint _ hq _ hp rfl⟩
    · rintro (⟨hq, -⟩ | ⟨hp, -⟩)
      · exact .inl hq
      · exact .inr hp
  · obtain ⟨n, t, hrun, ⟨ht, hrequests⟩, hempty⟩ := h.drains
    refine ⟨n, t, hrun, fun pid => ?_⟩
    have hcount := ht.conserved pid
    have hqueued : t.queued = [] := by
      rw [DiskRun.queued, QueueReq.ids, ← DiskRun.queue, hempty]
      rfl
    rw [hqueued, List.count_nil, hrequests] at hcount
    exact hcount

/-- In every interleaving of requests of running processes, iterations of the disk
loop and interrupts, from an empty queue, with fewer processes than slots. -/
theorem disk_protocol (app : App) (calls : List DiskCall) {r : DiskRun}
    (htable : app.pcb.LiveTable app.pcb.last.toNat) (hempty : app.disk.qr.len = 0)
    (hfree : ∀ k : Fin MAX_PCB, k.val < app.pcb.last.toNat → (app.pcb.slot k).status ≠ .blocked)
    (hcpu : app.cpu.cpuS = 1) (hpcb : app.pcb.pcbS = 1) (hdisk : app.disk.diskS = 1)
    (hlegal : Run.Meets DiskRun.step DiskRun.Legal (.start app) calls)
    (hrun : Run.run DiskRun.step (.start app) calls = .ok r) : DiskOk r := by
  have hstart : DiskInv (.start app) := by
    apply DiskInv.start htable hempty _ _ _ hfree
    · rw [hcpu]; exact Nat.one_ne_zero
    · rw [hpcb]; exact Nat.one_ne_zero
    · rw [hdisk]; exact Nat.one_ne_zero
  exact (Run.run_invariant DiskInv DiskInv.step hstart hlegal hrun).diskOk

/-- Two processes, both runnable, and the devices after `init_app`. -/
def App.twoProcesses : App :=
  { App.zero Heap.zero fun _ => none with
    pcb := { initPcb PCB.two with last := 2 }
    cpu := { quantumTime := 0, cpuS := 1 }
    disk :=
      { qr := { queue := Vector.replicate MAX_PCB IoReq.zero, len := 0 }
        diskS := 1
        currentTrack := 0 } }

instance (r : DiskRun) : (c : DiskCall) → Decidable (r.Legal c)
  | .request pid track => inferInstanceAs (Decidable (track ≤ TOTAL_TRACKS ∧ ∃ k : Fin MAX_PCB,
      k.val < r.app.pcb.last.toNat ∧ (r.app.pcb.slot k).pid = pid ∧
      (r.app.pcb.slot k).status = .running))
  | .finish pid => inferInstanceAs (Decidable (pid ∈ r.pending))
  | .select => inferInstanceAs (Decidable True)
  | .turn => inferInstanceAs (Decidable True)

theorem disk_protocol_two :
    ∃ r, Run.run DiskRun.step (.start App.twoProcesses)
        [.request 0 7, .request 1 3, .turn] = .ok r ∧ r.queued = [1, 0] ∧ DiskOk r := by
  have hrun : ((Run.runChecked DiskRun.step DiskRun.Legal (.start App.twoProcesses)
      [.request 0 7, .request 1 3, .turn]).map DiskRun.queued) = some [1, 0] := by
    decide +kernel
  obtain ⟨r, hr, hqueued⟩ := Option.map_eq_some_iff.mp hrun
  obtain ⟨hlegal, hrun⟩ := Run.runChecked_eq_some hr
  have htable : App.twoProcesses.pcb.LiveTable App.twoProcesses.pcb.last.toNat := by
    refine ⟨by decide, ?_⟩
    decide +kernel
  exact ⟨r, hrun, hqueued, disk_protocol App.twoProcesses _ htable rfl (by decide +kernel) rfl rfl
    rfl hlegal hrun⟩

end ChicOS
