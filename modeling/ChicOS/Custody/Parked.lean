-- SUMMARY: Parked processes: the pids queued at the disk and at the semaphores, and that each is parked once.
import ChicOS.Custody.Slots
import ChicOS.Io.Queue
import ChicOS.Semaphore.Waiters

/-!
# Parked processes

A process that cannot go on leaves its pid in the queue of the disk or in the ring
of a semaphore, and is made ready when the pid is taken from there. `Parks` says
that no pid is queued twice, and that each belongs to a used slot whose process is
blocked or waiting: taking one out never wakes a dead process.

Entries of the semaphore list that have not been registered have no name, and
their rings are whatever the pool held.
-/

namespace ChicOS

/-! ## The pids that are queued -/

/-- The pids waiting at an entry of the list. -/
def Semaphore.parked (sem : Semaphore) : List UInt32 := if sem.name = 0 then [] else sem.queue

namespace SemaphoreList

/-- The pids waiting at a semaphore. -/
def parked (sl : SemaphoreList) : List UInt32 := Cells.held Semaphore.parked sl.l

/-- The rings of the registered semaphores are in order. -/
def InRing (sl : SemaphoreList) : Prop :=
  ∀ i : Fin MAX_SIZE_SEMAPHORES, (sl.entry i).name ≠ 0 → (sl.entry i).InRing

end SemaphoreList

def App.parked (app : App) : List UInt32 := app.disk.qr.ids ++ app.semaphores.parked

namespace PCB

/-- The pids are of parked processes, each once. -/
structure Parks (pcb : PCB) (pids : List UInt32) : Prop where
  nodup : pids.Nodup
  parked : ∀ pid ∈ pids, ∃ k, (pcb.slot k).fb ≠ 0 ∧ (pcb.slot k).pid = pid ∧ (pcb.slot k).Parked

namespace Parks

variable {pcb pcb' : PCB} {pids pids' : List UInt32} {pid : UInt32} {i : Fin MAX_PCB}
  {f : Process → Process}

theorem subperm (h : pcb.Parks pids) (hs : pids'.Subperm pids) : pcb.Parks pids' := by
  refine ⟨?_, fun pid hpid => h.parked pid (hs.subset hpid)⟩
  obtain ⟨l, hperm, hsub⟩ := hs
  exact hperm.nodup_iff.mp (h.nodup.sublist hsub)

theorem perm (h : pcb.Parks pids) (hp : pids'.Perm pids) : pcb.Parks pids' := h.subperm hp.subperm

theorem of_slots (h : pcb.Parks pids) (hslot : ∀ k, pcb'.slot k = pcb.slot k) :
    pcb'.Parks pids := by
  refine ⟨h.nodup, fun pid hpid => ?_⟩
  obtain ⟨k, hk⟩ := h.parked pid hpid
  exact ⟨k, by rw [hslot]; exact hk⟩

/-- A change of one slot that does not unpark its process. -/
theorem modify (h : pcb.Parks pids) (hpid : (f (pcb.slot i)).pid = (pcb.slot i).pid)
    (hfb : (f (pcb.slot i)).fb = (pcb.slot i).fb)
    (hparked : (pcb.slot i).Parked → (f (pcb.slot i)).Parked) : (pcb.modify i f).Parks pids := by
  refine ⟨h.nodup, fun pid hmem => ?_⟩
  obtain ⟨k, hused, rfl, hk⟩ := h.parked pid hmem
  refine ⟨k, ?_⟩
  rw [slot_modify]
  split
  · rename_i hik
    subst hik
    exact ⟨by rw [hfb]; exact hused, hpid, hparked hk⟩
  · exact ⟨hused, rfl, hk⟩

/-- A process that is not parked has no pid queued. -/
theorem not_mem (h : pcb.Parks pids) (hs : pcb.Shape) (hi : (pcb.slot i).fb ≠ 0)
    (hnot : ¬ (pcb.slot i).Parked) : (pcb.slot i).pid ∉ pids := by
  intro hmem
  obtain ⟨k, hused, hpid, hk⟩ := h.parked _ hmem
  rw [hs.eq_of_pid hused hi hpid] at hk
  exact hnot hk

/-- A process parks, and queues its pid. -/
theorem park (h : pcb.Parks pids) (hs : pcb.Shape) (hi : (pcb.slot i).fb ≠ 0)
    (hnot : ¬ (pcb.slot i).Parked) (hpid : (f (pcb.slot i)).pid = (pcb.slot i).pid)
    (hfb : (f (pcb.slot i)).fb = (pcb.slot i).fb) (hf : (f (pcb.slot i)).Parked) :
    (pcb.modify i f).Parks ((pcb.slot i).pid :: pids) := by
  have hkeep := h.modify (i := i) (f := f) hpid hfb fun _ => hf
  refine ⟨List.nodup_cons.mpr ⟨h.not_mem hs hi hnot, h.nodup⟩, fun pid hmem => ?_⟩
  rcases List.mem_cons.mp hmem with rfl | hold
  · refine ⟨i, ?_⟩
    rw [slot_modify_self]
    exact ⟨by rw [hfb]; exact hi, hpid, hf⟩
  · exact hkeep.parked pid hold

/-- The slot of a queued pid holds a parked process. -/
theorem find (h : pcb.Parks pids) (hs : pcb.Shape) (hmem : pid ∈ pids)
    (hfind : pcb.find pid = some i) : (pcb.slot i).fb ≠ 0 ∧ (pcb.slot i).Parked := by
  obtain ⟨k, hused, rfl, hk⟩ := h.parked pid hmem
  rw [hs.find hused] at hfind
  cases hfind
  exact ⟨hused, hk⟩

/-- A process whose pid has been taken out is free to go on. -/
theorem wake (h : pcb.Parks (pid :: pids)) (hfind : pcb.find pid = some i) :
    (pcb.modify i f).Parks pids := by
  obtain ⟨hnew, hnodup⟩ := List.nodup_cons.mp h.nodup
  refine ⟨hnodup, fun q hq => ?_⟩
  obtain ⟨k, hused, rfl, hk⟩ := h.parked q (List.mem_cons_of_mem pid hq)
  refine ⟨k, ?_⟩
  have hik : i ≠ k := by
    rintro rfl
    rw [find_eq_some hfind] at hq
    exact hnew hq
  rw [slot_modify_ne _ _ hik]
  exact ⟨hused, rfl, hk⟩

/-- A new process takes a slot in which none is parked. -/
theorem enter (h : pcb.Parks pids) (hs : pcb.Shape) (p : Process)
    (hcurr : pcb.curr.toNat < MAX_PCB) : (pcb.enter p hcurr).Parks pids := by
  refine ⟨h.nodup, fun pid hmem => ?_⟩
  obtain ⟨k, hused, hpid, hk⟩ := h.parked pid hmem
  refine ⟨k, ?_⟩
  rw [slot_enter, if_neg (Nat.ne_of_gt (hs.lt_of_used hused))]
  exact ⟨hused, hpid, hk⟩

/-- Reaping a process that is not parked. -/
theorem shift (h : pcb.Parks pids) (hi : ¬ (pcb.slot i).Parked) : (pcb.shift i).Parks pids := by
  refine ⟨h.nodup, fun pid hmem => ?_⟩
  obtain ⟨k, hused, hpid, hk⟩ := h.parked pid hmem
  have hik : i ≠ k := by
    rintro rfl
    exact hi hk
  obtain ⟨j, hj⟩ := exists_shiftFrom hik
  refine ⟨j, ?_⟩
  rw [slot_shift_from, hj]
  exact ⟨hused, hpid, hk⟩

end Parks

end PCB

/-! ## The semaphores -/

/-- A push leaves a ring in order, and queues the pid or drops it. -/
theorem waiterPush_parked {sem sem' : Semaphore} {pid : UInt32} (h : sem.InRing)
    (hname : sem.name ≠ 0) (hok : waiterPush sem pid = .ok sem') :
    sem'.InRing ∧ sem'.parked.Subperm (pid :: sem.parked) := by
  by_cases hfull : (sem.tail.toNat + 1) % DEFAULT_WAITERS_NUM = sem.head.toNat
  · rw [waiterPush, if_pos hfull] at hok
    cases hok
    exact ⟨h, (List.sublist_cons_self _ _).subperm⟩
  · have hroom : sem.queue.length + 1 < DEFAULT_WAITERS_NUM := by
      have hsize := mt (Ring.full_iff h.head h.tail).mpr hfull
      have hlt := Ring.size_lt h.head sem.tail.toNat
      rw [Semaphore.queue, Ring.length_contents]
      omega
    obtain ⟨hring, hqueue, -⟩ := waiterPush_queue sem h hroom hok
    have hname' : sem'.name = sem.name := by
      rw [waiterPush, if_neg hfull] at hok
      split at hok
      · cases hok
      · cases hok
        rfl
    refine ⟨hring, ?_⟩
    rw [Semaphore.parked, Semaphore.parked, hname', if_neg hname, if_neg hname, hqueue]
    exact (List.perm_append_singleton pid sem.queue).subperm

/-- A pop from a ring that somebody waits in takes a pid out. -/
theorem waiterPop_parked {sem sem' : Semaphore} {pid : UInt32} (h : sem.InRing)
    (hname : sem.name ≠ 0) (hpos : 0 < getWaitersSize sem) (hok : waiterPop sem = .ok (pid, sem')) :
    sem'.InRing ∧ sem.parked = pid :: sem'.parked := by
  have hne : sem.queue ≠ [] := by
    intro hnil
    have hsize := getWaitersSize_toNat h
    rw [hnil] at hsize
    exact absurd hpos (by rw [UInt32.lt_iff_toNat_lt, hsize]; decide)
  obtain ⟨hring, hqueue, -⟩ := waiterPop_queue sem h hne hok
  have hname' : sem'.name = sem.name := by
    unfold waiterPop at hok
    split at hok
    · cases hok
      rfl
    · split at hok
      · cases hok
      · cases hok
        rfl
  refine ⟨hring, ?_⟩
  rw [Semaphore.parked, Semaphore.parked, hname', if_neg hname, if_neg hname, hqueue]

namespace SemaphoreList

variable {sl : SemaphoreList} {i : Fin MAX_SIZE_SEMAPHORES} {sem : Semaphore}

theorem InRing.setEntry (h : sl.InRing) (i : Fin MAX_SIZE_SEMAPHORES) (hsem : sem.InRing) :
    (sl.setEntry i sem).InRing := by
  intro j hj
  have hget : ((sl.setEntry i sem).entry j) = if i.val = j.val then sem else (sl.entry j) := by
    simp [SemaphoreList.setEntry, SemaphoreList.entry, Vector.getElem_set]
  rw [hget] at hj ⊢
  split at hj
  · rw [if_pos ‹_›]
    exact hsem
  · rw [if_neg ‹_›]
    exact h j hj

/-- The pids waiting at the other entries. -/
def parkedBut (sl : SemaphoreList) (i : Fin MAX_SIZE_SEMAPHORES) : List UInt32 :=
  Cells.others Semaphore.parked sl.l i.val

theorem parked_perm (sl : SemaphoreList) (i : Fin MAX_SIZE_SEMAPHORES) :
    sl.parked.Perm ((sl.entry i).parked ++ sl.parkedBut i) := Cells.held_perm sl.l i.isLt

theorem parked_setEntry (sl : SemaphoreList) (i : Fin MAX_SIZE_SEMAPHORES) (sem : Semaphore) :
    (sl.setEntry i sem).parked.Perm (sem.parked ++ sl.parkedBut i) :=
  Cells.held_set_perm sl.l i.isLt sem

/-- An entry where the same pids wait. -/
theorem parked_setEntry_of_eq (hsem : sem.parked = (sl.entry i).parked) :
    (sl.setEntry i sem).parked.Perm sl.parked := Cells.held_set_of_eq sl.l i.isLt hsem

/-- An entry where one more pid may wait. -/
theorem parked_setEntry_push {pid : UInt32} (hsem : sem.parked.Subperm (pid :: (sl.entry i).parked)) :
    (sl.setEntry i sem).parked.Subperm (pid :: sl.parked) := by
  have hother : (sem.parked ++ sl.parkedBut i).Subperm
      (pid :: ((sl.entry i).parked ++ sl.parkedBut i)) :=
    hsem.append (List.Subperm.refl _)
  exact (sl.parked_setEntry i sem).subperm.trans
    (hother.trans ((sl.parked_perm i).symm.cons pid).subperm)

/-- An entry where one pid less waits. -/
theorem parked_setEntry_pop {pid : UInt32} (hsem : (sl.entry i).parked = pid :: sem.parked) :
    (pid :: (sl.setEntry i sem).parked).Perm sl.parked := by
  have hall := sl.parked_perm i
  rw [hsem] at hall
  exact ((sl.parked_setEntry i sem).cons pid).trans hall.symm

end SemaphoreList

/-- A P on a registered semaphore takes a unit, or parks the process it is given. -/
theorem semaphoreP_parked {app app' : App} {i : Fin MAX_SIZE_SEMAPHORES} {pid : UInt32}
    (h : app.semaphores.InRing) (hname : (app.semaphores.entry i).name ≠ 0)
    (hok : semaphoreP app (some i) pid = .ok app') :
    ∃ sl : SemaphoreList, sl.InRing ∧
      ((app' = { app with semaphores := sl } ∧ sl.parked.Perm app.semaphores.parked) ∨
      ((app.semaphores.entry i).value - 1 < 0 ∧ ∃ k, pFind app pid = some k ∧
        app' = { app with
          semaphores := sl
          pcb := app.pcb.modify k fun p => { p with status := .waiting, timeToRun := 0 } } ∧
        sl.parked.Subperm (pid :: app.semaphores.parked))) := by
  have hring : Semaphore.InRing
      { (app.semaphores.entry i) with value := (app.semaphores.entry i).value - 1 } :=
    ⟨(h i hname).head, (h i hname).tail⟩
  rcases semaphoreP_eq_ok hok with ⟨-, rfl⟩ | ⟨hneg, sem, k, hpush, hfind, rfl⟩
  · refine ⟨_, h.setEntry i hring, .inl ⟨rfl, ?_⟩⟩
    exact SemaphoreList.parked_setEntry_of_eq rfl
  · obtain ⟨hring', hsub⟩ := waiterPush_parked hring hname hpush
    refine ⟨_, h.setEntry i hring', .inr ⟨hneg, k, hfind, rfl, ?_⟩⟩
    exact SemaphoreList.parked_setEntry_push hsub

/-- A V on a registered semaphore gives a unit, or wakes a parked process. -/
theorem semaphoreV_parked {app app' : App} {i : Fin MAX_SIZE_SEMAPHORES}
    (h : app.semaphores.InRing) (hname : (app.semaphores.entry i).name ≠ 0)
    (hok : semaphoreV app (some i) = .ok app') :
    ∃ sl : SemaphoreList, sl.InRing ∧
      ((app' = { app with semaphores := sl } ∧ sl.parked.Perm app.semaphores.parked) ∨
      ∃ pid k, pFind app pid = some k ∧
        app' = { app with
          semaphores := sl
          pcb := app.pcb.modify k fun p => { p with status := .ready } } ∧
        (pid :: sl.parked).Perm app.semaphores.parked) := by
  have hring : Semaphore.InRing
      { (app.semaphores.entry i) with value := (app.semaphores.entry i).value + 1 } :=
    ⟨(h i hname).head, (h i hname).tail⟩
  rcases semaphoreV_eq_ok hok with ⟨-, rfl⟩ | ⟨hpos, pid, sem, k, hpop, hfind, rfl⟩
  · refine ⟨_, h.setEntry i hring, .inl ⟨rfl, ?_⟩⟩
    exact SemaphoreList.parked_setEntry_of_eq rfl
  · obtain ⟨hring', hqueue⟩ := waiterPop_parked hring hname hpos hpop
    refine ⟨_, h.setEntry i hring', .inr ⟨pid, k, hfind, rfl, ?_⟩⟩
    exact SemaphoreList.parked_setEntry_pop hqueue

/-! ## The disk -/

/-- The queue fits, and the lock of the disk is free. -/
structure Disk.Ok (disk : Disk) : Prop where
  len_le : disk.qr.len.toNat ≤ MAX_PCB
  lock : disk.diskS ≠ 0

/-- A request queues its pid. -/
theorem simulateIo_ids {app app' : App} {pid track : UInt32} (h : app.disk.Ok)
    (hok : simulateIo app pid track = .ok app') :
    ∃ disk : Disk, app' = { app with disk := disk } ∧ disk.Ok ∧
      disk.qr.ids = app.disk.qr.ids ++ [pid] := by
  obtain ⟨-, qr, hput, rfl⟩ := simulateIo_eq_ok hok
  unfold QueueReq.put at hput
  split at hput
  · rename_i hlt
    cases hput
    have hlen : (app.disk.qr.len + 1).toNat = app.disk.qr.len.toNat + 1 :=
      u8_toNat_add_one (Nat.lt_trans hlt (by decide))
    refine ⟨_, rfl, ⟨?_, h.lock⟩, ?_⟩
    · show (app.disk.qr.len + 1).toNat ≤ MAX_PCB
      rw [hlen]
      exact hlt
    · unfold QueueReq.ids
      dsimp only
      rw [requests_put _ hlt, List.map_append, List.map_singleton]
  · cases hput

/-- A turn keeps the pids, but for that of a request it finishes. -/
theorem diskTurn_ids {app app' : App} {finished : Option UInt32} (h : app.disk.Ok)
    (hok : diskTurn app = .ok (finished, app')) :
    ∃ disk : Disk, app' = { app with disk := disk } ∧ disk.Ok ∧
      ((finished = none ∧ disk.qr.ids.Perm app.disk.qr.ids) ∨
      ∃ pid, finished = some pid ∧ (pid :: disk.qr.ids).Perm app.disk.qr.ids) := by
  rcases Nat.eq_zero_or_pos app.disk.qr.len.toNat with hzero | hpos
  · rw [diskTurn_nil hzero] at hok
    cases hok
    exact ⟨app.disk, rfl, h, .inl ⟨rfl, .refl _⟩⟩
  obtain ⟨r, rest, disk, result, hturn, hperm, -, hle, hlock, hstep⟩ :=
    diskTurn_cons hpos h.len_le h.lock
  rw [hturn] at hok
  cases hok
  have hids : (r.id :: rest.map (·.id)).Perm app.disk.qr.ids := hperm.map IoReq.id
  refine ⟨disk, rfl, ⟨hle.trans h.len_le, by rw [hlock]; exact h.lock⟩, ?_⟩
  cases hstep with
  | seek hqueue _ => exact .inl ⟨rfl, by rw [QueueReq.ids, hqueue]; exact hids⟩
  | serve _ _ hqueue _ => exact .inl ⟨rfl, by rw [QueueReq.ids, hqueue]; exact hids⟩
  | finish _ _ hqueue _ => exact .inr ⟨r.id, rfl, by rw [QueueReq.ids, hqueue]; exact hids⟩

end ChicOS
