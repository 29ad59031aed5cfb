-- SUMMARY: Who is blocked and who waits: just those queued at the disk, and at the semaphores.
import ChicOS.Custody.NoDoubleFree
import ChicOS.Io.Progress

/-!
# Nobody is forgotten

The status of a process and the queues are stored apart, and changed one after the other:
`p_block` before `q_put`, `waiter_push` before the status of `semaphoreP`, the end of a request
before `p_unblock`. Between the turns they agree. A process is blocked just when the disk has a
request of it, and waits just when its pid is in a ring, once each; so whoever has stopped is
made ready by the device or by a V.

Nothing is asked of the programs or of the memory. A process that is killed at its end and
parked by the entry after it keeps to this too.
-/

namespace ChicOS

-- ---------------------------------------------------------------------------
-- The table and a queue
-- ---------------------------------------------------------------------------

namespace PCB

/-- A process gets another status, and not that of the dead. -/
theorem Shape.modify_alive {pcb : PCB} {i : Fin MAX_PCB} {f : Process → Process}
    (h : pcb.Shape) (r : PStatus) (hi : (pcb.slot i).fb ≠ 0)
    (hpid : (f (pcb.slot i)).pid = (pcb.slot i).pid)
    (hfb : (f (pcb.slot i)).fb = (pcb.slot i).fb) (hnew : (f (pcb.slot i)).status = r)
    (halive : r ≠ .kill) : (pcb.modify i f).Shape :=
  h.modify hpid hfb (fun hfree => absurd hfree hi)
    fun hdead => absurd (hnew.symm.trans hdead) halive

/-- The processes with a status are those whose pids are queued, each once. -/
structure Queued (pcb : PCB) (s : PStatus) (pids : List UInt32) : Prop where
  nodup : pids.Nodup
  known : ∀ pid ∈ pids, ∃ k, (pcb.slot k).fb ≠ 0 ∧ (pcb.slot k).pid = pid
  status : ∀ k, (pcb.slot k).fb ≠ 0 → ((pcb.slot k).status = s ↔ (pcb.slot k).pid ∈ pids)

namespace Queued

variable {pcb pcb' : PCB} {s : PStatus} {pids pids' : List UInt32} {pid : UInt32} {i : Fin MAX_PCB}
  {f : Process → Process}

/-- In an empty table nobody has any status. -/
theorem start (s : PStatus) : (initPcb PCB.zero).Queued s [] where
  nodup := List.nodup_nil
  known := nofun
  status k hk := absurd (congrArg Process.fb (slot_initPcb k)) hk

theorem of_slots (h : pcb.Queued s pids) (hslot : ∀ k, pcb'.slot k = pcb.slot k) :
    pcb'.Queued s pids := by
  refine ⟨h.nodup, ?_, ?_⟩ <;> simp only [hslot]
  · exact h.known
  · exact h.status

theorem perm (h : pcb.Queued s pids) (hp : pids'.Perm pids) : pcb.Queued s pids' where
  nodup := hp.nodup_iff.mpr h.nodup
  known pid hpid := h.known pid (hp.mem_iff.mp hpid)
  status k hk := (h.status k hk).trans hp.mem_iff.symm

/-- The pids that are queued are known after a change of a slot. -/
theorem known_modify (h : pcb.Queued s pids) (hpid : (f (pcb.slot i)).pid = (pcb.slot i).pid)
    (hfb : (f (pcb.slot i)).fb = (pcb.slot i).fb) :
    ∀ pid ∈ pids, ∃ k, ((pcb.modify i f).slot k).fb ≠ 0 ∧ ((pcb.modify i f).slot k).pid = pid := by
  intro pid hmem
  obtain ⟨k, hk, hkpid⟩ := h.known pid hmem
  refine ⟨k, ?_, ?_⟩
  · rw [pcb.slot_modify_congr i k Process.fb hfb]
    exact hk
  · rw [pcb.slot_modify_congr i k Process.pid hpid]
    exact hkpid

/-- A change that neither gives the status to a process nor takes it away. -/
theorem modify (h : pcb.Queued s pids) (hpid : (f (pcb.slot i)).pid = (pcb.slot i).pid)
    (hfb : (f (pcb.slot i)).fb = (pcb.slot i).fb)
    (hs : (f (pcb.slot i)).status = s ↔ (pcb.slot i).status = s) :
    (pcb.modify i f).Queued s pids := by
  refine ⟨h.nodup, h.known_modify hpid hfb, fun k hk => ?_⟩
  rw [pcb.slot_modify_congr i k Process.fb hfb] at hk
  rw [pcb.slot_modify_congr i k Process.pid hpid, ← h.status k hk, slot_modify]
  split
  · rename_i hik
    subst hik
    exact hs
  · exact Iff.rfl

/-- A process goes from one other status to another. -/
theorem other (h : pcb.Queued s pids) (r : PStatus) (hpid : (f (pcb.slot i)).pid = (pcb.slot i).pid)
    (hfb : (f (pcb.slot i)).fb = (pcb.slot i).fb) (hold : (pcb.slot i).status ≠ s)
    (hnew : (f (pcb.slot i)).status = r) (hne : r ≠ s) : (pcb.modify i f).Queued s pids :=
  h.modify hpid hfb (iff_of_false (fun hs => hne (hnew.symm.trans hs)) hold)

/-- A process gets the status, and its pid is queued. -/
theorem enqueue (h : pcb.Queued s pids) (hshape : pcb.Shape) (hi : (pcb.slot i).fb ≠ 0)
    (hnot : (pcb.slot i).status ≠ s) (hpid : (f (pcb.slot i)).pid = (pcb.slot i).pid)
    (hfb : (f (pcb.slot i)).fb = (pcb.slot i).fb) (hs : (f (pcb.slot i)).status = s)
    (hpids : pids'.Perm ((pcb.slot i).pid :: pids)) : (pcb.modify i f).Queued s pids' := by
  have hnew : (pcb.slot i).pid ∉ pids := mt (h.status i hi).mpr hnot
  refine ⟨hpids.nodup_iff.mpr (List.nodup_cons.mpr ⟨hnew, h.nodup⟩), fun pid hmem => ?_,
    fun k hk => ?_⟩
  · rcases List.mem_cons.mp (hpids.mem_iff.mp hmem) with rfl | hold
    · refine ⟨i, ?_, ?_⟩
      · rw [slot_modify_self, hfb]
        exact hi
      · rw [slot_modify_self, hpid]
    · exact h.known_modify hpid hfb pid hold
  · rw [pcb.slot_modify_congr i k Process.fb hfb] at hk
    rw [pcb.slot_modify_congr i k Process.pid hpid, hpids.mem_iff, List.mem_cons, slot_modify]
    split
    · rename_i hik
      subst hik
      exact iff_of_true hs (.inl rfl)
    · rename_i hik
      rw [h.status k hk]
      exact (or_iff_right fun heq => hik (hshape.eq_of_pid hk hi heq).symm).symm

/-- The slot of a pid that is queued. -/
theorem find (h : pcb.Queued s pids) (hshape : pcb.Shape) (hmem : pid ∈ pids)
    (hfind : pcb.find pid = some i) :
    (pcb.slot i).fb ≠ 0 ∧ (pcb.slot i).pid = pid ∧ (pcb.slot i).status = s := by
  obtain ⟨k, hused, rfl⟩ := h.known pid hmem
  cases (hshape.find hused).symm.trans hfind
  exact ⟨hused, rfl, (h.status i hused).mpr hmem⟩

/-- A pid is taken out, and its process has got another status. -/
theorem dequeue (h : pcb.Queued s pids) (r : PStatus) (hshape : pcb.Shape)
    (hpids : (pid :: pids').Perm pids)
    (hfind : pcb.find pid = some i) (hpid : (f (pcb.slot i)).pid = (pcb.slot i).pid)
    (hfb : (f (pcb.slot i)).fb = (pcb.slot i).fb) (hnew : (f (pcb.slot i)).status = r)
    (hne : r ≠ s) : (pcb.modify i f).Queued s pids' := by
  have hqueued := h.perm hpids
  obtain ⟨hgone, hnodup⟩ := List.nodup_cons.mp hqueued.nodup
  obtain ⟨hused, rfl, -⟩ := hqueued.find hshape List.mem_cons_self hfind
  refine ⟨hnodup, fun q hq => hqueued.known_modify hpid hfb q (List.mem_cons_of_mem _ hq),
    fun k hk => ?_⟩
  rw [pcb.slot_modify_congr i k Process.fb hfb] at hk
  rw [pcb.slot_modify_congr i k Process.pid hpid, slot_modify]
  split
  · rename_i hik
    subst hik
    exact iff_of_false (fun hs => hne (hnew.symm.trans hs)) hgone
  · rename_i hik
    rw [hqueued.status k hk, List.mem_cons]
    exact or_iff_right fun heq => hik (hshape.eq_of_pid hk hused heq).symm

/-- A new process has a pid that nobody has had. -/
theorem enter (h : pcb.Queued s pids) (hshape : pcb.Shape) {p : Process}
    (hcurr : pcb.curr.toNat < MAX_PCB) (hpid : p.pid = pcb.lastPid.toUInt32) (hs : p.status ≠ s) :
    (pcb.enter p hcurr).Queued s pids := by
  have hnew : p.pid ∉ pids := by
    intro hmem
    obtain ⟨k, hused, hk⟩ := h.known _ hmem
    have hlt := hshape.pid_lt k (hshape.lt_of_used hused)
    rw [hk, hpid, UInt16.toNat_toUInt32, hshape.lastPid] at hlt
    exact absurd hlt (Nat.lt_irrefl _)
  refine ⟨h.nodup, fun pid hmem => ?_, fun k hk => ?_⟩
  · obtain ⟨k, hused, hk⟩ := h.known pid hmem
    refine ⟨k, ?_⟩
    rw [slot_enter, if_neg (Nat.ne_of_gt (hshape.lt_of_used hused))]
    exact ⟨hused, hk⟩
  · rw [slot_enter] at hk ⊢
    split
    · exact iff_of_false hs hnew
    · rw [if_neg ‹_›] at hk
      exact h.status k hk

/-- A process with another status is reaped. -/
theorem shift (h : pcb.Queued s pids) (hi : (pcb.slot i).status ≠ s) (hused : (pcb.slot i).fb ≠ 0) :
    (pcb.shift i).Queued s pids := by
  refine ⟨h.nodup, fun pid hmem => ?_, fun k hk => ?_⟩
  · obtain ⟨k, hk, rfl⟩ := h.known pid hmem
    have hik : i ≠ k := by
      rintro rfl
      exact hi ((h.status i hused).mpr hmem)
    obtain ⟨j, hj⟩ := exists_shiftFrom hik
    refine ⟨j, ?_⟩
    rw [slot_shift_from, hj]
    exact ⟨hk, rfl⟩
  · rw [slot_shift_from] at hk ⊢
    exact h.status _ hk

end Queued

end PCB

-- ---------------------------------------------------------------------------
-- The rings
-- ---------------------------------------------------------------------------

namespace SemaphoreList

/-- The rings of the registered semaphores are in order, and the other entries have no name. -/
structure Ok (sl : SemaphoreList) : Prop where
  rings : sl.InRing
  unnamed : ∀ i : Fin MAX_SIZE_SEMAPHORES, sl.last ≤ i.val → (sl.entry i).name = 0

variable {sl : SemaphoreList} {i : Fin MAX_SIZE_SEMAPHORES} {sem : Semaphore}

theorem Ok.setEntry (h : sl.Ok) (hring : sem.InRing) (hname : sem.name = (sl.entry i).name) :
    (sl.setEntry i sem).Ok := by
  refine ⟨h.rings.setEntry i hring, fun j hj => ?_⟩
  by_cases hij : i = j
  · subst hij
    rw [entry_setEntry_self, hname]
    exact h.unnamed i hj
  · rw [entry_setEntry_ne _ _ hij]
    exact h.unnamed j hj

/-- There are not enough processes to fill a ring. -/
theorem room {pcb : PCB} (hshape : pcb.Shape) (hqueued : pcb.Queued .waiting sl.parked)
    (hname : (sl.entry i).name ≠ 0) : (sl.entry i).queue.length + 1 < DEFAULT_WAITERS_NUM := by
  have hparked : (sl.entry i).parked = (sl.entry i).queue := if_neg hname
  have hperm := sl.parked_perm i
  rw [hparked] at hperm
  have hnodup := (hperm.nodup_iff.mp hqueued.nodup).sublist (List.sublist_append_left _ _)
  have hlive : ∀ pid ∈ (sl.entry i).queue, ∃ k : Fin MAX_PCB, k.val < pcb.curr.toNat ∧
      (pcb.slot k).pid = pid := by
    intro pid hpid
    obtain ⟨k, hused, hk⟩ := hqueued.known pid (hperm.mem_iff.mpr (List.mem_append_left _ hpid))
    exact ⟨k, hshape.lt_of_used hused, hk⟩
  have hlength := PCB.length_le_of_live hnodup hlive
  have hcurr : pcb.curr.toNat ≤ 10 := hshape.curr_le
  unfold DEFAULT_WAITERS_NUM
  omega

end SemaphoreList

/-- A P takes a unit, or queues the pid and sets its process waiting. -/
theorem semaphoreP_queued {app app' : App} {i : Fin MAX_SIZE_SEMAPHORES} {pid : UInt32}
    (h : app.semaphores.Ok) (hname : (app.semaphores.entry i).name ≠ 0)
    (hroom : (app.semaphores.entry i).queue.length + 1 < DEFAULT_WAITERS_NUM)
    (hok : semaphoreP app (some i) pid = .ok app') :
    ∃ sl : SemaphoreList, sl.Ok ∧
      ((app' = { app with semaphores := sl } ∧ sl.parked.Perm app.semaphores.parked) ∨
      ∃ k, app.pcb.find pid = some k ∧
        app' = { app with
          semaphores := sl
          pcb := app.pcb.modify k fun p => { p with status := .waiting, timeToRun := 0 } } ∧
        sl.parked.Perm (pid :: app.semaphores.parked)) := by
  have hring : Semaphore.InRing
      { (app.semaphores.entry i) with value := (app.semaphores.entry i).value - 1 } :=
    ⟨(h.rings i hname).head, (h.rings i hname).tail⟩
  rcases semaphoreP_eq_ok hok with ⟨-, rfl⟩ | ⟨-, sem, k, hpush, hfind, rfl⟩
  · exact ⟨_, h.setEntry hring rfl, .inl ⟨rfl, SemaphoreList.parked_setEntry_of_eq rfl⟩⟩
  · obtain ⟨hring', hqueue, -⟩ := waiterPush_queue _ hring hroom hpush
    have hsame := (waiterPush_same hpush).1
    refine ⟨_, h.setEntry hring' hsame, .inr ⟨k, hfind, rfl, ?_⟩⟩
    have hnew : sem.parked = (app.semaphores.entry i).parked ++ [pid] := by
      rw [Semaphore.parked, Semaphore.parked, hsame, if_neg hname, if_neg hname, hqueue]
      rfl
    have hset := app.semaphores.parked_setEntry i sem
    rw [hnew, List.append_assoc] at hset
    exact (hset.trans List.perm_middle).trans ((app.semaphores.parked_perm i).symm.cons pid)

/-- A V gives a unit, or takes a pid out and makes its process ready. -/
theorem semaphoreV_queued {app app' : App} {i : Fin MAX_SIZE_SEMAPHORES}
    (h : app.semaphores.Ok) (hname : (app.semaphores.entry i).name ≠ 0)
    (hok : semaphoreV app (some i) = .ok app') :
    ∃ sl : SemaphoreList, sl.Ok ∧
      ((app' = { app with semaphores := sl } ∧ sl.parked.Perm app.semaphores.parked) ∨
      ∃ pid k, app.pcb.find pid = some k ∧
        app' = { app with
          semaphores := sl
          pcb := app.pcb.modify k fun p => { p with status := .ready } } ∧
        (pid :: sl.parked).Perm app.semaphores.parked) := by
  have hring : Semaphore.InRing
      { (app.semaphores.entry i) with value := (app.semaphores.entry i).value + 1 } :=
    ⟨(h.rings i hname).head, (h.rings i hname).tail⟩
  rcases semaphoreV_eq_ok hok with ⟨-, rfl⟩ | ⟨hpos, pid, sem, k, hpop, hfind, rfl⟩
  · exact ⟨_, h.setEntry hring rfl, .inl ⟨rfl, SemaphoreList.parked_setEntry_of_eq rfl⟩⟩
  · obtain ⟨hring', hqueue⟩ := waiterPop_parked hring hname hpos hpop
    refine ⟨_, h.setEntry hring' (waiterPop_same hpop).1, .inr ⟨pid, k, hfind, rfl, ?_⟩⟩
    exact SemaphoreList.parked_setEntry_pop hqueue

/-- A new semaphore takes an entry without a name, and nobody waits there. -/
theorem initSemaphore_queued {st st' : Store} {name : UInt8} {value : UInt32} {r : Int}
    (h : st.semaphores.Ok) (hok : initSemaphore st name value = .ok (r, st')) :
    st'.semaphores.Ok ∧ st'.semaphores.parked.Perm st.semaphores.parked := by
  have hrings := (initSemaphore_loads hok).rings h.rings
  rcases initSemaphore_cases hok with
    ⟨-, rfl⟩ | ⟨p, w, mem, mem', sem, hlast, -, -, -, -, hhead, htail, -, rfl⟩
  · exact ⟨h, .refl _⟩
  · have hnobody : sem.parked = [] := by
      rw [Semaphore.parked, (Semaphore.empty_queue hhead htail).2, ite_self]
    have hold : (st.semaphores.entry ⟨st.semaphores.last, hlast⟩).parked = [] :=
      if_pos (h.unnamed _ (Nat.le_refl _))
    refine ⟨⟨hrings, fun i hi => ?_⟩,
      Cells.held_set_of_eq st.semaphores.l hlast (hnobody.trans hold.symm)⟩
    have hi : st.semaphores.last + 1 ≤ i.val := hi
    have hne : st.semaphores.last ≠ i.val := by omega
    have hsame : SemaphoreList.entry
        { st.semaphores with
          l := st.semaphores.l.set st.semaphores.last sem
          max := st.semaphores.max + 1
          last := st.semaphores.last + 1 } i = st.semaphores.entry i := by
      simp [SemaphoreList.entry, hne]
    dsimp only
    rw [hsame]
    exact h.unnamed i (by omega)

theorem readHeader_queued {st st' : Store} {fb : Addr} (h : st.semaphores.Ok)
    (hok : readHeader st fb = .ok st') :
    st'.semaphores.Ok ∧ st'.semaphores.parked.Perm st.semaphores.parked := by
  obtain ⟨header, mem, fp, fp', text, semaphores, rest, st₁, -, -, -, -, hsems, rfl⟩ :=
    readHeader_eq_ok hok
  let st₀ : Store := { st with mem := mem }
  have hstart : st₀.semaphores.Ok ∧ st₀.semaphores.parked.Perm st.semaphores.parked := ⟨h, .refl _⟩
  have hregistered : st₁.semaphores.Ok ∧ st₁.semaphores.parked.Perm st.semaphores.parked :=
    readSemaphores_induct
      (P := fun s => s.semaphores.Ok ∧ s.semaphores.parked.Perm st.semaphores.parked)
      (fun hs hinit =>
        let hnew := initSemaphore_queued hs.1 hinit
        ⟨hnew.1, hnew.2.trans hs.2⟩) hstart hsems
  exact hregistered

theorem loadCode_semaphores {st st' : Store} {fb space : Addr} {fp : File} {c c' : CodeSection}
    (hok : loadCode st fb fp space c = .ok (st', c')) : st'.semaphores = st.semaphores := by
  obtain ⟨complete, fp', instrs, i, -, rfl, -⟩ := loadCode_eq_ok hok
  rfl

-- ---------------------------------------------------------------------------
-- The disk
-- ---------------------------------------------------------------------------

/-- No request needs more than a slice, and all are on the disk, as the head is. -/
structure Disk.Fit (disk : Disk) : Prop extends disk.Ok where
  short : ∀ r ∈ disk.qr.requests, r.timeToRun ≤ DISK_SLICE
  tracks : ∀ r ∈ disk.qr.requests, r.track ≤ TOTAL_TRACKS
  head : disk.currentTrack ≤ TOTAL_TRACKS

theorem DiskLog.fit_iff {s : DiskLog} : s.Fit ↔ s.app.disk.Fit :=
  ⟨fun h => ⟨⟨h.len_le, h.lock⟩, h.short, h.tracks, h.head⟩,
    fun h => ⟨⟨h.len_le, h.lock⟩, h.short, h.tracks, h.head⟩⟩

theorem simulateIo_fit {app app' : App} {pid track : UInt32} (h : app.disk.Fit)
    (hok : simulateIo app pid track = .ok app') : app'.disk.Fit := by
  have hstep : (DiskLog.start app).step (.arrive pid track)
      = .ok { DiskLog.start app with app := app' } := Except.bind_eq_ok.mpr ⟨app', hok, rfl⟩
  have hlog : (DiskLog.start app).Fit := DiskLog.fit_iff.mpr h
  exact DiskLog.fit_iff.mp (hlog.step hstep)

theorem diskTurn_fit {app app' : App} {finished : Option UInt32} (h : app.disk.Fit)
    (hok : diskTurn app = .ok (finished, app')) : app'.disk.Fit := by
  have hlog : (DiskLog.start app).Fit := DiskLog.fit_iff.mpr h
  obtain ⟨act, hstep⟩ := hlog.toReady.step_turn hok
  exact DiskLog.fit_iff.mp (hlog.step hstep)

/-- The interrupt makes the process ready. -/
theorem diskFinish_eq_ok {app app' : App} {pid : UInt32}
    (hok : interruptControl app .diskFinish (printPid pid) = .ok app') :
    ∃ n i, app.pcb.find pid = some i ∧
      app' = { app with
        cpu.cpuS := n
        pcb := app.pcb.modify i fun p => { p with status := .ready } } := by
  obtain ⟨n, a, hrun, rfl⟩ := inCpu_eq_ok hok
  obtain ⟨⟨q, rest⟩, hscan, hrun⟩ := Except.bind_eq_ok.mp hrun
  rw [scanU_printPid_end] at hscan
  cases hscan
  obtain ⟨i, hfind, -, rfl⟩ := pUpdate_eq_ok hrun
  exact ⟨_, i, hfind, rfl⟩

/-- A turn of the printer stays with the printer, its nodes, and the lock of its interrupt. -/
theorem printerLoopTurn_eq_ok {app app' : App} (hok : printerLoopTurn app = .ok app') :
    ∃ mem heap printer n,
      app' = { app with mem := mem, heap := heap, printer := printer, cpu.cpuS := n } := by
  obtain ⟨⟨finish, app₁⟩, hturn, hok⟩ := Except.bind_eq_ok.mp hok
  obtain ⟨mem, heap, printer, rfl⟩ : ∃ mem heap printer,
      app₁ = { app with mem := mem, heap := heap, printer := printer } := by
    rcases (printerTurn_eq_ok hturn).2 with ⟨-, rfl⟩ | ⟨-, ⟨-, rfl⟩ | ⟨-, mem, -, rfl⟩⟩
    · exact ⟨_, _, _, rfl⟩
    · exact ⟨_, _, _, rfl⟩
    · exact ⟨_, _, _, rfl⟩
  dsimp only at hok
  split at hok
  · obtain ⟨n, a, hpop, rfl⟩ := inCpu_eq_ok hok
    rcases popPrint_eq_ok hpop with ⟨-, rfl⟩ | ⟨-, rfl⟩
    · exact ⟨_, _, _, _, rfl⟩
    · exact ⟨_, _, _, _, rfl⟩
  · cases hok
    exact ⟨_, _, _, _, rfl⟩

-- ---------------------------------------------------------------------------
-- The machine
-- ---------------------------------------------------------------------------

/-- Nobody is forgotten: the blocked processes have a request at the disk, and the waiting ones
are in a ring. -/
structure Attended (app : App) : Prop where
  table : app.pcb.Shape
  semaphores : app.semaphores.Ok
  disk : app.disk.Fit
  blocked : app.pcb.Queued .blocked app.disk.qr.ids
  waiting : app.pcb.Queued .waiting app.semaphores.parked

namespace Attended

variable {app app' : App} {k : Fin MAX_PCB} {f : Process → Process} {pid : UInt32}

/-- Only the slots, the disk and the semaphores matter. -/
theorem congr (h : Attended app) (hpcb : app'.pcb = { app.pcb with pcbS := app'.pcb.pcbS })
    (hdisk : app'.disk = app.disk) (hsems : app'.semaphores = app.semaphores) : Attended app' := by
  have hslot (j : Fin MAX_PCB) : app'.pcb.slot j = app.pcb.slot j := by
    rw [hpcb]
    rfl
  refine ⟨h.table.of_slots (by rw [hpcb]) (by rw [hpcb]) hslot, ?_, ?_, ?_, ?_⟩
  · rw [hsems]
    exact h.semaphores
  · rw [hdisk]
    exact h.disk
  · rw [hdisk]
    exact h.blocked.of_slots hslot
  · rw [hsems]
    exact h.waiting.of_slots hslot

theorem of_eq (h : Attended app) (hpcb : app'.pcb = app.pcb) (hdisk : app'.disk = app.disk)
    (hsems : app'.semaphores = app.semaphores) : Attended app' :=
  h.congr (by rw [hpcb]) hdisk hsems

/-- A change of a slot that neither parks its process nor unparks it. -/
theorem modify (h : Attended app) (hshape : (app.pcb.modify k f).Shape)
    (hpid : (f (app.pcb.slot k)).pid = (app.pcb.slot k).pid)
    (hfb : (f (app.pcb.slot k)).fb = (app.pcb.slot k).fb)
    (hs : (f (app.pcb.slot k)).status = (app.pcb.slot k).status ∨
      ¬ (app.pcb.slot k).Parked ∧ ¬ (f (app.pcb.slot k)).Parked) :
    Attended { app with pcb := app.pcb.modify k f } := by
  refine ⟨hshape, h.semaphores, h.disk, h.blocked.modify hpid hfb ?_, h.waiting.modify hpid hfb ?_⟩
  · rcases hs with heq | ⟨hold, hnew⟩
    · rw [heq]
    · exact iff_of_false (fun hb => hnew (.inl hb)) fun hb => hold (.inl hb)
  · rcases hs with heq | ⟨hold, hnew⟩
    · rw [heq]
    · exact iff_of_false (fun hw => hnew (.inr hw)) fun hw => hold (.inr hw)

/-- A change of a slot that leaves the process and its status. -/
theorem modify_same (h : Attended app) (hf : (app.pcb.slot k).Same (f (app.pcb.slot k)))
    (hs : (f (app.pcb.slot k)).status = (app.pcb.slot k).status) :
    Attended { app with pcb := app.pcb.modify k f } :=
  h.modify (h.table.modify_same hf) hf.pid hf.fb (.inl hs)

/-- The list of semaphores is another, and in it are the same pids. -/
theorem setSemaphores {sl : SemaphoreList} (h : Attended app) (hok : sl.Ok)
    (hpids : sl.parked.Perm app.semaphores.parked) : Attended { app with semaphores := sl } :=
  ⟨h.table, hok, h.disk, h.blocked, h.waiting.perm hpids⟩

/-- A section under the lock of the CPU. -/
theorem inCpu {f : App → Except Stop App} (h : Attended app)
    (hf : ∀ {a a' : App}, Attended a → a.pcb = app.pcb → a.semaphores = app.semaphores →
      f a = .ok a' → Attended a')
    (hok : app.inCpu f = .ok app') : Attended app' := by
  obtain ⟨n, a, hrun, rfl⟩ := inCpu_eq_ok hok
  have ha : Attended { app with cpu.cpuS := n } := h.of_eq rfl rfl rfl
  exact (hf ha rfl rfl hrun).of_eq rfl rfl rfl

-- ---------------------------------------------------------------------------
-- Calls
-- ---------------------------------------------------------------------------

/-- A P of a process that is not parked. -/
theorem semaphoreP {name : UInt8} (h : Attended app) (hname : name ≠ 0)
    (hk : (app.pcb.slot k).c.it ≠ 0) (hnot : ¬ (app.pcb.slot k).Parked)
    (hok : ChicOS.semaphoreP app (getSemaphoreByName app name) (app.pcb.slot k).pid = .ok app') :
    Attended app' := by
  cases hs : getSemaphoreByName app name with
  | none =>
      rw [hs] at hok
      cases hok
      exact h
  | some i =>
      rw [hs] at hok
      have hi : (app.semaphores.entry i).name ≠ 0 := by
        rw [getSemaphoreByName_name hs]
        exact hname
      have hroom := SemaphoreList.room h.table h.waiting hi
      obtain ⟨sl, hsl, ⟨rfl, hpids⟩ | ⟨j, hfind, rfl, hpids⟩⟩ :=
        semaphoreP_queued h.semaphores hi hroom hok
      · exact h.setSemaphores hsl hpids
      · obtain rfl := Option.some.inj ((h.table.find_it hk).symm.trans hfind)
        have hused := h.table.used_of_it hk
        have hwaiting : (app.pcb.slot k).status ≠ .waiting := fun hw => hnot (.inr hw)
        have hblocked : (app.pcb.slot k).status ≠ .blocked := fun hb => hnot (.inl hb)
        let park : Process → Process := fun p => { p with status := .waiting, timeToRun := 0 }
        have htable : (app.pcb.modify k park).Shape :=
          h.table.modify_alive .waiting hused rfl rfl rfl (by decide)
        have hdisk : (app.pcb.modify k park).Queued .blocked app.disk.qr.ids :=
          h.blocked.other .waiting rfl rfl hblocked rfl (by decide)
        have hrings : (app.pcb.modify k park).Queued .waiting sl.parked :=
          h.waiting.enqueue h.table hused hwaiting rfl rfl rfl hpids
        exact ⟨htable, hsl, h.disk, hdisk, hrings⟩

theorem semaphoreV {name : UInt8} (h : Attended app) (hname : name ≠ 0)
    (hok : ChicOS.semaphoreV app (getSemaphoreByName app name) = .ok app') : Attended app' := by
  cases hs : getSemaphoreByName app name with
  | none =>
      rw [hs] at hok
      cases hok
      exact h
  | some i =>
      rw [hs] at hok
      have hi : (app.semaphores.entry i).name ≠ 0 := by
        rw [getSemaphoreByName_name hs]
        exact hname
      obtain ⟨sl, hsl, ⟨rfl, hpids⟩ | ⟨pid, j, hfind, rfl, hpids⟩⟩ :=
        semaphoreV_queued h.semaphores hi hok
      · exact h.setSemaphores hsl hpids
      · obtain ⟨hused, -, hwas⟩ :=
          (h.waiting.perm hpids).find h.table List.mem_cons_self hfind
        have hblocked : (app.pcb.slot j).status ≠ .blocked := by
          rw [hwas]
          decide
        let wake : Process → Process := fun p => { p with status := .ready }
        have htable : (app.pcb.modify j wake).Shape :=
          h.table.modify_alive .ready hused rfl rfl rfl (by decide)
        have hdisk : (app.pcb.modify j wake).Queued .blocked app.disk.qr.ids :=
          h.blocked.other .ready rfl rfl hblocked rfl (by decide)
        have hrings : (app.pcb.modify j wake).Queued .waiting sl.parked :=
          h.waiting.dequeue .ready h.table hpids hfind rfl rfl rfl (by decide)
        exact ⟨htable, hsl, h.disk, hdisk, hrings⟩

/-- A request of a process that is not parked. -/
theorem diskRequest {track : UInt32} (h : Attended app) (hk : (app.pcb.slot k).c.it ≠ 0)
    (hnot : ¬ (app.pcb.slot k).Parked)
    (hok : (pBlock app (app.pcb.slot k).pid >>= fun a =>
      simulateIo a (app.pcb.slot k).pid track) = .ok app') : Attended app' := by
  obtain ⟨a, hblock, hio⟩ := Except.bind_eq_ok.mp hok
  obtain ⟨i, hfind, -, rfl⟩ := pUpdate_eq_ok hblock
  obtain rfl := Option.some.inj ((h.table.find_it hk).symm.trans hfind)
  have hused := h.table.used_of_it hk
  have hwaiting : (app.pcb.slot k).status ≠ .waiting := fun hw => hnot (.inr hw)
  have hblocked : (app.pcb.slot k).status ≠ .blocked := fun hb => hnot (.inl hb)
  let park : Process → Process := fun p => { p with status := .blocked, timeToRun := 0 }
  have hbefore : ({ app with pcb := app.pcb.modify k park } : App).disk.Fit := h.disk
  have hdisk := simulateIo_fit hbefore hio
  obtain ⟨disk, rfl, -, hids⟩ := simulateIo_ids hbefore.toOk hio
  have hpids : disk.qr.ids.Perm ((app.pcb.slot k).pid :: app.disk.qr.ids) := by
    rw [hids]
    exact List.perm_append_singleton _ _
  have htable : (app.pcb.modify k park).Shape :=
    h.table.modify_alive .blocked hused rfl rfl rfl (by decide)
  have hqueue : (app.pcb.modify k park).Queued .blocked disk.qr.ids :=
    h.blocked.enqueue h.table hused hblocked rfl rfl rfl hpids
  have hrings : (app.pcb.modify k park).Queued .waiting app.semaphores.parked :=
    h.waiting.other .blocked rfl rfl hwaiting rfl (by decide)
  exact ⟨htable, h.semaphores, hdisk, hqueue, hrings⟩

/-- A turn of the disk: the process of a request that finishes is ready. -/
theorem diskLoopTurn (h : Attended app) (hok : ChicOS.diskLoopTurn app = .ok app') :
    Attended app' := by
  obtain ⟨⟨finished, app₁⟩, hturn, hok⟩ := Except.bind_eq_ok.mp hok
  have hdisk := diskTurn_fit h.disk hturn
  obtain ⟨disk, rfl, -, hids⟩ := diskTurn_ids h.disk.toOk hturn
  rcases hids with ⟨rfl, hids⟩ | ⟨pid, rfl, hids⟩
  · cases hok
    exact ⟨h.table, h.semaphores, hdisk, h.blocked.perm hids, h.waiting⟩
  · obtain ⟨n, i, hfind, rfl⟩ := diskFinish_eq_ok hok
    have hfind : app.pcb.find pid = some i := hfind
    obtain ⟨hused, -, hwas⟩ := (h.blocked.perm hids).find h.table List.mem_cons_self hfind
    have hwaiting : (app.pcb.slot i).status ≠ .waiting := by
      rw [hwas]
      decide
    let wake : Process → Process := fun p => { p with status := .ready }
    have htable : (app.pcb.modify i wake).Shape :=
      h.table.modify_alive .ready hused rfl rfl rfl (by decide)
    have hqueue : (app.pcb.modify i wake).Queued .blocked disk.qr.ids :=
      h.blocked.dequeue .ready h.table hids hfind rfl rfl rfl (by decide)
    have hrings : (app.pcb.modify i wake).Queued .waiting app.semaphores.parked :=
      h.waiting.other .ready rfl rfl hwaiting rfl (by decide)
    exact ⟨htable, h.semaphores, hdisk, hqueue, hrings⟩

theorem addToPrintQueue {time : UInt32} (h : Attended app)
    (hok : ChicOS.addToPrintQueue app time pid = .ok app') : Attended app' := by
  obtain ⟨new, mem, -, -, ⟨-, rfl⟩ | ⟨-, -, rfl⟩⟩ := addToPrintQueue_eq_ok hok
  · exact h.of_eq rfl rfl rfl
  · exact h.of_eq rfl rfl rfl

theorem printerLoopTurn (h : Attended app) (hok : ChicOS.printerLoopTurn app = .ok app') :
    Attended app' := by
  obtain ⟨mem, heap, printer, n, rfl⟩ := printerLoopTurn_eq_ok hok
  exact h.of_eq rfl rfl rfl

/-- While nobody is dead, a process that is not parked may be killed. -/
theorem pKill (h : Attended app) (hnone : app.pcb.NoneDead) (hk : (app.pcb.slot k).c.it ≠ 0)
    (hnot : ¬ (app.pcb.slot k).Parked) (hok : ChicOS.pKill app (app.pcb.slot k).pid = .ok app') :
    Attended app' := by
  have hdead : ¬ ({ app.pcb.slot k with status := .kill } : Process).Parked := by
    simp [Process.Parked]
  have hkilled : Attended
      { app with pcb := app.pcb.modify k fun p => { p with status := .kill } } :=
    h.modify (h.table.modify_dead hnone (h.table.used_of_it hk) rfl rfl) rfl rfl
      (.inr ⟨hnot, hdead⟩)
  rcases pKill_eq_ok hok with ⟨-, rfl⟩ | ⟨i, hfind, -, hcases⟩
  · exact h
  obtain rfl := Option.some.inj ((h.table.find_it hk).symm.trans hfind)
  rcases hcases with ⟨-, rfl⟩ | ⟨-, mem, -, rfl⟩
  · exact hkilled
  · exact hkilled.of_eq rfl rfl rfl

/-- A new process is neither blocked nor waiting. -/
theorem pCreate {address : List UInt8} (h : Attended app)
    (hok : ChicOS.pCreate app address = .ok (pid, app')) : Attended app' := by
  rcases pCreate_eq_ok hok with ⟨-, -, rfl⟩ | ⟨hcurr, p, st, hp, -, rfl⟩
  · exact h
  obtain ⟨mem, st₁, fp, -, hopen, -, -, hcode⟩ := hp.stages
  obtain ⟨mem', data, -, -, hheader⟩ := openFile_eq_ok hopen hp.fb
  have hsems : st.semaphores.Ok ∧ st.semaphores.parked.Perm app.semaphores.parked := by
    have hcreated := readHeader_queued (by exact h.semaphores) hheader
    rw [loadCode_semaphores hcode]
    exact hcreated
  have halive : p.status ≠ .kill := by
    rw [hp.status]
    decide
  have hblocked : p.status ≠ .blocked := by
    rw [hp.status]
    decide
  have hwaiting : p.status ≠ .waiting := by
    rw [hp.status]
    decide
  have hlt := Nat.lt_of_lt_pred hcurr
  exact ⟨h.table.enter hcurr hp.pid hp.fb halive, hsems.1, h.disk,
    (h.blocked.enter h.table hlt hp.pid hblocked).of_slots fun _ => rfl,
    ((h.waiting.enter h.table hlt hp.pid hwaiting).perm hsems.2).of_slots fun _ => rfl⟩

end Attended

end ChicOS
