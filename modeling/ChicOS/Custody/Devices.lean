-- SUMMARY: What the semaphores, the disk and the printer do to custody.
import ChicOS.Custody.Calls
import ChicOS.Machine

/-!
# Devices

A system call of the running process may park it; a V and the end of a disk
request wake a process that is parked. The printer's jobs are nodes of a list:
a new job is a fresh block at its end, the first job moves into the buffer, and
the job in the buffer is released.
-/

namespace ChicOS

/-! ## Arguments -/

theorem inCpu_keeps {app app' : App} {f : App → Except Stop App}
    (hf : ∀ n a, f { app with cpu.cpuS := n } = .ok a → Keeps { app with cpu.cpuS := n } a)
    (h : app.inCpu f = .ok app') : Keeps app app' := by
  obtain ⟨n, a, hrun, rfl⟩ := inCpu_eq_ok h
  have hentry : Keeps app { app with cpu.cpuS := n } := .of_mem rfl fun hc => hc.cpu _
  have hexit : Keeps a { a with cpu.cpuS := a.cpu.cpuS + 1 } := .of_mem rfl fun hc => hc.cpu _
  exact (hentry.trans (hf n a hrun)).trans hexit

/-- A semaphore's name that is printed and scanned is a byte that is not zero. -/
theorem scanC_printSem {sem : UInt8} {pid : UInt32} {r : UInt8 × List UInt8}
    (h : scanC (printSem sem pid) = .ok r) : sem ≠ 0 ∧ r = (sem, 32 :: printPid pid) := by
  by_cases hsem : sem = 0
  · subst hsem
    cases h
  rw [printSem_eq hsem] at h
  cases h
  exact ⟨hsem, rfl⟩

theorem getSemaphoreByName_name {app : App} {name : UInt8} {i : Fin MAX_SIZE_SEMAPHORES}
    (h : getSemaphoreByName app name = some i) : (app.semaphores.entry i).name = name := by
  simpa using List.find?_some h

/-! ## Semaphores -/

/-- Only the running process may park. -/
theorem semaphoreP_keeps {app app' : App} {name : UInt8} {k : Fin MAX_PCB} (hname : name ≠ 0)
    (hk : (app.pcb.slot k).c.it ≠ 0)
    (hrun : ∀ i, getSemaphoreByName app name = some i → (app.semaphores.entry i).value - 1 < 0 →
      (app.pcb.slot k).status = .running)
    (hok : semaphoreP app (getSemaphoreByName app name) (app.pcb.slot k).pid = .ok app') :
    Keeps app app' := by
  refine .of_mem (semaphoreP_mem hok) fun hc => ?_
  cases hs : getSemaphoreByName app name with
  | none =>
      rw [hs] at hok
      cases hok
      exact hc
  | some i =>
      rw [hs] at hok
      have hi : (app.semaphores.entry i).name ≠ 0 := by
        rw [getSemaphoreByName_name hs]
        exact hname
      obtain ⟨sl, hring, ⟨rfl, hperm⟩ | ⟨hneg, j, hfind, rfl, hsub⟩⟩ :=
        semaphoreP_parked hc.rings hi hok
      · exact hc.queues hc.disk hring (hc.parks.perm (hperm.append_left _))
      · cases (hc.table.find_it hk).symm.trans hfind
        have hrunning := hrun i hs hneg
        obtain ⟨hpark, hpids⟩ := hc.park
          (f := fun p => { p with status := .waiting, timeToRun := 0 })
          ⟨rfl, rfl, rfl, rfl, by simp [hrunning]⟩ (hc.table.used_of_it hk)
          (Process.not_parked_of_running hrunning) (.inr rfl)
        refine hpark.queues hc.disk hring (hpids.subperm ?_)
        exact ((List.subperm_append_left _).mpr hsub).trans List.perm_middle.subperm

theorem semaphoreV_keeps {app app' : App} {name : UInt8} (hname : name ≠ 0)
    (hok : semaphoreV app (getSemaphoreByName app name) = .ok app') : Keeps app app' := by
  refine .of_mem (semaphoreV_mem hok) fun hc => ?_
  cases hs : getSemaphoreByName app name with
  | none =>
      rw [hs] at hok
      cases hok
      exact hc
  | some i =>
      rw [hs] at hok
      have hi : (app.semaphores.entry i).name ≠ 0 := by
        rw [getSemaphoreByName_name hs]
        exact hname
      obtain ⟨sl, hring, ⟨rfl, hperm⟩ | ⟨pid, j, hfind, rfl, hpop⟩⟩ :=
        semaphoreV_parked hc.rings hi hok
      · exact hc.queues hc.disk hring (hc.parks.perm (hperm.append_left _))
      · have hpids : app.pcb.Parks (pid :: (app.disk.qr.ids ++ sl.parked)) :=
          hc.parks.perm (List.perm_middle.symm.trans (hpop.append_left _))
        have hqueues : Custody { app with semaphores := sl } :=
          hc.queues hc.disk hring (hpids.subperm (List.sublist_cons_self _ _).subperm)
        exact hqueues.wake hpids hfind fun halive => ⟨rfl, rfl, rfl, rfl, by simp [halive]⟩

/-! ## The disk -/

/-- A request of the running process parks it. -/
theorem diskRequest_keeps {app app' : App} {k : Fin MAX_PCB} {track : UInt32}
    (hk : (app.pcb.slot k).c.it ≠ 0) (hrun : (app.pcb.slot k).status = .running)
    (hok : (pBlock app (app.pcb.slot k).pid >>= fun a =>
      simulateIo a (app.pcb.slot k).pid track) = .ok app') : Keeps app app' := by
  obtain ⟨a, hblock, hio⟩ := Except.bind_eq_ok.mp hok
  obtain ⟨i, hfind, -, rfl⟩ := pUpdate_eq_ok hblock
  have hmem : app'.mem = app.mem := by
    obtain ⟨-, qr, -, rfl⟩ := simulateIo_eq_ok hio
    rfl
  refine .of_mem hmem fun hc => ?_
  cases (hc.table.find_it hk).symm.trans hfind
  obtain ⟨hpark, hpids⟩ := hc.park (f := fun p => { p with status := .blocked, timeToRun := 0 })
    ⟨rfl, rfl, rfl, rfl, by simp [hrun]⟩ (hc.table.used_of_it hk)
    (Process.not_parked_of_running hrun) (.inl rfl)
  obtain ⟨disk, rfl, hdisk, hids⟩ := simulateIo_ids hpark.disk hio
  refine hpark.queues hdisk hpark.rings (hpids.perm ?_)
  rw [hids, List.append_assoc]
  exact List.perm_middle

/-- A turn of the disk wakes the process whose request it finishes. -/
theorem diskLoopTurn_keeps {app app' : App} (hok : diskLoopTurn app = .ok app') :
    Keeps app app' := by
  obtain ⟨⟨finished, app₁⟩, hturn, hok⟩ := Except.bind_eq_ok.mp hok
  have hmem : app₁.mem = app.mem := by
    obtain ⟨disk, rfl⟩ := diskTurn_eq_ok hturn
    rfl
  cases finished with
  | none =>
      cases hok
      refine .of_mem hmem fun hc => ?_
      obtain ⟨disk, rfl, hdisk, ⟨-, hids⟩ | ⟨pid, hfinished, -⟩⟩ := diskTurn_ids hc.disk hturn
      · exact hc.queues hdisk hc.rings (hc.parks.perm (hids.append_right _))
      · cases hfinished
  | some pid =>
      obtain ⟨n, a, hrun, rfl⟩ := inCpu_eq_ok hok
      obtain ⟨⟨q, rest⟩, hscan, hrun⟩ := Except.bind_eq_ok.mp hrun
      rw [scanU_printPid_end] at hscan
      cases hscan
      obtain ⟨i, hfind, -, rfl⟩ := pUpdate_eq_ok hrun
      refine .of_mem hmem fun hc => ?_
      obtain ⟨disk, rfl, hdisk, ⟨hnone, -⟩ | ⟨q, hfinished, hids⟩⟩ := diskTurn_ids hc.disk hturn
      · cases hnone
      cases hfinished
      have hpids : app.pcb.Parks (pid :: (disk.qr.ids ++ app.semaphores.parked)) :=
        hc.parks.perm (hids.append_right _)
      have hqueues : Custody { app with disk := disk } :=
        hc.queues hdisk hc.rings (hpids.subperm (List.sublist_cons_self _ _).subperm)
      have hwake := (hqueues.cpu { app.cpu with cpuS := n }).wake
        (f := fun p => { p with status := .ready }) hpids hfind
        fun halive => ⟨rfl, rfl, rfl, rfl, by simp [halive]⟩
      exact hwake.cpu _

/-! ## The printer -/

/-- A new job is a fresh node at the end of the list. -/
theorem addToPrintQueue_keeps {app app' : App} {time pid : UInt32}
    (hok : addToPrintQueue app time pid = .ok app') : Keeps app app' := by
  obtain ⟨new, mem, lists, head, halloc, hnew, rfl, hlink⟩ := addToPrintQueue_nodes hok
  refine ⟨cAlloc_calls halloc, fun hfresh hc => ?_⟩
  obtain ⟨nodes, hnodes, howns⟩ := hc.holds
  have hmore := ((howns.alloc hfresh halloc).resolve_left fun hnull => hnew hnull.1).2
  rw [← List.append_assoc] at hmore
  have hdistinct := List.nodup_cons.mp hmore.nodup
  have hadded := hlink nodes hnodes (hdistinct.2.sublist (List.sublist_append_right _ _))
    fun hmem => hdistinct.1 (List.mem_append_right _ hmem)
  refine ⟨hc.table, hc.parks, hc.rings, hc.disk, ⟨nodes ++ [new], hadded.1, ?_⟩, hc.released⟩
  refine hmore.perm ?_
  rw [← List.append_assoc, ← List.append_assoc]
  exact List.perm_append_singleton new _

/-- The first job moves into a buffer that is empty. -/
theorem popPrint_keeps {app app' : App} (hempty : app.printer.printerBuffer = 0)
    (hok : popPrint app = .ok app') : Keeps app app' := by
  have hbuffered : app.printer.buffered = [] := if_pos hempty
  rcases popPrint_eq_ok hok with ⟨-, rfl⟩ | ⟨hhead, rfl⟩
  · refine .of_mem rfl fun hc => ⟨hc.table, hc.parks, hc.rings, hc.disk, ?_, hc.released⟩
    obtain ⟨nodes, hnodes, howns⟩ := hc.holds
    rw [hbuffered] at howns
    exact ⟨nodes, ⟨hnodes.chain, hnodes.tail⟩, howns⟩
  · refine .of_mem rfl fun hc => ⟨hc.table, hc.parks, hc.rings, hc.disk, ?_, hc.released⟩
    obtain ⟨nodes, hnodes, howns⟩ := hc.holds
    obtain ⟨rest, rfl, hrest⟩ := hnodes.pop hhead
    rw [hbuffered, List.nil_append] at howns
    refine ⟨rest, hrest, ?_⟩
    show app.mem.Owns (app.pcb.spaces ++
      ((if app.printer.head = 0 then [] else [app.printer.head]) ++ rest))
    rw [if_neg hhead]
    exact howns

/-- A turn of the printer counts the job in the buffer down, and may release it. -/
theorem printerLoopTurn_keeps {app app' : App} (hok : printerLoopTurn app = .ok app') :
    Keeps app app' := by
  obtain ⟨⟨finish, app₁⟩, hturn, hok⟩ := Except.bind_eq_ok.mp hok
  obtain ⟨hfinish, hbuffer⟩ := printerTurn_eq_ok hturn
  have hprinter : Keeps app app₁ := by
    rcases hbuffer with ⟨-, rfl⟩ | ⟨hne, ⟨-, rfl⟩ | ⟨-, mem, hfree, rfl⟩⟩
    · exact .refl _
    · refine .of_mem rfl fun hc => ⟨hc.table, hc.parks, hc.rings, hc.disk, ?_, hc.released⟩
      obtain ⟨nodes, hnodes, howns⟩ := hc.holds
      exact ⟨nodes, hnodes.countDown _, howns⟩
    · refine ⟨Memory.cDealloc_suffix hfree, fun _ hc =>
        ⟨hc.table, hc.parks, hc.rings, hc.disk, ?_, hc.released⟩⟩
      obtain ⟨nodes, hnodes, howns⟩ := hc.holds
      have hbuffered : app.printer.buffered = [app.printer.printerBuffer] := if_neg hne
      rw [hbuffered] at howns
      have hfirst := howns.perm List.perm_middle.symm
      have hlists := hnodes.countDown app.printer.printerBuffer
      exact ⟨nodes, ⟨hlists.chain, hlists.tail⟩, hfirst.dealloc hfree⟩
  dsimp only at hok
  split at hok
  · have hempty : app₁.printer.printerBuffer = 0 := by
      have htrue := hfinish.symm.trans ‹finish = true›
      exact (of_decide_eq_true htrue).1
    exact hprinter.trans (inCpu_keeps (fun n a hrun => popPrint_keeps hempty hrun) hok)
  · cases hok
    exact hprinter

end ChicOS
