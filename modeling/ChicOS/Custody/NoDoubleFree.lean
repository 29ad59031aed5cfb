-- SUMMARY: No double free: in which runs every address space that is released is live.
import ChicOS.Custody.Execution
import ChicOS.Cpu.OwnProgram

/-!
# No double free

`p_kill` releases the address space of a process and leaves its pointer in the
slot until the next turn of the CPU reaps it. In between, `exec_process` goes on
with the entry after the last instruction of the process it has killed, and
`clear_pcb` may run. The address space is released again if that entry takes the
process up, or if `clear_pcb` finds the dead process. In all other runs in which
the blocks handed out are fresh, every address space released is live.
-/

namespace ChicOS

/-! ## The scheduler -/

theorem noRunning_keeps {app app' : App} (hok : schedulerNoRunning app = .ok app') :
    Keeps app app' := by
  refine forSlots_induct (Keeps app) (fun {a a' k} _ ha hbody => ?_) (.refl app) hok
  rcases noRunningBody_eq_ok hbody with ⟨-, rfl⟩ | ⟨hrunning, rfl⟩
  · exact ha
  · refine ha.trans (.of_mem rfl fun hc => hc.modify ⟨rfl, rfl, rfl, rfl, by simp [hrunning]⟩ ?_)
    exact fun hparked => absurd hparked (Process.not_parked_of_running hrunning)

/-- The dead process leaves the table, and nobody is dead any more. -/
theorem Custody.reap {app : App} {i : Fin MAX_PCB} (h : Custody app)
    (hi : (app.pcb.slot i).status = .kill) (last : UInt8) :
    Custody { app with
      pcb := { app.pcb.shift i with last := last }
      trace := app.trace ++ [.reap (app.pcb.slot i).pid] } := by
  have hparked : ¬ (app.pcb.slot i).Parked := by simp [Process.Parked, hi]
  refine ⟨(h.table.shift i).of_slots rfl rfl fun _ => rfl,
    (h.parks.shift hparked).of_slots fun _ => rfl, h.rings, h.disk, ?_, fun space live hmem => ?_⟩
  · obtain ⟨nodes, hnodes, howns⟩ := h.holds
    exact ⟨nodes, hnodes,
      howns.subperm ((PCB.spaces_shift h.table i).append (List.Sublist.refl _)).subperm⟩
  · rcases List.mem_append.mp hmem with hold | hnew
    · exact h.released space live hold
    · cases List.mem_singleton.mp hnew

theorem killProcess_custody {app app' : App} (h : Custody app)
    (hok : schedulerKillProcess app = .ok app') : Custody app' ∧ app'.pcb.NoneDead := by
  -- after each index the dead process, if there still is one, lies behind it
  let inv : Nat → App → Prop := fun n a => Custody a ∧ ∀ k, (a.pcb.slot k).status = .kill → n ≤ k.val
  have hstep : ∀ {a a' : App} {i : Fin MAX_PCB}, i.val < MAX_PCB → inv i.val a →
      killBody a i = .ok a' → inv (i.val + 1) a' := by
    rintro a a' i - ⟨hc, hdead⟩ hbody
    rcases killBody_eq_ok hbody with ⟨halive, rfl⟩ | ⟨hkill, rfl⟩
    · refine ⟨hc, fun k hk => Nat.lt_of_le_of_ne (hdead k hk) fun heq => halive ?_⟩
      rw [Fin.ext heq]
      exact hk
    · exact ⟨hc.reap hkill _, fun k hk => absurd hk (hc.table.shift_noneDead hkill k)⟩
  obtain ⟨hc, hdead⟩ := forSlots_induct_index inv hstep ⟨h, fun _ _ => Nat.zero_le _⟩ hok
  exact ⟨hc, fun k hk => absurd (hdead k hk) (Nat.not_le.mpr k.isLt)⟩

/-- The process that is marked as running is neither parked nor dead. -/
theorem Custody.select {app : App} {k : Fin MAX_PCB} (h : Custody app) (hnone : app.pcb.NoneDead)
    (hblocked : (app.pcb.slot k).status ≠ .blocked) (hwaiting : (app.pcb.slot k).status ≠ .waiting) :
    Custody { app with
      pcb := app.pcb.modify k fun p => { p with status := .running, timeToRun := TIME_SLICE } } := by
  refine h.modify ⟨rfl, rfl, rfl, rfl, by simp [hnone k]⟩ fun hparked => ?_
  rcases hparked with hs | hs
  · exact absurd hs hblocked
  · exact absurd hs hwaiting

/-- The start of a turn reaps the dead, and selects a process to run. -/
theorem schedule_custody {app app' : App} {r : Option (Fin MAX_PCB)}
    (hok : schedule app = .ok (r, app')) :
    app.mem.calls <:+ app'.mem.calls ∧ (∀ k, r = some k → (app'.pcb.slot k).status = .running) ∧
      (app'.mem.Fresh → Custody app → Custody app' ∧ app'.pcb.NoneDead) := by
  obtain ⟨app₁, hready, hok⟩ := Except.bind_eq_ok.mp hok
  obtain ⟨app₂, hreap, hget⟩ := Except.bind_eq_ok.mp hok
  have htick : Keeps app { app with cpu.quantumTime := app.cpu.quantumTime + 1 } :=
    .of_mem rfl fun hc => hc.cpu _
  have hkeeps := htick.trans (noRunning_keeps hready)
  have hmem := killProcess_mem hreap
  have hreaped : app₂.mem.Fresh → Custody app → Custody app₂ ∧ app₂.pcb.NoneDead := by
    intro hfresh hc
    rw [hmem] at hfresh
    exact killProcess_custody (hkeeps.custody hfresh hc) hreap
  have hcalls := hkeeps.calls
  rw [← hmem] at hcalls
  rcases schedulerGetProcess_eq_ok hget with ⟨rfl, rfl⟩ | ⟨k, rfl, -, hblocked, hwaiting, rfl⟩
  · exact ⟨hcalls, fun k hk => (by cases hk), hreaped⟩
  · refine ⟨hcalls, ?_, fun hfresh hc => ?_⟩
    · rintro j ⟨⟩
      dsimp only
      rw [PCB.slot_modify_self]
    · obtain ⟨hc₂, hnone⟩ := hreaped hfresh hc
      refine ⟨hc₂.select hnone hblocked hwaiting, fun j hj => ?_⟩
      dsimp only at hj
      rw [PCB.slot_modify] at hj
      split at hj
      · cases hj
      · exact hnone j hj

/-! ## Turns -/

/-- The process selected, if it is at its end, is not taken up by what comes after. -/
def SelectedQuiet : Except Stop (Option (Fin MAX_PCB) × App) → Prop
  | .ok (some k, app) =>
    (app.pcb.slot k).c.pc = (app.pcb.slot k).c.last → app.takesUp (app.next k) = false
  | _ => True

instance : (r : Except Stop (Option (Fin MAX_PCB) × App)) → Decidable (SelectedQuiet r)
  | .ok (some k, app) =>
    inferInstanceAs (Decidable
      ((app.pcb.slot k).c.pc = (app.pcb.slot k).c.last → app.takesUp (app.next k) = false))
  | .ok (none, _) => inferInstanceAs (Decidable True)
  | .error _ => inferInstanceAs (Decidable True)

/-- A turn of the CPU takes no process up that it kills. -/
def App.EndsQuietly (app : App) : Turn → Prop
  | .cpu => app.loopStop = false → SelectedQuiet (schedule app)
  | _ => True

instance (app : App) : (turn : Turn) → Decidable (app.EndsQuietly turn)
  | .cpu => inferInstanceAs (Decidable (app.loopStop = false → SelectedQuiet (schedule app)))
  | .disk => inferInstanceAs (Decidable True)
  | .printer => inferInstanceAs (Decidable True)
  | .create _ => inferInstanceAs (Decidable True)
  | .signal => inferInstanceAs (Decidable True)

theorem processCreate_keeps {app app' : App} {path : List UInt8}
    (hok : interruptControl app .processCreate path = .ok app') : Keeps app app' := by
  refine inCpu_keeps (fun n a hcreate => ?_) hok
  obtain ⟨name, -, hcreate⟩ := Except.bind_eq_ok.mp hcreate
  obtain ⟨⟨pid, app₁⟩, hnew, hcreate⟩ := Except.bind_eq_ok.mp hcreate
  obtain ⟨u, -, hcreate⟩ := Except.bind_eq_ok.mp hcreate
  cases hcreate
  exact pCreate_keeps hnew

theorem createDebug_keeps {app app' : App} (hok : createDebug app = .ok app') : Keeps app app' := by
  unfold createDebug at hok
  split at hok
  · split at hok
    · exact processCreate_keeps hok
    · cases hok
      exact .refl _
  · cases hok
    exact .refl _

theorem cpuTurn_keeps {app app' : App} (hquiet : SelectedQuiet (schedule app))
    (hok : cpuTurn app = .ok app') : Keeps app app' := by
  obtain ⟨⟨r, app₁⟩, hschedule, hok⟩ := Except.bind_eq_ok.mp hok
  obtain ⟨app₂, hselected, hcreate⟩ := Except.bind_eq_ok.mp hok
  obtain ⟨hcalls, hrun, hcustody⟩ := schedule_custody hschedule
  have hselected : KeepsAlive app₁ app₂ := by
    cases r with
    | none =>
        cases hselected
        exact (Keeps.refl _).alive
    | some k =>
        rw [hschedule] at hquiet
        exact execProcess_keeps (hrun k rfl) hquiet (runSelected_eq_ok hselected)
  have hrest := hselected.trans (createDebug_keeps hcreate)
  refine ⟨hcalls.trans hrest.calls, fun hfresh hc => ?_⟩
  obtain ⟨hc₁, hnone⟩ := hcustody (hfresh.of_suffix hrest.calls) hc
  exact hrest.custody hfresh hc₁ hnone

theorem turn_keeps {app app' : App} {turn : Turn} (hquiet : app.EndsQuietly turn)
    (hok : app.turn turn = .ok app') : Keeps app app' := by
  have hstopped : Keeps app { app with loopStop := true } :=
    .of_mem rfl fun hc => ⟨hc.table, hc.parks, hc.rings, hc.disk, hc.holds, hc.released⟩
  by_cases hstop : app.loopStop = true
  · cases turn with
    | signal =>
        cases hok
        exact hstopped
    | cpu | disk | printer | create =>
        rw [App.turn, if_pos hstop] at hok
        cases hok
        exact .refl _
  · cases turn with
    | cpu =>
        rw [App.turn, if_neg hstop] at hok
        exact cpuTurn_keeps (hquiet (Bool.eq_false_of_not_eq_true hstop)) hok
    | disk =>
        rw [App.turn, if_neg hstop] at hok
        exact diskLoopTurn_keeps hok
    | printer =>
        rw [App.turn, if_neg hstop] at hok
        exact printerLoopTurn_keeps hok
    | create path =>
        rw [App.turn, if_neg hstop] at hok
        exact processCreate_keeps hok
    | signal =>
        cases hok
        exact hstopped

/-! ## Initialisation -/

/-- Nothing has been handed out that will be given back. -/
theorem initApp_custody {heap : Heap} {fs : List UInt8 → Option (List UInt8)} {debug : Bool}
    {pool : Bytes.Mem} {memSize : UInt32} {app : App}
    (hinit : initApp (App.boot heap fs debug) pool memSize = .ok app) (hfresh : app.mem.Fresh) :
    Custody app := by
  obtain ⟨app₁, hsem, hinit⟩ := Except.bind_eq_ok.mp hinit
  obtain ⟨st, hlist, hsem⟩ := Except.bind_eq_ok.mp hsem
  cases hsem
  cases hinit
  obtain ⟨⟨p, mem⟩, halloc, hlist⟩ := Except.bind_eq_ok.mp hlist
  dsimp only at hlist
  split at hlist
  · cases hlist
  cases hlist
  have hspaces : (initPcb PCB.zero).spaces = [] := by
    refine Cells.held_eq_nil fun i hi => ?_
    have hzero : (initPcb PCB.zero).slot ⟨i, hi⟩ = Process.zero := PCB.slot_initPcb ⟨i, hi⟩
    exact (congrArg Process.spaces hzero).trans (Process.spaces_unused .zero)
  have hnone : (initMem pool memSize).Owns [] := .of_calls_nil rfl
  have howns := hnone.alloc_old hfresh halloc
  rw [← List.append_nil []] at howns
  refine ⟨PCB.Shape.start, ?_, ?_, ⟨Nat.zero_le _, Nat.one_ne_zero⟩, ⟨[], ⟨.nil, ?_⟩, ?_⟩, ?_⟩
  · rw [App.parked, SemaphoreList.parked, Cells.held_eq_nil fun i hi => by simp [Semaphore.parked]]
    exact ⟨List.nodup_nil, fun pid hpid => (by cases hpid)⟩
  · intro i hi
    simp [SemaphoreList.entry] at hi
  · rintro a ⟨⟩
  · show mem.Owns ((initPcb PCB.zero).spaces ++ ([] ++ []))
    rw [hspaces]
    exact howns
  · intro space live hmem
    cases hmem

/-! ## Shutdown -/

/-- The address spaces of the slots from an index on. -/
def PCB.spacesFrom (pcb : PCB) (n : Nat) : List Addr :=
  (pcb.processStack.toList.drop n).flatMap Process.spaces

theorem PCB.spacesFrom_slot (pcb : PCB) (k : Fin MAX_PCB) :
    pcb.spacesFrom k.val = (pcb.slot k).spaces ++ pcb.spacesFrom (k.val + 1) := by
  have hlen : k.val < pcb.processStack.toList.length := by simp
  rw [spacesFrom, List.drop_eq_getElem_cons hlen, List.flatMap_cons]
  simp [slot, spacesFrom]

/-- With nobody dead, `clear_pcb` releases address spaces that are live. -/
theorem clearPcb_releasesLive {app app' : App} (h : Custody app) (hnone : app.pcb.NoneDead)
    (hok : clearPcb app = .ok app') : app'.ReleasesLive := by
  -- before each index the address spaces from there on are live and distinct
  let inv : Nat → App → Prop := fun n a =>
    a.pcb = app.pcb ∧ a.ReleasesLive ∧ a.mem.Owns (app.pcb.spacesFrom n)
  have hstep : ∀ {a a' : App} {k : Fin MAX_PCB}, k.val < MAX_PCB → inv k.val a →
      clearBody a k = .ok a' → inv (k.val + 1) a' := by
    rintro a a' k - ⟨hpcb, hreleased, howns⟩ hbody
    unfold clearBody at hbody
    rw [hpcb] at hbody
    rw [PCB.spacesFrom_slot] at howns
    dsimp only at hbody
    split at hbody
    · rename_i hspace
      obtain ⟨mem, hfree, rfl⟩ := release_eq_ok hbody
      rw [Process.spaces_some (hnone k) hspace] at howns
      exact ⟨hpcb, hreleased.append (howns.isLive List.mem_cons_self) rfl, howns.dealloc hfree⟩
    · rename_i hspace
      cases hbody
      rw [Process.spaces_none (not_not.mp hspace)] at howns
      exact ⟨hpcb, hreleased, howns⟩
  obtain ⟨nodes, -, howns⟩ := h.holds
  have hstart : inv 0 app :=
    ⟨rfl, h.released, howns.subperm (List.sublist_append_left _ _).subperm⟩
  exact (forSlots_induct_index inv hstep hstart hok).2.1

/-! ## Runs -/

/-- No address space is released that is not live: not so far, not by the next call
that releases one, and not by `clear_pcb`. -/
structure NoDoubleFree (app : App) : Prop where
  released : app.ReleasesLive
  live : ∀ k, (app.pcb.slot k).status ≠ .kill → (app.pcb.slot k).addressSpace ≠ 0 →
    app.mem.IsLive (app.pcb.slot k).addressSpace
  cleared : app.pcb.NoneDead → ∀ app', clearPcb app = .ok app' → app'.ReleasesLive

theorem Custody.noDoubleFree {app : App} (h : Custody app) : NoDoubleFree app := by
  refine ⟨h.released, fun k halive hspace => ?_, fun hnone app' hok =>
    clearPcb_releasesLive h hnone hok⟩
  obtain ⟨nodes, -, howns⟩ := h.holds
  refine howns.isLive (List.mem_append_left _ ?_)
  rw [(app.pcb.spaces_perm k).mem_iff, Process.spaces_some halive hspace]
  exact List.mem_cons_self

/-- In every run from `init_app` in which the blocks handed out are fresh and no
process is taken up at its end, there is no double free, up to `clear_pcb` if it
finds nobody dead. -/
theorem no_double_free {heap : Heap} {fs : List UInt8 → Option (List UInt8)} {debug : Bool}
    {pool : Bytes.Mem} {memSize : UInt32} {app t : App} (turns : List Turn)
    (hinit : initApp (App.boot heap fs debug) pool memSize = .ok app)
    (hrun : Run.run App.turn app turns = .ok t)
    (hquiet : Run.Meets App.turn App.EndsQuietly app turns) (hfresh : t.mem.Fresh) :
    NoDoubleFree t := by
  have hcustody := Run.run_invariant (fun s => s.mem.Fresh → Custody s)
    (fun {s turn s'} hs hguard hok hfresh' =>
      let hkeeps := turn_keeps hguard hok
      hkeeps.custody hfresh' (hs (hfresh'.of_suffix hkeeps.calls)))
    (initApp_custody hinit) hquiet hrun
  exact (hcustody hfresh).noDoubleFree

/-! ## A process that is reaped in time, and one that is not -/

instance (pcb : PCB) : Decidable pcb.NoneDead :=
  inferInstanceAs (Decidable (∀ k, (pcb.slot k).status ≠ .kill))

/-- The process grows in the first turn of the CPU, is killed in the third and reaped
in the fourth; another one is cleared. -/
theorem no_double_free_reaped :
    ∃ app t t', initApp (App.boot Heap.zero (oneProgram "a 1 1 1\n\n\nexec 1200\n") false)
        (fun _ => 0) 65536 = .ok app ∧
      Run.run App.turn app [.create (ascii "a"), .cpu, .cpu, .cpu, .cpu, .create (ascii "a"),
        .signal] = .ok t ∧ NoDoubleFree t ∧ clearPcb t = .ok t' ∧ t'.ReleasesLive ∧
      t'.trace = [.create 0, .dispatch 0 0 1, .release 1032 true, .dispatch 0 0 1,
        .sysCall 0 .processKill, .release 11272 true, .dispatch 0 1 1, .reap 0, .create 1,
        .release 1032 true] := by
  have hrun : (((initApp (App.boot Heap.zero (oneProgram "a 1 1 1\n\n\nexec 1200\n") false)
      (fun _ => 0) 65536).toOption.bind fun app =>
        Run.runChecked App.turn App.EndsQuietly app [.create (ascii "a"), .cpu, .cpu, .cpu, .cpu,
          .create (ascii "a"), .signal]).bind fun t => (clearPcb t).toOption.map fun t' =>
        (decide t.mem.Fresh, decide t.pcb.NoneDead, t'.trace))
      = some (true, true, [.create 0, .dispatch 0 0 1, .release 1032 true, .dispatch 0 0 1,
        .sysCall 0 .processKill, .release 11272 true, .dispatch 0 1 1, .reap 0, .create 1,
        .release 1032 true]) := by
    decide +kernel
  obtain ⟨t, ht, hend⟩ := Option.bind_eq_some_iff.mp hrun
  obtain ⟨t', hclear, hend⟩ := Option.map_eq_some_iff.mp hend
  obtain ⟨hfresh, hend⟩ := Prod.mk.inj hend
  obtain ⟨hnone, htrace⟩ := Prod.mk.inj hend
  obtain ⟨app, hinit, ht⟩ := Option.bind_eq_some_iff.mp ht
  have hinit := Except.toOption_eq_ok.mp hinit
  have hclear := Except.toOption_eq_ok.mp hclear
  obtain ⟨hquiet, hrun⟩ := Run.runChecked_eq_some ht
  have hsafe := no_double_free _ hinit hrun hquiet (of_decide_eq_true hfresh)
  exact ⟨app, t, t', hinit, hrun, hsafe, hclear,
    hsafe.cleared (of_decide_eq_true hnone) t' hclear, htrace⟩

/-- The loops end after the turn that kills a process, before it is reaped. -/
theorem not_always_releasesLive :
    ¬ ∀ (heap : Heap) (fs : List UInt8 → Option (List UInt8)) (debug : Bool) (pool : Bytes.Mem)
      (memSize : UInt32) (app t t' : App) (turns : List Turn),
      initApp (App.boot heap fs debug) pool memSize = .ok app →
      Run.run App.turn app turns = .ok t → clearPcb t = .ok t' → t'.ReleasesLive := by
  intro h
  have hrun : (((initApp (App.boot Heap.zero (oneProgram "a 1 1 1\n\n") false)
      (fun _ => 0) 16384).toOption.bind fun app =>
        (Run.run App.turn app [.create (ascii "a"), .cpu, .signal]).toOption).bind fun t =>
          (clearPcb t).toOption.map fun t' => decide (.release 1032 false ∈ t'.trace))
      = some true := by
    decide +kernel
  obtain ⟨t, ht, hend⟩ := Option.bind_eq_some_iff.mp hrun
  obtain ⟨t', hclear, hmem⟩ := Option.map_eq_some_iff.mp hend
  obtain ⟨app, hinit, hrun⟩ := Option.bind_eq_some_iff.mp ht
  have hlive := h _ _ _ _ _ app t t' _ (Except.toOption_eq_ok.mp hinit)
    (Except.toOption_eq_ok.mp hrun) (Except.toOption_eq_ok.mp hclear)
  exact absurd (hlive _ _ (of_decide_eq_true hmem)) Bool.false_ne_true

end ChicOS
