-- SUMMARY: Executing an instruction keeps custody, also after the end of the program unless it takes its process up again.
import ChicOS.Custody.Devices

/-!
# Executing an instruction

`exec_process` kills a process at the end of its program, and goes on with the
entry after the last instruction. Most instructions do no harm there. A time slice
long enough to grow the process, a disk request and a P that finds no unit take
the dead process up again: `takesUp` tells which they are.
-/

namespace ChicOS

/-! ## Time slices -/

/-- A step that keeps custody, and the code and the status of the process in a slot. -/
structure Steady (k : Fin MAX_PCB) (app app' : App) : Prop extends Keeps app app' where
  it : (app'.pcb.slot k).c.it = (app.pcb.slot k).c.it
  status : (app'.pcb.slot k).status = (app.pcb.slot k).status

namespace Steady

variable {app app' app'' : App} {k : Fin MAX_PCB}

theorem trans (h : Steady k app app') (h' : Steady k app' app'') : Steady k app app'' :=
  ⟨h.toKeeps.trans h'.toKeeps, h'.it.trans h.it, h'.status.trans h.status⟩

theorem modify (f : Process → Process) (hf : ∀ p : Process, p.Same (f p))
    (hs : ∀ p, (f p).status = p.status) : Steady k app { app with pcb := app.pcb.modify k f } := by
  refine ⟨.of_mem rfl fun hc => hc.modify (hf _) fun hparked => ?_, ?_, ?_⟩
  · unfold Process.Parked
    rw [hs]
    exact hparked
  · dsimp only
    rw [PCB.slot_modify_self, (hf _).it]
  · dsimp only
    rw [PCB.slot_modify_self, hs]

end Steady

/-- The time that a slice takes is in the instruction and in the slot. -/
theorem sliced_steady (app : App) (k : Fin MAX_PCB) : Steady k app (app.sliced k) := by
  have hslot : Steady k app { app with
      pcb := app.pcb.modify k fun p => { p with timeToRun := 0, hUsed := p.hUsed + 1 } } :=
    .modify _ (fun _ => ⟨rfl, rfl, rfl, rfl, Iff.rfl⟩) fun _ => rfl
  exact hslot.trans ⟨.of_mem rfl fun hc => hc.heap rfl, rfl, rfl⟩

/-- A short instruction runs for its own time. -/
theorem lTime_le_remainingTime {app : App} {k : Fin MAX_PCB}
    (h : MAX_TIME_MORE_PAGES ≤ app.lTime k) : MAX_TIME_MORE_PAGES ≤ (app.next k).remainingTime := by
  unfold App.lTime at h
  split at h
  · exact h
  · exact UInt32.not_lt.mp ‹_›

/-- A time slice grows the process only if it is long enough. -/
theorem execSlice_keeps {app app' : App} {k : Fin MAX_PCB} {c : Instruction} {done : Bool}
    (hk : (app.pcb.slot k).c.it ≠ 0) (hfetch : app.fetch k = .ok c)
    (hrun : MAX_TIME_MORE_PAGES ≤ c.remainingTime → (app.pcb.slot k).status = .running)
    (hok : execSlice app k = .ok (done, app')) : Keeps app app' := by
  obtain ⟨-, rfl⟩ := fetch_eq_ok hfetch
  have hsliced := sliced_steady app k
  rcases (execSlice_eq_ok hok).2 with rfl | ⟨hlong, n, bytes, app₁, hrealloc, rfl⟩
  · exact hsliced.toKeeps
  · -- the growth, under the lock of the table
    have hentry : Keeps (app.sliced k) { app.sliced k with pcb.pcbS := n } :=
      .of_mem rfl fun hc => hc.pcbS n
    have hexit : Keeps app₁ { app₁ with pcb.pcbS := app₁.pcb.pcbS + 1 } :=
      .of_mem rfl fun hc => hc.pcbS _
    have hit : ((app.sliced k).pcb.slot k).c.it ≠ 0 := by
      rw [hsliced.it]
      exact hk
    have hrunning : ((app.sliced k).pcb.slot k).status = .running := by
      rw [hsliced.status]
      exact hrun (lTime_le_remainingTime hlong)
    have hspace : ((app.sliced k).pcb.slot k).addressSpace = (app.pcb.slot k).addressSpace := by
      rw [App.sliced_slot]
    rw [← hspace] at hrealloc
    have hgrow : Keeps { app.sliced k with pcb.pcbS := n } app₁ :=
      pRealloc_keeps (k := k) hit hrunning hrealloc
    exact hsliced.toKeeps.trans ((hentry.trans hgrow).trans hexit)

/-! ## Instructions -/

/-- An instruction that takes its process up: it grows it, or parks it. -/
def App.takesUp (app : App) (c : Instruction) : Bool :=
  match c.e with
  | .processExec => decide (MAX_TIME_MORE_PAGES ≤ c.remainingTime)
  | .diskRequest => true
  | .semaphoreP =>
    match getSemaphoreByName app c.semName with
    | some i => decide ((app.semaphores.entry i).value - 1 < 0)
    | none => false
  | _ => false

/-- It depends on the semaphores only. -/
theorem takesUp_congr {app app' : App} (h : app'.semaphores = app.semaphores) (c : Instruction) :
    app'.takesUp c = app.takesUp c := by
  simp only [App.takesUp, getSemaphoreByName, h]

theorem takesUp_semaphoreP {app : App} {c : Instruction} {i : Fin MAX_SIZE_SEMAPHORES}
    (he : c.e = .semaphoreP) (hi : getSemaphoreByName app c.semName = some i)
    (hneg : (app.semaphores.entry i).value - 1 < 0) : app.takesUp c = true := by
  simpa only [App.takesUp, he, hi] using decide_eq_true hneg

theorem note_keeps (app : App) {e : Event} (he : ∀ space live, e ≠ .release space live) :
    Keeps app (app.note e) := .of_mem rfl fun hc => hc.note he

theorem execSysCall_keeps {app app' : App} {pid : UInt32} {e : Events} {buffer : List UInt8}
    (hok : execSysCall app pid e buffer = .ok app')
    (hcall : ∀ {a}, sysCall (app.note (.sysCall pid e)) e buffer = .ok a →
      Keeps (app.note (.sysCall pid e)) a) : Keeps app app' := by
  have hnote : Keeps app (app.note (.sysCall pid e)) := note_keeps app fun _ _ h => by cases h
  exact hnote.trans (hcall hok)

theorem execDisk_keeps {app app' : App} {k : Fin MAX_PCB} {c : Instruction}
    (hk : (app.pcb.slot k).c.it ≠ 0) (hrun : (app.pcb.slot k).status = .running)
    (hok : execDisk app (app.pcb.slot k) c = .ok app') : Keeps app app' := by
  obtain ⟨rw, -, hok⟩ := Except.bind_eq_ok.mp hok
  obtain ⟨app₁, hcount, hok⟩ := Except.bind_eq_ok.mp hok
  have hheader : Keeps app app₁ := by
    refine inCpu_keeps (fun n a hheader => ?_) hcount
    cases hheader
    exact .of_mem rfl fun hc => hc.heap rfl
  have hpcb : app₁.pcb = app.pcb := by
    obtain ⟨n, a, hstore, rfl⟩ := inCpu_eq_ok hcount
    cases hstore
    rfl
  rw [← hpcb] at hk hrun hok
  refine hheader.trans (execSysCall_keeps hok fun hcall => inCpu_keeps (fun n a hcall => ?_) hcall)
  obtain ⟨hpid, htrack⟩ := scanU_printPidAnd (app₁.pcb.slot k).pid c.remainingTime
  obtain ⟨r, hscan, hcall⟩ := Except.bind_eq_ok.mp hcall
  cases hpid.symm.trans hscan
  obtain ⟨r, hscan, hcall⟩ := Except.bind_eq_ok.mp hcall
  cases htrack.symm.trans hscan
  exact diskRequest_keeps (k := k) hk hrun hcall

/-- An instruction keeps custody, unless it takes up a process that is not running. -/
theorem dispatch_keeps {app app' : App} {k : Fin MAX_PCB} {c : Instruction} {done : Bool}
    (hk : (app.pcb.slot k).c.it ≠ 0) (hfetch : app.fetch k = .ok c)
    (hrun : app.takesUp c = true → (app.pcb.slot k).status = .running)
    (hok : dispatch app k c = .ok (done, app')) : Keeps app app' := by
  unfold dispatch at hok
  dsimp only at hok
  split at hok
  · rename_i he
    obtain ⟨a, hcall, hok⟩ := Except.bind_eq_ok.mp hok
    cases hok
    refine execSysCall_keeps hcall fun hcall => inCpu_keeps (fun n a hcall => ?_) hcall
    obtain ⟨r, hscan, hcall⟩ := Except.bind_eq_ok.mp hcall
    obtain ⟨hname, rfl⟩ := scanC_printSem hscan
    obtain ⟨r, hscan, hcall⟩ := Except.bind_eq_ok.mp hcall
    cases ((scanU_printPidAnd 0 _).2).symm.trans hscan
    refine semaphoreP_keeps (k := k) hname hk (fun i hi hneg => ?_) hcall
    exact hrun (takesUp_semaphoreP he hi hneg)
  · obtain ⟨a, hcall, hok⟩ := Except.bind_eq_ok.mp hok
    cases hok
    refine execSysCall_keeps hcall fun hcall => inCpu_keeps (fun n a hcall => ?_) hcall
    obtain ⟨r, hscan, hcall⟩ := Except.bind_eq_ok.mp hcall
    obtain ⟨hname, rfl⟩ := scanC_printSem hscan
    exact semaphoreV_keeps hname hcall
  · rename_i he
    refine execSlice_keeps hk hfetch (fun hlong => hrun ?_) hok
    simpa only [App.takesUp, he] using decide_eq_true hlong
  · rename_i he
    obtain ⟨a, hcall, hok⟩ := Except.bind_eq_ok.mp hok
    cases hok
    refine execDisk_keeps hk (hrun ?_) hcall
    simp only [App.takesUp, he]
  · obtain ⟨a, hcall, hok⟩ := Except.bind_eq_ok.mp hok
    cases hok
    refine execSysCall_keeps hcall fun hcall => inCpu_keeps (fun n a hcall => ?_) hcall
    obtain ⟨r, -, hcall⟩ := Except.bind_eq_ok.mp hcall
    obtain ⟨r, -, hcall⟩ := Except.bind_eq_ok.mp hcall
    exact addToPrintQueue_keeps hcall
  · cases hok
    exact .refl _

theorem execInstruction_keeps {app app' : App} {k : Fin MAX_PCB}
    (hrun : app.takesUp (app.next k) = true → (app.pcb.slot k).status = .running)
    (hok : execInstruction app k = .ok app') : Keeps app app' := by
  obtain ⟨c, hfetch, hok⟩ := Except.bind_eq_ok.mp hok
  obtain ⟨hk, rfl⟩ := fetch_eq_ok hfetch
  obtain ⟨⟨done, app₁⟩, hdispatch, hok⟩ := Except.bind_eq_ok.mp hok
  have hnote : Keeps app (app.note (.dispatch (app.pcb.slot k).pid (app.pcb.slot k).c.pc
      (app.pcb.slot k).c.last)) := note_keeps app fun _ _ h => by cases h
  have hkeeps := hnote.trans (dispatch_keeps hk hfetch hrun hdispatch)
  dsimp only at hok
  split at hok
  · cases hok
    refine hkeeps.trans (.of_mem rfl fun hc => hc.modify ?_ id)
    exact ⟨rfl, rfl, rfl, rfl, Iff.rfl⟩
  · cases hok
    exact hkeeps

/-! ## The end of a program -/

/-- A kill leaves code, instructions and semaphores as they are. -/
theorem pKill_frame {app app' : App} {pid : UInt32} (hok : pKill app pid = .ok app') :
    app'.heap = app.heap ∧ app'.semaphores = app.semaphores ∧
      ∀ k, (app'.pcb.slot k).c = (app.pcb.slot k).c := by
  have hslot : ∀ i k, ((app.pcb.modify i fun p => { p with status := .kill }).slot k).c
      = (app.pcb.slot k).c := fun i k => app.pcb.slot_modify_congr i k Process.c rfl
  rcases pKill_eq_ok hok with ⟨-, rfl⟩ | ⟨i, -, -, ⟨-, rfl⟩ | ⟨-, mem, -, rfl⟩⟩
  · exact ⟨rfl, rfl, fun _ => rfl⟩
  · exact ⟨rfl, rfl, hslot i⟩
  · exact ⟨rfl, rfl, hslot i⟩

/-- The running process is killed at the end of its program, and what comes after it
is fetched from where it was. -/
theorem endOfProgram_keeps {app app' : App} {k : Fin MAX_PCB}
    (hrun : (app.pcb.slot k).status = .running)
    (hok : execSysCall app (app.pcb.slot k).pid .processKill (printPid (app.pcb.slot k).pid)
      = .ok app') :
    ((app.pcb.slot k).c.it ≠ 0 → KeepsAlive app app') ∧ (app'.pcb.slot k).c = (app.pcb.slot k).c ∧
      app'.takesUp (app'.next k) = app.takesUp (app.next k) := by
  unfold execSysCall sysCall at hok
  obtain ⟨n, a, hcall, rfl⟩ := inCpu_eq_ok hok
  obtain ⟨r, hscan, hkill⟩ := Except.bind_eq_ok.mp hcall
  rw [scanU_printPid_end] at hscan
  cases hscan
  obtain ⟨hheap, hsems, hslot⟩ := pKill_frame hkill
  have hslot : (a.pcb.slot k).c = (app.pcb.slot k).c := hslot k
  have hnext : a.next k = app.next k := by
    unfold App.next
    rw [hheap, hslot]
    rfl
  refine ⟨fun hk => ?_, hslot, ?_⟩
  · let entered : App :=
      { app.note (.sysCall (app.pcb.slot k).pid .processKill) with cpu.cpuS := n }
    have hkeeps : KeepsAlive entered a := pKill_keeps (k := k) hk hrun hkill
    refine ⟨hkeeps.calls, fun hfresh hc hnone => Custody.cpu (hkeeps.custody hfresh ?_ hnone) _⟩
    have hnote : Custody (app.note (.sysCall (app.pcb.slot k).pid .processKill)) :=
      hc.note fun _ _ h => by cases h
    exact hnote.cpu _
  · show a.takesUp (a.next k) = _
    rw [hnext]
    exact takesUp_congr hsems _

/-- Executing the running process keeps custody, unless it is at its end and the
entry that comes after takes it up. -/
theorem execProcess_keeps {app app' : App} {k : Fin MAX_PCB}
    (hrun : (app.pcb.slot k).status = .running)
    (hquiet : (app.pcb.slot k).c.pc = (app.pcb.slot k).c.last → app.takesUp (app.next k) = false)
    (hok : execProcess app k = .ok app') : KeepsAlive app app' := by
  unfold execProcess at hok
  dsimp only at hok
  split at hok
  · refine (execSysCall_keeps hok fun hcall => inCpu_keeps (fun n a hcall => ?_) hcall).alive
    obtain ⟨r, -, hcall⟩ := Except.bind_eq_ok.mp hcall
    obtain ⟨i, -, -, rfl⟩ := pUpdate_eq_ok hcall
    exact .of_mem rfl fun hc => hc.modify ⟨rfl, rfl, rfl, rfl, Iff.rfl⟩ id
  obtain ⟨app₁, hend, hexec⟩ := Except.bind_eq_ok.mp hok
  split at hend
  · rename_i hpc
    obtain ⟨hkill, hcode, htakes⟩ := endOfProgram_keeps hrun hend
    have hk : (app.pcb.slot k).c.it ≠ 0 := by
      obtain ⟨c, hfetch, -⟩ := Except.bind_eq_ok.mp hexec
      rw [← hcode]
      exact (fetch_eq_ok hfetch).1
    refine (hkill hk).trans (execInstruction_keeps (fun htrue => ?_) hexec)
    rw [htakes, hquiet hpc] at htrue
    cases htrue
  · cases hend
    exact (execInstruction_keeps (fun _ => hrun) hexec).alive

end ChicOS
