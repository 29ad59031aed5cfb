-- SUMMARY: In every run of the machine the processes that have stopped are just those queued.
import ChicOS.Custody.Queued

/-!
# Whoever stops is queued

Every instruction and every turn of the machine keeps `Attended`: the process that is executed
is not parked, so when it is parked it was in no queue before. This is so also after the end of
a program, when the process is dead and the entry after the last instruction is executed.
-/

namespace ChicOS

namespace Attended

variable {app app' : App} {k : Fin MAX_PCB} {pid : UInt32}

-- ---------------------------------------------------------------------------
-- Instructions
-- ---------------------------------------------------------------------------

/-- A growth declares the semaphores again, and moves the code. -/
theorem pRealloc {region : Addr} {bytes : UInt32} (h : Attended app)
    (hk : (app.pcb.slot k).c.it ≠ 0) (hok : ChicOS.pRealloc app k region bytes = .ok app') :
    Attended app' := by
  by_cases hregion : region = 0
  · rw [ChicOS.pRealloc, if_pos hregion] at hok
    cases hok
    exact h
  obtain ⟨it, buffer, fp, fp₁, m₁, m₂, m₃, m₄, st₁, st₂, c, hgrown, rfl⟩ :=
    pRealloc_eq_ok hok hregion
  have hheader := readHeader_queued (by unfold Store.saved; exact h.semaphores) hgrown.header
  have hloaded := loadCode_semaphores hgrown.code
  have hcode : st₂.semaphores = st₁.semaphores := hloaded
  have hused := h.table.used_of_it hk
  let move : Process → Process := fun p => p.move buffer
  have htable : (app.pcb.modify k move).Shape :=
    h.table.modify rfl rfl (fun hfree => absurd hfree hused)
      fun hdead j hj => h.table.oneDead j k hj hdead
  have hmoved : Attended { app with pcb := app.pcb.modify k move } :=
    h.modify htable rfl rfl (.inl rfl)
  have hsems : st₂.semaphores.Ok ∧ st₂.semaphores.parked.Perm app.semaphores.parked := by
    rw [hcode]
    exact hheader
  exact (hmoved.setSemaphores hsems.1 hsems.2).of_eq rfl rfl rfl

theorem execSlice {done : Bool} (h : Attended app) (hk : (app.pcb.slot k).c.it ≠ 0)
    (hok : ChicOS.execSlice app k = .ok (done, app')) : Attended app' := by
  have htaken : Attended { app with
      pcb := app.pcb.modify k fun p => { p with timeToRun := 0, hUsed := p.hUsed + 1 } } :=
    h.modify_same ⟨rfl, rfl, rfl, rfl, Iff.rfl⟩ rfl
  have hsliced : Attended (app.sliced k) := htaken.of_eq rfl rfl rfl
  rcases (execSlice_eq_ok hok).2 with rfl | ⟨-, n, bytes, app₁, hrealloc, rfl⟩
  · exact hsliced
  · have hentry : Attended { app.sliced k with pcb.pcbS := n } := hsliced.congr rfl rfl rfl
    have hit : ((app.sliced k).pcb.slot k).c.it ≠ 0 := by
      rw [App.sliced_slot]
      exact hk
    exact (hentry.pRealloc hit hrealloc).congr rfl rfl rfl

/-- The history does not matter. -/
theorem note (h : Attended app) (e : Event) : Attended (app.note e) := h.of_eq rfl rfl rfl

/-- A system call for a process. -/
theorem execSysCall {e : Events} {buffer : List UInt8} (h : Attended app)
    (hf : Attended (app.note (.sysCall pid e)) →
      sysCall (app.note (.sysCall pid e)) e buffer = .ok app' → Attended app')
    (hok : ChicOS.execSysCall app pid e buffer = .ok app') : Attended app' := hf (h.note _) hok

theorem execDisk {c : Instruction} (h : Attended app) (hk : (app.pcb.slot k).c.it ≠ 0)
    (hnot : ¬ (app.pcb.slot k).Parked)
    (hok : ChicOS.execDisk app (app.pcb.slot k) c = .ok app') : Attended app' := by
  obtain ⟨rw, -, hok⟩ := Except.bind_eq_ok.mp hok
  obtain ⟨app₁, hcount, hok⟩ := Except.bind_eq_ok.mp hok
  have hcounted : Attended app₁ := by
    refine h.inCpu (fun ha _ _ hheader => ?_) hcount
    cases hheader
    exact ha.of_eq rfl rfl rfl
  have hpcb : app₁.pcb = app.pcb := by
    obtain ⟨n, a, hstore, rfl⟩ := inCpu_eq_ok hcount
    cases hstore
    rfl
  rw [← hpcb] at hk hnot hok
  refine hcounted.execSysCall (fun h₁ hcall =>
    h₁.inCpu (fun {a a'} ha hsame _ hcall => ?_) hcall) hok
  have hsame : a.pcb = app₁.pcb := hsame
  obtain ⟨hpid, htrack⟩ := scanU_printPidAnd (app₁.pcb.slot k).pid c.remainingTime
  obtain ⟨r, hscan, hcall⟩ := Except.bind_eq_ok.mp hcall
  cases hpid.symm.trans hscan
  obtain ⟨r, hscan, hcall⟩ := Except.bind_eq_ok.mp hcall
  cases htrack.symm.trans hscan
  rw [← hsame] at hk hnot hcall
  exact ha.diskRequest hk hnot hcall

/-- An instruction of a process that is not parked. -/
theorem dispatch {c : Instruction} {done : Bool} (h : Attended app)
    (hk : (app.pcb.slot k).c.it ≠ 0) (hnot : ¬ (app.pcb.slot k).Parked)
    (hok : ChicOS.dispatch app k c = .ok (done, app')) : Attended app' := by
  unfold ChicOS.dispatch at hok
  dsimp only at hok
  split at hok
  · obtain ⟨a, hcall, hok⟩ := Except.bind_eq_ok.mp hok
    cases hok
    refine h.execSysCall (fun h₁ hcall =>
      h₁.inCpu (fun {a a'} ha hsame _ hcall => ?_) hcall) hcall
    have hsame : a.pcb = app.pcb := hsame
    obtain ⟨r, hscan, hcall⟩ := Except.bind_eq_ok.mp hcall
    obtain ⟨hname, rfl⟩ := scanC_printSem hscan
    obtain ⟨r, hscan, hcall⟩ := Except.bind_eq_ok.mp hcall
    cases ((scanU_printPidAnd 0 _).2).symm.trans hscan
    rw [← hsame] at hk hnot hcall
    exact ha.semaphoreP hname hk hnot hcall
  · obtain ⟨a, hcall, hok⟩ := Except.bind_eq_ok.mp hok
    cases hok
    refine h.execSysCall (fun h₁ hcall => h₁.inCpu (fun ha _ _ hcall => ?_) hcall) hcall
    obtain ⟨r, hscan, hcall⟩ := Except.bind_eq_ok.mp hcall
    obtain ⟨hname, rfl⟩ := scanC_printSem hscan
    exact ha.semaphoreV hname hcall
  · exact h.execSlice hk hok
  · obtain ⟨a, hcall, hok⟩ := Except.bind_eq_ok.mp hok
    cases hok
    exact h.execDisk hk hnot hcall
  · obtain ⟨a, hcall, hok⟩ := Except.bind_eq_ok.mp hok
    cases hok
    refine h.execSysCall (fun h₁ hcall => h₁.inCpu (fun ha _ _ hcall => ?_) hcall) hcall
    obtain ⟨r, -, hcall⟩ := Except.bind_eq_ok.mp hcall
    obtain ⟨r, -, hcall⟩ := Except.bind_eq_ok.mp hcall
    exact ha.addToPrintQueue hcall
  · cases hok
    exact h

theorem execInstruction (h : Attended app) (hnot : ¬ (app.pcb.slot k).Parked)
    (hok : ChicOS.execInstruction app k = .ok app') : Attended app' := by
  obtain ⟨c, hfetch, hok⟩ := Except.bind_eq_ok.mp hok
  obtain ⟨hk, -⟩ := fetch_eq_ok hfetch
  obtain ⟨⟨done, app₁⟩, hdispatch, hok⟩ := Except.bind_eq_ok.mp hok
  have hdone : Attended app₁ := (h.note _).dispatch hk hnot hdispatch
  dsimp only at hok
  split at hok
  · cases hok
    exact hdone.modify_same ⟨rfl, rfl, rfl, rfl, Iff.rfl⟩ rfl
  · cases hok
    exact hdone

/-- The call that kills leaves the code of every process. -/
theorem endOfProgram_code
    (hok : ChicOS.execSysCall app pid .processKill (printPid pid) = .ok app') :
    (app'.pcb.slot k).c = (app.pcb.slot k).c := by
  unfold ChicOS.execSysCall sysCall at hok
  obtain ⟨n, a, hcall, rfl⟩ := inCpu_eq_ok hok
  obtain ⟨r, -, hkill⟩ := Except.bind_eq_ok.mp hcall
  exact (pKill_frame hkill).2.2 k

/-- The process is killed, and is then not parked. -/
theorem endOfProgram (h : Attended app) (hnone : app.pcb.NoneDead)
    (hk : (app.pcb.slot k).c.it ≠ 0) (hnot : ¬ (app.pcb.slot k).Parked)
    (hok : ChicOS.execSysCall app (app.pcb.slot k).pid .processKill (printPid (app.pcb.slot k).pid)
      = .ok app') : Attended app' ∧ ¬ (app'.pcb.slot k).Parked := by
  unfold ChicOS.execSysCall sysCall at hok
  obtain ⟨n, a, hcall, rfl⟩ := inCpu_eq_ok hok
  obtain ⟨r, hscan, hkill⟩ := Except.bind_eq_ok.mp hcall
  rw [scanU_printPid_end] at hscan
  cases hscan
  let entered : App :=
    { app.note (.sysCall (app.pcb.slot k).pid .processKill) with cpu.cpuS := n }
  have hentered : Attended entered := h.of_eq rfl rfl rfl
  have hkilled : Attended a := hentered.pKill hnone hk hnot hkill
  refine ⟨hkilled.of_eq rfl rfl rfl, ?_⟩
  show ¬ (a.pcb.slot k).Parked
  have hdead : ¬ ({ app.pcb.slot k with status := .kill } : Process).Parked := by
    simp [Process.Parked]
  rcases pKill_eq_ok hkill with ⟨hnone, -⟩ | ⟨i, hfind, -, hcases⟩
  · cases (h.table.find_it hk).symm.trans hnone
  obtain rfl := Option.some.inj ((h.table.find_it hk).symm.trans hfind)
  rcases hcases with ⟨-, rfl⟩ | ⟨-, mem, -, rfl⟩
  · dsimp only
    rw [PCB.slot_modify_self]
    exact hdead
  · dsimp only
    rw [PCB.slot_modify_self]
    exact hdead

/-- `exec_process` on a process that is not parked, while nobody is dead. -/
theorem execProcess (h : Attended app) (hnone : app.pcb.NoneDead)
    (hnot : ¬ (app.pcb.slot k).Parked) (hok : ChicOS.execProcess app k = .ok app') :
    Attended app' := by
  unfold ChicOS.execProcess at hok
  dsimp only at hok
  split at hok
  · refine h.execSysCall (fun h₁ hcall => h₁.inCpu (fun ha _ _ hcall => ?_) hcall) hok
    obtain ⟨r, -, hcall⟩ := Except.bind_eq_ok.mp hcall
    obtain ⟨i, -, -, rfl⟩ := pUpdate_eq_ok hcall
    exact ha.modify_same ⟨rfl, rfl, rfl, rfl, Iff.rfl⟩ rfl
  obtain ⟨app₁, hend, hexec⟩ := Except.bind_eq_ok.mp hok
  split at hend
  · have hk : (app.pcb.slot k).c.it ≠ 0 := by
      obtain ⟨c, hfetch, -⟩ := Except.bind_eq_ok.mp hexec
      rw [← endOfProgram_code hend]
      exact (fetch_eq_ok hfetch).1
    obtain ⟨hkilled, hdead⟩ := h.endOfProgram hnone hk hnot hend
    exact hkilled.execInstruction hdead hexec
  · cases hend
    exact h.execInstruction hnot hexec

-- ---------------------------------------------------------------------------
-- The scheduler
-- ---------------------------------------------------------------------------

theorem schedulerNoRunning (h : Attended app) (hok : ChicOS.schedulerNoRunning app = .ok app') :
    Attended app' := by
  refine forSlots_induct Attended (fun {a a' i} _ ha hbody => ?_) h hok
  rcases noRunningBody_eq_ok hbody with ⟨-, rfl⟩ | ⟨hrunning, rfl⟩
  · exact ha
  · have hready : ¬ ({ a.pcb.slot i with status := .ready } : Process).Parked := by
      simp [Process.Parked]
    have hsame : (a.pcb.slot i).Same { a.pcb.slot i with status := .ready } :=
      ⟨rfl, rfl, rfl, rfl, by simp [hrunning]⟩
    exact ha.modify (ha.table.modify_same hsame) rfl rfl
      (.inr ⟨Process.not_parked_of_running hrunning, hready⟩)

/-- The dead process leaves the table. -/
theorem reap {i : Fin MAX_PCB} {last : UInt8} {trace : List Event} (h : Attended app)
    (hi : (app.pcb.slot i).status = .kill) :
    Attended { app with pcb := { app.pcb.shift i with last := last }, trace := trace } := by
  have hused := h.table.used_of_dead hi
  have hblocked : (app.pcb.slot i).status ≠ .blocked := by
    rw [hi]
    decide
  have hwaiting : (app.pcb.slot i).status ≠ .waiting := by
    rw [hi]
    decide
  exact ⟨(h.table.shift i).of_slots rfl rfl fun _ => rfl, h.semaphores, h.disk,
    (h.blocked.shift hblocked hused).of_slots fun _ => rfl,
    (h.waiting.shift hwaiting hused).of_slots fun _ => rfl⟩

theorem schedulerKillProcess (h : Attended app)
    (hok : ChicOS.schedulerKillProcess app = .ok app') : Attended app' ∧ app'.pcb.NoneDead := by
  -- after each index the dead process, if there still is one, lies behind it
  let inv : Nat → App → Prop := fun n a =>
    Attended a ∧ ∀ k, (a.pcb.slot k).status = .kill → n ≤ k.val
  have hstep : ∀ {a a' : App} {i : Fin MAX_PCB}, i.val < MAX_PCB → inv i.val a →
      killBody a i = .ok a' → inv (i.val + 1) a' := by
    rintro a a' i - ⟨ha, hdead⟩ hbody
    rcases killBody_eq_ok hbody with ⟨halive, rfl⟩ | ⟨hkill, rfl⟩
    · refine ⟨ha, fun k hk => Nat.lt_of_le_of_ne (hdead k hk) fun heq => halive ?_⟩
      rw [Fin.ext heq]
      exact hk
    · exact ⟨ha.reap hkill, fun k hk => absurd hk (ha.table.shift_noneDead hkill k)⟩
  obtain ⟨hreaped, hdead⟩ := forSlots_induct_index inv hstep ⟨h, fun _ _ => Nat.zero_le _⟩ hok
  exact ⟨hreaped, fun k hk => absurd (hdead k hk) (Nat.not_le.mpr k.isLt)⟩

/-- Who is selected is not parked, and nobody is dead then. -/
theorem schedule {r : Option (Fin MAX_PCB)} (h : Attended app)
    (hok : ChicOS.schedule app = .ok (r, app')) : Attended app' ∧ app'.pcb.NoneDead ∧
      ∀ k, r = some k → ¬ (app'.pcb.slot k).Parked := by
  obtain ⟨app₁, hready, hok⟩ := Except.bind_eq_ok.mp hok
  obtain ⟨app₂, hreap, hget⟩ := Except.bind_eq_ok.mp hok
  have htick : Attended { app with cpu.quantumTime := app.cpu.quantumTime + 1 } :=
    h.of_eq rfl rfl rfl
  obtain ⟨h₂, hnone⟩ := (htick.schedulerNoRunning hready).schedulerKillProcess hreap
  rcases schedulerGetProcess_eq_ok hget with ⟨rfl, rfl⟩ | ⟨k, rfl, -, hblocked, hwaiting, rfl⟩
  · exact ⟨h₂, hnone, nofun⟩
  · let mark : Process → Process := fun p => { p with status := .running, timeToRun := TIME_SLICE }
    have hrunning : ¬ (mark (app₂.pcb.slot k)).Parked := Process.not_parked_of_running rfl
    have hsame : (app₂.pcb.slot k).Same (mark (app₂.pcb.slot k)) :=
      ⟨rfl, rfl, rfl, rfl, iff_of_false nofun (hnone k)⟩
    have hmarked : Attended { app₂ with pcb := app₂.pcb.modify k mark } :=
      h₂.modify (h₂.table.modify_same hsame) rfl rfl
        (.inr ⟨fun hparked => hparked.elim hblocked hwaiting, hrunning⟩)
    refine ⟨hmarked, fun j hj => ?_, ?_⟩
    · dsimp only at hj
      rw [PCB.slot_modify] at hj
      split at hj
      · cases hj
      · exact hnone j hj
    · rintro j ⟨⟩
      dsimp only
      rw [PCB.slot_modify_self]
      exact hrunning

-- ---------------------------------------------------------------------------
-- Turns
-- ---------------------------------------------------------------------------

/-- A process is created by an interrupt. -/
theorem processCreate {path : List UInt8} (h : Attended app)
    (hok : interruptControl app .processCreate path = .ok app') : Attended app' := by
  refine h.inCpu (fun ha _ _ hcreate => ?_) hok
  obtain ⟨name, -, hcreate⟩ := Except.bind_eq_ok.mp hcreate
  obtain ⟨⟨pid, app₁⟩, hnew, hcreate⟩ := Except.bind_eq_ok.mp hcreate
  obtain ⟨u, -, hcreate⟩ := Except.bind_eq_ok.mp hcreate
  cases hcreate
  exact ha.pCreate hnew

theorem createDebug (h : Attended app) (hok : ChicOS.createDebug app = .ok app') :
    Attended app' := by
  unfold ChicOS.createDebug at hok
  split at hok
  · split at hok
    · exact h.processCreate hok
    · cases hok
      exact h
  · cases hok
    exact h

theorem cpuTurn (h : Attended app) (hok : ChicOS.cpuTurn app = .ok app') : Attended app' := by
  obtain ⟨⟨r, app₁⟩, hschedule, hok⟩ := Except.bind_eq_ok.mp hok
  obtain ⟨app₂, hselected, hcreate⟩ := Except.bind_eq_ok.mp hok
  obtain ⟨h₁, hnone, hnot⟩ := h.schedule hschedule
  have h₂ : Attended app₂ := by
    cases r with
    | none =>
        cases hselected
        exact h₁
    | some k => exact h₁.execProcess hnone (hnot k rfl) (runSelected_eq_ok hselected)
  exact h₂.createDebug hcreate

theorem turn {turn : Turn} (h : Attended app) (hok : app.turn turn = .ok app') :
    Attended app' := by
  have hstopped : Attended { app with loopStop := true } := h.of_eq rfl rfl rfl
  by_cases hstop : app.loopStop = true
  · cases turn with
    | signal =>
        cases hok
        exact hstopped
    | cpu | disk | printer | create =>
        rw [App.turn, if_pos hstop] at hok
        cases hok
        exact h
  · cases turn with
    | cpu =>
        rw [App.turn, if_neg hstop] at hok
        exact h.cpuTurn hok
    | disk =>
        rw [App.turn, if_neg hstop] at hok
        exact h.diskLoopTurn hok
    | printer =>
        rw [App.turn, if_neg hstop] at hok
        exact h.printerLoopTurn hok
    | create path =>
        rw [App.turn, if_neg hstop] at hok
        exact h.processCreate hok
    | signal =>
        cases hok
        exact hstopped

end Attended

-- ---------------------------------------------------------------------------
-- The start
-- ---------------------------------------------------------------------------

end ChicOS
