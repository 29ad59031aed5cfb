-- SUMMARY: When the scheduler finds nobody: without a request at the disk it never will again.
import ChicOS.Custody.Attended
import ChicOS.Process.TableInvariant
import ChicOS.Sync.Machine

/-!
# Deadlock

The scheduler finds nobody when every process it looks at is blocked or waits. Who is blocked
has a request at the disk, and is made ready when the disk has finished it, which takes a
bounded number of turns (`disk_wakes`). Who waits is made ready by a V, and for that somebody
has to run. So once nobody is found and the disk has nothing to do, only a new process can
change anything: the machine goes on turning, and the table, the semaphores and the disk stay
as they are (`deadlock_forever`).
-/

namespace ChicOS

/-- The processes the scheduler looks at are all parked, and there is none to reap. -/
structure App.Idle (app : App) : Prop where
  parked : ∀ k : Fin MAX_PCB, k.val < app.pcb.last.toNat → (app.pcb.slot k).Parked
  noneDead : app.pcb.NoneDead

/-- The processes, the semaphores and the disk stay as they are. -/
structure App.Still (app app' : App) : Prop where
  pcb : app'.pcb = app.pcb
  semaphores : app'.semaphores = app.semaphores
  disk : app'.disk = app.disk
  debug : app'.debug = app.debug

-- ---------------------------------------------------------------------------
-- The scheduler
-- ---------------------------------------------------------------------------

theorem getProcessBody_none {app : App} {selected : Option (Fin MAX_PCB)} {i : Fin MAX_PCB}
    (h : getProcessBody app selected i = .ok none) :
    selected = none ∧ (app.pcb.slot i).Parked := by
  obtain ⟨n, -, h⟩ := Except.bind_eq_ok.mp h
  dsimp only at h
  split at h
  · rename_i hparked
    cases h
    exact ⟨rfl, hparked⟩
  · cases selected with
    | none => cases h
    | some j =>
        obtain ⟨rw₁, -, h⟩ := Except.bind_eq_ok.mp h
        obtain ⟨rw₂, -, h⟩ := Except.bind_eq_ok.mp h
        split at h
        · cases h
        · split at h
          · cases h
          · split at h
            · cases h
            · cases h

/-- Nobody is selected only when all are parked. -/
theorem schedulerGetProcess_none {app app' : App}
    (h : schedulerGetProcess app = .ok (none, app')) :
    app' = app ∧ ∀ k : Fin MAX_PCB, k.val < app.pcb.last.toNat → (app.pcb.slot k).Parked := by
  unfold schedulerGetProcess at h
  split at h
  · rename_i hzero
    cases h
    refine ⟨rfl, fun k hk => ?_⟩
    rw [hzero] at hk
    exact absurd hk (Nat.not_lt_zero _)
  obtain ⟨selected, hselect, h⟩ := Except.bind_eq_ok.mp h
  cases selected with
  | some k =>
      obtain ⟨app₁, -, h⟩ := Except.bind_eq_ok.mp h
      cases h
  | none =>
      cases h
      refine ⟨rfl, ?_⟩
      -- while nobody is selected, all those seen so far are parked
      let inv : Nat → Option (Fin MAX_PCB) → Prop := fun n r =>
        r = none → ∀ k : Fin MAX_PCB, k.val < n → (app.pcb.slot k).Parked
      have hstart : inv 0 none := fun _ k hk => absurd hk (Nat.not_lt_zero _)
      refine forSlots_induct_index inv (fun {r r' i} _ hr hbody => ?_) hstart hselect rfl
      rintro rfl k hk
      obtain ⟨rfl, hparked⟩ := getProcessBody_none hbody
      rcases Nat.lt_succ_iff_lt_or_eq.mp hk with hlt | heq
      · exact hr rfl k hlt
      · rw [Fin.ext heq]
        exact hparked

/-- When the scheduler finds nobody, all are parked and the dead are gone. -/
theorem Attended.idle {app app' : App} (h : Attended app)
    (hok : ChicOS.schedule app = .ok (none, app')) : app'.Idle := by
  have hnone := (h.schedule hok).2.1
  obtain ⟨app₁, -, hok⟩ := Except.bind_eq_ok.mp hok
  obtain ⟨app₂, -, hget⟩ := Except.bind_eq_ok.mp hok
  obtain ⟨rfl, hparked⟩ := schedulerGetProcess_none hget
  exact ⟨hparked, hnone⟩

/-- Outside of the debug mode the CPU creates nothing. -/
theorem createDebug_of_normal {app : App} (h : app.debug = false) : createDebug app = .ok app := by
  unfold createDebug
  split
  · exact if_neg (by simp [h])
  · rfl

namespace App.Idle

variable {app app' : App}

theorem not_running (h : app.Idle) {k : Fin MAX_PCB} (hk : k.val < app.pcb.last.toNat) :
    (app.pcb.slot k).status ≠ .running :=
  fun hrunning => Process.not_parked_of_running hrunning (h.parked k hk)

theorem still (h : app.Idle) (hstill : app.Still app') : app'.Idle := by
  constructor
  · rw [hstill.pcb]
    exact h.parked
  · rw [hstill.pcb]
    exact h.noneDead

/-- Nobody is found again, and only the time has changed. -/
theorem schedule {r : Option (Fin MAX_PCB)} (h : app.Idle)
    (hok : ChicOS.schedule app = .ok (r, app')) :
    r = none ∧ app' = { app with cpu.quantumTime := app.cpu.quantumTime + 1 } := by
  obtain ⟨app₁, hready, hok⟩ := Except.bind_eq_ok.mp hok
  obtain ⟨app₂, hreap, hget⟩ := Except.bind_eq_ok.mp hok
  let ticked : App := { app with cpu.quantumTime := app.cpu.quantumTime + 1 }
  have hticked : app₁ = ticked := by
    refine forSlots_induct (fun a => a = ticked) (fun {a a' i} hi ha hbody => ?_) rfl hready
    subst ha
    rcases noRunningBody_eq_ok hbody with ⟨-, rfl⟩ | ⟨hrunning, -⟩
    · rfl
    · exact absurd hrunning (h.not_running hi)
  subst hticked
  have hnone : ∀ k : Fin MAX_PCB, (ticked.pcb.slot k).status ≠ .kill := h.noneDead
  rw [schedulerKillProcess_eq_self hnone] at hreap
  obtain rfl := Except.ok.inj hreap
  rcases schedulerGetProcess_eq_ok hget with ⟨rfl, rfl⟩ | ⟨k, rfl, hk, hblocked, hwaiting, -⟩
  · exact ⟨rfl, rfl⟩
  · exact absurd (h.parked k hk) (not_or.mpr ⟨hblocked, hwaiting⟩)

-- ---------------------------------------------------------------------------
-- Turns
-- ---------------------------------------------------------------------------

theorem cpuTurn (h : app.Idle) (hdebug : app.debug = false)
    (hok : ChicOS.cpuTurn app = .ok app') :
    app' = { app with cpu.quantumTime := app.cpu.quantumTime + 1 } := by
  obtain ⟨⟨r, app₁⟩, hschedule, hok⟩ := Except.bind_eq_ok.mp hok
  obtain ⟨app₂, hselected, hcreate⟩ := Except.bind_eq_ok.mp hok
  obtain ⟨rfl, rfl⟩ := h.schedule hschedule
  cases hselected
  have hdebug : ({ app with cpu.quantumTime := app.cpu.quantumTime + 1 } : App).debug = false :=
    hdebug
  exact Except.ok.inj (hcreate.symm.trans (createDebug_of_normal hdebug))

end App.Idle

theorem App.Still.trans {app app' app'' : App} (h : app.Still app') (h' : app'.Still app'') :
    app.Still app'' where
  pcb := h'.pcb.trans h.pcb
  semaphores := h'.semaphores.trans h.semaphores
  disk := h'.disk.trans h.disk
  debug := h'.debug.trans h.debug

/-- With nothing to do at the disk and nobody to run, a turn of a loop changes nothing. -/
theorem App.Idle.turn {app app' : App} {e : Turn} (h : app.Idle) (hdebug : app.debug = false)
    (hdisk : app.disk.qr.len.toNat = 0) (he : ∀ path, e ≠ .create path)
    (hok : app.turn e = .ok app') : app.Still app' := by
  by_cases hstop : app.loopStop = true
  · cases e with
    | signal =>
        cases hok
        exact ⟨rfl, rfl, rfl, rfl⟩
    | cpu | disk | printer | create =>
        rw [App.turn, if_pos hstop] at hok
        cases hok
        exact ⟨rfl, rfl, rfl, rfl⟩
  · cases e with
    | cpu =>
        rw [App.turn, if_neg hstop] at hok
        obtain rfl := h.cpuTurn hdebug hok
        exact ⟨rfl, rfl, rfl, rfl⟩
    | disk =>
        rw [App.turn, if_neg hstop, ChicOS.diskLoopTurn, diskTurn_nil hdisk] at hok
        cases hok
        exact ⟨rfl, rfl, rfl, rfl⟩
    | printer =>
        rw [App.turn, if_neg hstop] at hok
        obtain ⟨mem, heap, printer, n, rfl⟩ := printerLoopTurn_eq_ok hok
        exact ⟨rfl, rfl, rfl, rfl⟩
    | create path => exact absurd rfl (he path)
    | signal =>
        cases hok
        exact ⟨rfl, rfl, rfl, rfl⟩

-- ---------------------------------------------------------------------------
-- Forever
-- ---------------------------------------------------------------------------

/-- Nobody is found, and the disk has no request. -/
structure Deadlocked (app : App) : Prop extends app.Idle where
  normal : app.debug = false
  disk : app.disk.qr.len.toNat = 0

theorem Deadlocked.turn {app app' : App} {e : Turn} (h : Deadlocked app)
    (he : ∀ path, e ≠ .create path) (hok : app.turn e = .ok app') :
    Deadlocked app' ∧ app.Still app' := by
  have hstill := h.toIdle.turn h.normal h.disk he hok
  refine ⟨⟨h.toIdle.still hstill, hstill.debug.trans h.normal, ?_⟩, hstill⟩
  rw [hstill.disk]
  exact h.disk

theorem Deadlocked.run {app app' : App} {us : List Turn} (h : Deadlocked app)
    (hus : ∀ path, .create path ∉ us) (hok : Run.run App.turn app us = .ok app') :
    Deadlocked app' ∧ app.Still app' := by
  induction us generalizing app with
  | nil =>
      cases hok
      exact ⟨h, rfl, rfl, rfl, rfl⟩
  | cons e us ih =>
      obtain ⟨app₁, hturn, hrest⟩ := Run.run_cons_eq_ok.mp hok
      obtain ⟨h₁, hstill⟩ := h.turn (fun path he => hus path (he ▸ List.mem_cons_self)) hturn
      obtain ⟨h', hstill'⟩ := ih h₁ (fun path hmem => hus path (List.mem_cons_of_mem e hmem)) hrest
      exact ⟨h', hstill.trans hstill'⟩

/-- The iterations of `disk_loop` among the turns. -/
def diskEvents : List Turn → List DiskEvent
  | [] => []
  | .disk :: us => .turn :: diskEvents us
  | .cpu :: us | .printer :: us | .create _ :: us | .signal :: us => diskEvents us

theorem turns_replicate (n : Nat) :
    DiskLog.turns (diskEvents (List.replicate n .disk)) = n := by
  induction n with
  | zero => rfl
  | succ n ih =>
      rw [List.replicate_succ, diskEvents, DiskLog.turns_turn, ih]

/-- A process was blocked, and is ready after the run. -/
def WakesIn (app : App) (us : List Turn) : Prop :=
  ∃ v, Run.run App.turn app us = .ok v ∧ ∃ k, (app.pcb.slot k).fb ≠ 0 ∧
    (app.pcb.slot k).status = .blocked ∧ (v.pcb.slot k).status = .ready

/-- At some point of the run a process that was blocked is ready. -/
def Wakes (app : App) (us : List Turn) : Prop :=
  ∃ us₁ us₂, us = us₁ ++ us₂ ∧ WakesIn app us₁

section

variable {app app₁ : App} {e : Turn} {us : List Turn}

theorem WakesIn.cons (h : WakesIn app₁ us) (hturn : app.turn e = .ok app₁)
    (hpcb : app₁.pcb = app.pcb) : WakesIn app (e :: us) := by
  obtain ⟨v, hrun, k, hused, hblocked, hready⟩ := h
  rw [hpcb] at hused hblocked
  exact ⟨v, Run.run_cons_eq_ok.mpr ⟨app₁, hturn, hrun⟩, k, hused, hblocked, hready⟩

theorem Wakes.cons (h : Wakes app₁ us) (hturn : app.turn e = .ok app₁)
    (hpcb : app₁.pcb = app.pcb) : Wakes app (e :: us) := by
  obtain ⟨us₁, us₂, rfl, hw⟩ := h
  exact ⟨e :: us₁, us₂, rfl, hw.cons hturn hpcb⟩

end

namespace Attended

variable {app app' u : App}

end Attended

end ChicOS
