-- SUMMARY: The selection of scheduler_get_process as a whole: whom it takes, when it takes nobody, and what it changes.
import ChicOS.Scheduler.Choice
import Mathlib.Data.Prod.Lex

/-!
# The selection

On a table of live processes in the order of their pids `scheduler_get_process`
returns. It takes nobody just when every process is blocked or waiting, and
otherwise the least in disk accesses, quanta and pid, in this order.
-/

namespace ChicOS

/-- What the scheduler orders processes by. -/
def App.key (app : App) (k : Fin MAX_PCB) : ℤ ×ₗ ℕ ×ₗ ℕ :=
  toLex (app.rwOf k, toLex ((app.pcb.slot k).hUsed.toNat, (app.pcb.slot k).pid.toNat))

/-- The slots below `last` hold processes with their files, in the order of their
pids. -/
structure App.Listed (app : App) : Prop where
  last_le : app.pcb.last.toNat ≤ MAX_PCB
  increasing : app.pcb.Increasing app.pcb.last.toNat
  fb_ne : ∀ k : Fin MAX_PCB, k.val < app.pcb.last.toNat → (app.pcb.slot k).fb ≠ 0
  header_ne : ∀ k : Fin MAX_PCB, k.val < app.pcb.last.toNat →
    (app.heap.syntBuffers (app.pcb.slot k).fb).h ≠ 0

section

variable {app : App} {i j k : Fin MAX_PCB}

/-- Where one process precedes another of a different pid, its key is smaller. -/
theorem App.Precedes.key_lt (h : app.Precedes j k)
    (hpid : (app.pcb.slot j).pid ≠ (app.pcb.slot k).pid) : app.key j < app.key k := by
  rw [App.key, App.key, Prod.Lex.toLex_lt_toLex, Prod.Lex.toLex_lt_toLex]
  rcases h with hrw | ⟨hrw, hused | ⟨hused, hle⟩⟩
  · exact .inl hrw
  · exact .inr ⟨hrw, .inl (UInt8.lt_iff_toNat_lt.mp hused)⟩
  · refine .inr ⟨hrw, .inr ⟨congrArg UInt8.toNat hused, ?_⟩⟩
    rcases UInt32.lt_or_eq_of_le hle with hlt | heq
    · exact UInt32.lt_iff_toNat_lt.mp hlt
    · exact absurd heq hpid

namespace App.Listed

theorem rwCount (h : app.Listed) (hk : k.val < app.pcb.last.toNat) :
    app.rwCount (app.pcb.slot k) = .ok (app.rwOf k) := by
  unfold App.rwCount
  dsimp only
  rw [if_neg (h.fb_ne k hk), if_neg (h.header_ne k hk)]
  rfl

/-- A turn of the loop returns. -/
theorem getProcessBody_total (h : app.Listed) (hlock : app.pcb.pcbS ≠ 0)
    {selected : Option (Fin MAX_PCB)} (hi : i.val < app.pcb.last.toNat)
    (hsel : Chosen app i.val selected) : ∃ selected', getProcessBody app selected i = .ok selected' := by
  have hwait : semWait .pcbS app.pcb.pcbS = .ok (app.pcb.pcbS - 1) :=
    semWait_eq_ok.mpr (Nat.succ_pred_eq_of_ne_zero hlock).symm
  unfold getProcessBody
  rw [hwait, Except.ok_bind_run]
  dsimp only
  split
  · exact ⟨_, rfl⟩
  cases selected with
  | none => exact ⟨_, rfl⟩
  | some j =>
      have hj : j.val < app.pcb.last.toNat := Nat.lt_trans (hsel.least j rfl).1 hi
      dsimp only
      rw [h.rwCount hi, h.rwCount hj, Except.ok_bind_run, Except.ok_bind_run]
      split
      · exact ⟨_, rfl⟩
      · split
        · exact ⟨_, rfl⟩
        · split
          · exact ⟨_, rfl⟩
          · exact ⟨_, rfl⟩

theorem schedulerGetProcess_total (h : app.Listed) (hlock : app.pcb.pcbS ≠ 0) :
    ∃ r, schedulerGetProcess app = .ok r := by
  have hstart : Chosen app 0 none := ⟨fun _ _ hj => absurd hj (Nat.not_lt_zero _), nofun⟩
  obtain ⟨selected, hloop, -⟩ := forSlots_total (Chosen app) h.last_le (fun {selected k} hk hsel => by
    obtain ⟨selected', hbody⟩ := h.getProcessBody_total hlock hk hsel
    exact ⟨selected', hbody, getProcessBody_chosen h.increasing hk hsel hbody⟩) hstart
  unfold schedulerGetProcess
  split
  · exact ⟨_, rfl⟩
  rw [hloop, Except.ok_bind_run]
  cases selected with
  | none => exact ⟨_, rfl⟩
  | some k =>
      dsimp only
      rw [inPcb_eq k _ hlock]
      exact ⟨_, rfl⟩

end App.Listed

end

/-- What the selection of a process does: nothing, or it marks the one with the
smallest key. -/
structure Selection (app : App) (selected : Option (Fin MAX_PCB)) (app' : App) : Prop where
  nobody : selected = none ↔ ∀ k : Fin MAX_PCB, k.val < app.pcb.last.toNat →
    (app.pcb.slot k).status = .blocked ∨ (app.pcb.slot k).status = .waiting
  idle : selected = none → app' = app
  least : ∀ k, selected = some k → k.val < app.pcb.last.toNat ∧ (app.pcb.slot k).Eligible ∧
    ∀ j : Fin MAX_PCB, j.val < app.pcb.last.toNat → (app.pcb.slot j).Eligible → j ≠ k →
      app.key k < app.key j
  marked : ∀ k, selected = some k → app' = { app with
    pcb := app.pcb.modify k fun p => { p with status := .running, timeToRun := TIME_SLICE } }

/-- `scheduler_get_process` on a table of live processes in the order of their pids. -/
theorem scheduler_choice {app : App} (h : app.Listed) (hlock : app.pcb.pcbS ≠ 0) :
    ∃ selected app', schedulerGetProcess app = .ok (selected, app') ∧
      Selection app selected app' := by
  obtain ⟨⟨selected, app'⟩, hget⟩ := h.schedulerGetProcess_total hlock
  have hchosen := schedulerGetProcess_chosen h.increasing hget
  refine ⟨selected, app', hget, ?_⟩
  rcases schedulerGetProcess_eq_ok hget with ⟨rfl, rfl⟩ | ⟨k, rfl, hk, hblocked, hwaiting, rfl⟩
  · refine ⟨iff_of_true rfl fun k hk => ?_, fun _ => rfl, nofun, nofun⟩
    have hnot := hchosen.nobody rfl k hk
    rwa [Process.Eligible, ← not_or, not_not] at hnot
  · refine ⟨iff_of_false nofun fun hall => ?_, nofun, ?_, ?_⟩
    · exact (hall k hk).elim hblocked hwaiting
    · rintro l ⟨⟩
      obtain ⟨-, hel, hleast⟩ := hchosen.least k rfl
      refine ⟨hk, hel, fun j hj hj' hne => (hleast j hj hj').key_lt fun hpid => ?_⟩
      exact hne (h.increasing.eq hj hk hpid.symm)
    · rintro l ⟨⟩
      rfl

/-- Two processes with one disk access each; the second has used fewer quanta. -/
def App.twoReady : App :=
  let p (pid : UInt32) (hUsed : UInt8) : Process :=
    { Process.zero with pid := pid, status := .ready, hUsed := hUsed, fb := 8 }
  let app := App.zero Heap.zero fun _ => none
  { app with
    heap :=
      { Heap.zero with
        syntBuffers := fun _ => { fp := none, h := 8, address := [] }
        syntHeaders := fun a => { Heap.zero.syntHeaders a with rwCount := 1 } }
    pcb :=
      { (PCB.zero.modify 0 fun _ => p 0 2).modify 1 fun _ => p 1 1 with
        last := 2
        pcbS := 1 } }

theorem scheduler_choice_two :
    ∃ selected app', schedulerGetProcess App.twoReady = .ok (selected, app') ∧
      selected = some 1 ∧ Selection App.twoReady selected app' := by
  have hlisted : App.twoReady.Listed := by
    refine ⟨by decide, by decide, by decide, fun k hk => ?_⟩
    show (8 : Addr) ≠ 0
    decide
  obtain ⟨selected, app', hget, hsel⟩ := scheduler_choice hlisted (by decide)
  refine ⟨selected, app', hget, ?_, hsel⟩
  have hone : ((schedulerGetProcess App.twoReady).toOption.map Prod.fst) = some (some 1) := by
    decide
  rw [hget] at hone
  exact Option.some.inj hone

end ChicOS
