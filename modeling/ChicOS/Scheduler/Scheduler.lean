-- SUMMARY: The scheduler: making the running process ready, choosing the next one, and reaping the dead.
import ChicOS.Process.Process

/-!
# The scheduler

The three functions of `scheduler.c`, in the order `cpu_loop` calls them. The
loops over the live processes run over the first `last` slots, the loop over the
dead ones over the whole table.
-/

namespace ChicOS

/-- Run a loop body over the first `last` slots. An index past the table stops it. -/
def forSlots {α : Type} (last : Nat) (a : α) (body : α → Fin MAX_PCB → Except Stop α) :
    Except Stop α :=
  (List.range last).foldlM (fun a i => if h : i < MAX_PCB then body a ⟨i, h⟩ else .error .outOfBounds) a

/-- The body of `scheduler_no_running`. -/
def noRunningBody (app : App) (i : Fin MAX_PCB) : Except Stop App := do
  let n ← semWait .pcbS app.pcb.pcbS
  let pcb := { app.pcb with pcbS := n }
  let pcb :=
    if (pcb.slot i).status = .running then pcb.modify i fun p => { p with status := .ready } else pcb
  .ok { app with pcb := { pcb with pcbS := pcb.pcbS + 1 } }

/-- `scheduler_no_running`. -/
def schedulerNoRunning (app : App) : Except Stop App :=
  forSlots app.pcb.last.toNat app noRunningBody

/-- Move the processes after a slot one slot down. The last slot stays as it is. -/
def PCB.shift (pcb : PCB) (i : Fin MAX_PCB) : PCB :=
  { pcb with
    processStack := Vector.ofFn fun j : Fin MAX_PCB =>
      if h : i ≤ j ∧ j.val + 1 < MAX_PCB then pcb.slot ⟨j.val + 1, h.2⟩ else pcb.slot j }

/-- The body of `scheduler_kill_process`: every move takes and gives back the
lock of the table, and so does the decrement. -/
def killBody (app : App) (i : Fin MAX_PCB) : Except Stop App :=
  if (app.pcb.slot i).status = .kill then do
    let n ← semWait .pcbS app.pcb.pcbS
    let pcb := app.pcb.shift i
    .ok ({ app with pcb := { pcb with last := pcb.last - 1, pcbS := n + 1 } }.note
      (.reap (app.pcb.slot i).pid))
  else .ok app

/-- `scheduler_kill_process`. -/
def schedulerKillProcess (app : App) : Except Stop App := forSlots MAX_PCB app killBody

/-- The body of `scheduler_get_process`, on the process selected so far. -/
def getProcessBody (app : App) (selected : Option (Fin MAX_PCB)) (i : Fin MAX_PCB) :
    Except Stop (Option (Fin MAX_PCB)) := do
  let _ ← semWait .pcbS app.pcb.pcbS
  let candidate := app.pcb.slot i
  if candidate.status = .blocked ∨ candidate.status = .waiting then .ok selected
  else
    match selected with
    | none => .ok (some i)
    | some j => do
      let best := app.pcb.slot j
      let rw ← app.rwCount candidate
      let rwBest ← app.rwCount best
      if rw < rwBest then .ok (some i)
      else if candidate.hUsed < best.hUsed ∧ rw = rwBest then .ok (some i)
      else if rw = rwBest ∧ candidate.pid < best.pid then .ok (some i)
      else .ok (some j)

/-- `scheduler_get_process`. -/
def schedulerGetProcess (app : App) : Except Stop (Option (Fin MAX_PCB) × App) :=
  if app.pcb.last = 0 then .ok (none, app)
  else do
    let selected ← forSlots app.pcb.last.toNat none (getProcessBody app)
    match selected with
    | none => .ok (none, app)
    | some k => do
      let app ← app.inPcb fun pcb =>
        pcb.modify k fun p => { p with status := .running, timeToRun := TIME_SLICE }
      .ok (some k, app)

/-! ## What the scheduler changes -/

/-- What holds after each turn of a loop over slots, if it held before it. -/
theorem forSlots_induct_index {α : Type} (P : Nat → α → Prop)
    {body : α → Fin MAX_PCB → Except Stop α} {last : Nat} {a a' : α}
    (hP : ∀ {a a' : α} {k : Fin MAX_PCB}, k.val < last → P k.val a → body a k = .ok a' →
      P (k.val + 1) a')
    (ha : P 0 a) (h : forSlots last a body = .ok a') : P last a' := by
  unfold forSlots at h
  induction last generalizing a' with
  | zero =>
      cases h
      exact ha
  | succ last ih =>
      rw [List.range_succ, List.foldlM_append] at h
      obtain ⟨a₁, hfold, h⟩ := Except.bind_eq_ok.mp h
      rw [List.foldlM_cons] at h
      obtain ⟨a₂, hbody, h⟩ := Except.bind_eq_ok.mp h
      cases h
      split at hbody
      · exact hP (Nat.lt_succ_self last)
          (ih (fun hk => hP (Nat.lt_succ_of_lt hk)) hfold) hbody
      · cases hbody

/-- What each turn of a loop over slots preserves, the loop preserves. -/
theorem forSlots_induct {α : Type} (P : α → Prop) {body : α → Fin MAX_PCB → Except Stop α}
    {last : Nat} {a a' : α}
    (hP : ∀ {a a' : α} {k : Fin MAX_PCB}, k.val < last → P a → body a k = .ok a' → P a')
    (ha : P a) (h : forSlots last a body = .ok a') : P a' :=
  forSlots_induct_index (fun _ => P) hP ha h

/-- A loop over slots returns if each turn does. -/
theorem forSlots_total {α : Type} (P : Nat → α → Prop) {body : α → Fin MAX_PCB → Except Stop α}
    {last : Nat} {a : α} (hle : last ≤ MAX_PCB)
    (hP : ∀ {a : α} {k : Fin MAX_PCB}, k.val < last → P k.val a →
      ∃ a', body a k = .ok a' ∧ P (k.val + 1) a')
    (ha : P 0 a) : ∃ a', forSlots last a body = .ok a' ∧ P last a' := by
  unfold forSlots
  induction last with
  | zero => exact ⟨a, rfl, ha⟩
  | succ last ih =>
      obtain ⟨a₁, hfold, h₁⟩ := ih (Nat.le_of_succ_le hle) fun hk => hP (Nat.lt_succ_of_lt hk)
      obtain ⟨a₂, hbody, h₂⟩ := hP (k := ⟨last, hle⟩) (Nat.lt_succ_self last) h₁
      refine ⟨a₂, ?_, h₂⟩
      rw [List.range_succ, List.foldlM_append, hfold, Except.ok_bind_run, List.foldlM_cons,
        dif_pos (show last < MAX_PCB from hle), hbody]
      rfl

theorem forSlots_le {α : Type} {last : Nat} {a a' : α} {body : α → Fin MAX_PCB → Except Stop α}
    (h : forSlots last a body = .ok a') : last ≤ MAX_PCB :=
  forSlots_induct_index (fun n _ => n ≤ MAX_PCB) (fun {_ _ k} _ _ _ => k.isLt) (Nat.zero_le _) h

theorem noRunningBody_eq_ok {app app' : App} {i : Fin MAX_PCB}
    (h : noRunningBody app i = .ok app') :
    ((app.pcb.slot i).status ≠ .running ∧ app' = app) ∨ ((app.pcb.slot i).status = .running ∧
      app' = { app with pcb := app.pcb.modify i fun p => { p with status := .ready } }) := by
  obtain ⟨n, hn, h⟩ := Except.bind_eq_ok.mp h
  have hn := semWait_eq_ok.mp hn
  have hslot : ({ app.pcb with pcbS := n } : PCB).slot i = app.pcb.slot i := rfl
  cases h
  dsimp only
  rw [hslot]
  split
  · rename_i hrunning
    exact .inr ⟨hrunning, by simp [PCB.modify, hslot, hn]⟩
  · rename_i hidle
    exact .inl ⟨hidle, by simp [← hn]⟩

/-- A slot is left alone, or its process is dead and leaves the table. -/
theorem killBody_eq_ok {app app' : App} {i : Fin MAX_PCB} (h : killBody app i = .ok app') :
    ((app.pcb.slot i).status ≠ .kill ∧ app' = app) ∨
    ((app.pcb.slot i).status = .kill ∧
      app' = { app with
        pcb := { app.pcb.shift i with last := app.pcb.last - 1 }
        trace := app.trace ++ [.reap (app.pcb.slot i).pid] }) := by
  unfold killBody at h
  split at h
  · rename_i hkill
    obtain ⟨n, hn, h⟩ := Except.bind_eq_ok.mp h
    have hn := semWait_eq_ok.mp hn
    cases h
    exact .inr ⟨hkill, by simp [App.note, PCB.shift, hn]⟩
  · rename_i hkill
    cases h
    exact .inl ⟨hkill, rfl⟩

theorem slot_shift (pcb : PCB) (i j : Fin MAX_PCB) :
    (pcb.shift i).slot j =
      if h : i ≤ j ∧ j.val + 1 < MAX_PCB then pcb.slot ⟨j.val + 1, h.2⟩ else pcb.slot j := by
  simp only [PCB.slot, PCB.shift, Fin.getElem_fin, Vector.getElem_ofFn]

/-- The process selected stands in one of the first `last` slots, and is neither
blocked nor waiting. -/
theorem schedulerGetProcess_eq_ok {app app' : App} {r : Option (Fin MAX_PCB)}
    (h : schedulerGetProcess app = .ok (r, app')) :
    (r = none ∧ app' = app) ∨ ∃ k, r = some k ∧ k.val < app.pcb.last.toNat ∧
      (app.pcb.slot k).status ≠ .blocked ∧ (app.pcb.slot k).status ≠ .waiting ∧
      app' = { app with
        pcb := app.pcb.modify k fun p =>
          { p with status := .running, timeToRun := TIME_SLICE } } := by
  unfold schedulerGetProcess at h
  split at h
  · cases h
    exact .inl ⟨rfl, rfl⟩
  obtain ⟨selected, hselect, h⟩ := Except.bind_eq_ok.mp h
  split at h
  · cases h
    exact .inl ⟨rfl, rfl⟩
  rename_i k
  obtain ⟨app₁, hmark, h⟩ := Except.bind_eq_ok.mp h
  cases h
  obtain ⟨-, rfl⟩ := inPcb_eq_ok hmark
  have heligible := forSlots_induct
    (fun selected => ∀ k, selected = some k → k.val < app.pcb.last.toNat ∧
      (app.pcb.slot k).status ≠ .blocked ∧ (app.pcb.slot k).status ≠ .waiting)
    (fun {selected selected' i} hi hsel hbody => ?_) (by simp) hselect
  · obtain ⟨hlt, hblocked, hwaiting⟩ := heligible k rfl
    exact .inr ⟨k, rfl, hlt, hblocked, hwaiting, rfl⟩
  · obtain ⟨n, -, hbody⟩ := Except.bind_eq_ok.mp hbody
    dsimp only at hbody
    split at hbody
    · cases hbody
      exact hsel
    rename_i hcandidate
    have hi : ∀ k, some i = some k → k.val < app.pcb.last.toNat ∧
        (app.pcb.slot k).status ≠ .blocked ∧ (app.pcb.slot k).status ≠ .waiting := by
      rintro k ⟨⟩
      exact ⟨hi, fun hb => hcandidate (.inl hb), fun hw => hcandidate (.inr hw)⟩
    split at hbody
    · cases hbody
      exact hi
    · obtain ⟨rw₁, -, hbody⟩ := Except.bind_eq_ok.mp hbody
      obtain ⟨rw₂, -, hbody⟩ := Except.bind_eq_ok.mp hbody
      split at hbody
      · cases hbody; exact hi
      · split at hbody
        · cases hbody; exact hi
        · split at hbody
          · cases hbody; exact hi
          · cases hbody; exact hsel

end ChicOS
