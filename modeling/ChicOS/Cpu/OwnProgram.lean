-- SUMMARY: A process executes its own program only: what every dispatch of a run of the machine satisfies.
import ChicOS.Cpu.Effect
import ChicOS.Machine

/-!
# Executing one's own program

`exec_process` kills a process whose program counter has reached the end of its
program, and then dispatches the entry after the last instruction all the same:
there is no return after the kill. What follows is about runs in which the
scheduler selects no such process. In these, every dispatch is of an instruction
of the program, the CPU kills nobody, and program counters stay within programs.

`KeepsCode` says what all calls but a creation do to the code sections: nothing,
apart from where the code lies. The step of the program counter is the one
exception, and comes last in `exec_process`.
-/

namespace ChicOS

/-- Program counters and lengths are as before, and so is the history but for
events of processes executing their own programs. -/
structure KeepsCode (app app' : App) : Prop where
  pc : ∀ k, (app'.pcb.slot k).c.pc = (app.pcb.slot k).c.pc
  last : ∀ k, (app'.pcb.slot k).c.last = (app.pcb.slot k).c.last
  own : ∀ e ∈ app'.trace, e ∈ app.trace ∨ e.Own
  old : ∀ e ∈ app.trace, e ∈ app'.trace

namespace KeepsCode

variable {app app' app'' : App}

theorem refl (app : App) : KeepsCode app app :=
  ⟨fun _ => rfl, fun _ => rfl, fun _ he => .inl he, fun _ he => he⟩

theorem trans (h : KeepsCode app app') (h' : KeepsCode app' app'') : KeepsCode app app'' where
  pc k := (h'.pc k).trans (h.pc k)
  last k := (h'.last k).trans (h.last k)
  own := by
    intro e he
    rcases h'.own e he with hmid | hown
    · exact h.own e hmid
    · exact .inr hown
  old e he := h'.old e (h.old e he)

/-- The same table and history. -/
theorem of_eq (hpcb : app'.pcb = app.pcb) (htrace : app'.trace = app.trace) :
    KeepsCode app app' :=
  ⟨fun k => by rw [hpcb], fun k => by rw [hpcb], fun _ he => .inl (htrace ▸ he),
    fun _ he => htrace ▸ he⟩

theorem of_note {e : Event} (he : e.Own) (hpcb : app'.pcb = app.pcb)
    (htrace : app'.trace = app.trace ++ [e]) : KeepsCode app app' := by
  refine ⟨fun k => by rw [hpcb], fun k => by rw [hpcb], ?_, ?_⟩
  · intro e' he'
    rw [htrace] at he'
    rcases List.mem_append.mp he' with hold | hnew
    · exact .inl hold
    · rw [List.mem_singleton.mp hnew]
      exact .inr he
  · intro e' he'
    rw [htrace]
    exact List.mem_append_left _ he'

/-- A change of one slot that keeps the program counter and the length. -/
theorem of_modify (i : Fin MAX_PCB) (f : Process → Process)
    (hf : (f (app.pcb.slot i)).c.pc = (app.pcb.slot i).c.pc ∧
      (f (app.pcb.slot i)).c.last = (app.pcb.slot i).c.last)
    (hpcb : app'.pcb = app.pcb.modify i f) (htrace : app'.trace = app.trace) :
    KeepsCode app app' := by
  refine ⟨fun k => ?_, fun k => ?_, fun _ he => .inl (htrace ▸ he), fun _ he => htrace ▸ he⟩
  · rw [hpcb]
    exact app.pcb.slot_modify_congr i k (fun p => p.c.pc) hf.1
  · rw [hpcb]
    exact app.pcb.slot_modify_congr i k (fun p => p.c.last) hf.2

/-- No call and no instruction moves a program counter or cuts a program. -/
theorem of_effect {k : Fin MAX_PCB} {n : Nat} (h : Effect k n app app') : KeepsCode app app' := by
  induction h with
  | refl app => exact .refl app
  | trans _ _ ih ih' => exact ih.trans ih'
  | @rest app app' hpcb htrace =>
      have hslot (j : Fin MAX_PCB) : app'.pcb.slot j = app.pcb.slot j := by
        rw [hpcb]
        rfl
      exact ⟨fun j => by rw [hslot], fun j => by rw [hslot], fun _ he => .inl (htrace ▸ he),
        fun _ he => htrace ▸ he⟩
  | mark i f hf hpcb htrace => exact .of_modify i f ⟨by rw [hf], by rw [hf]⟩ hpcb htrace
  | note e he hpcb htrace => exact .of_note he hpcb htrace
  | grow f hf hpc hlast hpcb htrace => exact .of_modify k f ⟨hpc, hlast⟩ hpcb htrace
  | quantum hpcb htrace => exact .of_modify k _ ⟨rfl, rfl⟩ hpcb htrace

end KeepsCode

/-! ## Programs and counters -/

/-- Program counters are within programs, and the history is of processes
executing their own programs. -/
structure OwnInv (app : App) : Prop where
  pc_le : ∀ k, (app.pcb.slot k).c.pc ≤ (app.pcb.slot k).c.last
  own : ∀ e ∈ app.trace, e.Own

/-- A step that keeps the invariant, and the history. -/
structure OwnStep (app app' : App) : Prop where
  inv : OwnInv app → OwnInv app'
  old : ∀ e ∈ app.trace, e ∈ app'.trace

theorem KeepsCode.step {app app' : App} (h : KeepsCode app app') : OwnStep app app' where
  inv hinv := by
    refine ⟨fun k => ?_, fun e he => ?_⟩
    · rw [h.pc, h.last]
      exact hinv.pc_le k
    · exact (h.own e he).elim (hinv.own e) id
  old := h.old

theorem OwnStep.refl (app : App) : OwnStep app app := ⟨id, fun _ he => he⟩

theorem OwnStep.trans {app app' app'' : App} (h : OwnStep app app') (h' : OwnStep app' app'') :
    OwnStep app app'' := ⟨fun hinv => h'.inv (h.inv hinv), fun e he => h'.old e (h.old e he)⟩

/-! ## Creations -/

/-- A new process starts at the first instruction. -/
theorem pCreate_ownStep {app app' : App} {address : List UInt8} {pid : UInt32}
    (hok : pCreate app address = .ok (pid, app')) : OwnStep app app' := by
  rcases pCreate_eq_ok hok with ⟨-, -, rfl⟩ | ⟨hcurr, p, st, hp, -, rfl⟩
  · exact .refl _
  obtain ⟨mem, st₁, fp, -, -, -, -, hload⟩ := hp.stages
  obtain ⟨complete, fp', instrs, i, -, -, hc⟩ := loadCode_eq_ok hload
  have hpc : p.c.pc = 0 := by rw [hc]
  refine ⟨fun hinv => ⟨fun k => ?_, fun e he => ?_⟩, fun e he => List.mem_append_left _ he⟩
  · have hroom : app.pcb.curr.toNat < MAX_PCB := Nat.lt_of_lt_pred hcurr
    show ((app.pcb.enter p hroom).slot k).c.pc ≤ ((app.pcb.enter p hroom).slot k).c.last
    rw [PCB.slot_enter]
    split
    · rw [hpc]
      exact UInt32.zero_le
    · exact hinv.pc_le k
  · rcases List.mem_append.mp he with hold | hnew
    · exact hinv.own e hold
    · rw [List.mem_singleton.mp hnew]
      trivial

theorem createBranch_ownStep {app app' : App} {buffer : List UInt8}
    (hok : createBranch app buffer = .ok app') : OwnStep app app' := by
  obtain ⟨path, -, hok⟩ := Except.bind_eq_ok.mp hok
  obtain ⟨⟨pid, app₁⟩, hcreate, hok⟩ := Except.bind_eq_ok.mp hok
  obtain ⟨u, -, hok⟩ := Except.bind_eq_ok.mp hok
  cases hok
  exact pCreate_ownStep hcreate

theorem interruptControl_ownStep {app app' : App} {e : Events} {buffer : List UInt8}
    (hok : interruptControl app e buffer = .ok app') : OwnStep app app' := by
  by_cases he : e = .processCreate
  · subst he
    obtain ⟨n, -, hok⟩ := Except.bind_eq_ok.mp hok
    obtain ⟨app₁, hrun, hok⟩ := Except.bind_eq_ok.mp hok
    cases hok
    have hentry : KeepsCode app { app with cpu.cpuS := n } := .of_eq rfl rfl
    have hexit : KeepsCode app₁ { app₁ with cpu.cpuS := app₁.cpu.cpuS + 1 } := .of_eq rfl rfl
    exact (hentry.step.trans (createBranch_ownStep hrun)).trans hexit.step
  · exact (KeepsCode.of_effect (interruptControl_effect (k := 0) he hok)).step

/-! ## Executing the process selected -/

/-- Advancing past an instruction of the program stays within the program. -/
theorem advance_pc_le {pc last : UInt32} (h : pc < last) : pc + 1 ≤ last := by
  have hlt := UInt32.lt_iff_toNat_lt.mp h
  have hmax := last.toNat_lt
  rw [UInt32.le_iff_toNat_le, UInt32.toNat_add]
  show (pc.toNat + 1) % 2 ^ 32 ≤ last.toNat
  omega

/-- An instruction of the program is dispatched, and the program counter advances
by one or stays. -/
theorem execInstruction_inv {app app' : App} {k : Fin MAX_PCB} (h : OwnInv app)
    (hpc : (app.pcb.slot k).c.pc < (app.pcb.slot k).c.last)
    (hok : execInstruction app k = .ok app') : OwnInv app' := by
  obtain ⟨c, -, hok⟩ := Except.bind_eq_ok.mp hok
  obtain ⟨⟨done, app₁⟩, hdispatch, hok⟩ := Except.bind_eq_ok.mp hok
  have hnote : KeepsCode app (app.note
      (.dispatch (app.pcb.slot k).pid (app.pcb.slot k).c.pc (app.pcb.slot k).c.last)) :=
    .of_note (e := .dispatch _ _ _) hpc rfl rfl
  have hkeep := hnote.trans (.of_effect (dispatch_effect hdispatch))
  have h₁ := hkeep.step.inv h
  dsimp only at hok
  split at hok
  · cases hok
    refine ⟨fun j => ?_, h₁.own⟩
    dsimp only
    rw [PCB.slot_modify]
    split
    · dsimp only
      rw [hkeep.pc, hkeep.last]
      exact advance_pc_le hpc
    · exact h₁.pc_le j
  · cases hok
    exact h₁

/-- What `exec_process` dispatches is the entry at the program counter it starts
from. -/
theorem execInstruction_old {app app' : App} {k : Fin MAX_PCB}
    (hok : execInstruction app k = .ok app') :
    (∀ e ∈ app.trace, e ∈ app'.trace) ∧
      .dispatch (app.pcb.slot k).pid (app.pcb.slot k).c.pc (app.pcb.slot k).c.last
        ∈ app'.trace := by
  obtain ⟨c, -, hok⟩ := Except.bind_eq_ok.mp hok
  obtain ⟨⟨done, app₁⟩, hdispatch, hok⟩ := Except.bind_eq_ok.mp hok
  have hkeep := KeepsCode.of_effect (dispatch_effect hdispatch)
  have htrace : app'.trace = app₁.trace := by
    dsimp only at hok
    split at hok
    · cases hok; rfl
    · cases hok; rfl
  rw [htrace]
  refine ⟨fun e he => hkeep.old e (List.mem_append_left _ he), hkeep.old _ ?_⟩
  exact List.mem_append_right _ (List.mem_singleton_self _)

/-- The call of `p_kill` at the end of a program, or nothing. -/
theorem endOfProgram_old {app app' : App} {p : Process}
    (hok : (if p.c.pc = p.c.last then execSysCall app p.pid .processKill (printPid p.pid)
      else .ok app) = .ok app') :
    (∀ e ∈ app.trace, e ∈ app'.trace) ∧ (∀ k, (app'.pcb.slot k).c.pc = (app.pcb.slot k).c.pc) ∧
      ∀ k, (app'.pcb.slot k).c.last = (app.pcb.slot k).c.last := by
  split at hok
  · have hkeep := KeepsCode.of_effect (sysCall_effect (k := 0) (by decide) hok)
    exact ⟨fun e he => hkeep.old e (List.mem_append_left _ he), hkeep.pc, hkeep.last⟩
  · cases hok
    exact ⟨fun _ he => he, fun _ => rfl, fun _ => rfl⟩

/-- What runs after the scheduler's selection dispatches the entry at the program
counter of the process selected. -/
theorem runSelected_old {app app' : App} {k : Fin MAX_PCB}
    (htime : (app.pcb.slot k).timeToRun ≠ 0) (hok : runSelected app (some k) = .ok app') :
    (∀ e ∈ app.trace, e ∈ app'.trace) ∧
      ∃ pid, .dispatch pid (app.pcb.slot k).c.pc (app.pcb.slot k).c.last ∈ app'.trace := by
  have hexec := runSelected_eq_ok hok
  unfold execProcess at hexec
  dsimp only at hexec
  rw [if_neg htime] at hexec
  obtain ⟨app₂, hend, hexec⟩ := Except.bind_eq_ok.mp hexec
  obtain ⟨hold, hpc, hlast⟩ := endOfProgram_old hend
  obtain ⟨hold', hdispatch⟩ := execInstruction_old hexec
  rw [hpc, hlast] at hdispatch
  exact ⟨fun e he => hold' e (hold e he), _, hdispatch⟩

theorem runSelected_inv {app app' : App} {k : Fin MAX_PCB} (h : OwnInv app)
    (htime : (app.pcb.slot k).timeToRun ≠ 0)
    (hpc : (app.pcb.slot k).c.pc ≠ (app.pcb.slot k).c.last)
    (hok : runSelected app (some k) = .ok app') : OwnInv app' := by
  have hexec := runSelected_eq_ok hok
  unfold execProcess at hexec
  dsimp only at hexec
  rw [if_neg htime, if_neg hpc] at hexec
  have hlt := UInt32.lt_of_le_of_ne (h.pc_le k) hpc
  exact execInstruction_inv h hlt hexec

/-! ## The scheduler -/

theorem noRunning_keepsCode {app app' : App} (hok : schedulerNoRunning app = .ok app') :
    KeepsCode app app' := by
  refine forSlots_induct (KeepsCode app) (fun {a a' k} _ ha hbody => ?_) (.refl app) hok
  rcases noRunningBody_eq_ok hbody with ⟨-, rfl⟩ | ⟨-, rfl⟩
  · exact ha
  · exact ha.trans (.of_modify k (fun p => { p with status := .ready }) ⟨rfl, rfl⟩ rfl rfl)

/-- Reaping moves processes between slots. -/
theorem killProcess_ownStep {app app' : App} (hok : schedulerKillProcess app = .ok app') :
    OwnStep app app' := by
  refine forSlots_induct (OwnStep app) (fun {a a' k} _ ha hbody => ?_) (.refl app) hok
  rcases killBody_eq_ok hbody with ⟨-, rfl⟩ | ⟨-, rfl⟩
  · exact ha
  refine ha.trans ⟨fun hinv => ⟨fun j => ?_, fun e he => ?_⟩,
    fun e he => List.mem_append_left _ he⟩
  · show ((a.pcb.shift k).slot j).c.pc ≤ ((a.pcb.shift k).slot j).c.last
    rw [slot_shift]
    split
    · exact hinv.pc_le _
    · exact hinv.pc_le j
  · rcases List.mem_append.mp he with hold | hnew
    · exact hinv.own e hold
    · rw [List.mem_singleton.mp hnew]
      trivial

/-- The start of a turn keeps the invariant, and gives the process it selects a
time slice. -/
theorem schedule_ownStep {app app' : App} {r : Option (Fin MAX_PCB)}
    (hok : schedule app = .ok (r, app')) :
    OwnStep app app' ∧ ∀ k, r = some k → (app'.pcb.slot k).timeToRun ≠ 0 := by
  obtain ⟨app₁, hready, hok⟩ := Except.bind_eq_ok.mp hok
  obtain ⟨app₂, hreap, hget⟩ := Except.bind_eq_ok.mp hok
  have htick : KeepsCode app { app with cpu.quantumTime := app.cpu.quantumTime + 1 } :=
    .of_eq rfl rfl
  have hstep := (htick.trans (noRunning_keepsCode hready)).step.trans (killProcess_ownStep hreap)
  rcases schedulerGetProcess_eq_ok hget with ⟨rfl, rfl⟩ | ⟨k, rfl, -, -, -, rfl⟩
  · exact ⟨hstep, fun k hk => by cases hk⟩
  · have hmark : KeepsCode app₂ { app₂ with
        pcb := app₂.pcb.modify k fun p =>
          { p with status := .running, timeToRun := TIME_SLICE } } :=
      .of_modify k (fun p => { p with status := .running, timeToRun := TIME_SLICE })
        ⟨rfl, rfl⟩ rfl rfl
    refine ⟨hstep.trans hmark.step, ?_⟩
    rintro j ⟨⟩
    dsimp only
    rw [PCB.slot_modify_self]
    show TIME_SLICE ≠ 0
    decide

/-! ## Turns -/

/-- The process selected, if any, is not at the end of its program. -/
def SelectedInside : Except Stop (Option (Fin MAX_PCB) × App) → Prop
  | .ok (some k, app) => (app.pcb.slot k).c.pc ≠ (app.pcb.slot k).c.last
  | _ => True

instance : (r : Except Stop (Option (Fin MAX_PCB) × App)) → Decidable (SelectedInside r)
  | .ok (some k, app) =>
    inferInstanceAs (Decidable ((app.pcb.slot k).c.pc ≠ (app.pcb.slot k).c.last))
  | .ok (none, _) => inferInstanceAs (Decidable True)
  | .error _ => inferInstanceAs (Decidable True)

theorem exists_of_not_selectedInside {r : Except Stop (Option (Fin MAX_PCB) × App)}
    (h : ¬ SelectedInside r) :
    ∃ k app, r = .ok (some k, app) ∧ (app.pcb.slot k).c.pc = (app.pcb.slot k).c.last := by
  unfold SelectedInside at h
  split at h
  · exact ⟨_, _, rfl, not_not.mp h⟩
  · exact absurd trivial h

/-- The scheduler selects no process at the end of its program. -/
def App.SelectsInside (app : App) : Turn → Prop
  | .cpu => app.loopStop = false → SelectedInside (schedule app)
  | _ => True

instance (app : App) : (turn : Turn) → Decidable (app.SelectsInside turn)
  | .cpu => inferInstanceAs (Decidable (app.loopStop = false → SelectedInside (schedule app)))
  | .disk => inferInstanceAs (Decidable True)
  | .printer => inferInstanceAs (Decidable True)
  | .create _ => inferInstanceAs (Decidable True)
  | .signal => inferInstanceAs (Decidable True)

theorem createDebug_ownStep {app app' : App} (hok : createDebug app = .ok app') :
    OwnStep app app' := by
  unfold createDebug at hok
  split at hok
  · split at hok
    · exact interruptControl_ownStep hok
    · cases hok; exact .refl _
  · cases hok; exact .refl _

theorem diskLoopTurn_ownStep {app app' : App} (hok : diskLoopTurn app = .ok app') :
    OwnStep app app' := by
  obtain ⟨⟨finished, app₁⟩, hturn, hok⟩ := Except.bind_eq_ok.mp hok
  obtain ⟨disk, rfl⟩ := diskTurn_eq_ok hturn
  have hdisk : KeepsCode app { app with disk := disk } := .of_eq rfl rfl
  dsimp only at hok
  split at hok
  · cases hok
    exact hdisk.step
  · exact hdisk.step.trans (interruptControl_ownStep hok)

theorem printerLoopTurn_ownStep {app app' : App} (hok : printerLoopTurn app = .ok app') :
    OwnStep app app' := by
  obtain ⟨⟨finish, app₁⟩, hturn, hok⟩ := Except.bind_eq_ok.mp hok
  have hprinter : KeepsCode app app₁ := by
    obtain ⟨-, ⟨-, rfl⟩ | ⟨-, ⟨-, rfl⟩ | ⟨-, mem, -, rfl⟩⟩⟩ := printerTurn_eq_ok hturn
    · exact .refl _
    · exact .of_eq rfl rfl
    · exact .of_eq rfl rfl
  dsimp only at hok
  split at hok
  · exact hprinter.step.trans (interruptControl_ownStep hok)
  · cases hok
    exact hprinter.step

theorem cpuTurn_old {app app' : App} (hok : cpuTurn app = .ok app') :
    (∀ e ∈ app.trace, e ∈ app'.trace) ∧
      ∀ k app₁, schedule app = .ok (some k, app₁) →
        ∃ pid, .dispatch pid (app₁.pcb.slot k).c.pc (app₁.pcb.slot k).c.last ∈ app'.trace := by
  obtain ⟨⟨r, app₁⟩, hschedule, hok⟩ := Except.bind_eq_ok.mp hok
  obtain ⟨app₂, hrun, hcreate⟩ := Except.bind_eq_ok.mp hok
  obtain ⟨hstep, htime⟩ := schedule_ownStep hschedule
  have hcreate := (createDebug_ownStep hcreate).old
  cases r with
  | none =>
      cases hrun
      refine ⟨fun e he => hcreate e (hstep.old e he), fun k app₁' hk => ?_⟩
      rw [hschedule] at hk
      cases hk
  | some k =>
      obtain ⟨hold, pid, hdispatch⟩ := runSelected_old (htime k rfl) hrun
      refine ⟨fun e he => hcreate e (hold e (hstep.old e he)), fun j app₁' hj => ?_⟩
      rw [hschedule] at hj
      cases hj
      exact ⟨pid, hcreate _ hdispatch⟩

/-- Every turn but that of a running CPU. -/
theorem turn_ownStep {app app' : App} {turn : Turn} (hturn : turn = .cpu → app.loopStop = true)
    (hok : app.turn turn = .ok app') : OwnStep app app' := by
  by_cases hstop : app.loopStop = true
  · have hsame : KeepsCode app app' := by
      cases turn with
      | signal => cases hok; exact .of_eq rfl rfl
      | cpu | disk | printer | create =>
          simp only [App.turn, hstop] at hok
          cases hok
          exact .refl _
    exact hsame.step
  · cases turn with
    | cpu => exact absurd (hturn rfl) hstop
    | disk =>
        rw [App.turn, if_neg hstop] at hok
        exact diskLoopTurn_ownStep hok
    | printer =>
        rw [App.turn, if_neg hstop] at hok
        exact printerLoopTurn_ownStep hok
    | create path =>
        rw [App.turn, if_neg hstop] at hok
        exact interruptControl_ownStep hok
    | signal =>
        cases hok
        have hkeep : KeepsCode app { app with loopStop := true } := .of_eq rfl rfl
        exact hkeep.step

theorem turn_old {app app' : App} {turn : Turn} (hok : app.turn turn = .ok app') :
    ∀ e ∈ app.trace, e ∈ app'.trace := by
  by_cases hturn : turn = .cpu → app.loopStop = true
  · exact (turn_ownStep hturn hok).old
  · obtain ⟨rfl, hstop⟩ := Classical.not_imp.mp hturn
    rw [App.turn, if_neg hstop] at hok
    exact (cpuTurn_old hok).1

theorem turn_inv {app app' : App} {turn : Turn} (h : OwnInv app) (hguard : app.SelectsInside turn)
    (hok : app.turn turn = .ok app') : OwnInv app' := by
  by_cases hturn : turn = .cpu → app.loopStop = true
  · exact (turn_ownStep hturn hok).inv h
  obtain ⟨rfl, hstop⟩ := Classical.not_imp.mp hturn
  rw [App.turn, if_neg hstop] at hok
  obtain ⟨⟨r, app₁⟩, hschedule, hok⟩ := Except.bind_eq_ok.mp hok
  obtain ⟨app₂, hrun, hcreate⟩ := Except.bind_eq_ok.mp hok
  obtain ⟨hstep, htime⟩ := schedule_ownStep hschedule
  have h₁ := hstep.inv h
  have h₂ : OwnInv app₂ := by
    cases r with
    | none => cases hrun; exact h₁
    | some k =>
        have hinside := hguard (Bool.eq_false_of_not_eq_true hstop)
        rw [hschedule] at hinside
        exact runSelected_inv h₁ (htime k rfl) hinside hrun
  exact (createDebug_ownStep hcreate).inv h₂

/-! ## Runs -/

/-- What the history of a run says when processes execute their own programs only. -/
structure OwnProgram (app : App) : Prop where
  /-- Every instruction dispatched is one of the program. -/
  dispatched : ∀ {pid pc last}, .dispatch pid pc last ∈ app.trace → pc < last
  /-- No program counter is past the end of its program. -/
  within : ∀ k, (app.pcb.slot k).c.pc ≤ (app.pcb.slot k).c.last
  /-- A process that has been killed at its end makes no further system call until
  it is reaped. -/
  quiet : ∀ {before between after pid e}, app.trace =
    before ++ .sysCall pid .processKill :: (between ++ .sysCall pid e :: after) →
    .reap pid ∈ between
  /-- A process that has been killed at its end stays marked until it is reaped. -/
  marked : ∀ {before after pid}, app.trace = before ++ .sysCall pid .processKill :: after →
    .reap pid ∉ after → ∃ k, (app.pcb.slot k).pid = pid ∧ (app.pcb.slot k).status = .kill

theorem OwnInv.ownProgram {app : App} (h : OwnInv app) : OwnProgram app := by
  have hnever : ∀ pid, .sysCall pid .processKill ∉ app.trace := fun pid hmem =>
    h.own _ hmem rfl
  refine ⟨fun hmem => h.own _ hmem, h.pc_le, fun htrace => ?_, fun htrace _ => ?_⟩
  · exact absurd (htrace ▸ List.mem_append_right _ (List.mem_cons_self)) (hnever _)
  · exact absurd (htrace ▸ List.mem_append_right _ (List.mem_cons_self)) (hnever _)

/-- The machine before `main` runs: static storage, the host's files, and the debug
flag. -/
def App.boot (heap : Heap) (fs : List UInt8 → Option (List UInt8)) (debug : Bool) : App :=
  { App.zero heap fs with debug := debug }

theorem initApp_inv {heap : Heap} {fs : List UInt8 → Option (List UInt8)} {debug : Bool}
    {pool : Bytes.Mem} {memSize : UInt32} {app : App}
    (hinit : initApp (App.boot heap fs debug) pool memSize = .ok app) : OwnInv app := by
  obtain ⟨app₁, hsem, hinit⟩ := Except.bind_eq_ok.mp hinit
  obtain ⟨st, -, hsem⟩ := Except.bind_eq_ok.mp hsem
  cases hsem
  cases hinit
  refine ⟨fun k => ?_, fun e he => ?_⟩
  · show ((initPcb PCB.zero).slot k).c.pc ≤ ((initPcb PCB.zero).slot k).c.last
    rw [PCB.slot_initPcb]
    exact UInt32.le_refl _
  · cases he

/-- In a run from `init_app`, processes execute their own programs only just when
the scheduler selects no process at the end of its program. -/
theorem ownProgram_iff {heap : Heap} {fs : List UInt8 → Option (List UInt8)} {debug : Bool}
    {pool : Bytes.Mem} {memSize : UInt32} {app t : App} (turns : List Turn)
    (hinit : initApp (App.boot heap fs debug) pool memSize = .ok app)
    (hrun : Run.run App.turn app turns = .ok t) :
    OwnProgram t ↔ Run.Meets App.turn App.SelectsInside app turns := by
  constructor
  · intro hown
    by_contra hmeets
    obtain ⟨before, turn, after, app₁, app₂, -, -, -, hguard, hturn, hafter⟩ :=
      Run.exists_first_unmet hrun hmeets
    have hcpu : turn = .cpu := by
      cases turn with
      | cpu => rfl
      | disk | printer | create | signal => exact absurd trivial hguard
    subst hcpu
    obtain ⟨hstop, hselect⟩ := Classical.not_imp.mp hguard
    obtain ⟨k, app₁', hschedule, hend⟩ := exists_of_not_selectedInside hselect
    rw [App.turn, hstop] at hturn
    obtain ⟨pid, hdispatch⟩ := (cpuTurn_old hturn).2 k app₁' hschedule
    have hmem := Run.run_preserves (fun s => ∀ e ∈ app₂.trace, e ∈ s.trace)
      (fun h hok e he => turn_old hok e (h e he)) (fun _ he => he) hafter _ hdispatch
    have hlt := hown.dispatched hmem
    rw [hend] at hlt
    exact absurd hlt (UInt32.lt_irrefl _)
  · intro hmeets
    exact (Run.run_invariant OwnInv turn_inv (initApp_inv hinit) hmeets hrun).ownProgram

/-! ## A program that runs, and one that has ended -/

theorem ownProgram_iff_exec :
    ∃ app t, initApp (App.boot Heap.zero (oneProgram "a 1 1 1\n\n\nexec 500\n") false)
        (fun _ => 0) 16384 = .ok app ∧
      Run.run App.turn app [.create (ascii "a"), .cpu] = .ok t ∧
      t.trace = [.create 0, .dispatch 0 0 1] ∧ OwnProgram t := by
  have hrun : (((initApp (App.boot Heap.zero (oneProgram "a 1 1 1\n\n\nexec 500\n") false)
      (fun _ => 0) 16384).toOption.bind fun app =>
        Run.runChecked App.turn App.SelectsInside app [.create (ascii "a"), .cpu]).map App.trace)
      = some [.create 0, .dispatch 0 0 1] := by
    decide +kernel
  obtain ⟨t, ht, htrace⟩ := Option.map_eq_some_iff.mp hrun
  obtain ⟨app, hinit, ht⟩ := Option.bind_eq_some_iff.mp ht
  have hinit := Except.toOption_eq_ok.mp hinit
  obtain ⟨hmeets, hrun⟩ := Run.runChecked_eq_some ht
  exact ⟨app, t, hinit, hrun, htrace, (ownProgram_iff _ hinit hrun).mpr hmeets⟩

/-- A program without instructions: the entry after its last one is dispatched. -/
theorem not_always_ownProgram :
    ¬ ∀ (heap : Heap) (fs : List UInt8 → Option (List UInt8)) (debug : Bool) (pool : Bytes.Mem)
      (memSize : UInt32) (app t : App) (turns : List Turn),
      initApp (App.boot heap fs debug) pool memSize = .ok app →
      Run.run App.turn app turns = .ok t → OwnProgram t := by
  intro h
  have hrun : (((initApp (App.boot Heap.zero (oneProgram "a 1 1 1\n\n") false)
      (fun _ => 0) 16384).toOption.bind fun app =>
        (Run.run App.turn app [.create (ascii "a"), .cpu]).toOption).map fun t =>
          decide (.dispatch 0 0 0 ∈ t.trace)) = some true := by
    decide +kernel
  obtain ⟨t, ht, hmem⟩ := Option.map_eq_some_iff.mp hrun
  obtain ⟨app, hinit, hrun⟩ := Option.bind_eq_some_iff.mp ht
  have hown := h _ _ _ _ _ app t _ (Except.toOption_eq_ok.mp hinit)
    (Except.toOption_eq_ok.mp hrun)
  exact absurd (hown.dispatched (of_decide_eq_true hmem)) (by decide)

end ChicOS
