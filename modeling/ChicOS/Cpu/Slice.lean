-- SUMMARY: A time slice of a process at an exec instruction: what it takes, and what the process has then.
import ChicOS.Machine
import ChicOS.Process.Holds

/-!
# Time slices

A selection gives a process a whole slice, and `exec_process` takes from the
instruction what it has left, or the slice. After a whole slice the process grows, and
the counter is in another block.
-/

namespace ChicOS

section Slice

variable {app app' : App} {k : Fin MAX_PCB}

theorem App.sliced_entry {i : Nat} (hi : i ≠ (app.pcb.slot k).c.pc.toNat) :
    (app.sliced k).entry k i = app.entry k i := by
  rw [App.entry, App.sliced_slot]
  exact Function.update_of_ne (fun heq => hi (entryAddr_inj.mp heq)) _ _

/-- What a slice leaves: the counter has been lowered, and the program is as it was. -/
structure TakesTime (app app' : App) (k : Fin MAX_PCB) (prog : Program) : Prop where
  pc : (app'.pcb.slot k).c.pc = (app.pcb.slot k).c.pc
  next : app'.next k
    = { app.next k with remainingTime := (app.next k).remainingTime - app.lTime k }
  holds : Holds app' k prog (app.pcb.slot k).c.pc.toNat

theorem Holds.sliced {prog : Program} (h : Holds app k prog (app.pcb.slot k).c.pc.toNat) :
    Holds (app.sliced k) k prog (app.pcb.slot k).c.pc.toNat := by
  refine h.of_entries ?_ ?_ (fun i _ hi => App.sliced_entry hi)
    (fun _ => ⟨(app.next k).remainingTime - app.lTime k, ?_⟩) ?_ ?_ fun b hb _ => hb
  · rw [App.sliced_slot]
    rfl
  · rw [App.sliced_slot]
  · have hnext : (app.sliced k).next k = _ := App.sliced_next
    rw [App.next, App.sliced_slot] at hnext
    rw [App.entry, App.sliced_slot]
    exact hnext
  · rw [App.sliced_slot]
  · rw [App.sliced_slot]

/-- The spec lemma of a slice. -/
theorem execSlice_takes {prog : Program} {done : Bool}
    (h : Holds app k prog (app.pcb.slot k).c.pc.toNat) (hfresh : app.mem.FreshSince app'.mem)
    (hok : execSlice app k = .ok (done, app')) : TakesTime app app' k prog := by
  have hpc : ((app.sliced k).pcb.slot k).c.pc = (app.pcb.slot k).c.pc := by
    rw [App.sliced_slot]
  have hnext : (app.sliced k).next k
      = { app.next k with remainingTime := (app.next k).remainingTime - app.lTime k } :=
    App.sliced_next
  rcases (execSlice_eq_ok hok).2 with rfl | ⟨-, n, bytes, app₁, hgrow, rfl⟩
  · exact ⟨hpc, hnext, h.sliced⟩
  · have hsliced : Holds { app.sliced k with pcb.pcbS := n } k prog
        ((app.sliced k).pcb.slot k).c.pc.toNat := by
      rw [hpc]
      exact h.sliced.apart (.of_slot rfl rfl rfl rfl rfl)
    have hspace : ((app.sliced k).pcb.slot k).addressSpace = (app.pcb.slot k).addressSpace := by
      rw [App.sliced_slot]
    rw [← hspace] at hgrow
    have hfresh : (app.sliced k).mem.FreshSince app₁.mem := hfresh
    obtain ⟨hpc', hentry, hholds⟩ := hsliced.growth hfresh hgrow
    have hnext' : app₁.next k = (app.sliced k).next k := by
      rw [App.next, hpc']
      exact hentry
    have hholds' : Holds { app₁ with pcb.pcbS := app₁.pcb.pcbS + 1 } k prog
        ((app.sliced k).pcb.slot k).c.pc.toNat := hholds.apart (.of_slot rfl rfl rfl rfl rfl)
    exact ⟨hpc'.trans hpc, hnext'.trans hnext, hpc ▸ hholds'⟩

end Slice

/-! ## Selections -/

section Selection

variable {app app₁ app' : App} {k : Fin MAX_PCB}

/-- `exec_process` on an exec instruction is a slice, and the step to the next
instruction when nothing is left. -/
theorem execProcess_exec (hexec : (app.next k).e = .processExec)
    (htime : (app.pcb.slot k).timeToRun ≠ 0)
    (hpc : (app.pcb.slot k).c.pc ≠ (app.pcb.slot k).c.last) (hok : execProcess app k = .ok app') :
    ∃ e app₁, execSlice (app.note e) k = .ok (decide ((app₁.next k).remainingTime = 0), app₁) ∧
      app' = { app₁ with
        pcb := app₁.pcb.modify k fun p =>
          { p with c.pc := if (app₁.next k).remainingTime = 0 then p.c.pc + 1 else p.c.pc } } := by
  unfold execProcess at hok
  dsimp only at hok
  rw [if_neg htime, if_neg hpc, Except.ok_bind_run] at hok
  obtain ⟨c, hfetch, hok⟩ := Except.bind_eq_ok.mp hok
  obtain ⟨-, rfl⟩ := fetch_eq_ok hfetch
  obtain ⟨⟨done, app₁⟩, hslice, hok⟩ := Except.bind_eq_ok.mp hok
  simp only [dispatch, hexec] at hslice
  obtain ⟨rfl, -⟩ := execSlice_eq_ok hslice
  refine ⟨_, app₁, hslice, ?_⟩
  simp only [decide_eq_true_eq] at hok
  split at hok
  · rename_i hdone
    cases hok
    simp only [hdone, if_true]
  · rename_i hleft
    cases hok
    simp only [hleft, if_false]
    rw [PCB.modify_eq_self rfl]

/-- With a whole slice to run, `l_time` is what is left, or the slice. -/
theorem lTime_toNat (htime : (app.pcb.slot k).timeToRun = TIME_SLICE) :
    (app.lTime k).toNat = min (app.next k).remainingTime.toNat TIME_SLICE.toNat := by
  unfold App.lTime
  split
  · rename_i hshort
    exact (Nat.min_eq_left (Nat.le_of_lt (UInt32.lt_iff_toNat_lt.mp hshort))).symm
  · rename_i hlong
    rw [htime]
    exact (Nat.min_eq_right (UInt32.le_iff_toNat_le.mp (UInt32.not_lt.mp hlong))).symm

/-- The spec lemma of `exec_process` on an exec instruction. -/
theorem execProcess_takes {prog : Program} (h : Holds app k prog (app.pcb.slot k).c.pc.toNat)
    (hexec : (app.next k).e = .processExec) (htime : (app.pcb.slot k).timeToRun ≠ 0)
    (hpc : (app.pcb.slot k).c.pc ≠ (app.pcb.slot k).c.last) (hok : execProcess app k = .ok app')
    (hfresh : app.mem.FreshSince app'.mem) :
    app'.entry k (app.pcb.slot k).c.pc.toNat
      = { app.next k with remainingTime := (app.next k).remainingTime - app.lTime k } ∧
    (app'.pcb.slot k).c.pc = (if (app.next k).remainingTime - app.lTime k = 0
      then (app.pcb.slot k).c.pc + 1 else (app.pcb.slot k).c.pc) ∧
    Holds app' k prog (app.pcb.slot k).c.pc.toNat := by
  obtain ⟨e, app₁, hslice, rfl⟩ := execProcess_exec hexec htime hpc hok
  have hnoted : Holds (app.note e) k prog (app.pcb.slot k).c.pc.toNat :=
    h.apart (.of_slot rfl rfl rfl rfl rfl)
  have hfresh : (app.note e).mem.FreshSince app₁.mem := hfresh
  have htakes := execSlice_takes hnoted hfresh hslice
  have hleft : (app₁.next k).remainingTime = (app.next k).remainingTime - app.lTime k :=
    congrArg Instruction.remainingTime htakes.next
  have hpc₁ : (app₁.pcb.slot k).c.pc = (app.pcb.slot k).c.pc := htakes.pc
  rw [hleft]
  refine ⟨?_, ?_, htakes.holds.modify fun _ => ⟨rfl, rfl, rfl, rfl⟩⟩
  · rw [App.entry, PCB.slot_modify_self, ← hpc₁]
    exact htakes.next
  · rw [PCB.slot_modify_self, hpc₁]

/-- A selection gives a whole slice. -/
theorem Holds.selected {prog : Program} {pc : Nat} (h : Holds app k prog pc)
    (hselect : schedulerGetProcess app = .ok (some k, app₁)) :
    (app₁.pcb.slot k).c = (app.pcb.slot k).c ∧ (app₁.pcb.slot k).timeToRun = TIME_SLICE ∧
      app₁.mem = app.mem ∧ app₁.next k = app.next k ∧ Holds app₁ k prog pc := by
  rcases schedulerGetProcess_eq_ok hselect with ⟨hnone, -⟩ | ⟨j, hj, -, -, -, rfl⟩
  · cases hnone
  cases hj
  refine ⟨?_, ?_, rfl, ?_, h.modify fun _ => ⟨rfl, rfl, rfl, rfl⟩⟩
  · rw [PCB.slot_modify_self]
  · rw [PCB.slot_modify_self]
  · rw [App.next, PCB.slot_modify_self]
    rfl

/-- The spec lemma of a selection: the slice takes what is left, or a whole slice, and
the program goes on when nothing is left. -/
theorem selection_takes {prog : Program} (h : Holds app k prog (app.pcb.slot k).c.pc.toNat)
    (hexec : (app.next k).e = .processExec)
    (hpc : (app.pcb.slot k).c.pc ≠ (app.pcb.slot k).c.last)
    (hselect : schedulerGetProcess app = .ok (some k, app₁))
    (hok : execProcess app₁ k = .ok app') (hfresh : app.mem.FreshSince app'.mem) :
    (app₁.lTime k).toNat = min (app.next k).remainingTime.toNat TIME_SLICE.toNat ∧
    app'.entry k (app.pcb.slot k).c.pc.toNat
      = { app.next k with remainingTime := (app.next k).remainingTime - app₁.lTime k } ∧
    (app'.pcb.slot k).c.pc = (if (app.next k).remainingTime - app₁.lTime k = 0
      then (app.pcb.slot k).c.pc + 1 else (app.pcb.slot k).c.pc) ∧
    Holds app' k prog (app.pcb.slot k).c.pc.toNat := by
  obtain ⟨hc, htime, hmem, hnext, hselected⟩ := h.selected hselect
  rw [← hc] at hselected hpc ⊢
  rw [← hnext] at hexec ⊢
  have hrun : (app₁.pcb.slot k).timeToRun ≠ 0 := by
    rw [htime]
    decide
  exact ⟨lTime_toNat htime, execProcess_takes hselected hexec hrun hpc hok (hmem ▸ hfresh)⟩

end Selection

end ChicOS
