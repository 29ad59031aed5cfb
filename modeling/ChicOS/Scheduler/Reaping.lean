-- SUMMARY: Reaping as a whole: scheduler_kill_process leaves exactly the living just when no two neighbours are dead.
import ChicOS.Lib.Front
import ChicOS.Lib.Sweep
import ChicOS.Scheduler.Scheduler

/-!
# Reaping

`scheduler_kill_process` takes the dead out of the table it scans: every move
brings the next process into the slot the loop is about to leave. Of two
neighbours that are both dead the second is not looked at, stays in the table, and
may be selected again.
-/

namespace ChicOS

/-- The processes in the slots below `last`. -/
def PCB.listed (pcb : PCB) : List Process := Front.front pcb.processStack pcb.last.toNat

abbrev Process.Dead (p : Process) : Prop := p.status = .kill

/-- No process was put there, and nothing marked it. -/
structure Process.Empty (p : Process) : Prop where
  fb : p.fb = 0
  alive : ¬ p.Dead

/-- The table as creations fill it: processes below `last`, empty slots from there on. -/
structure PCB.Filled (pcb : PCB) : Prop where
  last_le : pcb.last.toNat ≤ MAX_PCB - 1
  empty : ∀ k : Fin MAX_PCB, pcb.last.toNat ≤ k.val → (pcb.slot k).Empty

/-! ## Moving the table down -/

section Table

variable {pcb : PCB} {i k : Fin MAX_PCB}

theorem PCB.getElem?_toList (pcb : PCB) (k : Fin MAX_PCB) :
    pcb.processStack.toList[k.val]? = some (pcb.slot k) := by
  simp [PCB.slot]

/-- The slots after a deleted one move down, the last slot stays as it is. -/
theorem PCB.toList_shift (pcb : PCB) (i : Fin MAX_PCB) :
    (pcb.shift i).processStack.toList
      = pcb.processStack.toList.eraseIdx i.val ++ [pcb.slot (Fin.last 10)] := by
  have hlength : (pcb.processStack.toList.eraseIdx i.val).length = 10 := by
    rw [List.length_eraseIdx_of_lt (by simp), Vector.length_toList]
    rfl
  apply List.ext_getElem?
  intro j
  by_cases hj : j < MAX_PCB
  · have hslot := slot_shift pcb i ⟨j, hj⟩
    rw [PCB.getElem?_toList (pcb.shift i) ⟨j, hj⟩, hslot]
    by_cases hlast : j < 10
    · rw [List.getElem?_append_left (by omega), List.getElem?_eraseIdx]
      split
      · rename_i hmove
        have hle : i.val ≤ j := hmove.1
        rw [if_neg (Nat.not_lt.mpr hle)]
        exact (PCB.getElem?_toList pcb ⟨j + 1, hmove.2⟩).symm
      · rename_i hstay
        have hlt : j < i.val := by
          by_contra hge
          exact hstay ⟨Fin.le_def.mpr (Nat.not_lt.mp hge), Nat.succ_lt_succ hlast⟩
        rw [if_pos hlt]
        exact (PCB.getElem?_toList pcb ⟨j, hj⟩).symm
    · obtain rfl : j = 10 := by unfold MAX_PCB at hj; omega
      rw [dif_neg fun hmove => Nat.lt_irrefl MAX_PCB hmove.2, List.getElem?_append_right (by omega),
        hlength]
      rfl
  · rw [List.getElem?_eq_none (by simpa using hj), List.getElem?_eq_none]
    rw [List.length_append, hlength]
    exact Nat.le_of_not_lt hj

theorem PCB.getLast?_toList (pcb : PCB) :
    pcb.processStack.toList.getLast? = some (pcb.slot (Fin.last 10)) := by
  rw [List.getLast?_eq_getElem?, Vector.length_toList]
  exact PCB.getElem?_toList pcb (Fin.last 10)

/-- The table is what lives in it, and behind that empty slots. -/
theorem PCB.Filled.sweeping (h : pcb.Filled) :
    Sweeping Process.Dead Process.Empty pcb.listed 0 pcb.processStack.toList pcb.last.toNat := by
  have hle : pcb.last.toNat ≤ 10 := h.last_le
  have hlength : pcb.listed.length = pcb.last.toNat := Front.length_front _ (Nat.le_succ_of_le hle)
  have htail : pcb.processStack.toList.drop pcb.last.toNat ≠ [] := by
    rw [ne_eq, List.drop_eq_nil_iff, Vector.length_toList]
    exact Nat.not_le.mpr (Nat.lt_succ_of_le hle)
  have hempty : ∀ p ∈ pcb.processStack.toList.drop pcb.last.toNat, p.Empty := by
    intro p hp
    obtain ⟨j, hj, rfl⟩ := List.mem_drop_iff_getElem.mp hp
    have hlt : pcb.last.toNat + j < MAX_PCB := by simpa [Nat.add_comm] using hj
    exact h.empty ⟨pcb.last.toNat + j, hlt⟩ (Nat.le_add_right _ _)
  have hstart := Sweeping.start (l := pcb.listed) (p := Process.Dead) htail hempty
  rw [hlength] at hstart
  have hsplit : pcb.listed ++ pcb.processStack.toList.drop pcb.last.toNat = pcb.processStack.toList :=
    List.take_append_drop _ _
  rwa [hsplit] at hstart

end Table

/-! ## The loop -/

/-- A turn of the loop deletes the process in its slot, or leaves it. -/
theorem killBody_sweeping {app : App} {k : Fin MAX_PCB} {live : List Process}
    (hlock : app.pcb.pcbS ≠ 0)
    (h : Sweeping Process.Dead Process.Empty live k.val app.pcb.processStack.toList
      app.pcb.last.toNat) :
    ∃ app', killBody app k = .ok app' ∧ app'.pcb.pcbS ≠ 0 ∧
      Sweeping Process.Dead Process.Empty live (k.val + 1) app'.pcb.processStack.toList
        app'.pcb.last.toNat := by
  have hslot := PCB.getElem?_toList app.pcb k
  unfold killBody
  split
  · rename_i hdead
    obtain ⟨hpos, hdelete⟩ := h.delete (fun p hp => hp.alive) hslot hdead
      (PCB.getLast?_toList app.pcb)
    rw [semWait_eq_ok.mpr (Nat.succ_pred_eq_of_ne_zero hlock).symm, Except.ok_bind_run]
    refine ⟨_, rfl, Nat.succ_ne_zero _, ?_⟩
    show Sweeping _ _ live (k.val + 1) (app.pcb.shift k).processStack.toList
      (app.pcb.last - 1).toNat
    rw [PCB.toList_shift, UInt8.toNat_pred hpos]
    exact hdelete
  · rename_i halive
    exact ⟨app, rfl, hlock, h.keep hslot halive⟩

/-- The loop leaves what deleting while scanning leaves. -/
theorem schedulerKillProcess_sweep {app : App} (h : app.pcb.Filled) (hlock : app.pcb.pcbS ≠ 0) :
    ∃ app', schedulerKillProcess app = .ok app' ∧
      app'.pcb.listed = app.pcb.listed.sweep Process.Dead ∧
      app'.pcb.last.toNat = (app.pcb.listed.sweep Process.Dead).length ∧
      ∀ k : Fin MAX_PCB, app'.pcb.last.toNat ≤ k.val → (app'.pcb.slot k).Empty := by
  obtain ⟨app', hok, -, hsweep⟩ : ∃ app', schedulerKillProcess app = .ok app' ∧
      app'.pcb.pcbS ≠ 0 ∧ Sweeping Process.Dead Process.Empty app.pcb.listed MAX_PCB
        app'.pcb.processStack.toList app'.pcb.last.toNat :=
    forSlots_total
      (fun i (a : App) => a.pcb.pcbS ≠ 0 ∧
        Sweeping Process.Dead Process.Empty app.pcb.listed i a.pcb.processStack.toList
          a.pcb.last.toNat)
      (Nat.le_refl MAX_PCB) (fun _ ha => killBody_sweeping ha.1 ha.2) ⟨hlock, h.sweeping⟩
  obtain ⟨hlast, tail, htable, hempty⟩ := hsweep.finish (Nat.le_of_eq Vector.length_toList)
  refine ⟨app', hok, ?_, hlast, fun k hk => ?_⟩
  · rw [PCB.listed, Front.front, htable, hlast, List.take_left]
  · have hget := PCB.getElem?_toList app'.pcb k
    rw [htable, List.getElem?_append_right (hlast ▸ hk)] at hget
    exact hempty _ (List.mem_of_getElem? hget)

/-! ## The living and the dead -/

/-- The dead are gone, the living are where they were among themselves, and none of the
dead can be selected. -/
structure Reaped (app app' : App) : Prop where
  listed : app'.pcb.listed = app.pcb.listed.filter fun p => ¬ p.Dead
  last : app'.pcb.last.toNat = (app.pcb.listed.filter fun p => ¬ p.Dead).length
  none_dead : ∀ k, ¬ (app'.pcb.slot k).Dead
  not_selected : ∀ k app'', schedulerGetProcess app' = .ok (some k, app'') →
    ¬ (app'.pcb.slot k).Dead

/-- Reaping takes out all the dead, and only these, just when no two of them are
neighbours. -/
theorem reaping_exact {app : App} (h : app.pcb.Filled) (hlock : app.pcb.pcbS ≠ 0) :
    (∃ app', schedulerKillProcess app = .ok app' ∧ Reaped app app') ↔
      app.pcb.listed.IsChain fun p q => ¬ (p.Dead ∧ q.Dead) := by
  obtain ⟨app', hok, hlisted, hlast, hempty⟩ := schedulerKillProcess_sweep h hlock
  rw [← List.sweep_eq_filter_iff]
  constructor
  · rintro ⟨app'', hok', hreaped⟩
    cases hok.symm.trans hok'
    exact hlisted.symm.trans hreaped.listed
  · intro hsweep
    rw [hsweep] at hlisted hlast
    have hnone : ∀ k, ¬ (app'.pcb.slot k).Dead := by
      intro k
      by_cases hk : k.val < app'.pcb.last.toNat
      · have hmem : app'.pcb.slot k ∈ app'.pcb.listed :=
          Front.mem_front.mpr ⟨k.val, k.isLt, hk, rfl⟩
        rw [hlisted] at hmem
        exact of_decide_eq_true (List.mem_filter.mp hmem).2
      · exact (hempty k (Nat.not_lt.mp hk)).alive
    exact ⟨app', hok, hlisted, hlast, hnone, fun k _ _ => hnone k⟩

/-- Processes with the given status each, from the first slot on. -/
def App.withStatus (ss : List PStatus) : App :=
  let app := App.zero Heap.zero fun _ => none
  { app with
    pcb :=
      { app.pcb with
        processStack := Vector.ofFn fun k : Fin MAX_PCB =>
          match ss[k.val]? with
          | some s => { Process.zero with pid := UInt32.ofNat k.val, status := s, fb := 8 }
          | none => Process.zero
        last := UInt8.ofNat ss.length
        pcbS := 1 } }

instance Process.decidableEmpty (p : Process) : Decidable p.Empty :=
  decidable_of_iff (p.fb = 0 ∧ ¬ p.Dead) ⟨fun h => ⟨h.1, h.2⟩, fun h => ⟨h.fb, h.alive⟩⟩

theorem reaping_exact_two :
    ∃ app', schedulerKillProcess (.withStatus [.kill, .ready, .kill]) = .ok app' ∧
      Reaped (.withStatus [.kill, .ready, .kill]) app' :=
  (reaping_exact ⟨by decide, by decide⟩ (by decide)).mpr (by
    have hlisted : (App.withStatus [.kill, .ready, .kill]).pcb.listed.map Process.status
        = [.kill, .ready, .kill] := by decide
    rw [← List.isChain_map (f := Process.status) (R := fun s t => ¬ (s = .kill ∧ t = .kill)), hlisted]
    decide)

/-- Of two dead neighbours the second stays, and is selected. -/
theorem reaping_not_always_exact :
    ¬ ∀ app : App, app.pcb.Filled → app.pcb.pcbS ≠ 0 →
      ∃ app', schedulerKillProcess app = .ok app' ∧ Reaped app app' := by
  intro h
  obtain ⟨app', hok, hreaped⟩ := h (.withStatus [.kill, .kill]) ⟨by decide, by decide⟩ (by decide)
  have hdead : ((schedulerKillProcess (.withStatus [.kill, .kill])).toOption.map
      fun a => (a.pcb.slot 0).status) = some .kill := by decide
  rw [hok] at hdead
  exact hreaped.none_dead 0 (Option.some.inj hdead)

end ChicOS
