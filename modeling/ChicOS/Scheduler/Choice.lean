-- SUMMARY: Which process the scheduler selects: the least in disk accesses, then in quanta, then in pid.
import ChicOS.Scheduler.Scheduler

/-!
# The choice of the scheduler

`scheduler_get_process` compares each candidate with the one selected so far. Its
third comparison, by pid, does not look at the quanta, and would prefer a smaller
pid that has had more of them. Processes stand in the table in the order of their
pids, so that no candidate has a smaller pid than the one selected.
-/

namespace ChicOS

/-- Neither blocked nor waiting. -/
def Process.Eligible (p : Process) : Prop := p.status ≠ .blocked ∧ p.status ≠ .waiting

instance Process.decidableEligible (p : Process) : Decidable p.Eligible :=
  inferInstanceAs (Decidable (_ ∧ _))

/-- The first `n` slots are in the order of their pids. -/
def PCB.Increasing (pcb : PCB) (n : Nat) : Prop :=
  ∀ ⦃j k : Fin MAX_PCB⦄, j < k → k.val < n → (pcb.slot j).pid < (pcb.slot k).pid

instance PCB.decidableIncreasing (pcb : PCB) (n : Nat) : Decidable (pcb.Increasing n) :=
  inferInstanceAs (Decidable (∀ j k : Fin MAX_PCB, j < k → k.val < n → _))

/-- The disk accesses counted for the process in a slot. -/
def App.rwOf (app : App) (k : Fin MAX_PCB) : Int :=
  (app.heap.syntHeaders (app.heap.syntBuffers (app.pcb.slot k).fb).h).rwCount

theorem rwCount_eq_ok {app : App} {k : Fin MAX_PCB} {n : Int}
    (h : app.rwCount (app.pcb.slot k) = .ok n) : n = app.rwOf k := by
  unfold App.rwCount at h
  dsimp only at h
  split at h
  · cases h
  · split at h
    · cases h
    · cases h
      rfl

theorem PCB.Increasing.eq {pcb : PCB} {n : Nat} (h : pcb.Increasing n) {j k : Fin MAX_PCB}
    (hj : j.val < n) (hk : k.val < n) (hpid : (pcb.slot j).pid = (pcb.slot k).pid) : j = k := by
  rcases lt_trichotomy j k with hlt | hsame | hgt
  · exact absurd (hpid ▸ h hlt hk) (UInt32.lt_irrefl _)
  · exact hsame
  · exact absurd (hpid ▸ h hgt hj) (UInt32.lt_irrefl _)

/-! ## The order of the candidates -/

/-- Fewer disk accesses come first, then fewer quanta, then smaller pids. -/
def App.Precedes (app : App) (j k : Fin MAX_PCB) : Prop :=
  app.rwOf j < app.rwOf k ∨ (app.rwOf j = app.rwOf k ∧
    ((app.pcb.slot j).hUsed < (app.pcb.slot k).hUsed ∨
      ((app.pcb.slot j).hUsed = (app.pcb.slot k).hUsed ∧
        (app.pcb.slot j).pid ≤ (app.pcb.slot k).pid)))

theorem App.Precedes.refl (app : App) (j : Fin MAX_PCB) : app.Precedes j j :=
  .inr ⟨rfl, .inr ⟨rfl, UInt32.le_refl _⟩⟩

theorem App.Precedes.trans {app : App} {i j k : Fin MAX_PCB} (h : app.Precedes i j)
    (h' : app.Precedes j k) : app.Precedes i k := by
  unfold App.Precedes at *
  rcases h with hlt | ⟨heq, hij⟩
  · rcases h' with hlt' | ⟨heq', -⟩
    · exact .inl (lt_trans hlt hlt')
    · exact .inl (heq' ▸ hlt)
  · rcases h' with hlt' | ⟨heq', hjk⟩
    · exact .inl (heq ▸ hlt')
    · refine .inr ⟨heq.trans heq', ?_⟩
      rcases hij with hlt | ⟨hsame, hpid⟩
      · rcases hjk with hlt' | ⟨hsame', -⟩
        · exact .inl (UInt8.lt_trans hlt hlt')
        · exact .inl (hsame' ▸ hlt)
      · rcases hjk with hlt' | ⟨hsame', hpid'⟩
        · exact .inl (hsame ▸ hlt')
        · exact .inr ⟨hsame.trans hsame', UInt32.le_trans hpid hpid'⟩

/-- Marking the process selected does not change the order. -/
theorem App.Precedes.mark {app : App} {i j k : Fin MAX_PCB} {f : Process → Process}
    (hf : ∀ p, f p = { p with status := (f p).status, timeToRun := (f p).timeToRun })
    (h : app.Precedes j k) : App.Precedes { app with pcb := app.pcb.modify i f } j k := by
  have hrw (l : Fin MAX_PCB) : App.rwOf { app with pcb := app.pcb.modify i f } l = app.rwOf l := by
    unfold App.rwOf
    dsimp only
    rw [PCB.slot_modify_congr _ _ _ Process.fb (by rw [hf])]
  unfold App.Precedes at h ⊢
  rw [hrw, hrw]
  dsimp only
  rw [PCB.slot_modify_congr _ _ _ Process.hUsed (by rw [hf]),
    PCB.slot_modify_congr _ _ _ Process.hUsed (by rw [hf]),
    PCB.slot_modify_congr _ _ _ Process.pid (by rw [hf]),
    PCB.slot_modify_congr _ _ _ Process.pid (by rw [hf])]
  exact h

/-! ## The loop -/

theorem schedulerGetProcess_le {app app' : App} {selected : Option (Fin MAX_PCB)}
    (h : schedulerGetProcess app = .ok (selected, app')) : app.pcb.last.toNat ≤ MAX_PCB := by
  unfold schedulerGetProcess at h
  split at h
  · rename_i hzero
    rw [hzero]
    exact Nat.zero_le _
  · obtain ⟨best, hselect, -⟩ := Except.bind_eq_ok.mp h
    exact forSlots_le hselect

/-- The process selected among those in the first `n` slots. -/
structure Chosen (app : App) (n : Nat) (selected : Option (Fin MAX_PCB)) : Prop where
  nobody : selected = none → ∀ j : Fin MAX_PCB, j.val < n → ¬ (app.pcb.slot j).Eligible
  least : ∀ k, selected = some k → k.val < n ∧ (app.pcb.slot k).Eligible ∧
    ∀ j : Fin MAX_PCB, j.val < n → (app.pcb.slot j).Eligible → app.Precedes k j

theorem Chosen.skip {app : App} {i : Fin MAX_PCB} {selected : Option (Fin MAX_PCB)}
    (h : Chosen app i.val selected) (hi : ¬ (app.pcb.slot i).Eligible) :
    Chosen app (i.val + 1) selected := by
  have hbefore {j : Fin MAX_PCB} (hj : j.val < i.val + 1) (hel : (app.pcb.slot j).Eligible) :
      j.val < i.val := by
    refine Nat.lt_of_le_of_ne (Nat.le_of_lt_succ hj) fun heq => hi ?_
    rwa [← Fin.ext heq]
  refine ⟨fun hnone j hj hel => h.nobody hnone j (hbefore hj hel) hel, ?_⟩
  intro k hk
  obtain ⟨hlt, hel, hleast⟩ := h.least k hk
  exact ⟨Nat.lt_succ_of_lt hlt, hel, fun j hj hj' => hleast j (hbefore hj hj') hj'⟩

/-- The candidate comes before the one selected so far. -/
theorem Chosen.take {app : App} {i : Fin MAX_PCB} {selected : Option (Fin MAX_PCB)}
    (h : Chosen app i.val selected) (hi : (app.pcb.slot i).Eligible)
    (hbest : ∀ j, selected = some j → app.Precedes i j) :
    Chosen app (i.val + 1) (some i) := by
  refine ⟨nofun, ?_⟩
  rintro k ⟨⟩
  refine ⟨Nat.lt_succ_self _, hi, fun j hj hel => ?_⟩
  by_cases heq : j = i
  · rw [heq]
    exact .refl app i
  · have hlt : j.val < i.val :=
      Nat.lt_of_le_of_ne (Nat.le_of_lt_succ hj) fun hc => heq (Fin.ext hc)
    cases selected with
    | none => exact absurd hel (h.nobody rfl j hlt)
    | some l => exact (hbest l rfl).trans ((h.least l rfl).2.2 j hlt hel)

/-- The one selected so far comes before the candidate. -/
theorem Chosen.keep {app : App} {i j : Fin MAX_PCB} (h : Chosen app i.val (some j))
    (hbest : app.Precedes j i) : Chosen app (i.val + 1) (some j) := by
  obtain ⟨hlt, hel, hleast⟩ := h.least j rfl
  refine ⟨nofun, ?_⟩
  rintro k ⟨⟩
  refine ⟨Nat.lt_succ_of_lt hlt, hel, fun l hl hel' => ?_⟩
  by_cases heq : l = i
  · rw [heq]
    exact hbest
  · exact hleast l (Nat.lt_of_le_of_ne (Nat.le_of_lt_succ hl) fun hc => heq (Fin.ext hc)) hel'

theorem getProcessBody_chosen {app : App} {i : Fin MAX_PCB}
    {selected selected' : Option (Fin MAX_PCB)} (hinc : app.pcb.Increasing app.pcb.last.toNat)
    (hi : i.val < app.pcb.last.toNat) (h : Chosen app i.val selected)
    (hbody : getProcessBody app selected i = .ok selected') : Chosen app (i.val + 1) selected' := by
  obtain ⟨n, -, hbody⟩ := Except.bind_eq_ok.mp hbody
  dsimp only at hbody
  split at hbody
  · rename_i hout
    cases hbody
    exact h.skip fun hel => hout.elim hel.1 hel.2
  rename_i hin
  have hel : (app.pcb.slot i).Eligible := ⟨fun hb => hin (.inl hb), fun hw => hin (.inr hw)⟩
  cases selected with
  | none =>
      cases hbody
      exact h.take hel nofun
  | some j =>
      obtain ⟨rw₁, hrw₁, hbody⟩ := Except.bind_eq_ok.mp hbody
      obtain ⟨rw₂, hrw₂, hbody⟩ := Except.bind_eq_ok.mp hbody
      obtain rfl := rwCount_eq_ok hrw₁
      obtain rfl := rwCount_eq_ok hrw₂
      have hpid : (app.pcb.slot j).pid < (app.pcb.slot i).pid :=
        hinc (Fin.lt_def.mpr (h.least j rfl).1) hi
      split at hbody
      · rename_i hrw
        cases hbody
        refine h.take hel ?_
        rintro l ⟨⟩
        exact .inl hrw
      rename_i hrw
      split at hbody
      · rename_i hused
        cases hbody
        refine h.take hel ?_
        rintro l ⟨⟩
        exact .inr ⟨hused.2, .inl hused.1⟩
      rename_i hused
      split at hbody
      · rename_i hsmaller
        exact absurd (UInt32.lt_trans hsmaller.2 hpid) (UInt32.lt_irrefl _)
      · cases hbody
        refine h.keep ?_
        rcases lt_or_eq_of_le (not_lt.mp hrw) with hlt | heq
        · exact .inl hlt
        · refine .inr ⟨heq, ?_⟩
          have hle : (app.pcb.slot j).hUsed ≤ (app.pcb.slot i).hUsed :=
            UInt8.not_lt.mp fun hlt => hused ⟨hlt, heq.symm⟩
          rcases UInt8.lt_or_eq_of_le hle with hlt | hsame
          · exact .inl hlt
          · exact .inr ⟨hsame, UInt32.le_of_lt hpid⟩

/-- `scheduler_get_process` selects the first process in the order. -/
theorem schedulerGetProcess_chosen {app app' : App} {selected : Option (Fin MAX_PCB)}
    (hinc : app.pcb.Increasing app.pcb.last.toNat)
    (h : schedulerGetProcess app = .ok (selected, app')) :
    Chosen app app.pcb.last.toNat selected := by
  unfold schedulerGetProcess at h
  split at h
  · rename_i hzero
    cases h
    rw [hzero]
    exact ⟨fun _ _ hj => absurd hj (Nat.not_lt_zero _), nofun⟩
  obtain ⟨best, hselect, h⟩ := Except.bind_eq_ok.mp h
  have hstart : Chosen app 0 none := ⟨fun _ _ hj => absurd hj (Nat.not_lt_zero _), nofun⟩
  have hchosen : Chosen app app.pcb.last.toNat best :=
    forSlots_induct_index (Chosen app) (fun hi hsel hbody => getProcessBody_chosen hinc hi hsel hbody)
      hstart hselect
  split at h
  · cases h
    exact hchosen
  · obtain ⟨app₁, -, h⟩ := Except.bind_eq_ok.mp h
    cases h
    exact hchosen

end ChicOS
