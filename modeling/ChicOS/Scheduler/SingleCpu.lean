-- SUMMARY: One running process at a time: the scheduler interleaved, section by section, with everything else.
import ChicOS.Machine
import ChicOS.Process.UnblockRace
import ChicOS.Process.Loading

/-!
# The single CPU

The CPU thread goes through its loops one section under the lock of the table at a
time, and between two sections processes are created, and the other calls change
statuses: they look a slot up first, and write it in a section of their own, when
the process may have moved.

A running process stands below `last`, and in front of the demotion loop. Nobody runs
from the end of that loop to the choice of the next. For this `last` must not shrink
but by reaping: it does when `p_create` counts it past 255, after `last` has been
counted below zero.
-/

namespace ChicOS

/-! ## Threads -/

/-- Where the CPU thread is in a turn of `cpu_loop`. -/
inductive SchedPc where
  /-- At the test of the loop of `scheduler_no_running`, and before its section. -/
  | test (i : Nat)
  | demote (i : Nat)
  /-- In `scheduler_kill_process`. -/
  | reap (pc : ReapPc)
  /-- In `scheduler_get_process`: at the first test, at that of the loop, and before its
  section. -/
  | empty
  | look (i : Nat) (selected : Option (Fin MAX_PCB))
  | compare (i : Nat) (selected : Option (Fin MAX_PCB))
  /-- Before the section that marks the process selected. -/
  | mark (k : Fin MAX_PCB)
  /-- In `exec_process`, if a process has been selected. -/
  | exec (selected : Option (Fin MAX_PCB))
  deriving DecidableEq

/-- After the loop: a process that has been selected is marked. -/
def SchedPc.chosen : Option (Fin MAX_PCB) → SchedPc
  | none => .exec none
  | some k => .mark k

/-- A test or a section of the CPU thread. -/
def schedStep (app : App) : SchedPc → Except Stop (App × SchedPc)
  | .test i => .ok (app, if i < app.pcb.last.toNat then .demote i else .reap (.scan 0))
  | .demote i =>
    if h : i < MAX_PCB then do
      let app ← noRunningBody app ⟨i, h⟩
      .ok (app, .test (i + 1))
    else .error .outOfBounds
  | .reap pc =>
    match reapStep app.pcb pc with
    | none => .ok (app, .empty)
    | some r => do
      let (pcb, pc) ← r
      .ok ({ app with pcb := pcb }, .reap pc)
  | .empty => .ok (app, if app.pcb.last = 0 then .exec none else .look 0 none)
  | .look i selected =>
    .ok (app, if i < app.pcb.last.toNat then .compare i selected else .chosen selected)
  | .compare i selected =>
    if h : i < MAX_PCB then do
      let selected ← getProcessBody app selected ⟨i, h⟩
      .ok (app, .look (i + 1) selected)
    else .error .outOfBounds
  | .mark k => do
    let app ← app.inPcb fun pcb =>
      pcb.modify k fun p => { p with status := .running, timeToRun := TIME_SLICE }
    .ok (app, .exec (some k))
  | .exec _ => .ok (app, .test 0)

/-- A call that changes a status. -/
inductive StatusCall where
  /-- `p_unblock`, and the end of a `semaphoreV`. -/
  | ready
  /-- The end of a `semaphoreP`. -/
  | wait
  | block
  | kill
  deriving DecidableEq

/-- What its section does to the process. -/
def StatusCall.set : StatusCall → Process → Process
  | .ready, p => { p with status := .ready }
  | .wait, p => { p with status := .waiting, timeToRun := 0 }
  | .block, p => { p with status := .blocked, timeToRun := 0 }
  | .kill, p => { p with status := .kill }

/-- The state, the place of the CPU thread, and the calls that have found a slot and have
not written it yet. -/
structure SchedRun where
  app : App
  pc : SchedPc
  calls : List (StatusCall × Fin MAX_PCB)

inductive SchedEvent where
  /-- A test or a section of the CPU thread. -/
  | cpu
  /-- A section of `exec_process`, or any other write of a process that leaves its status
  alone. -/
  | work (k : Fin MAX_PCB) (f : Process → Process)
  /-- What is done outside the table. -/
  | rest (app : App)
  /-- The section of a `p_create` that has found room, with the process it has made. -/
  | create (p : Process)
  /-- The lookup of a call reads the slot that it returns. -/
  | find (c : StatusCall) (pid : UInt32) (k : Fin MAX_PCB)
  /-- The section of the call in this place. -/
  | write (n : Nat)

/-- The slot holds a process that `p_create` made, and it runs. -/
def PCB.RunningAt (pcb : PCB) (k : Fin MAX_PCB) : Prop :=
  (pcb.slot k).fb ≠ 0 ∧ (pcb.slot k).status = .running

instance PCB.decidableRunningAt (pcb : PCB) (k : Fin MAX_PCB) : Decidable (pcb.RunningAt k) :=
  inferInstanceAs (Decidable (_ ∧ _))

namespace SchedRun

/-- After `init_pcb`, before the first turn. -/
def start (app : App) : SchedRun where
  app := { app with pcb := initPcb PCB.zero }
  pc := .test 0
  calls := []

/-- One event. A slot with another pid is not returned, and a call that is not there
cannot write. -/
def step (s : SchedRun) : SchedEvent → Except (Option Stop) SchedRun
  | .cpu =>
    match schedStep s.app s.pc with
    | .ok (app, pc) => .ok { s with app := app, pc := pc }
    | .error e => .error (some e)
  | .work k f =>
    .ok { s with
      app.pcb := s.app.pcb.modify k fun p =>
        { f p with pid := p.pid, status := p.status, fb := p.fb } }
  | .rest app => .ok { s with app := { app with pcb := s.app.pcb } }
  | .create p =>
    match enterTable s.app { p with status := .new } with
    | .ok app => .ok { s with app := app }
    | .error e => .error (some e)
  | .find c pid k =>
    if (s.app.pcb.slot k).pid = pid then .ok { s with calls := s.calls ++ [(c, k)] } else .error none
  | .write n =>
    match s.calls[n]? with
    | none => .error none
    | some (c, k) =>
      .ok { s with app.pcb := s.app.pcb.modify k c.set, calls := s.calls.eraseIdx n }

/-- `p_create` counts `last` up, and not past its end. -/
def Counts (s : SchedRun) : SchedEvent → Prop
  | .create _ => s.app.pcb.last ≠ 255
  | _ => True

end SchedRun

/-! ## The invariant -/

/-- Where a running process may stand. -/
def SchedPc.Allows (last k : Nat) : SchedPc → Prop
  | .test i | .demote i => i ≤ k ∧ k < last
  | .exec _ => k < last
  | .reap _ | .empty | .look _ _ | .compare _ _ | .mark _ => False

/-- The slot is one that the selection has come to, or has chosen. -/
def SchedPc.Considers (k : Fin MAX_PCB) : SchedPc → Prop
  | .look _ selected => selected = some k
  | .compare i selected => k.val = i ∨ selected = some k
  | .mark j => j = k
  | .test _ | .demote _ | .reap _ | .empty | .exec _ => False

theorem SchedPc.Allows.mono {pc : SchedPc} {last last' k : Nat} (h : pc.Allows last k)
    (hle : last ≤ last') : pc.Allows last' k := by
  cases pc with
  | test | demote => exact ⟨h.1, Nat.lt_of_lt_of_le h.2 hle⟩
  | exec => exact Nat.lt_of_lt_of_le h hle
  | reap | empty | look | compare | mark => exact h

theorem runningAt_of_modify_ne {pcb : PCB} {i k : Fin MAX_PCB} {f : Process → Process} (hne : i ≠ k)
    (h : (pcb.modify i f).RunningAt k) : pcb.RunningAt k := by
  unfold PCB.RunningAt at h
  rwa [PCB.slot_modify_ne pcb f hne] at h

/-- The count of the processes does not go back to zero from below 255. -/
theorem toNat_lt_add_one {n : UInt8} (h : n ≠ 255) : n.toNat < (n + 1).toNat := by
  have hne : n.toNat ≠ 255 := fun heq => h (UInt8.toNat_inj.mp heq)
  have hlt := n.toNat_lt
  rw [u8_toNat_add_one (by omega)]
  exact Nat.lt_succ_self _

/-- A process that is given another status does not run. -/
theorem runningAt_of_modify {pcb : PCB} {i k : Fin MAX_PCB} {f : Process → Process}
    (hf : ∀ p, (f p).status ≠ .running) (h : (pcb.modify i f).RunningAt k) :
    i ≠ k ∧ pcb.RunningAt k := by
  have hne : i ≠ k := by
    rintro rfl
    have hrunning := h.2
    rw [PCB.slot_modify_self] at hrunning
    exact hf _ hrunning
  exact ⟨hne, runningAt_of_modify_ne hne h⟩

/-- A choice is one of the slots there were. -/
theorem getProcessBody_cases {app : App} {i : Fin MAX_PCB} {selected selected' : Option (Fin MAX_PCB)}
    (h : getProcessBody app selected i = .ok selected') : selected' = selected ∨ selected' = some i := by
  obtain ⟨n, -, h⟩ := Except.bind_eq_ok.mp h
  dsimp only at h
  split at h
  · cases h
    exact .inl rfl
  split at h
  · cases h
    exact .inr rfl
  · obtain ⟨rw₁, -, h⟩ := Except.bind_eq_ok.mp h
    obtain ⟨rw₂, -, h⟩ := Except.bind_eq_ok.mp h
    split at h
    · cases h; exact .inr rfl
    · split at h
      · cases h; exact .inr rfl
      · split at h
        · cases h; exact .inr rfl
        · cases h; exact .inl rfl

namespace SchedRun

/-- At most one process runs, it stands where it may, and the selection is within the
processes of the table. -/
structure Single (s : SchedRun) : Prop where
  one : ∀ {j k}, s.app.pcb.RunningAt j → s.app.pcb.RunningAt k → j = k
  allowed : ∀ {k : Fin MAX_PCB}, s.app.pcb.RunningAt k → s.pc.Allows s.app.pcb.last.toNat k.val
  considered : ∀ {k : Fin MAX_PCB}, s.pc.Considers k → k.val < s.app.pcb.last.toNat

variable {s s' : SchedRun}

theorem start_single (app : App) : (start app).Single := by
  have hempty : ∀ {k}, ¬ (start app).app.pcb.RunningAt k := fun hk =>
    hk.1 (by simp [start, initPcb, PCB.slot, PCB.zero, Process.zero])
  exact ⟨fun hj => absurd hj hempty, fun hk => absurd hk hempty, fun hk => hk.elim⟩

/-- Who is not at the CPU may make the table grow, and nobody run. -/
theorem Single.of_others (h : s.Single) (hpc : s'.pc = s.pc)
    (hlast : s.app.pcb.last.toNat ≤ s'.app.pcb.last.toNat)
    (hrunning : ∀ {k}, s'.app.pcb.RunningAt k → s.app.pcb.RunningAt k) : s'.Single where
  one hj hk := h.one (hrunning hj) (hrunning hk)
  allowed hk := hpc ▸ (h.allowed (hrunning hk)).mono hlast
  considered hk := Nat.lt_of_lt_of_le (h.considered (hpc ▸ hk)) hlast

/-- Nobody runs between the demotion and the choice. -/
theorem Single.of_nobody (hnobody : ∀ {k}, ¬ s.app.pcb.RunningAt k)
    (hconsidered : ∀ {k : Fin MAX_PCB}, s.pc.Considers k → k.val < s.app.pcb.last.toNat) :
    s.Single where
  one hj := absurd hj hnobody
  allowed hk := absurd hk hnobody
  considered := hconsidered

/-! ## The CPU thread -/

/-- Reaping only copies processes. -/
theorem reapStep_copies {pcb pcb' : PCB} {pc pc' : ReapPc}
    (h : reapStep pcb pc = some (.ok (pcb', pc'))) (k : Fin MAX_PCB) :
    ∃ j, pcb'.slot k = pcb.slot j := by
  cases pc with
  | scan i =>
      rw [reapStep] at h
      split at h
      · cases h
        exact ⟨k, rfl⟩
      · cases h
  | move i j =>
      rcases reapStep_move h with ⟨hj, rfl, -⟩ | ⟨-, rfl, -⟩
      · rw [slot_moveDown]
        split
        · exact ⟨_, rfl⟩
        · exact ⟨_, rfl⟩
      · exact ⟨k, rfl⟩

/-- The step lemma of the CPU thread. -/
theorem Single.sched (h : s.Single) {app : App} {pc : SchedPc}
    (hstep : schedStep s.app s.pc = .ok (app, pc)) : ({ s with app := app, pc := pc } : SchedRun).Single := by
  obtain ⟨app₀, pc₀, calls⟩ := s
  cases pc₀ with
  | test i =>
      cases hstep
      dsimp only
      split
      · exact ⟨h.one, h.allowed, fun hk => hk.elim⟩
      · rename_i hend
        refine .of_nobody (fun {k} hk => hend ?_) fun hk => hk.elim
        obtain ⟨hle, hlt⟩ := h.allowed hk
        exact Nat.lt_of_le_of_lt hle hlt
  | demote i =>
      rw [schedStep] at hstep
      split at hstep
      · rename_i hi
        obtain ⟨app₁, hbody, hstep⟩ := Except.bind_eq_ok.mp hstep
        cases hstep
        have hkept : ∀ k : Fin MAX_PCB, app.pcb.RunningAt k →
            k.val ≠ i ∧ app₀.pcb.RunningAt k ∧ app.pcb.last = app₀.pcb.last := by
          intro k hk
          rcases noRunningBody_eq_ok hbody with ⟨hidle, rfl⟩ | ⟨-, rfl⟩
          · refine ⟨?_, hk, rfl⟩
            rintro rfl
            exact hidle hk.2
          · obtain ⟨hne, hrunning⟩ := runningAt_of_modify (fun _ => by simp) hk
            exact ⟨fun heq => hne (Fin.ext heq.symm), hrunning, rfl⟩
        refine ⟨fun hj hk => h.one (hkept _ hj).2.1 (hkept _ hk).2.1, fun {k} hk => ?_, fun hk => hk.elim⟩
        obtain ⟨hne, hrunning, hlast⟩ := hkept k hk
        obtain ⟨hle, hlt⟩ := h.allowed hrunning
        exact ⟨Nat.lt_of_le_of_ne hle (Ne.symm hne), hlast ▸ hlt⟩
      · cases hstep
  | reap pc' =>
      rw [schedStep] at hstep
      split at hstep
      · cases hstep
        exact .of_nobody (fun hk => h.allowed hk) fun hk => hk.elim
      · rename_i r hr
        obtain ⟨⟨pcb, pc₁⟩, hreap, hstep⟩ := Except.bind_eq_ok.mp hstep
        cases hstep
        subst hreap
        refine .of_nobody (fun {k} hk => ?_) fun hk => hk.elim
        obtain ⟨j, hj⟩ := reapStep_copies hr k
        have hk : pcb.RunningAt k := hk
        rw [PCB.RunningAt, hj] at hk
        exact h.allowed (k := j) hk
  | empty =>
      cases hstep
      refine .of_nobody (fun hk => h.allowed hk) fun {k} hk => ?_
      dsimp only at hk
      split at hk
      · exact hk.elim
      · cases hk
  | look i selected =>
      cases hstep
      refine .of_nobody (fun hk => h.allowed hk) fun {k} hk => ?_
      dsimp only at hk ⊢
      split at hk
      · rename_i hi
        exact hk.elim (fun heq => heq ▸ hi) fun hsel => h.considered hsel
      · cases selected with
        | none => exact hk.elim
        | some j => exact h.considered (congrArg some hk)
  | compare i selected =>
      rw [schedStep] at hstep
      split at hstep
      · obtain ⟨selected', hbody, hstep⟩ := Except.bind_eq_ok.mp hstep
        cases hstep
        refine .of_nobody (fun hk => h.allowed hk) fun {k} hk => h.considered ?_
        rcases getProcessBody_cases hbody with rfl | rfl
        · exact .inr hk
        · exact .inl (congrArg Fin.val (Option.some.inj hk)).symm
      · cases hstep
  | mark j =>
      obtain ⟨app₁, hmark, hstep⟩ := Except.bind_eq_ok.mp hstep
      cases hstep
      obtain ⟨-, rfl⟩ := inPcb_eq_ok hmark
      have hmarked : ∀ {k}, PCB.RunningAt (app₀.pcb.modify j fun p =>
          { p with status := .running, timeToRun := TIME_SLICE }) k → k = j := fun {k} hk => by
        by_contra hne
        exact h.allowed (runningAt_of_modify_ne (Ne.symm hne) hk)
      refine ⟨fun hi hk => (hmarked hi).trans (hmarked hk).symm, fun {k} hk => ?_, fun hk => hk.elim⟩
      obtain rfl := hmarked hk
      exact h.considered rfl
  | exec selected =>
      cases hstep
      exact ⟨h.one, fun hk => ⟨Nat.zero_le _, h.allowed hk⟩, fun hk => hk.elim⟩

/-! ## Everything else -/

/-- The step lemma. -/
theorem Single.step (h : s.Single) {e : SchedEvent} (hcounts : s.Counts e)
    (hstep : s.step e = .ok s') : s'.Single := by
  cases e with
  | cpu =>
      rw [SchedRun.step] at hstep
      split at hstep
      · rename_i hsched
        cases hstep
        exact h.sched hsched
      · cases hstep
  | work k f =>
      cases hstep
      refine h.of_others rfl (Nat.le_refl _) fun {j} hj => ?_
      have hfb := PCB.slot_modify_congr s.app.pcb k j (f := fun p =>
        { f p with pid := p.pid, status := p.status, fb := p.fb }) Process.fb rfl
      have hstatus := PCB.slot_modify_congr s.app.pcb k j (f := fun p =>
        { f p with pid := p.pid, status := p.status, fb := p.fb }) Process.status rfl
      exact ⟨hfb ▸ hj.1, hstatus ▸ hj.2⟩
  | rest app =>
      cases hstep
      exact h.of_others rfl (Nat.le_refl _) id
  | create p =>
      rw [SchedRun.step] at hstep
      split at hstep
      · rename_i app henter
        cases hstep
        obtain ⟨hcurr, rfl⟩ := enterTable_eq_ok henter
        refine h.of_others rfl ?_ fun {j} hj => ?_
        · exact Nat.le_of_lt (toNat_lt_add_one hcounts)
        · have hslot := PCB.slot_enter s.app.pcb { p with status := .new } hcurr j
          rw [PCB.RunningAt, hslot] at hj
          split at hj
          · cases hj.2
          · exact hj
      · cases hstep
  | find c pid k =>
      rw [SchedRun.step] at hstep
      split at hstep
      · cases hstep
        exact h.of_others rfl (Nat.le_refl _) id
      · cases hstep
  | write n =>
      rw [SchedRun.step] at hstep
      split at hstep
      · cases hstep
      · rename_i c k hcall
        cases hstep
        refine h.of_others rfl (Nat.le_refl _) fun hj => (runningAt_of_modify (fun p => ?_) hj).2
        cases c <;> exact nofun

/-! ## The CPU thread alone -/

/-- The second state follows from the first, with no other thread at the table. -/
def Alone (s t : SchedRun) : Prop :=
  ∃ es, (∀ e ∈ es, e = .cpu ∨ ∃ app, e = .rest app) ∧ Run.run step s es = .ok t

theorem Alone.refl (s : SchedRun) : s.Alone s := ⟨[], nofun, rfl⟩

theorem Alone.trans {t : SchedRun} (h : s.Alone s') (h' : s'.Alone t) : s.Alone t := by
  obtain ⟨es, halone, hrun⟩ := h
  obtain ⟨es', halone', hrun'⟩ := h'
  refine ⟨es ++ es', fun e he => ?_, Run.run_append_eq_ok.mpr ⟨s', hrun, hrun'⟩⟩
  rcases List.mem_append.mp he with hmem | hmem
  · exact halone e hmem
  · exact halone' e hmem

variable {app app' : App} {calls : List (StatusCall × Fin MAX_PCB)}

theorem Alone.cpu {pc pc' : SchedPc} (h : schedStep app pc = .ok (app', pc')) :
    Alone ⟨app, pc, calls⟩ ⟨app', pc', calls⟩ := by
  refine ⟨[.cpu], fun e he => .inl (List.mem_singleton.mp he), Run.run_cons_eq_ok.mpr ⟨_, ?_, rfl⟩⟩
  simp only [step, h]

theorem Alone.rest {pc : SchedPc} (h : app'.pcb = app.pcb) :
    Alone ⟨app, pc, calls⟩ ⟨app', pc, calls⟩ := by
  refine ⟨[.rest app'], fun e he => .inr ⟨app', List.mem_singleton.mp he⟩,
    Run.run_cons_eq_ok.mpr ⟨_, rfl, ?_⟩⟩
  rw [← h]
  rfl

theorem noRunning_alone (h : schedulerNoRunning app = .ok app') :
    Alone ⟨app, .test 0, calls⟩ ⟨app', .reap (.scan 0), calls⟩ := by
  obtain ⟨hlast, hloop⟩ := forSlots_induct_index
    (fun i app₁ => app₁.pcb.last = app.pcb.last ∧ Alone ⟨app, .test 0, calls⟩ ⟨app₁, .test i, calls⟩)
    (fun {app₁ app₂ k} hk ⟨hlast, hloop⟩ hbody => by
      have hlast' : app₂.pcb.last = app₁.pcb.last := by
        rcases noRunningBody_eq_ok hbody with ⟨-, rfl⟩ | ⟨-, rfl⟩ <;> rfl
      have htest : Alone ⟨app₁, .test k.val, calls⟩ ⟨app₁, .demote k.val, calls⟩ :=
        .cpu (by rw [schedStep, if_pos (hlast ▸ hk)])
      have hdemote : Alone ⟨app₁, .demote k.val, calls⟩ ⟨app₂, .test (k.val + 1), calls⟩ :=
        .cpu (by rw [schedStep, dif_pos k.isLt, hbody, Except.ok_bind_run])
      exact ⟨hlast'.trans hlast, hloop.trans (htest.trans hdemote)⟩)
    ⟨rfl, .refl _⟩ h
  exact hloop.trans (.cpu (by rw [schedStep, hlast, if_neg (Nat.lt_irrefl _)]))

/-- What `scheduler_kill_process` does against `p_unblock` it does here. -/
theorem reap_alone {pid : UInt32} {n : Nat} {r r' : UnblockRace}
    (h : Run.run (UnblockRace.step pid) r (List.replicate n .left) = .ok r') :
    Alone ⟨{ app with pcb := r.shared }, .reap r.left, calls⟩
      ⟨{ app with pcb := r'.shared }, .reap r'.left, calls⟩ := by
  induction n generalizing r with
  | zero =>
      cases h
      exact .refl _
  | succ n ih =>
      obtain ⟨r₁, hstep, hrest⟩ := Run.run_cons_eq_ok.mp h
      obtain ⟨shared, left, hreap, rfl⟩ := Interleave.step_left_eq_ok.mp hstep
      refine Alone.trans (.cpu ?_) (ih hrest)
      rw [schedStep, hreap]
      rfl

theorem killProcess_alone (h : schedulerKillProcess app = .ok app') :
    Alone ⟨app, .reap (.scan 0), calls⟩ ⟨app', .empty, calls⟩ := by
  obtain ⟨n, hrun⟩ : ∃ n, Run.run (UnblockRace.step 0) ⟨app.pcb, .scan 0, .done⟩
      (List.replicate n .left) = .ok ⟨app'.pcb, .scan MAX_PCB, .done⟩ := UnblockRace.reap_alone h
  have hloop : Alone ⟨app, .reap (.scan 0), calls⟩
      ⟨{ app with pcb := app'.pcb }, .reap (.scan MAX_PCB), calls⟩ := reap_alone hrun
  have hend : schedStep { app with pcb := app'.pcb } (.reap (.scan MAX_PCB))
      = .ok ({ app with pcb := app'.pcb }, .empty) := rfl
  exact hloop.trans ((Alone.cpu hend).trans (.rest rfl))

theorem getProcess_alone {r : Option (Fin MAX_PCB)} (h : schedulerGetProcess app = .ok (r, app')) :
    Alone ⟨app, .empty, calls⟩ ⟨app', .exec r, calls⟩ := by
  unfold schedulerGetProcess at h
  split at h
  · rename_i hempty
    cases h
    exact .cpu (by rw [schedStep, if_pos hempty])
  rename_i hlast
  obtain ⟨selected, hloop, h⟩ := Except.bind_eq_ok.mp h
  have hlook := forSlots_induct_index
    (fun i selected => Alone ⟨app, .empty, calls⟩ ⟨app, .look i selected, calls⟩)
    (fun {selected selected' k} hk hlook hbody => by
      have htest : Alone ⟨app, .look k.val selected, calls⟩ ⟨app, .compare k.val selected, calls⟩ :=
        .cpu (by rw [schedStep, if_pos hk])
      have hcompare : Alone ⟨app, .compare k.val selected, calls⟩
          ⟨app, .look (k.val + 1) selected', calls⟩ :=
        .cpu (by rw [schedStep, dif_pos k.isLt, hbody, Except.ok_bind_run])
      exact hlook.trans (htest.trans hcompare))
    (.cpu (by rw [schedStep, if_neg hlast])) hloop
  cases selected with
  | none =>
      cases h
      exact hlook.trans (.cpu (by rw [schedStep, if_neg (Nat.lt_irrefl _), SchedPc.chosen]))
  | some k =>
      obtain ⟨app₁, hmark, h⟩ := Except.bind_eq_ok.mp h
      cases h
      have hend : Alone ⟨app, .look app.pcb.last.toNat (some k), calls⟩ ⟨app, .mark k, calls⟩ :=
        .cpu (by rw [schedStep, if_neg (Nat.lt_irrefl _), SchedPc.chosen])
      have hmarked : Alone ⟨app, .mark k, calls⟩ ⟨app', .exec (some k), calls⟩ :=
        .cpu (by rw [schedStep, hmark, Except.ok_bind_run])
      exact hlook.trans (hend.trans hmarked)

/-- Alone, the steps of the CPU thread are the start of a turn of `cpu_loop`. -/
theorem schedule_alone {r : Option (Fin MAX_PCB)} (h : schedule app = .ok (r, app')) :
    Alone ⟨app, .test 0, calls⟩ ⟨app', .exec r, calls⟩ := by
  obtain ⟨app₁, hdemote, h⟩ := Except.bind_eq_ok.mp h
  obtain ⟨app₂, hreap, h⟩ := Except.bind_eq_ok.mp h
  have hclock : Alone ⟨app, .test 0, calls⟩
      ⟨{ app with cpu.quantumTime := app.cpu.quantumTime + 1 }, .test 0, calls⟩ := .rest rfl
  exact hclock.trans ((noRunning_alone hdemote).trans
    ((killProcess_alone hreap).trans (getProcess_alone h)))

/-! ## The other calls alone -/

theorem step_find {pc : SchedPc} {pid : UInt32} {k : Fin MAX_PCB} (c : StatusCall)
    (h : pFind app pid = some k) :
    step ⟨app, pc, calls⟩ (.find c pid k) = .ok ⟨app, pc, calls ++ [(c, k)]⟩ := by
  simp only [step, if_pos (PCB.find_eq_some h)]

theorem step_write (pc : SchedPc) (c : StatusCall) (k : Fin MAX_PCB) :
    step ⟨app, pc, calls ++ [(c, k)]⟩ (.write calls.length)
      = .ok ⟨{ app with pcb := app.pcb.modify k c.set }, pc, calls⟩ := by
  have herase : (calls ++ [(c, k)]).eraseIdx calls.length = calls := by
    rw [List.eraseIdx_append_of_length_le (Nat.le_refl _), Nat.sub_self, List.eraseIdx_cons_zero,
      List.append_nil]
  simp only [step, List.getElem?_concat_length, herase]

/-- Alone, a lookup and a section change the status of the process. -/
theorem update_alone {pc : SchedPc} {pid : UInt32} {c : StatusCall}
    (h : pUpdate app pid c.set = .ok app') :
    ∃ k, Run.run step ⟨app, pc, calls⟩ [.find c pid k, .write calls.length]
      = .ok ⟨app', pc, calls⟩ := by
  obtain ⟨k, hfind, -, rfl⟩ := pUpdate_eq_ok h
  exact ⟨k, Run.run_cons_eq_ok.mpr ⟨_, step_find c hfind,
    Run.run_cons_eq_ok.mpr ⟨_, step_write pc c k, rfl⟩⟩⟩

/-- Alone, a lookup and a section are `p_kill`, which gives the address space back. -/
theorem kill_alone {pc : SchedPc} {pid : UInt32} {k : Fin MAX_PCB} (h : pKill app pid = .ok app')
    (hfind : pFind app pid = some k) :
    Run.run step ⟨app, pc, calls⟩ [.find .kill pid k, .write calls.length, .rest app']
      = .ok ⟨app', pc, calls⟩ := by
  have hpcb : app'.pcb = app.pcb.modify k StatusCall.kill.set := by
    rcases pKill_eq_ok h with ⟨hnone, -⟩ | ⟨i, hi, -, ⟨-, rfl⟩ | ⟨-, mem, -, rfl⟩⟩
    · cases hfind.symm.trans hnone
    · cases hfind.symm.trans hi
      rfl
    · cases hfind.symm.trans hi
      rfl
  refine Run.run_cons_eq_ok.mpr ⟨_, step_find .kill hfind,
    Run.run_cons_eq_ok.mpr ⟨_, step_write pc .kill k, ?_⟩⟩
  rw [← hpcb]
  rfl

end SchedRun

open SchedRun

/-- However the sections are interleaved, one process runs at most, as long as no
`p_create` counts `last` past its end. -/
theorem single_cpu {app : App} {es : List SchedEvent} {s : SchedRun}
    (hcounts : Run.Meets SchedRun.step Counts (start app) es)
    (hrun : Run.run SchedRun.step (start app) es = .ok s) {j k : Fin MAX_PCB}
    (hj : s.app.pcb.RunningAt j) (hk : s.app.pcb.RunningAt k) : j = k :=
  (Run.run_invariant Single (fun h => h.step) (start_single app) hcounts hrun).one hj hk

instance SchedRun.decidableCounts (s : SchedRun) : (e : SchedEvent) → Decidable (s.Counts e)
  | .create _ => inferInstanceAs (Decidable (_ ≠ _))
  | .cpu | .work _ _ | .rest _ | .find _ _ _ | .write _ => .isTrue trivial

/-- Every process has one disk access. -/
def App.oneAccess : App :=
  { App.zero Heap.zero fun _ => none with
    heap :=
      { Heap.zero with
        syntBuffers := fun _ => { fp := none, h := 8, address := [] }
        syntHeaders := fun a => { Heap.zero.syntHeaders a with rwCount := 1 } } }

/-- A process in a file buffer that has the header. -/
def Process.withPid (pid : UInt32) : Process := { Process.zero with pid := pid, fb := 8 }

/-- Three processes are created, and the third is killed twice: the second call finds
it before it is reaped, and writes after that. -/
def killedTwice : List SchedEvent :=
  [.create (.withPid 0), .create (.withPid 1), .create (.withPid 2), .find .kill 2 2, .write 0,
    .find .kill 2 2] ++ List.replicate 19 .cpu ++ [.write 0] ++ List.replicate 16 .cpu

theorem single_cpu_three :
    ∃ s, Run.run SchedRun.step (start .oneAccess) killedTwice = .ok s ∧ s.app.pcb.RunningAt 0 ∧
      ∀ k, s.app.pcb.RunningAt k → k = 0 := by
  have hchecked : ((Run.runChecked SchedRun.step Counts (start .oneAccess) killedTwice).map
      fun s => decide (s.app.pcb.RunningAt 0)) = some true := by decide +kernel
  obtain ⟨s, hs, hzero⟩ := Option.map_eq_some_iff.mp hchecked
  obtain ⟨hcounts, hrun⟩ := Run.runChecked_eq_some hs
  have hzero : s.app.pcb.RunningAt 0 := of_decide_eq_true hzero
  exact ⟨s, hrun, hzero, fun k hk => single_cpu hcounts hrun hk hzero⟩

/-- Each write of a `p_kill` that comes too late makes a slot without a process dead, and
its reaping counts a process that runs out of the table. In the end `last` is 255, a
creation during the selection makes it 0, and the process selected is not demoted. -/
def lostRunner : List SchedEvent :=
  killedTwice ++
    -- the second process is counted out of the table
    [.work 0 fun p => { p with hUsed := p.hUsed + 1 }, .create (.withPid 3), .find .kill 3 3, .write 0,
      .find .kill 3 3] ++ List.replicate 20 .cpu ++ [.write 0] ++ List.replicate 48 .cpu ++
    -- so is the first, and then nobody
    [.create (.withPid 4), .find .kill 4 4, .write 0, .find .kill 4 4] ++ List.replicate 24 .cpu ++
    [.write 0] ++ List.replicate 26 .cpu ++
    -- the second process is selected while `last` goes from 255 to 0
    [.create (.withPid 5)] ++ List.replicate 2 .cpu ++ [.create (.withPid 6)] ++ List.replicate 21 .cpu

theorem single_cpu_not_always :
    ¬ ∀ (app : App) (es : List SchedEvent) (s : SchedRun),
      Run.run SchedRun.step (start app) es = .ok s →
      ∀ j k, s.app.pcb.RunningAt j → s.app.pcb.RunningAt k → j = k := by
  intro h
  have htwo : ((Run.run SchedRun.step (start .oneAccess) lostRunner).toOption.map
      fun s => decide (s.app.pcb.RunningAt 0 ∧ s.app.pcb.RunningAt 1)) = some true := by decide +kernel
  obtain ⟨s, hs, hrunning⟩ := Option.map_eq_some_iff.mp htwo
  obtain ⟨hzero, hone⟩ := of_decide_eq_true hrunning
  exact absurd (h _ _ s (Except.toOption_eq_ok.mp hs) 0 1 hzero hone) (by decide)

end ChicOS
