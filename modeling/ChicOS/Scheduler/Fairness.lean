-- SUMMARY: How far two processes that only execute drift apart in quanta, while their counters do not wrap.
import ChicOS.Cpu.Effect
import ChicOS.Machine
import ChicOS.Scheduler.Choice

/-!
# Fairness

Of two processes with the same number of disk accesses the scheduler takes the
one with the smaller `h_used`. As long as `h_used` counts quanta, neither is more
than one quantum ahead. It is a byte: the quantum after the 255th puts it back to
zero. And it is compared only between equal numbers of disk accesses, which
`p_realloc` puts back to zero in the middle of a quantum.
-/

namespace ChicOS

/-! ## Iterations -/

/-- The machine, and the pids of the processes that were given a quantum, oldest
first. -/
structure CpuRun where
  app : App
  given : List UInt32

namespace CpuRun

def start (app : App) : CpuRun := { app := app, given := [] }

/-- The quanta a process was given. -/
def quanta (r : CpuRun) (pid : UInt32) : Nat := r.given.count pid

/-- An iteration of `cpu_loop`. -/
def step (r : CpuRun) (_ : Unit) : Except Stop CpuRun := do
  let (selected, app) ← schedule r.app
  let app' ← runSelected app selected
  match selected with
  | none => .ok { r with app := app' }
  | some k => .ok { app := app', given := r.given ++ [(app.pcb.slot k).pid] }

end CpuRun

/-! ## What an instruction counts -/

/-- Pids are as they were, and so are the counters of use but for the quanta of the
process in one slot. -/
structure Uses (k : Fin MAX_PCB) (n : Nat) (app app' : App) : Prop where
  last : app'.pcb.last = app.pcb.last
  pid : ∀ j, (app'.pcb.slot j).pid = (app.pcb.slot j).pid
  hUsed : ∀ j, (app'.pcb.slot j).hUsed
    = (app.pcb.slot j).hUsed + if j = k then UInt8.ofNat n else 0

namespace Uses

variable {k : Fin MAX_PCB} {m n : Nat} {app app' app'' : App}

theorem of_slot (hlast : app'.pcb.last = app.pcb.last)
    (hpid : ∀ j, (app'.pcb.slot j).pid = (app.pcb.slot j).pid)
    (hused : ∀ j, (app'.pcb.slot j).hUsed = (app.pcb.slot j).hUsed) : Uses k 0 app app' := by
  refine ⟨hlast, hpid, fun j => ?_⟩
  rw [hused]
  split
  · exact (UInt8.add_zero _).symm
  · exact (UInt8.add_zero _).symm

theorem of_modify (i : Fin MAX_PCB) (f : Process → Process)
    (hf : ∀ p, (f p).pid = p.pid ∧ (f p).hUsed = p.hUsed) (hpcb : app'.pcb = app.pcb.modify i f) :
    Uses k 0 app app' := by
  refine of_slot (by rw [hpcb]; rfl) (fun j => ?_) (fun j => ?_)
  · rw [hpcb, PCB.slot_modify_pid _ _ _ fun p => (hf p).1]
  · rw [hpcb, PCB.slot_modify_congr _ _ _ Process.hUsed (hf _).2]

theorem trans (h : Uses k m app app') (h' : Uses k n app' app'') : Uses k (m + n) app app'' := by
  refine ⟨h'.last.trans h.last, fun j => (h'.pid j).trans (h.pid j), fun j => ?_⟩
  rw [h'.hUsed, h.hUsed, UInt8.add_assoc]
  split
  · rw [UInt8.ofNat_add]
  · rfl

theorem increasing (h : Uses k n app app') (hinc : app.pcb.Increasing app.pcb.last.toNat) :
    app'.pcb.Increasing app'.pcb.last.toNat := by
  intro i j hij hj
  rw [h.pid, h.pid]
  exact hinc hij (h.last ▸ hj)

theorem of_effect (h : Effect k n app app') : Uses k n app app' := by
  induction h with
  | refl app => exact .of_slot rfl (fun _ => rfl) fun _ => rfl
  | trans _ _ ih ih' => exact ih.trans ih'
  | @rest app app' hpcb _ =>
      have hslot (j : Fin MAX_PCB) : app'.pcb.slot j = app.pcb.slot j := by
        rw [hpcb]
        rfl
      exact .of_slot (by rw [hpcb]) (fun j => by rw [hslot]) fun j => by rw [hslot]
  | mark i f hf hpcb _ => exact .of_modify i f (fun p => ⟨by rw [hf], by rw [hf]⟩) hpcb
  | note e _ hpcb _ => exact .of_slot (by rw [hpcb]) (fun j => by rw [hpcb]) fun j => by rw [hpcb]
  | grow f hf _ _ hpcb _ => exact .of_modify k f (fun p => ⟨by rw [hf], by rw [hf]⟩) hpcb
  | @quantum app app' hpcb _ =>
      refine ⟨by rw [hpcb]; rfl, fun j => ?_, fun j => ?_⟩
      · rw [hpcb]
        exact PCB.slot_modify_pid _ _ _ fun _ => rfl
      · rw [hpcb, PCB.slot_modify]
        by_cases hjk : k = j
        · rw [if_pos hjk, if_pos hjk.symm, hjk]
          rfl
        · rw [if_neg hjk, if_neg (Ne.symm hjk), UInt8.add_zero]

end Uses

theorem execInstruction_uses {app app' : App} {k : Fin MAX_PCB}
    (h : execInstruction app k = .ok app') : Uses k (app.next k).quanta app app' := by
  obtain ⟨c, hfetch, hrest⟩ := Except.bind_eq_ok.mp h
  obtain ⟨-, rfl⟩ := fetch_eq_ok hfetch
  obtain ⟨⟨done, app₁⟩, hdispatch, hlast⟩ := Except.bind_eq_ok.mp hrest
  have hnote : Uses k 0 app (app.note
      (.dispatch (app.pcb.slot k).pid (app.pcb.slot k).c.pc (app.pcb.slot k).c.last)) :=
    .of_slot rfl (fun _ => rfl) fun _ => rfl
  have huses := hnote.trans (.of_effect (dispatch_effect hdispatch))
  have hadvance : Uses k 0 app₁ app' := by
    dsimp only at hlast
    split at hlast
    · cases hlast
      exact .of_modify k (fun p => { p with c.pc := p.c.pc + 1 }) (fun _ => ⟨rfl, rfl⟩) rfl
    · cases hlast
      exact .of_slot rfl (fun _ => rfl) fun _ => rfl
  have htotal := huses.trans hadvance
  rwa [Nat.zero_add, Nat.add_zero] at htotal

/-- Executing a process changes no other process's counter of use. -/
theorem execProcess_uses {app app' : App} {k : Fin MAX_PCB} (h : execProcess app k = .ok app') :
    ∃ n, Uses k n app app' := by
  unfold execProcess at h
  dsimp only at h
  have hnote {a : App} (e : Event) : Uses k 0 a (a.note e) :=
    .of_slot rfl (fun _ => rfl) fun _ => rfl
  split at h
  · exact ⟨_, (hnote _).trans (.of_effect (sysCall_effect (by decide) h))⟩
  · obtain ⟨app₁, hend, h⟩ := Except.bind_eq_ok.mp h
    have huses : ∃ n, Uses k n app app₁ := by
      split at hend
      · exact ⟨_, (hnote _).trans (.of_effect (sysCall_effect (by decide) hend))⟩
      · cases hend
        exact ⟨0, .of_slot rfl (fun _ => rfl) fun _ => rfl⟩
    obtain ⟨n, hend⟩ := huses
    exact ⟨_, hend.trans (execInstruction_uses h)⟩

/-- A process selected inside its program executes the instruction fetched. -/
theorem execProcess_uses_next {app app' : App} {k : Fin MAX_PCB}
    (htime : (app.pcb.slot k).timeToRun ≠ 0)
    (hpc : (app.pcb.slot k).c.pc ≠ (app.pcb.slot k).c.last) (h : execProcess app k = .ok app') :
    Uses k (app.next k).quanta app app' := by
  unfold execProcess at h
  dsimp only at h
  rw [if_neg htime, if_neg hpc] at h
  exact execInstruction_uses h

/-! ## Before the choice -/

/-- Every process of the second table was in the first, with the same counter, and
the order of pids is kept. -/
structure Descends (app app' : App) : Prop where
  increasing : app.pcb.Increasing app.pcb.last.toNat → app'.pcb.Increasing app'.pcb.last.toNat
  origin : ∀ k : Fin MAX_PCB, k.val < app'.pcb.last.toNat →
    ∃ j : Fin MAX_PCB, j.val < app.pcb.last.toNat ∧ (app'.pcb.slot k).pid = (app.pcb.slot j).pid ∧
      (app'.pcb.slot k).hUsed = (app.pcb.slot j).hUsed

namespace Descends

variable {k : Fin MAX_PCB} {app app' app'' : App}

theorem trans (h : Descends app app') (h' : Descends app' app'') : Descends app app'' := by
  refine ⟨fun hinc => h'.increasing (h.increasing hinc), fun k hk => ?_⟩
  obtain ⟨j, hj, hpid, hused⟩ := h'.origin k hk
  obtain ⟨i, hi, hpid', hused'⟩ := h.origin j hj
  exact ⟨i, hi, hpid.trans hpid', hused.trans hused'⟩

theorem of_uses (h : Uses k 0 app app') : Descends app app' := by
  refine ⟨h.increasing, fun j hj => ⟨j, h.last ▸ hj, h.pid j, ?_⟩⟩
  rw [h.hUsed]
  split
  · exact UInt8.add_zero _
  · exact UInt8.add_zero _

/-- A dead process leaves the table, and those behind it move up. -/
theorem shift {trace : List Event} (i : Fin MAX_PCB) (hlast : 1 ≤ app.pcb.last.toNat)
    (hle : app.pcb.last.toNat ≤ MAX_PCB) :
    Descends app { app with
      pcb := { app.pcb.shift i with last := app.pcb.last - 1 }
      trace := trace } := by
  have hpred : (app.pcb.last - 1).toNat = app.pcb.last.toNat - 1 := UInt8.toNat_pred hlast
  -- the slot that the process in a slot comes from
  have hfrom (k : Fin MAX_PCB) (hk : k.val < (app.pcb.last - 1).toNat) :
      ∃ j : Fin MAX_PCB, (app.pcb.shift i).slot k = app.pcb.slot j ∧
        j.val = if i.val ≤ k.val then k.val + 1 else k.val := by
    rw [slot_shift]
    by_cases hik : i.val ≤ k.val
    · have hnext : k.val + 1 < MAX_PCB := by omega
      exact ⟨⟨k.val + 1, hnext⟩, dif_pos ⟨hik, hnext⟩, (if_pos hik).symm⟩
    · exact ⟨k, dif_neg fun hc => hik hc.1, (if_neg hik).symm⟩
  refine ⟨fun hinc j k hjk hk => ?_, fun k hk => ?_⟩
  · change k.val < (app.pcb.last - 1).toNat at hk
    change ((app.pcb.shift i).slot j).pid < ((app.pcb.shift i).slot k).pid
    rw [Fin.lt_def] at hjk
    obtain ⟨j', hj', hjval⟩ := hfrom j (Nat.lt_trans hjk hk)
    obtain ⟨k', hk', hkval⟩ := hfrom k hk
    rw [hj', hk']
    refine hinc ?_ ?_
    · rw [Fin.lt_def]
      split at hjval <;> split at hkval <;> omega
    · split at hkval <;> omega
  · change k.val < (app.pcb.last - 1).toNat at hk
    obtain ⟨j, hj, hval⟩ := hfrom k hk
    refine ⟨j, ?_, congrArg Process.pid hj, congrArg Process.hUsed hj⟩
    split at hval <;> omega

end Descends

theorem noRunning_uses {app app' : App} {k : Fin MAX_PCB} (h : schedulerNoRunning app = .ok app') :
    Uses k 0 app app' := by
  refine forSlots_induct (Uses k 0 app) (fun {a a' i} _ ha hbody => ?_)
    (.of_slot rfl (fun _ => rfl) fun _ => rfl) h
  rcases noRunningBody_eq_ok hbody with ⟨-, rfl⟩ | ⟨-, rfl⟩
  · exact ha
  · exact ha.trans (.of_modify i (fun p => { p with status := .ready }) (fun _ => ⟨rfl, rfl⟩) rfl)

/-- Reaping keeps order and counters, unless it lowers `last` below zero. -/
theorem killProcess_descends {app app' : App} (hle : app.pcb.last.toNat ≤ MAX_PCB)
    (h : schedulerKillProcess app = .ok app') :
    Descends app app' ∨ MAX_PCB < app'.pcb.last.toNat := by
  have hloop := forSlots_induct_index
    (fun n a => (Descends app a ∧ a.pcb.last.toNat ≤ MAX_PCB) ∨ 256 ≤ a.pcb.last.toNat + n)
    (fun {a a' k} hk ha hbody => ?_)
    (.inl ⟨Descends.of_uses (k := 0) (.of_slot rfl (fun _ => rfl) fun _ => rfl), hle⟩) h
  · rcases hloop with ⟨hdescends, -⟩ | hwrap
    · exact .inl hdescends
    · unfold MAX_PCB at hwrap ⊢
      exact .inr (by omega)
  · rcases killBody_eq_ok hbody with ⟨-, rfl⟩ | ⟨-, rfl⟩
    · exact ha.imp id Nat.le_succ_of_le
    · show (_ ∧ (a.pcb.last - 1).toNat ≤ MAX_PCB) ∨ 256 ≤ (a.pcb.last - 1).toNat + (k.val + 1)
      by_cases hpos : 1 ≤ a.pcb.last.toNat
      · rw [UInt8.toNat_pred hpos]
        refine ha.imp ?_ (by omega)
        rintro ⟨hdescends, hle⟩
        exact ⟨hdescends.trans (.shift k hpos hle), by omega⟩
      · have hzero : a.pcb.last = 0 := UInt8.toNat_inj.mp (by simpa using hpos)
        rw [hzero]
        refine .inr ?_
        show 256 ≤ 255 + (k.val + 1)
        omega

/-! ## The choice -/

/-- What the start of an iteration does. -/
structure Scheduled (app : App) (selected : Option (Fin MAX_PCB)) (app' : App) : Prop where
  descends : Descends app app'
  least : ∀ k, selected = some k → k.val < app'.pcb.last.toNat ∧
    (app'.pcb.slot k).timeToRun ≠ 0 ∧
    ∀ j : Fin MAX_PCB, j.val < app'.pcb.last.toNat → (app'.pcb.slot j).Eligible → app'.Precedes k j

theorem schedule_scheduled {app app' : App} {selected : Option (Fin MAX_PCB)}
    (hinc : app.pcb.Increasing app.pcb.last.toNat) (h : schedule app = .ok (selected, app')) :
    Scheduled app selected app' := by
  obtain ⟨app₁, hready, hrest⟩ := Except.bind_eq_ok.mp h
  obtain ⟨app₂, hreap, hget⟩ := Except.bind_eq_ok.mp hrest
  have htick : Uses 0 0 app { app with cpu.quantumTime := app.cpu.quantumTime + 1 } :=
    .of_slot rfl (fun _ => rfl) fun _ => rfl
  have huses : Uses 0 0 app app₁ := htick.trans (noRunning_uses hready)
  have hle : app₁.pcb.last.toNat ≤ MAX_PCB := by
    rw [huses.last]
    exact forSlots_le hready
  have hdescends : Descends app app₂ := by
    rcases killProcess_descends hle hreap with hkept | hwrap
    · exact (Descends.of_uses huses).trans hkept
    · exact absurd (schedulerGetProcess_le hget) (Nat.not_le.mpr hwrap)
  have hchosen := schedulerGetProcess_chosen (hdescends.increasing hinc) hget
  rcases schedulerGetProcess_eq_ok hget with ⟨rfl, rfl⟩ | ⟨k, rfl, hk, -, -, rfl⟩
  · exact ⟨hdescends, nofun⟩
  · let mark : Process → Process := fun p => { p with status := .running, timeToRun := TIME_SLICE }
    have hmark : Uses 0 0 app₂ { app₂ with pcb := app₂.pcb.modify k mark } :=
      .of_modify k mark (fun _ => ⟨rfl, rfl⟩) rfl
    refine ⟨hdescends.trans (.of_uses hmark), ?_⟩
    rintro l ⟨⟩
    refine ⟨hk, ?_, fun j hj hel => App.Precedes.mark (fun _ => rfl) ?_⟩
    · show ((app₂.pcb.modify k mark).slot k).timeToRun ≠ 0
      rw [PCB.slot_modify_self]
      show TIME_SLICE ≠ 0
      decide
    · by_cases hjk : j = k
      · rw [hjk]
        exact .refl app₂ k
      · dsimp only at hel
        rw [PCB.slot_modify_ne _ _ (Ne.symm hjk)] at hel
        exact (hchosen.least k rfl).2.2 j hj hel

/-! ## Counting quanta -/

/-- The counter of use of the process with the pid. -/
def App.Counts (app : App) (pid : UInt32) (n : Nat) : Prop :=
  ∀ k : Fin MAX_PCB, k.val < app.pcb.last.toNat → (app.pcb.slot k).pid = pid →
    (app.pcb.slot k).hUsed.toNat = n

theorem Descends.counts {app app' : App} {pid : UInt32} {n : Nat} (h : Descends app app')
    (hcounts : app.Counts pid n) : app'.Counts pid n := by
  intro k hk hpid
  obtain ⟨j, hj, hsame, hused⟩ := h.origin k hk
  rw [hused]
  exact hcounts j hj (hsame.symm.trans hpid)

theorem Uses.counts_other {app app' : App} {k : Fin MAX_PCB} {pid : UInt32} {m n : Nat}
    (h : Uses k m app app') (hk : (app.pcb.slot k).pid ≠ pid) (hcounts : app.Counts pid n) :
    app'.Counts pid n := by
  intro j hj hpid
  rw [h.last] at hj
  rw [h.pid] at hpid
  have hjk : j ≠ k := fun hc => hk (hc ▸ hpid)
  rw [h.hUsed, if_neg hjk, UInt8.add_zero]
  exact hcounts j hj hpid

theorem Uses.counts_self {app app' : App} {k : Fin MAX_PCB} {n : Nat} (h : Uses k 1 app app')
    (hinc : app.pcb.Increasing app.pcb.last.toNat) (hk : k.val < app.pcb.last.toNat)
    (hfull : (app.pcb.slot k).hUsed ≠ 255) (hcounts : app.Counts (app.pcb.slot k).pid n) :
    app'.Counts (app.pcb.slot k).pid (n + 1) := by
  intro j hj hpid
  rw [h.last] at hj
  rw [h.pid] at hpid
  obtain rfl := hinc.eq hj hk hpid
  have hn := hcounts j hj rfl
  have hlt : (app.pcb.slot j).hUsed.toNat ≠ 255 := fun hc => hfull (UInt8.toNat_inj.mp hc)
  have hmax := (app.pcb.slot j).hUsed.toNat_lt
  rw [h.hUsed, if_pos rfl]
  show ((app.pcb.slot j).hUsed + 1).toNat = n + 1
  rw [u8_toNat_add_one (by omega), hn]

/-! ## Two processes that only execute -/

/-- The process stands in the table, may be selected, and would execute. -/
def App.Competes (app : App) (pid : UInt32) : Prop :=
  ∃ k : Fin MAX_PCB, k.val < app.pcb.last.toNat ∧ (app.pcb.slot k).pid = pid ∧
    (app.pcb.slot k).Eligible ∧ (app.pcb.slot k).status ≠ .kill ∧
    (app.pcb.slot k).c.pc ≠ (app.pcb.slot k).c.last ∧ (app.next k).e = .processExec

/-- The two processes have as many disk accesses, and the quantum of one of them
does not take its `h_used` past 255. -/
def App.Comparable (app : App) (a b : UInt32) (selected : Option (Fin MAX_PCB)) : Prop :=
  (∀ j k : Fin MAX_PCB, j.val < app.pcb.last.toNat → k.val < app.pcb.last.toNat →
    (app.pcb.slot j).pid = a → (app.pcb.slot k).pid = b → app.rwOf j = app.rwOf k) ∧
  ∀ k, selected = some k → (app.pcb.slot k).pid = a ∨ (app.pcb.slot k).pid = b →
    (app.pcb.slot k).hUsed ≠ 255

namespace CpuRun

/-- What holds when an iteration has selected a process. -/
def Selects (P : App → Option (Fin MAX_PCB) → Prop) (r : CpuRun) : Prop :=
  match schedule r.app with
  | .ok (selected, app) => P app selected
  | .error _ => True

/-- Both processes compete at every selection. -/
def Contest (a b : UInt32) (r : CpuRun) (_ : Unit) : Prop :=
  r.Selects fun app _ => app.Competes a ∧ app.Competes b

/-- Nothing but the quanta decides between them, and these are counted. -/
def Even (a b : UInt32) (r : CpuRun) (_ : Unit) : Prop :=
  r.Selects fun app selected => app.Comparable a b selected

theorem step_eq_ok {r r' : CpuRun} (h : r.step () = .ok r') :
    ∃ selected app app', schedule r.app = .ok (selected, app) ∧
      runSelected app selected = .ok app' ∧
      ((selected = none ∧ r' = { r with app := app' }) ∨ ∃ k, selected = some k ∧
        r' = { app := app', given := r.given ++ [(app.pcb.slot k).pid] }) := by
  obtain ⟨⟨selected, app⟩, hschedule, hrest⟩ := Except.bind_eq_ok.mp h
  obtain ⟨app', hrun, hlast⟩ := Except.bind_eq_ok.mp hrest
  refine ⟨selected, app, app', hschedule, hrun, ?_⟩
  cases selected with
  | none =>
      cases hlast
      exact .inl ⟨rfl, rfl⟩
  | some k =>
      cases hlast
      exact .inr ⟨k, rfl, rfl⟩

/-- The counters of use count the quanta, and these are close. -/
structure Fair (n : Nat) (a b : UInt32) (r : CpuRun) : Prop where
  increasing : r.app.pcb.Increasing r.app.pcb.last.toNat
  left : r.app.Counts a (n + r.quanta a)
  right : r.app.Counts b (n + r.quanta b)
  close : r.quanta a ≤ r.quanta b + 1 ∧ r.quanta b ≤ r.quanta a + 1

theorem Fair.symm {n : Nat} {a b : UInt32} {r : CpuRun} (h : Fair n a b r) : Fair n b a r :=
  ⟨h.increasing, h.right, h.left, h.close.2, h.close.1⟩

theorem quanta_self {r : CpuRun} {app : App} {pid : UInt32} :
    quanta { app := app, given := r.given ++ [pid] } pid = r.quanta pid + 1 := by
  simp [quanta]

theorem quanta_other {r : CpuRun} {app : App} {pid other : UInt32} (h : other ≠ pid) :
    quanta { app := app, given := r.given ++ [other] } pid = r.quanta pid := by
  simp [quanta, h]

section Step

variable {n : Nat} {a b : UInt32} {r : CpuRun} {app app' : App} {k : Fin MAX_PCB}

/-- The process selected has had no more quanta than the other. -/
theorem Fair.give (h : Fair n a b r) (hab : a ≠ b) (hsched : Scheduled r.app (some k) app)
    (hcompetes : app.Competes a ∧ app.Competes b) (hcomp : app.Comparable a b (some k))
    (hrun : runSelected app (some k) = .ok app') (hpid : (app.pcb.slot k).pid = a) :
    Fair n a b { app := app', given := r.given ++ [(app.pcb.slot k).pid] } := by
  have hexec := runSelected_eq_ok hrun
  obtain ⟨hk, htime, hleast⟩ := hsched.least k rfl
  have hinc := hsched.descends.increasing h.increasing
  have hleft := hsched.descends.counts h.left
  have hright := hsched.descends.counts h.right
  subst hpid
  obtain ⟨⟨j, hj, hpid, -, -, hpc, hexecutes⟩, i, hi, hpid', hel, -⟩ := hcompetes
  obtain rfl := hinc.eq hj hk hpid
  have huses := execProcess_uses_next htime hpc hexec
  rw [Instruction.quanta, if_pos hexecutes] at huses
  have hfull := hcomp.2 j rfl (.inl rfl)
  -- the other process comes after it in the order, by its quanta
  have hquanta : r.quanta (app.pcb.slot j).pid ≤ r.quanta b := by
    have hrw := hcomp.1 j i hj hi rfl hpid'
    have hle : (app.pcb.slot j).hUsed.toNat ≤ (app.pcb.slot i).hUsed.toNat := by
      rcases hleast i hi hel with hlt | ⟨-, hlt | ⟨heq, -⟩⟩
      · exact absurd hrw (ne_of_lt hlt)
      · exact Nat.le_of_lt (UInt8.lt_iff_toNat_lt.mp hlt)
      · rw [heq]
    rw [hleft j hj rfl, hright i hi hpid'] at hle
    exact Nat.le_of_add_le_add_left hle
  have hother : quanta { app := app', given := r.given ++ [(app.pcb.slot j).pid] } b = r.quanta b :=
    quanta_other hab
  refine ⟨?_, ?_, ?_, ?_⟩
  · exact huses.increasing hinc
  · rw [quanta_self]
    exact huses.counts_self hinc hk hfull hleft
  · rw [hother]
    exact huses.counts_other hab hright
  · rw [quanta_self, hother]
    exact ⟨Nat.succ_le_succ hquanta, Nat.le_succ_of_le h.close.2⟩

/-- A third process is selected. -/
theorem Fair.pass (h : Fair n a b r) (hsched : Scheduled r.app (some k) app)
    (hrun : runSelected app (some k) = .ok app') (ha : (app.pcb.slot k).pid ≠ a)
    (hb : (app.pcb.slot k).pid ≠ b) :
    Fair n a b { app := app', given := r.given ++ [(app.pcb.slot k).pid] } := by
  have hexec := runSelected_eq_ok hrun
  obtain ⟨m, huses⟩ := execProcess_uses hexec
  refine ⟨huses.increasing (hsched.descends.increasing h.increasing), ?_, ?_, ?_⟩
  · rw [quanta_other ha]
    exact huses.counts_other ha (hsched.descends.counts h.left)
  · rw [quanta_other hb]
    exact huses.counts_other hb (hsched.descends.counts h.right)
  · rw [quanta_other ha, quanta_other hb]
    exact h.close

theorem Comparable.symm {selected : Option (Fin MAX_PCB)} (h : app.Comparable a b selected) :
    app.Comparable b a selected :=
  ⟨fun j k hj hk hb ha => (h.1 k j hk hj ha hb).symm, fun k hk hpid => h.2 k hk hpid.symm⟩

theorem Fair.step {r' : CpuRun} (hab : a ≠ b) (h : Fair n a b r)
    (hg : Contest a b r () ∧ Even a b r ()) (hstep : r.step () = .ok r') : Fair n a b r' := by
  obtain ⟨selected, app, app', hschedule, hrun, hgiven⟩ := step_eq_ok hstep
  obtain ⟨hcontest, heven⟩ := hg
  rw [Contest, Selects, hschedule] at hcontest
  rw [Even, Selects, hschedule] at heven
  have hsched := schedule_scheduled h.increasing hschedule
  rcases hgiven with ⟨rfl, rfl⟩ | ⟨k, rfl, rfl⟩
  · cases hrun
    exact ⟨hsched.descends.increasing h.increasing, hsched.descends.counts h.left,
      hsched.descends.counts h.right, h.close⟩
  · by_cases ha : (app.pcb.slot k).pid = a
    · exact h.give hab hsched hcontest heven hrun ha
    · by_cases hb : (app.pcb.slot k).pid = b
      · exact (h.symm.give hab.symm hsched hcontest.symm (Comparable.symm heven) hrun hb).symm
      · exact h.pass hsched hrun ha hb

end Step

end CpuRun

/-- Of two processes that start with the same `h_used` and only execute, neither is
more than one quantum ahead, while they have as many disk accesses and the quanta
do not take `h_used` past 255. -/
theorem bounded_unfairness {app : App} {i j : Fin MAX_PCB} {a b : UInt32} (n : Nat) {t : CpuRun}
    (hinc : app.pcb.Increasing app.pcb.last.toNat)
    (hi : i.val < app.pcb.last.toNat) (hj : j.val < app.pcb.last.toNat)
    (ha : (app.pcb.slot i).pid = a) (hb : (app.pcb.slot j).pid = b) (hab : a ≠ b)
    (hused : (app.pcb.slot i).hUsed = (app.pcb.slot j).hUsed)
    (hcontest : Run.Meets CpuRun.step (CpuRun.Contest a b) (.start app) (List.replicate n ()))
    (heven : Run.Meets CpuRun.step (CpuRun.Even a b) (.start app) (List.replicate n ()))
    (hrun : Run.run CpuRun.step (.start app) (List.replicate n ()) = .ok t) :
    t.quanta a ≤ t.quanta b + 1 ∧ t.quanta b ≤ t.quanta a + 1 := by
  have hstart : CpuRun.Fair (app.pcb.slot i).hUsed.toNat a b (.start app) := by
    refine ⟨hinc, fun k hk hpid => ?_, fun k hk hpid => ?_, Nat.zero_le _, Nat.zero_le _⟩
    · obtain rfl := hinc.eq hk hi (hpid.trans ha.symm)
      rfl
    · obtain rfl := hinc.eq hk hj (hpid.trans hb.symm)
      exact congrArg UInt8.toNat hused.symm
  exact (Run.run_invariant (CpuRun.Fair _ a b) (CpuRun.Fair.step hab) hstart
    (hcontest.and heven) hrun).close

/-! ## Two programs of short instructions -/

/-- Two processes, with ten instructions of one millisecond each and the same
`h_used`. -/
def App.twoExec (hUsed : UInt8) : App :=
  let p (pid : UInt32) : Process :=
    { Process.zero with
      pid := pid, status := .ready, hUsed := hUsed, fb := 8
      c := { it := 8, pc := 0, size := 0, last := 10 } }
  let app := App.zero Heap.zero fun _ => none
  { app with
    heap :=
      { Heap.zero with
        instructions := fun _ =>
          { e := .processExec, remainingTime := 1, fpPos := 0, semName := 0 }
        syntBuffers := fun _ => { fp := none, h := 8, address := [] } }
    cpu.cpuS := 1
    pcb :=
      { (PCB.zero.modify 0 fun _ => p 0).modify 1 fun _ => p 1 with
        last := 2
        pcbS := 1 } }

instance App.decidableCompetes (app : App) (pid : UInt32) : Decidable (app.Competes pid) :=
  inferInstanceAs (Decidable (∃ _ : Fin MAX_PCB, _))

instance App.decidableComparable (app : App) (a b : UInt32) (selected : Option (Fin MAX_PCB)) :
    Decidable (app.Comparable a b selected) := inferInstanceAs (Decidable (_ ∧ _))

instance CpuRun.decidableSelects (P : App → Option (Fin MAX_PCB) → Prop)
    [∀ app selected, Decidable (P app selected)] (r : CpuRun) : Decidable (r.Selects P) := by
  unfold CpuRun.Selects
  split
  · infer_instance
  · infer_instance

instance CpuRun.decidableContest (a b : UInt32) (r : CpuRun) (e : Unit) :
    Decidable (r.Contest a b e) := inferInstanceAs (Decidable (r.Selects _))

instance CpuRun.decidableEven (a b : UInt32) (r : CpuRun) (e : Unit) :
    Decidable (r.Even a b e) := inferInstanceAs (Decidable (r.Selects _))

theorem bounded_unfairness_two :
    ∃ t, Run.run CpuRun.step (.start (.twoExec 0)) (List.replicate 2 ()) = .ok t ∧
      t.given = [0, 1] ∧ t.quanta 0 ≤ t.quanta 1 + 1 ∧ t.quanta 1 ≤ t.quanta 0 + 1 := by
  have hchecked : ((Run.runChecked CpuRun.step
      (fun r e => CpuRun.Contest 0 1 r e ∧ CpuRun.Even 0 1 r e) (.start (.twoExec 0))
      (List.replicate 2 ())).map CpuRun.given) = some [0, 1] := by
    decide +kernel
  obtain ⟨t, ht, hgiven⟩ := Option.map_eq_some_iff.mp hchecked
  obtain ⟨hmeets, hrun⟩ := Run.runChecked_eq_some ht
  have hcontest := hmeets.mono fun _ _ h => h.1
  have heven := hmeets.mono fun _ _ h => h.2
  exact ⟨t, hrun, hgiven, bounded_unfairness (i := 0) (j := 1) 2 (by decide) (by decide) (by decide)
    (by decide) (by decide) (by decide) (by decide) hcontest heven hrun⟩

/-- The quantum that takes `h_used` from 255 to 0 is followed by another. -/
theorem bounded_unfairness_fails :
    ¬ ∀ (app : App) (i j : Fin MAX_PCB) (a b : UInt32) (n : Nat) (t : CpuRun),
      app.pcb.Increasing app.pcb.last.toNat → i.val < app.pcb.last.toNat →
      j.val < app.pcb.last.toNat → (app.pcb.slot i).pid = a → (app.pcb.slot j).pid = b → a ≠ b →
      (app.pcb.slot i).hUsed = (app.pcb.slot j).hUsed → app.rwOf i = app.rwOf j →
      Run.Meets CpuRun.step (CpuRun.Contest a b) (.start app) (List.replicate n ()) →
      Run.run CpuRun.step (.start app) (List.replicate n ()) = .ok t →
      t.quanta a ≤ t.quanta b + 1 ∧ t.quanta b ≤ t.quanta a + 1 := by
  intro h
  have hchecked : ((Run.runChecked CpuRun.step (CpuRun.Contest 0 1) (.start (.twoExec 255))
      (List.replicate 2 ())).map CpuRun.given) = some [0, 0] := by
    decide +kernel
  obtain ⟨t, ht, hgiven⟩ := Option.map_eq_some_iff.mp hchecked
  obtain ⟨hcontest, hrun⟩ := Run.runChecked_eq_some ht
  have hclose := h (.twoExec 255) 0 1 0 1 2 t (by decide) (by decide) (by decide) (by decide)
    (by decide) (by decide) (by decide) (by decide) hcontest hrun
  rw [CpuRun.quanta, CpuRun.quanta, hgiven] at hclose
  exact absurd hclose (by decide)

end ChicOS
