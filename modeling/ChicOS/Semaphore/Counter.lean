-- SUMMARY: The counter law of a semaphore of value one, while its counter stays within a signed byte.
import ChicOS.Semaphore.Waiters

/-!
# The counter law

The counter of a semaphore created with value 1 is one more than the calls of V
less the calls of P, and its waiters are the units it lacks. Calls of P are bounded
by the processes that can be blocked; nothing bounds the calls of V, and the counter
is a signed byte: the V at 127 makes it -128.
-/

namespace ChicOS

/-! ## Calls -/

/-- The application, and the calls of P and of V so far. -/
structure CounterRun where
  app : App
  ps : Nat
  vs : Nat

inductive CounterCall where
  | p (pid : UInt32)
  | v

namespace CounterRun

def start (app : App) : CounterRun := { app := app, ps := 0, vs := 0 }

def step (i : Fin MAX_SIZE_SEMAPHORES) (s : CounterRun) : CounterCall → Except Stop CounterRun
  | .p pid => do
    let app ← semaphoreP s.app (some i) pid
    .ok { s with app := app, ps := s.ps + 1 }
  | .v => do
    let app ← semaphoreV s.app (some i)
    .ok { s with app := app, vs := s.vs + 1 }

/-- P is called by live processes that are not `WAITING`, V by anybody. -/
def Legal (n : Nat) (s : CounterRun) : CounterCall → Prop
  | .p pid => ∃ k : Fin MAX_PCB, k.val < n ∧ (s.app.pcb.slot k).pid = pid ∧
      (s.app.pcb.slot k).status ≠ .waiting
  | .v => True

/-- V is not called when the counter is at its largest. -/
def Fits (i : Fin MAX_SIZE_SEMAPHORES) (s : CounterRun) : CounterCall → Prop
  | .p _ => True
  | .v => (s.app.semaphores.entry i).value ≠ 127

end CounterRun

/-! ## The invariant -/

/-- A table whose first `n` slots are live, and a semaphore after some calls. -/
structure Lawful (n : Nat) (pcb : PCB) (sem : Semaphore) (ps vs : Nat) : Prop where
  table : pcb.LiveTable n
  inRing : sem.InRing
  nodup : sem.queue.Nodup
  waiting : ∀ pid ∈ sem.queue, ∃ k : Fin MAX_PCB, k.val < n ∧ (pcb.slot k).pid = pid ∧
    (pcb.slot k).status = .waiting
  value : sem.value.toInt = 1 + vs - ps
  length : (sem.queue.length : Int) = max 0 (-sem.value.toInt)

namespace Lawful

variable {n ps vs : Nat} {pcb : PCB} {sem sem' : Semaphore} {k : Fin MAX_PCB}

theorem length_lt (h : Lawful n pcb sem ps vs) : sem.queue.length < MAX_PCB := by
  have hlive : ∀ pid ∈ sem.queue, ∃ k : Fin MAX_PCB, k.val < n ∧ (pcb.slot k).pid = pid := by
    intro pid hpid
    obtain ⟨j, hj, hjpid, -⟩ := h.waiting pid hpid
    exact ⟨j, hj, hjpid⟩
  exact Nat.lt_of_le_of_lt (PCB.length_le_of_live h.nodup hlive) h.table.lt

theorem room (h : Lawful n pcb sem ps vs) : sem.queue.length + 1 < DEFAULT_WAITERS_NUM := by
  have hlt := h.length_lt
  unfold MAX_PCB at hlt
  unfold DEFAULT_WAITERS_NUM
  omega

/-- P lowers the counter: it is never at its smallest. -/
theorem value_sub_one (h : Lawful n pcb sem ps vs) : (sem.value - 1).toInt = sem.value.toInt - 1 := by
  have hlt := h.length_lt
  have hlength := h.length
  unfold MAX_PCB at hlt
  exact toInt_sub_one (by omega)

theorem value_sub_one_neg (h : Lawful n pcb sem ps vs) :
    sem.value - 1 < 0 ↔ sem.value.toInt ≤ 0 := by
  have hzero : (0 : Int8).toInt = 0 := by decide
  rw [Int8.lt_iff_toInt_lt, h.value_sub_one, hzero]
  omega

/-- P finds a unit. -/
theorem take (h : Lawful n pcb sem ps vs) (hring : sem'.InRing) (hvalue : sem'.value = sem.value - 1)
    (hqueue : sem'.queue = sem.queue) (hunit : ¬ sem.value - 1 < 0) :
    Lawful n pcb sem' (ps + 1) vs := by
  have hold := h.value
  have hlength := h.length
  rw [h.value_sub_one_neg] at hunit
  refine ⟨h.table, hring, by rw [hqueue]; exact h.nodup, by rw [hqueue]; exact h.waiting, ?_, ?_⟩
  · rw [hvalue, h.value_sub_one]
    push_cast
    omega
  · rw [hqueue, hvalue, h.value_sub_one]
    omega

/-- P finds none, and its caller waits. -/
theorem park (h : Lawful n pcb sem ps vs) (hring : sem'.InRing) (hvalue : sem'.value = sem.value - 1)
    (hk : k.val < n) (hstatus : (pcb.slot k).status ≠ .waiting)
    (hqueue : sem'.queue = sem.queue ++ [(pcb.slot k).pid]) (hnone : sem.value - 1 < 0)
    {f : Process → Process} (hpid : ∀ p, (f p).pid = p.pid) (hf : ∀ p, (f p).status = .waiting) :
    Lawful n (pcb.modify k f) sem' (ps + 1) vs := by
  have hold := h.value
  have hlength := h.length
  rw [h.value_sub_one_neg] at hnone
  have hnew : (pcb.slot k).pid ∉ sem.queue := by
    intro hmem
    obtain ⟨j, hj, hpid, hwaiting⟩ := h.waiting _ hmem
    obtain rfl := h.table.distinct hj hk hpid
    exact hstatus hwaiting
  refine ⟨h.table.modify k hpid, hring, ?_, ?_, ?_, ?_⟩
  · rw [hqueue]
    exact h.nodup.append (List.nodup_singleton _) (List.disjoint_singleton.mpr hnew)
  · intro pid hmem
    rw [hqueue, List.mem_append, List.mem_singleton] at hmem
    rcases hmem with hmem | rfl
    · obtain ⟨j, hj, hsame, hwaiting⟩ := h.waiting pid hmem
      refine ⟨j, hj, (pcb.slot_modify_pid k j hpid).trans hsame, ?_⟩
      rw [PCB.slot_modify]
      split
      · exact hf _
      · exact hwaiting
    · exact ⟨k, hk, pcb.slot_modify_pid k k hpid, by rw [PCB.slot_modify_self, hf]⟩
  · rw [hvalue, h.value_sub_one]
    push_cast
    omega
  · rw [hqueue, hvalue, h.value_sub_one, List.length_append, List.length_singleton]
    push_cast
    omega

/-- V raises the counter, unless it is at its largest. -/
theorem value_add_one (hfits : sem.value ≠ 127) : (sem.value + 1).toInt = sem.value.toInt + 1 := by
  have hne : sem.value.toInt ≠ 127 := fun hc => hfits (Int8.toInt_inj.mp hc)
  have hlt := sem.value.toInt_lt
  exact toInt_add_one (by omega)

/-- V gives a unit back. -/
theorem give (h : Lawful n pcb sem ps vs) (hring : sem'.InRing) (hvalue : sem'.value = sem.value + 1)
    (hfits : sem.value ≠ 127) (hnil : sem.queue = []) (hqueue : sem'.queue = []) :
    Lawful n pcb sem' ps (vs + 1) := by
  have hold := h.value
  have hlength := h.length
  rw [hnil, List.length_nil] at hlength
  refine ⟨h.table, hring, by rw [hqueue]; exact List.nodup_nil, by rw [hqueue]; exact nofun, ?_, ?_⟩
  · rw [hvalue, value_add_one hfits]
    push_cast
    omega
  · rw [hqueue, hvalue, value_add_one hfits, List.length_nil]
    omega

/-- V wakes the process that has waited longest. -/
theorem wake (h : Lawful n pcb sem ps vs) (hring : sem'.InRing) (hvalue : sem'.value = sem.value + 1)
    (hfits : sem.value ≠ 127) {pid : UInt32} (hqueue : sem.queue = pid :: sem'.queue)
    (hfind : pcb.find pid = some k) {f : Process → Process} (hpid : ∀ p, (f p).pid = p.pid) :
    Lawful n (pcb.modify k f) sem' ps (vs + 1) := by
  have hold := h.value
  have hlength := h.length
  have hnodup := h.nodup
  rw [hqueue, List.nodup_cons] at hnodup
  rw [hqueue, List.length_cons] at hlength
  push_cast at hlength
  refine ⟨h.table.modify k hpid, hring, hnodup.2, ?_, ?_, ?_⟩
  · intro other hmem
    obtain ⟨j, hj, hsame, hwaiting⟩ := h.waiting other (by rw [hqueue]; exact .tail _ hmem)
    refine ⟨j, hj, (pcb.slot_modify_pid k j hpid).trans hsame, ?_⟩
    -- the process woken is in the list no more
    have hkj : k ≠ j := by
      rintro rfl
      rw [PCB.find_eq_some hfind] at hsame
      exact hnodup.1 (hsame ▸ hmem)
    rw [PCB.slot_modify_ne _ _ hkj]
    exact hwaiting
  · rw [hvalue, value_add_one hfits]
    push_cast
    omega
  · rw [hvalue, value_add_one hfits]
    omega

end Lawful

/-! ## Runs -/

namespace CounterRun

variable {i : Fin MAX_SIZE_SEMAPHORES} {n : Nat} {s s' : CounterRun}

def Inv (i : Fin MAX_SIZE_SEMAPHORES) (n : Nat) (s : CounterRun) : Prop :=
  Lawful n s.app.pcb (s.app.semaphores.entry i) s.ps s.vs

/-- A P that returns: it blocks its caller exactly when there is no unit. -/
theorem step_p (h : s.Inv i n) {k : Fin MAX_PCB} (hk : k.val < n)
    (hstatus : (s.app.pcb.slot k).status ≠ .waiting)
    (hok : s.step i (.p (s.app.pcb.slot k).pid) = .ok s') :
    s'.Inv i n ∧ ((s'.app.pcb.slot k).status = .waiting ↔
      (s.app.semaphores.entry i).value.toInt ≤ 0) := by
  obtain ⟨app, hP, hs⟩ := Except.bind_eq_ok.mp hok
  cases hs
  obtain ⟨sem, hring, hvalue, ⟨hunit, hqueue, rfl⟩ | ⟨hnone, hqueue, j, hfind, rfl⟩⟩ :=
    semaphoreP_cases h.inRing h.room hP
  · refine ⟨?_, iff_of_false hstatus ?_⟩
    · unfold Inv
      rw [setSem_get]
      exact h.take hring hvalue hqueue hunit
    · rw [← h.value_sub_one_neg]
      exact hunit
  · obtain rfl := h.table.find_eq hfind hk rfl
    refine ⟨?_, iff_of_true ?_ (h.value_sub_one_neg.mp hnone)⟩
    · unfold Inv
      dsimp only
      rw [setSem_get]
      exact h.park hring hvalue hk hstatus hqueue hnone (fun _ => rfl) fun _ => rfl
    · dsimp only
      rw [PCB.slot_modify_self]

theorem step_v (h : s.Inv i n) (hfits : (s.app.semaphores.entry i).value ≠ 127)
    (hok : s.step i .v = .ok s') : s'.Inv i n := by
  obtain ⟨app, hV, hs⟩ := Except.bind_eq_ok.mp hok
  cases hs
  unfold Inv
  obtain ⟨sem, hring, hvalue, ⟨hnil, hqueue, rfl⟩ | ⟨pid, j, hqueue, hfind, rfl⟩⟩ :=
    semaphoreV_cases h.inRing hV
  · rw [setSem_get]
    exact h.give hring hvalue hfits hnil hqueue
  · dsimp only
    rw [setSem_get]
    exact h.wake hring hvalue hfits hqueue hfind fun _ => rfl

theorem step_inv {c : CounterCall} (h : s.Inv i n) (hg : s.Legal n c ∧ s.Fits i c)
    (hok : s.step i c = .ok s') : s'.Inv i n := by
  cases c with
  | p pid =>
      obtain ⟨k, hk, rfl, hstatus⟩ := hg.1
      exact (step_p h hk hstatus hok).1
  | v => exact step_v h hg.2 hok

theorem start_inv {app : App} (htable : app.pcb.LiveTable n)
    (hvalue : (app.semaphores.entry i).value = 1) (hhead : (app.semaphores.entry i).head = 0)
    (htail : (app.semaphores.entry i).tail = 0) : (start app).Inv i n := by
  obtain ⟨hring, hqueue⟩ := Semaphore.empty_queue hhead htail
  refine ⟨htable, hring, ?_, ?_, ?_, ?_⟩
  · rw [start, hqueue]
    exact List.nodup_nil
  · rw [start, hqueue]
    exact nofun
  · rw [start, hvalue]
    rfl
  · rw [start, hqueue, hvalue]
    rfl

end CounterRun

/-- On a semaphore that `init_semaphore` created with value 1, while no V is called
at 127: the counter is one more than the calls of V less the calls of P, its
negative part is the number of waiters, and P blocks exactly when there is no unit. -/
theorem counter_law (st : Store) (name : UInt8) (app : App) (i : Fin MAX_SIZE_SEMAPHORES)
    (n : Nat) (cs : List CounterCall) {t : CounterRun}
    (hinit : initSemaphore st name 1 = .ok (0, app.toStore)) (hi : i.val = st.semaphores.last)
    (htable : app.pcb.LiveTable n)
    (hlegal : Run.Meets (CounterRun.step i) (CounterRun.Legal n) (.start app) cs)
    (hfits : Run.Meets (CounterRun.step i) (CounterRun.Fits i) (.start app) cs)
    (hrun : Run.run (CounterRun.step i) (.start app) cs = .ok t) :
    (t.app.semaphores.entry i).value.toInt = 1 + t.vs - t.ps ∧
      ((getWaitersSize (t.app.semaphores.entry i)).toNat : Int)
        = max 0 (-(t.app.semaphores.entry i).value.toInt) ∧
      ∀ (k : Fin MAX_PCB) (t' : CounterRun), k.val < n → (t.app.pcb.slot k).status ≠ .waiting →
        t.step i (.p (t.app.pcb.slot k).pid) = .ok t' →
        ((t'.app.pcb.slot k).status = .waiting ↔ (t.app.semaphores.entry i).value.toInt ≤ 0) := by
  obtain ⟨hvalue, hhead, htail⟩ := initSemaphore_entry hinit hi
  have hinv : t.Inv i n :=
    Run.run_invariant (CounterRun.Inv i n) CounterRun.step_inv
      (CounterRun.start_inv htable hvalue hhead htail) (hlegal.and hfits) hrun
  refine ⟨hinv.value, ?_, ?_⟩
  · rw [getWaitersSize_toNat hinv.inRing]
    exact hinv.length
  · intro k t' hk hstatus hok
    exact (CounterRun.step_p hinv hk hstatus hok).2

/-! ## Two processes -/

instance CounterRun.decidableLegal (n : Nat) (s : CounterRun) :
    (c : CounterCall) → Decidable (s.Legal n c)
  | .p _ => inferInstanceAs (Decidable (∃ _ : Fin MAX_PCB, _))
  | .v => .isTrue trivial

instance CounterRun.decidableFits (i : Fin MAX_SIZE_SEMAPHORES) (s : CounterRun) :
    (c : CounterCall) → Decidable (s.Fits i c)
  | .p _ => .isTrue trivial
  | .v => inferInstanceAs (Decidable (_ ≠ _))

theorem counter_law_two :
    ∃ t, Run.run (CounterRun.step 0) (.start (.oneSemaphore 1)) [.p 0, .p 1, .v] = .ok t ∧
      (t.app.semaphores.entry 0).value.toInt = 1 + t.vs - t.ps := by
  have hlegal : Run.Meets (CounterRun.step 0) (CounterRun.Legal 2) (.start (.oneSemaphore 1))
      [.p 0, .p 1, .v] := (Run.runChecked_eq_some rfl).1
  have hfits : Run.Meets (CounterRun.step 0) (CounterRun.Fits 0) (.start (.oneSemaphore 1))
      [.p 0, .p 1, .v] := (Run.runChecked_eq_some rfl).1
  exact ⟨_, rfl, (counter_law Store.unlocked 97 (.oneSemaphore 1) 0 2 [.p 0, .p 1, .v] rfl rfl
    PCB.two_liveTable hlegal hfits rfl).1⟩

/-- After 127 calls of V and none of P the counter is -128, and nobody waits. -/
theorem counter_law_fails :
    ¬ ∀ (st : Store) (name : UInt8) (app : App) (i : Fin MAX_SIZE_SEMAPHORES) (n : Nat)
      (cs : List CounterCall) (t : CounterRun),
      initSemaphore st name 1 = .ok (0, app.toStore) → i.val = st.semaphores.last →
      app.pcb.LiveTable n →
      Run.Meets (CounterRun.step i) (CounterRun.Legal n) (.start app) cs →
      Run.run (CounterRun.step i) (.start app) cs = .ok t →
      (t.app.semaphores.entry i).value.toInt = 1 + t.vs - t.ps ∧
        ((getWaitersSize (t.app.semaphores.entry i)).toNat : Int)
          = max 0 (-(t.app.semaphores.entry i).value.toInt) := by
  intro h
  have hchecked : ((Run.runChecked (CounterRun.step 0) (CounterRun.Legal 2)
      (.start (.oneSemaphore 1)) (List.replicate 127 .v)).map fun t =>
        ((t.app.semaphores.entry 0).value.toInt, t.vs, t.ps)) = some (-128, 127, 0) := by
    decide +kernel
  obtain ⟨t, ht, hcounts⟩ := Option.map_eq_some_iff.mp hchecked
  obtain ⟨hlegal, hrun⟩ := Run.runChecked_eq_some ht
  simp only [Prod.mk.injEq] at hcounts
  obtain ⟨hvalue, hvs, hps⟩ := hcounts
  have hlaw := (h Store.unlocked 97 (.oneSemaphore 1) 0 2 _ t rfl rfl PCB.two_liveTable hlegal hrun).1
  rw [hvalue, hvs, hps] at hlaw
  exact absurd hlaw (by decide)

end ChicOS
