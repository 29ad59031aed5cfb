-- SUMMARY: The ring of waiters as a first-in first-out list, and what P and V do to it.
import ChicOS.Semaphore.Semaphore
import Mathlib.Algebra.Order.Group.Int
import Mathlib.Data.List.Perm.Subperm

/-!
# Waiters

The ring of a semaphore holds a list of pids, oldest first: `waiter_push` appends
and `waiter_pop` takes the first, wherever head and tail are. `semaphoreP_cases`
and `semaphoreV_cases` say what the two calls do to that list, to the counter and
to the table.
-/

namespace ChicOS

/-! ## The ring as a list -/

/-- The waiting pids, oldest first. -/
def Semaphore.queue (sem : Semaphore) : List UInt32 :=
  Ring.contents (sem.waiters.getD fun _ => 0) DEFAULT_WAITERS_NUM sem.head.toNat sem.tail.toNat

/-- Both indices are inside the ring. -/
structure Semaphore.InRing (sem : Semaphore) : Prop where
  head : sem.head.toNat < DEFAULT_WAITERS_NUM
  tail : sem.tail.toNat < DEFAULT_WAITERS_NUM

theorem getWaitersSize_toNat {sem : Semaphore} (h : sem.InRing) :
    (getWaitersSize sem).toNat = sem.queue.length := by
  obtain ⟨hh, ht⟩ := h
  have hlt := Ring.size_lt hh sem.tail.toNat
  have hint : Int.tmod (sem.tail.toNat + DEFAULT_WAITERS_NUM - sem.head.toNat : Int)
      DEFAULT_WAITERS_NUM = (Ring.size DEFAULT_WAITERS_NUM sem.head.toNat sem.tail.toNat : Nat) := by
    unfold Ring.size
    unfold DEFAULT_WAITERS_NUM at hh ⊢
    rw [Int.tmod_eq_emod_of_nonneg (by omega)]
    omega
  rw [getWaitersSize, hint, Semaphore.queue, Ring.length_contents, UInt32.ofInt]
  unfold DEFAULT_WAITERS_NUM at hlt ⊢
  simp only [UInt32.toNat_ofNat']
  omega

theorem Semaphore.queue_eq_nil {sem : Semaphore} (h : sem.InRing) :
    sem.queue = [] ↔ sem.head = sem.tail := by
  rw [queue, Ring.contents_eq_nil h.head h.tail, UInt8.toNat_inj]

/-- A ring as `init_semaphore` leaves it. -/
theorem Semaphore.empty_queue {sem : Semaphore} (hhead : sem.head = 0) (htail : sem.tail = 0) :
    sem.InRing ∧ sem.queue = [] := by
  have hring : sem.InRing := by
    refine ⟨?_, ?_⟩
    · rw [hhead]; decide
    · rw [htail]; decide
  exact ⟨hring, (Semaphore.queue_eq_nil hring).mpr (hhead.trans htail.symm)⟩

/-- The increment of a ring index fits its byte. -/
theorem toNat_ofNat_ringIndex (k : Nat) :
    (UInt8.ofNat (k % DEFAULT_WAITERS_NUM)).toNat = k % DEFAULT_WAITERS_NUM := by
  unfold DEFAULT_WAITERS_NUM
  simp only [UInt8.toNat_ofNat']
  omega

/-- A push into a ring with room appends the pid. -/
theorem waiterPush_queue (sem : Semaphore) {sem' : Semaphore} {pid : UInt32} (h : sem.InRing)
    (hroom : sem.queue.length + 1 < DEFAULT_WAITERS_NUM) (hok : waiterPush sem pid = .ok sem') :
    sem'.InRing ∧ sem'.queue = sem.queue ++ [pid] ∧ sem'.value = sem.value := by
  have hne : (sem.tail.toNat + 1) % DEFAULT_WAITERS_NUM ≠ sem.head.toNat := by
    intro hfull
    have hsize := (Ring.full_iff h.head h.tail).mp hfull
    rw [Semaphore.queue, Ring.length_contents] at hroom
    omega
  unfold waiterPush at hok
  rw [if_neg hne] at hok
  split at hok
  · cases hok
  · rename_i w hw
    cases hok
    refine ⟨⟨h.head, ?_⟩, ?_, rfl⟩
    · dsimp only
      rw [toNat_ofNat_ringIndex]
      exact Ring.succ_mod_lt h.tail
    · simp only [Semaphore.queue, hw, Option.getD_some, toNat_ofNat_ringIndex]
      exact Ring.contents_push w pid h.head h.tail hne

/-- A pop takes the oldest pid. -/
theorem waiterPop_queue (sem : Semaphore) {sem' : Semaphore} {pid : UInt32} (h : sem.InRing)
    (hne : sem.queue ≠ []) (hok : waiterPop sem = .ok (pid, sem')) :
    sem'.InRing ∧ sem.queue = pid :: sem'.queue ∧ sem'.value = sem.value := by
  have hne' : sem.head ≠ sem.tail := fun heq => hne ((Semaphore.queue_eq_nil h).mpr heq)
  unfold waiterPop at hok
  rw [if_neg hne'] at hok
  split at hok
  · cases hok
  · rename_i w hw
    cases hok
    refine ⟨⟨?_, h.tail⟩, ?_, rfl⟩
    · dsimp only
      rw [toNat_ofNat_ringIndex]
      exact Ring.succ_mod_lt h.head
    · simp only [Semaphore.queue, hw, Option.getD_some, toNat_ofNat_ringIndex]
      exact Ring.contents_pop w h.head h.tail fun heq => hne' (UInt8.toNat_inj.mp heq)

theorem toInt_sub_one {v : Int8} (h : -128 < v.toInt) : (v - 1).toInt = v.toInt - 1 := by
  have hlt := v.toInt_lt
  have hone : (1 : Int8).toInt = 1 := by decide
  rw [Int8.toInt_sub, hone, Int.bmod_eq_of_le (by omega) (by omega)]

theorem toInt_add_one {v : Int8} (h : v.toInt < 127) : (v + 1).toInt = v.toInt + 1 := by
  have hle := v.le_toInt
  have hone : (1 : Int8).toInt = 1 := by decide
  rw [Int8.toInt_add, hone, Int.bmod_eq_of_le (by omega) (by omega)]

/-- Distinct live pids are no more than live processes. -/
theorem PCB.length_le_of_live {pcb : PCB} {n : Nat} {pids : List UInt32} (hnodup : pids.Nodup)
    (hlive : ∀ pid ∈ pids, ∃ k : Fin MAX_PCB, k.val < n ∧ (pcb.slot k).pid = pid) :
    pids.length ≤ n := by
  have hsub : pids ⊆ pcb.pids n := fun pid hpid => PCB.mem_pids.mpr (hlive pid hpid)
  calc pids.length ≤ (pcb.pids n).length := (List.subperm_of_subset hnodup hsub).length_le
    _ ≤ n := pcb.length_pids_le n

/-! ## P and V on the list -/

/-- P takes a unit, or puts its caller at the end of the list and sets it waiting. -/
theorem semaphoreP_cases {app app' : App} {i : Fin MAX_SIZE_SEMAPHORES} {pid : UInt32}
    (hring : (app.semaphores.entry i).InRing)
    (hroom : (app.semaphores.entry i).queue.length + 1 < DEFAULT_WAITERS_NUM)
    (h : semaphoreP app (some i) pid = .ok app') :
    ∃ sem, sem.InRing ∧ sem.value = (app.semaphores.entry i).value - 1 ∧
      ((¬ (app.semaphores.entry i).value - 1 < 0 ∧ sem.queue = (app.semaphores.entry i).queue ∧
        app' = app.setSem i sem) ∨
      ((app.semaphores.entry i).value - 1 < 0 ∧
        sem.queue = (app.semaphores.entry i).queue ++ [pid] ∧
        ∃ k, pFind app pid = some k ∧ app' = { app.setSem i sem with
          pcb := app.pcb.modify k fun p => { p with status := .waiting, timeToRun := 0 } })) := by
  have hring' : Semaphore.InRing { (app.semaphores.entry i) with
      value := (app.semaphores.entry i).value - 1 } := ⟨hring.head, hring.tail⟩
  rcases semaphoreP_eq_ok h with ⟨hunit, rfl⟩ | ⟨hneg, sem, k, hpush, hfind, rfl⟩
  · exact ⟨_, hring', rfl, .inl ⟨hunit, rfl, rfl⟩⟩
  · obtain ⟨hin, hqueue, hvalue⟩ := waiterPush_queue _ hring' hroom hpush
    exact ⟨sem, hin, hvalue, .inr ⟨hneg, hqueue, k, hfind, rfl⟩⟩

/-- V gives a unit back, or takes the first of the list and makes it ready. -/
theorem semaphoreV_cases {app app' : App} {i : Fin MAX_SIZE_SEMAPHORES}
    (hring : (app.semaphores.entry i).InRing) (h : semaphoreV app (some i) = .ok app') :
    ∃ sem, sem.InRing ∧ sem.value = (app.semaphores.entry i).value + 1 ∧
      (((app.semaphores.entry i).queue = [] ∧ sem.queue = [] ∧ app' = app.setSem i sem) ∨
      ∃ pid k, (app.semaphores.entry i).queue = pid :: sem.queue ∧ pFind app pid = some k ∧
        app' = { app.setSem i sem with
          pcb := app.pcb.modify k fun p => { p with status := .ready } }) := by
  have hring' : Semaphore.InRing { (app.semaphores.entry i) with
      value := (app.semaphores.entry i).value + 1 } := ⟨hring.head, hring.tail⟩
  have hsize := getWaitersSize_toNat hring
  rcases semaphoreV_eq_ok h with ⟨hzero, rfl⟩ | ⟨hsome, pid, sem, k, hpop, hfind, rfl⟩
  · have hnil : (app.semaphores.entry i).queue = [] := by
      rw [← List.length_eq_zero_iff, ← hsize]
      rw [UInt32.lt_iff_toNat_lt] at hzero
      simpa using hzero
    exact ⟨_, hring', rfl, .inl ⟨hnil, hnil, rfl⟩⟩
  · have hne : (app.semaphores.entry i).queue ≠ [] := by
      rw [UInt32.lt_iff_toNat_lt, hsize] at hsome
      exact List.length_pos_iff.mp (by simpa using hsome)
    obtain ⟨hin, hqueue, hvalue⟩ := waiterPop_queue _ hring' hne hpop
    exact ⟨sem, hin, hvalue, .inr ⟨pid, k, hqueue, hfind, rfl⟩⟩

/-! ## The semaphore that `init_semaphore` adds -/

/-- What `init_semaphore` stores in the entry it adds. -/
theorem initSemaphore_entry {st st' : Store} {name : UInt8} {value : UInt32}
    {i : Fin MAX_SIZE_SEMAPHORES} (h : initSemaphore st name value = .ok (0, st'))
    (hi : i.val = st.semaphores.last) :
    (st'.semaphores.entry i).value = value.toUInt8.toInt8 ∧ (st'.semaphores.entry i).head = 0 ∧
      (st'.semaphores.entry i).tail = 0 := by
  unfold initSemaphore at h
  split at h
  · cases h
  split at h
  · obtain ⟨⟨p, mem⟩, -, h⟩ := Except.bind_eq_ok.mp h
    dsimp only at h
    split at h
    · cases h
    obtain ⟨⟨w, mem'⟩, -, h⟩ := Except.bind_eq_ok.mp h
    cases h
    simp [SemaphoreList.entry, hi]
  · cases h

/-- A store whose semaphore list is empty and unlocked. -/
def Store.unlocked : Store :=
  { mem := initMem (fun _ => 0) 8192
    heap := Heap.zero
    semaphores := { (App.zero Heap.zero fun _ => none).semaphores with mutex := 1 } }

/-- Two processes, and a semaphore named `a` that has just been created. -/
def App.oneSemaphore (value : UInt32) : App :=
  match initSemaphore Store.unlocked 97 value with
  | .ok (_, st) => { App.zero Heap.zero fun _ => none with toStore := st, pcb := PCB.two }
  | .error _ => App.zero Heap.zero fun _ => none

end ChicOS
