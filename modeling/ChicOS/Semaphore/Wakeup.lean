-- SUMMARY: No wake-up is lost: a process waits exactly while its pid is in one ring, and rings are first-in first-out.
import ChicOS.Lib.Fifos
import ChicOS.Semaphore.Views

/-!
# Waiting and waking

Live processes make whole calls of `semaphoreP` and `semaphoreV` on any of the
listed semaphores, with counters of any value. The rings, each seen as a list, are
a family of first-in first-out queues: a P that finds no unit makes its caller
wait at the end of one, a V makes the first of one ready. Which P finds a unit is
for the counter to say; that no process waits outside a ring, or stands in two,
does not depend on it.

`arrived` and `woken` record, for each semaphore, the processes that the calls set
waiting and those that they made ready, as the table shows it.

A `WakeRun` is about a list that is kept by value, a `PoolRun` about the one in the pool.
As long as its block and those of the rings lie apart, the second is the first
(`PoolRun.step_values`). `c_alloc` does not keep them apart: a block that page replacement
hands out again may be a ring's.
-/

namespace ChicOS

open Fifos
open Memory (semEntry)

/-! ## Calls -/

inductive SemaphoreCall where
  | p (i : Fin MAX_SIZE_SEMAPHORES) (pid : UInt32)
  | v (i : Fin MAX_SIZE_SEMAPHORES)

/-- The processes whose status is now another, in the order of their slots. -/
def becoming (s : PStatus) (pcb pcb' : PCB) : List UInt32 :=
  ((List.finRange MAX_PCB).filter fun k =>
    (pcb.slot k).status ≠ s ∧ (pcb'.slot k).status = s).map fun k => (pcb.slot k).pid

structure WakeRun where
  app : App
  arrived : Fin MAX_SIZE_SEMAPHORES → List UInt32
  woken : Fin MAX_SIZE_SEMAPHORES → List UInt32

namespace WakeRun

def start (app : App) : WakeRun := { app := app, arrived := fun _ => [], woken := fun _ => [] }

def step (r : WakeRun) : SemaphoreCall → Except Stop WakeRun
  | .p i pid => do
    let app ← semaphoreP r.app (some i) pid
    .ok { r with
      app := app
      arrived := Function.update r.arrived i (r.arrived i ++ becoming .waiting r.app.pcb app.pcb) }
  | .v i => do
    let app ← semaphoreV r.app (some i)
    .ok { r with
      app := app
      woken := Function.update r.woken i (r.woken i ++ becoming .ready r.app.pcb app.pcb) }

end WakeRun

/-- An entry of the list that has been registered. -/
def SemaphoreList.Listed (sl : SemaphoreList) (i : Fin MAX_SIZE_SEMAPHORES) : Prop :=
  i.val < sl.last

instance (sl : SemaphoreList) (i : Fin MAX_SIZE_SEMAPHORES) : Decidable (sl.Listed i) :=
  inferInstanceAs (Decidable (_ < _))

/-- The processes in the ring of a listed semaphore, the longest there first. -/
def SemaphoreList.waiters (sl : SemaphoreList) (i : Fin MAX_SIZE_SEMAPHORES) : List UInt32 :=
  if sl.Listed i then (sl.entry i).queue else []

/-- A listed semaphore is called; P by a live process that is not `WAITING`. -/
def WakeRun.Legal (n : Nat) (r : WakeRun) : SemaphoreCall → Prop
  | .p i pid => r.app.semaphores.Listed i ∧ ∃ k : Fin MAX_PCB, k.val < n ∧
      (r.app.pcb.slot k).pid = pid ∧ (r.app.pcb.slot k).status ≠ .waiting
  | .v i => r.app.semaphores.Listed i

/-! ## What the calls change -/

theorem becoming_self (s : PStatus) (pcb : PCB) : becoming s pcb pcb = [] := by
  rw [becoming, List.map_eq_nil_iff, List.filter_eq_nil_iff]
  intro k _
  simp

/-- One process has got the status. -/
theorem becoming_modify {s : PStatus} {pcb : PCB} {k : Fin MAX_PCB} {f : Process → Process}
    (hbefore : (pcb.slot k).status ≠ s) (hf : ∀ p, (f p).status = s) :
    becoming s pcb (pcb.modify k f) = [(pcb.slot k).pid] := by
  have hfilter : (List.finRange MAX_PCB).filter (fun j =>
      (pcb.slot j).status ≠ s ∧ ((pcb.modify k f).slot j).status = s)
        = (List.finRange MAX_PCB).filter (· == k) := by
    refine List.filter_congr fun j _ => ?_
    rw [PCB.slot_modify]
    by_cases hkj : k = j
    · subst hkj
      simp [hbefore, hf]
    · simp [hkj, Ne.symm hkj]
  have hcount : (List.finRange MAX_PCB).count k = 1 :=
    List.count_eq_one_of_mem (List.nodup_finRange _) (List.mem_finRange k)
  rw [becoming, hfilter, List.filter_beq, hcount]
  rfl

namespace SemaphoreList

variable {sl : SemaphoreList} {i j : Fin MAX_SIZE_SEMAPHORES} {sem : Semaphore}

theorem waiters_of_listed (h : sl.Listed i) : sl.waiters i = (sl.entry i).queue := if_pos h

theorem waiters_setEntry (h : sl.Listed i) :
    (sl.setEntry i sem).waiters = Function.update sl.waiters i sem.queue := by
  funext j
  by_cases hji : j = i
  · subst hji
    have hlisted : (sl.setEntry j sem).Listed j := h
    rw [Function.update_self, waiters_of_listed hlisted, entry_setEntry_self]
  · rw [Function.update_of_ne hji, waiters, waiters, entry_setEntry_ne _ _ (Ne.symm hji)]
    rfl

/-- A call that leaves the ring as it is. -/
theorem waiters_setEntry_same (h : sl.Listed i) (hqueue : sem.queue = (sl.entry i).queue) :
    (sl.setEntry i sem).waiters = sl.waiters := by
  rw [waiters_setEntry h, hqueue, ← waiters_of_listed h, Function.update_eq_self]

end SemaphoreList

/-! ## The invariant -/

/-- The live processes that wait are those in a queue, each in one place. -/
structure Waits {ι : Type} (n : Nat) (pcb : PCB) (q : ι → List UInt32) : Prop where
  table : pcb.LiveTable n
  once : Once q
  waiting : ∀ {i pid}, pid ∈ q i → ∃ k : Fin MAX_PCB, k.val < n ∧ (pcb.slot k).pid = pid ∧
    (pcb.slot k).status = .waiting
  queued : ∀ k : Fin MAX_PCB, k.val < n → (pcb.slot k).status = .waiting →
    ∃ i, (pcb.slot k).pid ∈ q i

namespace Waits

variable {ι : Type} {n : Nat} {pcb : PCB} {q : ι → List UInt32} {i : ι} {k : Fin MAX_PCB}
  {f : Process → Process}

/-- No queue is longer than the table. -/
theorem length_lt (h : Waits n pcb q) (i : ι) : (q i).length < MAX_PCB := by
  have hlive : ∀ pid ∈ q i, ∃ k : Fin MAX_PCB, k.val < n ∧ (pcb.slot k).pid = pid := by
    intro pid hpid
    obtain ⟨j, hj, hsame, -⟩ := h.waiting hpid
    exact ⟨j, hj, hsame⟩
  exact Nat.lt_of_le_of_lt (PCB.length_le_of_live (h.once.nodup i) hlive) h.table.lt

/-- A process that does not wait is in no queue. -/
theorem not_mem (h : Waits n pcb q) (hk : k.val < n) (hstatus : (pcb.slot k).status ≠ .waiting)
    (i : ι) : (pcb.slot k).pid ∉ q i := by
  intro hmem
  obtain ⟨j, hj, hpid, hwaiting⟩ := h.waiting hmem
  obtain rfl := h.table.distinct hj hk hpid
  exact hstatus hwaiting

/-- The slot of the first of a queue. -/
theorem first (h : Waits n pcb q) {pid : UInt32} {rest : List UInt32} (hq : q i = pid :: rest)
    (hfind : pcb.find pid = some k) :
    k.val < n ∧ (pcb.slot k).pid = pid ∧ (pcb.slot k).status = .waiting := by
  obtain ⟨j, hj, hpid, hwaiting⟩ := h.waiting (i := i) (by rw [hq]; exact List.mem_cons_self)
  obtain rfl := h.table.find_eq hfind hj hpid
  exact ⟨hj, hpid, hwaiting⟩

variable [DecidableEq ι]

/-- A process stops at the end of a queue. -/
theorem park (h : Waits n pcb q) (hk : k.val < n) (hstatus : (pcb.slot k).status ≠ .waiting)
    (hpid : ∀ p, (f p).pid = p.pid) (hf : ∀ p, (f p).status = .waiting) :
    Waits n (pcb.modify k f) (push q i (pcb.slot k).pid) := by
  have hpids := fun j => pcb.slot_modify_pid k j hpid
  refine ⟨h.table.modify k hpid, h.once.push (h.not_mem hk hstatus), ?_, ?_⟩
  · intro j pid hmem
    rw [mem_push] at hmem
    rcases hmem with hmem | ⟨-, rfl⟩
    · obtain ⟨l, hl, hsame, hwaiting⟩ := h.waiting hmem
      refine ⟨l, hl, (hpids l).trans hsame, ?_⟩
      rw [PCB.slot_modify]
      split
      · exact hf _
      · exact hwaiting
    · exact ⟨k, hk, hpids k, by rw [PCB.slot_modify_self, hf]⟩
  · intro j hj hwaiting
    rw [hpids]
    by_cases hkj : k = j
    · subst hkj
      exact ⟨i, mem_push.mpr (.inr ⟨rfl, rfl⟩)⟩
    · rw [PCB.slot_modify_ne _ _ hkj] at hwaiting
      obtain ⟨l, hl⟩ := h.queued j hj hwaiting
      exact ⟨l, mem_push.mpr (.inl hl)⟩

/-- The first of a queue goes on. -/
theorem wake (h : Waits n pcb q) {pid : UInt32} {rest : List UInt32} (hq : q i = pid :: rest)
    (hfind : pcb.find pid = some k) (hpid : ∀ p, (f p).pid = p.pid)
    (hf : ∀ p, (f p).status = .ready) : Waits n (pcb.modify k f) (pop q i) := by
  have hpids := fun j => pcb.slot_modify_pid k j hpid
  obtain ⟨hk, rfl, -⟩ := h.first hq hfind
  refine ⟨h.table.modify k hpid, h.once.pop hq, ?_, ?_⟩
  · intro j pid hmem
    obtain ⟨hmem, hne⟩ := (h.once.mem_pop hq).mp hmem
    obtain ⟨l, hl, rfl, hwaiting⟩ := h.waiting hmem
    have hkl : k ≠ l := fun hc => hne (by rw [hc])
    exact ⟨l, hl, hpids l, by rw [PCB.slot_modify_ne _ _ hkl, hwaiting]⟩
  · intro j hj hwaiting
    have hkj : k ≠ j := by
      rintro rfl
      rw [PCB.slot_modify_self, hf] at hwaiting
      cases hwaiting
    rw [PCB.slot_modify_ne _ _ hkj] at hwaiting
    obtain ⟨l, hl⟩ := h.queued j hj hwaiting
    refine ⟨l, (h.once.mem_pop hq).mpr ⟨by rw [hpids]; exact hl, ?_⟩⟩
    rw [hpids]
    exact fun hc => hkj (h.table.distinct hk hj hc.symm)

end Waits

/-! ## Runs -/

namespace WakeRun

variable {i : Fin MAX_SIZE_SEMAPHORES} {n : Nat} {r r' : WakeRun}

/-- What every run keeps. -/
structure Inv (n : Nat) (r : WakeRun) : Prop where
  waits : Waits n r.app.pcb r.app.semaphores.waiters
  inRing : ∀ i, r.app.semaphores.Listed i → (r.app.semaphores.entry i).InRing
  order : InOrder r.arrived r.woken r.app.semaphores.waiters

theorem Inv.length_lt (h : r.Inv n) (hi : r.app.semaphores.Listed i) :
    (r.app.semaphores.entry i).queue.length < MAX_PCB := by
  rw [← SemaphoreList.waiters_of_listed hi]
  exact h.waits.length_lt i

theorem Inv.room (h : r.Inv n) (hi : r.app.semaphores.Listed i) :
    (r.app.semaphores.entry i).queue.length + 1 < DEFAULT_WAITERS_NUM := by
  have hlt := h.length_lt hi
  unfold MAX_PCB at hlt
  unfold DEFAULT_WAITERS_NUM
  omega

theorem Inv.setEntry_inRing (h : r.Inv n) {sem : Semaphore} (hsem : sem.InRing) :
    ∀ j, (r.app.semaphores.setEntry i sem).Listed j →
      ((r.app.semaphores.setEntry i sem).entry j).InRing := by
  intro j hj
  by_cases hij : i = j
  · subst hij
    rw [entry_setEntry_self]
    exact hsem
  · rw [entry_setEntry_ne _ _ hij]
    exact h.inRing j hj

theorem Inv.p {k : Fin MAX_PCB} (h : r.Inv n) (hi : r.app.semaphores.Listed i) (hk : k.val < n)
    (hstatus : (r.app.pcb.slot k).status ≠ .waiting)
    (hok : r.step (.p i (r.app.pcb.slot k).pid) = .ok r') : r'.Inv n := by
  obtain ⟨app, hP, hr⟩ := Except.bind_eq_ok.mp hok
  cases hr
  obtain ⟨sem, hring, -, ⟨-, hqueue, rfl⟩ | ⟨-, hqueue, j, hfind, rfl⟩⟩ :=
    semaphoreP_cases (h.inRing i hi) (h.room hi) hP
  · have hsame := SemaphoreList.waiters_setEntry_same hi hqueue
    refine ⟨?_, h.setEntry_inRing hring, ?_⟩
    · show Waits n r.app.pcb (r.app.semaphores.setEntry i sem).waiters
      rw [hsame]
      exact h.waits
    · show InOrder (Function.update r.arrived i (r.arrived i ++ becoming .waiting r.app.pcb r.app.pcb))
        r.woken (r.app.semaphores.setEntry i sem).waiters
      rw [hsame, becoming_self, List.append_nil, Function.update_eq_self]
      exact h.order
  · obtain rfl := h.waits.table.find_eq hfind hk rfl
    have hpush : (r.app.semaphores.setEntry i sem).waiters
        = push r.app.semaphores.waiters i (r.app.pcb.slot j).pid := by
      rw [SemaphoreList.waiters_setEntry hi, hqueue, ← SemaphoreList.waiters_of_listed hi]
      rfl
    refine ⟨?_, h.setEntry_inRing hring, ?_⟩
    · show Waits n (r.app.pcb.modify j fun p => { p with status := .waiting, timeToRun := 0 })
        (r.app.semaphores.setEntry i sem).waiters
      rw [hpush]
      exact h.waits.park hk hstatus (fun _ => rfl) fun _ => rfl
    · have hnew : becoming .waiting r.app.pcb (r.app.pcb.modify j fun p =>
          { p with status := .waiting, timeToRun := 0 }) = [(r.app.pcb.slot j).pid] :=
        becoming_modify hstatus fun _ => rfl
      show InOrder (Function.update r.arrived i (r.arrived i ++ becoming .waiting r.app.pcb _))
        r.woken (r.app.semaphores.setEntry i sem).waiters
      rw [hpush, hnew]
      exact h.order.push

/-- What a V does: nothing but to the first of its ring. -/
theorem Inv.v_cases {app : App} (h : r.Inv n) (hi : r.app.semaphores.Listed i)
    (hV : semaphoreV r.app (some i) = .ok app) :
    ∃ sem, sem.InRing ∧
      ((r.app.semaphores.waiters i = [] ∧
        app = r.app.setSem i sem ∧ app.semaphores.waiters = r.app.semaphores.waiters) ∨
      ∃ pid rest k, r.app.semaphores.waiters i = pid :: rest ∧ r.app.pcb.find pid = some k ∧
        app = { r.app.setSem i sem with
          pcb := r.app.pcb.modify k fun p => { p with status := .ready } } ∧
        app.semaphores.waiters = pop r.app.semaphores.waiters i) := by
  obtain ⟨sem, hring, -, ⟨hnil, hqueue, rfl⟩ | ⟨pid, k, hqueue, hfind, rfl⟩⟩ :=
    semaphoreV_cases (h.inRing i hi) hV
  · refine ⟨sem, hring, .inl ⟨?_, rfl, ?_⟩⟩
    · rw [SemaphoreList.waiters_of_listed hi, hnil]
    · exact SemaphoreList.waiters_setEntry_same hi (hqueue.trans hnil.symm)
  · refine ⟨sem, hring, .inr ⟨pid, sem.queue, k, ?_, hfind, rfl, ?_⟩⟩
    · rw [SemaphoreList.waiters_of_listed hi, hqueue]
    · show (r.app.semaphores.setEntry i sem).waiters = _
      rw [SemaphoreList.waiters_setEntry hi, pop, SemaphoreList.waiters_of_listed hi, hqueue]
      rfl

theorem Inv.v (h : r.Inv n) (hi : r.app.semaphores.Listed i) (hok : r.step (.v i) = .ok r') :
    r'.Inv n := by
  obtain ⟨app, hV, hr⟩ := Except.bind_eq_ok.mp hok
  cases hr
  obtain ⟨sem, hring, ⟨-, rfl, hsame⟩ | ⟨pid, rest, k, hq, hfind, rfl, hpop⟩⟩ := h.v_cases hi hV
  · refine ⟨?_, h.setEntry_inRing hring, ?_⟩
    · show Waits n r.app.pcb (r.app.setSem i sem).semaphores.waiters
      rw [hsame]
      exact h.waits
    · show InOrder r.arrived
        (Function.update r.woken i (r.woken i ++ becoming .ready r.app.pcb r.app.pcb))
        (r.app.setSem i sem).semaphores.waiters
      rw [hsame, becoming_self, List.append_nil, Function.update_eq_self]
      exact h.order
  · obtain ⟨-, rfl, hwaiting⟩ := h.waits.first hq hfind
    refine ⟨?_, h.setEntry_inRing hring, ?_⟩
    · dsimp only at hpop ⊢
      rw [hpop]
      exact h.waits.wake hq hfind (fun _ => rfl) fun _ => rfl
    · have hnew : becoming .ready r.app.pcb (r.app.pcb.modify k fun p =>
          { p with status := .ready }) = [(r.app.pcb.slot k).pid] :=
        becoming_modify (by rw [hwaiting]; exact nofun) fun _ => rfl
      dsimp only at hpop ⊢
      rw [hpop, hnew]
      exact h.order.pop hq

theorem Inv.step {c : SemaphoreCall} (h : r.Inv n) (hl : r.Legal n c) (hok : r.step c = .ok r') :
    r'.Inv n := by
  cases c with
  | p i pid =>
      obtain ⟨hi, k, hk, rfl, hstatus⟩ := hl
      exact h.p hi hk hstatus hok
  | v i => exact h.v hl hok

end WakeRun

/-! ## What the invariant says -/

namespace WakeRun.Inv

variable {n : Nat} {r : WakeRun} {i : Fin MAX_SIZE_SEMAPHORES}

theorem waiting_iff (h : r.Inv n) (k : Fin MAX_PCB) (hk : k.val < n) :
    (r.app.pcb.slot k).status = .waiting ↔ ∃ i, r.app.semaphores.Listed i ∧
      (r.app.semaphores.entry i).queue.count (r.app.pcb.slot k).pid = 1 ∧
      ∀ j, r.app.semaphores.Listed j → j ≠ i →
        (r.app.pcb.slot k).pid ∉ (r.app.semaphores.entry j).queue := by
  constructor
  · intro hwaiting
    obtain ⟨i, hmem⟩ := h.waits.queued k hk hwaiting
    have hi : r.app.semaphores.Listed i := by
      by_contra hi
      rw [SemaphoreList.waiters, if_neg hi] at hmem
      exact List.not_mem_nil hmem
    refine ⟨i, hi, ?_, fun j hj hji hmem' => hji ?_⟩
    · rw [← SemaphoreList.waiters_of_listed hi]
      exact List.count_eq_one_of_mem (h.waits.once.nodup i) hmem
    · rw [← SemaphoreList.waiters_of_listed hj] at hmem'
      exact h.waits.once.disjoint hmem' hmem
  · rintro ⟨i, hi, hcount, -⟩
    have hmem : (r.app.pcb.slot k).pid ∈ r.app.semaphores.waiters i := by
      rw [SemaphoreList.waiters_of_listed hi]
      exact List.count_pos_iff.mp (by rw [hcount]; exact Nat.one_pos)
    by_contra hstatus
    exact h.waits.not_mem hk hstatus i hmem

theorem idle (h : r.Inv n) (hi : r.app.semaphores.Listed i)
    (hnil : (r.app.semaphores.entry i).queue = []) {app : App}
    (hV : semaphoreV r.app (some i) = .ok app) : app.pcb = r.app.pcb := by
  obtain ⟨sem, -, ⟨-, rfl, -⟩ | ⟨pid, rest, k, hq, -, -, -⟩⟩ := h.v_cases hi hV
  · rfl
  · rw [SemaphoreList.waiters_of_listed hi, hnil] at hq
    cases hq

theorem start {app : App} (htable : app.pcb.LiveTable n)
    (hrunning : ∀ k : Fin MAX_PCB, k.val < n → (app.pcb.slot k).status ≠ .waiting)
    (hempty : ∀ i, app.semaphores.Listed i →
      (app.semaphores.entry i).head = 0 ∧ (app.semaphores.entry i).tail = 0) :
    (start app).Inv n := by
  have hnil (i : Fin MAX_SIZE_SEMAPHORES) : app.semaphores.waiters i = [] := by
    unfold SemaphoreList.waiters
    split
    · rename_i hi
      exact (Semaphore.empty_queue (hempty i hi).1 (hempty i hi).2).2
    · rfl
  refine ⟨⟨htable, .of_nil hnil, ?_, ?_⟩, ?_, fun i => (hnil i).symm⟩
  · intro i pid hmem
    rw [WakeRun.start, hnil] at hmem
    exact absurd hmem List.not_mem_nil
  · intro k hk hwaiting
    exact absurd hwaiting (hrunning k hk)
  · intro i hi
    exact (Semaphore.empty_queue (hempty i hi).1 (hempty i hi).2).1

end WakeRun.Inv

/-! ## Runs in the pool -/

structure PoolRun where
  s : Pooled
  arrived : Fin MAX_SIZE_SEMAPHORES → List UInt32
  woken : Fin MAX_SIZE_SEMAPHORES → List UInt32

namespace PoolRun

def start (s : Pooled) : PoolRun := { s := s, arrived := fun _ => [], woken := fun _ => [] }

def step (r : PoolRun) : SemaphoreCall → Except Stop PoolRun
  | .p i pid => do
    let s ← r.s.semaphoreP (semEntry r.s.semaphores i) pid
    .ok { r with
      s := s
      arrived := Function.update r.arrived i (r.arrived i ++ becoming .waiting r.s.pcb s.pcb) }
  | .v i => do
    let s ← r.s.semaphoreV (semEntry r.s.semaphores i)
    .ok { r with
      s := s
      woken := Function.update r.woken i (r.woken i ++ becoming .ready r.s.pcb s.pcb) }

/-- The run, with the list by value. -/
def values (r : PoolRun) : WakeRun := { app := r.s.app, arrived := r.arrived, woken := r.woken }

/-- A listed semaphore is called; P by a live process that is not `WAITING`. -/
def Legal (n : Nat) (r : PoolRun) (c : SemaphoreCall) : Prop := r.values.Legal n c

/-- What every run keeps. -/
structure Inv (n : Nat) (r : PoolRun) : Prop where
  apart : r.s.mem.Apart r.s.semaphores
  values : r.values.Inv n

variable {n : Nat} {r r' : PoolRun} {i : Fin MAX_SIZE_SEMAPHORES}

/-- A call in the pool is the call on the values. -/
theorem Inv.step_values {c : SemaphoreCall} (h : r.Inv n) (hl : r.Legal n c)
    (hok : r.step c = .ok r') :
    r'.s.mem.Apart r'.s.semaphores ∧ r.values.step c = .ok r'.values := by
  cases c with
  | p i pid =>
      obtain ⟨s, hP, hr⟩ := Except.bind_eq_ok.mp hok
      cases hr
      obtain ⟨hlist, hapart, hP⟩ := Pooled.semaphoreP_view h.apart (h.values.inRing i hl.1) hP
      dsimp only
      rw [hlist]
      exact ⟨hapart, Except.bind_eq_ok.mpr ⟨s.app, hP, rfl⟩⟩
  | v i =>
      obtain ⟨s, hV, hr⟩ := Except.bind_eq_ok.mp hok
      cases hr
      obtain ⟨hlist, hapart, hV⟩ := Pooled.semaphoreV_view h.apart (h.values.inRing i hl) hV
      dsimp only
      rw [hlist]
      exact ⟨hapart, Except.bind_eq_ok.mpr ⟨s.app, hV, rfl⟩⟩

theorem Inv.step {c : SemaphoreCall} (h : r.Inv n) (hl : r.Legal n c) (hok : r.step c = .ok r') :
    r'.Inv n := by
  obtain ⟨hapart, hstep⟩ := h.step_values hl hok
  exact ⟨hapart, h.values.step hl hstep⟩

end PoolRun

/-! ## No lost wake-up -/

namespace Pooled

/-- An entry of the list that has been registered. -/
def Listed (s : Pooled) (i : Fin MAX_SIZE_SEMAPHORES) : Prop := i.val < s.mem.semLast s.semaphores

instance (s : Pooled) (i : Fin MAX_SIZE_SEMAPHORES) : Decidable (s.Listed i) :=
  inferInstanceAs (Decidable (_ < _))

/-- The pids from `waiters[head]` on, up to `waiters[tail]`. -/
def ring (s : Pooled) (i : Fin MAX_SIZE_SEMAPHORES) : List UInt32 :=
  (s.mem.semaphoreAt (semEntry s.semaphores i)).queue

/-- No process waits, and the rings are empty. -/
structure Quiet (s : Pooled) (n : Nat) : Prop where
  table : s.pcb.LiveTable n
  running : ∀ k : Fin MAX_PCB, k.val < n → (s.pcb.slot k).status ≠ .waiting
  empty : ∀ i : Fin MAX_SIZE_SEMAPHORES, s.Listed i →
    s.mem.semHead (semEntry s.semaphores i) = 0 ∧ s.mem.semTail (semEntry s.semaphores i) = 0

end Pooled

namespace PoolRun.Inv

variable {n : Nat} {r : PoolRun} {i : Fin MAX_SIZE_SEMAPHORES}

theorem queue_app (s : Pooled) (i : Fin MAX_SIZE_SEMAPHORES) :
    (s.app.semaphores.entry i).queue = s.ring i := congrArg Semaphore.queue Pooled.app_entry

theorem inRing (h : r.Inv n) (hi : r.s.Listed i) : (r.s.app.semaphores.entry i).InRing :=
  h.values.inRing i hi

theorem waiting_iff (h : r.Inv n) (k : Fin MAX_PCB) (hk : k.val < n) :
    (r.s.pcb.slot k).status = .waiting ↔ ∃ i, r.s.Listed i ∧
      (r.s.ring i).count (r.s.pcb.slot k).pid = 1 ∧
      ∀ j, r.s.Listed j → j ≠ i → (r.s.pcb.slot k).pid ∉ r.s.ring j := by
  have hiff := h.values.waiting_iff k hk
  simp only [PoolRun.values, queue_app] at hiff
  exact hiff

theorem idle (h : r.Inv n) (hi : r.s.Listed i) (hnil : r.s.ring i = []) {s : Pooled}
    (hV : r.s.semaphoreV (semEntry r.s.semaphores i) = .ok s) : s.pcb = r.s.pcb := by
  obtain ⟨-, -, hV⟩ := Pooled.semaphoreV_view h.apart (h.inRing hi) hV
  rw [← queue_app] at hnil
  exact h.values.idle hi hnil hV

theorem start {s : Pooled} (hapart : s.mem.Apart s.semaphores) (hquiet : s.Quiet n) :
    (start s).Inv n := by
  refine ⟨hapart, WakeRun.Inv.start hquiet.table hquiet.running fun i hi => ?_⟩
  show (s.app.semaphores.entry i).head = 0 ∧ (s.app.semaphores.entry i).tail = 0
  rw [Pooled.app_entry, Memory.semaphoreAt_head, Memory.semaphoreAt_tail]
  exact hquiet.empty i hi

end PoolRun.Inv

instance (m : Memory) (list : Nat) : Decidable (m.Apart list) :=
  decidable_of_iff (list ≠ 0 ∧ ∀ i : Fin MAX_SIZE_SEMAPHORES, m.semWaiters (semEntry list i) ≠ 0 →
    (m.semWaiters (semEntry list i) + 256 ≤ list ∨ list + 816 ≤ m.semWaiters (semEntry list i)) ∧
    ∀ j : Fin MAX_SIZE_SEMAPHORES, m.semWaiters (semEntry list j) ≠ 0 → i ≠ j →
      m.semWaiters (semEntry list i) + 256 ≤ m.semWaiters (semEntry list j) ∨
        m.semWaiters (semEntry list j) + 256 ≤ m.semWaiters (semEntry list i))
    ⟨fun h => ⟨h.1, fun i hi => (h.2 i hi).1, fun i hi j => (h.2 i hi).2 j⟩,
      fun h => ⟨h.ne, fun i hi => ⟨h.fromList i hi, fun j => h.fromRings i hi j⟩⟩⟩

instance WakeRun.decidableLegal (n : Nat) (r : WakeRun) :
    (c : SemaphoreCall) → Decidable (r.Legal n c)
  | .p _ _ => inferInstanceAs (Decidable (_ ∧ ∃ _ : Fin MAX_PCB, _))
  | .v _ => inferInstanceAs (Decidable (SemaphoreList.Listed _ _))

instance PoolRun.decidableLegal (n : Nat) (r : PoolRun) (c : SemaphoreCall) :
    Decidable (r.Legal n c) := inferInstanceAs (Decidable (r.values.Legal n c))

instance (s : Pooled) : Decidable (s.Quiet 2) :=
  decidable_of_iff ((∀ j k : Fin MAX_PCB, j.val < 2 → k.val < 2 →
      (s.pcb.slot j).pid = (s.pcb.slot k).pid → j = k) ∧
      (∀ k : Fin MAX_PCB, k.val < 2 → (s.pcb.slot k).status ≠ .waiting) ∧
      ∀ i : Fin MAX_SIZE_SEMAPHORES, s.Listed i →
        s.mem.semHead (semEntry s.semaphores i) = 0 ∧ s.mem.semTail (semEntry s.semaphores i) = 0)
    ⟨fun h => ⟨⟨by decide, fun {j k} => h.1 j k⟩, h.2.1, h.2.2⟩,
      fun h => ⟨fun _ _ => h.table.distinct, h.running, h.empty⟩⟩

/-- A pool of zeros, but for the byte that frees the lock of the list. -/
def Pooled.unlocked : Bytes.Mem := fun a => if a = 792 then 1 else 0

/-- A file is opened, whose header has these names of semaphores. -/
def Pooled.opening (names : String) : List Pooled.Preparation :=
  [.alloc 1024, .alloc 4120, .alloc 400] ++ (ascii names).map .declare

end ChicOS
