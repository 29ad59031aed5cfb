-- SUMMARY: Mutual exclusion: one process at a time between its P and its V on a semaphore of value one.
import ChicOS.Semaphore.Waiters
import Mathlib.Data.Finset.Card
import Mathlib.Data.Fintype.Basic

/-!
# Mutual exclusion

Processes make whole calls of `semaphoreP` and `semaphoreV` on one semaphore that
`init_semaphore` created with value 1. `held` records the processes that have
done their P and not yet the matching V, whether they wait or not.

The invariant ties four things together: the counter is one less the number of
holders, the ring holds all holders but one, a holder waits exactly when it is in
the ring, and the ring never holds a process twice.
-/

namespace ChicOS

/-! ## The invariant -/

/-- A table whose first `n` slots are live, a semaphore, and its holders. -/
structure Exclusion (n : Nat) (pcb : PCB) (sem : Semaphore) (held : List UInt32) : Prop where
  table : pcb.LiveTable n
  inRing : sem.InRing
  held_nodup : held.Nodup
  held_live : ∀ pid ∈ held, ∃ k : Fin MAX_PCB, k.val < n ∧ (pcb.slot k).pid = pid
  queue_nodup : sem.queue.Nodup
  queue_held : ∀ pid ∈ sem.queue, pid ∈ held
  queue_length : sem.queue.length = held.length - 1
  value : sem.value.toInt = 1 - held.length
  waiting_iff : ∀ k : Fin MAX_PCB, k.val < n → (pcb.slot k).pid ∈ held →
    ((pcb.slot k).status = .waiting ↔ (pcb.slot k).pid ∈ sem.queue)

namespace Exclusion

variable {n : Nat} {pcb : PCB} {sem sem' : Semaphore} {held : List UInt32} {k : Fin MAX_PCB}

/-- There are no more holders than live processes. -/
theorem held_le (h : Exclusion n pcb sem held) : held.length ≤ n :=
  PCB.length_le_of_live h.held_nodup h.held_live

theorem held_lt (h : Exclusion n pcb sem held) : held.length < MAX_PCB :=
  Nat.lt_of_le_of_lt h.held_le h.table.lt

/-- The ring has room for all of them. -/
theorem room (h : Exclusion n pcb sem held) : sem.queue.length + 1 < DEFAULT_WAITERS_NUM := by
  have hlength := h.queue_length
  have hlt := h.held_lt
  unfold MAX_PCB at hlt
  unfold DEFAULT_WAITERS_NUM
  omega

/-- The counter after a P is minus the number of holders before it. -/
theorem value_sub_one (h : Exclusion n pcb sem held) :
    (sem.value - 1).toInt = - held.length := by
  have hvalue := h.value
  have hlt := h.held_lt
  unfold MAX_PCB at hlt
  rw [toInt_sub_one (by omega)]
  omega

theorem value_add_one (h : Exclusion n pcb sem held) :
    (sem.value + 1).toInt = 2 - held.length := by
  have hvalue := h.value
  rw [toInt_add_one (by omega)]
  omega

/-- A live process joins the holders. -/
theorem cons_held (h : Exclusion n pcb sem held) (hk : k.val < n)
    (hnew : (pcb.slot k).pid ∉ held) :
    ((pcb.slot k).pid :: held).Nodup ∧ ∀ pid ∈ (pcb.slot k).pid :: held,
      ∃ j : Fin MAX_PCB, j.val < n ∧ (pcb.slot j).pid = pid := by
  refine ⟨List.nodup_cons.mpr ⟨hnew, h.held_nodup⟩, ?_⟩
  intro pid hpid
  rcases List.mem_cons.mp hpid with rfl | hold
  · exact ⟨k, hk, rfl⟩
  · exact h.held_live pid hold

/-- P when nobody holds: the process takes the unit and goes on. -/
theorem take (h : Exclusion n pcb sem []) (hk : k.val < n)
    (hstatus : (pcb.slot k).status ≠ .waiting) (hring : sem'.InRing)
    (hqueue : sem'.queue = sem.queue) (hvalue : sem'.value = sem.value - 1) :
    Exclusion n pcb sem' [(pcb.slot k).pid] := by
  have hnil : sem'.queue = [] := hqueue.trans (List.length_eq_zero_iff.mp h.queue_length)
  obtain ⟨hnodup, hlive⟩ := h.cons_held hk (List.not_mem_nil)
  refine ⟨h.table, hring, hnodup, hlive, ?_, ?_, ?_, ?_, ?_⟩
  · rw [hnil]
    exact List.nodup_nil
  · intro pid hpid
    rw [hnil] at hpid
    exact absurd hpid List.not_mem_nil
  · rw [hnil]
    rfl
  · rw [hvalue]
    exact h.value_sub_one
  · intro j hj hmem
    have hjk : j = k := h.table.distinct hj hk (List.mem_singleton.mp hmem)
    subst hjk
    rw [hnil]
    exact iff_of_false hstatus List.not_mem_nil

/-- P when somebody holds: the process joins the ring and waits. -/
theorem park (h : Exclusion n pcb sem held) (hheld : held ≠ []) (hk : k.val < n)
    (hnew : (pcb.slot k).pid ∉ held) {f : Process → Process} (hpid : ∀ p, (f p).pid = p.pid)
    (hf : ∀ p, (f p).status = .waiting) (hring : sem'.InRing)
    (hqueue : sem'.queue = sem.queue ++ [(pcb.slot k).pid]) (hvalue : sem'.value = sem.value - 1) :
    Exclusion n (pcb.modify k f) sem' ((pcb.slot k).pid :: held) := by
  have hlength := h.queue_length
  have hpos := List.length_pos_iff.mpr hheld
  obtain ⟨hnodup, hlive⟩ := h.cons_held hk hnew
  have hpids := fun j => pcb.slot_modify_pid k j hpid
  refine ⟨h.table.modify k hpid, hring, hnodup, ?_, ?_, ?_, ?_, ?_, ?_⟩
  · intro pid hmem
    obtain ⟨j, hj, rfl⟩ := hlive pid hmem
    exact ⟨j, hj, hpids j⟩
  · rw [hqueue]
    refine h.queue_nodup.append (List.nodup_singleton _) ?_
    intro pid hmem hmem'
    rw [List.mem_singleton.mp hmem'] at hmem
    exact hnew (h.queue_held _ hmem)
  · intro pid hmem
    rw [hqueue] at hmem
    rcases List.mem_append.mp hmem with hold | hmem
    · exact List.mem_cons_of_mem _ (h.queue_held pid hold)
    · rw [List.mem_singleton.mp hmem]
      exact List.mem_cons_self
  · rw [hqueue, List.length_append, List.length_singleton, List.length_cons]
    omega
  · rw [hvalue]
    have hnum := h.value_sub_one
    rw [List.length_cons]
    push_cast
    omega
  · intro j hj hmem
    rw [hpids] at hmem ⊢
    rw [hqueue, List.mem_append, List.mem_singleton]
    by_cases hjk : k = j
    · subst hjk
      rw [PCB.slot_modify_self]
      exact iff_of_true (hf _) (.inr rfl)
    · rw [PCB.slot_modify_ne pcb f hjk]
      have hne : (pcb.slot j).pid ≠ (pcb.slot k).pid :=
        fun heq => hjk (h.table.distinct hk hj heq.symm)
      have hold : (pcb.slot j).pid ∈ held := List.mem_of_ne_of_mem hne hmem
      rw [h.waiting_iff j hj hold]
      simp [hne]

/-- V when nobody waits: the unit is given back. -/
theorem give (h : Exclusion n pcb sem held) (hqueue : sem.queue = []) {pid : UInt32}
    (hmem : pid ∈ held) (hring : sem'.InRing) (hnone : sem'.queue = [])
    (hvalue : sem'.value = sem.value + 1) : Exclusion n pcb sem' (held.erase pid) := by
  have hlength := h.queue_length
  have hpos := List.length_pos_of_mem hmem
  have hone : held.length = 1 := by
    rw [hqueue, List.length_nil] at hlength
    omega
  have hnil : held.erase pid = [] := by
    rw [← List.length_eq_zero_iff, List.length_erase_of_mem hmem, hone]
  rw [hnil]
  refine ⟨h.table, hring, List.nodup_nil, ?_, ?_, ?_, ?_, ?_, ?_⟩
  · intro q hq
    exact absurd hq List.not_mem_nil
  · rw [hnone]
    exact List.nodup_nil
  · intro q hq
    rwa [hnone] at hq
  · rw [hnone]
    rfl
  · have hnum := h.value_add_one
    rw [hone] at hnum
    rw [hvalue]
    exact hnum
  · intro j _ hj
    exact absurd hj List.not_mem_nil

/-- V when somebody waits: the oldest waiter is made ready. -/
theorem wake (h : Exclusion n pcb sem held) {pid waking : UInt32}
    (hmem : pid ∈ held) (hrunning : pid ∉ sem.queue) {f : Process → Process}
    (hpid : ∀ p, (f p).pid = p.pid) (hf : ∀ p, (f p).status = .ready)
    (hring : sem'.InRing) (hqueue : sem.queue = waking :: sem'.queue)
    (hvalue : sem'.value = sem.value + 1) (hfind : pcb.find waking = some k) :
    Exclusion n (pcb.modify k f) sem' (held.erase pid) := by
  have hlength := h.queue_length
  have hnodup := h.queue_nodup
  rw [hqueue] at hnodup
  have hpos := List.length_pos_of_mem hmem
  have hpids := fun j => pcb.slot_modify_pid k j hpid
  have hwaking : waking ∈ held := h.queue_held waking (by rw [hqueue]; exact List.mem_cons_self)
  refine ⟨h.table.modify k hpid, hring, h.held_nodup.erase _, ?_, hnodup.of_cons, ?_, ?_, ?_, ?_⟩
  · intro q hq
    obtain ⟨j, hj, rfl⟩ := h.held_live q (List.mem_of_mem_erase hq)
    exact ⟨j, hj, hpids j⟩
  · intro q hq
    have hq' : q ∈ sem.queue := by
      rw [hqueue]
      exact List.mem_cons_of_mem _ hq
    have hqp : q ≠ pid := fun heq => hrunning (heq ▸ hq')
    exact (List.mem_erase_of_ne hqp).mpr (h.queue_held q hq')
  · rw [hqueue, List.length_cons] at hlength
    rw [List.length_erase_of_mem hmem]
    omega
  · rw [hvalue, List.length_erase_of_mem hmem]
    have hnum := h.value_add_one
    push_cast [hpos]
    omega
  · intro j hj hjmem
    rw [hpids] at hjmem ⊢
    have hjheld := List.mem_of_mem_erase hjmem
    have hiff := h.waiting_iff j hj hjheld
    rw [hqueue, List.mem_cons] at hiff
    by_cases hjk : k = j
    · subst hjk
      rw [PCB.slot_modify_self, hf, PCB.find_eq_some hfind]
      exact iff_of_false (by simp) (List.nodup_cons.mp hnodup).1
    · rw [PCB.slot_modify_ne pcb f hjk, hiff]
      have hne : (pcb.slot j).pid ≠ waking :=
        fun heq => hjk (h.table.find_eq hfind hj heq)
      simp [hne]

end Exclusion

/-! ## Calls -/

/-- The application, and the pids between their P and their V. -/
structure Sections where
  app : App
  held : List UInt32

/-- A whole call. The V of a process carries its pid for the record: the call
itself is given the semaphore only. -/
inductive SectionCall where
  | p (pid : UInt32)
  | v (pid : UInt32)

def SectionCall.pid : SectionCall → UInt32
  | .p pid => pid
  | .v pid => pid

namespace Sections

def step (i : Fin MAX_SIZE_SEMAPHORES) (s : Sections) : SectionCall → Except Stop Sections
  | .p pid => do
    let app ← semaphoreP s.app (some i) pid
    .ok { app := app, held := pid :: s.held }
  | .v pid => do
    let app ← semaphoreV s.app (some i)
    .ok { app := app, held := s.held.erase pid }

/-- A live process that is not `WAITING` calls P and V in turn. -/
def Legal (n : Nat) (s : Sections) (c : SectionCall) : Prop :=
  (∃ k : Fin MAX_PCB, k.val < n ∧ (s.app.pcb.slot k).pid = c.pid ∧
    (s.app.pcb.slot k).status ≠ .waiting) ∧
  match c with
  | .p pid => pid ∉ s.held
  | .v pid => pid ∈ s.held

/-- The slots of live processes that did their P and are not `WAITING`. -/
def inside (n : Nat) (s : Sections) : Finset (Fin MAX_PCB) :=
  Finset.univ.filter fun k =>
    k.val < n ∧ (s.app.pcb.slot k).pid ∈ s.held ∧ (s.app.pcb.slot k).status ≠ .waiting

/-- The slots of live processes that did their P and are `WAITING`. -/
def waiting (n : Nat) (s : Sections) : Finset (Fin MAX_PCB) :=
  Finset.univ.filter fun k =>
    k.val < n ∧ (s.app.pcb.slot k).pid ∈ s.held ∧ (s.app.pcb.slot k).status = .waiting

def Inv (i : Fin MAX_SIZE_SEMAPHORES) (n : Nat) (s : Sections) : Prop :=
  Exclusion n s.app.pcb (s.app.semaphores.entry i) s.held

variable {i : Fin MAX_SIZE_SEMAPHORES} {n : Nat} {s s' : Sections}

theorem step_inv {c : SectionCall} (h : s.Inv i n) (hl : s.Legal n c)
    (hok : s.step i c = .ok s') : s'.Inv i n := by
  obtain ⟨⟨k, hk, hpid, hstatus⟩, hturn⟩ := hl
  cases c with
  | p pid =>
      have hpid : (s.app.pcb.slot k).pid = pid := hpid
      subst hpid
      obtain ⟨app, hP, hs⟩ := Except.bind_eq_ok.mp hok
      cases hs
      have hnum := h.value_sub_one
      have hzero : (0 : Int8).toInt = 0 := by decide
      unfold Inv
      obtain ⟨sem, hring, hvalue, hcases⟩ := semaphoreP_cases h.inRing h.room hP
      rcases hcases with ⟨hge, hqueue, happ⟩ | ⟨hlt, hqueue, j, hfind, happ⟩
      · rw [Int8.lt_iff_toInt_lt, hnum, hzero] at hge
        have hnil : s.held = [] := List.length_eq_zero_iff.mp (by omega)
        unfold Inv at h
        rw [hnil] at h
        simp only [happ, setSem_get, setSem_pcb, hnil]
        exact h.take hk hstatus hring hqueue hvalue
      · rw [Int8.lt_iff_toInt_lt, hnum, hzero] at hlt
        have hheld : s.held ≠ [] := fun hnil => by simp [hnil] at hlt
        have hjk : j = k := h.table.find_eq hfind hk rfl
        subst hjk
        simp only [happ, setSem_get]
        exact h.park hheld hk hturn (fun _ => rfl) (fun _ => rfl) hring hqueue hvalue
  | v pid =>
      have hpid : (s.app.pcb.slot k).pid = pid := hpid
      have hmem : pid ∈ s.held := hturn
      obtain ⟨app, hV, hs⟩ := Except.bind_eq_ok.mp hok
      cases hs
      unfold Inv
      obtain ⟨sem, hring, hvalue, hcases⟩ := semaphoreV_cases h.inRing hV
      rcases hcases with ⟨hqueue, hnone, happ⟩ | ⟨waking, j, hqueue, hfind, happ⟩
      · simp only [happ, setSem_get, setSem_pcb]
        exact h.give hqueue hmem hring hnone hvalue
      · -- the caller is not waiting, so it is not in the ring
        have hrunning : pid ∉ (s.app.semaphores.entry i).queue := by
          subst hpid
          exact fun hq => hstatus ((h.waiting_iff k hk hmem).mpr hq)
        simp only [happ, setSem_get]
        exact h.wake hmem hrunning (fun _ => rfl) (fun _ => rfl) hring hqueue hvalue hfind

/-- The pids inside are the holders that are not in the ring. -/
theorem Inv.image_inside (h : s.Inv i n) :
    (s.inside n).image (fun k => (s.app.pcb.slot k).pid)
      = s.held.toFinset \ (s.app.semaphores.entry i).queue.toFinset := by
  ext pid
  simp only [inside, Finset.mem_image, Finset.mem_filter, Finset.mem_univ, true_and,
    Finset.mem_sdiff, List.mem_toFinset]
  constructor
  · rintro ⟨k, ⟨hk, hheld, hstatus⟩, rfl⟩
    exact ⟨hheld, fun hq => hstatus ((h.waiting_iff k hk hheld).mpr hq)⟩
  · rintro ⟨hheld, hqueue⟩
    obtain ⟨k, hk, rfl⟩ := h.held_live pid hheld
    exact ⟨k, ⟨hk, hheld, fun hw => hqueue ((h.waiting_iff k hk hheld).mp hw)⟩, rfl⟩

/-- Each live process has one slot, and all holders but one are in the ring. -/
theorem Inv.card_inside (h : s.Inv i n) : (s.inside n).card = s.held.length - (s.held.length - 1) := by
  have hinj : Set.InjOn (fun k => (s.app.pcb.slot k).pid) (s.inside n) := by
    intro j hj k hk hpid
    have hj := (Finset.mem_filter.mp (Finset.mem_coe.mp hj)).2.1
    have hk := (Finset.mem_filter.mp (Finset.mem_coe.mp hk)).2.1
    exact h.table.distinct hj hk hpid
  have hsub : (s.app.semaphores.entry i).queue.toFinset ⊆ s.held.toFinset := by
    intro pid hpid
    rw [List.mem_toFinset] at hpid ⊢
    exact h.queue_held pid hpid
  calc (s.inside n).card
      = ((s.inside n).image fun k => (s.app.pcb.slot k).pid).card :=
        (Finset.card_image_of_injOn hinj).symm
    _ = (s.held.toFinset \ (s.app.semaphores.entry i).queue.toFinset).card := by rw [h.image_inside]
    _ = s.held.toFinset.card - (s.app.semaphores.entry i).queue.toFinset.card :=
        Finset.card_sdiff_of_subset hsub
    _ = s.held.length - (s.held.length - 1) := by
        rw [List.toFinset_card_of_nodup h.held_nodup, List.toFinset_card_of_nodup h.queue_nodup,
          h.queue_length]

end Sections

/-! ## Mutual exclusion -/

theorem exclusion_init {app : App} {i : Fin MAX_SIZE_SEMAPHORES} {n : Nat}
    (htable : app.pcb.LiveTable n) (hvalue : (app.semaphores.entry i).value = 1)
    (hhead : (app.semaphores.entry i).head = 0) (htail : (app.semaphores.entry i).tail = 0) :
    Sections.Inv i n { app := app, held := [] } := by
  obtain ⟨hring, hqueue⟩ := Semaphore.empty_queue hhead htail
  refine ⟨htable, hring, List.nodup_nil, ?_, ?_, ?_, ?_, ?_, ?_⟩
  · simp
  · rw [hqueue]; exact List.nodup_nil
  · rw [hqueue]; simp
  · rw [hqueue]; rfl
  · rw [hvalue]; rfl
  · simp

/-- On a semaphore that `init_semaphore` created with value 1, in every
interleaving of whole calls, at most one live process is inside, and exactly one
when some process waits. -/
theorem mutual_exclusion (st : Store) (name : UInt8) (app : App) (i : Fin MAX_SIZE_SEMAPHORES)
    (n : Nat) (cs : List SectionCall) {t : Sections}
    (hinit : initSemaphore st name 1 = .ok (0, app.toStore)) (hi : i.val = st.semaphores.last)
    (htable : app.pcb.LiveTable n)
    (hlegal : Run.Meets (Sections.step i) (Sections.Legal n) { app := app, held := [] } cs)
    (hrun : Run.run (Sections.step i) { app := app, held := [] } cs = .ok t) :
    (t.inside n).card ≤ 1 ∧ ((t.waiting n).Nonempty → (t.inside n).card = 1) := by
  obtain ⟨hvalue, hhead, htail⟩ := initSemaphore_entry hinit hi
  have hinv : t.Inv i n :=
    Run.run_invariant (Sections.Inv i n) Sections.step_inv
      (exclusion_init htable hvalue hhead htail) hlegal hrun
  have hcard := hinv.card_inside
  refine ⟨by omega, ?_⟩
  rintro ⟨k, hk⟩
  have hmem := (Finset.mem_filter.mp hk).2.2.1
  have hpos := List.length_pos_of_mem hmem
  omega

/-- Two processes before their first call, on a semaphore named `a`. -/
def Sections.two : Sections where
  app :=
    match initSemaphore Store.unlocked 97 1 with
    | .ok (_, st) => { App.zero Heap.zero fun _ => none with toStore := st, pcb := PCB.two }
    | .error _ => App.zero Heap.zero fun _ => none
  held := []

/-- The second P waits, and the first process is inside. -/
theorem mutual_exclusion_two :
    ∃ t, Run.run (Sections.step ⟨0, by decide⟩) Sections.two [.p 0, .p 1] = .ok t ∧
      (t.inside 2).card = 1 := by
  have hlegal : Run.Meets (Sections.step ⟨0, by decide⟩) (Sections.Legal 2) Sections.two
      [.p 0, .p 1] :=
    .cons_of_ok ⟨⟨⟨0, by decide⟩, by decide⟩, by decide⟩ rfl
      (.cons_of_ok ⟨⟨⟨1, by decide⟩, by decide⟩, by decide⟩ rfl trivial)
  refine ⟨_, rfl, (mutual_exclusion Store.unlocked 97 Sections.two.app ⟨0, by decide⟩ 2
    [.p 0, .p 1] rfl rfl PCB.two_liveTable hlegal rfl).2 ?_⟩
  exact ⟨⟨1, by decide⟩, by decide⟩

end ChicOS
