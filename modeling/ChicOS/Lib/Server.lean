-- SUMMARY: A first-in first-out server that works on one job at a time, and what its history says in every state.
import Mathlib.Algebra.Ring.Nat
import Mathlib.Data.List.Basic

/-!
# A first-in first-out server

Jobs may be submitted at any time, and wait in a queue. In each turn the current
job gets one unit of the work it needs, and leaves when it has got it all; then,
if nobody is served, the first of the queue starts.

The history says which jobs were submitted, in which turn each one started, and
in which turn it finished. The timetable goes on with the turns in which the jobs
that are there will finish: it only ever gets longer, with each job submitted.
-/

universe u

structure Server (α : Type u) where
  queue : List α
  /-- The job that is served, with the turns it still needs. -/
  current : Option (α × Nat)
  turns : Nat
  submitted : List α
  started : List (α × Nat)
  finished : List (α × Nat)

namespace Server

variable {α : Type u} {work : α → Nat} {s : Server α}

def empty : Server α :=
  { queue := [], current := none, turns := 0, submitted := [], started := [], finished := [] }

def submit (s : Server α) (a : α) : Server α :=
  { s with queue := s.queue ++ [a], submitted := s.submitted ++ [a] }

/-- The current job gets a unit of work. -/
def serve (s : Server α) : Server α :=
  match s.current with
  | none => { s with turns := s.turns + 1 }
  | some (a, left) =>
    if left = 1 then
      { s with
        turns := s.turns + 1
        current := none
        finished := s.finished ++ [(a, s.turns + 1)] }
    else { s with turns := s.turns + 1, current := some (a, left - 1) }

/-- The first of the queue starts, if nobody is served. -/
def next (work : α → Nat) (s : Server α) : Server α :=
  match s.current, s.queue with
  | none, a :: rest =>
    { s with queue := rest, current := some (a, work a), started := s.started ++ [(a, s.turns)] }
  | _, _ => s

/-- The jobs that are there: the current one and those in the queue. -/
def held (s : Server α) : List α := s.current.toList.map Prod.fst ++ s.queue

/-! ## What the operations do -/

theorem held_submit (s : Server α) (a : α) : (s.submit a).held = s.held ++ [a] := by
  simp [held, submit]

theorem held_of_none (h : s.current = none) : s.held = s.queue := by
  simp [held, h]

theorem held_of_some {c : α × Nat} (h : s.current = some c) : s.held = c.1 :: s.queue := by
  simp [held, h]

theorem mem_held_of_queue {a : α} (h : a ∈ s.queue) : a ∈ s.held := List.mem_append_right _ h

theorem serve_of_none (h : s.current = none) : s.serve = { s with turns := s.turns + 1 } := by
  simp only [serve, h]

theorem serve_of_last {a : α} (h : s.current = some (a, 1)) :
    s.serve = { s with
      turns := s.turns + 1
      current := none
      finished := s.finished ++ [(a, s.turns + 1)] } := by
  simp only [serve, h, if_true]

theorem serve_of_more {a : α} {left : Nat} (h : s.current = some (a, left)) (hleft : left ≠ 1) :
    s.serve = { s with turns := s.turns + 1, current := some (a, left - 1) } := by
  simp only [serve, h, if_neg hleft]

theorem next_of_some {c : α × Nat} (h : s.current = some c) : s.next work = s := by
  simp only [next, h]

theorem next_of_nil (h : s.queue = []) : s.next work = s := by
  unfold next
  rw [h]
  split
  · rename_i heq
    cases heq
  · rfl

theorem next_of_cons {a : α} {rest : List α} (h : s.current = none) (hq : s.queue = a :: rest) :
    s.next work = { s with
      queue := rest
      current := some (a, work a)
      started := s.started ++ [(a, s.turns)] } := by
  simp only [next, h, hq]

@[simp] theorem serve_queue (s : Server α) : s.serve.queue = s.queue := by
  unfold serve
  split
  · rfl
  · split <;> rfl

@[simp] theorem serve_started (s : Server α) : s.serve.started = s.started := by
  unfold serve
  split
  · rfl
  · split <;> rfl

@[simp] theorem serve_turns (s : Server α) : s.serve.turns = s.turns + 1 := by
  unfold serve
  split
  · rfl
  · split <;> rfl

/-- A job that is served after a unit of work was served before it. -/
theorem current_of_serve {a : α} {left : Nat} (h : s.serve.current = some (a, left)) :
    ∃ left', s.current = some (a, left') := by
  rcases hcurrent : s.current with _ | ⟨b, left'⟩
  · simp [serve_of_none hcurrent, hcurrent] at h
  · by_cases hlast : left' = 1
    · subst hlast
      simp [serve_of_last hcurrent] at h
    · simp only [serve_of_more hcurrent hlast, Option.some.injEq, Prod.mk.injEq] at h
      exact ⟨left', by rw [h.1]⟩

/-- Who finishes in a turn finishes in that turn. -/
theorem serve_finished (s : Server α) :
    ∃ new, s.serve.finished = s.finished ++ new ∧ ∀ c ∈ new, c.2 = s.turns + 1 := by
  rcases hcurrent : s.current with _ | ⟨a, left⟩
  · exact ⟨[], by simp [serve_of_none hcurrent]⟩
  · by_cases hlast : left = 1
    · subst hlast
      exact ⟨[(a, s.turns + 1)], by simp [serve_of_last hcurrent]⟩
    · exact ⟨[], by simp [serve_of_more hcurrent hlast]⟩

@[simp] theorem next_turns (s : Server α) : (s.next work).turns = s.turns := by
  unfold next
  split <;> rfl

@[simp] theorem next_finished (s : Server α) : (s.next work).finished = s.finished := by
  unfold next
  split <;> rfl

@[simp] theorem next_submitted (s : Server α) : (s.next work).submitted = s.submitted := by
  unfold next
  split <;> rfl

@[simp] theorem serve_submitted (s : Server α) : s.serve.submitted = s.submitted := by
  unfold serve
  split
  · rfl
  · split <;> rfl

/-! ## The history -/

/-- A stay: a job that started in turn `n` finishes once it has got its work. -/
def leaves (work : α → Nat) (stay : α × Nat) : α × Nat := (stay.1, stay.2 + work stay.1)

/-- The stay of the current job, if there is one. -/
inductive Serving (work : α → Nat) (turns : Nat) : Option (α × Nat) → List (α × Nat) → Prop
  | none : Serving work turns none []
  | some {a : α} {left n : Nat} (hleft : 0 < left) (htime : n + work a = turns + left) :
      Serving work turns (some (a, left)) [(a, n)]

/-- The current job is the one of the stay. -/
theorem Serving.jobs {turns : Nat} {c : Option (α × Nat)} {now : List (α × Nat)}
    (h : Serving work turns c now) : c.toList.map Prod.fst = now.map Prod.fst := by
  cases h <;> rfl

/-- It is not over yet. -/
theorem Serving.lt {turns : Nat} {c : Option (α × Nat)} {now : List (α × Nat)}
    (h : Serving work turns c now) {stay : α × Nat} (hstay : stay ∈ now) :
    turns < stay.2 + work stay.1 := by
  cases h with
  | none => cases hstay
  | some hleft htime =>
      cases List.mem_singleton.mp hstay
      dsimp only
      omega

structure Inv (work : α → Nat) (s : Server α) (done now : List (α × Nat)) : Prop where
  order : s.submitted = s.started.map Prod.fst ++ s.queue
  started : s.started = done ++ now
  finished : s.finished = done.map (leaves work)
  serving : Serving work s.turns s.current now

theorem Inv.empty : Inv work (empty : Server α) [] [] := ⟨rfl, rfl, rfl, .none⟩

namespace Inv

variable {done now : List (α × Nat)}

theorem submit (h : Inv work s done now) (a : α) : Inv work (s.submit a) done now := by
  refine ⟨?_, h.started, h.finished, h.serving⟩
  simp [Server.submit, h.order]

/-- A turn that serves: the current job stays, or its stay ends. -/
theorem serve (h : Inv work s done now) : ∃ done' now', Inv work s.serve done' now' := by
  have hserving := h.serving
  rcases hcurrent : s.current with _ | ⟨a, left⟩
  · rw [hcurrent] at hserving
    cases hserving
    refine ⟨done, [], ?_⟩
    rw [serve_of_none hcurrent]
    exact ⟨h.order, h.started, h.finished, by rw [hcurrent]; exact .none⟩
  · rw [hcurrent] at hserving
    cases hserving with
    | @some a left n hleft htime =>
    by_cases hlast : left = 1
    · subst hlast
      refine ⟨done ++ [(a, n)], [], ?_⟩
      rw [serve_of_last hcurrent]
      refine ⟨h.order, by simp [h.started], ?_, .none⟩
      simp [h.finished, leaves, htime]
    · refine ⟨done, [(a, n)], ?_⟩
      rw [serve_of_more hcurrent hlast]
      exact ⟨h.order, h.started, h.finished, .some (by omega) (by dsimp only; omega)⟩

/-- A job that starts has all its work ahead. -/
theorem next (hwork : ∀ a, 0 < work a) (h : Inv work s done now) :
    ∃ now', Inv work (s.next work) done now' := by
  rcases hcurrent : s.current with _ | c
  · rcases hqueue : s.queue with _ | ⟨a, rest⟩
    · rw [next_of_nil hqueue]
      exact ⟨now, h⟩
    · have hserving := h.serving
      rw [hcurrent] at hserving
      cases hserving
      refine ⟨[(a, s.turns)], ?_⟩
      rw [next_of_cons hcurrent hqueue]
      refine ⟨?_, ?_, h.finished, .some (hwork a) rfl⟩
      · simp [h.order, hqueue]
      · simp [h.started]
  · rw [next_of_some hcurrent]
    exact ⟨now, h⟩

end Inv

/-! ## The timetable -/

/-- The turns in which jobs finish that are served one after another from turn `n` on. -/
def inTurn (work : α → Nat) : Nat → List α → List (α × Nat)
  | _, [] => []
  | n, a :: rest => (a, n + work a) :: inTurn work (n + work a) rest

/-- The turn in which the first of the queue starts. -/
def free (s : Server α) : Nat :=
  match s.current with
  | none => s.turns + 1
  | some c => s.turns + c.2

/-- The jobs that are there, with the turns in which they will finish. -/
def due (work : α → Nat) (s : Server α) : List (α × Nat) :=
  (s.current.toList.map fun c => (c.1, s.turns + c.2)) ++ inTurn work s.free s.queue

/-- The turns in which the jobs have finished, and in which the others will. -/
def timetable (work : α → Nat) (s : Server α) : List (α × Nat) := s.finished ++ s.due work

theorem inTurn_concat (n : Nat) (l : List α) (a : α) :
    inTurn work n (l ++ [a]) = inTurn work n l ++ [(a, n + (l.map work).sum + work a)] := by
  induction l generalizing n with
  | nil => rfl
  | cons b l ih => simp [inTurn, ih, Nat.add_assoc]

theorem inTurn_jobs (n : Nat) (l : List α) : (inTurn work n l).map Prod.fst = l := by
  induction l generalizing n with
  | nil => rfl
  | cons b l ih => simp [inTurn, ih]

theorem le_of_mem_inTurn {n : Nat} {l : List α} {c : α × Nat} (h : c ∈ inTurn work n l) :
    n ≤ c.2 := by
  induction l generalizing n with
  | nil => cases h
  | cons b l ih =>
      rcases List.mem_cons.mp h with rfl | hrest
      · exact Nat.le_add_right _ _
      · exact Nat.le_trans (Nat.le_add_right _ _) (ih hrest)

theorem free_of_none (h : s.current = none) : s.free = s.turns + 1 := by
  simp only [free, h]

theorem free_of_some {c : α × Nat} (h : s.current = some c) : s.free = s.turns + c.2 := by
  simp only [free, h]

/-- A job that is submitted finishes after all that are there. -/
theorem timetable_submit (s : Server α) (a : α) :
    (s.submit a).timetable work
      = s.timetable work ++ [(a, s.free + (s.queue.map work).sum + work a)] := by
  show s.finished ++ (_ ++ inTurn work s.free (s.queue ++ [a])) = _
  rw [inTurn_concat, timetable, due]
  simp only [List.append_assoc]
  rfl

/-- Past turns are over, and the current job is not finished. -/
structure Timely (s : Server α) : Prop where
  past : ∀ c ∈ s.finished, c.2 ≤ s.turns
  left : ∀ c ∈ s.current, 0 < c.2

theorem Timely.empty : (empty : Server α).Timely := ⟨nofun, nofun⟩

theorem Timely.submit (h : s.Timely) (a : α) : (s.submit a).Timely := ⟨h.past, h.left⟩

/-- If nobody is served, the first of the queue starts now. -/
theorem timetable_next (h : s.current = none) :
    (s.next work).timetable work = s.finished ++ inTurn work s.turns s.queue := by
  rcases hqueue : s.queue with _ | ⟨b, rest⟩
  · rw [next_of_nil hqueue]
    simp [timetable, due, h, hqueue, inTurn]
  · rw [next_of_cons h hqueue]
    simp [timetable, due, inTurn, free]

/-- A turn changes nothing in the timetable. -/
theorem timetable_turn (h : s.Timely) : (s.serve.next work).timetable work = s.timetable work := by
  rcases hcurrent : s.current with _ | ⟨a, left⟩
  · have hnone : s.serve.current = none := by rw [serve_of_none hcurrent, hcurrent]
    rw [timetable_next hnone, serve_of_none hcurrent]
    simp [timetable, due, hcurrent, free]
  · by_cases hlast : left = 1
    · subst hlast
      have hnone : s.serve.current = none := by rw [serve_of_last hcurrent]
      rw [timetable_next hnone, serve_of_last hcurrent]
      simp [timetable, due, hcurrent, free]
    · have hpos : 0 < left := h.left _ hcurrent
      have htime : s.turns + 1 + (left - 1) = s.turns + left := by omega
      have hsome : s.serve.current = some (a, left - 1) := by rw [serve_of_more hcurrent hlast]
      rw [next_of_some hsome, serve_of_more hcurrent hlast]
      simp [timetable, due, hcurrent, free, htime]

theorem Timely.turn (hwork : ∀ a, 0 < work a) (h : s.Timely) : (s.serve.next work).Timely := by
  have hserve : s.serve.Timely := by
    constructor
    · intro c hc
      obtain ⟨new, hfinished, hnew⟩ := s.serve_finished
      rw [hfinished] at hc
      rw [serve_turns]
      rcases List.mem_append.mp hc with hold | hc
      · exact Nat.le_succ_of_le (h.past c hold)
      · exact Nat.le_of_eq (hnew c hc)
    · rintro ⟨a, left⟩ hc
      rcases hcurrent : s.current with _ | ⟨b, left'⟩
      · rw [serve_of_none hcurrent, hcurrent] at hc
        cases hc
      · by_cases hlast : left' = 1
        · subst hlast
          rw [serve_of_last hcurrent] at hc
          cases hc
        · have hpos : 0 < left' := h.left _ hcurrent
          rw [serve_of_more hcurrent hlast] at hc
          cases hc
          show 0 < left' - 1
          omega
  refine ⟨fun c hc => ?_, fun c hc => ?_⟩
  · rw [next_finished] at hc
    rw [next_turns]
    exact hserve.past c hc
  · rcases hcurrent : s.serve.current with _ | d
    · rcases hqueue : s.serve.queue with _ | ⟨b, rest⟩
      · rw [next_of_nil hqueue, hcurrent] at hc
        cases hc
      · rw [next_of_cons hcurrent hqueue] at hc
        cases hc
        exact hwork b
    · rw [next_of_some hcurrent] at hc
      exact hserve.left c hc

/-- What is due finishes in turns to come. -/
theorem Timely.lt_of_mem_due (h : s.Timely) {c : α × Nat} (hc : c ∈ s.due work) : s.turns < c.2 := by
  have hfree : s.turns < s.free := by
    rcases hcurrent : s.current with _ | d
    · rw [free_of_none hcurrent]
      exact Nat.lt_succ_self _
    · rw [free_of_some hcurrent]
      exact Nat.lt_add_of_pos_right (h.left d hcurrent)
  rcases List.mem_append.mp hc with hc | hc
  · obtain ⟨d, hd, rfl⟩ := List.mem_map.mp hc
    exact Nat.lt_add_of_pos_right (h.left d (Option.mem_toList.mp hd))
  · exact Nat.lt_of_lt_of_le hfree (le_of_mem_inTurn hc)

/-- A job has finished just when its turn in the timetable has come. -/
theorem Timely.finished_getElem? (h : s.Timely) {i : Nat} {c : α × Nat}
    (hc : (s.timetable work)[i]? = some c) :
    s.finished[i]? = if c.2 ≤ s.turns then some c else none := by
  rw [timetable] at hc
  rcases Nat.lt_or_ge i s.finished.length with hlt | hge
  · rw [List.getElem?_append_left hlt] at hc
    rw [hc, if_pos (h.past c (List.mem_of_getElem? hc))]
  · rw [List.getElem?_append_right hge] at hc
    rw [List.getElem?_eq_none hge,
      if_neg (Nat.not_le.mpr (h.lt_of_mem_due (List.mem_of_getElem? hc)))]

/-- The jobs in the timetable are those submitted, in their order. -/
theorem Inv.timetable_jobs {done now : List (α × Nat)} (h : Inv work s done now) :
    (s.timetable work).map Prod.fst = s.submitted := by
  have hcurrent : (s.current.toList.map fun c => (c.1, s.turns + c.2)).map Prod.fst
      = s.current.toList.map Prod.fst := by
    rw [List.map_map]
    rfl
  have hfinished : (done.map (leaves work)).map Prod.fst = done.map Prod.fst := by
    rw [List.map_map]
    rfl
  rw [timetable, due, List.map_append, List.map_append, hcurrent, h.serving.jobs, inTurn_jobs,
    h.finished, hfinished, h.order, h.started, List.map_append, List.append_assoc]

end Server
