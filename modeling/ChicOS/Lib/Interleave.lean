-- SUMMARY: Two threads over a shared state, the interleavings of their steps, and how these split around two steps of one thread.
import ChicOS.Lib.Run

/-!
# Interleavings of two threads

A thread is a step function on a shared state and on a place in its own program.
A thread that has finished has no step. An interleaving is a list that says whose
turn it is; it is complete when both threads have finished.

A thread of two steps cuts an interleaving into three blocks of steps of the
other. `run_blocks_eq_ok` splits a run there, and `left_run` says what the other
thread does in a block.
-/

universe u

namespace Interleave

inductive Side where
  | left | right
  deriving DecidableEq, Repr

/-- The shared state, and where each thread is in its program. -/
structure Pair (σ α β : Type u) where
  shared : σ
  left : α
  right : β

/-- What the next step of a thread does, if it has one. -/
abbrev Thread (σ α τ : Type u) : Type u := σ → α → Option (Except τ (σ × α))

variable {σ α β τ : Type u} {f : Thread σ α τ} {g : Thread σ β τ} {s t : Pair σ α β}

/-- A step of one of the threads. A thread that has finished cannot take one. -/
def step (f : Thread σ α τ) (g : Thread σ β τ) (s : Pair σ α β) :
    Side → Except (Option τ) (Pair σ α β)
  | .left =>
    match f s.shared s.left with
    | none => .error none
    | some (.error e) => .error (some e)
    | some (.ok (shared, left)) => .ok { s with shared := shared, left := left }
  | .right =>
    match g s.shared s.right with
    | none => .error none
    | some (.error e) => .error (some e)
    | some (.ok (shared, right)) => .ok { s with shared := shared, right := right }

theorem step_left_eq_ok :
    step f g s .left = .ok t ↔ ∃ shared left, f s.shared s.left = some (.ok (shared, left)) ∧
      t = { s with shared := shared, left := left } := by
  rw [step]
  constructor
  · intro h
    split at h
    · cases h
    · cases h
    · rename_i shared left hf
      cases h
      exact ⟨shared, left, hf, rfl⟩
  · rintro ⟨shared, left, hf, rfl⟩
    rw [hf]

theorem step_right_eq_ok :
    step f g s .right = .ok t ↔ ∃ shared right, g s.shared s.right = some (.ok (shared, right)) ∧
      t = { s with shared := shared, right := right } := by
  rw [step]
  constructor
  · intro h
    split at h
    · cases h
    · cases h
    · rename_i shared right hg
      cases h
      exact ⟨shared, right, hg, rfl⟩
  · rintro ⟨shared, right, hg, rfl⟩
    rw [hg]

/-! ## What both threads keep -/

/-- Every interleaving keeps what both threads keep, and none stops with an error. -/
theorem run_safe (I : σ → α → β → Prop)
    (hf : ∀ {shared left right}, I shared left right → f shared left = none ∨
      ∃ shared' left', f shared left = some (.ok (shared', left')) ∧ I shared' left' right)
    (hg : ∀ {shared left right}, I shared left right → g shared right = none ∨
      ∃ shared' right', g shared right = some (.ok (shared', right')) ∧ I shared' left right')
    (hs : I s.shared s.left s.right) (es : List Side) :
    (∀ e, Run.run (step f g) s es ≠ .error (some e)) ∧
      ∀ t, Run.run (step f g) s es = .ok t → I t.shared t.left t.right := by
  have hstep : ∀ {s : Pair σ α β} {e : Side}, I s.shared s.left s.right →
      step f g s e = .error none ∨ ∃ t, step f g s e = .ok t ∧ I t.shared t.left t.right := by
    intro s e h
    cases e with
    | left =>
        rcases hf h with hnone | ⟨shared, left, hok, h'⟩
        · exact .inl (by rw [step, hnone])
        · exact .inr ⟨_, step_left_eq_ok.mpr ⟨shared, left, hok, rfl⟩, h'⟩
    | right =>
        rcases hg h with hnone | ⟨shared, right, hok, h'⟩
        · exact .inl (by rw [step, hnone])
        · exact .inr ⟨_, step_right_eq_ok.mpr ⟨shared, right, hok, rfl⟩, h'⟩
  have hkeep : ∀ {s : Pair σ α β} {e : Side} {t : Pair σ α β}, I s.shared s.left s.right →
      step f g s e = .ok t → I t.shared t.left t.right := by
    intro s e t h hok
    rcases hstep h with hnone | ⟨t', ht, h'⟩
    · cases hnone.symm.trans hok
    · cases ht.symm.trans hok
      exact h'
  have hstop : ∀ {s : Pair σ α β} {e : Side} {x : Option τ}, I s.shared s.left s.right →
      step f g s e = .error x → x = none := by
    intro s e x h herror
    rcases hstep h with hnone | ⟨t, ht, -⟩
    · exact Except.error.inj (herror.symm.trans hnone)
    · cases ht.symm.trans herror
  refine ⟨fun e hrun => ?_, fun t hrun =>
    Run.run_preserves (fun s : Pair σ α β => I s.shared s.left s.right) hkeep hs hrun⟩
  cases Run.run_error (fun s : Pair σ α β => I s.shared s.left s.right) hkeep hstop hs hrun

/-! ## Steps of one thread -/

/-- What the left thread does in a block of its steps. -/
theorem left_run (P : Nat → σ → α → Prop) {i n : Nat}
    (hP : ∀ {i shared left shared' left'}, P i shared left →
      f shared left = some (.ok (shared', left')) → P (i + 1) shared' left')
    (hs : P i s.shared s.left)
    (hrun : Run.run (step f g) s (List.replicate n .left) = .ok t) :
    P (i + n) t.shared t.left ∧ t.right = s.right := by
  induction n generalizing s i with
  | zero =>
      cases hrun
      exact ⟨hs, rfl⟩
  | succ n ih =>
      obtain ⟨s', hstep, hrest⟩ := Run.run_cons_eq_ok.mp hrun
      obtain ⟨shared, left, hf, rfl⟩ := step_left_eq_ok.mp hstep
      have hnext := ih (i := i + 1) (hP hs hf) hrest
      rwa [Nat.add_assoc, Nat.add_comm 1 n] at hnext

/-- A thread that gets closer to its end with every step takes as many steps. -/
theorem count_right (rank : β → Nat) {es : List Side}
    (hrank : ∀ {shared right shared' right'}, g shared right = some (.ok (shared', right')) →
      rank right = rank right' + 1)
    (hrun : Run.run (step f g) s es = .ok t) : rank s.right = rank t.right + es.count .right := by
  induction es generalizing s with
  | nil =>
      cases hrun
      rfl
  | cons e es ih =>
      obtain ⟨s', hstep, hrest⟩ := Run.run_cons_eq_ok.mp hrun
      have hcount := ih hrest
      cases e with
      | left =>
          obtain ⟨shared, left, -, rfl⟩ := step_left_eq_ok.mp hstep
          simpa using hcount
      | right =>
          obtain ⟨shared, right, hg, rfl⟩ := step_right_eq_ok.mp hstep
          rw [hrank hg, hcount]
          simp [Nat.add_assoc]

/-! ## Blocks -/

/-- Steps of the left thread around two steps of the right one. -/
def blocks (a b c : Nat) : List Side :=
  List.replicate a .left ++ .right :: (List.replicate b .left ++ .right :: List.replicate c .left)

/-- The steps of the left thread before the step of the right thread at an index. -/
def leftBefore : List Side → Nat → Nat
  | [], _ => 0
  | .left :: es, i => leftBefore es i + 1
  | .right :: _, 0 => 0
  | .right :: es, i + 1 => leftBefore es i

theorem leftBefore_replicate (n i : Nat) (es : List Side) :
    leftBefore (List.replicate n .left ++ es) i = n + leftBefore es i := by
  induction n with
  | zero => exact (Nat.zero_add _).symm
  | succ n ih =>
      rw [List.replicate_succ, List.cons_append, leftBefore, ih]
      exact Nat.add_right_comm _ _ _

@[simp] theorem leftBefore_blocks_zero (a b c : Nat) : leftBefore (blocks a b c) 0 = a := by
  rw [blocks, leftBefore_replicate, leftBefore]
  rfl

@[simp] theorem leftBefore_blocks_one (a b c : Nat) : leftBefore (blocks a b c) 1 = a + b := by
  rw [blocks, leftBefore_replicate, leftBefore, leftBefore_replicate, leftBefore]
  rfl

theorem eq_replicate_of_count {es : List Side} (h : es.count .right = 0) :
    es = List.replicate es.length .left := by
  rw [List.eq_replicate_iff]
  refine ⟨rfl, ?_⟩
  intro e he
  cases e with
  | left => rfl
  | right => exact absurd he (List.count_eq_zero.mp h)

/-- Up to its first step of the right thread an interleaving is a block. -/
theorem exists_first {es : List Side} {n : Nat} (h : es.count .right = n + 1) :
    ∃ a rest, es = List.replicate a .left ++ .right :: rest ∧ rest.count .right = n := by
  induction es with
  | nil => cases h
  | cons e es ih =>
      cases e with
      | left =>
          rw [List.count_cons_of_ne (by decide)] at h
          obtain ⟨a, rest, rfl, hcount⟩ := ih h
          exact ⟨a + 1, rest, rfl, hcount⟩
      | right =>
          rw [List.count_cons_self] at h
          exact ⟨0, es, rfl, Nat.succ.inj h⟩

theorem exists_blocks {es : List Side} (h : es.count .right = 2) : ∃ a b c, es = blocks a b c := by
  obtain ⟨a, rest, rfl, hrest⟩ := exists_first h
  obtain ⟨b, last, rfl, hlast⟩ := exists_first hrest
  rw [eq_replicate_of_count hlast]
  exact ⟨a, b, last.length, rfl⟩

theorem run_blocks_eq_ok {a b c : Nat} :
    Run.run (step f g) s (blocks a b c) = .ok t ↔ ∃ s₁ s₂ s₃ s₄,
      Run.run (step f g) s (List.replicate a .left) = .ok s₁ ∧ step f g s₁ .right = .ok s₂ ∧
      Run.run (step f g) s₂ (List.replicate b .left) = .ok s₃ ∧ step f g s₃ .right = .ok s₄ ∧
      Run.run (step f g) s₄ (List.replicate c .left) = .ok t := by
  simp only [blocks, Run.run_append_eq_ok, Run.run_cons_eq_ok]
  constructor
  · rintro ⟨s₁, h₁, s₂, h₂, s₃, h₃, s₄, h₄, h₅⟩
    exact ⟨s₁, s₂, s₃, s₄, h₁, h₂, h₃, h₄, h₅⟩
  · rintro ⟨s₁, s₂, s₃, s₄, h₁, h₂, h₃, h₄, h₅⟩
    exact ⟨s₁, h₁, s₂, h₂, s₃, h₃, s₄, h₄, h₅⟩

end Interleave
