-- SUMMARY: Operations of many threads on one object under a lock: every interleaving of their steps is a serial run of the operations.
import ChicOS.Lib.Run
import Mathlib.Logic.Function.Basic

/-!
# An object behind one lock

An operation makes a test on the shared state before it takes the lock, does its work in
steps while it has the lock, and gives the lock back. The threads take their steps in any
order, and the test of one thread may look at a state that another is in the middle of
changing.

`Serial` is a run of whole operations, one after the other, each a call that may be made
then. `linear_run` says that every run of the interleaved steps is such a run: at most one
thread is inside, the log has the operations in the order in which their work ended, and
the shared state is what they lead to, apart from the steps of the operation that is under
way. A `Usage` says what the callers promise: a call asks for something the log allows, and
is apart from the calls that other threads have under way (it does not give back the same
thing, for example).
-/

universe u v

namespace Monitor

variable {ι : Type v} {σ ρ κ α τ : Type u}

/-- An object: the test before the lock, and the work under it, in steps from place to
place. -/
structure Object (σ ρ κ α τ : Type u) where
  ready : σ → ρ → Bool
  enter : ρ → κ
  step : σ → κ → Except τ (σ × (κ ⊕ α))

/-- Where a thread is. -/
inductive Phase (ρ κ : Type u) where
  | idle
  | waiting (r : ρ)
  | inside (r : ρ) (k : κ)
  | leaving

/-- The log has the operations whose work has ended, oldest first. -/
structure State (ι : Type v) (σ ρ κ α : Type u) where
  shared : σ
  lock : Nat
  phase : ι → Phase ρ κ
  log : List (ι × ρ × α)

/-- How an object is used: what holds of its state at every moment, what a caller promises,
and what is then known of a call until its work ends, whatever other threads do. -/
structure Usage (ι : Type v) (o : Object σ ρ κ α τ) where
  good : σ → Prop
  asks : List (ι × ρ × α) → ρ → Prop
  may : List (ι × ρ × α) → ρ → Prop
  apart : ρ → ρ → Prop
  good_step : ∀ {s s' k x}, good s → o.step s k = .ok (s', x) → good s'
  granted : ∀ {s log r}, good s → o.ready s r = true → asks log r → may log r
  symm : ∀ {r r'}, apart r r' → apart r' r
  ended : ∀ {log i r r' a}, may log r → apart r r' → may (log ++ [(i, r', a)]) r

inductive Move (ρ : Type u) where
  | call (r : ρ)
  | acquire
  | work
  | release

/-- All threads idle, and the lock free. -/
def start (shared : σ) : State ι σ ρ κ α where
  shared := shared
  lock := 1
  phase _ := .idle
  log := []

section Step

variable [DecidableEq ι] (o : Object σ ρ κ α τ)

/-- A move of a thread, if it is one the thread can make. -/
def step (s : State ι σ ρ κ α) (e : ι × Move ρ) : Except (Option τ) (State ι σ ρ κ α) :=
  match s.phase e.1, e.2 with
  | .idle, .call r =>
    if o.ready s.shared r then
      .ok { s with phase := Function.update s.phase e.1 (.waiting r) }
    else .error none
  | .waiting r, .acquire =>
    if s.lock = 0 then .error none
    else
      .ok { s with
        lock := s.lock - 1
        phase := Function.update s.phase e.1 (.inside r (o.enter r)) }
  | .inside r k, .work =>
    match o.step s.shared k with
    | .error x => .error (some x)
    | .ok (shared, .inl k') =>
      .ok { s with shared := shared, phase := Function.update s.phase e.1 (.inside r k') }
    | .ok (shared, .inr a) =>
      .ok { s with
        shared := shared
        phase := Function.update s.phase e.1 .leaving
        log := s.log ++ [(e.1, r, a)] }
  | .leaving, .release =>
    .ok { s with lock := s.lock + 1, phase := Function.update s.phase e.1 .idle }
  | _, _ => .error none

variable {o}

/-- What a move can be. -/
theorem step_cases {s s' : State ι σ ρ κ α} {i : ι} {m : Move ρ} (h : step o s (i, m) = .ok s') :
    (∃ r, m = .call r ∧ s.phase i = .idle ∧ o.ready s.shared r = true ∧
      s' = { s with phase := Function.update s.phase i (.waiting r) }) ∨
    (∃ r n, m = .acquire ∧ s.phase i = .waiting r ∧ s.lock = n + 1 ∧
      s' = { s with
        lock := n
        phase := Function.update s.phase i (.inside r (o.enter r)) }) ∨
    (∃ r k shared k', m = .work ∧ s.phase i = .inside r k ∧
      o.step s.shared k = .ok (shared, .inl k') ∧
      s' = { s with shared := shared, phase := Function.update s.phase i (.inside r k') }) ∨
    (∃ r k shared a, m = .work ∧ s.phase i = .inside r k ∧
      o.step s.shared k = .ok (shared, .inr a) ∧
      s' = { s with
        shared := shared
        phase := Function.update s.phase i .leaving
        log := s.log ++ [(i, r, a)] }) ∨
    (m = .release ∧ s.phase i = .leaving ∧
      s' = { s with lock := s.lock + 1, phase := Function.update s.phase i .idle }) := by
  rw [step] at h
  split at h
  · rename_i r hphase hm
    split at h
    · rename_i hready
      cases h
      exact .inl ⟨r, hm, hphase, hready, rfl⟩
    · cases h
  · rename_i r hphase hm
    split at h
    · cases h
    · rename_i hlock
      cases h
      obtain ⟨n, hn⟩ := Nat.exists_eq_succ_of_ne_zero hlock
      exact .inr (.inl ⟨r, n, hm, hphase, hn, by simp [hn]⟩)
  · rename_i r k hphase hm
    split at h
    · cases h
    · rename_i shared k' hstep
      cases h
      exact .inr (.inr (.inl ⟨r, k, shared, k', hm, hphase, hstep, rfl⟩))
    · rename_i shared a hstep
      cases h
      exact .inr (.inr (.inr (.inl ⟨r, k, shared, a, hm, hphase, hstep, rfl⟩)))
  · rename_i hphase hm
    cases h
    exact .inr (.inr (.inr (.inr ⟨hm, hphase, rfl⟩)))
  · cases h

end Step

-- ---------------------------------------------------------------------------
-- Serial runs
-- ---------------------------------------------------------------------------

/-- Steps of the work that do not end it. -/
inductive Within (o : Object σ ρ κ α τ) (s : σ) (k : κ) : σ → κ → Prop
  | refl : Within o s k s k
  | tail {s' s'' : σ} {k' k'' : κ} (h : Within o s k s' k')
      (hstep : o.step s' k' = .ok (s'', .inl k'')) : Within o s k s'' k''

/-- The work of an operation from its start to its end. -/
def Section (o : Object σ ρ κ α τ) (s : σ) (r : ρ) (s' : σ) (a : α) : Prop :=
  ∃ s₁ k, Within o s (o.enter r) s₁ k ∧ o.step s₁ k = .ok (s', .inr a)

/-- Whole operations one after the other, each a call that may be made after those before
it. -/
inductive Serial {o : Object σ ρ κ α τ} (u : Usage ι o) (s₀ : σ) :
    List (ι × ρ × α) → σ → Prop
  | nil : Serial u s₀ [] s₀
  | snoc {log : List (ι × ρ × α)} {s s' : σ} {i : ι} {r : ρ} {a : α}
      (h : Serial u s₀ log s) (hmay : u.may log r) (hsection : Section o s r s' a) :
      Serial u s₀ (log ++ [(i, r, a)]) s'

/-- A thread that has the lock. -/
def Phase.Holding : Phase ρ κ → Prop
  | .inside _ _ | .leaving => True
  | _ => False

/-- The call a thread has made and not ended the work of. -/
def Phase.pending : Phase ρ κ → Option ρ
  | .waiting r | .inside r _ => some r
  | _ => none

/-- The calls under way are ones that may be made, and apart from each other. -/
structure Pending {o : Object σ ρ κ α τ} (u : Usage ι o) (log : List (ι × ρ × α))
    (f : ι → Phase ρ κ) : Prop where
  may : ∀ {i r}, (f i).pending = some r → u.may log r
  apart : ∀ {i j r r'}, i ≠ j → (f i).pending = some r → (f j).pending = some r' → u.apart r r'

/-- The state is that of a serial run, up to the steps of one operation under way. -/
structure Linear {o : Object σ ρ κ α τ} (u : Usage ι o) (s₀ : σ) (s : State ι σ ρ κ α) :
    Prop where
  serial : ∃ b, Serial u s₀ s.log b ∧
    ((s.lock = 1 ∧ s.shared = b ∧ ∀ i, ¬ (s.phase i).Holding) ∨
      (s.lock = 0 ∧ ∃ i, (∀ j, (s.phase j).Holding → j = i) ∧
        ((∃ r k, s.phase i = .inside r k ∧ Within o b (o.enter r) s.shared k) ∨
          (s.phase i = .leaving ∧ s.shared = b))))
  pending : Pending u s.log s.phase
  good : u.good s.shared

/-- A caller keeps its promise. -/
def Usage.Calls {o : Object σ ρ κ α τ} (u : Usage ι o) (s : State ι σ ρ κ α) :
    ι × Move ρ → Prop
  | (_, .call r) => u.asks s.log r ∧ ∀ j r', (s.phase j).pending = some r' → u.apart r r'
  | _ => True

-- ---------------------------------------------------------------------------
-- The calls under way
-- ---------------------------------------------------------------------------

section Pending

variable {o : Object σ ρ κ α τ} {u : Usage ι o} {log : List (ι × ρ × α)} {f : ι → Phase ρ κ}
  {i : ι} {r : ρ}

variable [DecidableEq ι]

/-- The calls that are under way after a move. -/
theorem pending_update {j : ι} {p : Phase ρ κ}
    (hj : (Function.update f i p j).pending = some r) :
    (j = i ∧ p.pending = some r) ∨ (j ≠ i ∧ (f j).pending = some r) := by
  by_cases hji : j = i
  · subst hji
    rw [Function.update_self] at hj
    exact .inl ⟨rfl, hj⟩
  · rw [Function.update_of_ne hji] at hj
    exact .inr ⟨hji, hj⟩

theorem Pending.call {k : Phase ρ κ} (h : Pending u log f) (hk : k.pending = some r)
    (hmay : u.may log r) (hapart : ∀ j r', (f j).pending = some r' → u.apart r r') :
    Pending u log (Function.update f i k) where
  may hj := by
    rcases pending_update hj with ⟨-, hnew⟩ | ⟨-, hold⟩
    · cases hk.symm.trans hnew
      exact hmay
    · exact h.may hold
  apart hne h₁ h₂ := by
    rcases pending_update h₁ with ⟨hi, hnew⟩ | ⟨-, hold⟩
    · cases hk.symm.trans hnew
      rcases pending_update h₂ with ⟨hj, -⟩ | ⟨-, hold⟩
      · exact absurd (hi.trans hj.symm) hne
      · exact hapart _ _ hold
    · rcases pending_update h₂ with ⟨-, hnew⟩ | ⟨-, hold'⟩
      · cases hk.symm.trans hnew
        exact u.symm (hapart _ _ hold)
      · exact h.apart hne hold hold'

/-- A thread goes on with its call, or has ended it. -/
theorem Pending.same {k : Phase ρ κ} (h : Pending u log f)
    (hk : k.pending = (f i).pending) : Pending u log (Function.update f i k) := by
  have hsame : ∀ {j r}, (Function.update f i k j).pending = some r → (f j).pending = some r := by
    intro j r hj
    rcases pending_update hj with ⟨hji, hnew⟩ | ⟨-, hold⟩
    · rw [hji, ← hk, hnew]
    · exact hold
  exact ⟨fun hj => h.may (hsame hj), fun hne h₁ h₂ => h.apart hne (hsame h₁) (hsame h₂)⟩

/-- A call ends. -/
theorem Pending.ended {k : Phase ρ κ} {a : α} (h : Pending u log f) (hi : (f i).pending = some r) (hk : k.pending = none) :
    Pending u (log ++ [(i, r, a)]) (Function.update f i k) where
  may hj := by
    rcases pending_update hj with ⟨-, hnew⟩ | ⟨hne, hold⟩
    · cases hk.symm.trans hnew
    · exact u.ended (h.may hold) (h.apart hne hold hi)
  apart hne h₁ h₂ := by
    rcases pending_update h₁ with ⟨-, hnew⟩ | ⟨-, hold⟩
    · cases hk.symm.trans hnew
    · rcases pending_update h₂ with ⟨-, hnew⟩ | ⟨-, hold'⟩
      · cases hk.symm.trans hnew
      · exact h.apart hne hold hold'

end Pending

-- ---------------------------------------------------------------------------
-- Every run is serial
-- ---------------------------------------------------------------------------

section Linear

variable {o : Object σ ρ κ α τ} {u : Usage ι o} {s₀ : σ} {s s' : State ι σ ρ κ α}

theorem start_linear (hgood : u.good s₀) : Linear u s₀ (start s₀ : State ι σ ρ κ α) where
  serial := ⟨s₀, .nil, .inl ⟨rfl, rfl, fun _ h => h⟩⟩
  pending := by
    constructor
    · intro i r h
      cases h
    · intro i j r r' hne h
      cases h
  good := hgood

/-- The thread that has the lock is the only one. -/
theorem Linear.holder {i : ι} (h : Linear u s₀ s) (hi : (s.phase i).Holding) :
    s.lock = 0 ∧ (∀ j, (s.phase j).Holding → j = i) ∧ ∃ b, Serial u s₀ s.log b ∧
      ((∃ r k, s.phase i = .inside r k ∧ Within o b (o.enter r) s.shared k) ∨
        (s.phase i = .leaving ∧ s.shared = b)) := by
  obtain ⟨b, hb, ⟨-, -, hnone⟩ | ⟨hlock, i', hone, hwork⟩⟩ := h.serial
  · exact absurd hi (hnone i)
  · cases hone i hi
    exact ⟨hlock, hone, b, hb, hwork⟩

/-- The work under way is that of the thread inside. -/
theorem Linear.inside {i : ι} {r : ρ} {k : κ} (h : Linear u s₀ s)
    (hi : s.phase i = .inside r k) : s.lock = 0 ∧ (∀ j, (s.phase j).Holding → j = i) ∧
      ∃ b, Serial u s₀ s.log b ∧ Within o b (o.enter r) s.shared k := by
  obtain ⟨hlock, hone, b, hb, ⟨r', k', hk, hwithin⟩ | ⟨hleaving, -⟩⟩ :=
    h.holder (i := i) (by rw [hi]; trivial)
  · cases hi.symm.trans hk
    exact ⟨hlock, hone, b, hb, hwithin⟩
  · cases hi.symm.trans hleaving

/-- Two threads never have the lock at once. -/
theorem Linear.exclusive {i j : ι} (h : Linear u s₀ s) (hi : (s.phase i).Holding)
    (hj : (s.phase j).Holding) : j = i := (h.holder hi).2.1 j hj

/-- While the lock is free the state is that of the serial run. -/
theorem Linear.quiet (h : Linear u s₀ s) (hlock : s.lock = 1) :
    Serial u s₀ s.log s.shared := by
  obtain ⟨b, hb, ⟨-, hshared, -⟩ | ⟨hzero, -⟩⟩ := h.serial
  · rw [hshared]
    exact hb
  · omega

variable [DecidableEq ι] {i : ι} {r : ρ}

/-- Who has the lock after a move, but for the thread that moved. -/
theorem holding_update {j : ι} {f : ι → Phase ρ κ} {p : Phase ρ κ}
    (hj : (Function.update f i p j).Holding) : (j = i ∧ p.Holding) ∨ (j ≠ i ∧ (f j).Holding) := by
  by_cases hji : j = i
  · subst hji
    rw [Function.update_self] at hj
    exact .inl ⟨rfl, hj⟩
  · rw [Function.update_of_ne hji] at hj
    exact .inr ⟨hji, hj⟩

theorem Linear.call (h : Linear u s₀ s) (hphase : s.phase i = .idle) (hmay : u.may s.log r)
    (hapart : ∀ j r', (s.phase j).pending = some r' → u.apart r r') :
    Linear u s₀ { s with phase := Function.update s.phase i (.waiting r) } where
  serial := by
    obtain ⟨b, hb, ⟨hlock, hshared, hnone⟩ | ⟨hlock, i', hone, hwork⟩⟩ := h.serial
    · refine ⟨b, hb, .inl ⟨hlock, hshared, fun j hj => ?_⟩⟩
      rcases holding_update hj with ⟨-, hj⟩ | ⟨-, hj⟩
      · exact hj
      · exact hnone j hj
    · have hi' : i' ≠ i := by
        rintro rfl
        rw [hphase] at hwork
        rcases hwork with ⟨r, k, hk, -⟩ | ⟨hk, -⟩
        · cases hk
        · cases hk
      refine ⟨b, hb, .inr ⟨hlock, i', fun j hj => ?_, ?_⟩⟩
      · rcases holding_update hj with ⟨-, hj⟩ | ⟨-, hj⟩
        · exact hj.elim
        · exact hone j hj
      · dsimp only
        rw [Function.update_of_ne hi']
        exact hwork
  pending := h.pending.call rfl hmay hapart
  good := h.good

theorem Linear.acquire {n : Nat} (h : Linear u s₀ s) (hphase : s.phase i = .waiting r)
    (hn : s.lock = n + 1) : Linear u s₀
      { s with lock := n, phase := Function.update s.phase i (.inside r (o.enter r)) } where
  serial := by
    obtain ⟨b, hb, ⟨hlock, hshared, hnone⟩ | ⟨hlock, -⟩⟩ := h.serial
    · refine ⟨b, hb, .inr ⟨?_, i, fun j hj => ?_, .inl ⟨r, o.enter r, ?_, ?_⟩⟩⟩
      · dsimp only
        omega
      · rcases holding_update hj with ⟨hj, -⟩ | ⟨-, hj⟩
        · exact hj
        · exact absurd hj (hnone j)
      · exact Function.update_self ..
      · rw [← hshared]
        exact .refl
    · omega
  pending := h.pending.same (by rw [hphase]; rfl)
  good := h.good

theorem Linear.work {k k' : κ} {shared : σ} (h : Linear u s₀ s)
    (hphase : s.phase i = .inside r k) (hwork : o.step s.shared k = .ok (shared, .inl k')) :
    Linear u s₀
      { s with shared := shared, phase := Function.update s.phase i (.inside r k') } where
  serial := by
    obtain ⟨hlock, hone, b, hb, hwithin⟩ := h.inside hphase
    refine ⟨b, hb, .inr ⟨hlock, i, fun j hj => ?_, .inl ⟨r, k', ?_, hwithin.tail hwork⟩⟩⟩
    · rcases holding_update hj with ⟨hj, -⟩ | ⟨-, hj⟩
      · exact hj
      · exact hone j hj
    · exact Function.update_self ..
  pending := h.pending.same (by rw [hphase]; rfl)
  good := u.good_step h.good hwork

/-- The work ends: the operation is in the log, in one piece. -/
theorem Linear.finish {k : κ} {shared : σ} {a : α} (h : Linear u s₀ s)
    (hphase : s.phase i = .inside r k)
    (hwork : o.step s.shared k = .ok (shared, .inr a)) :
    Linear u s₀
      { s with
        shared := shared
        phase := Function.update s.phase i .leaving
        log := s.log ++ [(i, r, a)] } where
  serial := by
    obtain ⟨hlock, hone, b, hb, hwithin⟩ := h.inside hphase
    have hmay := h.pending.may (i := i) (r := r) (by rw [hphase]; rfl)
    refine ⟨shared, hb.snoc hmay ⟨_, _, hwithin, hwork⟩, .inr ⟨hlock, i, fun j hj => ?_, .inr ?_⟩⟩
    · rcases holding_update hj with ⟨hj, -⟩ | ⟨-, hj⟩
      · exact hj
      · exact hone j hj
    · exact ⟨Function.update_self .., rfl⟩
  pending := h.pending.ended (by rw [hphase]; rfl) rfl
  good := u.good_step h.good hwork

theorem Linear.release (h : Linear u s₀ s) (hphase : s.phase i = .leaving) :
    Linear u s₀
      { s with lock := s.lock + 1, phase := Function.update s.phase i .idle } where
  serial := by
    obtain ⟨hlock, hone, b, hb, ⟨r, k, hk, -⟩ | ⟨-, hshared⟩⟩ :=
      h.holder (i := i) (by rw [hphase]; trivial)
    · cases hphase.symm.trans hk
    · refine ⟨b, hb, .inl ⟨by simp [hlock], hshared, fun j hj => ?_⟩⟩
      rcases holding_update hj with ⟨-, hj⟩ | ⟨hji, hj⟩
      · exact hj
      · exact hji (hone j hj)
  pending := h.pending.same (by rw [hphase]; rfl)
  good := h.good

theorem Linear.step {e : ι × Move ρ} (h : Linear u s₀ s) (hcall : u.Calls s e)
    (hstep : Monitor.step o s e = .ok s') : Linear u s₀ s' := by
  obtain ⟨i, m⟩ := e
  rcases step_cases hstep with ⟨r, rfl, hphase, hready, rfl⟩ | ⟨r, n, rfl, hphase, hn, rfl⟩ |
    ⟨r, k, shared, k', rfl, hphase, hwork, rfl⟩ | ⟨r, k, shared, a, rfl, hphase, hwork, rfl⟩ |
    ⟨rfl, hphase, rfl⟩
  · exact h.call hphase (u.granted h.good hready hcall.1) hcall.2
  · exact h.acquire hphase hn
  · exact h.work hphase hwork
  · exact h.finish hphase hwork
  · exact h.release hphase

/-- Every run of the steps is serial, whatever their order. -/
theorem linear_run {es : List (ι × Move ρ)} (hgood : u.good s₀)
    (hcalls : Run.Meets (Monitor.step o) u.Calls (start s₀) es)
    (hrun : Run.run (Monitor.step o) (start s₀) es = .ok s) : Linear u s₀ s :=
  Run.run_invariant (Linear u s₀) (fun h hcall hstep => h.step hcall hstep) (start_linear hgood)
    hcalls hrun

end Linear

end Monitor
