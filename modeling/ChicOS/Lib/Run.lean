-- SUMMARY: Runs of a step function that may stop, and the induction principles for what a run preserves.
import Mathlib.Data.List.Basic

/-!
# Runs of a partial step function

A machine is a step function `σ → ε → Except τ σ`: a state and an event give the
next state, or a reason why there is none. `run` folds it over a list of events.

`Meets` says that every step a run takes satisfies a guard on the state it
starts from, and `run_invariant` turns a step lemma under the guard into a run
lemma. `exists_first_unmet` is the other direction: a run that does not meet its
guard has a first step that breaks it.
-/

universe u v

namespace Except

variable {ε : Type u} {α β : Type v}

@[simp] theorem ok_bind_run (a : α) (f : α → Except ε β) : (Except.ok a >>= f) = f a := rfl

@[simp] theorem error_bind_run (e : ε) (f : α → Except ε β) :
    ((Except.error e : Except ε α) >>= f) = .error e := rfl

/-- A computation that returns has returned at each of its stages. -/
theorem bind_eq_ok {x : Except ε α} {f : α → Except ε β} {b : β} :
    (x >>= f) = .ok b ↔ ∃ a, x = .ok a ∧ f a = .ok b := by
  cases x with
  | error e => simp
  | ok a => simp

/-- A computation that stops has stopped at one of its stages. -/
theorem bind_eq_error {x : Except ε α} {f : α → Except ε β} {e : ε} :
    (x >>= f) = .error e ↔ x = .error e ∨ ∃ a, x = .ok a ∧ f a = .error e := by
  cases x with
  | error e' => simp
  | ok a => simp

theorem toOption_eq_ok {x : Except ε α} {a : α} : x.toOption = some a ↔ x = .ok a := by
  cases x with
  | error e => simp [Except.toOption]
  | ok b => simp [Except.toOption]

end Except

namespace Run

variable {σ : Type u} {ε τ : Type*} {step : σ → ε → Except τ σ}

/-- The state a list of events leads to, if no step of it stops. -/
def run (step : σ → ε → Except τ σ) : σ → List ε → Except τ σ
  | s, [] => .ok s
  | s, e :: es => step s e >>= fun s' => run step s' es

@[simp] theorem run_nil (s : σ) : run step s [] = .ok s := rfl

theorem run_cons (s : σ) (e : ε) (es : List ε) :
    run step s (e :: es) = step s e >>= fun s' => run step s' es := rfl

theorem run_cons_eq_ok {s t : σ} {e : ε} {es : List ε} :
    run step s (e :: es) = .ok t ↔ ∃ s', step s e = .ok s' ∧ run step s' es = .ok t := by
  rw [run_cons, Except.bind_eq_ok]

theorem run_append (s : σ) (es fs : List ε) :
    run step s (es ++ fs) = run step s es >>= fun s' => run step s' fs := by
  induction es generalizing s with
  | nil => rfl
  | cons e es ih =>
      simp only [List.cons_append, run_cons]
      cases step s e with
      | error x => rfl
      | ok s' => exact ih s'

theorem run_append_eq_ok {s t : σ} {es fs : List ε} :
    run step s (es ++ fs) = .ok t ↔ ∃ s', run step s es = .ok s' ∧ run step s' fs = .ok t := by
  rw [run_append, Except.bind_eq_ok]

/-- Every step the run takes starts from a state that admits its event. -/
def Meets (step : σ → ε → Except τ σ) (guard : σ → ε → Prop) : σ → List ε → Prop
  | _, [] => True
  | s, e :: es => guard s e ∧ ∀ s', step s e = .ok s' → Meets step guard s' es

@[simp] theorem meets_nil {guard : σ → ε → Prop} {s : σ} : Meets step guard s [] := trivial

theorem Meets.cons_of_ok {guard : σ → ε → Prop} {s s' : σ} {e : ε} {es : List ε}
    (hg : guard s e) (hstep : step s e = .ok s') (hrest : Meets step guard s' es) :
    Meets step guard s (e :: es) :=
  ⟨hg, fun s'' hs'' => by cases hstep.symm.trans hs''; exact hrest⟩

theorem Meets.mono {g g' : σ → ε → Prop} (h : ∀ s e, g s e → g' s e) {s : σ} {es : List ε}
    (hm : Meets step g s es) : Meets step g' s es := by
  induction es generalizing s with
  | nil => trivial
  | cons e es ih => exact ⟨h _ _ hm.1, fun s' hs => ih (hm.2 s' hs)⟩

theorem Meets.and {g g' : σ → ε → Prop} {s : σ} {es : List ε}
    (hm : Meets step g s es) (hm' : Meets step g' s es) :
    Meets step (fun s e => g s e ∧ g' s e) s es := by
  induction es generalizing s with
  | nil => trivial
  | cons e es ih =>
      exact ⟨⟨hm.1, hm'.1⟩, fun s' hs => ih (hm.2 s' hs) (hm'.2 s' hs)⟩

/-- What every admitted step preserves, a run of admitted steps preserves. -/
theorem run_invariant (Inv : σ → Prop) {guard : σ → ε → Prop}
    (hstep : ∀ {s e s'}, Inv s → guard s e → step s e = .ok s' → Inv s')
    {s t : σ} {es : List ε} (hs : Inv s) (hm : Meets step guard s es)
    (hrun : run step s es = .ok t) : Inv t := by
  induction es generalizing s with
  | nil => cases hrun; exact hs
  | cons e es ih =>
      obtain ⟨s', hs', hrest⟩ := run_cons_eq_ok.mp hrun
      exact ih (hstep hs hm.1 hs') (hm.2 s' hs') hrest

/-- What every step preserves, every run preserves. -/
theorem run_preserves (Inv : σ → Prop)
    (hstep : ∀ {s e s'}, Inv s → step s e = .ok s' → Inv s')
    {s t : σ} {es : List ε} (hs : Inv s) (hrun : run step s es = .ok t) : Inv t := by
  induction es generalizing s with
  | nil => cases hrun; exact hs
  | cons e es ih =>
      obtain ⟨s', hs', hrest⟩ := run_cons_eq_ok.mp hrun
      exact ih (hstep hs hs') hrest

/-- Where a run stops, the step it stops at has started from a state that is reached. -/
theorem run_error (Inv : σ → Prop) {P : τ → Prop}
    (hstep : ∀ {s e s'}, Inv s → step s e = .ok s' → Inv s')
    (herror : ∀ {s e x}, Inv s → step s e = .error x → P x)
    {s : σ} {es : List ε} {x : τ} (hs : Inv s) (hrun : run step s es = .error x) : P x := by
  induction es generalizing s with
  | nil => cases hrun
  | cons e es ih =>
      rcases Except.bind_eq_error.mp hrun with hstop | ⟨s', hs', hrest⟩
      · exact herror hs hstop
      · exact ih (hstep hs hs') hrest

/-- A measure that grows just at the steps that break the guard is where it was just
when the run meets the guard. -/
theorem run_measure {f : σ → Nat} {guard : σ → ε → Prop} (Inv : σ → Prop)
    (hstep : ∀ {s e s'}, Inv s → step s e = .ok s' →
      Inv s' ∧ (guard s e → f s' = f s) ∧ (¬ guard s e → f s < f s'))
    {s t : σ} {es : List ε} (hs : Inv s) (hrun : run step s es = .ok t) :
    f s ≤ f t ∧ (f t = f s ↔ Meets step guard s es) := by
  induction es generalizing s with
  | nil =>
      cases hrun
      exact ⟨Nat.le_refl _, iff_of_true rfl trivial⟩
  | cons e es ih =>
      obtain ⟨s', hs', hrest⟩ := run_cons_eq_ok.mp hrun
      obtain ⟨hinv, hkept, hgrows⟩ := hstep hs hs'
      obtain ⟨hle, hiff⟩ := ih hinv hrest
      by_cases hg : guard s e
      · rw [hkept hg] at hle hiff
        refine ⟨hle, hiff.trans ⟨fun hm => .cons_of_ok hg hs' hm, fun hm => hm.2 s' hs'⟩⟩
      · have hlt := hgrows hg
        exact ⟨by omega, iff_of_false (by omega) fun hm => hg hm.1⟩

/-- Taking one event again and again ends where it is to end, if each time it
lowers a measure. -/
theorem run_until {α : Type*} [WellFoundedRelation α] (m : σ → α) (Inv done : σ → Prop) (e : ε)
    (hstep : ∀ {s}, Inv s → ¬ done s →
      ∃ s', step s e = .ok s' ∧ Inv s' ∧ WellFoundedRelation.rel (m s') (m s))
    {s : σ} (hs : Inv s) :
    ∃ n t, run step s (List.replicate n e) = .ok t ∧ Inv t ∧ done t := by
  by_cases hdone : done s
  · exact ⟨0, s, rfl, hs, hdone⟩
  · obtain ⟨s', hs', hinv, hlt⟩ := hstep hs hdone
    obtain ⟨n, t, hrun, ht⟩ := run_until m Inv done e hstep hinv
    exact ⟨n + 1, t, run_cons_eq_ok.mpr ⟨s', hs', hrun⟩, ht⟩
termination_by m s

/-- A run that returns and does not meet its guard has a first step that breaks it. -/
theorem exists_first_unmet {guard : σ → ε → Prop} {s t : σ} {es : List ε}
    (hrun : run step s es = .ok t) (hm : ¬ Meets step guard s es) :
    ∃ pre e post s₁ s₂, es = pre ++ e :: post ∧ Meets step guard s pre ∧
      run step s pre = .ok s₁ ∧ ¬ guard s₁ e ∧ step s₁ e = .ok s₂ ∧
      run step s₂ post = .ok t := by
  induction es generalizing s with
  | nil => exact absurd trivial hm
  | cons e es ih =>
      obtain ⟨s', hs', hrest⟩ := run_cons_eq_ok.mp hrun
      by_cases hg : guard s e
      · have hm' : ¬ Meets step guard s' es := fun hm' =>
          hm ⟨hg, fun s'' hs'' => by cases hs'.symm.trans hs''; exact hm'⟩
        obtain ⟨pre, e', post, s₁, s₂, rfl, hpre, hrun₁, hng, hstep, hpost⟩ := ih hrest hm'
        refine ⟨e :: pre, e', post, s₁, s₂, rfl, ⟨hg, fun s'' hs'' => ?_⟩, ?_, hng, hstep, hpost⟩
        · cases hs'.symm.trans hs''
          exact hpre
        · exact run_cons_eq_ok.mpr ⟨s', hs', hrun₁⟩
      · exact ⟨[], e, es, s, s', rfl, trivial, rfl, hg, hs', hrest⟩

/-- Run a list of events and test the guard at every step on the way. -/
def runChecked (step : σ → ε → Except τ σ) (guard : σ → ε → Prop)
    [∀ s e, Decidable (guard s e)] : σ → List ε → Option σ
  | s, [] => some s
  | s, e :: es =>
    if guard s e then
      match step s e with
      | .ok s' => runChecked step guard s' es
      | .error _ => none
    else none

theorem runChecked_eq_some {guard : σ → ε → Prop} [∀ s e, Decidable (guard s e)] {s t : σ}
    {es : List ε} (h : runChecked step guard s es = some t) :
    Meets step guard s es ∧ run step s es = .ok t := by
  induction es generalizing s with
  | nil =>
      cases h
      exact ⟨trivial, rfl⟩
  | cons e es ih =>
      rw [runChecked] at h
      split at h
      · rename_i hg
        split at h
        · rename_i s' hstep
          obtain ⟨hm, hrun⟩ := ih h
          exact ⟨.cons_of_ok hg hstep hm, run_cons_eq_ok.mpr ⟨s', hstep, hrun⟩⟩
        · cases h
      · cases h

end Run
