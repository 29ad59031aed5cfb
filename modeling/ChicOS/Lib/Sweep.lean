-- SUMMARY: A loop that deletes from the table it scans: what it leaves, and when that is everything else.
import Mathlib.Data.List.Chain
import Mathlib.Data.List.Basic

/-!
# Deleting while scanning

A table holds a list, and behind it unused entries. A loop over the indices of the
table deletes the elements with some property: those behind a deleted one move one
place down. The next of them is then where the loop has been, and is not looked
at. So the loop leaves `sweep`, and that is all the other elements just when no two
neighbours are to be deleted.
-/

variable {α : Type*}

/-- What deleting while scanning leaves: the element behind a deleted one stays. -/
def List.sweep (p : α → Prop) [DecidablePred p] : List α → List α
  | [] => []
  | [a] => if p a then [] else [a]
  | a :: b :: l => if p a then b :: sweep p l else a :: sweep p (b :: l)

namespace List

variable {p : α → Prop}

/-- An element that stays does not matter to its neighbour. -/
theorem isChain_cons_of_not {a : α} {l : List α} (ha : ¬ p a) :
    (a :: l).IsChain (fun b c => ¬ (p b ∧ p c)) ↔ l.IsChain (fun b c => ¬ (p b ∧ p c)) := by
  cases l with
  | nil => simp
  | cons b l => simp [isChain_cons_cons, ha]

variable [DecidablePred p]

theorem sweep_cons_of_not {a : α} {l : List α} (ha : ¬ p a) : (a :: l).sweep p = a :: l.sweep p := by
  cases l with
  | nil => simp [sweep, ha]
  | cons b l => rw [sweep, if_neg ha]

theorem sweep_cons_cons_of {a b : α} {l : List α} (ha : p a) :
    (a :: b :: l).sweep p = b :: l.sweep p := by
  rw [sweep, if_pos ha]

theorem sweep_singleton_of {a : α} (ha : p a) : [a].sweep p = [] := by
  rw [sweep, if_pos ha]

/-- All that is to stay is left, and nothing else, just when no two neighbours are
to be deleted. -/
theorem sweep_eq_filter_iff {l : List α} :
    l.sweep p = l.filter (fun a => ¬ p a) ↔ l.IsChain (fun a b => ¬ (p a ∧ p b)) := by
  fun_induction sweep p l with
  | case1 => simp
  | case2 a ha => simp [ha]
  | case3 a ha => simp [ha]
  | case4 a b l ha ih =>
      rw [isChain_cons_cons]
      by_cases hb : p b
      · -- the second of two neighbours is still there
        refine iff_of_false (fun heq => ?_) fun hchain => hchain.1 ⟨ha, hb⟩
        have hmem : b ∈ (a :: b :: l).filter (fun c => ¬ p c) := heq ▸ mem_cons_self
        exact of_decide_eq_true (mem_filter.mp hmem).2 hb
      · have hfilter : (a :: b :: l).filter (fun c => ¬ p c) = b :: l.filter (fun c => ¬ p c) := by
          simp [ha, hb]
        rw [hfilter, isChain_cons_of_not hb, cons_inj_right, ih]
        simp [hb]
  | case5 a b l ha ih =>
      have hfilter : (a :: b :: l).filter (fun c => ¬ p c)
          = a :: (b :: l).filter (fun c => ¬ p c) := by
        rw [filter_cons, if_pos (decide_eq_true ha)]
      rw [hfilter, isChain_cons_of_not ha, cons_inj_right, ih]

end List

/-! ## The loop -/

/-- After the turns for the indices below `i`, on a table that first held `l`: the
first `n` entries of the table are in use. -/
structure Sweeping (p unused : α → Prop) [DecidablePred p] (l : List α) (i : Nat) (table : List α)
    (n : Nat) : Prop where
  split : ∃ seen rest tail, table = seen ++ rest ++ tail ∧ n = seen.length + rest.length ∧
    (rest = [] ∨ seen.length = i) ∧ seen.length ≤ i ∧ tail ≠ [] ∧ (∀ a ∈ tail, unused a) ∧
    seen ++ rest.sweep p = l.sweep p

namespace Sweeping

variable {p unused : α → Prop} [DecidablePred p] {l table tail : List α} {i n : Nat} {a z : α}

theorem start (htail : tail ≠ []) (hunused : ∀ a ∈ tail, unused a) :
    Sweeping p unused l 0 (l ++ tail) l.length :=
  ⟨[], l, tail, rfl, (Nat.zero_add _).symm, .inr rfl, Nat.le_refl 0, htail, hunused, rfl⟩

/-- An entry that stays. -/
theorem keep (h : Sweeping p unused l i table n) (ha : table[i]? = some a) (hp : ¬ p a) :
    Sweeping p unused l (i + 1) table n := by
  obtain ⟨seen, rest, tail, rfl, rfl, hat, hle, htail, hunused, hsweep⟩ := h.split
  cases rest with
  | nil => exact ⟨seen, [], tail, rfl, rfl, .inl rfl, Nat.le_succ_of_le hle, htail, hunused, hsweep⟩
  | cons b rest =>
      obtain rfl := hat.resolve_left (List.cons_ne_nil b rest)
      have hb : b = a := by simpa using ha
      subst hb
      rw [List.sweep_cons_of_not hp] at hsweep
      refine ⟨seen ++ [b], rest, tail, by simp, ?_, .inr (by simp), by simp, htail, hunused, ?_⟩
      · simp only [List.length_append, List.length_cons, List.length_nil]
        omega
      · simpa using hsweep

/-- An entry that is deleted: those behind it move down, and the last one stays where
it is. -/
theorem delete (h : Sweeping p unused l i table n) (hfree : ∀ a, unused a → ¬ p a)
    (ha : table[i]? = some a) (hp : p a) (hz : table.getLast? = some z) :
    0 < n ∧ Sweeping p unused l (i + 1) (table.eraseIdx i ++ [z]) (n - 1) := by
  obtain ⟨seen, rest, tail, rfl, rfl, hat, hle, htail, hunused, hsweep⟩ := h.split
  have hz : tail.getLast? = some z := by
    rwa [List.getLast?_append_of_ne_nil _ htail] at hz
  have hzmem : unused z := hunused z (List.mem_of_getLast? hz)
  have htail' : ∀ b ∈ tail ++ [z], unused b := by
    intro b hb
    rcases List.mem_append.mp hb with hb | hb
    · exact hunused b hb
    · exact List.mem_singleton.mp hb ▸ hzmem
  cases rest with
  | nil =>
      -- the index is among the unused entries
      have hmem : a ∈ tail := by
        rw [List.append_nil, List.getElem?_append_right hle] at ha
        exact List.mem_of_getElem? ha
      exact absurd hp (hfree a (hunused a hmem))
  | cons b rest =>
      obtain rfl := hat.resolve_left (List.cons_ne_nil b rest)
      have hb : b = a := by simpa using ha
      subst hb
      have herase : (seen ++ b :: rest ++ tail).eraseIdx seen.length ++ [z]
          = seen ++ rest ++ (tail ++ [z]) := by
        rw [List.append_assoc, List.eraseIdx_append_of_length_le (Nat.le_refl _)]
        simp
      refine ⟨Nat.lt_add_left _ (Nat.succ_pos _), ?_⟩
      rw [herase]
      cases rest with
      | nil =>
          rw [List.sweep_singleton_of hp] at hsweep
          exact ⟨seen, [], tail ++ [z], rfl, by simp, .inl rfl, Nat.le_succ _, by simp, htail', hsweep⟩
      | cons c rest =>
          rw [List.sweep_cons_cons_of hp] at hsweep
          refine ⟨seen ++ [c], rest, tail ++ [z], by simp, ?_, .inr (by simp), by simp, by simp,
            htail', ?_⟩
          · simp only [List.length_append, List.length_cons, List.length_nil]
            omega
          · simpa using hsweep

/-- When the loop has been through the table, the list is swept. -/
theorem finish (h : Sweeping p unused l i table n) (hi : table.length ≤ i) :
    n = (l.sweep p).length ∧ ∃ tail, table = l.sweep p ++ tail ∧ ∀ a ∈ tail, unused a := by
  obtain ⟨seen, rest, tail, htable, rfl, hat, hle, htail, hunused, hsweep⟩ := h.split
  have hrest : rest = [] := by
    refine hat.resolve_right fun hlen => htail ?_
    have hlength := congrArg List.length htable
    simp only [List.length_append] at hlength
    exact List.eq_nil_of_length_eq_zero (by omega)
  subst hrest
  rw [List.append_nil] at htable
  have hseen : seen = l.sweep p := by
    rw [← hsweep]
    exact (List.append_nil seen).symm
  rw [← hseen]
  exact ⟨rfl, tail, htable, hunused⟩

end Sweeping
