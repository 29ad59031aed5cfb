-- SUMMARY: A family of first-in first-out queues in which every item stands at most once.
import Mathlib.Data.List.Nodup
import Mathlib.Logic.Function.Basic

/-!
# Queues side by side

Items arrive at the end of one of several queues and leave from its front. `Once`
says that no item stands in two places; arrivals of items that stand nowhere, and
departures, keep it. `InOrder` compares the items that have arrived at each queue
with those that have left it: the latter are the first of the former.
-/

universe u v

namespace Fifos

variable {ι : Type u} {α : Type v} {q : ι → List α} {i j : ι} {a b : α}

/-- Every item stands in at most one queue, and there once. -/
structure Once (q : ι → List α) : Prop where
  nodup : ∀ i, (q i).Nodup
  disjoint : ∀ {i j a}, a ∈ q i → a ∈ q j → i = j

theorem Once.of_nil (h : ∀ i, q i = []) : Once q where
  nodup i := by
    rw [h]
    exact List.nodup_nil
  disjoint {i _ _} ha _ := by
    rw [h] at ha
    exact absurd ha List.not_mem_nil

/-- What has arrived at a queue has left it, or stands in it. -/
def InOrder (arrived left q : ι → List α) : Prop := ∀ i, arrived i = left i ++ q i

variable [DecidableEq ι]

/-- An item arrives at the end of a queue. -/
def push (q : ι → List α) (i : ι) (a : α) : ι → List α := Function.update q i (q i ++ [a])

/-- The first item of a queue leaves. -/
def pop (q : ι → List α) (i : ι) : ι → List α := Function.update q i (q i).tail

@[simp] theorem push_self (q : ι → List α) (i : ι) (a : α) : push q i a i = q i ++ [a] :=
  Function.update_self ..

theorem push_of_ne (h : j ≠ i) : push q i a j = q j := Function.update_of_ne h ..

@[simp] theorem pop_self (q : ι → List α) (i : ι) : pop q i i = (q i).tail :=
  Function.update_self ..

theorem pop_of_ne (h : j ≠ i) : pop q i j = q j := Function.update_of_ne h ..

theorem mem_push : b ∈ push q i a j ↔ b ∈ q j ∨ (j = i ∧ b = a) := by
  by_cases h : j = i
  · subst h
    simp
  · rw [push_of_ne h]
    exact ⟨.inl, fun hb => hb.elim id fun hc => absurd hc.1 h⟩

/-- The item that leaves is gone, and the others stay. -/
theorem Once.mem_pop {rest : List α} (h : Once q) (hq : q i = a :: rest) :
    b ∈ pop q i j ↔ b ∈ q j ∧ b ≠ a := by
  have hnodup := h.nodup i
  rw [hq, List.nodup_cons] at hnodup
  by_cases hji : j = i
  · subst hji
    rw [pop_self, hq, List.tail_cons, List.mem_cons]
    constructor
    · intro hb
      refine ⟨.inr hb, ?_⟩
      rintro rfl
      exact hnodup.1 hb
    · rintro ⟨hb | hb, hne⟩
      · exact absurd hb hne
      · exact hb
  · rw [pop_of_ne hji]
    refine ⟨fun hb => ⟨hb, ?_⟩, And.left⟩
    rintro rfl
    exact hji (h.disjoint hb (by rw [hq]; exact List.mem_cons_self))

/-- An item arrives that stands nowhere. -/
theorem Once.push (h : Once q) (hnew : ∀ j, a ∉ q j) : Once (push q i a) := by
  refine ⟨fun j => ?_, fun {j k b} hj hk => ?_⟩
  · by_cases hji : j = i
    · subst hji
      rw [push_self]
      exact (h.nodup j).append (List.nodup_singleton a) (List.disjoint_singleton.mpr (hnew j))
    · rw [push_of_ne hji]
      exact h.nodup j
  · rw [mem_push] at hj hk
    rcases hj with hj | ⟨rfl, rfl⟩
    · rcases hk with hk | ⟨rfl, rfl⟩
      · exact h.disjoint hj hk
      · exact absurd hj (hnew j)
    · rcases hk with hk | ⟨rfl, -⟩
      · exact absurd hk (hnew k)
      · rfl

theorem Once.pop {rest : List α} (h : Once q) (hq : q i = a :: rest) : Once (pop q i) := by
  refine ⟨fun j => ?_, fun hj hk => ?_⟩
  · by_cases hji : j = i
    · subst hji
      rw [pop_self]
      exact (h.nodup j).tail
    · rw [pop_of_ne hji]
      exact h.nodup j
  · exact h.disjoint ((h.mem_pop hq).mp hj).1 ((h.mem_pop hq).mp hk).1

theorem InOrder.push {arrived left : ι → List α} (h : InOrder arrived left q) :
    InOrder (push arrived i a) left (push q i a) := by
  intro j
  by_cases hji : j = i
  · subst hji
    rw [push_self, push_self, h j, List.append_assoc]
  · rw [push_of_ne hji, push_of_ne hji]
    exact h j

theorem InOrder.pop {arrived left : ι → List α} {rest : List α} (h : InOrder arrived left q)
    (hq : q i = a :: rest) : InOrder arrived (Fifos.push left i a) (Fifos.pop q i) := by
  intro j
  by_cases hji : j = i
  · subst hji
    rw [push_self, pop_self, h j, hq, List.append_assoc]
    rfl
  · rw [push_of_ne hji, pop_of_ne hji]
    exact h j

end Fifos
