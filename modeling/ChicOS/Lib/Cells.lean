-- SUMMARY: What the cells of a fixed-size array hold, taken together: storing a cell, and closing a gap.
import Mathlib.Data.List.Flatten
import Mathlib.Data.List.Perm.Subperm
import Mathlib.Data.Vector.Basic

/-!
# What the cells of an array hold

Each cell of an array holds some items. `held f v` lists the items of all cells;
storing into a cell exchanges what that cell held, and moving the cells after a
gap one place down loses what the gap held.
-/

universe u v

namespace Cells

variable {α : Type u} {β : Type v} {N : Nat} {f : α → List β}

/-- What all cells hold. -/
def held (f : α → List β) (v : Vector α N) : List β := v.toList.flatMap f

theorem mem_held {v : Vector α N} {b : β} :
    b ∈ held f v ↔ ∃ (i : Nat) (hi : i < N), b ∈ f v[i] := by
  rw [held, List.mem_flatMap]
  constructor
  · rintro ⟨a, ha, hb⟩
    obtain ⟨i, hi, rfl⟩ := List.mem_iff_getElem.mp ha
    exact ⟨i, by simpa using hi, by simpa using hb⟩
  · rintro ⟨i, hi, hb⟩
    exact ⟨v[i], by simp, hb⟩

/-- Cells that hold nothing. -/
theorem held_eq_nil {v : Vector α N} (h : ∀ (i : Nat) (hi : i < N), f v[i] = []) :
    held f v = [] := by
  apply List.eq_nil_iff_forall_not_mem.mpr
  intro b hb
  obtain ⟨i, hi, hmem⟩ := mem_held.mp hb
  rw [h i hi] at hmem
  cases hmem

/-- What all cells but one hold. -/
def others (f : α → List β) (v : Vector α N) (i : Nat) : List β := (v.toList.eraseIdx i).flatMap f

/-- What one cell holds, and what the others do. -/
theorem held_perm (v : Vector α N) {i : Nat} (hi : i < N) :
    (held f v).Perm (f v[i] ++ others f v i) := by
  have hlen : i < v.toList.length := by simpa using hi
  have hperm := (List.getElem_cons_eraseIdx_perm hlen).symm.flatMap_right f
  simpa [held, others] using hperm

/-- Storing exchanges what the cell held. -/
theorem held_set_perm (v : Vector α N) {i : Nat} (hi : i < N) (a : α) :
    (held f (v.set i a)).Perm (f a ++ others f v i) := by
  have hlen : i < v.toList.length := by simpa using hi
  have hperm := (List.set_perm_cons_eraseIdx hlen a).flatMap_right f
  simpa [held, others, Vector.toList_set] using hperm

/-- A cell that holds the same keeps all as it is. -/
theorem held_set_of_eq (v : Vector α N) {i : Nat} (hi : i < N) {a : α} (ha : f a = f v[i]) :
    (held f (v.set i a)).Perm (held f v) := by
  have hset := held_set_perm (f := f) v hi a
  rw [ha] at hset
  exact hset.trans (held_perm v hi).symm

/-- A cell that holds nothing any more loses what it held. -/
theorem held_set_subperm (v : Vector α N) {i : Nat} (hi : i < N) {a : α} (ha : f a = []) :
    (held f (v.set i a)).Subperm (held f v) := by
  have hset := held_set_perm (f := f) v hi a
  rw [ha, List.nil_append] at hset
  have hothers : (others f v i).Sublist (f v[i] ++ others f v i) := List.sublist_append_right _ _
  exact hset.subperm.trans (hothers.subperm.trans (held_perm v hi).symm.subperm)

/-- Moving the cells after a gap one place down, when the last cell holds nothing. -/
theorem held_shift_sublist (v w : Vector α N) {i last : Nat} (hi : i < N) (hlast : last + 1 = N)
    (h : ∀ (j : Nat) (hj : j < N), w[j] = if hlt : i ≤ j ∧ j + 1 < N then v[j + 1] else v[j])
    (hnil : f v[last] = []) : (held f w).Sublist (held f v) := by
  have hsplit : w.toList = v.toList.eraseIdx i ++ [v[last]] := by
    apply List.ext_getElem
    · simp [List.length_eraseIdx, hi]
      omega
    · intro j hj hj'
      have hjN : j < N := by simpa using hj
      have hlen : (v.toList.eraseIdx i).length = last := by
        simp [List.length_eraseIdx, hi]
        omega
      rw [Vector.getElem_toList, h j hjN]
      by_cases hjlast : j < last
      · rw [List.getElem_append_left (by omega), List.getElem_eraseIdx]
        by_cases hij : j < i
        · rw [dif_neg (by omega), dif_pos hij, Vector.getElem_toList]
        · rw [dif_pos (by omega), dif_neg hij, Vector.getElem_toList]
      · have hjeq : j = last := by omega
        subst hjeq
        rw [dif_neg (by omega), List.getElem_append_right (by omega), List.getElem_singleton]
  rw [held, hsplit, List.flatMap_append, List.flatMap_singleton, hnil, List.append_nil]
  exact (List.eraseIdx_sublist _ i).flatMap f

end Cells
