-- SUMMARY: Trimming a list at both ends: the result, that it exists, and that it is the only one.
import Mathlib.Data.List.DropRight

/-!
# Trimming

`Trims p s t` says that `t` is `s` without the elements at its two ends that
satisfy `p`. Every list has exactly one such `t`, which `trim` computes, and what
is trimmed already stays as it is.
-/

universe u

namespace Trim

variable {α : Type u} {p : α → Bool} {s t front back : List α}

/-- `t` is `s` without what satisfies `p` at its ends. -/
structure Trims (p : α → Bool) (s t : List α) : Prop where
  split : ∃ front back, s = front ++ t ++ back ∧
    (∀ x ∈ front, p x = true) ∧ ∀ x ∈ back, p x = true
  head : ∀ x ∈ t.head?, p x = false
  last : ∀ x ∈ t.getLast?, p x = false

def trim (p : α → Bool) (s : List α) : List α := (s.rdropWhile p).dropWhile p

/-- What satisfies `p` at the back goes whole. -/
theorem rdropWhile_append (hback : ∀ x ∈ back, p x = true) :
    (s ++ back).rdropWhile p = s.rdropWhile p := by
  have hrev : ∀ x ∈ back.reverse, p x = true := fun x hx => hback x (List.mem_reverse.mp hx)
  rw [List.rdropWhile, List.reverse_append, List.dropWhile_append_of_pos hrev, List.rdropWhile]

theorem rdropWhile_eq_self (hlast : ∀ x ∈ t.getLast?, p x = false) : t.rdropWhile p = t := by
  refine List.rdropWhile_eq_self_iff.mpr fun hne hp => ?_
  have hnot := hlast _ (List.getLast?_eq_some_getLast hne)
  rw [hp] at hnot
  cases hnot

theorem dropWhile_eq_self (hhead : ∀ x ∈ t.head?, p x = false) : t.dropWhile p = t := by
  cases t with
  | nil => rfl
  | cons x t => rw [List.dropWhile_cons_of_neg (by simp [hhead x rfl])]

/-- What is left when the front goes ends as the list did. -/
theorem getLast?_of_dropWhile {x : α} (hx : (t.dropWhile p).getLast? = some x) :
    t.getLast? = some x := by
  rw [← List.takeWhile_append_dropWhile (p := p) (l := t), List.getLast?_append, hx]
  rfl

theorem trims_trim (p : α → Bool) (s : List α) : Trims p s (trim p s) where
  split := by
    refine ⟨(s.rdropWhile p).takeWhile p, s.rtakeWhile p, ?_, ?_, ?_⟩
    · rw [trim, List.takeWhile_append_dropWhile, List.rdropWhile_append_rtakeWhile]
    · intro x hx
      exact List.mem_takeWhile_imp hx
    · intro x hx
      exact List.mem_rtakeWhile_imp hx
  head := by
    intro x hx
    have hhead := List.head?_dropWhile_not p (s.rdropWhile p)
    have hsome : ((s.rdropWhile p).dropWhile p).head? = some x := hx
    rw [hsome] at hhead
    exact hhead
  last := by
    intro x hx
    have hlast : (s.rdropWhile p).getLast? = some x := getLast?_of_dropWhile hx
    have hne : s.rdropWhile p ≠ [] := by
      intro hnil
      rw [hnil] at hlast
      cases hlast
    have hnot := List.rdropWhile_last_not p s hne
    rw [List.getLast?_eq_some_getLast hne, Option.some.injEq] at hlast
    rw [hlast] at hnot
    simpa using hnot

/-- There is one way to trim a list. -/
theorem Trims.eq_trim (h : Trims p s t) : t = trim p s := by
  obtain ⟨front, back, rfl, hfront, hback⟩ := h.split
  rw [trim, rdropWhile_append hback]
  cases t with
  | nil =>
      have hnil : front.rdropWhile p = [] :=
        List.rdropWhile_eq_nil_iff.mpr hfront
      rw [List.append_nil, hnil]
      rfl
  | cons x t =>
      have hkeep : (front ++ x :: t).rdropWhile p = front ++ x :: t := by
        refine rdropWhile_eq_self fun y hy => h.last y ?_
        rw [List.getLast?_append_cons] at hy
        exact hy
      rw [hkeep, List.dropWhile_append_of_pos hfront, dropWhile_eq_self h.head]

theorem Trims.unique {t' : List α} (h : Trims p s t) (h' : Trims p s t') : t = t' :=
  h.eq_trim.trans h'.eq_trim.symm

/-- A list without `p` at its ends stays as it is. -/
theorem Trims.refl (hhead : ∀ x ∈ t.head?, p x = false) (hlast : ∀ x ∈ t.getLast?, p x = false) :
    Trims p t t where
  split := ⟨[], [], by simp, by simp, by simp⟩
  head := hhead
  last := hlast

theorem Trims.length_le (h : Trims p s t) : t.length ≤ s.length := by
  obtain ⟨front, back, rfl, -, -⟩ := h.split
  simp only [List.length_append]
  omega

theorem Trims.mem (h : Trims p s t) {x : α} (hx : x ∈ t) : x ∈ s := by
  obtain ⟨front, back, rfl, -, -⟩ := h.split
  exact List.mem_append_left back (List.mem_append_right front hx)

end Trim
