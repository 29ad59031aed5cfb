-- SUMMARY: Registries: a bounded list that each name enters once, in the order the names come.
import Mathlib.Data.Finset.Card
import Mathlib.Data.List.Induction

/-!
# Registries

A registry has `cap` places. A name that comes and is not there yet takes the next of
them; when all are taken it is turned away. One name, `free`, marks the places that
nobody has taken: it counts as there already, so it never enters.

Everybody who came is in the registry exactly when the names that came are no more than
the places, and `free` was none of them.
-/

namespace Registry

variable {α : Type*} [DecidableEq α] {cap : Nat} {free a : α} {names came : List α}

/-- A name comes. -/
def enter (cap : Nat) (free : α) (names : List α) (a : α) : List α :=
  if a = free ∨ a ∈ names ∨ cap ≤ names.length then names else names ++ [a]

/-- What is in the registry after some names have come, one behind the other. -/
def entered (cap : Nat) (free : α) (came : List α) : List α := came.foldl (enter cap free) []

/-! ## One name -/

theorem enter_turned_away (h : a = free ∨ a ∈ names ∨ cap ≤ names.length) :
    enter cap free names a = names := if_pos h

theorem enter_new (hfree : a ≠ free) (hnew : a ∉ names) (hroom : names.length < cap) :
    enter cap free names a = names ++ [a] :=
  if_neg (not_or.mpr ⟨hfree, not_or.mpr ⟨hnew, Nat.not_le_of_lt hroom⟩⟩)

theorem prefix_enter (cap : Nat) (free : α) (names : List α) (a : α) :
    names <+: enter cap free names a := by
  unfold enter
  split
  · exact List.prefix_refl _
  · exact List.prefix_append ..

theorem mem_enter_of_mem {b : α} (h : b ∈ names) : b ∈ enter cap free names a :=
  (prefix_enter cap free names a).subset h

/-! ## One behind the other -/

theorem entered_concat (came : List α) (a : α) :
    entered cap free (came ++ [a]) = enter cap free (entered cap free came) a := by
  rw [entered, List.foldl_append]
  rfl

theorem entered_subset (cap : Nat) (free : α) (came : List α) : entered cap free came ⊆ came := by
  induction came using List.reverseRecOn with
  | nil => exact List.nil_subset _
  | append_singleton came a ih =>
      have hold : entered cap free came ⊆ came ++ [a] := fun b hb => List.mem_append_left _ (ih hb)
      rw [entered_concat, enter]
      split
      · exact hold
      · exact List.append_subset.mpr ⟨hold, List.subset_append_right ..⟩

theorem nodup_entered (cap : Nat) (free : α) (came : List α) : (entered cap free came).Nodup := by
  induction came using List.reverseRecOn with
  | nil => exact List.nodup_nil
  | append_singleton came a ih =>
      rw [entered_concat, enter]
      split
      · exact ih
      · rename_i hnew
        have hnew : a ∉ entered cap free came := fun h => hnew (.inr (.inl h))
        exact ih.append (List.nodup_singleton a) (List.disjoint_singleton.mpr hnew)

theorem free_notMem_entered (cap : Nat) (free : α) (came : List α) :
    free ∉ entered cap free came := by
  induction came using List.reverseRecOn with
  | nil => exact List.not_mem_nil
  | append_singleton came a ih =>
      rw [entered_concat, enter]
      split
      · exact ih
      · rename_i hnew
        rw [List.mem_append, List.mem_singleton]
        rintro (h | h)
        · exact ih h
        · exact hnew (.inl h.symm)

theorem length_entered_le (cap : Nat) (free : α) (came : List α) :
    (entered cap free came).length ≤ cap := by
  induction came using List.reverseRecOn with
  | nil => exact Nat.zero_le _
  | append_singleton came a ih =>
      rw [entered_concat, enter]
      split
      · exact ih
      · rename_i hnew
        rw [List.length_append, List.length_singleton]
        exact Nat.lt_of_not_le fun h => hnew (.inr (.inr h))

/-- Who came is there, or nobody can enter any more. -/
theorem mem_entered_or_full (ha : a ∈ came) (hfree : a ≠ free) :
    a ∈ entered cap free came ∨ (entered cap free came).length = cap := by
  induction came using List.reverseRecOn with
  | nil => exact absurd ha List.not_mem_nil
  | append_singleton came b ih =>
      rw [entered_concat]
      by_cases hroom : (entered cap free came).length < cap
      · -- there was a place left, so who came before is there
        refine .inl ?_
        rcases List.mem_append.mp ha with hold | hlast
        · exact mem_enter_of_mem ((ih hold).resolve_right (Nat.ne_of_lt hroom))
        · obtain rfl := List.mem_singleton.mp hlast
          by_cases hthere : a ∈ entered cap free came
          · exact mem_enter_of_mem hthere
          · rw [enter_new hfree hthere hroom]
            exact List.mem_append_right _ (List.mem_singleton_self a)
      · have hfull : cap ≤ (entered cap free came).length := Nat.le_of_not_lt hroom
        rw [enter_turned_away (.inr (.inr hfull))]
        exact .inr (Nat.le_antisymm (length_entered_le cap free came) hfull)

/-! ## When everybody is there -/

theorem toFinset_entered_subset (cap : Nat) (free : α) (came : List α) :
    (entered cap free came).toFinset ⊆ came.toFinset := fun _ ha =>
  List.mem_toFinset.mpr (entered_subset cap free came (List.mem_toFinset.mp ha))

theorem length_entered (h : came ⊆ entered cap free came) :
    (entered cap free came).length = came.toFinset.card := by
  have hall : came.toFinset ⊆ (entered cap free came).toFinset := fun _ ha =>
    List.mem_toFinset.mpr (h (List.mem_toFinset.mp ha))
  rw [← List.toFinset_card_of_nodup (nodup_entered cap free came),
    (toFinset_entered_subset cap free came).antisymm hall]

/-- Everybody is there just if there were places for all. -/
theorem subset_entered_iff :
    came ⊆ entered cap free came ↔ free ∉ came ∧ came.toFinset.card ≤ cap := by
  constructor
  · intro h
    refine ⟨fun hfree => free_notMem_entered cap free came (h hfree), ?_⟩
    rw [← length_entered h]
    exact length_entered_le cap free came
  · rintro ⟨hfree, hcard⟩ a ha
    refine (mem_entered_or_full ha (ne_of_mem_of_not_mem ha hfree)).elim id fun hfull => ?_
    -- as many as there are places, and nobody else came
    have hlength : came.toFinset.card ≤ (entered cap free came).toFinset.card := by
      rw [List.toFinset_card_of_nodup (nodup_entered cap free came), hfull]
      exact hcard
    have hsame := Finset.eq_of_subset_of_card_le (toFinset_entered_subset cap free came) hlength
    rw [← List.mem_toFinset, hsame]
    exact List.mem_toFinset.mpr ha

end Registry
