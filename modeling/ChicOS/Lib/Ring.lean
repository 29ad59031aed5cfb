-- SUMMARY: Ring buffers of a fixed number of cells, and the first-in first-out list they hold.
import Mathlib.Data.List.Basic
import Mathlib.Data.List.Range
import Mathlib.Logic.Function.Basic

/-!
# Ring buffers

A ring of `n` cells keeps the index of its oldest entry (`head`) and the index
one past its newest (`tail`), both modulo `n`; it is empty when they meet, so it
holds at most `n - 1` entries. `contents` is the list it holds, oldest first.
Pushing at the tail appends to that list and popping at the head takes its first
element, whatever the two indices are and however often they have wrapped.
-/

namespace Ring

variable {α : Type*} {n head tail : Nat}

/-- The number of entries. -/
def size (n head tail : Nat) : Nat := (tail + n - head) % n

/-- The entries, oldest first. -/
def contents (buf : Nat → α) (n head tail : Nat) : List α :=
  (List.range (size n head tail)).map fun k => buf ((head + k) % n)

/-- An index advanced by less than a full turn wraps at most once. -/
theorem add_mod_of_lt {a k : Nat} (ha : a < n) (hk : k < n) :
    (a + k) % n = if a + k < n then a + k else a + k - n := by
  split
  · rename_i h
    exact Nat.mod_eq_of_lt h
  · rename_i h
    rw [Nat.mod_eq_sub_mod (by omega), Nat.mod_eq_of_lt (by omega)]

theorem size_eq (hh : head < n) (ht : tail < n) :
    size n head tail = if head ≤ tail then tail - head else tail + n - head := by
  unfold size
  split
  · rename_i h
    rw [show tail + n - head = (tail - head) + n by omega, Nat.add_mod_right,
      Nat.mod_eq_of_lt (by omega)]
  · rename_i h
    exact Nat.mod_eq_of_lt (by omega)

theorem size_lt (hh : head < n) (tail : Nat) : size n head tail < n := Nat.mod_lt _ (by omega)

theorem size_eq_zero (hh : head < n) (ht : tail < n) : size n head tail = 0 ↔ head = tail := by
  rw [size_eq hh ht]
  split <;> omega

/-- The tail is the index `size` places after the head. -/
theorem add_size_mod (hh : head < n) (ht : tail < n) : (head + size n head tail) % n = tail := by
  rw [add_mod_of_lt hh (size_lt hh tail), size_eq hh ht]
  split <;> split <;> omega

theorem succ_mod_lt (h : head < n) : (head + 1) % n < n := Nat.mod_lt _ (by omega)

/-- The ring is full when one more entry would make it look empty. -/
theorem full_iff (hh : head < n) (ht : tail < n) :
    (tail + 1) % n = head ↔ size n head tail + 1 = n := by
  rw [size_eq hh ht]
  by_cases htn : tail + 1 < n
  · rw [Nat.mod_eq_of_lt htn]
    split <;> omega
  · have htn' : tail + 1 = n := by omega
    rw [htn', Nat.mod_self]
    split <;> omega

theorem size_push (hh : head < n) (ht : tail < n) (hroom : (tail + 1) % n ≠ head) :
    size n head ((tail + 1) % n) = size n head tail + 1 := by
  have hfull := mt (full_iff hh ht).mpr hroom
  have hlt := size_lt hh tail
  rw [size_eq hh ht] at hfull hlt ⊢
  rw [size_eq hh (succ_mod_lt ht)]
  by_cases htn : tail + 1 < n
  · rw [Nat.mod_eq_of_lt htn]
    split at hfull <;> split <;> omega
  · have htn' : tail + 1 = n := by omega
    rw [htn', Nat.mod_self] at hroom ⊢
    split at hfull <;> split <;> omega

theorem size_pop (hh : head < n) (ht : tail < n) (hne : head ≠ tail) :
    size n ((head + 1) % n) tail + 1 = size n head tail := by
  rw [size_eq hh ht, size_eq (succ_mod_lt hh) ht]
  by_cases hhn : head + 1 < n
  · rw [Nat.mod_eq_of_lt hhn]
    split <;> split <;> omega
  · have hhn' : head + 1 = n := by omega
    rw [hhn', Nat.mod_self]
    split <;> split <;> omega

@[simp] theorem length_contents (buf : Nat → α) :
    (contents buf n head tail).length = size n head tail := by
  simp [contents]

theorem contents_eq_nil {buf : Nat → α} (hh : head < n) (ht : tail < n) :
    contents buf n head tail = [] ↔ head = tail := by
  rw [← List.length_eq_zero_iff, length_contents, size_eq_zero hh ht]

/-- A push into a ring that is not full appends to its contents. -/
theorem contents_push (buf : Nat → α) (x : α) (hh : head < n) (ht : tail < n)
    (hroom : (tail + 1) % n ≠ head) :
    contents (Function.update buf tail x) n head ((tail + 1) % n)
      = contents buf n head tail ++ [x] := by
  have hsize := size_lt hh tail
  unfold contents
  rw [size_push hh ht hroom, List.range_succ, List.map_append, List.map_singleton,
    add_size_mod hh ht, Function.update_self]
  congr 1
  refine List.map_congr_left fun k hk => Function.update_of_ne ?_ _ _
  -- no older entry sits in the cell at the tail
  have hk := List.mem_range.mp hk
  rw [add_mod_of_lt hh (by omega)]
  rw [size_eq hh ht] at hk
  split at hk <;> split <;> omega

/-- A pop from a ring that is not empty takes the first of its contents. -/
theorem contents_pop (buf : Nat → α) (hh : head < n) (ht : tail < n) (hne : head ≠ tail) :
    contents buf n head tail = buf head :: contents buf n ((head + 1) % n) tail := by
  unfold contents
  rw [← size_pop hh ht hne, List.range_succ_eq_map, List.map_cons, Nat.add_zero,
    Nat.mod_eq_of_lt hh, List.map_map]
  congr 1
  refine List.map_congr_left fun k _ => ?_
  simp only [Function.comp_apply, Nat.succ_eq_add_one, Nat.mod_add_mod]
  congr 2
  omega

end Ring
