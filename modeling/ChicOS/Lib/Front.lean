-- SUMMARY: The front of a fixed-size array as a list: appending, swapping, and removing the first entry.
import Mathlib.Data.List.Perm.Basic
import Mathlib.Data.Vector.Basic

/-!
# The front of an array

A bounded queue is often an array with a count: the first `n` entries are the
queue, and the rest is unused. `front` is that list, and each way of storing into
the array is an operation on it.
-/

universe u

namespace Front

variable {α : Type u} {N n : Nat}

/-- The first `n` entries of an array. -/
def front (v : Vector α N) (n : Nat) : List α := v.toList.take n

theorem length_front_eq_min (v : Vector α N) : (front v n).length = min n N := by
  simp [front]

theorem length_front (v : Vector α N) (h : n ≤ N) : (front v n).length = n := by
  simp [front, h]

theorem getElem_front (v : Vector α N) {i : Nat} (h : i < (front v n).length) (hi : i < N) :
    (front v n)[i] = v[i] := by
  simp [front]

theorem mem_front {v : Vector α N} {a : α} :
    a ∈ front v n ↔ ∃ (i : Nat) (hi : i < N), i < n ∧ v[i] = a := by
  simp only [front, List.mem_take_iff_getElem, Vector.length_toList, Nat.lt_min]
  constructor
  · rintro ⟨i, hi, rfl⟩
    exact ⟨i, hi.2, hi.1, by simp⟩
  · rintro ⟨i, hi, hn, rfl⟩
    exact ⟨i, ⟨hn, hi⟩, by simp⟩

/-- A front that is not empty starts with the first entry of the array. -/
theorem front_eq_cons (v : Vector α N) (hn : 0 < n) (hN : 0 < N) :
    front v n = v[0] :: (front v n).tail := by
  have hlen : 0 < (front v n).length := by
    simp only [front, List.length_take, Vector.length_toList]
    omega
  cases hfront : front v n with
  | nil =>
      rw [hfront] at hlen
      exact absurd hlen (Nat.lt_irrefl 0)
  | cons a rest =>
      have hget := getElem_front v hlen hN
      simp only [hfront, List.getElem_cons_zero] at hget
      rw [hget, List.tail_cons]

/-- Storing after the front leaves it as it is. -/
theorem front_set_of_le (v : Vector α N) {i : Nat} (a : α) (hi : i < N) (h : n ≤ i) :
    front (v.set i a) n = front v n := by
  simp [front, Vector.toList_set, List.take_set_of_le h]

/-- Storing right after the front, and counting the entry, appends. -/
theorem front_set_self (v : Vector α N) (a : α) (h : n < N) :
    front (v.set n a) (n + 1) = front v n ++ [a] := by
  have hlen : n < (v.set n a).toList.length := by simpa using h
  rw [front, List.take_succ_eq_append_getElem hlen, ← front, front_set_of_le v a h le_rfl]
  simp

/-- Swapping two entries of the front permutes it. -/
theorem front_swap (v : Vector α N) {i j : Nat} (hi : i < n) (hj : j < n) (hn : n ≤ N) :
    (front ((v.set i v[j]).set j v[i]) n).Perm (front v n) := by
  have hlen : (front v n).length = n := length_front v hn
  have hi' : i < (front v n).length := by rw [hlen]; exact hi
  have hj' : j < (front v n).length := by rw [hlen]; exact hj
  have hswap : (((front v n).set i (front v n)[j]).set j (front v n)[i]).Perm (front v n) :=
    List.set_set_perm hi' hj'
  rw [getElem_front v hi' (by omega), getElem_front v hj' (by omega)] at hswap
  refine List.Perm.trans (List.Perm.of_eq ?_) hswap
  simp [front, Vector.toList_set, List.take_set]

/-- Moving every entry but the first one down removes the first. -/
theorem front_shift (v w : Vector α N) (hn : n ≤ N)
    (h : ∀ (i : Nat) (hi : i + 1 < n), w[i] = v[i + 1]) :
    front w (n - 1) = (front v n).tail := by
  apply List.ext_getElem
  · rw [List.length_tail, length_front v hn, length_front w (by omega)]
  · intro i hi hi'
    have hlen : i < n - 1 := by rwa [length_front w (by omega)] at hi
    rw [List.getElem_tail, getElem_front w hi (by omega), getElem_front v _ (by omega)]
    exact h i (by omega)

theorem front_succ (v : Vector α N) (hn : n < N) : front v (n + 1) = front v n ++ [v[n]] := by
  simp [front, List.take_add_one, hn]

/-! ## Moving up -/

/-- The array with each of its first `n` entries replaced by the next one. -/
def shiftFront (v : Vector α N) (n : Nat) : Vector α N :=
  Vector.ofFn fun i =>
    if i.val < n then if h : i.val + 1 < N then v.get ⟨i.val + 1, h⟩ else v.get i else v.get i

theorem getElem_shiftFront_of_lt (v : Vector α N) {i : Nat} (hi : i < n) (hn : i + 1 < N)
    (h : i < N) : (shiftFront v n)[i] = v[i + 1] := by
  have hget : v.get ⟨i + 1, hn⟩ = v[i + 1] := rfl
  simp [shiftFront, hi, hn, hget]

theorem getElem_shiftFront_of_le (v : Vector α N) {i : Nat} (hi : n ≤ i) (h : i < N) :
    (shiftFront v n)[i] = v[i] := by
  have hget : v.get ⟨i, h⟩ = v[i] := rfl
  simp [shiftFront, Nat.not_lt.mpr hi, hget]

@[simp] theorem shiftFront_zero (v : Vector α N) : shiftFront v 0 = v := by
  ext i hi
  exact getElem_shiftFront_of_le v (Nat.zero_le i) hi

/-- One more entry moves up. -/
theorem shiftFront_succ (v : Vector α N) (hn : n + 1 < N) (hn' : n < N) :
    (shiftFront v n).set n v[n + 1] = shiftFront v (n + 1) := by
  ext i hi
  rw [Vector.getElem_set]
  by_cases hin : n = i
  · subst hin
    rw [if_pos rfl, getElem_shiftFront_of_lt v (Nat.lt_succ_self n) hn]
  · rw [if_neg hin]
    by_cases hlt : i < n
    · rw [getElem_shiftFront_of_lt v hlt (by omega), getElem_shiftFront_of_lt v (by omega) (by omega)]
    · rw [getElem_shiftFront_of_le v (by omega), getElem_shiftFront_of_le v (by omega)]

/-- Entries that move up do not meet a store after them. -/
theorem shiftFront_set (v : Vector α N) {i : Nat} (a : α) (hn : n < i) (hi : i < N) :
    (shiftFront v n).set i a = shiftFront (v.set i a) n := by
  ext j hj
  rw [Vector.getElem_set]
  by_cases hij : i = j
  · subst hij
    rw [if_pos rfl, getElem_shiftFront_of_le _ hn.le, Vector.getElem_set_self]
  · rw [if_neg hij]
    by_cases hlt : j < n
    · rw [getElem_shiftFront_of_lt v hlt (by omega), getElem_shiftFront_of_lt _ hlt (by omega),
        Vector.getElem_set_ne _ _ (by omega)]
    · rw [getElem_shiftFront_of_le v (by omega), getElem_shiftFront_of_le _ (by omega),
        Vector.getElem_set_ne _ _ hij]

/-- The first entry has left, and the others are one place further up. -/
theorem front_shiftFront (v : Vector α N) (hn : n < N) :
    front (shiftFront v n) n = (front v (n + 1)).tail :=
  front_shift v (shiftFront v n) hn fun i hi =>
    getElem_shiftFront_of_lt v (by omega) (by omega) (by omega)

/-- The last entry is stored again after the others have moved up. -/
theorem front_shiftFront_set (v : Vector α N) (a : α) (hn : n < N) :
    front ((shiftFront v n).set n a) (n + 1) = (front v (n + 1)).tail ++ [a] := by
  rw [front_set_self _ _ hn, front_shiftFront v hn]

/-- The last entry stays where it was, and is there twice. -/
theorem front_shiftFront_succ (v : Vector α N) (hn : n < N) :
    front (shiftFront v n) (n + 1) = (front v (n + 1)).tail ++ [v[n]] := by
  rw [front_succ _ hn, front_shiftFront v hn, getElem_shiftFront_of_le v le_rfl]

end Front
