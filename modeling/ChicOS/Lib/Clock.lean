-- SUMMARY: Scanning a ring from a hand: the places in circular order, and clearing a mark at those passed.
import ChicOS.Lib.Ring

/-!
# Scanning from a hand

`place n i k` is the place `k` steps after `i` in a ring of `n`. The first `n`
places from a hand are all the places, each once. `clear` takes a mark off a list of
entries at the places a scan has passed.
-/

namespace Clock

variable {α : Type*} {n i k l : Nat}

def place (n i k : Nat) : Nat := (i + k) % n

@[simp] theorem place_zero (hi : i < n) : place n i 0 = i := Nat.mod_eq_of_lt hi

theorem place_lt (hi : i < n) (k : Nat) : place n i k < n := Nat.mod_lt _ (Nat.zero_lt_of_lt hi)

theorem place_succ (n i k : Nat) : (place n i k + 1) % n = place n i (k + 1) := Nat.mod_add_mod _ _ _

theorem place_eq (hi : i < n) (hk : k < n) :
    place n i k = if i + k < n then i + k else i + k - n := Ring.add_mod_of_lt hi hk

/-- After a full turn the scan is back. -/
theorem place_self (hi : i < n) : place n i n = i := by
  rw [place, Nat.add_mod_right, Nat.mod_eq_of_lt hi]

theorem place_inj (hi : i < n) (hk : k < n) (hl : l < n) : place n i k = place n i l ↔ k = l := by
  constructor
  · intro h
    rw [place_eq hi hk, place_eq hi hl] at h
    split at h <;> split at h <;> omega
  · rintro rfl
    rfl

/-- Every place is reached within a turn. -/
theorem exists_place (hi : i < n) {j : Nat} (hj : j < n) : ∃ k < n, place n i k = j := by
  by_cases hle : i ≤ j
  · refine ⟨j - i, by omega, ?_⟩
    rw [place_eq hi (by omega), if_pos (by omega)]
    omega
  · refine ⟨j + n - i, by omega, ?_⟩
    rw [place_eq hi (by omega), if_neg (by omega)]
    omega

/-- The last place of a turn is the one before the hand. -/
theorem place_add_one_eq_iff (hi : i < n) (hk : k < n) (hpos : 0 < i) :
    place n i k + 1 = i ↔ k + 1 = n := by
  rw [place_eq hi hk]
  split <;> omega

/-! ## Marks -/

/-- Change the entries at the places from the `k`th on. -/
def clear (f : α → α) (n i : Nat) : Nat → Nat → List α → List α
  | _, 0, l => l
  | k, t + 1, l => clear f n i (k + 1) t (l.modify (place n i k) f)

variable {f : α → α} {s : List α} {t j : Nat}

@[simp] theorem length_clear : (clear f n i k t s).length = s.length := by
  induction t generalizing k s with
  | zero => rfl
  | succ t ih => rw [clear, ih, List.length_modify]

/-- Places that are not passed keep their entries. -/
theorem getElem?_clear_of_ne (h : ∀ l, k ≤ l → l < k + t → place n i l ≠ j) :
    (clear f n i k t s)[j]? = s[j]? := by
  induction t generalizing k s with
  | zero => rfl
  | succ t ih =>
      have hne : place n i k ≠ j := h k (Nat.le_refl k) (by omega)
      rw [clear, ih fun l hl hl' => h l (by omega) (by omega), List.getElem?_modify_ne _ _ hne]

/-- Entries at places that are passed are changed. -/
theorem getElem?_clear (hi : i < n) (hle : k + t ≤ n) (hkl : k ≤ l) (hlt : l < k + t) :
    (clear f n i k t s)[place n i l]? = s[place n i l]?.map f := by
  induction t generalizing k s with
  | zero => omega
  | succ t ih =>
      rw [clear]
      by_cases hl : l = k
      · subst hl
        have hlater : ∀ l', l + 1 ≤ l' → l' < l + 1 + t → place n i l' ≠ place n i l := by
          intro l' hl hl'
          rw [ne_eq, place_inj hi (by omega) (by omega)]
          omega
        rw [getElem?_clear_of_ne hlater, List.getElem?_modify_eq]
        rfl
      · have hne : place n i k ≠ place n i l := by
          rw [ne_eq, place_inj hi (by omega) (by omega)]
          omega
        rw [ih (by omega) (by omega) (by omega), List.getElem?_modify_ne _ _ hne]

/-- One more place. -/
theorem modify_clear :
    (clear f n i k t s).modify (place n i (k + t)) f = clear f n i k (t + 1) s := by
  induction t generalizing k s with
  | zero => rfl
  | succ t ih =>
      have hindex : k + (t + 1) = k + 1 + t := by omega
      rw [clear, hindex, ih]
      rfl

end Clock
