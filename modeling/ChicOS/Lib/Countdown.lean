-- SUMMARY: Counting a number down in rounds: what each round takes, what is left, and how many rounds there are.
import Mathlib.Algebra.Order.Floor.Div

/-!
# Counting down in rounds

A round takes a fixed amount, or what is left if that is less. What the rounds take
adds up to the number, and the last round is where the quotient, rounded up, says.
A count that starts at zero has one round all the same, which takes nothing.
-/

namespace Countdown

/-- What is left after some rounds. -/
def left (total size n : Nat) : Nat := total - n * size

/-- What the round after these takes. -/
def part (total size n : Nat) : Nat := min (left total size n) size

/-- What each of the first rounds takes. -/
def parts (total size n : Nat) : List Nat := (List.range n).map (part total size)

/-- The number of rounds. -/
def rounds (total size : Nat) : Nat := max 1 (total ⌈/⌉ size)

variable {total size n : Nat}

@[simp] theorem left_zero : left total size 0 = total := by
  rw [left, Nat.zero_mul, Nat.sub_zero]

@[simp] theorem parts_zero : parts total size 0 = [] := rfl

theorem parts_succ : parts total size (n + 1) = parts total size n ++ [part total size n] := by
  rw [parts, List.range_succ, List.map_append]
  rfl

/-- A round takes no more than there is. -/
theorem part_add_left : part total size n + left total size (n + 1) = left total size n := by
  unfold part left
  rw [Nat.succ_mul]
  omega

/-- Nothing is lost. -/
theorem sum_parts_add_left : (parts total size n).sum + left total size n = total := by
  induction n with
  | zero => simp
  | succ n ih =>
      rw [parts_succ, List.sum_append, List.sum_singleton, Nat.add_assoc, part_add_left, ih]

theorem left_eq_zero_iff (hsize : 0 < size) : left total size n = 0 ↔ total ⌈/⌉ size ≤ n := by
  rw [left, Nat.sub_eq_zero_iff_le, ceilDiv_le_iff_le_mul hsize, Nat.mul_comm]

/-- The last round is the one that leaves nothing. -/
theorem left_succ_eq_zero_iff (hsize : 0 < size) (hn : n < rounds total size) :
    left total size (n + 1) = 0 ↔ n + 1 = rounds total size := by
  rw [left_eq_zero_iff hsize]
  unfold rounds at *
  omega

/-- All rounds are over when nothing is left after one of them. -/
theorem eq_rounds_iff (hsize : 0 < size) (hn : n ≤ rounds total size) :
    n = rounds total size ↔ n ≠ 0 ∧ left total size n = 0 := by
  rw [left_eq_zero_iff hsize]
  unfold rounds at *
  omega

end Countdown
