-- SUMMARY: Shared vocabulary of the simulator: event codes, semaphore counts, and the ways a run can stop.
import ChicOS.Lib.Run
import Mathlib.Algebra.Group.Nat.Defs

/-!
# Defines

The event codes of `defines.h`, the counting semaphores every module locks with,
and `Stop`, the reason why a function of the simulator does not return to its
caller. A C expression with no defined behaviour (a null dereference, an index
outside its array, an uninitialised local) stops the run like a call to `exit`
does: what the process would do next is not the program's to say.
-/

namespace ChicOS

/-- The `sem_t` locks of the simulator. -/
inductive Lock where
  | memoryS | pcbS | cpuS | mutex | diskS | printerS
  deriving DecidableEq, Repr

/-- Why a function does not return. -/
inductive Stop where
  /-- `c_crit_error`, which ends in `exit(1)`. -/
  | exit
  | nullDeref
  | outOfBounds
  | divByZero
  /-- A local variable is read before anything was stored in it. -/
  | uninit
  /-- `sem_wait` on a count of zero, with no other thread inside the lock. -/
  | hang (l : Lock)
  /-- A loop that has no further exit. -/
  | diverge
  /-- A branch that takes a raw pointer from text; no caller raises it. -/
  | rawPointer
  deriving DecidableEq, Repr

/-- `sem_wait` on a count, with every other thread outside the lock. -/
def semWait (l : Lock) (count : Nat) : Except Stop Nat :=
  if count = 0 then .error (.hang l) else .ok (count - 1)

theorem semWait_eq_ok {l : Lock} {n n' : Nat} : semWait l n = .ok n' ↔ n = n' + 1 := by
  unfold semWait
  split
  · simp; omega
  · simp; omega

theorem semWait_eq_error {l : Lock} {n : Nat} {e : Stop} :
    semWait l n = .error e ↔ n = 0 ∧ e = .hang l := by
  unfold semWait
  split
  · rename_i h
    simp [h, eq_comm]
  · rename_i h
    simp [h]

/-- A `u8` counts on below its largest value. -/
theorem u8_toNat_add_one {n : UInt8} (h : n.toNat < 255) : (n + 1).toNat = n.toNat + 1 := by
  rw [UInt8.toNat_add, UInt8.toNat_one]
  omega

/-- A `u16` does. -/
theorem u16_toNat_add_one {n : UInt16} (h : n.toNat < 65535) : (n + 1).toNat = n.toNat + 1 := by
  rw [UInt16.toNat_add, UInt16.toNat_one]
  omega

/-- The `events` enumeration. -/
inductive Events where
  | processInterrupt | processCreate | processKill | diskRequest | diskFinish
  | memLoadReq | memLoadFinish | semaphoreP | semaphoreV | printRequest | printFinish
  | processExec
  deriving DecidableEq, Repr

/-- An address in the memory pool, as an offset from its start. A block begins
eight bytes into its first page, so `0` is no block's address and stands for
`NULL`. -/
abbrev Addr := Nat

/-- Wrap to an unsigned 32-bit value. -/
def u32 (n : Nat) : Nat := n % 2 ^ 32

theorem u32_of_lt {n : Nat} (h : n < 2 ^ 32) : u32 n = n := Nat.mod_eq_of_lt h

theorem UInt8.toNat_pred {n : UInt8} (h : 1 ≤ n.toNat) : (n - 1).toNat = n.toNat - 1 :=
  UInt8.toNat_sub_of_le _ _ (UInt8.le_iff_toNat_le.mpr h)

/-- The text of an ASCII literal. -/
def ascii (s : String) : List UInt8 := s.toList.map Char.toUInt8

end ChicOS
