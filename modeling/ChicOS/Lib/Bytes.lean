-- SUMMARY: Byte-addressed memories with little-endian loads and stores of any width.
import Mathlib.Data.Nat.Basic
import Mathlib.Logic.Function.Basic
import Mathlib.Tactic.Ring

/-!
# Byte memories

A memory is a total map from addresses to bytes. `loadLE` and `storeLE` read and
write an unsigned little-endian integer of a given number of bytes. The two
laws the rest of the development uses are that a load returns what the last
store at its address wrote (`loadLE_storeLE`), and that a load sees only the
bytes it covers (`loadLE_congr`), so that a store elsewhere leaves it alone
(`loadLE_storeLE_of_disjoint`).
-/

namespace Bytes

/-- The contents of a memory. -/
abbrev Mem := Nat → UInt8

/-- The unsigned integer in the `n` bytes at `a`, least significant byte first. -/
def loadLE (m : Mem) (a : Nat) : Nat → Nat
  | 0 => 0
  | n + 1 => (m a).toNat + 256 * loadLE m (a + 1) n

/-- Write the low `n` bytes of `v` at `a`, least significant byte first. -/
def storeLE (m : Mem) (a v : Nat) : Nat → Mem
  | 0 => m
  | n + 1 => Function.update (storeLE m (a + 1) (v / 256) n) a (UInt8.ofNat v)

theorem storeLE_apply_of_outside {m : Mem} {n a v b : Nat} (h : b < a ∨ a + n ≤ b) :
    storeLE m a v n b = m b := by
  induction n generalizing a v with
  | zero => rfl
  | succ n ih =>
      have hne : b ≠ a := by omega
      rw [storeLE, Function.update_of_ne hne]
      exact ih (by omega)

/-- A load depends on the bytes it covers only. -/
theorem loadLE_congr {m m' : Mem} {n a : Nat} (h : ∀ b, a ≤ b → b < a + n → m b = m' b) :
    loadLE m a n = loadLE m' a n := by
  induction n generalizing a with
  | zero => rfl
  | succ n ih =>
      have htail : loadLE m (a + 1) n = loadLE m' (a + 1) n :=
        ih fun b hb hb' => h b (by omega) (by omega)
      rw [loadLE, loadLE, h a (by omega) (by omega), htail]

/-- A load at the address and width of a store returns the bytes stored. -/
theorem loadLE_storeLE (m : Mem) (n a v : Nat) :
    loadLE (storeLE m a v n) a n = v % 256 ^ n := by
  induction n generalizing a v with
  | zero => simp [loadLE, Nat.mod_one]
  | succ n ih =>
      have htail : loadLE (storeLE m a v (n + 1)) (a + 1) n
          = loadLE (storeLE m (a + 1) (v / 256) n) (a + 1) n :=
        loadLE_congr fun b hb _ => by
          rw [storeLE, Function.update_of_ne (by omega : b ≠ a)]
      have hhead : (storeLE m a v (n + 1) a).toNat = v % 256 := by
        simp [storeLE, UInt8.toNat_ofNat']
      rw [loadLE, htail, ih, hhead, pow_succ, Nat.mul_comm (256 ^ n) 256, Nat.mod_mul]

/-- A store that touches none of a load's bytes does not change what it returns. -/
theorem loadLE_storeLE_of_disjoint {m : Mem} {n a k b v : Nat} (h : a + n ≤ b ∨ b + k ≤ a) :
    loadLE (storeLE m b v k) a n = loadLE m a n :=
  loadLE_congr fun _ _ _ => storeLE_apply_of_outside (by omega)

end Bytes
