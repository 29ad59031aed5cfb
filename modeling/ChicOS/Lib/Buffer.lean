-- SUMMARY: Strings in a byte memory, and accesses that are confined to a window of it.
import ChicOS.Lib.Bytes
import Mathlib.Data.List.DropRight

/-!
# Strings in memory

`BytesAt m a l` says that the bytes from `a` on are those of `l`, and
`StringAt m a s` that a string stands there with its terminator.

A `Buffer` is a memory with a window. What is done to it returns nothing when a
byte outside the window would be read or written, so a run that returns has
touched no other. The loops over its bytes (`scan`, `scanBack`) and the library's
`strlen` and `memmove` have one law each, about what the buffer holds.
-/

namespace Bytes

/-- The bytes of `l` are at `a`. -/
def BytesAt (m : Mem) : Nat → List UInt8 → Prop
  | _, [] => True
  | a, c :: l => m a = c ∧ BytesAt m (a + 1) l

instance decidableBytesAt (m : Mem) : (a : Nat) → (l : List UInt8) → Decidable (BytesAt m a l)
  | _, [] => .isTrue trivial
  | a, c :: l =>
    have := decidableBytesAt m (a + 1) l
    inferInstanceAs (Decidable (m a = c ∧ BytesAt m (a + 1) l))

/-- The string `s` is at `a`, with its terminator. -/
structure StringAt (m : Mem) (a : Nat) (s : List UInt8) : Prop where
  ne : a ≠ 0
  bytes : BytesAt m a (s ++ [0])
  nul : 0 ∉ s

variable {m m' : Mem} {a b : Nat} {l l' s : List UInt8}

theorem bytesAt_append : BytesAt m a (l ++ l') ↔ BytesAt m a l ∧ BytesAt m (a + l.length) l' := by
  induction l generalizing a with
  | nil => simp [BytesAt]
  | cons c l ih =>
      have haddr : a + 1 + l.length = a + (c :: l).length := by
        rw [List.length_cons]
        omega
      rw [List.cons_append, BytesAt, BytesAt, ih, haddr, and_assoc]

/-- The bytes that are held are the only ones that matter. -/
theorem BytesAt.congr (h : BytesAt m a l) (heq : ∀ b, a ≤ b → b < a + l.length → m' b = m b) :
    BytesAt m' a l := by
  induction l generalizing a with
  | nil => trivial
  | cons c l ih =>
      rw [List.length_cons] at heq
      refine ⟨?_, ih h.2 fun b hb hb' => heq b (by omega) (by omega)⟩
      rw [heq a (by omega) (by omega)]
      exact h.1

/-- The same bytes at another place. -/
theorem BytesAt.shift (h : BytesAt m a l) (heq : ∀ i < l.length, m' (b + i) = m (a + i)) :
    BytesAt m' b l := by
  induction l generalizing a b with
  | nil => trivial
  | cons c l ih =>
      rw [List.length_cons] at heq
      refine ⟨(heq 0 (by omega)).trans h.1, ih h.2 fun i hi => ?_⟩
      have hstep := heq (i + 1) (by omega)
      rwa [← Nat.add_assoc, ← Nat.add_assoc, Nat.add_right_comm b, Nat.add_right_comm a] at hstep

@[simp] theorem bytesAt_singleton {c : UInt8} : BytesAt m a [c] ↔ m a = c := by
  simp [BytesAt]

/-- A byte written behind some that are held ends them. -/
theorem BytesAt.update_end (h : BytesAt m a l) (c : UInt8) :
    BytesAt (Function.update m (a + l.length) c) a (l ++ [c]) := by
  refine bytesAt_append.mpr ⟨h.congr fun b _ hb => ?_, ?_⟩
  · exact Function.update_of_ne (Nat.ne_of_lt hb) c m
  · rw [bytesAt_singleton, Function.update_self]

/-! ## Moving bytes -/

/-- The `n` bytes at `src` are now at `dst` too. -/
def move (m : Mem) (dst src n : Nat) : Mem :=
  fun a => if dst ≤ a ∧ a < dst + n then m (src + (a - dst)) else m a

theorem move_outside {dst src n : Nat} (h : a < dst ∨ dst + n ≤ a) : move m dst src n a = m a :=
  if_neg (by omega)

theorem bytesAt_move {dst src n : Nat} (h : BytesAt m src l) (hn : l.length ≤ n) :
    BytesAt (move m dst src n) dst l := by
  refine h.shift fun i hi => ?_
  rw [move, if_pos (by omega), Nat.add_sub_cancel_left]

theorem move_self {n : Nat} : move m a a n = m := by
  funext x
  rw [move]
  split
  next hx => rw [Nat.add_sub_cancel' hx.1]
  next => rfl

end Bytes

/-- A memory of which only the bytes from `lo` to below `hi` may be touched. -/
structure Buffer where
  bytes : Bytes.Mem
  lo : Nat
  hi : Nat

namespace Buffer

open Bytes

/-- The `n` bytes at `a` lie in the window. -/
def Inside (b : Buffer) (a n : Nat) : Prop := b.lo ≤ a ∧ a + n ≤ b.hi

instance decidableInside (b : Buffer) (a n : Nat) : Decidable (b.Inside a n) :=
  inferInstanceAs (Decidable (_ ∧ _))

def load (b : Buffer) (a : Nat) : Option UInt8 :=
  if b.Inside a 1 then some (b.bytes a) else none

def store (b : Buffer) (a : Nat) (c : UInt8) : Option Buffer :=
  if b.Inside a 1 then some { b with bytes := Function.update b.bytes a c } else none

/-- The loop of `scan`. Every turn reads a byte of the window. -/
def scanLoop (b : Buffer) (q : UInt8 → Bool) : Nat → Nat → Option Nat
  | 0, _ => none
  | fuel + 1, a => do
    let c ← b.load a
    if q c then b.scanLoop q fuel (a + 1) else some a

/-- The first address from `a` on whose byte fails `q`. -/
def scan (b : Buffer) (q : UInt8 → Bool) (a : Nat) : Option Nat := b.scanLoop q (b.hi - a) a

/-- The last address up to the one given whose byte fails `q`. It stops below `start`,
    which is no null address, and reads nothing there. -/
def scanBack (b : Buffer) (q : UInt8 → Bool) (start : Nat) : Nat → Option Nat
  | 0 => some 0
  | a + 1 =>
    if start ≤ a + 1 then do
      let c ← b.load (a + 1)
      if q c then b.scanBack q start a else some (a + 1)
    else some (a + 1)

def strlen (b : Buffer) (a : Nat) : Option Nat := do
  let e ← b.scan (fun c => c != 0) a
  some (e - a)

/-- The bytes are copied as if through an array of their own. -/
def memmove (b : Buffer) (dst src n : Nat) : Option Buffer :=
  if b.Inside dst n ∧ b.Inside src n then
    some { b with bytes := move b.bytes dst src n }
  else none

/-! ## What they do to what is held -/

variable {b : Buffer} {q : UInt8 → Bool} {a n start : Nat} {l s : List UInt8}

theorem Inside.mono {a' k : Nat} (h : b.Inside a n) (ha : a ≤ a') (hend : a' + k ≤ a + n) :
    b.Inside a' k :=
  ⟨Nat.le_trans h.1 ha, Nat.le_trans hend h.2⟩

theorem load_eq (h : b.Inside a 1) : b.load a = some (b.bytes a) := if_pos h

theorem store_eq (h : b.Inside a 1) (c : UInt8) :
    b.store a c = some { b with bytes := Function.update b.bytes a c } := if_pos h

theorem memmove_eq {dst src : Nat} (hdst : b.Inside dst n) (hsrc : b.Inside src n) :
    b.memmove dst src n = some { b with bytes := move b.bytes dst src n } := if_pos ⟨hdst, hsrc⟩

/-- One turn of the loop. -/
theorem scan_eq (h : b.Inside a 1) :
    b.scan q a = if q (b.bytes a) then b.scan q (a + 1) else some a := by
  have hturns : b.hi - a = b.hi - (a + 1) + 1 := by
    have hhi : a + 1 ≤ b.hi := h.2
    omega
  rw [scan, hturns, scanLoop, load_eq h]
  rfl

/-- The scan runs over bytes that satisfy `q`, to one that fails it. -/
theorem scan_of_bytesAt (hin : b.Inside a (l.length + 1)) (h : BytesAt b.bytes a l)
    (hl : ∀ c ∈ l, q c = true) (hstop : q (b.bytes (a + l.length)) = false) :
    b.scan q a = some (a + l.length) := by
  induction l generalizing a with
  | nil =>
      have hfail : q (b.bytes a) = false := hstop
      rw [scan_eq hin, hfail]
      rfl
  | cons c l ih =>
      have haddr : a + 1 + l.length = a + (c :: l).length := by
        rw [List.length_cons]
        omega
      have hpass : q (b.bytes a) = true := by
        rw [h.1]
        exact hl c List.mem_cons_self
      have hrest : b.Inside (a + 1) (l.length + 1) := hin.mono (by omega) (by omega)
      rw [scan_eq (hin.mono (Nat.le_refl a) (by omega)), if_pos hpass, ← haddr]
      refine ih hrest h.2 (fun x hx => hl x (List.mem_cons_of_mem c hx)) ?_
      rwa [haddr]

theorem strlen_of_stringAt (h : StringAt b.bytes a s) (hin : b.Inside a (s.length + 1)) :
    b.strlen a = some s.length := by
  obtain ⟨hbytes, hterm⟩ := bytesAt_append.mp h.bytes
  have hscan : b.scan (fun c => c != 0) a = some (a + s.length) := by
    refine scan_of_bytesAt hin hbytes ?_ ?_
    · intro c hc
      have hne : c ≠ 0 := fun hzero => h.nul (hzero ▸ hc)
      simpa using hne
    · rw [bytesAt_singleton.mp hterm]
      rfl
  rw [strlen, hscan]
  exact congrArg some (Nat.add_sub_cancel_left a s.length)

/-- From the last byte held, the scan back stops at the last one that is kept when the
    end is dropped, or below the first one when none is. -/
theorem scanBack_of_bytesAt (hstart : start ≠ 0) (hin : b.Inside start l.length)
    (h : BytesAt b.bytes start l) :
    b.scanBack q start (start + l.length - 1) = some (start + (l.rdropWhile q).length - 1) := by
  induction l using List.reverseRecOn with
  | nil =>
      -- `start - 1` is compared, and not read
      obtain ⟨a, rfl⟩ := Nat.exists_eq_succ_of_ne_zero hstart
      cases a with
      | zero => rfl
      | succ a =>
          have hbelow : ¬ a + 1 + 1 ≤ a + 1 := by omega
          exact if_neg hbelow
  | append_singleton l c ih =>
      rw [List.length_append, List.length_singleton] at hin
      obtain ⟨hfront, hlast⟩ := bytesAt_append.mp h
      have hlast : b.bytes (start + l.length) = c := bytesAt_singleton.mp hlast
      obtain ⟨e, he⟩ := Nat.exists_eq_succ_of_ne_zero (n := start + l.length) (by omega)
      have hfrom : start + (l ++ [c]).length - 1 = e + 1 := by
        rw [List.length_append, List.length_singleton]
        omega
      have hload : b.load (e + 1) = some c := by
        have heq : e + 1 = start + l.length := he.symm
        rw [heq, load_eq (hin.mono (by omega) (by omega)), hlast]
      rw [hfrom, scanBack, if_pos (by omega), hload]
      rcases Bool.eq_false_or_eq_true (q c) with hq | hq
      · rw [List.rdropWhile_concat_pos q l c hq, ← ih (hin.mono (Nat.le_refl _) (by omega)) hfront]
        have hnext : start + l.length - 1 = e := by omega
        rw [hnext]
        exact if_pos hq
      · rw [List.rdropWhile_concat_neg q l c (by simp [hq]), hfrom]
        exact if_neg (by simp [hq])

end Buffer
