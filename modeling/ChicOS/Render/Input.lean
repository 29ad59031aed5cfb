-- SUMMARY: What render.c reads from the keyboard: the path of a program file, and a password.
import ChicOS.Cpu.Cpu

/-!
# Input

`read_path` edits a line, key by key, and starts the program it names;
`get_credentials` edits a password in the same way. Keys are what `wgetch` returns:
`-1` when no key was pressed, and codes above a byte for the keys that are no
characters.
-/

namespace ChicOS

/-- The code of the backspace key. -/
def KEY_BACKSPACE : Int := 263

/-- `crypto_pwhash_STRBYTES`, the size of the array of a password. -/
def PWHASH_STRBYTES : Nat := 128

inductive PathInput where
  | waiting (path : List UInt8)
  | cancelled
  | entered (path : List UInt8)
  deriving DecidableEq, Repr

/-- The loop of `read_path`, with the path typed so far. -/
def readPathKeys (path : List UInt8) : List Int → PathInput
  | [] => .waiting path
  | ch :: keys =>
    if ch = -1 then readPathKeys path keys
    else if ch = 10 then .entered path
    else if ch = 27 then .cancelled
    else if ch = KEY_BACKSPACE ∨ ch = 127 ∨ ch = 8 then readPathKeys path.dropLast keys
    else if path.length < MAX_ADDRESS_SIZE - 1 ∧ 32 ≤ ch ∧ ch ≤ 126 then
      readPathKeys (path ++ [UInt8.ofNat ch.toNat]) keys
    else readPathKeys path keys

/-- `read_path`. -/
def readPath (access : List UInt8 → Bool) (app : App) (keys : List Int) : Except Stop App :=
  match readPathKeys [] keys with
  | .entered path =>
    if validPath access path then interruptControl app .processCreate path else .ok app
  | .waiting _ | .cancelled => .ok app

/-- The loop of `get_credentials`, with the password typed so far. Without a
newline it goes on waiting. -/
def readPasswordKeys (password : List UInt8) : List Int → Option (List UInt8)
  | [] => none
  | ch :: keys =>
    if ch = 10 then some password
    else if (ch = KEY_BACKSPACE ∨ ch = 127 ∨ ch = 8) ∧ 0 < password.length then
      readPasswordKeys password.dropLast keys
    else if (32 ≤ ch ∧ ch ≤ 126) ∧ password.length < PWHASH_STRBYTES - 1 then
      readPasswordKeys (password ++ [UInt8.ofNat ch.toNat]) keys
    else readPasswordKeys password keys

/-- A printable string of at most `n` characters. -/
structure Typed (n : Nat) (s : List UInt8) : Prop where
  length : s.length ≤ n
  print : ∀ b ∈ s, CString.isPrint b = true

namespace Typed

variable {n : Nat} {s : List UInt8}

instance decidable (n : Nat) (s : List UInt8) : Decidable (Typed n s) :=
  decidable_of_iff (s.length ≤ n ∧ s.all CString.isPrint = true)
    ⟨fun h => ⟨h.1, List.all_eq_true.mp h.2⟩, fun h => ⟨h.length, List.all_eq_true.mpr h.print⟩⟩

theorem nil (n : Nat) : Typed n [] := ⟨Nat.zero_le n, fun _ hb => absurd hb List.not_mem_nil⟩

theorem dropLast (h : Typed n s) : Typed n s.dropLast := by
  refine ⟨?_, fun b hb => h.print b (List.mem_of_mem_dropLast hb)⟩
  rw [List.length_dropLast]
  exact Nat.le_trans (Nat.sub_le _ _) h.length

end Typed

theorem isPrint_ofNat {ch : Int} (hlow : 32 ≤ ch) (hhigh : ch ≤ 126) :
    CString.isPrint (UInt8.ofNat ch.toNat) = true := by
  have hnat : (UInt8.ofNat ch.toNat).toNat = ch.toNat := by
    rw [UInt8.toNat_ofNat']
    omega
  rw [CString.isPrint, Bool.and_eq_true, decide_eq_true_eq, decide_eq_true_eq,
    UInt8.le_iff_toNat_le, UInt8.le_iff_toNat_le, hnat]
  exact ⟨by show 32 ≤ ch.toNat; omega, by show ch.toNat ≤ 126; omega⟩

/-- A printable key is typed where there is room. -/
theorem Typed.concat {n : Nat} {s : List UInt8} {ch : Int} (h : Typed n s) (hroom : s.length < n)
    (hlow : 32 ≤ ch) (hhigh : ch ≤ 126) : Typed n (s ++ [UInt8.ofNat ch.toNat]) := by
  refine ⟨?_, fun b hb => ?_⟩
  · rw [List.length_append, List.length_singleton]
    exact hroom
  · rcases List.mem_append.mp hb with hb | hb
    · exact h.print b hb
    · rw [List.mem_singleton.mp hb]
      exact isPrint_ofNat hlow hhigh

/-- Whatever keys are pressed, the path is printable and fits its array. -/
theorem readPathKeys_typed {path path' : List UInt8} {keys : List Int}
    (h : Typed (MAX_ADDRESS_SIZE - 1) path) (hkeys : readPathKeys path keys = .entered path') :
    Typed (MAX_ADDRESS_SIZE - 1) path' := by
  induction keys generalizing path with
  | nil => cases hkeys
  | cons ch keys ih =>
      rw [readPathKeys] at hkeys
      split at hkeys
      · exact ih h hkeys
      split at hkeys
      · cases hkeys
        exact h
      split at hkeys
      · cases hkeys
      split at hkeys
      · exact ih h.dropLast hkeys
      split at hkeys
      · rename_i hprint
        exact ih (h.concat hprint.1 hprint.2.1 hprint.2.2) hkeys
      · exact ih h hkeys

/-- The same of a password. -/
theorem readPasswordKeys_typed {password password' : List UInt8} {keys : List Int}
    (h : Typed (PWHASH_STRBYTES - 1) password)
    (hkeys : readPasswordKeys password keys = some password') :
    Typed (PWHASH_STRBYTES - 1) password' := by
  induction keys generalizing password with
  | nil => cases hkeys
  | cons ch keys ih =>
      rw [readPasswordKeys] at hkeys
      split at hkeys
      · cases hkeys
        exact h
      split at hkeys
      · exact ih h.dropLast hkeys
      split at hkeys
      · rename_i hprint
        exact ih (h.concat hprint.2 hprint.1.1 hprint.1.2) hkeys
      · exact ih h hkeys

end ChicOS
