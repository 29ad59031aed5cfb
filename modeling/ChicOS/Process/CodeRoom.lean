-- SUMMARY: The code section and its block: the loader stays inside exactly for the programs that fit.
import ChicOS.Process.Malformed

/-!
# The room for the code

`p_create` asks for an address space of one kilobyte, whatever the program. The check
of `init_code_section` against the size of the code section never fires, so a program
with more lines than the block has entries is written past its end, and never
rejected.

A line is here what one `fgets` takes: 15 bytes at most.
-/

namespace ChicOS

/-- How the loop ends on the lines of a file, with `i` entries filled. -/
inductive CodeOutcome (room i : Nat) (lines : List (List UInt8)) {α : Type} : Except Stop α → Prop
  /-- It comes to a malformed line. -/
  | malformed {j : Nat} {line : List UInt8} (hline : lines[j]? = some line)
      (hroom : INSTRUCTION_SIZE * (i + j + 1) ≤ room) (hmalformed : Malformed line) :
      CodeOutcome room i lines (.error .nullDeref)
  /-- It comes to the end of the block. -/
  | overrun (hroom : room < INSTRUCTION_SIZE * (i + lines.length))
      (hvalid : ∀ j line, lines[j]? = some line → INSTRUCTION_SIZE * (i + j + 1) ≤ room →
        ¬ Malformed line) :
      CodeOutcome room i lines (.error .outOfBounds)
  /-- It comes to the end of the file. -/
  | loaded {r : α} (hroom : lines ≠ [] → INSTRUCTION_SIZE * (i + lines.length) ≤ room)
      (hvalid : ∀ line ∈ lines, ¬ Malformed line) : CodeOutcome room i lines (.ok r)

section

variable {it : Addr} {room fuel i : Nat} {fp : File} {instrs : Addr → Instruction}

/-- A line that is understood and has its entry is nothing to how the loop ends. -/
theorem CodeOutcome.cons {α : Type} {r : Except Stop α} {line : List UInt8}
    {lines : List (List UInt8)} (hfits : INSTRUCTION_SIZE * (i + 1) ≤ room)
    (hvalid : ¬ Malformed line) (h : CodeOutcome room (i + 1) lines r) :
    CodeOutcome room i (line :: lines) r := by
  have hindex : ∀ j, i + 1 + j = i + (j + 1) := fun j => by omega
  cases h with
  | @malformed j l hline hroom hmalformed =>
      rw [hindex] at hroom
      exact .malformed (j := j + 1) hline hroom hmalformed
  | overrun hroom hrest =>
      rw [hindex] at hroom
      refine .overrun hroom fun j l hl hfit => ?_
      cases j with
      | zero =>
          cases hl
          exact hvalid
      | succ j => exact hrest j l hl (by rwa [hindex])
  | loaded hroom hrest =>
      refine .loaded (fun _ => ?_) (List.forall_mem_cons.mpr ⟨hvalid, hrest⟩)
      cases lines with
      | nil => exact hfits
      | cons l lines =>
          rw [List.length_cons, ← hindex]
          exact hroom (List.cons_ne_nil l lines)

end

/-! ## Loading -/

section

variable {app : App} {pid : UInt32} {fb space : Addr} {c : CodeSection} {fp : File}

end

/-! ## Creation -/

/-- Its creation up to the code. -/
def App.opened (app : App) : Option (Addr × Memory × Addr × Store) :=
  (cAlloc app.mem (UInt32.ofNat KB)).toOption.bind fun r =>
    (openFile { app.toStore with mem := r.2 } app.fs (ascii "a")).toOption.map fun r' =>
      (r.1, r.2, r'.1, r'.2)

end ChicOS
