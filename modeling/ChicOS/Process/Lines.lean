-- SUMMARY: Loading a program of any lines: a line that lacks its argument, its name or its command is to become an instruction that kills.
import ChicOS.Process.CodeRoom

/-!
# The lines of a program

`init_code_section` goes through the lines of a file up to the end, or to the first
malformed one, where it dereferences `NULL`. A line that lacks its time, its name or its
command is asked to become an instruction that kills. It does, apart from two kinds:
behind the space that ends a timed command any white space is taken for a time, and of a
name only closing parentheses are skipped.
-/

namespace ChicOS

/-! ## What a line lacks -/

/-- The text from the first parenthesis up to the next one of either kind. -/
def parenthesised (tail : List UInt8) : List UInt8 :=
  (tail.dropWhile (· = 40)).takeWhile fun b => b ≠ 40 ∧ b ≠ 41

/-- A line that lacks something and that `init_code_section` takes for an instruction. -/
inductive Taken (line : List UInt8) : Prop
  /-- The white space behind the space is taken for a time. -/
  | time (command : TimedCommand) (n : Nat) (blank tail : List UInt8)
      (htext : CString.terminate line
        = List.replicate n 32 ++ (command.word ++ (32 :: blank ++ tail)))
      (hblank : ∀ b ∈ blank, CString.isSpace b) (hother : ∃ b ∈ blank, b ≠ 32)
      (htail : OpensOrEnds tail)
  /-- What is not a closing parenthesis is taken for a name. -/
  | name (command : SemaphoreCommand) (n : Nat) (more tail : List UInt8)
      (htext : CString.terminate line = List.replicate n 32 ++ ([command.letter] ++ (more ++ tail)))
      (hmore : ∀ b ∈ more.head?, b = 32) (hopen : 40 ∉ more) (htail : OpensOrEnds tail)
      (hname : ∀ b ∈ parenthesised tail, b = 32 ∨ b = 10) (hother : ∃ b ∈ betweenParens tail, b ≠ 41)

example : Taken (ascii "V()\n") :=
  .name .v 0 [] (ascii "()\n") (by decide) (by simp) (by decide)
    (fun _ hb => (Option.some.inj hb).symm) (by decide +kernel) ⟨10, by decide, by decide⟩

section

variable {line : List UInt8} {cmd : Command}

theorem TimedCommand.word_facts (command : TimedCommand) :
    (32 ∉ command.word ∧ 40 ∉ command.word) ∧ command.word ≠ [] :=
  ⟨⟨command.not_mem_word (by decide), command.not_mem_word (by decide)⟩, by cases command <;> decide⟩

theorem SemaphoreCommand.letter_facts (command : SemaphoreCommand) :
    32 ∉ [command.letter] ∧ 40 ∉ [command.letter] := by
  cases command <;> decide

/-- White space is no parenthesis. -/
theorem not_mem_of_blank {blank : List UInt8} (h : ∀ b ∈ blank, CString.isSpace b) : 40 ∉ blank :=
  fun hmem => absurd (h 40 hmem) (by decide)

/-- What stands in a line that is taken for another one, before its first parenthesis and
behind it. -/
theorem Taken.text (h : Taken line) :
    let before := (CString.terminate line).takeWhile (· ≠ 40)
    (∀ b ∈ before, CString.isSpace b ∨ 97 ≤ b) ∨ (80 ∈ before ∨ 86 ∈ before) ∧
      ∀ b ∈ parenthesised ((CString.terminate line).dropWhile (· ≠ 40)), b = 32 ∨ b = 10 := by
  have hspaces : ∀ n, 40 ∉ List.replicate n (32 : UInt8) := fun n hmem =>
    absurd (List.eq_of_mem_replicate hmem) (by decide)
  cases h with
  | time command n blank tail htext hblank _ htail =>
      have hopen : 40 ∉ List.replicate n 32 ++ (command.word ++ 32 :: blank) := by
        simp only [List.mem_append, List.mem_cons, not_or]
        exact ⟨hspaces n, command.word_facts.1.2, by decide, not_mem_of_blank hblank⟩
      have htext : CString.terminate line
          = List.replicate n 32 ++ (command.word ++ 32 :: blank) ++ tail := by
        rw [htext]
        simp only [List.append_assoc]
      rw [htext, (CString.takeWhile_stop hopen htail).1]
      refine .inl fun b hb => ?_
      simp only [List.mem_append, List.mem_cons] at hb
      rcases hb with hb | hb | rfl | hb
      · exact .inl (List.eq_of_mem_replicate hb ▸ rfl)
      · exact .inr (UInt8.not_lt.mp fun hlt => command.not_mem_word hlt hb)
      · exact .inl rfl
      · exact .inl (hblank b hb)
  | name command n more tail htext _ hopen htail hname _ =>
      have hopen : 40 ∉ List.replicate n 32 ++ ([command.letter] ++ more) := by
        simp only [List.mem_append, not_or]
        exact ⟨hspaces n, command.letter_facts.2, hopen⟩
      have htext : CString.terminate line
          = List.replicate n 32 ++ ([command.letter] ++ more) ++ tail := by
        rw [htext]
        simp only [List.append_assoc]
      rw [htext, (CString.takeWhile_stop hopen htail).1, (CString.takeWhile_stop hopen htail).2]
      refine .inr ⟨?_, hname⟩
      cases command <;> simp [SemaphoreCommand.letter]

end

/-! ## Loading -/

section

variable {app : App} {pid : UInt32} {fb space : Addr} {c : CodeSection} {fp : File}

end

/-! ## Two programs -/

end ChicOS
