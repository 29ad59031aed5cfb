-- SUMMARY: Whole program files: header, semaphores and code, written out and read back.
import ChicOS.Process.Decode
import ChicOS.Fs.Header

/-!
# Whole program files

A program file has its name and three numbers, a line each, the line of semaphores, an empty
line, and one instruction a line. `read_header` leaves the file behind the line of semaphores,
and `init_code_section` goes on from there, through the empty line. What they make of a file
that was written out so is the program it was written from, if the lines of code fit the
window of `fgets`.
-/

namespace ChicOS

/-- What is written to a program file. -/
structure ProgramText where
  name : List UInt8
  segFlag : Fin (2 ^ 31)
  priority : Fin (2 ^ 31)
  segSize : Fin (2 ^ 31)
  semaphores : List SemaphoreName
  code : List CodeLine
  name_ne_nil : name ≠ []
  name_printable : ∀ b ∈ name, CString.isPrint b = true ∧ b ≠ 32
  name_length : name.length ≤ 127

namespace ProgramText

/-- The names on the line of semaphores, a space between them. -/
def semaphoresLine (t : ProgramText) : List UInt8 := (t.semaphores.map Subtype.val).intersperse 32

/-- A number on a line of its own. -/
def number (n : Fin (2 ^ 31)) (rest : List UInt8) : List UInt8 :=
  10 :: (CString.printUnsigned n.val ++ rest)

/-- What is behind the numbers. -/
def body (t : ProgramText) (final : Bool) : List UInt8 :=
  10 :: (t.semaphoresLine ++ 10 :: 10 :: (codeLines final t.code).flatten)

def text (t : ProgramText) (final : Bool) : List UInt8 :=
  t.name ++ number t.segFlag (number t.priority (number t.segSize (t.body final)))

/-- The program that is to be read. -/
def header (t : ProgramText) : HeaderText where
  name := t.name
  segFlag := some t.segFlag.val
  priority := some t.priority.val
  segSize := some t.segSize.val

/-- The program says what was written. -/
structure Says (t : ProgramText) (prog : Program) : Prop where
  header : prog.header = t.header
  semaphores : prog.semaphores = t.semaphores.map Subtype.val
  commands : prog.commands.map Prod.snd = t.code.map CodeLine.command

end ProgramText

-- ---------------------------------------------------------------------------
-- Words and numbers, each on a line
-- ---------------------------------------------------------------------------

/-- A number is read from its line, as long as more is to come, and no digit. -/
theorem File.scanNumber_line {s : File} {n : Fin (2 ^ 31)} {b : UInt8} {rest : List UInt8}
    (hs : s.rest = ProgramText.number n (b :: rest)) (hb : CString.isDigit b = false) :
    s.scanNumber = (some (n.val : Int), { s with rest := b :: rest }) := by
  have hskip : CString.scanNumber (ProgramText.number n (b :: rest)) =
      CString.scanNumber (CString.printUnsigned n.val ++ b :: rest) := by
    simp [ProgramText.number, CString.scanNumber, CString.isSpace]
  have hscan := CString.scanNumber_printUnsigned n.val (b :: rest) fun c hc => by
    cases hc
    exact hb
  unfold File.scanNumber
  rw [hs, hskip, hscan]
  simp

/-- A word is read from its line. -/
theorem File.scanWord_line {s : File} {w rest : List UInt8} (hs : s.rest = w ++ 10 :: rest)
    (hne : w ≠ []) (hw : ∀ b ∈ w, CString.isSpace b = false) :
    s.scanWord = (some w, { s with rest := 10 :: rest }) := by
  have hstop : ∀ b ∈ (10 :: rest).head?, (!CString.isSpace b) = false := by
    intro b hb
    cases hb
    rfl
  obtain ⟨htake, hdrop⟩ := CString.takeWhile_append_stop
    (p := fun b => !CString.isSpace b) (fun b hb => by rw [hw b hb]; rfl) hstop
  have hstart : (w ++ 10 :: rest).dropWhile CString.isSpace = w ++ 10 :: rest := by
    cases w with
    | nil => exact absurd rfl hne
    | cons b w =>
        have hb := hw b List.mem_cons_self
        simp [hb]
  have hscan : CString.scanWord (w ++ 10 :: rest) = (some w, 10 :: rest) := by
    unfold CString.scanWord
    rw [hstart]
    dsimp only
    rw [htake, hdrop]
    split
    · exact absurd ‹_› hne
    · rfl
  unfold File.scanWord
  rw [hs, hscan]
  simp

/-! ## Names with separators -/

theorem mem_intersperse {α : Type} {l : List α} {s b : α} (h : b ∈ l.intersperse s) :
    b = s ∨ b ∈ l := by
  induction l with
  | nil => cases h
  | cons c l ih =>
      cases l with
      | nil => exact .inr h
      | cons d l =>
          rw [List.intersperse_cons_cons] at h
          rcases List.mem_cons.mp h with rfl | h
          · exact .inr List.mem_cons_self
          · rcases List.mem_cons.mp h with rfl | h
            · exact .inl rfl
            · exact (ih h).imp id (List.mem_cons_of_mem c)

/-- Separators that are filtered out leave the list. -/
theorem filter_intersperse {α : Type} {l : List α} {s : α} {p : α → Bool} (hs : p s = false)
    (hl : ∀ b ∈ l, p b = true) : (l.intersperse s).filter p = l := by
  induction l with
  | nil => rfl
  | cons c l ih =>
      have hc := hl c List.mem_cons_self
      cases l with
      | nil => simp [hc]
      | cons d l =>
          have hrest := ih fun b hb => hl b (List.mem_cons_of_mem c hb)
          rw [List.intersperse_cons_cons, List.filter_cons_of_pos hc,
            List.filter_cons_of_neg (by rw [hs]; exact Bool.false_ne_true), hrest]

namespace ProgramText

variable {t : ProgramText} {final : Bool}

/-- The name is one word. -/
theorem name_word : ∀ b ∈ t.name, CString.isSpace b = false := by
  intro b hb
  obtain ⟨hprint, hne⟩ := t.name_printable b hb
  rw [CString.isSpace_of_isPrint hprint]
  exact decide_eq_false hne

theorem name_terminate : (CString.terminate t.name).take 127 = t.name := by
  have hnul : 0 ∉ t.name := by
    intro hmem
    exact absurd (t.name_printable 0 hmem).1 (by decide)
  rw [CString.terminate_of_not_mem hnul]
  exact List.take_of_length_le t.name_length

/-- The header is read back, up to the line of semaphores. -/
theorem scanHeader_text : scanHeader (File.start (t.text final)) =
    .ok (t.header, { data := t.text final, rest := t.body final, eof := false }) := by
  have hword : (File.start (t.text final)).scanWord = (some t.name, _) :=
    File.scanWord_line rfl t.name_ne_nil t.name_word
  have hlength := t.name_length
  unfold scanHeader
  rw [hword]
  dsimp only
  rw [if_neg (by omega), File.scanNumber_line rfl rfl]
  dsimp only
  rw [File.scanNumber_line rfl rfl]
  dsimp only
  rw [File.scanNumber_line rfl rfl, name_terminate]
  rfl

/-- The names are read back from their line. -/
theorem semaphoreNames_line (more : List UInt8) :
    semaphoreNames (t.semaphoresLine ++ 10 :: more) = t.semaphores.map Subtype.val ∧
      afterLine (t.semaphoresLine ++ 10 :: more) = more := by
  have hline : ∀ b ∈ t.semaphoresLine, decide (b ≠ 10) = true := by
    intro b hb
    refine decide_eq_true ?_
    rintro rfl
    rcases mem_intersperse hb with hsep | hmem
    · cases hsep
    · obtain ⟨⟨c, hlow, -⟩, -, rfl⟩ := List.mem_map.mp hmem
      exact absurd hlow (by decide)
  have hstop : ∀ b ∈ (10 :: more).head?, decide (b ≠ 10) = false := by
    intro b hb
    cases hb
    rfl
  obtain ⟨htake, hdrop⟩ := CString.takeWhile_append_stop (p := fun b => decide (b ≠ 10)) hline hstop
  unfold semaphoreNames afterLine
  rw [htake, hdrop]
  refine ⟨filter_intersperse (by decide) fun b hb => ?_, rfl⟩
  obtain ⟨⟨c, hlow, -⟩, -, rfl⟩ := List.mem_map.mp hb
  refine decide_eq_true ?_
  rintro rfl
  exact absurd hlow (by decide)

/-- The whole file is read back, up to the code. -/
theorem programOf_text {prog : Program} : programOf (t.text final) = .ok prog ↔
    prog.header = t.header ∧ prog.semaphores = t.semaphores.map Subtype.val ∧
      commands ((codeLines final t.code).flatten.length + 2)
        { data := t.text final, rest := (codeLines final t.code).flatten, eof := false } =
          .ok prog.commands := by
  obtain ⟨hnames, hafter⟩ := semaphoreNames_line (t := t) (10 :: (codeLines final t.code).flatten)
  unfold programOf
  rw [scanHeader_text, Except.ok_bind_run]
  dsimp only
  rw [body, List.drop_one, List.tail_cons, hnames, hafter, commandsAfter_blank rfl]
  constructor
  · intro h
    obtain ⟨cmds, hcmds, h⟩ := Except.bind_eq_ok.mp h
    cases h
    exact ⟨rfl, rfl, hcmds⟩
  · rintro ⟨hheader, hsemaphores, hcmds⟩
    rw [hcmds, Except.ok_bind_run, ← hheader, ← hsemaphores]

/-- Lines of code that fit are read back. -/
theorem programOf_of_fits (hfits : ∀ l ∈ codeLines final t.code, l.length ≤ 15) :
    ∃ prog, programOf (t.text final) = .ok prog ∧ t.Says prog := by
  have hlines := codeLines_lines final t.code
  have hfuel := lines_length_le hlines
  have hrest : ({ data := t.text final, rest := (codeLines final t.code).flatten, eof := false } :
      File).rest = (codeLines final t.code).flatten := rfl
  obtain ⟨cmds, hcmds, hmap⟩ := commands_of_lines hlines hfits (codeLines_parse final t.code)
    hrest (fun _ => rfl) (Nat.lt_of_le_of_lt hfuel (Nat.lt_add_of_pos_right Nat.two_pos))
  exact ⟨⟨t.header, t.semaphores.map Subtype.val, cmds⟩,
    programOf_text.mpr ⟨rfl, rfl, hcmds⟩, rfl, rfl, hmap⟩

end ProgramText

end ChicOS
