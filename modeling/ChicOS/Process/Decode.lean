-- SUMMARY: The text of a program and what init_code_section decodes: they agree exactly when no line is longer than its window.
import ChicOS.Process.Program

/-!
# Decoding the text of a program

A program is written one instruction a line, after its header and an empty line.
`init_code_section` reads the lines through an array of 16 bytes: one `fgets` takes
15 of them at most, and what is left of a longer line is a line of its own, which
names no command and kills.

So the text decodes to the program it was written from exactly if each of its
lines, newline included, has 15 bytes at most.
-/

namespace ChicOS

/-! ## Instructions as text -/

inductive TimedCommand where
  | exec
  | read
  | write
  | print
  deriving DecidableEq, Repr

def TimedCommand.word : TimedCommand → List UInt8
  | .exec => ascii "exec"
  | .read => ascii "read"
  | .write => ascii "write"
  | .print => ascii "print"

def TimedCommand.event : TimedCommand → Events
  | .exec => .processExec
  | .read | .write => .diskRequest
  | .print => .printRequest

inductive SemaphoreCommand where
  | p
  | v
  deriving DecidableEq, Repr

def SemaphoreCommand.letter : SemaphoreCommand → UInt8
  | .p => 80
  | .v => 86

def SemaphoreCommand.event : SemaphoreCommand → Events
  | .p => .semaphoreP
  | .v => .semaphoreV

/-- A printable character that is no space and no parenthesis. -/
def SemaphoreName : Type := { c : UInt8 // 32 < c ∧ c < 127 ∧ c ≠ 40 ∧ c ≠ 41 }

inductive CodeLine where
  | timed (command : TimedCommand) (time : Fin (2 ^ 31))
  | semaphore (command : SemaphoreCommand) (name : SemaphoreName)

def CodeLine.text : CodeLine → List UInt8
  | .timed command time => command.word ++ 32 :: CString.printUnsigned time.val
  | .semaphore command name => [command.letter, 40, name.val, 41]

/-- What `init_code_section` is to read in a line. -/
def CodeLine.command : CodeLine → Command
  | .timed command time =>
    { e := command.event, time := some (UInt32.ofNat time.val), semName := none }
  | .semaphore command name => { e := command.event, time := none, semName := some name.val }

/-- An entry of the code section holds the instruction. -/
def CodeLine.IsAt (i : Instruction) : CodeLine → Prop
  | .timed command time => i.e = command.event ∧ i.remainingTime.toNat = time.val
  | .semaphore command name => i.e = command.event ∧ i.semName = name.val

/-- The lines of a program's text, with a newline after the last one or not. -/
def codeLines (final : Bool) : List CodeLine → List (List UInt8)
  | [] => []
  | l :: ls => (if ls.isEmpty && !final then l.text else l.text ++ [10]) :: codeLines final ls

/-! ## One line -/

theorem printUnsigned_not_mem {n : Nat} {b : UInt8} (hb : CString.isDigit b = false) :
    b ∉ CString.printUnsigned n := by
  intro hmem
  rw [CString.isDigit_of_mem_printUnsigned hmem] at hb
  cases hb

theorem TimedCommand.not_mem_word (command : TimedCommand) {b : UInt8}
    (hb : b < 97) : b ∉ command.word := by
  have hword : command.word.all (fun c => decide (97 ≤ c)) = true := by
    cases command <;> rfl
  intro hmem
  exact absurd hb (UInt8.not_lt.mpr (of_decide_eq_true (List.all_eq_true.mp hword b hmem)))

theorem retrieveEvent_word (command : TimedCommand) : retrieveEvent command.word = command.event := by
  cases command <;> rfl

theorem parseLine_timed (command : TimedCommand) (time : Fin (2 ^ 31)) {tail : List UInt8}
    (htail : CString.LineEnd tail) :
    parseLine (CodeLine.text (.timed command time) ++ tail)
      = .ok (CodeLine.command (.timed command time)) := by
  have hdigits : ∀ b, CString.isDigit b = false → b ∉ CString.printUnsigned time.val :=
    fun b hb => printUnsigned_not_mem hb
  have harg : ∀ b, b ≠ 10 → CString.isDigit b = false →
      b ∉ CString.printUnsigned time.val ++ tail := by
    intro b hb hdigit
    rw [List.mem_append, not_or]
    exact ⟨hdigits b hdigit, htail.not_mem hb⟩
  have htext : CodeLine.text (.timed command time) ++ tail
      = command.word ++ 32 :: (CString.printUnsigned time.val ++ tail) := by
    simp [CodeLine.text]
  have hmem : ∀ b, b ≠ 10 → b ≠ 32 → b < 97 → CString.isDigit b = false →
      b ∉ CodeLine.text (.timed command time) ++ tail := by
    intro b hb hspace hlt hdigit
    rw [htext, List.mem_append, List.mem_cons, not_or, not_or]
    exact ⟨command.not_mem_word hlt, hspace, harg b hb hdigit⟩
  have hne : CodeLine.text (.timed command time) ++ tail ≠ [] := by simp [htext]
  have hargne : CString.printUnsigned time.val ++ tail ≠ [] := by
    simp [CString.printUnsigned_ne_nil]
  have hwordne : command.word ≠ [] := by cases command <;> decide
  have hlt := time.isLt
  have hvalue : UInt32.ofInt time.val = UInt32.ofNat time.val := by
    have hsize : time.val < UInt32.size := Nat.lt_trans hlt (by decide)
    have hnat : (UInt32.ofNat time.val).toNat = time.val := UInt32.toNat_ofNat_of_lt' hsize
    have hint := ofInt_toNat (UInt32.ofNat time.val)
    rwa [hnat] at hint
  have htime : CString.atoi (CString.printUnsigned time.val ++ tail) = time.val := by
    apply CString.atoi_printUnsigned
    · omega
    · rcases htail with rfl | rfl
      · simp
      · simp [CString.isDigit]
  unfold parseLine
  rw [CString.terminate_of_not_mem (hmem 0 (by decide) (by decide) (by decide) (by decide))]
  dsimp only
  rw [CString.strtokCut_end (hmem 40 (by decide) (by decide) (by decide) (by decide)) hne, htext,
    CString.strtok_stop (command.not_mem_word (by decide)) hwordne (by simp)]
  dsimp only
  rw [List.drop_one, List.tail_cons, CString.strtok_end (harg 32 (by decide) (by decide)) hargne,
    retrieveEvent_word]
  dsimp only
  rw [htime, hvalue]
  cases command <;> rfl

theorem parseLine_semaphore (command : SemaphoreCommand) (name : SemaphoreName)
    {tail : List UInt8} (htail : CString.LineEnd tail) :
    parseLine (CodeLine.text (.semaphore command name) ++ tail)
      = .ok (CodeLine.command (.semaphore command name)) := by
  obtain ⟨c, hlow, hhigh, hopen, hclose⟩ := name
  have hzero : c ≠ 0 := by
    rintro rfl
    exact absurd hlow (by decide)
  have hletter : ∀ b, b ≠ 80 → b ≠ 86 → b ∉ [command.letter] := by
    intro b hp hv
    cases command <;> simpa [SemaphoreCommand.letter]
  have hparen : ∀ b ∈ (40 :: c :: 41 :: tail).head?, b = 40 := by simp
  have hclosing : ∀ b ∈ (41 :: tail).head?, b = 41 := by simp
  have htext : CodeLine.text (.semaphore command ⟨c, hlow, hhigh, hopen, hclose⟩) ++ tail
      = [command.letter] ++ 40 :: c :: 41 :: tail := rfl
  have hnul : (0 : UInt8) ∉ [command.letter] ++ 40 :: c :: 41 :: tail := by
    have htail0 : (0 : UInt8) ∉ tail := htail.not_mem (by decide)
    have hletter0 := hletter 0 (by decide) (by decide)
    simpa [Ne.symm hzero, htail0] using hletter0
  have hname : (40 : UInt8) ∉ c :: 41 :: tail := by
    have htail40 : (40 : UInt8) ∉ tail := htail.not_mem (by decide)
    simp [Ne.symm hopen, htail40]
  have hevent : retrieveEvent [command.letter] = command.event := by cases command <;> rfl
  unfold parseLine
  rw [htext, CString.terminate_of_not_mem hnul]
  dsimp only
  rw [CString.strtokCut_stop (hletter 40 (by decide) (by decide)) (by simp) hparen,
    CString.strtok_end (hletter 32 (by decide) (by decide)) (by simp)]
  dsimp only
  rw [hevent, CString.strtok_stop (hletter 40 (by decide) (by decide)) (by simp) hparen]
  dsimp only
  rw [List.drop_one, List.tail_cons, CString.strtok_end hname (by simp)]
  dsimp only
  have htoken : CString.strtok 41 (c :: 41 :: tail) = some ([c], tail) :=
    CString.strtok_stop (t := [c]) (by simpa using Ne.symm hclose) (by simp) hclosing
  rw [htoken]
  cases command <;> rfl

/-- A line that is read whole is understood. -/
theorem parseLine_text (l : CodeLine) {tail : List UInt8} (htail : CString.LineEnd tail) :
    parseLine (l.text ++ tail) = .ok l.command := by
  cases l with
  | timed command time => exact parseLine_timed command time htail
  | semaphore command name => exact parseLine_semaphore command name htail

/-! ## All lines -/

theorem commands_end {fuel : Nat} {fp : File} (hrest : fp.rest = []) (hfuel : 0 < fuel) :
    commands fuel fp = .ok [] := by
  obtain ⟨fuel, rfl⟩ := Nat.exists_eq_add_one.mpr hfuel
  rw [commands, File.gets_nil 15 hrest]
  exact ite_self (Except.ok [])

theorem commands_cons_eq_ok {fuel : Nat} {fp fp' : File} {line : List UInt8}
    {cmds : List (UInt32 × Command)} (heof : fp.eof = false)
    (hgets : fp.gets 15 = (some line, fp')) :
    commands (fuel + 1) fp = .ok cmds ↔ ∃ cmd rest, parseLine line = .ok cmd ∧
      commands fuel fp' = .ok rest ∧ cmds = (UInt32.ofNat fp'.tell, cmd) :: rest := by
  rw [commands, heof, hgets]
  dsimp only
  rw [if_neg Bool.false_ne_true]
  constructor
  · intro h
    obtain ⟨cmd, hparse, h⟩ := Except.bind_eq_ok.mp h
    obtain ⟨rest, hrest, h⟩ := Except.bind_eq_ok.mp h
    cases h
    exact ⟨cmd, rest, hparse, hrest, rfl⟩
  · rintro ⟨cmd, rest, hparse, hrest, rfl⟩
    rw [hparse, Except.ok_bind_run, hrest]
    rfl

/-- Lines that fit are read one by one. -/
theorem commands_of_lines {ls : List (List UInt8)} {cs : List Command} (hls : CString.Lines ls)
    (hfits : ∀ l ∈ ls, l.length ≤ 15) (hparse : List.Forall₂ (fun l c => parseLine l = .ok c) ls cs)
    {fuel : Nat} {fp : File} (hrest : fp.rest = ls.flatten) (heof : ls ≠ [] → fp.eof = false)
    (hfuel : ls.length < fuel) :
    ∃ cmds, commands fuel fp = .ok cmds ∧ cmds.map Prod.snd = cs := by
  induction hparse generalizing fuel fp with
  | nil => exact ⟨[], commands_end hrest hfuel, rfl⟩
  | @cons l c ls cs hc hcs ih =>
      obtain ⟨fuel, rfl⟩ := Nat.exists_eq_add_one.mpr (Nat.zero_lt_of_lt hfuel)
      have heof : fp.eof = false := heof (List.cons_ne_nil l ls)
      obtain ⟨fp', hgets, hrest', heof'⟩ := File.gets_line hls hrest (hfits l List.mem_cons_self)
      obtain ⟨cmds, hcmds, hmap⟩ := ih hls.tail (fun m hm => hfits m (List.mem_cons_of_mem l hm))
        hrest' (fun hne => (heof' hne).trans heof) (Nat.lt_of_succ_lt_succ hfuel)
      exact ⟨_, (commands_cons_eq_ok heof hgets).mpr ⟨c, cmds, hc, hcmds, rfl⟩,
        congrArg (List.cons c) hmap⟩

/-- A line that does not fit is read as two commands at least. -/
theorem fits_of_commands {ls : List (List UInt8)} (hls : CString.Lines ls) {fuel : Nat} {fp : File}
    {cmds : List (UInt32 × Command)} (hrest : fp.rest = ls.flatten)
    (heof : ls ≠ [] → fp.eof = false) (h : commands fuel fp = .ok cmds) :
    ls.length ≤ cmds.length ∧ (cmds.length = ls.length → ∀ l ∈ ls, l.length ≤ 15) := by
  induction fuel generalizing fp ls cmds with
  | zero => cases h
  | succ fuel ih =>
      cases ls with
      | nil => exact ⟨Nat.zero_le _, fun _ l hl => absurd hl List.not_mem_nil⟩
      | cons l ls =>
          have heof : fp.eof = false := heof (List.cons_ne_nil l ls)
          by_cases hlen : l.length ≤ 15
          · obtain ⟨fp', hgets, hrest', heof'⟩ := File.gets_line hls hrest hlen
            obtain ⟨cmd, rest, -, hcmds, rfl⟩ := (commands_cons_eq_ok heof hgets).mp h
            obtain ⟨hle, hall⟩ := ih hls.tail hrest' (fun hne => (heof' hne).trans heof) hcmds
            refine ⟨Nat.succ_le_succ hle, fun heq m hm => ?_⟩
            rcases List.mem_cons.mp hm with rfl | hm
            · exact hlen
            · exact hall (Nat.succ_inj.mp heq) m hm
          · -- what is left of the line is there for the next turn
            have hlong := Nat.not_le.mp hlen
            have hgets := File.gets_part hls hrest (by decide) hlong
            obtain ⟨cmd, rest, -, hcmds, rfl⟩ := (commands_cons_eq_ok heof hgets).mp h
            have hrest' : { fp with rest := (l.drop 15 :: ls).flatten }.rest
                = (l.drop 15 :: ls).flatten := rfl
            obtain ⟨hle, -⟩ := ih (hls.drop hlong) hrest' (fun _ => heof) hcmds
            rw [List.length_cons] at hle
            refine ⟨Nat.le_succ_of_le hle, fun heq => ?_⟩
            rw [List.length_cons, List.length_cons] at heq
            omega

/-! ## The text of a program -/

theorem CodeLine.not_mem_text (l : CodeLine) : 10 ∉ l.text := by
  cases l with
  | timed command time =>
      have hword := command.not_mem_word (b := 10) (by decide)
      have hdigits := printUnsigned_not_mem (n := time.val) (b := 10) (by decide)
      simp [CodeLine.text, hword, hdigits]
  | semaphore command name =>
      obtain ⟨c, hlow, -⟩ := name
      have hc : 10 ≠ c := by
        rintro rfl
        exact absurd hlow (by decide)
      cases command <;> simp [CodeLine.text, SemaphoreCommand.letter, hc]

theorem CodeLine.text_ne_nil (l : CodeLine) : l.text ≠ [] := by
  cases l <;> simp [CodeLine.text]

@[simp] theorem codeLines_length (final : Bool) (prog : List CodeLine) :
    (codeLines final prog).length = prog.length := by
  induction prog with
  | nil => rfl
  | cons l prog ih => simp [codeLines, ih]

theorem codeLines_lines (final : Bool) (prog : List CodeLine) :
    CString.Lines (codeLines final prog) := by
  induction prog with
  | nil => exact .nil
  | cons l prog ih =>
      rw [codeLines]
      split
      · rename_i hlast
        rw [Bool.and_eq_true, List.isEmpty_iff] at hlast
        rw [hlast.1]
        exact .last l.text_ne_nil l.not_mem_text
      · exact .cons l.not_mem_text ih

theorem codeLines_parse (final : Bool) (prog : List CodeLine) :
    List.Forall₂ (fun line c => parseLine line = .ok c) (codeLines final prog)
      (prog.map CodeLine.command) := by
  induction prog with
  | nil => exact .nil
  | cons l prog ih =>
      refine .cons ?_ ih
      split
      · have hparse : parseLine (l.text ++ []) = .ok l.command := parseLine_text l (.inl rfl)
        rwa [List.append_nil] at hparse
      · exact parseLine_text l (.inr rfl)

theorem lines_length_le {ls : List (List UInt8)} (h : CString.Lines ls) :
    ls.length ≤ ls.flatten.length := by
  induction h with
  | nil => exact Nat.le_refl 0
  | last hne _ =>
      have hpos := List.length_pos_iff.mpr hne
      simp only [List.flatten_cons, List.length_append, List.length_cons, List.length_nil]
      omega
  | cons _ _ ih =>
      simp only [List.flatten_cons, List.length_append, List.length_cons, List.length_nil]
      omega

/-! ## Loading -/

/-- Commands that are read are stored, if there is room for them. -/
theorem codeLoop_of_commands {it : Addr} {room fuel i : Nat} {fp : File}
    {instrs : Addr → Instruction} {cmds : List (UInt32 × Command)}
    (h : commands fuel fp = .ok cmds) (hit : it ≠ 0)
    (hroom : INSTRUCTION_SIZE * (i + cmds.length) ≤ room) :
    ∃ r, codeLoop codeSize it room fuel fp instrs i = .ok r := by
  induction fuel generalizing fp instrs i cmds with
  | zero => cases h
  | succ fuel ih =>
      rw [codeLoop, if_neg (codeSize_check i)]
      cases heof : fp.eof with
      | true => exact ⟨_, rfl⟩
      | false =>
          rw [if_neg Bool.false_ne_true]
          rcases hgets : fp.gets 15 with ⟨_ | line, fp'⟩
          · exact ⟨_, rfl⟩
          · obtain ⟨cmd, rest, hparse, hcmds, rfl⟩ := (commands_cons_eq_ok heof hgets).mp h
            rw [List.length_cons] at hroom
            have hfits : ¬ room < INSTRUCTION_SIZE * (i + 1) := by
              unfold INSTRUCTION_SIZE at hroom ⊢
              omega
            have hindex : i + 1 + rest.length = i + (rest.length + 1) := by omega
            dsimp only
            rw [if_neg hit, if_neg hfits, hparse, Except.ok_bind_run]
            exact ih hcmds (by rwa [hindex])

/-- The bytes of a code section. -/
def codeRoom (m : Memory) (space : Addr) : Nat :=
  (m.getHeader space).pageNum * PAGE_SIZE - sizeofAllocHeader

theorem loadCode_of_commands {st : Store} {fb space : Addr} {fp : File} {c : CodeSection}
    {cmds : List (UInt32 × Command)} (h : commandsAfter fp = .ok cmds) (hspace : space ≠ 0)
    (hroom : INSTRUCTION_SIZE * cmds.length ≤ codeRoom st.mem space) :
    ∃ r, loadCode st fb fp space c = .ok r := by
  obtain ⟨r, hloop⟩ : ∃ r, codeLoop codeSize space
      ((st.mem.getHeader space).pageNum * PAGE_SIZE - sizeofAllocHeader)
      ((fp.gets 15).2.rest.length + 2) (fp.gets 15).2 st.heap.instructions 0 = .ok r :=
    codeLoop_of_commands h hspace (by rw [Nat.zero_add]; exact hroom)
  unfold loadCode
  dsimp only
  rw [hloop]
  exact ⟨_, rfl⟩

/-- The commands after the empty line. -/
theorem commandsAfter_blank {fp : File} {text : List UInt8} (hrest : fp.rest = 10 :: text) :
    commandsAfter fp = commands (text.length + 2) { fp with rest := text } := by
  have hgets := File.gets_newline (s := fp) (n := 15) (l := []) hrest List.not_mem_nil (by decide)
  rw [commandsAfter, hgets]

/-! ## The round trip -/

/-- What `init_code_section` is to leave: the instructions in order, and their number. -/
def Decoded (prog : List CodeLine) (r : App × CodeSection) : Prop :=
  r.2.last.toNat = prog.length ∧
    ∀ (j : Nat) (l : CodeLine), prog[j]? = some l → l.IsAt (r.1.heap.instructions (entryAddr r.2.it j))

theorem CodeLine.isAt_store (l : CodeLine) (i : Instruction) (pos : UInt32) :
    l.IsAt (i.store pos l.command) := by
  cases l with
  | timed command time =>
      have hlt := time.isLt
      have hsize : time.val < UInt32.size := Nat.lt_trans hlt (by decide)
      exact ⟨rfl, UInt32.toNat_ofNat_of_lt' hsize⟩
  | semaphore command name => exact ⟨rfl, rfl⟩

section RoundTrip

variable {app : App} {fb space : Addr} {c : CodeSection} {fp : File} {prog : List CodeLine}
  {final : Bool} {pid : UInt32}

/-- If every line fits, the program is there. -/
theorem decoded_of_fits (hfb : fb ≠ 0) (hfp : (app.heap.syntBuffers fb).fp = some fp)
    (heof : fp.eof = false) (hrest : fp.rest = 10 :: (codeLines final prog).flatten)
    (hspace : space ≠ 0) (hroom : INSTRUCTION_SIZE * prog.length ≤ codeRoom app.mem space)
    (hmax : codeRoom app.mem space < 2 ^ 32) (hfits : ∀ l ∈ codeLines final prog, l.length ≤ 15) :
    ∃ r, initCodeSection app pid fb space c = .ok r ∧ Decoded prog r := by
  have hlines := codeLines_lines final prog
  have hfuel := lines_length_le hlines
  have htext : { fp with rest := (codeLines final prog).flatten }.rest
      = (codeLines final prog).flatten := rfl
  obtain ⟨cmds, hcmds, hmap⟩ := commands_of_lines hlines hfits (codeLines_parse final prog) htext
    (fun _ => heof) (Nat.lt_of_le_of_lt hfuel (Nat.lt_add_of_pos_right Nat.two_pos))
  have hafter := (commandsAfter_blank hrest).trans hcmds
  have hlength : cmds.length = prog.length := by
    have hlen := congrArg List.length hmap
    simpa using hlen
  obtain ⟨⟨st, c'⟩, hload⟩ : ∃ r, loadCode app.toStore fb fp space c = .ok r :=
    loadCode_of_commands hafter hspace (by rwa [hlength])
  refine ⟨({ app with toStore := st }, c'), ?_, ?_⟩
  · unfold initCodeSection
    rw [if_neg hfb, hfp]
    dsimp only
    rw [heof, if_neg Bool.false_ne_true, hload]
    rfl
  · obtain ⟨cmds', hcmds', hit, -, hlast, hentries, -⟩ := loadCode_commands hload
    cases hafter.symm.trans hcmds'
    refine ⟨?_, fun j l hl => ?_⟩
    · unfold INSTRUCTION_SIZE at hroom
      rw [hlast, UInt32.toNat_ofNat', hlength]
      omega
    · obtain ⟨hj, hjl⟩ := List.getElem?_eq_some_iff.mp hl
      obtain ⟨i, hi⟩ := hentries j (hlength.symm ▸ hj)
      have hcommand : cmds[j].2 = l.command := by
        have hget := congrArg (fun cs => cs[j]?) hmap
        simp only [List.getElem?_map, hl, Option.map_some] at hget
        simpa [hlength, hj] using hget
      dsimp only
      rw [hit, hi, hcommand]
      exact l.isAt_store i _

/-- If the program is there, every line fits. -/
theorem fits_of_decoded (hfp : (app.heap.syntBuffers fb).fp = some fp) (heof : fp.eof = false)
    (hrest : fp.rest = 10 :: (codeLines final prog).flatten)
    (hmax : codeRoom app.mem space < 2 ^ 32) {r : App × CodeSection}
    (hok : initCodeSection app pid fb space c = .ok r) (hr : Decoded prog r) :
    ∀ l ∈ codeLines final prog, l.length ≤ 15 := by
  obtain ⟨app', c'⟩ := r
  obtain ⟨-, st, hload, rfl⟩ := initCodeSection_eq_ok fp hok hfp heof
  obtain ⟨cmds, hcmds, -, -, hlast, -, -, hroom, -⟩ := loadCode_commands hload
  rw [commandsAfter_blank hrest] at hcmds
  have htext : { fp with rest := (codeLines final prog).flatten }.rest
      = (codeLines final prog).flatten := rfl
  apply (fits_of_commands (codeLines_lines final prog) htext (fun _ => heof) hcmds).2
  have hnum : cmds.length < 2 ^ 32 := by
    by_contra hmany
    have hfit := hroom (2 ^ 32 - 1) (by omega)
    unfold INSTRUCTION_SIZE at hfit
    unfold codeRoom at hmax
    have hmem : app.toStore.mem = app.mem := rfl
    omega
  have hcount := hr.1
  dsimp only at hcount
  rw [hlast, UInt32.toNat_ofNat'] at hcount
  rw [codeLines_length]
  omega

/-- Where the header has been read and the code memory is large enough, the
program is decoded exactly if each of its lines fits the window. -/
theorem code_round_trip (hfb : fb ≠ 0) (hfp : (app.heap.syntBuffers fb).fp = some fp)
    (heof : fp.eof = false) (hrest : fp.rest = 10 :: (codeLines final prog).flatten)
    (hspace : space ≠ 0) (hroom : INSTRUCTION_SIZE * prog.length ≤ codeRoom app.mem space)
    (hmax : codeRoom app.mem space < 2 ^ 32) :
    (∃ r, initCodeSection app pid fb space c = .ok r ∧ Decoded prog r) ↔
      ∀ l ∈ codeLines final prog, l.length ≤ 15 := by
  constructor
  · rintro ⟨r, hok, hr⟩
    exact fits_of_decoded hfp heof hrest hmax hok hr
  · exact decoded_of_fits hfb hfp heof hrest hspace hroom hmax

end RoundTrip

/-- A block for the code, at the address that `c_alloc` gave, and an open file
that has been read up to the empty line. -/
def App.readyToLoad (prog : List CodeLine) (final : Bool) : Addr × App :=
  let fp := File.start (10 :: (codeLines final prog).flatten)
  let heap :=
    { Heap.zero with syntBuffers := fun _ => { fp := some fp, h := 0, address := [] } }
  match cAlloc (initMem (fun _ => 0) 8192) (UInt32.ofNat KB) with
  | .ok (space, mem) => (space, { App.zero heap fun _ => none with mem := mem })
  | .error _ => (0, App.zero heap fun _ => none)

def shortProgram : List CodeLine :=
  [.timed .exec 999999999, .semaphore .p ⟨115, by decide⟩, .timed .write 20000000]

theorem code_round_trip_short :
    ∃ r, initCodeSection (App.readyToLoad shortProgram false).2 0 1
      (App.readyToLoad shortProgram false).1 { it := 0, pc := 0, size := 0, last := 0 } = .ok r ∧
      Decoded shortProgram r :=
  (code_round_trip (by decide) rfl rfl rfl (by decide +kernel) (by decide +kernel)
    (by decide +kernel)).mpr (by decide)

/-- A line of ten digits, and its newline, are two commands. -/
def longProgram : List CodeLine := [.timed .exec 1000000000]

theorem code_round_trip_long :
    ¬ ∃ r, initCodeSection (App.readyToLoad longProgram true).2 0 1
      (App.readyToLoad longProgram true).1 { it := 0, pc := 0, size := 0, last := 0 } = .ok r ∧
      Decoded longProgram r := by
  rintro ⟨r, hok, hlast, -⟩
  have htwo : ((initCodeSection (App.readyToLoad longProgram true).2 0 1
      (App.readyToLoad longProgram true).1 { it := 0, pc := 0, size := 0, last := 0 }).toOption.map
        fun r => r.2.last.toNat) = some 2 := by decide +kernel
  rw [hok] at htwo
  simp [Except.toOption, hlast, longProgram] at htwo

end ChicOS
