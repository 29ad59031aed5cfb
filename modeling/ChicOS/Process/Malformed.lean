-- SUMMARY: Malformed program lines: which ones they are, and that the loader dereferences NULL on exactly these.
import ChicOS.Process.Decode

/-!
# Malformed lines

A line without a command, a timed command without its time and a semaphore command
without its name leave `init_code_section` with a `NULL` from `strtok`, which it does
not look at before it uses it. On every other line it has what it needs: a command it
does not know is an instruction that kills.
-/

namespace ChicOS

/-- The end of a text, or a parenthesis. -/
def OpensOrEnds (tail : List UInt8) : Prop := ∀ b ∈ tail.head?, b = 40

/-- What stands between the first parentheses and the next. -/
def betweenParens (tail : List UInt8) : List UInt8 := (tail.dropWhile (· = 40)).takeWhile (· ≠ 40)

/-- What a line lacks that `init_code_section` uses. Its text goes up to the first
terminator. -/
inductive Malformed (line : List UInt8) : Prop
  /-- There is no command: only spaces, up to the end or to a parenthesis behind one. -/
  | noCommand (n : Nat) (tail : List UInt8)
      (htext : CString.terminate line = List.replicate n 32 ++ tail)
      (htail : OpensOrEnds tail) (hspace : n = 0 → tail = [])
  /-- There is no time before the end or the first parenthesis. -/
  | noTime (command : TimedCommand) (n m : Nat) (tail : List UInt8)
      (htext : CString.terminate line
        = List.replicate n 32 ++ (command.word ++ (List.replicate m 32 ++ tail)))
      (htail : OpensOrEnds tail)
  /-- Between the first parentheses and the next, or the end, there are closing ones only. -/
  | noName (command : SemaphoreCommand) (n : Nat) (more tail : List UInt8)
      (htext : CString.terminate line = List.replicate n 32 ++ ([command.letter] ++ (more ++ tail)))
      (hmore : ∀ b ∈ more.head?, b = 32) (hopen : 40 ∉ more) (htail : OpensOrEnds tail)
      (hname : ∀ b ∈ betweenParens tail, b = 41)

/-! ## The three kinds of commands -/

theorem retrieveEvent_cases (command : List UInt8) :
    (∃ c : TimedCommand, command = c.word) ∨ (∃ c : SemaphoreCommand, command = [c.letter]) ∨
      retrieveEvent command = .processKill := by
  unfold retrieveEvent
  split
  · exact .inr (.inl ⟨.v, ‹_›⟩)
  split
  · exact .inr (.inl ⟨.p, ‹_›⟩)
  split
  · exact .inl ⟨.exec, ‹_›⟩
  split
  · rename_i hdisk
    exact .inl (hdisk.elim (fun h => ⟨.write, h⟩) fun h => ⟨.read, h⟩)
  split
  · exact .inl ⟨.print, ‹_›⟩
  · exact .inr (.inr rfl)

section

variable {line command args : List UInt8}

theorem parseLine_of_none
    (h : CString.strtok 32 (CString.strtokCut 40 (CString.terminate line)) = none) :
    parseLine line = .error .nullDeref := by
  unfold parseLine
  dsimp only
  rw [h]

theorem parseLine_of_timed {c : TimedCommand}
    (h : CString.strtok 32 (CString.strtokCut 40 (CString.terminate line)) = some (c.word, args)) :
    parseLine line =
      match CString.strtok 32 args with
      | none => .error .nullDeref
      | some (time, _) =>
        .ok { e := c.event, time := some (UInt32.ofInt (CString.atoi time)), semName := none } := by
  unfold parseLine
  dsimp only
  rw [h]
  cases c <;> rfl

theorem parseLine_of_semaphore {c : SemaphoreCommand}
    (h : CString.strtok 32 (CString.strtokCut 40 (CString.terminate line))
      = some ([c.letter], args)) :
    parseLine line =
      match CString.strtok 40 (CString.terminate line) with
      | none => .error .nullDeref
      | some (_, args) =>
        match CString.strtok 40 args with
        | none => .error .nullDeref
        | some (name, _) =>
          match CString.strtok 41 name with
          | none => .error .nullDeref
          | some (name, _) => .ok { e := c.event, time := none, semName := name.head? } := by
  unfold parseLine
  dsimp only
  rw [h]
  cases c <;> rfl

theorem parseLine_of_other
    (h : CString.strtok 32 (CString.strtokCut 40 (CString.terminate line)) = some (command, args))
    (hkill : retrieveEvent command = .processKill) :
    parseLine line = .ok { e := .processKill, time := none, semName := none } := by
  unfold parseLine
  dsimp only
  rw [h]
  dsimp only
  rw [hkill]

/-! ## What `strtok` leaves -/

/-- The command is looked for before the first parenthesis. -/
theorem strtokCut_before {before tail : List UInt8} (hbefore : 40 ∉ before)
    (htail : OpensOrEnds tail) (hne : before = [] → tail = []) :
    CString.strtokCut 40 (before ++ tail) = before := by
  by_cases hnil : before = []
  · rw [hnil, hne hnil]
    rfl
  · exact CString.strtokCut_stop hbefore hnil htail

/-- A text that starts with a parenthesis has no command to know. -/
theorem retrieveEvent_of_paren {text : List UInt8}
    (h : CString.strtok 32 (CString.strtokCut 40 (40 :: text)) = some (command, args)) :
    retrieveEvent command = .processKill := by
  obtain ⟨n, tail, hcut, hne, -, -, -⟩ := CString.strtok_eq_some h
  have hcut : 40 :: (text.takeWhile (· = 40) ++ (text.dropWhile (· = 40)).takeWhile (· ≠ 40))
      = List.replicate n 32 ++ (command ++ tail) := by
    rw [← hcut]
    simp [CString.strtokCut]
  cases n with
  | succ n =>
      rw [List.replicate_succ, List.cons_append] at hcut
      exact absurd (List.cons.inj hcut).1 (by decide)
  | zero =>
      cases command with
      | nil => exact absurd rfl hne
      | cons b command =>
          obtain ⟨rfl, -⟩ := List.cons.inj hcut
          rfl

/-- Any other text is what stands before the first parenthesis, and what follows. -/
theorem split_paren {text : List UInt8} (h : text.head? ≠ some 40) :
    ∃ before tail, text = before ++ tail ∧ 40 ∉ before ∧ OpensOrEnds tail ∧
      (before = [] → tail = []) := by
  refine ⟨text.takeWhile (· ≠ 40), text.dropWhile (· ≠ 40), List.takeWhile_append_dropWhile.symm,
    fun hmem => ?_, fun b hb => ?_, fun hnil => ?_⟩
  · have hne := List.mem_takeWhile_imp hmem
    simp at hne
  · have hstop := List.head?_dropWhile_not (fun b => decide (b ≠ 40)) text
    rw [Option.mem_def.mp hb] at hstop
    simpa using hstop
  · cases text with
    | nil => rfl
    | cons b text =>
        have hb : b ≠ 40 := fun heq => h (congrArg some heq)
        simp [hb] at hnil

end

/-- The name is the token there. -/
theorem name_eq_none_iff {tail : List UInt8} (htail : OpensOrEnds tail) :
    ((CString.strtok 40 (tail.drop 1)).bind fun token => CString.strtok 41 token.1) = none ↔
      ∀ b ∈ betweenParens tail, b = 41 := by
  -- the parentheses behind the first one are skipped along with it
  have hskip : (tail.drop 1).dropWhile (· = 40) = tail.dropWhile (· = 40) := by
    cases tail with
    | nil => rfl
    | cons b tail =>
        obtain rfl := htail b rfl
        rfl
  unfold CString.strtok betweenParens
  rw [hskip]
  cases hdrop : tail.dropWhile (· = 40) with
  | nil => exact iff_of_true rfl fun b hb => absurd hb List.not_mem_nil
  | cons b rest => exact CString.strtok_eq_none

/-! ## Exactly the malformed lines -/

theorem parseLine_of_malformed {line : List UInt8} (h : Malformed line) :
    parseLine line = .error .nullDeref := by
  have hspaces : ∀ n, 40 ∉ List.replicate n (32 : UInt8) := fun n hmem =>
    absurd (List.eq_of_mem_replicate hmem) (by decide)
  cases h with
  | noCommand n tail htext htail hspace =>
      refine parseLine_of_none ?_
      rw [htext, strtokCut_before (hspaces n) htail fun hnil =>
        hspace (List.replicate_eq_nil_iff _ |>.mp hnil)]
      exact CString.strtok_eq_none.mpr fun b hb => List.eq_of_mem_replicate hb
  | noTime command n m tail htext htail =>
      have hwordne : command.word ≠ [] := by cases command <;> decide
      have hbefore : 40 ∉ List.replicate n 32 ++ (command.word ++ List.replicate m (32 : UInt8)) := by
        simp only [List.mem_append, not_or]
        exact ⟨hspaces n, command.not_mem_word (by decide), hspaces m⟩
      have hstop : ∀ b ∈ (List.replicate m (32 : UInt8)).head?, b = 32 := fun b hb =>
        List.eq_of_mem_replicate (List.mem_of_mem_head? hb)
      have hcut : CString.strtokCut 40 (CString.terminate line)
          = List.replicate n 32 ++ (command.word ++ List.replicate m 32) := by
        rw [htext, ← strtokCut_before hbefore htail (by simp [hwordne])]
        simp
      have hcommand := CString.strtok_stop (command.not_mem_word (by decide)) hwordne hstop
      rw [← CString.strtok_replicate n, ← hcut] at hcommand
      rw [parseLine_of_timed hcommand]
      have hnone : CString.strtok 32 ((List.replicate m (32 : UInt8)).drop 1) = none :=
        CString.strtok_eq_none.mpr fun b hb => List.eq_of_mem_replicate (List.mem_of_mem_drop hb)
      rw [hnone]
  | noName command n more tail htext hmore hopen htail hname =>
      have hletter : 40 ∉ [command.letter] ∧ 32 ∉ [command.letter] := by cases command <;> decide
      have hbefore : 40 ∉ List.replicate n 32 ++ ([command.letter] ++ more) := by
        simp only [List.mem_append, not_or]
        exact ⟨hspaces n, hletter.1, hopen⟩
      have htext : CString.terminate line
          = List.replicate n 32 ++ ([command.letter] ++ more) ++ tail := by
        rw [htext]
        simp
      have hne : List.replicate n 32 ++ ([command.letter] ++ more) ≠ [] := by simp
      have hcommand := CString.strtok_stop hletter.2 (List.cons_ne_nil _ _) hmore
      rw [← CString.strtok_replicate n, ← CString.strtokCut_stop hbefore hne htail, ← htext] at hcommand
      rw [parseLine_of_semaphore hcommand, htext, CString.strtok_stop hbefore hne htail]
      dsimp only
      have hname := (name_eq_none_iff htail).mpr hname
      cases hparen : CString.strtok 40 (tail.drop 1) with
      | none => rfl
      | some token =>
          rw [hparen] at hname
          dsimp only [Option.bind_some] at hname ⊢
          rw [hname]

theorem malformed_of_parseLine {line : List UInt8} {e : Stop} (h : parseLine line = .error e) :
    Malformed line := by
  by_cases hparen : (CString.terminate line).head? = some 40
  · exfalso
    obtain ⟨text, htext⟩ := List.head?_eq_some_iff.mp hparen
    rcases hcommand : CString.strtok 32 (CString.strtokCut 40 (CString.terminate line)) with
      _ | ⟨command, args⟩
    · have hmem : 40 ∈ CString.strtokCut 40 (CString.terminate line) := by
        simp [htext, CString.strtokCut]
      exact absurd (CString.strtok_eq_none.mp hcommand 40 hmem) (by decide)
    · have hkill : retrieveEvent command = .processKill := by
        rw [htext] at hcommand
        exact retrieveEvent_of_paren hcommand
      rw [parseLine_of_other hcommand hkill] at h
      cases h
  obtain ⟨before, tail, htext, hbefore, htail, hnil⟩ := split_paren hparen
  have hcut : CString.strtokCut 40 (CString.terminate line) = before := by
    rw [htext]
    exact strtokCut_before hbefore htail hnil
  rcases hcommand : CString.strtok 32 before with _ | ⟨command, args⟩
  · have hspaces := List.eq_replicate_of_mem (CString.strtok_eq_none.mp hcommand)
    refine .noCommand before.length tail (by rw [← hspaces, htext]) htail fun hzero => ?_
    exact hnil (List.eq_nil_of_length_eq_zero hzero)
  obtain ⟨n, more, hsplit, hne, hspace, hmore, rfl⟩ := CString.strtok_eq_some hcommand
  rw [← hcut] at hcommand
  rcases retrieveEvent_cases command with ⟨c, rfl⟩ | ⟨c, rfl⟩ | hkill
  · rw [parseLine_of_timed hcommand] at h
    cases htime : CString.strtok 32 (more.drop 1) with
    | some token =>
        rw [htime] at h
        cases h
    | none =>
        have hall : ∀ b ∈ more, b = 32 := by
          cases more with
          | nil => exact fun b hb => absurd hb List.not_mem_nil
          | cons b more =>
              rw [List.forall_mem_cons]
              exact ⟨hmore b rfl, CString.strtok_eq_none.mp htime⟩
        refine .noTime c n more.length tail ?_ htail
        rw [← List.eq_replicate_of_mem hall, htext, hsplit]
        simp only [List.append_assoc]
  · have hne : before ≠ [] := by
      rw [hsplit]
      simp
    rw [parseLine_of_semaphore hcommand, htext, CString.strtok_stop hbefore hne htail] at h
    have hname : ((CString.strtok 40 (tail.drop 1)).bind fun token => CString.strtok 41 token.1)
        = none := by
      dsimp only at h
      split at h
      · rename_i hnone
        rw [hnone]
        rfl
      · rename_i hsome
        rw [hsome]
        dsimp only [Option.bind_some]
        split at h
        · assumption
        · cases h
    refine .noName c n more tail ?_ hmore (fun hmem => hbefore ?_) htail
      ((name_eq_none_iff htail).mp hname)
    · rw [htext, hsplit]
      simp only [List.append_assoc]
    · rw [hsplit]
      simp [hmem]
  · rw [parseLine_of_other hcommand hkill] at h
    cases h

/-- `init_code_section` dereferences `NULL` in a line just when it is malformed, and has
no other way to fail in one. -/
theorem parseLine_eq_error_iff {line : List UInt8} {e : Stop} :
    parseLine line = .error e ↔ e = .nullDeref ∧ Malformed line := by
  constructor
  · intro h
    have hmalformed := malformed_of_parseLine h
    cases h.symm.trans (parseLine_of_malformed hmalformed)
    exact ⟨rfl, hmalformed⟩
  · rintro ⟨rfl, h⟩
    exact parseLine_of_malformed h

end ChicOS
