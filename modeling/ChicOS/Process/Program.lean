-- SUMMARY: What a program file says, as a value, and that loading a file puts what it says into memory.
import ChicOS.Process.Loading

/-!
# Program files and programs

`programOf` reads the text of a program file without touching any memory: its
header, the semaphores it names, and one command a line with the position after
the line. `read_header` and `init_code_section` put this program into the blocks
they are given, whatever the blocks held before; what a line does not say stays
as it was.
-/

namespace ChicOS

/-- What a program file says. -/
structure Program where
  header : HeaderText
  semaphores : List UInt8
  commands : List (UInt32 × Command)
  deriving DecidableEq, Repr

/-- The names on the line of semaphores. -/
def semaphoreNames (input : List UInt8) : List UInt8 := (input.takeWhile (· ≠ 10)).filter (· ≠ 32)

/-- What follows the line of semaphores. -/
def afterLine (input : List UInt8) : List UInt8 := (input.dropWhile (· ≠ 10)).drop 1

/-- The commands from here to the end of the file, each with the position after it. -/
def commands : Nat → File → Except Stop (List (UInt32 × Command))
  | 0, _ => .error .diverge
  | fuel + 1, fp =>
    if fp.eof then .ok []
    else
      match fp.gets 15 with
      | (none, _) => .ok []
      | (some line, fp) => do
        let cmd ← parseLine line
        let cmds ← commands fuel fp
        .ok ((UInt32.ofNat fp.tell, cmd) :: cmds)

/-- The commands of a file whose header has been read. -/
def commandsAfter (fp : File) : Except Stop (List (UInt32 × Command)) :=
  commands ((fp.gets 15).2.rest.length + 2) (fp.gets 15).2

/-- The program of a file. It has as many names and commands as the text: whether the header and
the block have room for them is for those who load it. -/
def programOf (data : List UInt8) : Except Stop Program := do
  let (header, fp) ← scanHeader (File.start data)
  let cmds ← commandsAfter { fp with rest := afterLine (fp.rest.drop 1) }
  .ok { header := header, semaphores := semaphoreNames (fp.rest.drop 1), commands := cmds }

/-! ## The header -/

theorem readSemaphores_names {st st' : Store} {names names' input rest : List UInt8}
    (h : readSemaphores st names input = .ok (names', rest, st')) :
    names' = names ++ semaphoreNames input ∧ rest = afterLine input := by
  induction input generalizing st names with
  | nil =>
      obtain ⟨r, -, h⟩ := Except.bind_eq_ok.mp h
      cases h
  | cons c input ih =>
      rw [readSemaphores] at h
      split at h
      · rename_i hc
        subst hc
        split at h
        · cases h
          simp [semaphoreNames, afterLine]
        · cases h
      · rename_i hc
        split at h
        · rename_i hspace
          subst hspace
          obtain ⟨hnames, hrest⟩ := ih h
          simp [hnames, hrest, semaphoreNames, afterLine]
        · rename_i hspace
          split at h
          · obtain ⟨⟨r, st₁⟩, -, h⟩ := Except.bind_eq_ok.mp h
            obtain ⟨hnames, hrest⟩ := ih h
            simp [hnames, hrest, semaphoreNames, afterLine, hc, hspace]
          · cases h

theorem scanHeader_data {fp fp' : File} {text : HeaderText} (h : scanHeader fp = .ok (text, fp')) :
    fp'.data = fp.data := by
  unfold scanHeader at h
  split at h
  · cases h
  · rename_i aux fp₁ hword
    have hdata : fp₁.data = fp.data := by
      have := File.scanWord_data fp
      rw [hword] at this
      exact this
    split at h
    · cases h
    · cases h
      simp [hdata]

/-! ## The code -/

/-- The size that the loop checks against is never reached: the section's size is
zero, and the number before zero is no multiple of an instruction's size. -/
theorem codeSize_check (i : Nat) :
    ¬ codeSize - 1 ≤ UInt32.ofNat i * UInt32.ofNat INSTRUCTION_SIZE := by
  have hmax : codeSize - 1 = 0xFFFFFFFF := by decide
  rw [hmax, UInt32.le_iff_toNat_le, UInt32.toNat_mul, UInt32.toNat_ofNat', UInt32.toNat_ofNat']
  show ¬ 4294967295 ≤ (i % 2 ^ 32) * (16 % 2 ^ 32) % 2 ^ 32
  omega

theorem entryAddr_inj {it : Addr} {i j : Nat} : entryAddr it i = entryAddr it j ↔ i = j := by
  simp [entryAddr, INSTRUCTION_SIZE]

/-- The loop stores the commands of the file, one an entry, and changes no other
entry. The array is within its block. -/
theorem codeLoop_eq_ok {it : Addr} {room fuel i n : Nat} {fp fp' : File}
    {instrs instrs' : Addr → Instruction} {complete : Bool}
    (h : codeLoop codeSize it room fuel fp instrs i = .ok (complete, fp', instrs', n)) :
    ∃ cmds, commands fuel fp = .ok cmds ∧ complete = true ∧ n = i + cmds.length ∧
      (∀ (j : Nat) (hj : j < cmds.length), ∃ c : Instruction,
        instrs' (entryAddr it (i + j)) = c.store cmds[j].1 cmds[j].2) ∧
      (∀ a, (∀ j < cmds.length, a ≠ entryAddr it (i + j)) → instrs' a = instrs a) ∧
      (∀ j < cmds.length, INSTRUCTION_SIZE * (i + j + 1) ≤ room) ∧ fp'.data = fp.data := by
  induction fuel generalizing fp instrs i with
  | zero => cases h
  | succ fuel ih =>
      rw [codeLoop] at h
      split at h
      · rename_i heof
        cases h
        refine ⟨[], if_pos heof, rfl, rfl, ?_, fun _ _ => rfl, ?_, rfl⟩
        · exact fun j hj => absurd hj (Nat.not_lt_zero j)
        · exact fun j hj => absurd hj (Nat.not_lt_zero j)
      rename_i heof
      rw [if_neg (codeSize_check i)] at h
      split at h
      · rename_i fp₁ hgets
        cases h
        refine ⟨[], ?_, rfl, rfl, ?_, fun _ _ => rfl, ?_, ?_⟩
        · rw [commands, if_neg heof, hgets]
        · exact fun j hj => absurd hj (Nat.not_lt_zero j)
        · exact fun j hj => absurd hj (Nat.not_lt_zero j)
        · have hdata := File.gets_data fp 15
          rwa [hgets] at hdata
      rename_i line fp₁ hgets
      dsimp only at h
      split at h
      · cases h
      split at h
      · cases h
      rename_i hit hroom
      obtain ⟨cmd, hparse, h⟩ := Except.bind_eq_ok.mp h
      obtain ⟨cmds, hcmds, hcomplete, hn, hentries, hothers, hfits, hdata⟩ := ih h
      refine ⟨(UInt32.ofNat fp₁.tell, cmd) :: cmds, ?_, hcomplete, ?_, ?_, ?_, ?_, ?_⟩
      · rw [commands, if_neg heof, hgets]
        dsimp only
        rw [hparse, Except.ok_bind_run, hcmds]
        rfl
      · rw [hn, List.length_cons]
        omega
      · intro j hj
        cases j with
        | zero =>
            -- the entry is written here, and by no later turn
            refine ⟨instrs (entryAddr it i), ?_⟩
            have hkept := hothers (entryAddr it i) fun j _ heq => by
              have := entryAddr_inj.mp heq
              omega
            rw [Nat.add_zero, hkept, Function.update_self]
            rfl
        | succ j =>
            obtain ⟨c, hc⟩ := hentries j (Nat.lt_of_succ_lt_succ hj)
            have hindex : i + 1 + j = i + (j + 1) := by omega
            rw [hindex] at hc
            exact ⟨c, hc⟩
      · intro a ha
        have hkept := hothers a fun j hj => by
          have hindex : i + 1 + j = i + (j + 1) := by omega
          rw [hindex]
          exact ha (j + 1) (Nat.succ_lt_succ hj)
        have hne : a ≠ entryAddr it i := ha 0 (Nat.succ_pos _)
        rw [hkept, Function.update_of_ne hne]
      · intro j hj
        cases j with
        | zero => exact Nat.le_of_not_lt hroom
        | succ j =>
            have hfit := hfits j (Nat.lt_of_succ_lt_succ hj)
            have hindex : i + 1 + j = i + (j + 1) := by omega
            rwa [hindex] at hfit
      · have hread := File.gets_data fp 15
        rw [hgets] at hread
        exact hdata.trans hread

/-- Loading the code puts the commands of the file into the address space. -/
theorem loadCode_commands {st st' : Store} {fb space : Addr} {fp : File} {c c' : CodeSection}
    (h : loadCode st fb fp space c = .ok (st', c')) :
    ∃ cmds, commandsAfter fp = .ok cmds ∧ c'.it = space ∧ c'.pc = 0 ∧
      c'.last = UInt32.ofNat cmds.length ∧
      (∀ (j : Nat) (hj : j < cmds.length), ∃ c : Instruction,
        st'.heap.instructions (entryAddr space j) = c.store cmds[j].1 cmds[j].2) ∧
      (∀ a, (∀ j < cmds.length, a ≠ entryAddr space j) →
        st'.heap.instructions a = st.heap.instructions a) ∧
      (∀ j < cmds.length, INSTRUCTION_SIZE * (j + 1)
        ≤ (st.mem.getHeader space).pageNum * PAGE_SIZE - sizeofAllocHeader) ∧
      st'.heap.syntHeaders = st.heap.syntHeaders ∧
      (∃ fp', (st'.heap.syntBuffers fb).fp = some fp' ∧ fp'.data = fp.data) ∧
      (st'.heap.syntBuffers fb).h = (st.heap.syntBuffers fb).h := by
  obtain ⟨complete, fp', instrs, i, hloop, rfl, rfl⟩ := loadCode_eq_ok h
  obtain ⟨cmds, hcmds, rfl, rfl, hentries, hothers, hfits, hdata⟩ := codeLoop_eq_ok hloop
  simp only [Nat.zero_add] at hentries hothers hfits
  refine ⟨cmds, hcmds, rfl, rfl, ?_, hentries, hothers, hfits, rfl, ⟨fp', ?_, ?_⟩, ?_⟩
  · dsimp only
    rw [if_pos rfl, Nat.zero_add]
  · simp
  · rw [hdata, File.gets_data]
  · simp

/-- Reading the header of a file from its start, and then the code, reads the
program of the file. -/
theorem readHeader_program {st st' : Store} {fb : Addr} {fp fp₁ : File}
    {cmds : List (UInt32 × Command)} (h : readHeader st fb = .ok st')
    (hfp : (st.heap.syntBuffers fb).fp = some fp) (hstart : fp = File.start fp.data)
    (hfp₁ : (st'.heap.syntBuffers fb).fp = some fp₁) (hcmds : commandsAfter fp₁ = .ok cmds) :
    ∃ prog, programOf fp.data = .ok prog ∧ prog.commands = cmds ∧ fp₁.data = fp.data ∧
      ∃ header, header ≠ 0 ∧ (st'.heap.syntBuffers fb).h = header ∧ ∃ old : SyntHeader,
        st'.heap.syntHeaders header = prog.header.fill old prog.semaphores := by
  obtain ⟨header, mem, fp₀, fp', text, semaphores, rest, st₁, -, hheader, hfp₀, hscan, hsems, rfl⟩ :=
    readHeader_eq_ok h
  cases hfp.symm.trans hfp₀
  obtain ⟨hnames, hrest⟩ := readSemaphores_names hsems
  rw [List.nil_append] at hnames
  have hfp₁' : { fp' with rest := rest } = fp₁ := by simpa using hfp₁
  subst hrest
  rw [← hfp₁'] at hcmds
  refine ⟨{ header := text, semaphores := semaphores, commands := cmds }, ?_, rfl, ?_, header,
    hheader, ?_, st.heap.syntHeaders header, ?_⟩
  · unfold programOf
    rw [← hstart, hscan, Except.ok_bind_run]
    dsimp only
    rw [hcmds, hnames]
    rfl
  · have hdata := scanHeader_data hscan
    rw [← hfp₁']
    exact hdata
  · simp
  · simp

end ChicOS
