-- SUMMARY: The headers that read_header gets through: what their text must be for it to end inside its arrays.
import ChicOS.Memory.Room
import ChicOS.Process.Program

/-!
# Headers that are read

`read_header` looks for the newline at the end of the line of semaphores and for nothing
else: at the end of the file `fgetc` goes on giving `-1`, and the loop goes on storing it.
So it comes to an end, inside its arrays, only for a header that is complete and short.

What it stores in the header, and `init_semaphore` in the blocks of a semaphore, is its own
as long as none of these blocks is a live one: with page replacement a semaphore can be put
into the buffer of the very file that is read.
-/

namespace ChicOS

/-- What `read_header` goes through character by character: the text behind the name and
the three numbers, without the character that follows them. -/
def semaphoreLine (data : List UInt8) : List UInt8 :=
  let name := CString.scanWord data
  let segFlag := CString.scanNumber name.2
  let priority := CString.scanNumber segFlag.2
  let segSize := CString.scanNumber priority.2
  segSize.2.drop 1

/-- A header that the arrays of `read_header` hold, with its newline. -/
structure HeaderFits (data : List UInt8) : Prop where
  name : ∃ aux, (CString.scanWord data).1 = some aux ∧ aux.length < 256
  newline : 10 ∈ semaphoreLine data
  semaphores : (semaphoreNames (semaphoreLine data)).length < HEADER_SEMAPHORES

/-- A name goes into the list of semaphores. -/
def register (st : Store) (name : UInt8) : Except Stop Store := (initSemaphore st name 1).map Prod.snd

/-! ## The word and the numbers -/

theorem scanHeader_ends_iff {fp : File} :
    (∃ r, scanHeader fp = .ok r) ↔ ∃ aux, (CString.scanWord fp.rest).1 = some aux ∧ aux.length < 256 := by
  have hword : fp.scanWord.1 = (CString.scanWord fp.rest).1 := rfl
  rw [← hword]
  unfold scanHeader
  rcases fp.scanWord with ⟨_ | aux, fp'⟩
  · exact iff_of_false nofun nofun
  · dsimp only
    split
    · rename_i hlong
      refine iff_of_false nofun ?_
      rintro ⟨aux', haux, hshort⟩
      cases haux
      omega
    · rename_i hshort
      exact iff_of_true ⟨_, rfl⟩ ⟨aux, rfl, Nat.lt_of_not_le hshort⟩

theorem scanHeader_rest {fp fp' : File} {text : HeaderText} (h : scanHeader fp = .ok (text, fp')) :
    fp'.rest.drop 1 = semaphoreLine fp.rest := by
  unfold scanHeader at h
  split at h
  · cases h
  rename_i aux fp₁ hword
  have hfp₁ : fp₁ = fp.scanWord.2 := by rw [hword]
  split at h
  · cases h
  · cases h
    subst hfp₁
    rfl

/-! ## The line of semaphores -/

/-- The loop ends just if there is a newline to end it, the names before that fit the
array, and each can be registered; these names it has read then. -/
theorem readSemaphores_eq_ok_iff {st st' : Store} {names names' input rest : List UInt8} :
    readSemaphores st names input = .ok (names', rest, st') ↔
      10 ∈ input ∧ names.length + (semaphoreNames input).length < HEADER_SEMAPHORES ∧
        Run.run register st (semaphoreNames input) = .ok st' ∧
        names' = names ++ semaphoreNames input ∧ rest = afterLine input := by
  induction input generalizing st names with
  | nil =>
      refine iff_of_false (fun h => ?_) fun h => absurd h.1 List.not_mem_nil
      obtain ⟨r, -, h⟩ := Except.bind_eq_ok.mp h
      cases h
  | cons c input ih =>
      rw [readSemaphores]
      by_cases hend : c = 10
      · subst hend
        rw [if_pos rfl]
        have hnone : semaphoreNames (10 :: input) = [] := rfl
        rw [hnone, List.append_nil]
        split
        · rename_i hroom
          constructor
          · intro h
            cases h
            exact ⟨List.mem_cons_self, hroom, rfl, rfl, rfl⟩
          · rintro ⟨-, -, hrun, rfl, rfl⟩
            cases hrun
            rfl
        · rename_i hroom
          refine iff_of_false (fun h => ?_) fun h => hroom h.2.1
          cases h
      rw [if_neg hend]
      have hmem : 10 ∈ c :: input ↔ 10 ∈ input := by simp [Ne.symm hend]
      have hafter : afterLine (c :: input) = afterLine input := by simp [afterLine, hend]
      rw [hmem, hafter]
      by_cases hspace : c = 32
      · subst hspace
        rw [if_pos rfl]
        exact ih
      rw [if_neg hspace]
      have hnames : semaphoreNames (c :: input) = c :: semaphoreNames input := by
        simp [semaphoreNames, hend, hspace]
      rw [hnames, List.length_cons]
      split
      · rename_i hroom
        have hlength : (names ++ [c]).length + (semaphoreNames input).length
            = names.length + ((semaphoreNames input).length + 1) := by
          rw [List.length_append, List.length_singleton]
          omega
        have happend : names ++ [c] ++ semaphoreNames input = names ++ c :: semaphoreNames input := by
          rw [List.append_assoc, List.singleton_append]
        rw [← hlength, ← happend]
        constructor
        · intro h
          obtain ⟨⟨v, st₁⟩, hinit, h⟩ := Except.bind_eq_ok.mp h
          obtain ⟨hline, hlen, hrun, hrest⟩ := ih.mp h
          refine ⟨hline, hlen, Run.run_cons_eq_ok.mpr ⟨st₁, ?_, hrun⟩, hrest⟩
          rw [register, hinit]
          rfl
        · rintro ⟨hline, hlen, hrun, hrest⟩
          obtain ⟨st₁, hregister, hrun⟩ := Run.run_cons_eq_ok.mp hrun
          obtain ⟨⟨v, st₂⟩, hinit, hv⟩ := Except.bind_eq_ok.mp hregister
          cases hv
          rw [hinit, Except.ok_bind_run]
          exact ih.mpr ⟨hline, hlen, hrun, hrest⟩
      · rename_i hroom
        refine iff_of_false (fun h => ?_) fun h =>
          hroom (Nat.lt_of_le_of_lt (Nat.le_add_right _ _) h.2.1)
        cases h

/-! ## The header -/

/-- What it leaves in memory is what registering the names leaves there. -/
theorem readHeader_ok_iff {st : Store} {fb : Addr} {data : List UInt8} {mem' : Memory}
    (hfp : (st.heap.syntBuffers fb).fp = some (File.start data)) :
    (∃ st', readHeader st fb = .ok st' ∧ st'.mem = mem') ↔
      HeaderFits data ∧ ∃ header mem, cAlloc st.mem sizeofSyntHeader = .ok (header, mem) ∧
        header ≠ 0 ∧
        ∃ st', Run.run register { st with mem := mem } (semaphoreNames (semaphoreLine data))
          = .ok st' ∧ st'.mem = mem' := by
  constructor
  · rintro ⟨st', h, rfl⟩
    obtain ⟨header, mem, fp, fp', text, semaphores, rest, st₁, halloc, hheader, hfp₁, hscan, hsems, rfl⟩ :=
      readHeader_eq_ok h
    cases hfp.symm.trans hfp₁
    rw [scanHeader_rest hscan] at hsems
    obtain ⟨hline, hlen, hrun, -⟩ := readSemaphores_eq_ok_iff.mp hsems
    rw [List.length_nil, Nat.zero_add] at hlen
    exact ⟨⟨scanHeader_ends_iff.mp ⟨_, hscan⟩, hline, hlen⟩, header, mem, halloc, hheader, st₁, hrun,
      rfl⟩
  · rintro ⟨⟨hname, hline, hlen⟩, header, mem, halloc, hheader, st₁, hrun, rfl⟩
    obtain ⟨⟨text, fp'⟩, hscan⟩ : ∃ r, scanHeader (File.start data) = .ok r :=
      scanHeader_ends_iff.mpr hname
    have hsems : readSemaphores { st with mem := mem } [] (fp'.rest.drop 1)
        = .ok ([] ++ semaphoreNames (semaphoreLine data), afterLine (semaphoreLine data), st₁) := by
      rw [scanHeader_rest hscan]
      exact readSemaphores_eq_ok_iff.mpr ⟨hline, by rwa [List.length_nil, Nat.zero_add], hrun, rfl, rfl⟩
    unfold readHeader
    rw [halloc, Except.ok_bind_run, hfp]
    dsimp only
    rw [hscan, Except.ok_bind_run]
    dsimp only
    rw [if_neg hheader, hsems]
    exact ⟨_, rfl, rfl⟩

/-- A semaphore takes two pages at most. -/
theorem register_fills {m : Memory} {st : Store} (name : UInt8) {k k' : Nat}
    (h : m.Fills st.mem k k') (hroom : k' + 2 ≤ m.pt.len) :
    ∃ st' l, register st name = .ok st' ∧ m.Fills st'.mem k l ∧ l ≤ k' + 2 := by
  have hone : numPages sizeofSemaphore = 1 := by decide
  have hring : numPages (4 * (UInt32.ofNat DEFAULT_WAITERS_NUM + 1)) = 1 := by decide
  have hold : ∃ st' l, .ok st = (.ok st' : Except Stop Store) ∧ m.Fills st'.mem k l ∧ l ≤ k' + 2 :=
    ⟨st, k', rfl, h, Nat.le_add_right k' 2⟩
  unfold register initSemaphore
  split
  · exact hold
  split
  · obtain ⟨mem, hsem, hmem⟩ := h.alloc sizeofSemaphore (by decide) (by omega)
    rw [hone] at hmem
    obtain ⟨mem', hw, hmem'⟩ :=
      hmem.alloc (4 * (UInt32.ofNat DEFAULT_WAITERS_NUM + 1)) (by decide) (by omega)
    rw [hring] at hmem'
    rw [hsem, Except.ok_bind_run]
    dsimp only
    rw [if_neg (Nat.ne_of_gt (Nat.lt_add_left _ (by decide))), hw]
    exact ⟨_, k' + 1 + 1, rfl, hmem', Nat.le_refl _⟩
  · exact hold

theorem register_run_fills {m : Memory} (st : Store) (names : List UInt8) {k k' : Nat}
    (h : m.Fills st.mem k k') (hroom : k' + 2 * names.length ≤ m.pt.len) :
    ∃ st' l, Run.run register st names = .ok st' ∧ m.Fills st'.mem k l ∧
      l ≤ k' + 2 * names.length := by
  induction names generalizing st k' with
  | nil => exact ⟨st, k', rfl, h, Nat.le_refl _⟩
  | cons name names ih =>
      rw [List.length_cons] at hroom ⊢
      obtain ⟨st₁, l₁, hregister, h₁, hle₁⟩ := register_fills name h (by omega)
      obtain ⟨st', l, hrun, h', hle⟩ := ih st₁ h₁ (by omega)
      exact ⟨st', l, Run.run_cons_eq_ok.mpr ⟨st₁, hregister, hrun⟩, h', by omega⟩

/-- A header that fits is read, if there are pages for it and for its semaphores. -/
theorem readHeader_fills {m : Memory} (st : Store) (fb : Addr) {data : List UInt8} {k k' : Nat}
    (hfp : (st.heap.syntBuffers fb).fp = some (File.start data)) (hfits : HeaderFits data)
    (h : m.Fills st.mem k k')
    (hroom : k' + 1 + 2 * (semaphoreNames (semaphoreLine data)).length ≤ m.pt.len) :
    ∃ st' l, readHeader st fb = .ok st' ∧ m.Fills st'.mem k l ∧
      l ≤ k' + 1 + 2 * (semaphoreNames (semaphoreLine data)).length := by
  have hone : numPages sizeofSyntHeader = 1 := by decide
  obtain ⟨mem, halloc, hmem⟩ := h.alloc sizeofSyntHeader (by decide) (by omega)
  rw [hone] at hmem
  obtain ⟨st₁, l, hrun, h₁, hle⟩ := register_run_fills { st with mem := mem }
    (semaphoreNames (semaphoreLine data)) hmem hroom
  obtain ⟨st', hread, hmem'⟩ := (readHeader_ok_iff hfp).mpr
    ⟨hfits, _, mem, halloc, Nat.ne_of_gt (Nat.lt_add_left _ (by decide)), st₁, hrun, rfl⟩
  rw [← hmem'] at h₁
  exact ⟨st', l, hread, h₁, hle⟩

/-- A store of 16 free pages, with the file open in every buffer. -/
def Store.ofFile (data : List UInt8) : Store :=
  let heap :=
    { Heap.zero with
      syntBuffers := fun _ => { fp := some (File.start data), h := 0, address := [] } }
  { (App.zero heap fun _ => none).toStore with mem := initMem (fun _ => 0) 16384 }

end ChicOS
