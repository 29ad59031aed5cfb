-- SUMMARY: Program files of synt.c: opening one and reading its header.
import ChicOS.Memory.Leases
import ChicOS.Semaphore.Semaphore

/-!
# Program files

A program file starts with a header: a name, three numbers and a line with the
names of the semaphores the program uses, one character each. `read_header` reads
it into a new `synt_header` and registers the semaphores with value 1.
`open_file` allocates the `synt_buffer`, which it does not give back when it
fails.
-/

namespace ChicOS

/-- `valid_path`; `access` tells for which paths the host's `access` finds a file. -/
def validPath (access : List UInt8 → Bool) (path : List UInt8) : Bool :=
  !decide (MAX_ADDRESS_SIZE < path.length) && access path

/-- The size of the `semaphores` array of a header. -/
def HEADER_SEMAPHORES : Nat := 256

/-- What `%d` stores in an `i32`. -/
def toI32 (v : Int) : Int := (CString.clampLong v).bmod (2 ^ 32)

/-- The loop of `read_header` over the line of semaphore names. At the end of the
file `fgetc` gives `-1` for ever, a character that is no newline: the loop stores
it until it has left the array. -/
def readSemaphores (st : Store) (names : List UInt8) :
    List UInt8 → Except Stop (List UInt8 × List UInt8 × Store)
  | [] => do
    let _ ← initSemaphore st 0xFF 1
    .error .outOfBounds
  | c :: rest =>
    if c = 10 then
      if names.length < HEADER_SEMAPHORES then .ok (names, rest, st) else .error .outOfBounds
    else if c = 32 then readSemaphores st names rest
    else if names.length < HEADER_SEMAPHORES then do
      let (_, st) ← initSemaphore st c 1
      readSemaphores st (names ++ [c]) rest
    else .error .outOfBounds

/-- What the four `fscanf`s of `read_header` read. -/
structure HeaderText where
  name : List UInt8
  segFlag : Option Int
  priority : Option Int
  segSize : Option Int
  deriving DecidableEq, Repr

/-- The four `fscanf`s of `read_header`. The word goes through an array of 256
bytes, and 127 of them into the header. -/
def scanHeader (fp : File) : Except Stop (HeaderText × File) :=
  match fp.scanWord with
  | (none, _) => .error .uninit
  | (some aux, fp) =>
    if 256 ≤ aux.length then .error .outOfBounds
    else
      let segFlag := fp.scanNumber
      let priority := segFlag.2.scanNumber
      let segSize := priority.2.scanNumber
      .ok ({ name := (CString.terminate aux).take 127
             segFlag := segFlag.1
             priority := priority.1
             segSize := segSize.1 }, segSize.2)

/-- The header that is left in a fresh block. A number that was not there leaves
its field as it was. -/
def HeaderText.fill (t : HeaderText) (old : SyntHeader) (semaphores : List UInt8) : SyntHeader where
  name := t.name
  priority := (t.priority.map toI32).getD old.priority
  rwCount := 0
  segFlag := (t.segFlag.map toI32).getD old.segFlag
  segSize := (t.segSize.map toI32).getD old.segSize
  semaphores := semaphores

/-- `read_header`. -/
def readHeader (st : Store) (fb : Addr) : Except Stop Store := do
  let (header, mem) ← cAlloc st.mem sizeofSyntHeader
  match (st.heap.syntBuffers fb).fp with
  | none => .error .nullDeref
  | some fp => do
    let (text, fp) ← scanHeader fp
    if header = 0 then .error .nullDeref
    else do
      let (semaphores, rest, st) ← readSemaphores { st with mem := mem } [] (fp.rest.drop 1)
      let new := text.fill (st.heap.syntHeaders header) semaphores
      let sb := { st.heap.syntBuffers fb with fp := some { fp with rest := rest }, h := header }
      .ok { st with
        heap :=
          { st.heap with
            syntHeaders := Function.update st.heap.syntHeaders header new
            syntBuffers := Function.update st.heap.syntBuffers fb sb } }

/-- `open_file`, on the files of the host. -/
def openFile (st : Store) (fs : List UInt8 → Option (List UInt8)) (address : List UInt8) :
    Except Stop (Addr × Store) := do
  let (sb, mem) ← cAlloc st.mem sizeofSyntBuffer
  let st := { st with mem := mem }
  if MAX_ADDRESS_SIZE ≤ address.length then .ok (0, st)
  else if sb = 0 then .error .nullDeref
  else do
    let buf : SyntBuffer :=
      { st.heap.syntBuffers sb with address := address, fp := (fs address).map File.start }
    let st :=
      { st with heap.syntBuffers := Function.update st.heap.syntBuffers sb buf }
    if buf.fp = none then .ok (0, st)
    else do
      let st ← readHeader st sb
      .ok (sb, st)

/-! ## What reading a header changes -/

theorem scanHeader_eof {fp fp' : File} {text : HeaderText} (h : scanHeader fp = .ok (text, fp'))
    (hrest : fp'.rest ≠ []) : fp'.eof = fp.eof := by
  unfold scanHeader at h
  split at h
  · cases h
  · rename_i aux fp₁ hword
    split at h
    · cases h
    · cases h
      have hthree := File.scanNumber_rest_ne hrest
      have htwo := File.scanNumber_rest_ne hthree
      have hone := File.scanNumber_rest_ne htwo
      have hfp₁ : fp₁ = fp.scanWord.2 := by rw [hword]
      rw [File.scanNumber_eof hrest, File.scanNumber_eof hthree, File.scanNumber_eof htwo, hfp₁,
        File.scanWord_eof (hfp₁ ▸ hone)]

/-- An `init_semaphore` that returns refuses a name that is there already, or any name when
the list is full, or adds an entry under a new name. -/
theorem initSemaphore_cases {st st' : Store} {name : UInt8} {value : UInt32} {r : Int}
    (h : initSemaphore st name value = .ok (r, st')) :
    (((∃ i : Fin MAX_SIZE_SEMAPHORES, (st.semaphores.entry i).name = name) ∨
        MAX_SIZE_SEMAPHORES ≤ st.semaphores.last) ∧ st' = st) ∨
      ∃ (p w : Addr) (mem mem' : Memory) (sem : Semaphore)
        (hlast : st.semaphores.last < MAX_SIZE_SEMAPHORES),
        (∀ i : Fin MAX_SIZE_SEMAPHORES, (st.semaphores.entry i).name ≠ name) ∧
        cAlloc st.mem sizeofSemaphore = .ok (p, mem) ∧
        cAlloc mem (4 * (UInt32.ofNat DEFAULT_WAITERS_NUM + value)) = .ok (w, mem') ∧
        sem.name = name ∧ sem.head = 0 ∧ sem.tail = 0 ∧
        sem.id = (st.semaphores.max + 1).toUInt16 ∧
        st' = { st with
          mem := mem'
          semaphores :=
            { st.semaphores with
              l := st.semaphores.l.set st.semaphores.last sem
              max := st.semaphores.max + 1
              last := st.semaphores.last + 1 } } := by
  unfold initSemaphore at h
  split at h
  · rename_i htaken
    cases h
    exact .inl ⟨.inl htaken, rfl⟩
  rename_i hnew
  split at h
  · rename_i hlast
    obtain ⟨⟨p, mem⟩, hp, h⟩ := Except.bind_eq_ok.mp h
    dsimp only at h
    split at h
    · cases h
    obtain ⟨⟨w, mem'⟩, hw, h⟩ := Except.bind_eq_ok.mp h
    cases h
    exact .inr ⟨p, w, mem, mem', _, hlast, not_exists.mp hnew, hp, hw, rfl, rfl, rfl,
      rfl, rfl⟩
  · rename_i hfull
    cases h
    exact .inl ⟨.inr (Nat.le_of_not_lt hfull), rfl⟩

theorem initSemaphore_heap {st st' : Store} {name : UInt8} {value : UInt32} {r : Int}
    (h : initSemaphore st name value = .ok (r, st')) : st'.heap = st.heap := by
  rcases initSemaphore_cases h with
    ⟨-, rfl⟩ | ⟨p, w, mem, mem', sem, hlast, -, -, -, -, -, -, -, rfl⟩
  · rfl
  · rfl

/-- What each registration of a semaphore preserves, the line of names preserves. -/
theorem readSemaphores_induct {P : Store → Prop}
    (hP : ∀ {st st' : Store} {name : UInt8} {r : Int}, P st →
      initSemaphore st name 1 = .ok (r, st') → P st')
    {st st' : Store} {names names' input rest : List UInt8} (hst : P st)
    (h : readSemaphores st names input = .ok (names', rest, st')) : P st' := by
  induction input generalizing st names with
  | nil =>
      obtain ⟨r, -, h⟩ := Except.bind_eq_ok.mp h
      cases h
  | cons c input ih =>
      rw [readSemaphores] at h
      split at h
      · split at h
        · cases h; exact hst
        · cases h
      · split at h
        · exact ih hst h
        · split at h
          · obtain ⟨⟨r, st₁⟩, hinit, h⟩ := Except.bind_eq_ok.mp h
            exact ih (hP hst hinit) h
          · cases h

theorem readSemaphores_heap {st st' : Store} {names names' input rest : List UInt8}
    (h : readSemaphores st names input = .ok (names', rest, st')) : st'.heap = st.heap :=
  readSemaphores_induct (P := fun s => s.heap = st.heap)
    (fun hs hinit => (initSemaphore_heap hinit).trans hs) rfl h

theorem readSemaphores_input_ne {st : Store} {names input : List UInt8}
    {r : List UInt8 × List UInt8 × Store} (h : readSemaphores st names input = .ok r) :
    input ≠ [] := by
  rintro rfl
  obtain ⟨r, -, h⟩ := Except.bind_eq_ok.mp h
  cases h

/-- A `read_header` that returns filled one new header and registered semaphores. -/
theorem readHeader_eq_ok {st st' : Store} {fb : Addr} (h : readHeader st fb = .ok st') :
    ∃ (header : Addr) (mem : Memory) (fp fp' : File) (text : HeaderText)
      (semaphores rest : List UInt8) (st₁ : Store),
      cAlloc st.mem sizeofSyntHeader = .ok (header, mem) ∧ header ≠ 0 ∧
      (st.heap.syntBuffers fb).fp = some fp ∧ scanHeader fp = .ok (text, fp') ∧
      readSemaphores { st with mem := mem } [] (fp'.rest.drop 1) = .ok (semaphores, rest, st₁) ∧
      st' = { st₁ with
        heap :=
          { st.heap with
            syntHeaders := Function.update st.heap.syntHeaders header
              (text.fill (st.heap.syntHeaders header) semaphores)
            syntBuffers := Function.update st.heap.syntBuffers fb
              { st.heap.syntBuffers fb with
                fp := some { fp' with rest := rest }, h := header } } } := by
  obtain ⟨⟨header, mem⟩, halloc, h⟩ := Except.bind_eq_ok.mp h
  dsimp only at h
  split at h
  · cases h
  rename_i fp hfp
  obtain ⟨⟨text, fp'⟩, hscan, h⟩ := Except.bind_eq_ok.mp h
  dsimp only at h
  split at h
  · cases h
  rename_i hheader
  obtain ⟨⟨semaphores, rest, st₁⟩, hsems, h⟩ := Except.bind_eq_ok.mp h
  have hheap := readSemaphores_heap hsems
  have hheap : st₁.heap = st.heap := hheap
  cases h
  refine ⟨header, mem, fp, fp', text, semaphores, rest, st₁, halloc, hheader, hfp, hscan, hsems, ?_⟩
  rw [hheap]

/-- The file is open and not at its end after the header. -/
theorem readHeader_file {st st' : Store} {fb : Addr} (fp : File) (h : readHeader st fb = .ok st')
    (hfp : (st.heap.syntBuffers fb).fp = some fp) (heof : fp.eof = false) :
    ∃ fp', (st'.heap.syntBuffers fb).fp = some fp' ∧ fp'.eof = false := by
  obtain ⟨header, mem, fp₁, fp', text, semaphores, rest, st₁, -, -, hfp₁, hscan, hsems, rfl⟩ :=
    readHeader_eq_ok h
  rw [hfp] at hfp₁
  cases hfp₁
  have hne := readSemaphores_input_ne hsems
  have hrest : fp'.rest ≠ [] := fun hnil => hne (by rw [hnil]; rfl)
  refine ⟨{ fp' with rest := rest }, by simp, ?_⟩
  exact (scanHeader_eof hscan hrest).trans heof

/-- An `open_file` that returns a buffer allocated it, opened the file, and read its
header. -/
theorem openFile_eq_ok {st st' : Store} {fs : List UInt8 → Option (List UInt8)}
    {address : List UInt8} {fb : Addr} (h : openFile st fs address = .ok (fb, st'))
    (hfb : fb ≠ 0) :
    ∃ (mem : Memory) (data : List UInt8),
      cAlloc st.mem sizeofSyntBuffer = .ok (fb, mem) ∧ fs address = some data ∧
      readHeader
        { st with
          mem := mem
          heap.syntBuffers := Function.update st.heap.syntBuffers fb
            { st.heap.syntBuffers fb with address := address, fp := some (File.start data) } } fb
        = .ok st' := by
  obtain ⟨⟨sb, mem⟩, halloc, h⟩ := Except.bind_eq_ok.mp h
  dsimp only at h
  split at h
  · cases h
    exact absurd rfl hfb
  split at h
  · cases h
  split at h
  · cases h
    exact absurd rfl hfb
  · rename_i hfp
    obtain ⟨st₁, hread, h⟩ := Except.bind_eq_ok.mp h
    cases h
    cases hdata : fs address with
    | none => simp [hdata] at hfp
    | some data =>
        rw [hdata] at hread
        exact ⟨mem, data, halloc, rfl, hread⟩

theorem openFile_file {st st' : Store} {fs : List UInt8 → Option (List UInt8)}
    {address : List UInt8} {fb : Addr} (h : openFile st fs address = .ok (fb, st'))
    (hfb : fb ≠ 0) : ∃ fp, (st'.heap.syntBuffers fb).fp = some fp ∧ fp.eof = false := by
  obtain ⟨mem, data, -, -, hread⟩ := openFile_eq_ok h hfb
  exact readHeader_file (File.start data) hread (by simp) rfl

/-! ## What it asks of the allocator -/

theorem initSemaphore_calls {st st' : Store} {name : UInt8} {value : UInt32} {r : Int}
    (h : initSemaphore st name value = .ok (r, st')) : st.mem.calls <:+ st'.mem.calls := by
  rcases initSemaphore_cases h with
    ⟨-, rfl⟩ | ⟨p, w, mem, mem', sem, hlast, -, hp, hw, -, -, -, -, rfl⟩
  · exact List.suffix_refl _
  · exact (cAlloc_calls hp).trans (cAlloc_calls hw)

theorem readSemaphores_calls {st st' : Store} {names names' input rest : List UInt8}
    (h : readSemaphores st names input = .ok (names', rest, st')) :
    st.mem.calls <:+ st'.mem.calls :=
  readSemaphores_induct (P := fun s => st.mem.calls <:+ s.mem.calls)
    (fun hs hinit => hs.trans (initSemaphore_calls hinit)) (List.suffix_refl _) h

theorem readHeader_calls {st st' : Store} {fb : Addr} (h : readHeader st fb = .ok st') :
    st.mem.calls <:+ st'.mem.calls := by
  obtain ⟨header, mem, fp, fp', text, semaphores, rest, st₁, halloc, -, -, -, hsems, rfl⟩ :=
    readHeader_eq_ok h
  have hrest : mem.calls <:+ st₁.mem.calls := readSemaphores_calls hsems
  exact (cAlloc_calls halloc).trans hrest

/-- Reading a header ends no block's life. -/
theorem readHeader_live_of_mem {st st' : Store} {fb : Addr} {b : Block}
    (h : readHeader st fb = .ok st') (hb : b ∈ st.mem.live) : b ∈ st'.mem.live := by
  obtain ⟨header, mem, fp, fp', text, semaphores, rest, st₁, halloc, -, -, -, hsems, rfl⟩ :=
    readHeader_eq_ok h
  have hkept : b ∈ st₁.mem.live := by
    refine readSemaphores_induct (P := fun s => b ∈ s.mem.live) ?_
      (Memory.cAlloc_live_of_mem halloc hb) hsems
    intro s s' name r hs hinit
    rcases initSemaphore_cases hinit with
      ⟨-, rfl⟩ | ⟨p, w, mem, mem', sem, hlast, -, hp, hw, -, -, -, -, rfl⟩
    · exact hs
    · exact Memory.cAlloc_live_of_mem hw (Memory.cAlloc_live_of_mem hp hs)
  exact hkept

end ChicOS
