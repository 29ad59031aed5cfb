-- SUMMARY: p_create of a file that was written out: with room for it, the process is there, with its header and its code.
import ChicOS.Process.Growth
import ChicOS.Process.Text

/-!
# Creation with room

`p_create` takes a block for the code, then `open_file` one for its buffer and `read_header`
one for the header, and two for each semaphore that is new. As long as these fit behind the
pages that are taken, a program that was written to a file is loaded, and the table has a
process with its header and its instructions; if and only if every line of the code fits the
window of `fgets`.
-/

namespace ChicOS

namespace ProgramText

/-- There is a place in the table and a free lock, a code section has room for the
instructions, and the header for the names; and behind the pages that are taken there are those
that are asked for. -/
structure Room (t : ProgramText) (app : App) (k : Nat) : Prop where
  table : app.pcb.curr.toNat < MAX_PCB - 1
  lock : 0 < app.pcb.pcbS
  code : t.code.length ≤ 127
  names : t.semaphores.length < HEADER_SEMAPHORES
  filled : app.mem.FilledTo k
  pages : k + 8 + 2 * t.semaphores.length ≤ app.mem.pt.len

/-- The header of a program file, in memory. -/
def synt (t : ProgramText) : SyntHeader where
  name := t.name
  priority := t.priority.val
  rwCount := 0
  segFlag := t.segFlag.val
  segSize := t.segSize.val
  semaphores := t.semaphores.map Subtype.val

/-- What was written has been read into the process in a slot. -/
structure ReadBack (t : ProgramText) (app : App) (k : Fin MAX_PCB) : Prop where
  header : app.headerOf k = t.synt
  last : (app.pcb.slot k).c.last.toNat = t.code.length
  code : ∀ (j : Nat) (l : CodeLine), t.code[j]? = some l → l.IsAt (app.entry k j)

variable {t : ProgramText} {final : Bool}

/-! ## The header -/

theorem semaphoreLine_text : semaphoreLine (t.text final) =
    t.semaphoresLine ++ 10 :: 10 :: (codeLines final t.code).flatten :=
  (scanHeader_rest scanHeader_text).symm

theorem names_text :
    semaphoreNames (semaphoreLine (t.text final)) = t.semaphores.map Subtype.val := by
  rw [semaphoreLine_text]
  exact (semaphoreNames_line _).1

theorem length_names_text :
    (semaphoreNames (semaphoreLine (t.text final))).length = t.semaphores.length := by
  rw [names_text]
  exact List.length_map Subtype.val

theorem headerFits (hnames : t.semaphores.length < HEADER_SEMAPHORES) :
    HeaderFits (t.text final) where
  name := scanHeader_ends_iff.mp ⟨_, scanHeader_text⟩
  newline := by
    rw [semaphoreLine_text]
    exact List.mem_append_right _ List.mem_cons_self
  semaphores := by
    rw [length_names_text]
    exact hnames

theorem toI32_of_lt (n : Fin (2 ^ 31)) : toI32 n.val = n.val := by
  have hlt := n.isLt
  unfold toI32 CString.clampLong
  rw [Int.bmod_eq_of_le]
  · omega
  · omega
  · omega

theorem fill_eq (t : ProgramText) (old : SyntHeader) :
    t.header.fill old (t.semaphores.map Subtype.val) = t.synt := by
  simp only [HeaderText.fill, header, Option.map_some, Option.getD_some, toI32_of_lt, synt]

theorem pCreate_header {app app' : App} {address : List UInt8} {pid : UInt32}
    (h : pCreate app address = .ok (pid, app')) (hroom : app.pcb.curr.toNat < MAX_PCB - 1) :
    ∃ data prog old, app.fs address = some data ∧ programOf data = .ok prog ∧
      app'.headerOf ⟨app.pcb.curr.toNat, Nat.lt_of_lt_pred hroom⟩ =
        prog.header.fill old prog.semaphores := by
  rcases pCreate_eq_ok h with ⟨hfull, -, -⟩ | ⟨hcurr, p, st, hp, -, happ⟩
  · exact absurd hroom (Nat.not_lt.mpr hfull)
  obtain ⟨data, prog, hdata, hprog, hcreated⟩ := hp.program
  obtain ⟨old, hfill⟩ := hcreated.header
  have hslot : app'.pcb.slot ⟨app.pcb.curr.toNat, Nat.lt_of_lt_pred hroom⟩ = p := by
    rw [happ]
    exact (PCB.slot_enter app.pcb p (Nat.lt_of_lt_pred hcurr) _).trans (if_pos rfl)
  have hheap : app'.heap = st.heap := by rw [happ]
  refine ⟨data, prog, old, hdata, hprog, ?_⟩
  rw [App.headerOf, hslot, hheap]
  exact hfill

/-! ## The stages -/

/-- The code is where `read_header` has left the file. -/
theorem readHeader_rest {st st' : Store} {fb : Addr}
    (hfp : (st.heap.syntBuffers fb).fp = some (File.start (t.text final)))
    (hok : readHeader st fb = .ok st') :
    ∃ fp, (st'.heap.syntBuffers fb).fp = some fp ∧ fp.eof = false ∧
      fp.rest = 10 :: (codeLines final t.code).flatten := by
  obtain ⟨header, mem, fp₀, fp', text, semaphores, rest, st₁, -, -, hfp₀, hscan, hsems, rfl⟩ :=
    readHeader_eq_ok hok
  cases hfp.symm.trans hfp₀
  cases scanHeader_text.symm.trans hscan
  obtain ⟨-, hrest⟩ := readSemaphores_names hsems
  rw [body, List.drop_one, List.tail_cons, (semaphoreNames_line _).2] at hrest
  refine ⟨{ data := t.text final, rest := rest, eof := false }, ?_, rfl, hrest⟩
  simp

/-- The file in a buffer is open at its code, and two pages from a page on are live for it. -/
structure AtCode (t : ProgramText) (final : Bool) (st : Store) (k : Nat) (fb : Addr) (fp : File) :
    Prop where
  buffer : fb ≠ 0
  file : (st.heap.syntBuffers fb).fp = some fp
  more : fp.eof = false
  rest : fp.rest = 10 :: (codeLines final t.code).flatten
  room : codeRoom st.mem (k * PAGE_SIZE + sizeofAllocHeader) = 2 * PAGE_SIZE - sizeofAllocHeader
  live : { start := k, pages := 2, bytes := KB } ∈ st.mem.live

variable {app : App} {address name : List UInt8} {k : Nat}

/-- A block for the code is taken, the file opened and its header read. -/
theorem Room.opened (h : t.Room app k) (haddress : address.length < MAX_ADDRESS_SIZE)
    (hfile : app.fs address = some (t.text final)) :
    ∃ (mem : Memory) (fb : Addr) (st : Store) (fp : File),
      cAlloc app.mem (UInt32.ofNat KB) = .ok (k * PAGE_SIZE + sizeofAllocHeader, mem) ∧
      openFile { app.toStore with mem := mem } app.fs address = .ok (fb, st) ∧
      t.AtCode final st k fb fp := by
  have hpages := h.pages
  have htwo : numPages (UInt32.ofNat KB) = 2 := by decide
  have hfive : numPages sizeofSyntBuffer = 5 := by decide
  obtain ⟨mem, hspace, hmem, hlive, hheader⟩ :=
    h.filled.alloc (UInt32.ofNat KB) (by decide) (by omega)
  rw [htwo] at hmem hlive hheader
  have hlen := hmem.len
  obtain ⟨mem', hbuffer, hmem'⟩ :=
    hmem.filled.fills.alloc sizeofSyntBuffer (by decide) (by omega)
  rw [hfive] at hmem'
  have hfb : (k + 2) * PAGE_SIZE + sizeofAllocHeader ≠ 0 :=
    Nat.ne_of_gt (Nat.lt_add_left _ (by decide))
  let buffer : SyntBuffer :=
    { app.heap.syntBuffers ((k + 2) * PAGE_SIZE + sizeofAllocHeader) with
      address := address, fp := some (File.start (t.text final)) }
  let opened : Store :=
    { app.toStore with
      mem := mem'
      heap.syntBuffers := Function.update app.heap.syntBuffers
        ((k + 2) * PAGE_SIZE + sizeofAllocHeader) buffer }
  have hfp : (opened.heap.syntBuffers ((k + 2) * PAGE_SIZE + sizeofAllocHeader)).fp
      = some (File.start (t.text final)) := by
    simp [opened, buffer]
  obtain ⟨st, l, hread, hst, -⟩ := readHeader_fills opened _ hfp (headerFits h.names) hmem'
    (by rw [length_names_text]; omega)
  obtain ⟨fp, hfp', heof, hrest⟩ := readHeader_rest hfp hread
  refine ⟨mem, _, st, fp, hspace, ?_, hfb, hfp', heof, hrest, ?_, hst.live _ hlive⟩
  · unfold openFile
    rw [hbuffer, Except.ok_bind_run]
    dsimp only
    rw [if_neg (Nat.not_le.mpr haddress), if_neg hfb, hfile]
    dsimp only [Option.map_some]
    rw [if_neg (by simp), hread]
    rfl
  · unfold codeRoom
    rw [hst.header k (by omega), hheader]
    rfl

/-! ## The table -/

/-- The slot of the new process. -/
def Room.slot (h : t.Room app k) : Fin MAX_PCB :=
  ⟨app.pcb.curr.toNat, Nat.lt_of_lt_pred h.table⟩

/-- There is a place for a process. -/
theorem Room.enters {app₁ : App} (h : t.Room app k) (hcurr : app₁.pcb.curr = app.pcb.curr)
    (hlock : app₁.pcb.pcbS = app.pcb.pcbS) (p : Process) :
    ∃ app', enterTable app₁ p = .ok app' := by
  have hfree := h.lock
  have htable := Nat.lt_of_lt_pred h.table
  rw [← hlock] at hfree
  rw [← hcurr] at htable
  have hwait : semWait .pcbS app₁.pcb.pcbS = .ok (app₁.pcb.pcbS - 1) :=
    semWait_eq_ok.mpr (Nat.succ_pred_eq_of_pos hfree).symm
  unfold enterTable
  rw [hwait, Except.ok_bind_run, dif_pos htable]
  exact ⟨_, rfl⟩

theorem length_of_createName (hname : createName address = .ok (some name)) :
    address.length < MAX_ADDRESS_SIZE := by
  unfold createName at hname
  dsimp only at hname
  split at hname
  · cases hname
  · rename_i hshort
    exact Nat.not_le.mp fun hlong => hshort (.inl hlong)

/-- The process that enters the table, once its code is loaded. -/
def newProcess (name : List UInt8) (pid : UInt32) (space fb : Addr) (c : CodeSection) : Process where
  name := name
  pid := pid
  status := .new
  timeToRun := TIME_SLICE
  hUsed := 0
  addressSpace := space
  fb := fb
  c := c

/-- What becomes of the code becomes of the creation. -/
theorem Room.pCreate_eq (h : t.Room app k) (hname : createName address = .ok (some name))
    (hfile : app.fs address = some (t.text final)) :
    ∃ (base : App) (fb : Addr) (fp : File), t.AtCode final base.toStore k fb fp ∧
      base.pcb.curr = app.pcb.curr ∧ base.pcb.pcbS = app.pcb.pcbS ∧
      pCreate app address = (do
        let pid := app.pcb.lastPid.toUInt32
        let space := k * PAGE_SIZE + sizeofAllocHeader
        let r ← initCodeSection base pid fb space { it := 0, pc := 0, size := 0, last := 0 }
        let app₂ ← enterTable r.1 (newProcess name pid space fb r.2)
        .ok (pid, app₂)) := by
  obtain ⟨mem, fb, st, fp, hspace, hopen, hcode⟩ := h.opened (length_of_createName hname) hfile
  refine ⟨{ app with pcb := { app.pcb with lastPid := app.pcb.lastPid + 1 }, toStore := st }, fb,
    fp, hcode, rfl, rfl, ?_⟩
  unfold pCreate App.alloc
  rw [hname, Except.ok_bind_run]
  dsimp only
  rw [if_neg (Nat.not_le.mpr h.table), hspace]
  simp only [Except.ok_bind_run]
  rw [hopen]
  rfl

/-- It is in the slot that `curr` names. -/
theorem Room.slot_entered {app₁ app' : App} {p : Process} (h : t.Room app k)
    (hcurr : app₁.pcb.curr = app.pcb.curr) (henter : enterTable app₁ p = .ok app') :
    app'.toStore = app₁.toStore ∧ app'.pcb.slot h.slot = p := by
  obtain ⟨hlt, rfl⟩ := enterTable_eq_ok henter
  have hat : h.slot = ⟨app₁.pcb.curr.toNat, hlt⟩ := Fin.ext (congrArg (·.toNat) hcurr).symm
  refine ⟨rfl, ?_⟩
  rw [hat]
  exact (PCB.slot_enter app₁.pcb p hlt _).trans (if_pos rfl)

/-! ## Reading back -/

section Slot

variable {app' : App} {i : Fin MAX_PCB} {r : App × CodeSection}

theorem entry_of_slot (hheap : app'.heap = r.1.heap) (hc : (app'.pcb.slot i).c = r.2) (j : Nat) :
    app'.entry i j = r.1.heap.instructions (entryAddr r.2.it j) := by
  rw [App.entry, hheap, hc]

theorem ReadBack.decoded (h : t.ReadBack app' i) (hheap : app'.heap = r.1.heap)
    (hc : (app'.pcb.slot i).c = r.2) : Decoded t.code r := by
  refine ⟨hc ▸ h.last, fun j l hl => ?_⟩
  rw [← entry_of_slot hheap hc]
  exact h.code j l hl

theorem readBack_of_decoded (h : Decoded t.code r) (hheap : app'.heap = r.1.heap)
    (hc : (app'.pcb.slot i).c = r.2) (hsynt : app'.headerOf i = t.synt) : t.ReadBack app' i := by
  refine ⟨hsynt, hc ▸ h.1, fun j l hl => ?_⟩
  rw [entry_of_slot hheap hc]
  exact h.2 j l hl

end Slot

theorem synt_of_pCreate {app' : App} {pid : UInt32} (h : t.Room app k)
    (hfile : app.fs address = some (t.text final))
    (hfits : ∀ l ∈ codeLines final t.code, l.length ≤ 15)
    (hcreate : pCreate app address = .ok (pid, app')) : app'.headerOf h.slot = t.synt := by
  obtain ⟨prog, hprog, hsays⟩ := programOf_of_fits hfits
  obtain ⟨data, prog', old, hdata, hprog', hheader⟩ := pCreate_header hcreate h.table
  cases hfile.symm.trans hdata
  cases hprog.symm.trans hprog'
  rw [Room.slot, hheader, hsays.header, hsays.semaphores, t.fill_eq]

/-- Where the file is open at its code, lines that fit are decoded. -/
theorem Room.decodes {base : App} {fb : Addr} {fp : File} (h : t.Room app k)
    (hcode : t.AtCode final base.toStore k fb fp) (pid : UInt32)
    (hfits : ∀ l ∈ codeLines final t.code, l.length ≤ 15) :
    ∃ r, initCodeSection base pid fb (k * PAGE_SIZE + sizeofAllocHeader)
      { it := 0, pc := 0, size := 0, last := 0 } = .ok r ∧ Decoded t.code r := by
  have hbytes : 2 * PAGE_SIZE - sizeofAllocHeader = 2040 := rfl
  have hroom := hcode.room
  rw [hbytes] at hroom
  have hlength : INSTRUCTION_SIZE * t.code.length ≤ 2040 :=
    Nat.le_trans (Nat.mul_le_mul_left INSTRUCTION_SIZE h.code) (by decide)
  have hspace : k * PAGE_SIZE + sizeofAllocHeader ≠ 0 :=
    Nat.ne_of_gt (Nat.lt_add_left _ (by decide))
  exact decoded_of_fits hcode.buffer hcode.file hcode.more hcode.rest hspace (hroom ▸ hlength)
    (hroom ▸ by decide) hfits

/-- Lines that fit are read into a process. -/
theorem Room.created_of_fits (h : t.Room app k) (hname : createName address = .ok (some name))
    (hfile : app.fs address = some (t.text final))
    (hfits : ∀ l ∈ codeLines final t.code, l.length ≤ 15) :
    ∃ pid app', pCreate app address = .ok (pid, app') ∧ t.ReadBack app' h.slot ∧
      (app'.pcb.slot h.slot).addressSpace = k * PAGE_SIZE + sizeofAllocHeader ∧
      { start := k, pages := 2, bytes := KB } ∈ app'.mem.live := by
  obtain ⟨base, fb, fp, hcode, hcurr, hlock, hcreate⟩ := h.pCreate_eq hname hfile
  obtain ⟨⟨app₁, c⟩, hinit, hdecoded⟩ := h.decodes hcode app.pcb.lastPid.toUInt32 hfits
  obtain ⟨-, st, hload, hbase⟩ := initCodeSection_eq_ok fp hinit hcode.file hcode.more
  obtain ⟨hcurr₁, hlock₁, hmem₁⟩ : app₁.pcb.curr = app.pcb.curr ∧ app₁.pcb.pcbS = app.pcb.pcbS ∧
      app₁.mem = base.mem := by
    rw [hbase]
    exact ⟨hcurr, hlock, loadCode_mem hload⟩
  obtain ⟨app', henter⟩ := h.enters hcurr₁ hlock₁ (newProcess name app.pcb.lastPid.toUInt32
    (k * PAGE_SIZE + sizeofAllocHeader) fb c)
  dsimp only at hcreate
  rw [hinit, Except.ok_bind_run, henter, Except.ok_bind_run] at hcreate
  obtain ⟨hstore, hslot⟩ := h.slot_entered hcurr₁ henter
  refine ⟨_, app', hcreate, readBack_of_decoded hdecoded (congrArg Store.heap hstore)
    (congrArg Process.c hslot) (synt_of_pCreate h hfile hfits hcreate),
    congrArg Process.addressSpace hslot, ?_⟩
  have hmem : app'.mem = base.mem := (congrArg Store.mem hstore).trans hmem₁
  exact hmem ▸ hcode.live

/-- What has been read into a process are lines that fit. -/
theorem Room.fits_of_created {app' : App} {pid : UInt32} (h : t.Room app k)
    (hname : createName address = .ok (some name)) (hfile : app.fs address = some (t.text final))
    (hcreate : pCreate app address = .ok (pid, app')) (hread : t.ReadBack app' h.slot) :
    ∀ l ∈ codeLines final t.code, l.length ≤ 15 := by
  obtain ⟨base, fb, fp, hcode, hcurr, -, heq⟩ := h.pCreate_eq hname hfile
  rw [heq] at hcreate
  obtain ⟨r, hinit, hcreate⟩ := Except.bind_eq_ok.mp hcreate
  obtain ⟨app₂, henter, hcreate⟩ := Except.bind_eq_ok.mp hcreate
  cases hcreate
  obtain ⟨-, st, -, hbase⟩ := initCodeSection_eq_ok fp hinit hcode.file hcode.more
  have hcurr' : r.1.pcb.curr = app.pcb.curr := by
    rw [hbase]
    exact hcurr
  obtain ⟨hstore, hslot⟩ := h.slot_entered hcurr' henter
  exact fits_of_decoded hcode.file hcode.more hcode.rest (by rw [hcode.room]; decide) hinit
    (hread.decoded (congrArg Store.heap hstore) (congrArg Process.c hslot))

end ProgramText

/-- With room for it, what is written to a program file is what `p_create` reads from it into
a new process, if and only if each line of its code fits the window. -/
theorem program_text_round_trip {t : ProgramText} {final : Bool} {app : App}
    {address name : List UInt8} {k : Nat} (h : t.Room app k)
    (hname : createName address = .ok (some name))
    (hfile : app.fs address = some (t.text final)) :
    (∃ pid app', pCreate app address = .ok (pid, app') ∧ t.ReadBack app' h.slot) ↔
      ∀ l ∈ codeLines final t.code, l.length ≤ 15 := by
  constructor
  · rintro ⟨pid, app', hcreate, hread⟩
    exact h.fits_of_created hname hfile hcreate hread
  · intro hfits
    obtain ⟨pid, app', hcreate, hread, -⟩ := h.created_of_fits hname hfile hfits
    exact ⟨pid, app', hcreate, hread⟩

/-! ## A program of three instructions -/

/-- A program with two slices of execution, a semaphore, and a read. -/
def ProgramText.sample : ProgramText where
  name := ascii "a"
  segFlag := ⟨1, by decide⟩
  priority := ⟨2, by decide⟩
  segSize := ⟨3, by decide⟩
  semaphores := [⟨120, by decide⟩, ⟨121, by decide⟩]
  code :=
    [.timed .exec ⟨1500, by decide⟩, .semaphore .v ⟨120, by decide⟩,
      .timed .read ⟨20, by decide⟩]
  name_ne_nil := by decide
  name_printable := by
    intro b hb
    obtain rfl : b = 97 := List.mem_singleton.mp hb
    decide
  name_length := by decide

def App.sample : App :=
  { App.zero Heap.zero fun path =>
      if path = ascii "a" then some (ProgramText.sample.text true) else none with
    mem := initMem (fun _ => 0) 65536
    pcb := initPcb PCB.zero
    cpu := { quantumTime := 0, cpuS := 1 }
    semaphores.mutex := 1 }

theorem ProgramText.sample_room : ProgramText.sample.Room App.sample 0 where
  table := by decide
  lock := by decide
  code := by decide
  names := by decide
  filled := Memory.initMem_filledTo (fun _ => 0) 65536
  pages := by decide

theorem program_text_round_trip_sample :
    ∃ pid app, pCreate App.sample (ascii "a") = .ok (pid, app) ∧
      ProgramText.sample.ReadBack app 0 := by
  have hname : createName (ascii "a") = .ok (some (ascii "a")) := by decide
  exact (program_text_round_trip ProgramText.sample_room hname rfl).mpr (by decide)

end ChicOS
