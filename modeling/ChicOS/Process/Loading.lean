-- SUMMARY: What a process creation or growth that returns has done, as one lemma each.
import ChicOS.Process.Process

/-!
# Creations and growths that return

Inversion lemmas for `p_create` and `p_realloc`. Both call `init_code_section`
right after `read_header`, which never leaves the file at its end: the branch in
which `init_code_section` makes a system call is not taken.
-/

namespace ChicOS

/-! ## Loading the code -/

/-- The loop changes entries of the array only. -/
theorem loadCode_eq_ok {st st' : Store} {fb space : Addr} {fp : File} {c c' : CodeSection}
    (h : loadCode st fb fp space c = .ok (st', c')) :
    ∃ (complete : Bool) (fp' : File) (instrs : Addr → Instruction) (i : Nat),
      codeLoop codeSize space ((st.mem.getHeader space).pageNum * PAGE_SIZE - sizeofAllocHeader)
        ((fp.gets 15).2.rest.length + 2) (fp.gets 15).2 st.heap.instructions 0
        = .ok (complete, fp', instrs, i) ∧
      st' = { st with
        heap :=
          { st.heap with
            instructions := instrs
            syntBuffers := Function.update st.heap.syntBuffers fb
              { st.heap.syntBuffers fb with fp := some fp' } } } ∧
      c' = { it := space
             pc := 0
             size := codeSize
             last := if complete then UInt32.ofNat i else c.last } := by
  obtain ⟨⟨complete, fp', instrs, i⟩, hloop, h⟩ := Except.bind_eq_ok.mp h
  cases h
  exact ⟨complete, fp', instrs, i, hloop, rfl, rfl⟩

/-- On an open file that has not ended, the code is loaded. -/
theorem initCodeSection_eq_ok {app app' : App} {pid : UInt32} {fb space : Addr} (fp : File)
    {c c' : CodeSection} (h : initCodeSection app pid fb space c = .ok (app', c'))
    (hfp : (app.heap.syntBuffers fb).fp = some fp) (heof : fp.eof = false) :
    fb ≠ 0 ∧ ∃ st, loadCode app.toStore fb fp space c = .ok (st, c') ∧
      app' = { app with toStore := st } := by
  unfold initCodeSection at h
  split at h
  · cases h
  rename_i hfb
  rw [hfp] at h
  dsimp only at h
  split at h
  · rename_i htrue
    rw [heof] at htrue
    cases htrue
  · obtain ⟨⟨st, c₁⟩, hload, h⟩ := Except.bind_eq_ok.mp h
    cases h
    exact ⟨hfb, st, hload, rfl⟩

theorem initCodeSection_fb_ne {app : App} {pid : UInt32} {fb space : Addr} {c : CodeSection}
    {r : App × CodeSection} (h : initCodeSection app pid fb space c = .ok r) : fb ≠ 0 := by
  rintro rfl
  cases h

/-! ## Creation -/

/-- The new process goes into the slot `curr` names. -/
theorem enterTable_eq_ok {app app' : App} {p : Process} (h : enterTable app p = .ok app') :
    ∃ hcurr : app.pcb.curr.toNat < MAX_PCB,
      app' = { app with
        pcb := app.pcb.enter p hcurr
        trace := app.trace ++ [.create p.pid] } := by
  obtain ⟨n, hn, h⟩ := Except.bind_eq_ok.mp h
  have hn := semWait_eq_ok.mp hn
  dsimp only at h
  split at h
  · rename_i hcurr
    cases h
    exact ⟨hcurr, by simp [App.note, PCB.enter, hn]⟩
  · cases h

/-- The process `p_create` puts in the table. -/
structure Created (app : App) (address : List UInt8) (p : Process) (st : Store) : Prop where
  pid : p.pid = app.pcb.lastPid.toUInt32
  status : p.status = .new
  hUsed : p.hUsed = 0
  fb : p.fb ≠ 0
  /-- The stages: address space, file and header, code. -/
  stages : ∃ (mem : Memory) (st₁ : Store) (fp : File),
    cAlloc app.mem (UInt32.ofNat KB) = .ok (p.addressSpace, mem) ∧
    openFile { app.toStore with mem := mem } app.fs address = .ok (p.fb, st₁) ∧
    (st₁.heap.syntBuffers p.fb).fp = some fp ∧ fp.eof = false ∧
    loadCode st₁ p.fb fp p.addressSpace { it := 0, pc := 0, size := 0, last := 0 } = .ok (st, p.c)

/-- A `p_create` that returns found the table full, or put one new process in the
slot `curr` names. -/
theorem pCreate_eq_ok {app app' : App} {address : List UInt8} {pid : UInt32}
    (h : pCreate app address = .ok (pid, app')) :
    (MAX_PCB - 1 ≤ app.pcb.curr.toNat ∧ pid = 0xFFFFFFFF ∧ app' = app) ∨
    ∃ (hcurr : app.pcb.curr.toNat < MAX_PCB - 1) (p : Process) (st : Store),
      Created app address p st ∧ pid = p.pid ∧
      app' = { app with
        toStore := st
        pcb :=
          { app.pcb.enter p (Nat.lt_of_lt_pred hcurr) with lastPid := app.pcb.lastPid + 1 }
        trace := app.trace ++ [.create p.pid] } := by
  obtain ⟨name, -, h⟩ := Except.bind_eq_ok.mp h
  dsimp only at h
  split at h
  · rename_i hfull
    cases h
    exact .inl ⟨hfull, rfl, rfl⟩
  rename_i hroom
  obtain ⟨⟨space, app₁⟩, halloc, h⟩ := Except.bind_eq_ok.mp h
  obtain ⟨mem, hmem, rfl⟩ := alloc_eq_ok halloc
  cases name with
  | none => cases h
  | some name =>
      obtain ⟨⟨fb, st₁⟩, hopen, h⟩ := Except.bind_eq_ok.mp h
      obtain ⟨⟨app₂, c⟩, hinit, h⟩ := Except.bind_eq_ok.mp h
      have hfb := initCodeSection_fb_ne hinit
      obtain ⟨fp, hfp, heof⟩ := openFile_file hopen hfb
      obtain ⟨-, st, hload, rfl⟩ := initCodeSection_eq_ok fp hinit hfp heof
      obtain ⟨app₃, henter, h⟩ := Except.bind_eq_ok.mp h
      cases h
      obtain ⟨-, rfl⟩ := enterTable_eq_ok henter
      refine .inr ⟨Nat.lt_of_not_le hroom,
        { name := name
          pid := app.pcb.lastPid.toUInt32
          status := .new
          timeToRun := TIME_SLICE
          hUsed := 0
          addressSpace := space
          fb := fb
          c := c }, st, ?_, rfl, rfl⟩
      exact ⟨rfl, rfl, rfl, hfb, mem, st₁, fp, hmem, hopen, hfp, heof, hload⟩

/-! ## Growth -/

theorem rewindFile_eq_ok {app app' : App} {fb : Addr} (h : app.rewindFile fb = .ok app') :
    fb ≠ 0 ∧ ∃ fp, (app.heap.syntBuffers fb).fp = some fp ∧
      app' = { app with
        heap.syntBuffers := Function.update app.heap.syntBuffers fb
          { app.heap.syntBuffers fb with fp := some fp.rewind } } := by
  unfold App.rewindFile at h
  split at h
  · cases h
  rename_i hfb
  dsimp only at h
  split at h
  · cases h
  · rename_i fp hfp
    cases h
    exact ⟨hfb, fp, hfp, rfl⟩

/-- The store in which `p_realloc` reads the header again: the instruction is
saved, and the file is at its start. -/
def Store.saved (st : Store) (it : Addr) (mem : Memory) (curr : Instruction) (fb : Addr)
    (fp : File) : Store :=
  { st with
    mem := mem
    heap :=
      { st.heap with
        instructions := Function.update st.heap.instructions it curr
        syntBuffers := Function.update st.heap.syntBuffers fb
          { st.heap.syntBuffers fb with fp := some fp.rewind } } }

/-- A process in the block of a new address space. -/
def Process.move (p : Process) (buffer : Addr) : Process :=
  { p with addressSpace := buffer, c := { p.c with it := buffer } }

/-- What a growth leaves: the process has moved, and the saved instruction is back
in its place. -/
def App.grown (app : App) (k : Fin MAX_PCB) (region it buffer : Addr) (mem : Memory)
    (st₁ st₂ : Store) : App :=
  { app with
    toStore :=
      { st₂ with
        mem := mem
        heap.instructions := Function.update st₂.heap.instructions
          (entryAddr buffer (app.pcb.slot k).c.pc.toNat) (st₂.heap.instructions it) }
    pcb := app.pcb.modify k fun p => p.move buffer
    trace := app.trace ++ [.release region (decide (st₁.mem.IsLive region))] }

/-- The stages of a growth: the memory after each call of the allocator, and the
stores after the header and after the code. -/
structure Grown (app : App) (k : Fin MAX_PCB) (region : Addr) (bytes : UInt32) (it buffer : Addr)
    (fp fp₁ : File) (m₁ m₂ m₃ m₄ : Memory) (st₁ st₂ : Store) (c : CodeSection) : Prop where
  scratch : cAlloc app.mem sizeofInstruction = .ok (it, m₁)
  it_ne : it ≠ 0
  code_ne : (app.pcb.slot k).c.it ≠ 0
  fb_ne : (app.pcb.slot k).fb ≠ 0
  file : (app.heap.syntBuffers (app.pcb.slot k).fb).fp = some fp
  header : readHeader (app.toStore.saved it m₁
    (app.heap.instructions (entryAddr (app.pcb.slot k).c.it (app.pcb.slot k).c.pc.toNat))
    (app.pcb.slot k).fb fp) (app.pcb.slot k).fb = .ok st₁
  release : cDealloc st₁.mem region = .ok m₂
  space : cAlloc m₂ (reallocSize app.mem region bytes) = .ok (buffer, m₃)
  file₁ : (st₁.heap.syntBuffers (app.pcb.slot k).fb).fp = some fp₁
  code : loadCode { st₁ with mem := m₃ } (app.pcb.slot k).fb fp₁ buffer (app.pcb.slot k).c
    = .ok (st₂, c)
  buffer_ne : buffer ≠ 0
  scratch_release : cDealloc st₂.mem it = .ok m₄

/-- A `p_realloc` that returns went through all its stages. -/
theorem pRealloc_eq_ok {app app' : App} {k : Fin MAX_PCB} {region : Addr} {bytes : UInt32}
    (h : pRealloc app k region bytes = .ok app') (hregion : region ≠ 0) :
    ∃ it buffer fp fp₁ m₁ m₂ m₃ m₄ st₁ st₂ c,
      Grown app k region bytes it buffer fp fp₁ m₁ m₂ m₃ m₄ st₁ st₂ c ∧
      app' = app.grown k region it buffer m₄ st₁ st₂ := by
  unfold pRealloc at h
  rw [if_neg hregion] at h
  obtain ⟨⟨it, app₁⟩, halloc, h⟩ := Except.bind_eq_ok.mp h
  obtain ⟨m₁, hm₁, rfl⟩ := alloc_eq_ok halloc
  obtain ⟨curr, hread, h⟩ := Except.bind_eq_ok.mp h
  obtain ⟨hcode, rfl⟩ := readEntry_eq_ok hread
  obtain ⟨app₂, hwrite, h⟩ := Except.bind_eq_ok.mp h
  obtain ⟨hit, rfl⟩ := writeEntry_eq_ok hwrite
  obtain ⟨app₃, hrewind, h⟩ := Except.bind_eq_ok.mp h
  obtain ⟨hfb, fp, hfp, rfl⟩ := rewindFile_eq_ok hrewind
  obtain ⟨st₁, hheader, h⟩ := Except.bind_eq_ok.mp h
  obtain ⟨app₄, hrelease, h⟩ := Except.bind_eq_ok.mp h
  obtain ⟨m₂, hm₂, rfl⟩ := release_eq_ok hrelease
  obtain ⟨⟨buffer, app₅⟩, hspace, h⟩ := Except.bind_eq_ok.mp h
  obtain ⟨m₃, hm₃, rfl⟩ := alloc_eq_ok hspace
  obtain ⟨⟨app₆, c⟩, hinit, h⟩ := Except.bind_eq_ok.mp h
  obtain ⟨fp₁, hfp₁, heof⟩ := readHeader_file fp.rewind hheader (by simp) rfl
  obtain ⟨-, st₂, hload, rfl⟩ := initCodeSection_eq_ok fp₁ hinit hfp₁ heof
  have hc : c.it = buffer := by
    obtain ⟨complete, fp', instrs, i, -, -, rfl⟩ := loadCode_eq_ok hload
    rfl
  obtain ⟨saved, hreadIt, h⟩ := Except.bind_eq_ok.mp h
  obtain ⟨-, rfl⟩ := readEntry_eq_ok hreadIt
  obtain ⟨app₇, hwriteIt, h⟩ := Except.bind_eq_ok.mp h
  obtain ⟨hbuffer, rfl⟩ := writeEntry_eq_ok hwriteIt
  obtain ⟨m₄, hm₄, rfl⟩ := dealloc_eq_ok h
  rw [hc] at hbuffer
  refine ⟨it, buffer, fp, fp₁, m₁, m₂, m₃, m₄, st₁, st₂, c,
    ⟨hm₁, hit, hcode, hfb, hfp, hheader, hm₂, hm₃, hfp₁, hload, hbuffer, hm₄⟩, ?_⟩
  have hmove : app.pcb.modify k (fun p => p.move buffer) = app.pcb.modify k fun p =>
      { p with
        addressSpace := buffer
        c :=
          { it := buffer
            pc := (app.pcb.slot k).c.pc
            size := (app.pcb.slot k).c.size
            last := (app.pcb.slot k).c.last } } := PCB.modify_congr rfl
  simp [App.grown, hmove, PCB.modify_modify, hc]

theorem loadCode_mem {st st' : Store} {fb space : Addr} {fp : File} {c c' : CodeSection}
    (h : loadCode st fb fp space c = .ok (st', c')) : st'.mem = st.mem := by
  obtain ⟨complete, fp', instrs, i, -, rfl, -⟩ := loadCode_eq_ok h
  rfl

/-- The history of the allocator grows from stage to stage. -/
structure GrownCalls (app : App) (m₁ m₂ m₃ m₄ : Memory) (st₁ : Store) : Prop where
  scratch : app.mem.calls <:+ m₁.calls
  header : m₁.calls <:+ st₁.mem.calls
  release : st₁.mem.calls <:+ m₂.calls
  space : m₂.calls <:+ m₃.calls
  scratch_release : m₃.calls <:+ m₄.calls

namespace Grown

variable {app : App} {k : Fin MAX_PCB} {region : Addr} {bytes : UInt32} {it buffer : Addr}
  {fp fp₁ : File} {m₁ m₂ m₃ m₄ : Memory} {st₁ st₂ : Store} {c : CodeSection}

/-- Loading the code calls no allocator. -/
theorem scratch_free (h : Grown app k region bytes it buffer fp fp₁ m₁ m₂ m₃ m₄ st₁ st₂ c) :
    cDealloc m₃ it = .ok m₄ := by
  have hmem : st₂.mem = m₃ := loadCode_mem h.code
  rw [← hmem]
  exact h.scratch_release

theorem calls (h : Grown app k region bytes it buffer fp fp₁ m₁ m₂ m₃ m₄ st₁ st₂ c) :
    GrownCalls app m₁ m₂ m₃ m₄ st₁ where
  scratch := cAlloc_calls h.scratch
  header := readHeader_calls h.header
  release := Memory.cDealloc_suffix h.release
  space := cAlloc_calls h.space
  scratch_release := Memory.cDealloc_suffix h.scratch_free

end Grown

/-! ## A small machine -/

/-- A file system with one program, under the name `a`. -/
def oneProgram (text : String) (path : List UInt8) : Option (List UInt8) :=
  if path = ascii "a" then some (ascii text) else none

/-- A machine of 16 pages after `init_mem` and `init_pcb`, with a file of a program
without instructions. -/
def App.oneFile : App :=
  { App.zero Heap.zero (oneProgram "a 1 1 1\n\n") with
    mem := initMem (fun _ => 0) 16384
    pcb := initPcb PCB.zero }

end ChicOS
