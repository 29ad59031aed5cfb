-- SUMMARY: Growing a process: its program survives being loaded again, its count of disk accesses does not.
import ChicOS.Process.Program

/-!
# Growing a process

`p_realloc` reads the file of a process again into a larger address space, and
puts back what execution had changed: the instruction at the program counter,
and the counter itself. The header it leaves in `fb->h` is the one of the file,
with `rw_count` zero, and the count so far is not put back.
-/

namespace ChicOS

/-! ## The state of a process -/

/-- The event's `remaining_time` is read. -/
def Events.hasTime : Events → Bool
  | .processExec | .diskRequest | .printRequest => true
  | _ => false

/-- The event's `sem_name` is read. -/
def Events.hasSemaphore : Events → Bool
  | .semaphoreP | .semaphoreV => true
  | _ => false

/-- Equal in all that is read of an instruction. -/
structure Instruction.Same (c c' : Instruction) : Prop where
  e : c'.e = c.e
  fpPos : c'.fpPos = c.fpPos
  remainingTime : c.e.hasTime = true → c'.remainingTime = c.remainingTime
  semName : c.e.hasSemaphore = true → c'.semName = c.semName

/-- An entry of the code of the process in a slot. -/
def App.entry (app : App) (k : Fin MAX_PCB) (i : Nat) : Instruction :=
  app.heap.instructions (entryAddr (app.pcb.slot k).c.it i)

/-- The header behind `fb->h` of the process in a slot. -/
def App.headerOf (app : App) (k : Fin MAX_PCB) : SyntHeader :=
  app.heap.syntHeaders (app.heap.syntBuffers (app.pcb.slot k).fb).h

/-- The logical state of the process in a slot is the same. -/
structure SameProcess (app app' : App) (k : Fin MAX_PCB) : Prop where
  pid : (app'.pcb.slot k).pid = (app.pcb.slot k).pid
  name : (app'.pcb.slot k).name = (app.pcb.slot k).name
  status : (app'.pcb.slot k).status = (app.pcb.slot k).status
  hUsed : (app'.pcb.slot k).hUsed = (app.pcb.slot k).hUsed
  pc : (app'.pcb.slot k).c.pc = (app.pcb.slot k).c.pc
  last : (app'.pcb.slot k).c.last = (app.pcb.slot k).c.last
  current : app'.entry k (app.pcb.slot k).c.pc.toNat = app.entry k (app.pcb.slot k).c.pc.toNat
  rest : ∀ i, (app.pcb.slot k).c.pc.toNat ≤ i → i < (app.pcb.slot k).c.last.toNat →
    (app.entry k i).Same (app'.entry k i)
  header : app'.headerOf k = app.headerOf k

/-! ## Loaded processes -/

/-- A header with all its numbers. -/
def HeaderText.Complete (t : HeaderText) : Prop :=
  t.segFlag.isSome ∧ t.priority.isSome ∧ t.segSize.isSome

/-- An entry says what a command of the file says, its time apart if it has been
executed in part. -/
structure Instruction.Carries (c : Instruction) (cmd : UInt32 × Command) (fresh : Prop) : Prop where
  e : c.e = cmd.2.e
  fpPos : c.fpPos = cmd.1
  time : fresh → ∀ t, cmd.2.time = some t → c.remainingTime = t
  semName : ∀ s, cmd.2.semName = some s → c.semName = s

/-- The process in a slot runs a program: its file says so, its header says so with
any count of disk accesses, and the entries from its program counter on do. -/
structure Loaded (app : App) (k : Fin MAX_PCB) (prog : Program) : Prop where
  file : ∃ fp, (app.heap.syntBuffers (app.pcb.slot k).fb).fp = some fp ∧
    programOf fp.data = .ok prog
  complete : prog.header.Complete
  header : ∃ old, app.headerOf k =
    { prog.header.fill old prog.semaphores with rwCount := (app.headerOf k).rwCount }
  last : (app.pcb.slot k).c.last = UInt32.ofNat prog.commands.length
  code : ∀ (i : Nat) (hi : i < prog.commands.length), (app.pcb.slot k).c.pc.toNat ≤ i →
    (app.entry k i).Carries prog.commands[i] (i ≠ (app.pcb.slot k).c.pc.toNat)

/-- The numbers of a complete header leave nothing of what the block held before. -/
theorem HeaderText.Complete.fill {t : HeaderText} (h : t.Complete) (old old' : SyntHeader)
    (semaphores : List UInt8) : t.fill old semaphores = t.fill old' semaphores := by
  obtain ⟨hflag, hpriority, hsize⟩ := h
  obtain ⟨flag, hflag⟩ := Option.isSome_iff_exists.mp hflag
  obtain ⟨priority, hpriority⟩ := Option.isSome_iff_exists.mp hpriority
  obtain ⟨size, hsize⟩ := Option.isSome_iff_exists.mp hsize
  simp [HeaderText.fill, hflag, hpriority, hsize]

/-- Storing a command in an entry carries it. -/
theorem store_carries (c : Instruction) (pos : UInt32) (cmd : Command) (fresh : Prop) :
    (c.store pos cmd).Carries (pos, cmd) fresh where
  e := rfl
  fpPos := rfl
  time := by
    intro _ t ht
    dsimp only at ht
    simp [Instruction.store, ht]
  semName := by
    intro s hs
    dsimp only at hs
    simp [Instruction.store, hs]

/-- A command says the time or the semaphore that its event needs. -/
def Command.Complete (cmd : Command) : Prop :=
  (cmd.e.hasTime = true → cmd.time.isSome) ∧ (cmd.e.hasSemaphore = true → cmd.semName.isSome)

/-- A token is not empty. -/
theorem strtok_ne_nil {delim : UInt8} {s t rest : List UInt8}
    (h : CString.strtok delim s = some (t, rest)) : t ≠ [] := by
  unfold CString.strtok at h
  have hhead := List.head?_dropWhile_not (fun b => decide (b = delim)) s
  cases hdrop : s.dropWhile fun b => decide (b = delim) with
  | nil =>
      rw [hdrop] at h
      cases h
  | cons b tl =>
      rw [hdrop] at h hhead
      have hb : b ≠ delim := of_decide_eq_false hhead
      cases h
      simp [hb]

theorem parseLine_complete {line : List UInt8} {cmd : Command} (h : parseLine line = .ok cmd) :
    cmd.Complete := by
  unfold parseLine at h
  dsimp only at h
  split at h
  · cases h
  rename_i command args htok
  cases hevent : retrieveEvent command with
  | printRequest | diskRequest | processExec =>
      simp only [hevent] at h
      split at h
      · cases h
      · cases h
        exact ⟨fun _ => rfl, fun hs => (by cases hs)⟩
  | semaphoreV | semaphoreP =>
      simp only [hevent] at h
      split at h
      · cases h
      split at h
      · cases h
      split at h
      · cases h
      · rename_i name _ hname
        cases h
        refine ⟨fun ht => (by cases ht), fun _ => ?_⟩
        obtain ⟨b, tl, rfl⟩ := List.exists_cons_of_ne_nil (strtok_ne_nil hname)
        rfl
  | processInterrupt | processCreate | processKill | diskFinish | memLoadReq | memLoadFinish
  | printFinish =>
      simp only [hevent] at h
      cases h
      exact ⟨fun ht => (by cases ht), fun hs => (by cases hs)⟩

theorem commands_complete {fuel : Nat} {fp : File} {cmds : List (UInt32 × Command)}
    (h : commands fuel fp = .ok cmds) : ∀ cmd ∈ cmds, cmd.2.Complete := by
  induction fuel generalizing fp cmds with
  | zero => cases h
  | succ fuel ih =>
      rw [commands] at h
      split at h
      · cases h
        exact fun cmd hcmd => absurd hcmd List.not_mem_nil
      split at h
      · cases h
        exact fun cmd hcmd => absurd hcmd List.not_mem_nil
      obtain ⟨cmd, hparse, h⟩ := Except.bind_eq_ok.mp h
      obtain ⟨rest, hrest, h⟩ := Except.bind_eq_ok.mp h
      cases h
      intro c hc
      rcases List.mem_cons.mp hc with rfl | hc
      · exact parseLine_complete hparse
      · exact ih hrest c hc

theorem programOf_complete {data : List UInt8} {prog : Program} (h : programOf data = .ok prog) :
    ∀ cmd ∈ prog.commands, cmd.2.Complete := by
  obtain ⟨⟨header, fp⟩, -, h⟩ := Except.bind_eq_ok.mp h
  obtain ⟨cmds, hcmds, h⟩ := Except.bind_eq_ok.mp h
  cases h
  exact commands_complete hcmds

/-- Two entries that carry one command are the same in all that is read of them. -/
theorem Instruction.Carries.same {c c' : Instruction} {cmd : UInt32 × Command} {fresh fresh' : Prop}
    (h : c.Carries cmd fresh) (h' : c'.Carries cmd fresh') (hfresh : fresh) (hfresh' : fresh')
    (hcmd : cmd.2.Complete) : c.Same c' where
  e := h'.e.trans h.e.symm
  fpPos := h'.fpPos.trans h.fpPos.symm
  remainingTime := by
    intro htime
    rw [h.e] at htime
    obtain ⟨t, ht⟩ := Option.isSome_iff_exists.mp (hcmd.1 htime)
    rw [h.time hfresh t ht, h'.time hfresh' t ht]
  semName := by
    intro hsem
    rw [h.e] at hsem
    obtain ⟨s, hs⟩ := Option.isSome_iff_exists.mp (hcmd.2 hsem)
    rw [h.semName s hs, h'.semName s hs]

/-! ## Loading leaves a loaded process -/

/-- What a creation loads is the program of its file. -/
structure CreatedProgram (p : Process) (st : Store) (data : List UInt8) (prog : Program) : Prop where
  it : p.c.it = p.addressSpace
  pc : p.c.pc = 0
  last : p.c.last = UInt32.ofNat prog.commands.length
  file : ∃ fp, (st.heap.syntBuffers p.fb).fp = some fp ∧ fp.data = data
  header : ∃ old, st.heap.syntHeaders (st.heap.syntBuffers p.fb).h
    = prog.header.fill old prog.semaphores
  code : ∀ (i : Nat) (hi : i < prog.commands.length), ∃ d : Instruction,
    st.heap.instructions (entryAddr p.addressSpace i)
      = d.store prog.commands[i].1 prog.commands[i].2

theorem Created.program {app : App} {address : List UInt8} {p : Process} {st : Store}
    (h : Created app address p st) :
    ∃ data prog, app.fs address = some data ∧ programOf data = .ok prog ∧
      CreatedProgram p st data prog := by
  obtain ⟨mem, st₁, fp₁, -, hopen, hfp₁, -, hload⟩ := h.stages
  obtain ⟨mem', data, -, hdata, hread⟩ := openFile_eq_ok hopen h.fb
  obtain ⟨cmds, hcmds, hit, hpc, hlast, hentries, -, -, hheaders, ⟨fp', hfp', hdata'⟩, hh⟩ :=
    loadCode_commands hload
  have hfile : ∃ st₀ : Store, readHeader st₀ p.fb = .ok st₁ ∧
      (st₀.heap.syntBuffers p.fb).fp = some (File.start data) := ⟨_, hread, by simp⟩
  obtain ⟨st₀, hread, hfp₀⟩ := hfile
  obtain ⟨prog, hprog, rfl, hsame, header, -, hheader, old, hfill⟩ :=
    readHeader_program hread hfp₀ rfl hfp₁ hcmds
  refine ⟨data, prog, hdata, hprog, hit, hpc, hlast, ⟨fp', hfp', hdata'.trans hsame⟩, ⟨old, ?_⟩,
    hentries⟩
  rw [hh, hheader, hheaders, hfill]

/-- A creation leaves a loaded process. -/
theorem Created.loaded {app : App} {address : List UInt8} {p : Process} {st : Store}
    (h : Created app address p st) :
    ∃ data prog, app.fs address = some data ∧ programOf data = .ok prog ∧
      ∀ (app' : App) (k : Fin MAX_PCB), app'.toStore = st → app'.pcb.slot k = p →
        prog.header.Complete → Loaded app' k prog := by
  obtain ⟨data, prog, hdata, hprog, hcreated⟩ := h.program
  refine ⟨data, prog, hdata, hprog, ?_⟩
  rintro app' k rfl hslot hcomplete
  obtain ⟨fp, hfp, hfpdata⟩ := hcreated.file
  obtain ⟨old, hfill⟩ := hcreated.header
  have hhead : app'.headerOf k = prog.header.fill old prog.semaphores := by
    rw [App.headerOf, hslot, hfill]
  refine ⟨⟨fp, ?_, ?_⟩, hcomplete, ⟨old, ?_⟩, ?_, fun i hi _ => ?_⟩
  · rw [hslot]
    exact hfp
  · rw [hfpdata]
    exact hprog
  · rw [hhead]
  · rw [hslot, hcreated.last]
  · obtain ⟨c, hc⟩ := hcreated.code i hi
    rw [App.entry, hslot, hcreated.it, hc]
    exact store_carries c _ _ _

theorem pCreate_loaded {app app' : App} {address : List UInt8} {pid : UInt32}
    (h : pCreate app address = .ok (pid, app')) (hroom : app.pcb.curr.toNat < MAX_PCB - 1) :
    ∃ data prog, app.fs address = some data ∧ programOf data = .ok prog ∧
      (prog.header.Complete →
        Loaded app' ⟨app.pcb.curr.toNat, Nat.lt_of_lt_pred hroom⟩ prog) := by
  rcases pCreate_eq_ok h with ⟨hfull, -, -⟩ | ⟨hcurr, p, st, hp, -, rfl⟩
  · exact absurd hroom (Nat.not_lt.mpr hfull)
  obtain ⟨data, prog, hdata, hprog, hloaded⟩ := hp.loaded
  refine ⟨data, prog, hdata, hprog, hloaded _ _ rfl ?_⟩
  exact (PCB.slot_enter app.pcb p (Nat.lt_of_lt_pred hcurr) _).trans (if_pos rfl)

/-- Count disk accesses in the header of the process in a slot. -/
def App.setRwCount (app : App) (k : Fin MAX_PCB) (n : Int) : App :=
  let h := (app.heap.syntBuffers (app.pcb.slot k).fb).h
  { app with
    heap.syntHeaders :=
      Function.update app.heap.syntHeaders h { app.headerOf k with rwCount := n } }

/-- A loaded process may have made any number of disk accesses. -/
theorem Loaded.setRwCount {app : App} {k : Fin MAX_PCB} {prog : Program} (h : Loaded app k prog)
    (n : Int) : Loaded (app.setRwCount k n) k prog := by
  obtain ⟨old, hold⟩ := h.header
  have hnew : (app.setRwCount k n).headerOf k = { app.headerOf k with rwCount := n } :=
    Function.update_self _ _ _
  refine ⟨h.file, h.complete, ⟨old, ?_⟩, h.last, h.code⟩
  rw [hnew, hold]

/-- Leave some time to the instruction that the process in a slot is at. -/
def App.setRemaining (app : App) (k : Fin MAX_PCB) (t : UInt32) : App :=
  let pc := (app.pcb.slot k).c.pc.toNat
  { app with
    heap.instructions :=
      Function.update app.heap.instructions (entryAddr (app.pcb.slot k).c.it pc)
        { app.entry k pc with remainingTime := t } }

/-- A loaded process may have executed a part of its instruction. -/
theorem Loaded.setRemaining {app : App} {k : Fin MAX_PCB} {prog : Program} (h : Loaded app k prog)
    (t : UInt32) : Loaded (app.setRemaining k t) k prog := by
  refine ⟨h.file, h.complete, h.header, h.last, fun i hi hle => ?_⟩
  have hcarries := h.code i hi hle
  by_cases hpc : i = (app.pcb.slot k).c.pc.toNat
  · subst hpc
    have hentry : (app.setRemaining k t).entry k (app.pcb.slot k).c.pc.toNat =
        { app.entry k (app.pcb.slot k).c.pc.toNat with remainingTime := t } :=
      Function.update_self _ _ _
    rw [hentry]
    exact ⟨hcarries.e, hcarries.fpPos, fun hne => absurd rfl hne, hcarries.semName⟩
  · have hentry : (app.setRemaining k t).entry k i = app.entry k i :=
      Function.update_of_ne (fun heq => hpc (entryAddr_inj.mp heq)) _ _
    rw [hentry]
    exact hcarries

/-! ## The saved instruction -/

theorem readHeader_instructions {st st' : Store} {fb : Addr} (h : readHeader st fb = .ok st') :
    st'.heap.instructions = st.heap.instructions := by
  obtain ⟨header, mem, fp, fp', text, semaphores, rest, st₁, -, -, -, -, -, rfl⟩ := readHeader_eq_ok h
  rfl

/-- The block of a process has room for its entries. -/
def Block.Fits (b : Block) (length : Nat) : Prop :=
  0 < b.pages ∧ INSTRUCTION_SIZE * length ≤ b.usable

namespace Block.Fits

variable {b c : Block} {m n i l : Nat}

theorem of_header {pages : Nat} (hpos : 0 < b.pages) (hle : pages ≤ b.pages)
    (hfits : ∀ i < n, INSTRUCTION_SIZE * (i + 1) ≤ pages * PAGE_SIZE - sizeofAllocHeader) :
    b.Fits n := by
  have hroom := Nat.sub_le_sub_right (Nat.mul_le_mul_right PAGE_SIZE hle) sizeofAllocHeader
  refine ⟨hpos, ?_⟩
  cases n with
  | zero => exact Nat.zero_le _
  | succ n => exact (hfits n (Nat.lt_succ_self n)).trans hroom

/-- One entry fits in any block. -/
theorem one (hpos : 0 < b.pages) : b.Fits 1 := by
  refine ⟨hpos, ?_⟩
  unfold Block.usable PAGE_SIZE KB sizeofAllocHeader INSTRUCTION_SIZE
  omega

/-- An entry lies in a page of its block. -/
theorem page (h : b.Fits n) (hi : i < n) : entryAddr b.ptr i / PAGE_SIZE ∈ b.range := by
  obtain ⟨hpages, hroom⟩ := h
  have hroom : 16 * n ≤ b.pages * 1024 - 8 := hroom
  have haddr : entryAddr b.ptr i = b.start * 1024 + 8 + 16 * i := rfl
  rw [haddr]
  refine Finset.mem_Ico.mpr ?_
  show b.start ≤ (b.start * 1024 + 8 + 16 * i) / 1024
    ∧ (b.start * 1024 + 8 + 16 * i) / 1024 < b.start + b.pages
  omega

/-- Blocks that are apart have no entry in common. -/
theorem ne (hb : b.Fits m) (hc : c.Fits n) (hdisjoint : Disjoint b.range c.range) (hi : i < m)
    (hl : l < n) : entryAddr c.ptr l ≠ entryAddr b.ptr i := by
  intro heq
  exact Finset.disjoint_left.mp hdisjoint (hb.page hi) (heq ▸ hc.page hl)

end Block.Fits

/-- The program that the file says is loaded at the new address space. -/
structure Reloaded (fb buffer : Addr) (m : Memory) (st st' : Store) (data : List UInt8)
    (prog : Program) : Prop where
  header : ∃ old, st'.heap.syntHeaders (st'.heap.syntBuffers fb).h
    = prog.header.fill old prog.semaphores
  code : ∀ (i : Nat) (hi : i < prog.commands.length), ∃ d : Instruction,
    st'.heap.instructions (entryAddr buffer i) = d.store prog.commands[i].1 prog.commands[i].2
  fits : ∀ i < prog.commands.length, INSTRUCTION_SIZE * (i + 1)
    ≤ (m.getHeader buffer).pageNum * PAGE_SIZE - sizeofAllocHeader
  others : ∀ a, (∀ i < prog.commands.length, a ≠ entryAddr buffer i) →
    st'.heap.instructions a = st.heap.instructions a
  file : ∃ fp', (st'.heap.syntBuffers fb).fp = some fp' ∧ fp'.data = data

namespace Grown

variable {app : App} {k : Fin MAX_PCB} {region : Addr} {bytes : UInt32} {it buffer : Addr}
  {fp fp₁ : File} {m₁ m₂ m₃ m₄ : Memory} {st₁ st₂ : Store} {c : CodeSection}

/-- The block of the scratch entry is still live when the new address space is
handed out, and apart from it; both are apart from the blocks that were live before. -/
theorem blocks (h : Grown app k region bytes it buffer fp fp₁ m₁ m₂ m₃ m₄ st₁ st₂ c)
    (hspace : ∃ b ∈ app.mem.live, b.ptr = region ∧ 0 < b.pages)
    (hfresh : app.mem.FreshSince m₄) :
    ∃ b s : Block, b.ptr = buffer ∧ 0 < b.pages ∧ s.ptr = it ∧ 0 < s.pages ∧
      Disjoint b.range s.range ∧ b ∈ m₃.live ∧ (m₃.getHeader buffer).pageNum ≤ b.pages ∧
      ∀ c ∈ app.mem.live, c.ptr ≠ region →
        Disjoint b.range c.range ∧ Disjoint s.range c.range ∧ c ∈ m₃.live := by
  obtain ⟨r, hr, hrptr, hrpages⟩ := hspace
  have hcalls := h.calls
  obtain ⟨s, before, hsptr, hspages, hscalls, hsbefore, hslive, -⟩ :=
    Memory.cAlloc_block h.scratch h.it_ne
  obtain ⟨b, before', hbptr, hbpages, hbcalls, hbbefore, hblive, hroom⟩ :=
    Memory.cAlloc_block h.space h.buffer_ne
  -- the scratch block is apart from the old address space
  have hs_calls : .alloc s :: before <:+ m₄.calls := by
    rw [← hscalls]
    exact ((hcalls.header.trans hcalls.release).trans hcalls.space).trans hcalls.scratch_release
  have hsr : Disjoint s.range r.range := hfresh.disjoint hs_calls hsbefore (hslive ▸ hr)
  have hne : s.ptr ≠ region := by
    rw [← hrptr]
    exact Memory.ptr_ne_of_disjoint hspages hrpages hsr
  have hs₁ : s ∈ m₁.live := by
    rw [Memory.live, hscalls]
    exact List.mem_cons_self
  have hs₂ : s ∈ m₂.live :=
    Memory.cDealloc_live_of_ne h.release (readHeader_live_of_mem h.header hs₁) hne
  -- and from the new one
  have hb_calls : .alloc b :: before' <:+ m₄.calls := by
    rw [← hbcalls]
    exact hcalls.scratch_release
  have hb_before : app.mem.calls <:+ before' :=
    ((hcalls.scratch.trans hcalls.header).trans hcalls.release).trans hbbefore
  have hbs : Disjoint b.range s.range := hfresh.disjoint hb_calls hb_before (hblive ▸ hs₂)
  have hb₃ : b ∈ m₃.live := by
    rw [Memory.live, hbcalls]
    exact List.mem_cons_self
  refine ⟨b, s, hbptr, hbpages, hsptr, hspages, hbs, hb₃, hroom, fun c hc hcptr => ?_⟩
  have hc₁ : c ∈ m₁.live := by
    rw [Memory.live, hscalls]
    exact List.mem_cons_of_mem _ (hslive ▸ hc)
  have hc₂ : c ∈ m₂.live :=
    Memory.cDealloc_live_of_ne h.release (readHeader_live_of_mem h.header hc₁) hcptr
  refine ⟨hfresh.disjoint hb_calls hb_before (hblive ▸ hc₂),
    hfresh.disjoint hs_calls hsbefore (hslive ▸ hc), ?_⟩
  rw [Memory.live, hbcalls]
  exact List.mem_cons_of_mem _ (hblive ▸ hc₂)

/-- Loading the program again leaves the saved instruction alone. -/
theorem saved (h : Grown app k region bytes it buffer fp fp₁ m₁ m₂ m₃ m₄ st₁ st₂ c)
    (hspace : ∃ b ∈ app.mem.live, b.ptr = region ∧ 0 < b.pages)
    (hfresh : app.mem.FreshSince m₄) :
    st₂.heap.instructions it
      = app.heap.instructions (entryAddr (app.pcb.slot k).c.it (app.pcb.slot k).c.pc.toNat) := by
  obtain ⟨b, s, hbptr, hbpages, hsptr, hspages, hbs, -, hroom, -⟩ := h.blocks hspace hfresh
  obtain ⟨cmds, -, -, -, -, -, hothers, hfits, -⟩ := loadCode_commands h.code
  have hbfits : b.Fits cmds.length := .of_header hbpages hroom hfits
  have hkept := hothers it fun i hi => by
    rw [← hsptr, ← hbptr, ← entryAddr_zero s.ptr]
    exact hbfits.ne (.one hspages) hbs hi Nat.zero_lt_one
  rw [hkept]
  show st₁.heap.instructions it = _
  rw [readHeader_instructions h.header]
  exact Function.update_self _ _ _

/-- The new address space is live after the growth, and has the pages its header says. -/
theorem space_live (h : Grown app k region bytes it buffer fp fp₁ m₁ m₂ m₃ m₄ st₁ st₂ c)
    (hspace : ∃ b ∈ app.mem.live, b.ptr = region ∧ 0 < b.pages)
    (hfresh : app.mem.FreshSince m₄) :
    ∃ b ∈ m₄.live, b.ptr = buffer ∧ 0 < b.pages ∧ (m₃.getHeader buffer).pageNum ≤ b.pages := by
  obtain ⟨b, s, hbptr, hbpages, hsptr, hspages, hbs, hb, hroom, -⟩ := h.blocks hspace hfresh
  have hne : b.ptr ≠ it := by
    rw [← hsptr]
    exact Memory.ptr_ne_of_disjoint hbpages hspages hbs
  exact ⟨b, Memory.cDealloc_live_of_ne h.scratch_free hb hne, hbptr, hbpages, hroom⟩

theorem reloaded {prog : Program}
    (h : Grown app k region bytes it buffer fp fp₁ m₁ m₂ m₃ m₄ st₁ st₂ c)
    (hprog : programOf fp.data = .ok prog) :
    Reloaded (app.pcb.slot k).fb buffer m₃ st₁ st₂ fp.data prog := by
  obtain ⟨cmds, hcmds, -, -, -, hentries, hothers, hfits, hheaders, ⟨fp', hfp', hdata'⟩, hh⟩ :=
    loadCode_commands h.code
  have hrewound : ∃ st₀ : Store, readHeader st₀ (app.pcb.slot k).fb = .ok st₁ ∧
      (st₀.heap.syntBuffers (app.pcb.slot k).fb).fp = some fp.rewind :=
    ⟨_, h.header, by simp [Store.saved]⟩
  obtain ⟨st₀, hread, hfp₀⟩ := hrewound
  obtain ⟨prog', hprog', rfl, hdata, header, -, hheader, old, hfill⟩ :=
    readHeader_program hread hfp₀ rfl h.file₁ hcmds
  cases hprog'.symm.trans hprog
  refine ⟨⟨old, ?_⟩, hentries, hfits, hothers, fp', hfp', hdata'.trans hdata⟩
  rw [hh, hheaders]
  show st₁.heap.syntHeaders (st₁.heap.syntBuffers (app.pcb.slot k).fb).h = _
  rw [hheader, hfill]

/-- Other files stay where they are. -/
theorem buffers (h : Grown app k region bytes it buffer fp fp₁ m₁ m₂ m₃ m₄ st₁ st₂ c) {fb : Addr}
    (hne : fb ≠ (app.pcb.slot k).fb) : st₂.heap.syntBuffers fb = app.heap.syntBuffers fb := by
  obtain ⟨complete, fp', instrs, i, -, rfl, -⟩ := loadCode_eq_ok h.code
  have hheader := h.header
  obtain ⟨header, mem, fp₀, fp₀', text, semaphores, rest, st₀, -, -, -, -, -, rfl⟩ :=
    readHeader_eq_ok hheader
  simp [Store.saved, Function.update_of_ne hne]

end Grown

/-! ## What a growth leaves -/

section Grown

variable {app : App} {k : Fin MAX_PCB} {region it buffer : Addr} {m : Memory} {st₁ st₂ : Store}

@[simp] theorem App.grown_slot :
    (app.grown k region it buffer m st₁ st₂).pcb.slot k = (app.pcb.slot k).move buffer :=
  PCB.slot_modify_self app.pcb k _

/-- Where the program counter is, the instruction that was saved; elsewhere, what was loaded. -/
theorem App.grown_entry (i : Nat) :
    (app.grown k region it buffer m st₁ st₂).entry k i =
      if i = (app.pcb.slot k).c.pc.toNat then st₂.heap.instructions it
      else st₂.heap.instructions (entryAddr buffer i) := by
  rw [App.entry, App.grown_slot]
  show Function.update _ _ _ (entryAddr buffer i) = _
  split
  · rename_i hi
    rw [hi, Function.update_self]
  · rename_i hi
    exact Function.update_of_ne (fun heq => hi (entryAddr_inj.mp heq)) _ _

/-- The header is the one that was loaded. -/
theorem App.grown_headerOf :
    (app.grown k region it buffer m st₁ st₂).headerOf k
      = st₂.heap.syntHeaders (st₂.heap.syntBuffers (app.pcb.slot k).fb).h := by
  rw [App.headerOf, App.grown_slot]
  rfl

end Grown

/-! ## Growth -/

/-- A growth of a loaded process, with fresh blocks, is invisible to the process
just when it has made no disk access yet. -/
theorem growth_invisible_iff {app app' : App} {k : Fin MAX_PCB} {bytes : UInt32} {prog : Program}
    (hloaded : Loaded app k prog)
    (hspace : ∃ b ∈ app.mem.live, b.ptr = (app.pcb.slot k).addressSpace ∧ 0 < b.pages)
    (hfresh : app.mem.FreshSince app'.mem)
    (hok : pRealloc app k (app.pcb.slot k).addressSpace bytes = .ok app') :
    SameProcess app app' k ↔ (app.headerOf k).rwCount = 0 := by
  have hregion : (app.pcb.slot k).addressSpace ≠ 0 := by
    obtain ⟨b, -, hptr, -⟩ := hspace
    rw [← hptr]
    exact Memory.ptr_ne_zero b
  obtain ⟨it, buffer, fp, fp₁, m₁, m₂, m₃, m₄, st₁, st₂, c, hgrown, rfl⟩ := pRealloc_eq_ok hok hregion
  have hsaved := hgrown.saved hspace hfresh
  obtain ⟨fp', hfp', hprog⟩ := hloaded.file
  cases hgrown.file.symm.trans hfp'
  have hreloaded := hgrown.reloaded hprog
  obtain ⟨old, hheader⟩ := hreloaded.header
  have hnew : (app.grown k (app.pcb.slot k).addressSpace it buffer m₄ st₁ st₂).headerOf k
      = prog.header.fill old prog.semaphores := by
    rw [App.grown_headerOf, hheader]
  obtain ⟨old', hold⟩ := hloaded.header
  constructor
  · intro hsame
    rw [← hsame.header, hnew]
    rfl
  · intro hzero
    constructor
    case pid | name | status | hUsed | pc | last =>
      rw [App.grown_slot]
      rfl
    case current =>
      rw [App.grown_entry, if_pos rfl, hsaved]
      rfl
    case rest =>
      intro i hi hlast
      rw [App.grown_entry]
      split
      · rename_i hpc
        rw [hpc, hsaved]
        exact ⟨rfl, rfl, fun _ => rfl, fun _ => rfl⟩
      · rename_i hne
        have hlen : i < prog.commands.length := by
          rw [hloaded.last, UInt32.toNat_ofNat'] at hlast
          exact Nat.lt_of_lt_of_le hlast (Nat.mod_le _ _)
        have hcarries := hloaded.code i hlen hi
        obtain ⟨d, hd⟩ := hreloaded.code i hlen
        rw [hd]
        exact hcarries.same (store_carries d _ _ True) hne trivial
          (programOf_complete hprog _ (List.getElem_mem hlen))
    case header =>
      rw [hold, hzero, hnew]
      rw [hloaded.complete.fill old old' prog.semaphores]
      rfl

/-! ## A growth before a disk access, and one after -/

/-- A machine of 16 pages with a file of a program of one instruction. -/
def App.oneExec : App := { App.oneFile with fs := oneProgram "a 1 1 1\n\n\nexec 1500\n" }

instance (t : HeaderText) : Decidable t.Complete :=
  inferInstanceAs (Decidable (t.segFlag.isSome ∧ t.priority.isSome ∧ t.segSize.isSome))

/-- The process of the machine, loaded. -/
theorem oneExec_loaded {pid : UInt32} {app : App}
    (h : pCreate App.oneExec (ascii "a") = .ok (pid, app)) : ∃ prog, Loaded app 0 prog := by
  obtain ⟨data, prog, hdata, hprog, hloaded⟩ := pCreate_loaded h (by decide)
  have hcomplete : ((App.oneExec.fs (ascii "a")).bind fun data =>
      (programOf data).toOption.map fun prog => decide prog.header.Complete) = some true := by
    decide +kernel
  rw [hdata, Option.bind_some, hprog] at hcomplete
  exact ⟨prog, hloaded (of_decide_eq_true (Option.some.inj hcomplete))⟩

/-- The address space is live, and the blocks of a growth are fresh. -/
def App.GrowsFresh (app app' : App) : Prop :=
  (∃ b ∈ app.mem.live, b.ptr = (app.pcb.slot 0).addressSpace ∧ 0 < b.pages) ∧
    app.mem.FreshSince app'.mem

instance (app app' : App) : Decidable (app.GrowsFresh app') :=
  inferInstanceAs (Decidable (_ ∧ _))

/-- Of 1500 there are 500 left when the process grows. -/
theorem growth_invisible_iff_exec :
    ∃ app app' : App, pRealloc app 0 (app.pcb.slot 0).addressSpace 100 = .ok app' ∧
      app.mem.pt.freePageNum = 8 ∧ (app.entry 0 0).remainingTime = 500 ∧
      SameProcess app app' 0 := by
  have hrun : ((pCreate App.oneExec (ascii "a")).toOption.bind fun r =>
      let app := r.2.setRemaining 0 500
      (pRealloc app 0 (app.pcb.slot 0).addressSpace 100).toOption.map fun app' =>
        (decide (app.GrowsFresh app'), (app.headerOf 0).rwCount, app.mem.pt.freePageNum,
          (r.2.entry 0 0).remainingTime, (app.entry 0 0).remainingTime))
      = some (true, 0, 8, 1500, 500) := by
    decide +kernel
  obtain ⟨⟨pid, app⟩, hcreate, hrun⟩ := Option.bind_eq_some_iff.mp hrun
  obtain ⟨app', hgrow, hfacts⟩ := Option.map_eq_some_iff.mp hrun
  obtain ⟨hfresh, hfacts⟩ := Prod.mk.inj hfacts
  obtain ⟨hzero, hfacts⟩ := Prod.mk.inj hfacts
  obtain ⟨hnum, hfacts⟩ := Prod.mk.inj hfacts
  obtain ⟨-, hleft⟩ := Prod.mk.inj hfacts
  obtain ⟨prog, hloaded⟩ := oneExec_loaded (Except.toOption_eq_ok.mp hcreate)
  have hfresh := of_decide_eq_true hfresh
  have hgrow := Except.toOption_eq_ok.mp hgrow
  exact ⟨app.setRemaining 0 500, app', hgrow, hnum, hleft,
    (growth_invisible_iff (hloaded.setRemaining 500) hfresh.1 hfresh.2 hgrow).mpr hzero⟩

/-- After one disk access, a growth forgets it. -/
theorem growth_not_always_invisible :
    ¬ ∀ (app app' : App) (k : Fin MAX_PCB) (bytes : UInt32) (prog : Program), Loaded app k prog →
      (app.pcb.slot k).c.pc < (app.pcb.slot k).c.last →
      (∃ b ∈ app.mem.live, b.ptr = (app.pcb.slot k).addressSpace ∧ 0 < b.pages) →
      app.mem.FreshSince app'.mem →
      pRealloc app k (app.pcb.slot k).addressSpace bytes = .ok app' → SameProcess app app' k := by
  intro h
  have hrun : ((pCreate App.oneExec (ascii "a")).toOption.bind fun r =>
      let app := r.2.setRwCount 0 1
      (pRealloc app 0 (app.pcb.slot 0).addressSpace 100).toOption.map fun app' =>
        (decide (app.GrowsFresh app'), decide ((app.pcb.slot 0).c.pc < (app.pcb.slot 0).c.last),
          (app.headerOf 0).rwCount, (app'.headerOf 0).rwCount)) = some (true, true, 1, 0) := by
    decide +kernel
  obtain ⟨⟨pid, app⟩, hcreate, hrun⟩ := Option.bind_eq_some_iff.mp hrun
  obtain ⟨app', hgrow, hfacts⟩ := Option.map_eq_some_iff.mp hrun
  obtain ⟨hfresh, hfacts⟩ := Prod.mk.inj hfacts
  obtain ⟨hpc, hfacts⟩ := Prod.mk.inj hfacts
  obtain ⟨hone, hzero⟩ := Prod.mk.inj hfacts
  obtain ⟨prog, hloaded⟩ := oneExec_loaded (Except.toOption_eq_ok.mp hcreate)
  have hfresh := of_decide_eq_true hfresh
  have hsame := h _ app' 0 100 prog (hloaded.setRwCount 1) (of_decide_eq_true hpc) hfresh.1
    hfresh.2 (Except.toOption_eq_ok.mp hgrow)
  rw [hsame.header, hone] at hzero
  exact absurd hzero (by decide)

end ChicOS
