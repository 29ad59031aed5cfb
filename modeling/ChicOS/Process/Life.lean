-- SUMMARY: What a process's life leaves allocated: the blocks of its file are never given back.
import ChicOS.Process.Loading
import ChicOS.Scheduler.Scheduler

/-!
# The pages of a process's life

A creation takes an address space, a `synt_buffer` and a `synt_header`; a growth
takes a scratch entry, a new header and a new address space, and gives back the
old address space and the scratch entry. Killing a process gives its address
space back, reaping it gives nothing back: `close_file`, which would release the
buffer, has no caller, and headers are released nowhere.
-/

namespace ChicOS

/-! ## What loading takes -/

/-- Registering a semaphore leases blocks, and gives none back. -/
theorem initSemaphore_leases {m : Memory} {st st' : Store} {name : UInt8} {value : UInt32} {r : Int}
    {bs : List Block} (hbs : m.Leases st.mem bs) (hno : st'.mem.NoReplacement)
    (h : initSemaphore st name value = .ok (r, st')) :
    ∃ new, m.Leases st'.mem (new ++ bs) := by
  rcases initSemaphore_cases h with
    ⟨-, rfl⟩ | ⟨p, w, mem, mem', sem, hlast, -, hp, hw, -, -, -, -, rfl⟩
  · exact ⟨[], hbs⟩
  have hno₁ : mem.NoReplacement := hno.of_suffix (cAlloc_calls hw)
  obtain ⟨new, hnew⟩ : ∃ new, m.Leases mem (new ++ bs) := by
    rcases hbs.alloc hno₁ hp with ⟨-, hbs⟩ | ⟨b, -, -, hbs⟩
    · exact ⟨[], hbs⟩
    · exact ⟨[b], hbs⟩
  rcases hnew.alloc hno hw with ⟨-, hbs⟩ | ⟨b, -, -, hbs⟩
  · exact ⟨new, hbs⟩
  · exact ⟨b :: new, hbs⟩

theorem readSemaphores_leases {m : Memory} {st st' : Store} {names names' input rest : List UInt8}
    {bs : List Block} (hbs : m.Leases st.mem bs) (hno : st'.mem.NoReplacement)
    (h : readSemaphores st names input = .ok (names', rest, st')) :
    ∃ new, m.Leases st'.mem (new ++ bs) := by
  refine readSemaphores_induct
    (P := fun s => s.mem.NoReplacement → ∃ new, m.Leases s.mem (new ++ bs)) ?_ (fun _ => ⟨[], hbs⟩)
    h hno
  intro s s' name r hs hinit hno'
  obtain ⟨new, hnew⟩ := hs (hno'.of_suffix (initSemaphore_calls hinit))
  obtain ⟨new', hnew'⟩ := initSemaphore_leases hnew hno' hinit
  rw [← List.append_assoc] at hnew'
  exact ⟨new' ++ new, hnew'⟩

/-- Reading a header leases a page for it, which nothing gives back. -/
theorem readHeader_leases {m : Memory} {st st' : Store} {fb : Addr} {bs : List Block}
    (hbs : m.Leases st.mem bs) (hno : st'.mem.NoReplacement) (h : readHeader st fb = .ok st') :
    ∃ new, 1 ≤ (new.map Block.pages).sum ∧ m.Leases st'.mem (new ++ bs) := by
  obtain ⟨header, mem, fp, fp', text, semaphores, rest, st₁, halloc, hheader, -, -, hsems, rfl⟩ :=
    readHeader_eq_ok h
  have hsuffix : mem.calls <:+ st₁.mem.calls := readSemaphores_calls hsems
  rcases hbs.alloc (hno.of_suffix hsuffix) halloc with ⟨hnull, -⟩ | ⟨b, -, hpages, hleased⟩
  · exact absurd hnull hheader
  have hno' : st₁.mem.NoReplacement := hno
  obtain ⟨new, hnew⟩ := readSemaphores_leases hleased hno' hsems
  refine ⟨new ++ [b], ?_, ?_⟩
  · have hone : b.pages = 1 := hpages.trans (by decide)
    rw [List.map_append, List.sum_append, List.map_singleton, List.sum_singleton, hone]
    exact Nat.le_add_left 1 _
  · rw [List.append_assoc]
    exact hnew

/-! ## What a process holds -/

/-- Between two states, the memory lent out is the address space of a process, if
it has one, and blocks of six pages at least that no function gives back. -/
def Memory.Holds (m m' : Memory) (space : Addr) : Prop :=
  ∃ kept : List Block, 6 ≤ (kept.map Block.pages).sum ∧
    ((space = 0 ∧ m.Leases m' kept) ∨ ∃ b : Block, b.ptr = space ∧ m.Leases m' (b :: kept))

/-- A creation leases an address space, five pages for the buffer and one for the
header. -/
theorem Created.holds {app : App} {address : List UInt8} {p : Process} {st : Store}
    (h : Created app address p st) (hinv : app.mem.Inv) (hno : st.mem.NoReplacement) :
    app.mem.Holds st.mem p.addressSpace := by
  obtain ⟨mem, st₁, fp, hspace, hopen, -, -, hload⟩ := h.stages
  rw [loadCode_mem hload] at hno ⊢
  obtain ⟨mem', data, hbuf, -, hread⟩ := openFile_eq_ok hopen h.fb
  have hno' : mem'.NoReplacement := hno.of_suffix (readHeader_calls hread)
  have hbuffer : ∀ bs, app.mem.Leases mem bs →
      ∃ kept, 6 ≤ (kept.map Block.pages).sum ∧ app.mem.Leases st₁.mem (kept ++ bs) := by
    intro bs hbs
    rcases hbs.alloc hno' hbuf with ⟨hnull, -⟩ | ⟨b, -, hpages, hleased⟩
    · exact absurd hnull h.fb
    obtain ⟨new, hone, hnew⟩ := readHeader_leases hleased hno hread
    refine ⟨new ++ [b], ?_, ?_⟩
    · have hfive : b.pages = 5 := hpages.trans (by decide)
      rw [List.map_append, List.sum_append, List.map_singleton, List.sum_singleton, hfive]
      exact Nat.add_le_add_right hone 5
    · rw [List.append_assoc]
      exact hnew
  rcases (Memory.Leases.refl hinv).alloc (hno'.of_suffix (cAlloc_calls hbuf)) hspace with
    ⟨hnull, hnone⟩ | ⟨b, hptr, -, hb⟩
  · obtain ⟨kept, hsix, hkept⟩ := hbuffer [] hnone
    rw [List.append_nil] at hkept
    exact ⟨kept, hsix, .inl ⟨hnull, hkept⟩⟩
  · obtain ⟨kept, hsix, hkept⟩ := hbuffer [b] hb
    exact ⟨kept, hsix, .inr ⟨b, hptr, hkept.perm (List.perm_append_singleton b kept)⟩⟩

theorem pRealloc_calls {app app' : App} {k : Fin MAX_PCB} {region : Addr} {bytes : UInt32}
    (h : pRealloc app k region bytes = .ok app') : app.mem.calls <:+ app'.mem.calls := by
  by_cases hregion : region = 0
  · rw [pRealloc, if_pos hregion] at h
    cases h
    exact List.suffix_refl _
  · obtain ⟨it, buffer, fp, fp₁, m₁, m₂, m₃, m₄, st₁, st₂, c, hgrown, rfl⟩ := pRealloc_eq_ok h hregion
    have hcalls := hgrown.calls
    calc app.mem.calls <:+ m₁.calls := hcalls.scratch
      _ <:+ st₁.mem.calls := hcalls.header
      _ <:+ m₂.calls := hcalls.release
      _ <:+ m₃.calls := hcalls.space
      _ <:+ m₄.calls := hcalls.scratch_release

/-- A growth exchanges the address space, and keeps the new header. -/
theorem pRealloc_holds {m : Memory} {app app' : App} {k : Fin MAX_PCB} {bytes : UInt32}
    (hholds : m.Holds app.mem (app.pcb.slot k).addressSpace) (hno : app'.mem.NoReplacement)
    (h : pRealloc app k (app.pcb.slot k).addressSpace bytes = .ok app') :
    m.Holds app'.mem (app'.pcb.slot k).addressSpace := by
  by_cases hregion : (app.pcb.slot k).addressSpace = 0
  · rw [pRealloc, if_pos hregion] at h
    cases h
    exact hholds
  obtain ⟨it, buffer, fp, fp₁, m₁, m₂, m₃, m₄, st₁, st₂, c, hgrown, rfl⟩ := pRealloc_eq_ok h hregion
  obtain ⟨kept, hsix, ⟨hzero, -⟩ | ⟨b, hptr, hb⟩⟩ := hholds
  · exact absurd hzero hregion
  have hfree := hgrown.scratch_free
  have hcalls := hgrown.calls
  -- no page is replaced at any stage
  have hno₄ : m₄.NoReplacement := hno
  have hno₃ : m₃.NoReplacement := hno₄.of_suffix hcalls.scratch_release
  have hno₂ : m₂.NoReplacement := hno₃.of_suffix hcalls.space
  have hnoₛ : st₁.mem.NoReplacement := hno₂.of_suffix hcalls.release
  have hno₁ : m₁.NoReplacement := hnoₛ.of_suffix hcalls.header
  -- scratch entry, header, release, address space, release of the scratch entry
  rcases hb.alloc hno₁ hgrown.scratch with ⟨hnull, -⟩ | ⟨s, hs, -, h₁⟩
  · exact absurd hnull hgrown.it_ne
  obtain ⟨new, -, h₂⟩ := readHeader_leases h₁ hnoₛ hgrown.header
  have hfront : (new ++ s :: b :: kept).Perm (b :: s :: (new ++ kept)) := by
    have hs : (new ++ s :: b :: kept).Perm (s :: (new ++ b :: kept)) := List.perm_middle
    have hb : (new ++ b :: kept).Perm (b :: (new ++ kept)) := List.perm_middle
    exact (hs.trans (hb.cons s)).trans (.swap b s _)
  have hrelease := hgrown.release
  rw [← hptr] at hrelease
  have h₃ := (h₂.perm hfront).dealloc hrelease
  rcases h₃.alloc hno₃ hgrown.space with ⟨hnull, -⟩ | ⟨b', hb', -, h₄⟩
  · exact absurd hnull hgrown.buffer_ne
  rw [← hs] at hfree
  have h₅ := (h₄.perm (.swap s b' _)).dealloc hfree
  refine ⟨new ++ kept, ?_, .inr ⟨b', ?_, h₅⟩⟩
  · rw [List.map_append, List.sum_append]
    exact hsix.trans (Nat.le_add_left _ _)
  · show b'.ptr = ((app.pcb.modify k _).slot k).addressSpace
    rw [PCB.slot_modify_self]
    exact hb'

/-! ## Lives -/

/-- What happens to a process between its creation and its end: `exec_process`
grows it, and executing moves its program counter and changes its instructions. -/
inductive LifeStep where
  | grow (bytes : UInt32)
  | execute (pc : UInt32) (instructions : Addr → Instruction)

def App.lifeStep (pid : UInt32) (app : App) (s : LifeStep) : Except Stop App :=
  match pFind app pid with
  | none => .error .nullDeref
  | some k =>
    match s with
    | .grow bytes => pRealloc app k (app.pcb.slot k).addressSpace bytes
    | .execute pc instructions =>
      .ok { app with
        heap.instructions := instructions
        pcb := app.pcb.modify k fun p => { p with c.pc := pc } }

/-- From `p_create` to `scheduler_kill_process`. -/
def App.life (app : App) (address : List UInt8) (steps : List LifeStep) : Except Stop App := do
  let (pid, app) ← pCreate app address
  let app ← Run.run (App.lifeStep pid) app steps
  let app ← pKill app pid
  schedulerKillProcess app

/-- The pages are as they were. -/
structure Memory.SamePages (m m' : Memory) : Prop where
  freePages : m'.freePages = m.freePages
  freePageNum : m'.pt.freePageNum = m.pt.freePageNum

/-- The slot of the process, and what it holds. -/
def LifeInv (m : Memory) (pid : UInt32) (k : Fin MAX_PCB) (app : App) : Prop :=
  pFind app pid = some k ∧
    (app.mem.NoReplacement → m.Holds app.mem (app.pcb.slot k).addressSpace)

theorem lifeStep_inv {m : Memory} {pid : UInt32} {k : Fin MAX_PCB} {app app' : App} {s : LifeStep}
    (h : LifeInv m pid k app) (hok : app.lifeStep pid s = .ok app') : LifeInv m pid k app' := by
  obtain ⟨hfind, hholds⟩ := h
  unfold App.lifeStep at hok
  rw [hfind] at hok
  cases s with
  | grow bytes =>
      refine ⟨?_, fun hno => ?_⟩
      · by_cases hregion : (app.pcb.slot k).addressSpace = 0
        · dsimp only at hok
          rw [pRealloc, if_pos hregion] at hok
          cases hok
          exact hfind
        · obtain ⟨it, buffer, fp, fp₁, m₁, m₂, m₃, m₄, st₁, st₂, c, -, rfl⟩ :=
            pRealloc_eq_ok hok hregion
          refine (PCB.find_modify app.pcb k _ pid ?_).trans hfind
          exact fun _ => rfl
      · exact pRealloc_holds (hholds (hno.of_suffix (pRealloc_calls hok))) hno hok
  | execute pc instructions =>
      cases hok
      refine ⟨?_, fun hno => ?_⟩
      · refine (PCB.find_modify app.pcb k _ pid ?_).trans hfind
        exact fun _ => rfl
      · show m.Holds app.mem ((app.pcb.modify k _).slot k).addressSpace
        rw [PCB.slot_modify_self]
        exact hholds hno

theorem killProcess_mem {app app' : App} (h : schedulerKillProcess app = .ok app') :
    app'.mem = app.mem := by
  refine forSlots_induct (fun a => a.mem = app.mem) (fun {a a' k} _ ha hbody => ?_) rfl h
  rcases killBody_eq_ok hbody with ⟨-, rfl⟩ | ⟨-, rfl⟩
  · exact ha
  · exact ha

/-- Killing gives the address space back, and leaves at least six pages taken. -/
theorem pKill_leaks {m : Memory} {pid : UInt32} {k : Fin MAX_PCB} {app app' : App}
    (h : LifeInv m pid k app) (hno : app'.mem.NoReplacement) (hok : pKill app pid = .ok app') :
    app'.mem.pt.freePageNum + 6 ≤ m.pt.freePageNum := by
  obtain ⟨hfind, hholds⟩ := h
  have hkept : ∃ kept : List Block, 6 ≤ (kept.map Block.pages).sum ∧ m.Leases app'.mem kept := by
    rcases pKill_eq_ok hok with ⟨hnone, -⟩ | ⟨i, hi, -, ⟨hzero, rfl⟩ | ⟨hspace, mem, hfree, rfl⟩⟩
    · rw [hfind] at hnone
      cases hnone
    · cases hfind.symm.trans hi
      obtain ⟨kept, hsix, ⟨-, hkept⟩ | ⟨b, hptr, -⟩⟩ := hholds hno
      · exact ⟨kept, hsix, hkept⟩
      · rw [hzero] at hptr
        exact absurd hptr (Memory.ptr_ne_zero b)
    · cases hfind.symm.trans hi
      have hno' : mem.NoReplacement := hno
      obtain ⟨kept, hsix, ⟨hzero, -⟩ | ⟨b, hptr, hb⟩⟩ :=
        hholds (hno'.of_suffix (Memory.cDealloc_suffix hfree))
      · exact absurd hzero hspace
      · rw [← hptr] at hfree
        exact ⟨kept, hsix, hb.dealloc hfree⟩
  obtain ⟨kept, hsix, hkept⟩ := hkept
  have hcount := hkept.count
  omega

/-- Every life of a process leaves pages taken, whatever its program and however
often it grew. -/
theorem life_leaks (app : App) (address : List UInt8) (steps : List LifeStep) {t : App}
    (hinv : app.mem.Inv) (hroom : app.pcb.curr.toNat < MAX_PCB - 1)
    (hnew : ∀ k : Fin MAX_PCB, k.val < app.pcb.curr.toNat →
      (app.pcb.slot k).pid ≠ app.pcb.lastPid.toUInt32)
    (hlife : app.life address steps = .ok t) (hno : t.mem.NoReplacement) :
    ¬ app.mem.SamePages t.mem := by
  obtain ⟨⟨pid, app₁⟩, hcreate, hlife⟩ := Except.bind_eq_ok.mp hlife
  obtain ⟨app₂, hsteps, hlife⟩ := Except.bind_eq_ok.mp hlife
  obtain ⟨app₃, hkill, hreap⟩ := Except.bind_eq_ok.mp hlife
  rw [killProcess_mem hreap] at hno
  rcases pCreate_eq_ok hcreate with ⟨hfull, -, -⟩ | ⟨hcurr, p, st, hp, rfl, happ₁⟩
  · exact absurd hroom (Nat.not_lt.mpr hfull)
  have hlt : app.pcb.curr.toNat < MAX_PCB := Nat.lt_of_lt_pred hcurr
  have hslot : app₁.pcb.slot ⟨app.pcb.curr.toNat, hlt⟩ = p := by
    rw [happ₁]
    exact (PCB.slot_enter app.pcb p hlt _).trans (if_pos rfl)
  have hfind : pFind app₁ p.pid = some ⟨app.pcb.curr.toNat, hlt⟩ := by
    have hfirst : app₁.pcb.find (app₁.pcb.slot ⟨app.pcb.curr.toNat, hlt⟩).pid
        = some ⟨app.pcb.curr.toNat, hlt⟩ := by
      refine PCB.find_of_first fun j hj => ?_
      have hjlt : j.val < app.pcb.curr.toNat := hj
      have hold : app₁.pcb.slot j = app.pcb.slot j := by
        rw [happ₁]
        exact (PCB.slot_enter app.pcb p hlt j).trans (if_neg (Nat.ne_of_gt hjlt))
      rw [hslot, hold, hp.pid]
      exact hnew j hjlt
    rw [hslot] at hfirst
    exact hfirst
  have hstart : LifeInv app.mem p.pid ⟨app.pcb.curr.toNat, hlt⟩ app₁ := by
    refine ⟨hfind, fun hno₁ => ?_⟩
    rw [hslot]
    rw [happ₁] at hno₁ ⊢
    exact hp.holds hinv hno₁
  have hend := Run.run_preserves (LifeInv app.mem p.pid ⟨app.pcb.curr.toNat, hlt⟩)
    lifeStep_inv hstart hsteps
  have hleak := pKill_leaks hend hno hkill
  intro hsame
  have hnum := hsame.freePageNum
  rw [killProcess_mem hreap] at hnum
  omega

theorem life_leaks_grown :
    ∃ t, App.oneFile.life (ascii "a") [.grow 100] = .ok t ∧ t.mem.pt.freePageNum = 9 ∧
      ¬ App.oneFile.mem.SamePages t.mem := by
  have hrun : ((App.oneFile.life (ascii "a") [.grow 100]).toOption.map fun t =>
      (t.mem.pt.freePageNum, decide t.mem.NoReplacement)) = some (9, true) := by
    decide +kernel
  obtain ⟨t, ht, hcounts⟩ := Option.map_eq_some_iff.mp hrun
  obtain ⟨hnum, hno⟩ := Prod.mk.inj hcounts
  have hlife := Except.toOption_eq_ok.mp ht
  refine ⟨t, hlife, hnum, ?_⟩
  exact life_leaks App.oneFile (ascii "a") [.grow 100] (initMem_inv _ _) (by decide)
    (fun k hk => absurd hk (Nat.not_lt_zero _)) hlife (of_decide_eq_true hno)

/-- The pages of a life without growths, of a program without semaphores. -/
theorem pages_not_always_same :
    ¬ ∀ (app : App) (address : List UInt8) (steps : List LifeStep) (t : App),
      app.mem.Inv → app.pcb.curr.toNat < MAX_PCB - 1 →
      (∀ k : Fin MAX_PCB, k.val < app.pcb.curr.toNat →
        (app.pcb.slot k).pid ≠ app.pcb.lastPid.toUInt32) →
      app.life address steps = .ok t → t.semaphores.last = app.semaphores.last →
      t.mem.NoReplacement → app.mem.SamePages t.mem := by
  intro h
  have hrun : ((App.oneFile.life (ascii "a") []).toOption.map fun t =>
      (t.mem.pt.freePageNum, t.semaphores.last, decide t.mem.NoReplacement))
      = some (10, 0, true) := by
    decide +kernel
  obtain ⟨t, ht, hcounts⟩ := Option.map_eq_some_iff.mp hrun
  obtain ⟨hnum, hrest⟩ := Prod.mk.inj hcounts
  obtain ⟨hlast, hno⟩ := Prod.mk.inj hrest
  have hsame := h App.oneFile (ascii "a") [] t (initMem_inv _ _) (by decide)
    (fun k hk => absurd hk (Nat.not_lt_zero _)) (Except.toOption_eq_ok.mp ht) hlast
    (of_decide_eq_true hno)
  have hsixteen := hsame.freePageNum
  rw [hnum] at hsixteen
  exact absurd hsixteen (by decide)

end ChicOS
