-- SUMMARY: What loading, creating, killing and growing a process do to custody.
import ChicOS.Custody.Custody

/-!
# Calls on processes

A creation adds an address space, the end of a process gives its own back, and a
growth exchanges it. Killing needs that nobody is dead yet, and both killing and
growing that the process is running: a process that is dead or parked stays as it
is.
-/

namespace ChicOS

/-! ## Loading -/

/-- A step of loading allocates blocks and registers semaphores. -/
structure Store.Loads (st st' : Store) : Prop where
  calls : st.mem.calls <:+ st'.mem.calls
  owns : ∀ ps, st'.mem.Fresh → st.mem.Owns ps → st'.mem.Owns ps
  printLists : st'.heap.printLists = st.heap.printLists
  rings : st.semaphores.InRing → st'.semaphores.InRing
  parked : st'.semaphores.parked.Subperm st.semaphores.parked

namespace Store.Loads

variable {st st' st'' : Store}

theorem refl (st : Store) : st.Loads st :=
  ⟨List.suffix_refl _, fun _ _ h => h, rfl, id, .refl _⟩

theorem trans (h : st.Loads st') (h' : st'.Loads st'') : st.Loads st'' where
  calls := h.calls.trans h'.calls
  owns ps hfresh ho := h'.owns ps hfresh (h.owns ps (hfresh.of_suffix h'.calls) ho)
  printLists := h'.printLists.trans h.printLists
  rings hr := h'.rings (h.rings hr)
  parked := h'.parked.trans h.parked

theorem of_heap {heap : Heap} (hlists : heap.printLists = st.heap.printLists) :
    st.Loads { st with heap := heap } :=
  ⟨List.suffix_refl _, fun _ _ h => h, hlists, id, .refl _⟩

theorem of_alloc {bytes : UInt32} {p : Addr} {mem : Memory}
    (hok : cAlloc st.mem bytes = .ok (p, mem)) : st.Loads { st with mem := mem } :=
  ⟨cAlloc_calls hok, fun _ hfresh h => h.alloc_old hfresh hok, rfl, id, .refl _⟩

end Store.Loads

/-- A new semaphore has an empty ring. -/
theorem initSemaphore_loads {st st' : Store} {name : UInt8} {value : UInt32} {r : Int}
    (h : initSemaphore st name value = .ok (r, st')) : st.Loads st' := by
  rcases initSemaphore_cases h with
    ⟨-, rfl⟩ | ⟨p, w, mem, mem', sem, hlast, -, hp, hw, -, hhead, htail, -, rfl⟩
  · exact .refl _
  have hring : sem.InRing := by
    refine ⟨?_, ?_⟩
    · rw [hhead]
      decide
    · rw [htail]
      decide
  have hnobody : sem.parked = [] := by
    rw [Semaphore.parked, (Semaphore.queue_eq_nil hring).mpr (hhead.trans htail.symm), ite_self]
  have hfirst : st.Loads { st with mem := mem } := .of_alloc hp
  have hsecond : Store.Loads { st with mem := mem } { st with mem := mem' } := .of_alloc hw
  have halloc := hfirst.trans hsecond
  refine ⟨halloc.calls, halloc.owns, rfl, ?_, ?_⟩
  · intro hrings
    exact hrings.setEntry ⟨st.semaphores.last, hlast⟩ hring
  · exact Cells.held_set_subperm st.semaphores.l hlast hnobody

theorem readHeader_loads {st st' : Store} {fb : Addr} (h : readHeader st fb = .ok st') :
    st.Loads st' := by
  obtain ⟨header, mem, fp, fp', text, semaphores, rest, st₁, halloc, -, -, -, hsems, rfl⟩ :=
    readHeader_eq_ok h
  have hregister : st.Loads st₁ :=
    readSemaphores_induct (P := fun s => st.Loads s)
      (fun hs hinit => hs.trans (initSemaphore_loads hinit)) (.of_alloc halloc) hsems
  have hheap := readSemaphores_heap hsems
  have hheap : st₁.heap = st.heap := hheap
  exact hregister.trans (.of_heap (by rw [hheap]))

theorem openFile_loads {st st' : Store} {fs : List UInt8 → Option (List UInt8)}
    {address : List UInt8} {fb : Addr} (h : openFile st fs address = .ok (fb, st'))
    (hfb : fb ≠ 0) : st.Loads st' := by
  obtain ⟨mem, data, halloc, -, hread⟩ := openFile_eq_ok h hfb
  refine Store.Loads.trans ?_ (readHeader_loads hread)
  exact (Store.Loads.of_alloc halloc).trans (.of_heap rfl)

theorem loadCode_loads {st st' : Store} {fb space : Addr} {fp : File} {c c' : CodeSection}
    (h : loadCode st fb fp space c = .ok (st', c')) : st.Loads st' := by
  obtain ⟨complete, fp', instrs, i, -, rfl, -⟩ := loadCode_eq_ok h
  exact .of_heap rfl

/-! ## Creation -/

theorem pCreate_keeps {app app' : App} {address : List UInt8} {pid : UInt32}
    (hok : pCreate app address = .ok (pid, app')) : Keeps app app' := by
  rcases pCreate_eq_ok hok with ⟨-, -, rfl⟩ | ⟨hcurr, p, st, hp, -, rfl⟩
  · exact .refl _
  obtain ⟨mem, st₁, fp, hspace, hopen, -, -, hcode⟩ := hp.stages
  have hload : Store.Loads { app.toStore with mem := mem } st :=
    (openFile_loads hopen hp.fb).trans (loadCode_loads hcode)
  have halive : p.status ≠ .kill := by
    rw [hp.status]
    decide
  refine ⟨(cAlloc_calls hspace).trans hload.calls, fun hfresh hc => ?_⟩
  have hslots : PCB.Parks
      { app.pcb.enter p (Nat.lt_of_lt_pred hcurr) with lastPid := app.pcb.lastPid + 1 } app.parked :=
    (hc.parks.enter hc.table p (Nat.lt_of_lt_pred hcurr)).of_slots fun _ => rfl
  have hparks := hslots.subperm ((List.subperm_append_left app.disk.qr.ids).mpr hload.parked)
  refine ⟨hc.table.enter hcurr hp.pid hp.fb halive, hparks, hload.rings hc.rings, hc.disk, ?_, ?_⟩
  · obtain ⟨nodes, hnodes, howns⟩ := hc.holds
    have hlists : st.heap.printLists = app.heap.printLists := hload.printLists
    refine ⟨nodes, by rw [hlists]; exact hnodes, ?_⟩
    have henter := (PCB.spaces_enter hc.table p (Nat.lt_of_lt_pred hcurr)).append_right
      (app.printer.buffered ++ nodes)
    have hnew : st.mem.Owns (p.spaces ++ app.pcb.spaces ++ (app.printer.buffered ++ nodes)) := by
      refine hload.owns _ hfresh ?_
      rcases howns.alloc (hfresh.of_suffix hload.calls) hspace with ⟨hzero, ho⟩ | ⟨hne, ho⟩
      · rw [Process.spaces_none hzero]
        exact ho
      · rw [Process.spaces_some halive hne]
        exact ho
    exact hnew.perm henter
  · intro space live hmem
    rcases List.mem_append.mp hmem with hold | hnew
    · exact hc.released space live hold
    · cases List.mem_singleton.mp hnew

/-! ## Releases -/

theorem App.ReleasesLive.append {app : App} {trace : List Event} {space : Addr} {m : Memory}
    (h : app.ReleasesLive) (hlive : m.IsLive space)
    (htrace : trace = app.trace ++ [.release space (decide (m.IsLive space))]) :
    ∀ s live, .release s live ∈ trace → live = true := by
  intro s live hmem
  rw [htrace] at hmem
  rcases List.mem_append.mp hmem with hold | hnew
  · exact h s live hold
  · cases List.mem_singleton.mp hnew
    exact decide_eq_true hlive

/-- While nobody is dead, the running process may be killed. -/
theorem pKill_keeps {app app' : App} {k : Fin MAX_PCB} (hk : (app.pcb.slot k).c.it ≠ 0)
    (hrun : (app.pcb.slot k).status = .running)
    (hok : pKill app (app.pcb.slot k).pid = .ok app') : KeepsAlive app app' := by
  let die : Process → Process := fun p => { p with status := .kill }
  have halive : (app.pcb.slot k).status ≠ .kill := by
    rw [hrun]
    decide
  have hshape : ∀ hc : Custody app, app.pcb.NoneDead → (app.pcb.modify k die).Shape :=
    fun hc hnone => hc.table.modify_dead hnone (hc.table.used_of_it hk) rfl rfl
  have hparks : ∀ hc : Custody app, (app.pcb.modify k die).Parks app.parked := fun hc =>
    hc.parks.modify rfl rfl fun hparked => absurd hparked (Process.not_parked_of_running hrun)
  have hmodify := app.pcb.spaces_modify k die
  rw [Process.spaces_dead rfl, List.nil_append] at hmodify
  have hperm := app.pcb.spaces_perm k
  rcases pKill_eq_ok hok with ⟨-, rfl⟩ | ⟨i, hfind, -, hkilled⟩
  · exact (Keeps.refl _).alive
  rcases hkilled with ⟨hzero, rfl⟩ | ⟨hspace, mem, hfree, rfl⟩
  · refine ⟨List.suffix_refl _, fun _ hc hnone => ?_⟩
    cases (hc.table.find_it hk).symm.trans hfind
    obtain ⟨nodes, hnodes, howns⟩ := hc.holds
    rw [Process.spaces_none hzero, List.nil_append] at hperm
    exact ⟨hshape hc hnone, hparks hc, hc.rings, hc.disk,
      ⟨nodes, hnodes, howns.perm ((hmodify.trans hperm.symm).append_right _)⟩, hc.released⟩
  · refine ⟨Memory.cDealloc_suffix hfree, fun _ hc hnone => ?_⟩
    cases (hc.table.find_it hk).symm.trans hfind
    obtain ⟨nodes, hnodes, howns⟩ := hc.holds
    rw [Process.spaces_some halive hspace] at hperm
    -- the address space is one of those held, and the others stay
    have howns' := howns.perm (hperm.symm.append_right (app.printer.buffered ++ nodes))
    have hlive := howns'.isLive List.mem_cons_self
    have hleft := howns'.dealloc hfree
    exact ⟨hshape hc hnone, hparks hc, hc.rings, hc.disk,
      ⟨nodes, hnodes, hleft.perm (hmodify.append_right _)⟩, hc.released.append hlive rfl⟩

/-- The running process exchanges its address space. -/
theorem pRealloc_keeps {app app' : App} {k : Fin MAX_PCB} {bytes : UInt32}
    (hk : (app.pcb.slot k).c.it ≠ 0) (hrun : (app.pcb.slot k).status = .running)
    (hok : pRealloc app k (app.pcb.slot k).addressSpace bytes = .ok app') : Keeps app app' := by
  by_cases hregion : (app.pcb.slot k).addressSpace = 0
  · rw [pRealloc, if_pos hregion] at hok
    cases hok
    exact .refl _
  have hcalls := pRealloc_calls hok
  obtain ⟨it, buffer, fp, fp₁, m₁, m₂, m₃, m₄, st₁, st₂, c, hgrown, rfl⟩ := pRealloc_eq_ok hok hregion
  refine ⟨hcalls, fun hfresh hc => ?_⟩
  have halive : (app.pcb.slot k).status ≠ .kill := by
    rw [hrun]
    decide
  let move : Process → Process := fun p => p.move buffer
  have hsaved : Store.Loads { app.toStore with mem := m₁ } (app.toStore.saved it m₁
      (app.heap.instructions (entryAddr (app.pcb.slot k).c.it (app.pcb.slot k).c.pc.toNat))
      (app.pcb.slot k).fb fp) := .of_heap rfl
  have hheader := hsaved.trans (readHeader_loads hgrown.header)
  have hcode : Store.Loads { st₁ with mem := m₃ } st₂ := loadCode_loads hgrown.code
  have hfree := hgrown.scratch_free
  have hstages := hgrown.calls
  -- the blocks handed out at every stage are fresh
  have hfresh₃ : m₃.Fresh := hfresh.of_suffix hstages.scratch_release
  have hfresh₂ : m₂.Fresh := hfresh₃.of_suffix hstages.space
  have hfreshₛ : st₁.mem.Fresh := hfresh₂.of_suffix hstages.release
  have hfresh₁ : m₁.Fresh := hfreshₛ.of_suffix hstages.header
  obtain ⟨nodes, hnodes, howns⟩ := hc.holds
  -- scratch entry, header, release, address space, release of the scratch entry
  have hperm := app.pcb.spaces_perm k
  rw [Process.spaces_some halive hregion] at hperm
  have h₀ := howns.perm (hperm.symm.append_right (app.printer.buffered ++ nodes))
  have h₁ := (h₀.alloc hfresh₁ hgrown.scratch).resolve_left fun hnull => hgrown.it_ne hnull.1
  have h₂ := (hheader.owns _ hfreshₛ h₁.2).perm (.swap it _ _)
  have hlive := h₂.isLive List.mem_cons_self
  have h₃ := h₂.dealloc hgrown.release
  have h₄ := (h₃.alloc hfresh₃ hgrown.space).resolve_left fun hnull => hgrown.buffer_ne hnull.1
  have h₅ := (h₄.2.perm (.swap buffer it _)).dealloc hfree
  have hmodify := app.pcb.spaces_modify k move
  rw [Process.spaces_some (p := (app.pcb.slot k).move buffer) halive hgrown.buffer_ne] at hmodify
  have hlists : st₂.heap.printLists = app.heap.printLists :=
    hcode.printLists.trans hheader.printLists
  have hparked : st₂.semaphores.parked.Subperm app.semaphores.parked :=
    hcode.parked.trans hheader.parked
  have hshape : (app.pcb.modify k move).Shape :=
    hc.table.modify rfl rfl (fun hfree => absurd hfree (hc.table.used_of_it hk))
      fun hdead => absurd hdead halive
  have hparks : (app.pcb.modify k move).Parks app.parked := hc.parks.modify rfl rfl id
  refine ⟨hshape, hparks.subperm ((List.subperm_append_left _).mpr hparked),
    hcode.rings (hheader.rings hc.rings), hc.disk, ⟨nodes, ?_, h₅.perm (hmodify.append_right _)⟩,
    hc.released.append hlive rfl⟩
  show app.printer.Nodes st₂.heap.printLists nodes
  rw [hlists]
  exact hnodes

end ChicOS
