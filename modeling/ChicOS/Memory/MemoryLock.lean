-- SUMMARY: The count of memory_s between the calls of the allocator, over whole runs.
import ChicOS.Memory.Refusal

/-!
# The lock of the allocator

Each function of `mem.c` waits on `memory_s` before its critical section and posts it
after, except that `c_alloc` posts it once more when replacement gives up. No call
takes such a post back: from then on two threads can be inside at once.
-/

namespace ChicOS

/-- A call of a function of `mem.c` that takes the lock. -/
inductive MemCall where
  | cAlloc (bytes : UInt32)
  | cRealloc (currRegion : Addr) (bytes : UInt32)
  | cDealloc (mem : Addr)
  | secondChance
  deriving DecidableEq, Repr

namespace Memory

/-- Execute a call to its return. -/
def call (m : Memory) : MemCall → Except Stop Memory
  | .cAlloc bytes => (ChicOS.cAlloc m bytes).map Prod.snd
  | .cRealloc currRegion bytes => (ChicOS.cRealloc m currRegion bytes).map Prod.snd
  | .cDealloc mem => ChicOS.cDealloc m mem
  | .secondChance => (ChicOS.secondChance m).map Prod.snd

/-- The call will find the memory full after page replacement. -/
def FindsFull (m : Memory) : MemCall → Prop
  | .cAlloc bytes => m.GivesUp bytes
  | .cRealloc currRegion bytes => currRegion ≠ 0 ∧ m.GivesUp (m.oldSize currRegion + bytes)
  | .cDealloc _ => False
  | .secondChance => False

/-! ## One call -/

/-- The call has kept the length of the page table, and posted the lock as often as it
has waited, but once more if it found the memory full. -/
structure Called (m : Memory) (full : Prop) (m' : Memory) : Prop where
  length : m'.pt.pages.length = m'.pt.len
  balanced : ¬ full → m'.memoryS = m.memoryS
  extra : full → m'.memoryS = m.memoryS + 1

section

variable {m m' : Memory}

theorem cAlloc_called {bytes : UInt32} {p : Addr} (hlen : m.pt.pages.length = m.pt.len)
    (h : ChicOS.cAlloc m bytes = .ok (p, m')) : m.Called (m.GivesUp bytes) m' := by
  obtain ⟨hextra, hbalanced⟩ := cAlloc_lock hlen h
  exact ⟨cAlloc_length hlen h, hbalanced, hextra⟩

theorem cDealloc_called {mem : Addr} (hlen : m.pt.pages.length = m.pt.len)
    (h : ChicOS.cDealloc m mem = .ok m') : m.Called False m' := by
  obtain ⟨hlock, hlength⟩ := cDealloc_lock h
  exact ⟨hlength hlen, fun _ => hlock, False.elim⟩

theorem secondChance_called {v : Int} (hlen : m.pt.pages.length = m.pt.len)
    (h : ChicOS.secondChance m = .ok (v, m')) : m.Called False m' := by
  obtain ⟨hin, hchance⟩ := secondChance_eq_ok hlen h
  exact ⟨(hchance.handIn hin).length, fun _ => hchance.unchanged.1, False.elim⟩

/-- A copy is nothing to the lock and the page table. -/
theorem memcpy_kept {dest src : Addr} {n : Nat} (h : m.memcpy dest src n = .ok m') :
    m'.memoryS = m.memoryS ∧ m'.pt = m.pt := by
  unfold memcpy at h
  split at h
  · cases h
    exact ⟨rfl, rfl⟩
  · cases h

/-- A buffer that `c_alloc` returns is not one it gave up on. -/
theorem cAlloc_not_givesUp {bytes : UInt32} {p : Addr} (hlen : m.pt.pages.length = m.pt.len)
    (h : ChicOS.cAlloc m bytes = .ok (p, m')) (hp : p ≠ 0) : ¬ m.GivesUp bytes := by
  intro hgives
  cases cAlloc_eq_ok h with
  | refused => exact hp rfl
  | exhausted => exact hp rfl
  | served hbytes hsize hrepl =>
      cases replacePages_givesUp hlen (numPages_lt bytes) hgives.2.2 hrepl

theorem cRealloc_called {currRegion p : Addr} {bytes : UInt32}
    (hlen : m.pt.pages.length = m.pt.len)
    (h : ChicOS.cRealloc m currRegion bytes = .ok (p, m')) :
    m.Called (currRegion ≠ 0 ∧ m.GivesUp (m.oldSize currRegion + bytes)) m' := by
  unfold ChicOS.cRealloc at h
  split at h
  · rename_i hnull
    cases h
    exact ⟨hlen, fun _ => rfl, fun hfull => absurd hnull hfull.1⟩
  rename_i hcurr
  obtain ⟨⟨buffer, m₁⟩, halloc, h⟩ := Except.bind_eq_ok.mp h
  have hcalled := cAlloc_called hlen halloc
  dsimp only at h
  split at h
  · cases h
    refine ⟨hcalled.length, fun hnot => hcalled.balanced fun hgives => hnot ⟨hcurr, hgives⟩, ?_⟩
    exact fun hfull => hcalled.extra hfull.2
  · rename_i hbuffer
    have hnot := cAlloc_not_givesUp hlen halloc hbuffer
    obtain ⟨m₂, hcopy, h⟩ := Except.bind_eq_ok.mp h
    obtain ⟨m₃, hdealloc, h⟩ := Except.bind_eq_ok.mp h
    cases h
    obtain ⟨hlock, hpt⟩ := memcpy_kept hcopy
    have hfreed := cDealloc_called (hpt ▸ hcalled.length) hdealloc
    refine ⟨hfreed.length, fun _ => ?_, fun hfull => absurd hfull.2 hnot⟩
    calc m'.memoryS = m₂.memoryS := hfreed.balanced id
      _ = m₁.memoryS := hlock
      _ = m.memoryS := hcalled.balanced hnot

/-- The step lemma. -/
theorem call_called {c : MemCall} (hlen : m.pt.pages.length = m.pt.len)
    (h : m.call c = .ok m') : m.Called (m.FindsFull c) m' := by
  cases c with
  | cAlloc bytes =>
      obtain ⟨⟨p, m₁⟩, halloc, h⟩ := Except.bind_eq_ok.mp h
      cases h
      exact cAlloc_called hlen halloc
  | cRealloc currRegion bytes =>
      obtain ⟨⟨p, m₁⟩, hrealloc, h⟩ := Except.bind_eq_ok.mp h
      cases h
      exact cRealloc_called hlen hrealloc
  | cDealloc mem => exact cDealloc_called hlen h
  | secondChance =>
      obtain ⟨⟨v, m₁⟩, hsc, h⟩ := Except.bind_eq_ok.mp h
      cases h
      exact secondChance_called hlen hsc

end

end Memory

/-! ## Runs -/

/-- Between the calls the count is one, as long as no call has found the memory full,
and never again after. -/
theorem memory_lock (pool : Bytes.Mem) (memSize : UInt32) (cs : List MemCall) {m : Memory}
    (hrun : Run.run Memory.call (initMem pool memSize) cs = .ok m) :
    m.memoryS = 1 ↔ Run.Meets Memory.call (fun m c => ¬ m.FindsFull c) (initMem pool memSize) cs := by
  refine (Run.run_measure (f := Memory.memoryS) (fun m => m.pt.pages.length = m.pt.len)
    (fun hlen hcall => ?_) (initMem_length pool memSize) hrun).2
  have hcalled := Memory.call_called hlen hcall
  refine ⟨hcalled.length, hcalled.balanced, fun hfull => ?_⟩
  have hextra := hcalled.extra (not_not.mp hfull)
  omega

/-! ## A pool of two pages -/

instance Memory.decidableGivesUp (m : Memory) (bytes : UInt32) : Decidable (m.GivesUp bytes) :=
  have : Decidable m.Exhausted :=
    decidable_of_iff (0 < m.hand ∧ ∀ j < m.pt.len, j + 1 ≠ m.hand → m.Used j)
      ⟨fun h => ⟨h.1, h.2⟩, fun h => ⟨h.pos, h.used⟩⟩
  inferInstanceAs (Decidable (_ ∧ _))

instance Memory.decidableFindsFull (m : Memory) : (c : MemCall) → Decidable (m.FindsFull c)
  | .cAlloc bytes => m.decidableGivesUp bytes
  | .cRealloc _ _ => inferInstanceAs (Decidable (_ ∧ _))
  | .cDealloc _ => inferInstanceAs (Decidable False)
  | .secondChance => inferInstanceAs (Decidable False)

theorem memory_lock_two :
    ∃ m, Run.run Memory.call (initMem (fun _ => 0) 2048)
      [.cAlloc 100, .secondChance, .cAlloc 0, .cDealloc 8, .cAlloc 100, .cRealloc 8 0] = .ok m ∧
        m.memoryS = 1 := by
  have hchecked : (Run.runChecked Memory.call (fun m c => ¬ m.FindsFull c)
      (initMem (fun _ => 0) 2048) [.cAlloc 100, .secondChance, .cAlloc 0, .cDealloc 8,
        .cAlloc 100, .cRealloc 8 0]).isSome = true := by
    decide +kernel
  obtain ⟨m, hm⟩ := Option.isSome_iff_exists.mp hchecked
  obtain ⟨hnever, hrun⟩ := Run.runChecked_eq_some hm
  exact ⟨m, hrun, (memory_lock (fun _ => 0) 2048 _ hrun).mpr hnever⟩

/-- Four allocations of one page in a pool of two: the fourth finds both pages in use. -/
theorem memory_lock_not_always :
    ¬ ∀ (pool : Bytes.Mem) (memSize : UInt32) (cs : List MemCall) (m : Memory),
      Run.run Memory.call (initMem pool memSize) cs = .ok m → m.memoryS = 1 := by
  intro h
  have hcount : (Run.run Memory.call (initMem (fun _ => 0) 2048)
      [.cAlloc 100, .cAlloc 100, .cAlloc 100, .cAlloc 100]).toOption.map Memory.memoryS = some 2 := by
    decide +kernel
  obtain ⟨m, hrun, htwo⟩ := Option.map_eq_some_iff.mp hcount
  have hone := h (fun _ => 0) 2048 _ m (Except.toOption_eq_ok.mp hrun)
  omega

end ChicOS
