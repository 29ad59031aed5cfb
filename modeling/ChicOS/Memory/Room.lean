-- SUMMARY: A pool that is taken from its front: what c_alloc does as long as there is room behind it.
import ChicOS.Memory.FirstFit
import ChicOS.Memory.Ownership

/-!
# Room

As long as nothing has been given back, the blocks lie one behind the other from the start
of the pool on, and the pages behind them are free. A request that fits there is served, and
its block is a fresh one.
-/

namespace ChicOS

namespace Memory

/-- The first `k` pages are taken, by blocks that were fresh, and the others are free. -/
structure FilledTo (m : Memory) (k : Nat) : Prop where
  lock : 0 < m.memoryS
  size : m.pt.len * PAGE_SIZE ≤ m.size
  bound : m.pt.len < 2 ^ 32
  le : k ≤ m.pt.len
  count : m.pt.freePageNum = m.pt.len - k
  used : ∀ j < k, m.pt.pages[j]?.any Page.free = false
  free : ∀ j, k ≤ j → j < m.pt.len → m.pt.pages[j]?.any Page.free = true
  below : ∀ b ∈ m.live, b.start + b.pages ≤ k
  fresh : m.Fresh

variable {m : Memory} {k : Nat}

theorem initMem_filledTo (pool : Bytes.Mem) (memSize : UInt32) : (initMem pool memSize).FilledTo 0 where
  lock := Nat.one_pos
  size := (initMem_inv pool memSize).len
  bound := Nat.lt_trans (initMem_inv pool memSize).len_lt (by decide)
  le := Nat.zero_le _
  count := rfl
  used j hj := absurd hj (Nat.not_lt_zero j)
  free j _ hj := by
    simp only [initMem] at hj ⊢
    simp [hj]
  below b hb := absurd hb List.not_mem_nil
  fresh calls hcalls := by
    obtain rfl := List.mem_singleton.mp hcalls
    trivial

/-- From one state to the other pages have been taken behind the first `k`, and what was there has
been left alone. -/
structure Fills (m m' : Memory) (k k' : Nat) : Prop where
  filled : m'.FilledTo k'
  le : k ≤ k'
  len : m'.pt.len = m.pt.len
  live : ∀ b ∈ m.live, b ∈ m'.live
  header : ∀ j < k, m'.getHeader (j * PAGE_SIZE + sizeofAllocHeader)
    = m.getHeader (j * PAGE_SIZE + sizeofAllocHeader)

namespace FilledTo

variable {bytes : UInt32}

/-- The first run of free pages starts behind those that are taken. -/
theorem findRegion (h : m.FilledTo k) (hroom : k + numPages bytes ≤ m.pt.len) :
    m.pt.findRegion (numPages bytes) = some k := by
  have hpos := (numPages_usable bytes).1
  refine (findRegion_eq_some_iff hpos).mpr ⟨⟨hroom, fun j hj hj' => h.free j hj (by omega)⟩, ?_⟩
  intro i hrun
  by_contra hlt
  have hused := h.used i (Nat.not_le.mp hlt)
  rw [hrun.2 i (Nat.le_refl i) (by omega)] at hused
  cases hused

/-- The block is apart from those before it. -/
theorem takeRegion_fresh (h : m.FilledTo k) : (m.takeRegion k (numPages bytes) bytes).Fresh := by
  intro calls hcalls
  rw [Memory.takeRegion, List.tails_cons, List.mem_cons] at hcalls
  rcases hcalls with rfl | hcalls
  · intro _ c hc
    have hbelow := h.below c hc
    rw [Finset.disjoint_left]
    intro j hj hj'
    rw [Block.range, Finset.mem_Ico] at hj hj'
    dsimp only at hj
    omega
  · exact h.fresh calls hcalls

theorem takeRegion (h : m.FilledTo k) (hroom : k + numPages bytes ≤ m.pt.len) :
    (m.takeRegion k (numPages bytes) bytes).FilledTo (k + numPages bytes) := by
  have hrun : m.pt.FreeRun (numPages bytes) k :=
    ⟨hroom, fun j hj hj' => h.free j hj (by omega)⟩
  have hhanded : m.Handed (m.takeRegion k (numPages bytes) bytes) k (numPages bytes) :=
    takeRegion_handed h.bound hrun
  refine ⟨h.lock, h.size, h.bound, hroom, ?_, fun j hj => ?_, fun j hj hj' => ?_, fun b hb => ?_,
    h.takeRegion_fresh⟩
  · have hcount := h.count
    rw [hhanded.count, hhanded.len]
    omega
  · by_cases hjk : k ≤ j
    · rw [hhanded.taken j hjk hj]
      rfl
    · rw [hhanded.others j (by omega)]
      exact h.used j (by omega)
  · rw [hhanded.others j (by omega)]
    exact h.free j (by omega) hj'
  · rcases List.mem_cons.mp hb with rfl | hb
    · exact Nat.le_refl _
    · exact Nat.le_trans (h.below b hb) (Nat.le_add_right _ _)

theorem fills (h : m.FilledTo k) : m.Fills m k k :=
  ⟨h, Nat.le_refl k, rfl, fun _ hb => hb, fun _ _ => rfl⟩

/-- A request that fits behind what is taken is served there. -/
theorem alloc (h : m.FilledTo k) (bytes : UInt32) (hbytes : bytes ≠ 0)
    (hroom : k + numPages bytes ≤ m.pt.len) :
    ∃ m', cAlloc m bytes = .ok (k * PAGE_SIZE + sizeofAllocHeader, m') ∧
      m.Fills m' k (k + numPages bytes) ∧
      { start := k, pages := numPages bytes, bytes := bytes.toNat } ∈ m'.live ∧
      m'.getHeader (k * PAGE_SIZE + sizeofAllocHeader)
        = { id := u32 k, pageNum := u32 (numPages bytes) } := by
  have hfits : bytes.toNat < m.size := by
    have hsize := h.size
    have husable := (numPages_usable bytes).2
    have hpos := (numPages_usable bytes).1
    unfold PAGE_SIZE KB at hsize
    unfold PAGE_SIZE KB sizeofAllocHeader at husable
    omega
  have hnum : numPages bytes ≤ m.pt.freePageNum := by
    rw [h.count]
    omega
  rw [cAlloc_eq h.lock hbytes hfits hnum, h.findRegion hroom]
  refine ⟨_, rfl, ⟨h.takeRegion hroom, Nat.le_add_right _ _, rfl,
    fun b hb => List.mem_cons_of_mem _ hb, fun j hj => ?_⟩, List.mem_cons_self,
    takeRegion_getHeader m k _ bytes⟩
  exact storeHeader_getHeader_ne (Nat.ne_of_gt hj)

end FilledTo

namespace Fills

variable {m' m'' : Memory} {k' k'' : Nat}

theorem trans (h : m.Fills m' k k') (h' : m'.Fills m'' k' k'') : m.Fills m'' k k'' where
  filled := h'.filled
  le := Nat.le_trans h.le h'.le
  len := h'.len.trans h.len
  live b hb := h'.live b (h.live b hb)
  header j hj := (h'.header j (Nat.lt_of_lt_of_le hj h.le)).trans (h.header j hj)

/-- Another request is served behind. -/
theorem alloc (h : m.Fills m' k k') (bytes : UInt32) (hbytes : bytes ≠ 0)
    (hroom : k' + numPages bytes ≤ m.pt.len) :
    ∃ m'', cAlloc m' bytes = .ok (k' * PAGE_SIZE + sizeofAllocHeader, m'') ∧
      m.Fills m'' k (k' + numPages bytes) := by
  obtain ⟨m'', halloc, hfills, -, -⟩ := h.filled.alloc bytes hbytes (by rw [h.len]; exact hroom)
  exact ⟨m'', halloc, h.trans hfills⟩

end Fills

end Memory

end ChicOS
