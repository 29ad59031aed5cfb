-- SUMMARY: First fit: where c_alloc puts a block, what it changes there, and when it finds no place.
import ChicOS.Memory.Leases
import Mathlib.Order.Bounds.Basic

/-!
# First fit

For a request that needs no more pages than are free, `c_alloc` replaces none. It
takes the first run of free pages that is long enough, and ends the program if there
is none.
-/

namespace ChicOS

/-- A run of free pages in the table. -/
def PageTable.FreeRun (pt : PageTable) (num i : Nat) : Prop :=
  i + num ≤ pt.len ∧ ∀ j, i ≤ j → j < i + num → pt.pages[j]?.any Page.free = true

theorem regionFree_iff {pt : PageTable} {num i : Nat} :
    (decide (i + num ≤ pt.len) && pt.regionFree i num) = true ↔ pt.FreeRun num i := by
  simp only [Bool.and_eq_true, decide_eq_true_eq, PageTable.regionFree, List.all_eq_true,
    List.mem_range'_1, PageTable.FreeRun, and_imp]

instance PageTable.decidableFreeRun (pt : PageTable) (num i : Nat) : Decidable (pt.FreeRun num i) :=
  decidable_of_iff _ regionFree_iff

/-- A run of pages starts within the table. -/
theorem PageTable.FreeRun.lt {pt : PageTable} {num i : Nat} (h : pt.FreeRun num i) (hnum : 0 < num) :
    i < pt.len := Nat.lt_of_lt_of_le (Nat.lt_add_of_pos_right hnum) h.1

/-- The scan finds the first run. -/
theorem findRegion_eq_some_iff {pt : PageTable} {num i : Nat} (hnum : 0 < num) :
    pt.findRegion num = some i ↔ IsLeast {j | pt.FreeRun num j} i := by
  unfold PageTable.findRegion
  rw [List.find?_range_eq_some, regionFree_iff, List.mem_range]
  constructor
  · rintro ⟨hrun, -, hbefore⟩
    refine ⟨hrun, fun j hj => ?_⟩
    by_contra hlt
    have hnot := hbefore j (Nat.not_le.mp hlt)
    rw [Bool.not_eq_true', ← Bool.not_eq_true, regionFree_iff] at hnot
    exact hnot hj
  · rintro ⟨hrun, hleast⟩
    refine ⟨hrun, hrun.lt hnum, fun j hj => ?_⟩
    rw [Bool.not_eq_true', ← Bool.not_eq_true, regionFree_iff]
    exact fun hj' => absurd (hleast hj') (Nat.not_le.mpr hj)

theorem findRegion_eq_none {pt : PageTable} {num : Nat} (h : ∀ i, ¬ pt.FreeRun num i) :
    pt.findRegion num = none := by
  unfold PageTable.findRegion
  rw [List.find?_range_eq_none]
  intro i _
  rw [Bool.not_eq_true', ← Bool.not_eq_true, regionFree_iff]
  exact h i

/-- What handing out the pages from `i` on does. -/
structure Memory.Handed (m m' : Memory) (i num : Nat) : Prop where
  header : m'.getHeader (i * PAGE_SIZE + sizeofAllocHeader) = { id := i, pageNum := num }
  taken : ∀ j, i ≤ j → j < i + num → m'.pt.pages[j]? = some { free := false, used := true }
  others : ∀ j, ¬ (i ≤ j ∧ j < i + num) → m'.pt.pages[j]? = m.pt.pages[j]?
  count : m'.pt.freePageNum = m.pt.freePageNum - num
  len : m'.pt.len = m.pt.len
  bytes : ∀ a, a < i * PAGE_SIZE ∨ i * PAGE_SIZE + sizeofAllocHeader ≤ a → m'.pool a = m.pool a
  lock : m'.memoryS = m.memoryS

section

variable {m : Memory} {i : Nat} {bytes : UInt32}

theorem storeHeader_apply_of_outside {pool : Bytes.Mem} {at_ a : Nat} {h : AllocHeader}
    (ha : a < at_ ∨ at_ + sizeofAllocHeader ≤ a) : storeHeader pool at_ h a = pool a := by
  unfold sizeofAllocHeader at ha
  unfold storeHeader
  rw [Bytes.storeLE_apply_of_outside (by omega), Bytes.storeLE_apply_of_outside (by omega)]

/-- A run of free pages is handed out. -/
theorem takeRegion_handed (hlen : m.pt.len < 2 ^ 32)
    (hrun : m.pt.FreeRun (numPages bytes) i) :
    m.Handed (m.takeRegion i (numPages bytes) bytes) i (numPages bytes) := by
  have hnum := (numPages_usable bytes).1
  have hin := hrun.1
  refine ⟨?_, fun j hj hj' => ?_, fun j hj => ?_, rfl, rfl, fun a ha => ?_, rfl⟩
  · rw [Memory.takeRegion_getHeader, u32_of_lt (by omega), u32_of_lt (by omega)]
  · have hfree := hrun.2 j hj hj'
    show (m.pt.mapRange _ _ _)[j]? = _
    rw [mapRange_getElem?, if_pos ⟨hj, hj'⟩]
    cases hp : m.pt.pages[j]? with
    | none => rw [hp] at hfree; cases hfree
    | some p => rfl
  · show (m.pt.mapRange _ _ _)[j]? = _
    rw [mapRange_getElem?, if_neg hj]
  · exact storeHeader_apply_of_outside ha

/-- With enough pages a request takes what the scan finds. -/
theorem cAlloc_eq_of_enough {m₁ : Memory} (hbytes : bytes ≠ 0) (hsize : bytes.toNat < m.size)
    (hrepl : replacePages (numPages bytes) (numPages bytes + 1) m = .ok (true, m₁))
    (hlock : 0 < m₁.memoryS) :
    cAlloc m bytes = match m₁.pt.findRegion (numPages bytes) with
      | none => .error .exit
      | some i => .ok (i * PAGE_SIZE + sizeofAllocHeader, m₁.takeRegion i (numPages bytes) bytes) := by
  obtain ⟨n, hn⟩ := Nat.exists_eq_succ_of_ne_zero (Nat.ne_of_gt hlock)
  have hwait : m₁.wait = .ok { m₁ with memoryS := n } := Memory.wait_eq_ok.mpr ⟨n, hn, rfl⟩
  unfold cAlloc
  rw [if_neg hbytes, if_neg (Nat.not_le.mpr hsize)]
  dsimp only
  rw [hrepl, Except.ok_bind_run]
  dsimp only
  rw [if_neg Bool.true_eq_false_eq_False, hwait, Except.ok_bind_run]
  dsimp only
  cases m₁.pt.findRegion (numPages bytes) with
  | none => rfl
  | some i =>
      have hposted : (({ m₁ with memoryS := n } : Memory).takeRegion i (numPages bytes) bytes).post
          = m₁.takeRegion i (numPages bytes) bytes := by
        simp only [Memory.post, Memory.takeRegion, hn]
      dsimp only
      rw [hposted]

/-- A request that needs no replacement has enough at once. -/
theorem cAlloc_eq (hlock : 0 < m.memoryS) (hbytes : bytes ≠ 0) (hsize : bytes.toNat < m.size)
    (hnum : numPages bytes ≤ m.pt.freePageNum) :
    cAlloc m bytes = match m.pt.findRegion (numPages bytes) with
      | none => .error .exit
      | some i => .ok (i * PAGE_SIZE + sizeofAllocHeader, m.takeRegion i (numPages bytes) bytes) :=
  cAlloc_eq_of_enough hbytes hsize (if_pos hnum) hlock

end

/-- For a request that needs no more pages than are free, the block starts at the
first run of free pages that is long enough; without one no block is handed out. -/
theorem first_fit {m : Memory} {bytes : UInt32} (hlen : m.pt.len * PAGE_SIZE ≤ m.size)
    (hbound : m.size < 2 ^ 32) (hlock : 0 < m.memoryS) (hbytes : bytes ≠ 0)
    (hsize : bytes.toNat < m.size) (hnum : numPages bytes ≤ m.pt.freePageNum) :
    (∀ i, IsLeast {j | m.pt.FreeRun (numPages bytes) j} i →
      ∃ m', cAlloc m bytes = .ok (i * PAGE_SIZE + sizeofAllocHeader, m') ∧
        m.Handed m' i (numPages bytes)) ∧
    ((∀ i, ¬ m.pt.FreeRun (numPages bytes) i) → cAlloc m bytes = .error .exit) := by
  have hpos := (numPages_usable bytes).1
  have hpages : m.pt.len < 2 ^ 32 := by
    unfold PAGE_SIZE KB at hlen
    omega
  rw [cAlloc_eq hlock hbytes hsize hnum]
  constructor
  · intro i hi
    rw [(findRegion_eq_some_iff hpos).mpr hi]
    exact ⟨_, rfl, takeRegion_handed hpages hi.1⟩
  · intro hnone
    rw [findRegion_eq_none hnone]

/-- With the first of four pages taken, a block of two starts at the second. -/
theorem first_fit_second :
    ∃ m', cAlloc ((initMem (fun _ => 0) 4096).takeRegion 0 1 100) 2000 = .ok (1032, m') ∧
      Memory.Handed ((initMem (fun _ => 0) 4096).takeRegion 0 1 100) m' 1 2 := by
  have hleast : IsLeast
      {j | ((initMem (fun _ => 0) 4096).takeRegion 0 1 100).pt.FreeRun (numPages 2000) j} 1 := by
    refine ⟨by decide, fun j hj => ?_⟩
    refine Nat.one_le_iff_ne_zero.mpr fun hzero => ?_
    rw [hzero] at hj
    exact absurd hj (by decide)
  exact (first_fit (by decide) (by decide) (by decide) (by decide) (by decide) (by decide)).1 1 hleast

end ChicOS
