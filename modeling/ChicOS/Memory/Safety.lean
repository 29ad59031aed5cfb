-- SUMMARY: The allocator's invariant: live blocks are disjoint and intact, and the free count counts the free pages.
import ChicOS.Memory.SecondChance
import ChicOS.Lib.Packing
import Mathlib.Data.Rat.Defs
import Mathlib.Algebra.Order.Field.Rat
import Mathlib.Tactic.Linarith
import Mathlib.Tactic.Positivity

/-!
# Allocator safety and page accounting

`Memory.Inv` ties the page table to the history: free pages and live blocks form
a packing, every live block still has the header `c_alloc` wrote for it, and
`free_page_num` is the number of free pages. `c_alloc` and `c_dealloc` preserve
it as long as page replacement frees no page (`Memory.Replaces`): replacement is
the one path that marks a page free without ending the life of the block it
belongs to.
-/

namespace ChicOS

namespace Memory

theorem mem_freePages {m : Memory} {j : Nat} :
    j ∈ m.freePages ↔ j < m.pt.len ∧ m.pt.pages[j]?.any Page.free = true := by
  simp [freePages]

end Memory

theorem mapRange_getElem? (pt : PageTable) (lo hi : Nat) (f : Page → Page) (j : Nat) :
    (pt.mapRange lo hi f)[j]? = if lo ≤ j ∧ j < hi then pt.pages[j]?.map f else pt.pages[j]? := by
  simp only [PageTable.mapRange, List.getElem?_mapIdx]
  split
  · rfl
  · simp

@[simp] theorem mapRange_length (pt : PageTable) (lo hi : Nat) (f : Page → Page) :
    (pt.mapRange lo hi f).length = pt.pages.length := by
  simp [PageTable.mapRange]

/-! ## What `second_chance` leaves alone -/

/-- Two memories that agree on everything an owner of a block relies on: they may
differ in the used bits, the hand and the lock. -/
structure Memory.SameOwners (m m' : Memory) : Prop where
  len : m'.pt.len = m.pt.len
  num : m'.pt.freePageNum = m.pt.freePageNum
  length : m'.pt.pages.length = m.pt.pages.length
  free : ∀ j : Nat, m'.pt.pages[j]?.any Page.free = m.pt.pages[j]?.any Page.free
  pool : m'.pool = m.pool
  size : m'.size = m.size
  calls : m'.calls = m.calls

namespace Memory.SameOwners

variable {m m' m'' : Memory}

theorem refl (m : Memory) : m.SameOwners m := ⟨rfl, rfl, rfl, fun _ => rfl, rfl, rfl, rfl⟩

theorem trans (h : m.SameOwners m') (h' : m'.SameOwners m'') : m.SameOwners m'' where
  len := h'.len.trans h.len
  num := h'.num.trans h.num
  length := h'.length.trans h.length
  free j := (h'.free j).trans (h.free j)
  pool := h'.pool.trans h.pool
  size := h'.size.trans h.size
  calls := h'.calls.trans h.calls

theorem freePages_eq (h : m.SameOwners m') : m'.freePages = m.freePages := by
  ext j
  rw [Memory.mem_freePages, Memory.mem_freePages, h.len, h.free]

theorem live_eq (h : m.SameOwners m') : m'.live = m.live := by
  simp only [Memory.live, h.calls]

theorem getHeader_eq (h : m.SameOwners m') (mem : Addr) : m'.getHeader mem = m.getHeader mem := by
  simp only [Memory.getHeader, h.pool]

end Memory.SameOwners

theorem secondChanceLoop_sameOwners {i fuel curr : Nat} {m m' : Memory} {v : Int}
    (h : secondChanceLoop i fuel curr m = .ok (v, m')) : m.SameOwners m' := by
  induction fuel generalizing curr m with
  | zero => simp [secondChanceLoop] at h
  | succ fuel ih =>
      simp only [secondChanceLoop] at h
      split at h
      · simp at h
      · rename_i p hp
        have hclear : m.SameOwners
            { m with pt.pages := m.pt.pages.modify curr fun p => { p with used := false } } := by
          refine ⟨rfl, rfl, by simp, fun j => ?_, rfl, rfl, rfl⟩
          by_cases hj : curr = j
          · subst hj; simp [hp]
          · simp [hj]
        split at h
        · cases h
          exact ⟨rfl, rfl, rfl, fun _ => rfl, rfl, rfl, rfl⟩
        · split at h
          · exact hclear.trans (ih h)
          · cases h
            exact hclear.trans ⟨rfl, rfl, rfl, fun _ => rfl, rfl, rfl, rfl⟩

theorem secondChance_sameOwners {m m' : Memory} {v : Int} (h : secondChance m = .ok (v, m')) :
    m.SameOwners m' := by
  obtain ⟨m₁, hwait, hloop⟩ := Except.bind_eq_ok.mp h
  obtain ⟨n, -, rfl⟩ := Memory.wait_eq_ok.mp hwait
  have hw : m.SameOwners { m with memoryS := n } :=
    ⟨rfl, rfl, rfl, fun _ => rfl, rfl, rfl, rfl⟩
  exact hw.trans (secondChanceLoop_sameOwners hloop)

/-! ## When `second_chance` names a page -/

/-- A page other than the one before the hand is unused. A hand at zero has no
page before it, and its turn comes back to a page whose bit it cleared. -/
def Memory.HasVictim (m : Memory) : Prop :=
  m.hand = 0 ∨ ∃ j < m.pt.len, j + 1 ≠ m.hand ∧ m.pt.pages[j]?.all (fun p => !p.used) = true

theorem secondChance_victim {m m' : Memory} {v : Int} (hlen : m.pt.pages.length = m.pt.len)
    (h : secondChance m = .ok (v, m')) (hv : v ≠ -1) : m.HasVictim := by
  obtain ⟨hin, hchance⟩ := Memory.secondChance_eq_ok hlen h
  by_cases hzero : m.hand = 0
  · exact .inl hzero
  cases hchance with
  | @found k hk hreach hunused hpassed =>
      refine .inr ⟨m.ahead k, hin.ahead_lt k, fun hlast => ?_, ?_⟩
      · have hend := (Clock.place_add_one_eq_iff hin.hand hk (Nat.pos_of_ne_zero hzero)).mp hlast
        omega
      · unfold Memory.Used at hunused
        cases hp : m.pt.pages[m.ahead k]? with
        | none => rfl
        | some p =>
            rw [hp] at hunused
            simpa using hunused
  | around hz hused => exact absurd hz hzero
  | failed hpos hused => exact absurd rfl hv

/-! ## The history only grows -/

/-- No page was replaced so far. -/
def Memory.NoReplacement (m : Memory) : Prop := ∀ page, Call.replace page ∉ m.calls

def Call.isReplace : Call → Bool
  | .replace _ => true
  | .alloc _ | .dealloc _ => false

instance (m : Memory) : Decidable m.NoReplacement :=
  decidable_of_iff (∀ c ∈ m.calls, c.isReplace = false) (by
    constructor
    · intro h page hmem
      cases h _ hmem
    · intro h c hc
      cases c with
      | replace page => exact absurd hc (h page)
      | alloc | dealloc => rfl)

theorem Memory.NoReplacement.of_suffix {m m' : Memory} (h : m'.NoReplacement)
    (hs : m.calls <:+ m'.calls) : m.NoReplacement :=
  fun page hmem => h page (hs.subset hmem)

theorem freePage_calls {m m' : Memory} {page : Nat} (h : m.freePage page = .ok m') :
    m'.calls = .replace page :: m.calls := by
  obtain ⟨m₁, hwait, h⟩ := Except.bind_eq_ok.mp h
  obtain ⟨n, -, rfl⟩ := Memory.wait_eq_ok.mp hwait
  split at h
  · cases h; rfl
  · cases h

/-- The turns of the replacement loop: there are enough pages, or `second_chance` finds
none, or a page is replaced and the loop goes on. -/
inductive Replacing (num : Nat) : Memory → Bool → Memory → Prop
  | enough {m : Memory} (hle : num ≤ m.pt.freePageNum) : Replacing num m true m
  | gaveUp {m m₁ : Memory} (hlt : m.pt.freePageNum < num)
      (hscan : secondChance m = .ok (-1, m₁)) : Replacing num m false m₁.post
  | replaced {m m₁ m₂ m' : Memory} {v : Int} {enough : Bool} (hlt : m.pt.freePageNum < num)
      (hscan : secondChance m = .ok (v, m₁)) (hv : v ≠ -1)
      (hfree : m₁.freePage v.toNat = .ok m₂) (hrest : Replacing num m₂ enough m') :
      Replacing num m enough m'

theorem replacePages_eq_ok {num fuel : Nat} {m m' : Memory} {enough : Bool}
    (h : replacePages num fuel m = .ok (enough, m')) : Replacing num m enough m' := by
  induction fuel generalizing m with
  | zero => cases h
  | succ fuel ih =>
      rw [replacePages] at h
      split at h
      · rename_i hle
        cases h
        exact .enough hle
      rename_i hlt
      obtain ⟨⟨v, m₁⟩, hscan, h⟩ := Except.bind_eq_ok.mp h
      dsimp only at h
      split at h
      · rename_i hv
        subst hv
        cases h
        exact .gaveUp (Nat.not_le.mp hlt) hscan
      · rename_i hv
        obtain ⟨m₂, hfree, h⟩ := Except.bind_eq_ok.mp h
        exact .replaced (Nat.not_le.mp hlt) hscan hv hfree (ih h)

theorem Replacing.calls {num : Nat} {m m' : Memory} {enough : Bool}
    (h : Replacing num m enough m') : m.calls <:+ m'.calls := by
  induction h with
  | enough => exact List.suffix_refl _
  | gaveUp hlt hscan =>
      rw [← (secondChance_sameOwners hscan).calls]
      exact List.suffix_refl _
  | replaced hlt hscan hv hfree hrest ih =>
      refine List.IsSuffix.trans ?_ ih
      rw [freePage_calls hfree, (secondChance_sameOwners hscan).calls]
      exact List.suffix_cons _ _

theorem replacePages_calls {num fuel : Nat} {m m' : Memory} {enough : Bool}
    (h : replacePages num fuel m = .ok (enough, m')) : m.calls <:+ m'.calls :=
  (replacePages_eq_ok h).calls

/-- What a `c_dealloc` leaves in the history. -/
theorem Memory.cDealloc_calls {m m' : Memory} {p : Addr} (h : cDealloc m p = .ok m') :
    (p = 0 ∧ m'.calls = m.calls) ∨ (p ≠ 0 ∧ m'.calls = .dealloc p :: m.calls) := by
  obtain ⟨m₁, hwait, h⟩ := Except.bind_eq_ok.mp h
  obtain ⟨n, -, rfl⟩ := Memory.wait_eq_ok.mp hwait
  dsimp only at h
  split at h
  · cases h
    exact .inl ⟨‹_›, rfl⟩
  · split at h
    · cases h
    · cases h
      exact .inr ⟨‹_›, rfl⟩

theorem cDealloc_noReplacement {m m' : Memory} {mem : Addr} (hno : m.NoReplacement)
    (h : cDealloc m mem = .ok m') : m'.NoReplacement := by
  intro page hmem
  rcases Memory.cDealloc_calls h with ⟨-, hcalls⟩ | ⟨-, hcalls⟩
  · rw [hcalls] at hmem
    exact hno page hmem
  · rw [hcalls] at hmem
    rcases List.mem_cons.mp hmem with heq | hmem
    · cases heq
    · exact hno page hmem

/-- The count suffices at once, or `second_chance` finds no page, or a page is replaced. -/
theorem replacePages_cases {num fuel : Nat} {m m' : Memory} {enough : Bool}
    (h : replacePages num (fuel + 1) m = .ok (enough, m')) :
    (num ≤ m.pt.freePageNum ∧ enough = true ∧ m' = m) ∨
    m.pt.freePageNum < num ∧ ∃ v m₁, secondChance m = .ok (v, m₁) ∧
      ((enough = false ∧ m' = m₁.post) ∨ v ≠ -1 ∧ ∃ page, Call.replace page ∈ m'.calls) := by
  cases replacePages_eq_ok h with
  | enough hle => exact .inl ⟨hle, rfl, rfl⟩
  | gaveUp hlt hscan => exact .inr ⟨hlt, -1, _, hscan, .inl ⟨rfl, rfl⟩⟩
  | @replaced _ m₁ _ _ v _ hlt hscan hv hfree hrest =>
      refine .inr ⟨hlt, v, m₁, hscan, .inr ⟨hv, v.toNat, hrest.calls.subset ?_⟩⟩
      rw [freePage_calls hfree]
      exact List.mem_cons_self

/-! ## The ways a call of `c_alloc` returns -/

/-- The request is refused at once, or no page was left to replace, or the first run
of free pages is handed out. -/
inductive AllocStep (m : Memory) (bytes : UInt32) : Addr → Memory → Prop
  | refused : AllocStep m bytes 0 m
  | exhausted {m' : Memory} (hbytes : bytes ≠ 0) (hsize : bytes.toNat < m.size)
      (hrepl : replacePages (numPages bytes) (numPages bytes + 1) m = .ok (false, m')) :
      AllocStep m bytes 0 m'
  | served {i : Nat} {m₁ : Memory} (hbytes : bytes ≠ 0) (hsize : bytes.toNat < m.size)
      (hrepl : replacePages (numPages bytes) (numPages bytes + 1) m = .ok (true, m₁))
      (hlock : 0 < m₁.memoryS) (hfind : m₁.pt.findRegion (numPages bytes) = some i) :
      AllocStep m bytes (i * PAGE_SIZE + sizeofAllocHeader)
        (m₁.takeRegion i (numPages bytes) bytes)

theorem cAlloc_eq_ok {m m' : Memory} {bytes : UInt32} {p : Addr}
    (h : cAlloc m bytes = .ok (p, m')) : AllocStep m bytes p m' := by
  unfold cAlloc at h
  split at h
  · cases h
    exact .refused
  rename_i hbytes
  split at h
  · cases h
    exact .refused
  rename_i hsize
  obtain ⟨⟨enough, m₁⟩, hrepl, h⟩ := Except.bind_eq_ok.mp h
  dsimp only at h
  split at h
  · rename_i hnot
    cases h
    rw [hnot] at hrepl
    exact .exhausted hbytes (Nat.not_le.mp hsize) hrepl
  rename_i henough
  rw [Bool.not_eq_false] at henough
  obtain ⟨m₂, hwait, h⟩ := Except.bind_eq_ok.mp h
  obtain ⟨n, hlock, rfl⟩ := Memory.wait_eq_ok.mp hwait
  split at h
  · cases h
  rename_i i hfind
  cases h
  have hposted : (({ m₁ with memoryS := n } : Memory).takeRegion i (numPages bytes) bytes).post
      = m₁.takeRegion i (numPages bytes) bytes := by
    simp only [Memory.post, Memory.takeRegion, hlock]
  rw [hposted]
  rw [henough] at hrepl
  exact .served hbytes (Nat.not_le.mp hsize) hrepl (by omega) hfind

theorem cAlloc_calls {m m' : Memory} {bytes : UInt32} {p : Addr}
    (h : cAlloc m bytes = .ok (p, m')) : m.calls <:+ m'.calls := by
  cases cAlloc_eq_ok h with
  | refused => exact List.suffix_refl _
  | exhausted hbytes hsize hrepl => exact replacePages_calls hrepl
  | served hbytes hsize hrepl hlock hfind =>
      exact (replacePages_calls hrepl).trans (List.suffix_cons _ _)

/-- A call that replaces no page refuses the request and leaves every owner's view
alone, or hands out the first run of free pages. -/
theorem cAlloc_cases {m m' : Memory} {bytes : UInt32} {p : Addr} (hno : m'.NoReplacement)
    (h : cAlloc m bytes = .ok (p, m')) :
    (p = 0 ∧ m.SameOwners m') ∨
    ∃ i, m.pt.findRegion (numPages bytes) = some i ∧ numPages bytes ≤ m.pt.freePageNum ∧
      p = i * PAGE_SIZE + sizeofAllocHeader ∧
      m' = { m.takeRegion i (numPages bytes) bytes with memoryS := m'.memoryS } := by
  cases cAlloc_eq_ok h with
  | refused => exact .inl ⟨rfl, .refl m⟩
  | exhausted hbytes hsize hrepl =>
      rcases replacePages_cases hrepl with ⟨-, henough, -⟩ | ⟨-, v, m₁, hsc, hend⟩
      · cases henough
      · obtain ⟨-, rfl⟩ := hend.resolve_right fun ⟨_, page, hmem⟩ => hno page hmem
        exact .inl ⟨rfl, (secondChance_sameOwners hsc).trans
          ⟨rfl, rfl, rfl, fun _ => rfl, rfl, rfl, rfl⟩⟩
  | served hbytes hsize hrepl hlock hfind =>
      rcases replacePages_cases hrepl with ⟨hle, -, rfl⟩ | ⟨-, v, m₁, -, hend⟩
      · exact .inr ⟨_, hfind, hle, rfl, rfl⟩
      · rcases hend with ⟨henough, -⟩ | ⟨-, page, hmem⟩
        · cases henough
        · exact absurd (List.mem_cons_of_mem _ hmem) (hno page)

/-- The request enters page replacement, and `second_chance` has a page to name. -/
def Memory.Replaces (m : Memory) (bytes : UInt32) : Prop :=
  bytes ≠ 0 ∧ bytes.toNat < m.size ∧ m.pt.freePageNum < numPages bytes ∧ m.HasVictim

/-- Nothing else replaces a page. -/
theorem cAlloc_noReplacement {m m' : Memory} {bytes : UInt32} {p : Addr}
    (hlen : m.pt.pages.length = m.pt.len) (hrep : ¬ m.Replaces bytes) (hno : m.NoReplacement)
    (h : cAlloc m bytes = .ok (p, m')) : m'.NoReplacement := by
  have hcalls : bytes ≠ 0 → bytes.toNat < m.size → ∀ {enough m₁},
      replacePages (numPages bytes) (numPages bytes + 1) m = .ok (enough, m₁) →
      m₁.calls = m.calls := by
    intro hbytes hsize enough m₁ hrepl
    rcases replacePages_cases hrepl with ⟨-, -, rfl⟩ | ⟨hlt, v, m₂, hsc, ⟨-, rfl⟩ | ⟨hv, -⟩⟩
    · rfl
    · exact (secondChance_sameOwners hsc).calls
    · exact absurd ⟨hbytes, hsize, hlt, secondChance_victim hlen hsc hv⟩ hrep
  cases cAlloc_eq_ok h with
  | refused => exact hno
  | exhausted hbytes hsize hrepl =>
      intro page
      rw [hcalls hbytes hsize hrepl]
      exact hno page
  | served hbytes hsize hrepl hlock hfind =>
      intro page hmem
      rcases List.mem_cons.mp hmem with heq | hmem
      · cases heq
      · rw [hcalls hbytes hsize hrepl] at hmem
        exact hno page hmem

theorem findRegion_eq_some {pt : PageTable} {num i : Nat} (h : pt.findRegion num = some i) :
    i + num ≤ pt.len ∧ ∀ j, i ≤ j → j < i + num → pt.pages[j]?.any Page.free = true := by
  have hi := List.find?_some h
  simp only [Bool.and_eq_true, decide_eq_true_eq, PageTable.regionFree, List.all_eq_true] at hi
  refine ⟨hi.1, fun j hj hj' => hi.2 j ?_⟩
  rw [List.mem_range'_1]
  exact ⟨hj, hj'⟩

/-- A block has room for the request and for its header. -/
theorem numPages_usable (bytes : UInt32) :
    0 < numPages bytes ∧ bytes.toNat ≤ numPages bytes * PAGE_SIZE - sizeofAllocHeader := by
  unfold numPages PAGE_SIZE KB sizeofAllocHeader
  omega

/-! ## Headers -/

/-- A header has 32 bits for each of its fields. -/
theorem storeHeader_getHeader_u32 {m : Memory} {i : Nat} {h : AllocHeader} :
    ({ m with pool := storeHeader m.pool (i * PAGE_SIZE) h } : Memory).getHeader
      (i * PAGE_SIZE + sizeofAllocHeader) = { id := u32 h.id, pageNum := u32 h.pageNum } := by
  have hpow : (256 : Nat) ^ 4 = 2 ^ 32 := by norm_num
  simp only [Memory.getHeader, storeHeader, Nat.add_sub_cancel]
  rw [Bytes.loadLE_storeLE_of_disjoint (by omega), Bytes.loadLE_storeLE, Bytes.loadLE_storeLE, hpow]
  rfl

theorem storeHeader_getHeader {m : Memory} {i : Nat} {h : AllocHeader}
    (hid : h.id < 2 ^ 32) (hnum : h.pageNum < 2 ^ 32) :
    ({ m with pool := storeHeader m.pool (i * PAGE_SIZE) h } : Memory).getHeader
      (i * PAGE_SIZE + sizeofAllocHeader) = h := by
  rw [storeHeader_getHeader_u32, u32_of_lt hid, u32_of_lt hnum]

/-- Writing the header of one page leaves the header of every other page alone. -/
theorem storeHeader_getHeader_ne {m : Memory} {i j : Nat} {h : AllocHeader} (hij : i ≠ j) :
    ({ m with pool := storeHeader m.pool (i * PAGE_SIZE) h } : Memory).getHeader
      (j * PAGE_SIZE + sizeofAllocHeader) = m.getHeader (j * PAGE_SIZE + sizeofAllocHeader) := by
  simp only [Memory.getHeader, storeHeader, Nat.add_sub_cancel, PAGE_SIZE, KB]
  rw [Bytes.loadLE_storeLE_of_disjoint (by omega), Bytes.loadLE_storeLE_of_disjoint (by omega),
    Bytes.loadLE_storeLE_of_disjoint (by omega), Bytes.loadLE_storeLE_of_disjoint (by omega)]

/-! ## The invariant -/

/-- A live block as `c_alloc` left it. -/
structure Block.Intact (m : Memory) (b : Block) : Prop where
  pos : 0 < b.pages
  inside : b.start + b.pages ≤ m.pt.len
  fits : b.bytes ≤ b.usable
  header : m.getHeader b.ptr = { id := b.start, pageNum := b.pages }

/-- The table, the pool and the history agree. -/
structure Memory.Inv (m : Memory) : Prop where
  length : m.pt.pages.length = m.pt.len
  len : m.pt.len * PAGE_SIZE ≤ m.size
  size : m.size < 4 * MB
  packing : Packing Block.range m.freePages m.live
  count : m.pt.freePageNum = m.freePages.card
  intact : ∀ b ∈ m.live, b.Intact m

namespace Memory.Inv

variable {m m' : Memory}

theorem len_lt (h : m.Inv) : m.pt.len < 2 ^ 12 := by
  have hlen := h.len
  have hsize := h.size
  unfold PAGE_SIZE KB at hlen
  unfold MB at hsize
  omega

theorem of_sameOwners (h : m.Inv) (hs : m.SameOwners m') : m'.Inv where
  length := by rw [hs.length, hs.len, h.length]
  len := by rw [hs.len, hs.size]; exact h.len
  size := by rw [hs.size]; exact h.size
  packing := by rw [hs.freePages_eq, hs.live_eq]; exact h.packing
  count := by rw [hs.num, hs.freePages_eq, h.count]
  intact := by
    intro b hb
    rw [hs.live_eq] at hb
    obtain ⟨hpos, hin, hfit, hhdr⟩ := h.intact b hb
    exact ⟨hpos, by rw [hs.len]; exact hin, hfit, by rw [hs.getHeader_eq]; exact hhdr⟩

/-- The free count never exceeds the number of pages. -/
theorem freePageNum_le (h : m.Inv) : m.pt.freePageNum ≤ m.pt.len := by
  rw [h.count]
  calc m.freePages.card ≤ (Finset.range m.pt.len).card := Finset.card_filter_le _ _
    _ = m.pt.len := Finset.card_range _

end Memory.Inv

theorem initMem_inv (pool : Bytes.Mem) (memSize : UInt32) : (initMem pool memSize).Inv := by
  have hfree : (initMem pool memSize).freePages = Finset.range (initMem pool memSize).pt.len := by
    ext j
    rw [Memory.mem_freePages, Finset.mem_range]
    constructor
    · exact And.left
    · intro hj
      refine ⟨hj, ?_⟩
      simp only [initMem] at hj ⊢
      simp [hj]
  have hsize : (initMem pool memSize).size < 4 * MB := by
    simp only [initMem]
    split
    · simp [DEFAULT_MEMORY_SIZE, MB]
    · omega
  refine ⟨?_, Nat.div_mul_le_self _ _, hsize, ?_, ?_, ?_⟩
  · simp [initMem]
  · exact Packing.empty _
  · rw [hfree, Finset.card_range]
    rfl
  · simp [Memory.live, initMem, liveBlocks]

/-! ## Handing out a run of free pages -/

theorem takeRegion_freePages {m : Memory} {i num : Nat} {bytes : UInt32} :
    (m.takeRegion i num bytes).freePages = m.freePages \ Finset.Ico i (i + num) := by
  ext j
  rw [Finset.mem_sdiff, Memory.mem_freePages, Memory.mem_freePages, Finset.mem_Ico]
  simp only [Memory.takeRegion, mapRange_getElem?]
  by_cases hj : i ≤ j ∧ j < i + num
  · simp only [hj, and_self, if_true, not_true, and_false, iff_false, not_and]
    intro _
    cases m.pt.pages[j]? <;> simp
  · simp [hj]

/-- Blocks apart start at different pages. -/
theorem Block.start_ne_of_disjoint {b c : Block} (hb : 0 < b.pages) (hc : 0 < c.pages)
    (hdisjoint : Disjoint b.range c.range) : b.start ≠ c.start := by
  intro hstart
  have hmemb : b.start ∈ b.range := Finset.mem_Ico.mpr ⟨le_rfl, Nat.lt_add_of_pos_right hb⟩
  have hmemc : b.start ∈ c.range := by
    rw [hstart]
    exact Finset.mem_Ico.mpr ⟨le_rfl, Nat.lt_add_of_pos_right hc⟩
  exact Finset.disjoint_left.mp hdisjoint hmemb hmemc

theorem findRegion_range {m : Memory} {i num : Nat} (hi : m.pt.findRegion num = some i) :
    Finset.Ico i (i + num) ⊆ m.freePages := by
  obtain ⟨hin, hfree⟩ := findRegion_eq_some hi
  intro j hj
  obtain ⟨hj, hj'⟩ := Finset.mem_Ico.mp hj
  exact Memory.mem_freePages.mpr ⟨by omega, hfree j hj hj'⟩

/-- The new block is as it should be. -/
theorem takeRegion_intact {m : Memory} {i : Nat} {bytes : UInt32} (hlen : m.pt.len < 2 ^ 32)
    (hi : m.pt.findRegion (numPages bytes) = some i) :
    Block.Intact (m.takeRegion i (numPages bytes) bytes)
      { start := i, pages := numPages bytes, bytes := bytes.toNat } := by
  have hin := (findRegion_eq_some hi).1
  obtain ⟨hpos, hfits⟩ := numPages_usable bytes
  have hid : i < 2 ^ 32 := by omega
  have hnum : numPages bytes < 2 ^ 32 := by omega
  exact ⟨hpos, hin, hfits, storeHeader_getHeader hid hnum⟩

/-- The blocks that start elsewhere stay as they are. -/
theorem takeRegion_intact_ne {m : Memory} {i num : Nat} {bytes : UInt32} {c : Block}
    (hc : c.Intact m) (hne : i ≠ c.start) : c.Intact (m.takeRegion i num bytes) :=
  ⟨hc.pos, hc.inside, hc.fits, (storeHeader_getHeader_ne hne).trans hc.header⟩

theorem takeRegion_inv {m : Memory} {i : Nat} {bytes : UInt32} (h : m.Inv)
    (hi : m.pt.findRegion (numPages bytes) = some i) :
    (m.takeRegion i (numPages bytes) bytes).Inv := by
  have hlen := h.len_lt
  let b : Block := { start := i, pages := numPages bytes, bytes := bytes.toNat }
  have hrange : b.range ⊆ m.freePages := findRegion_range hi
  have hlive : (m.takeRegion i (numPages bytes) bytes).live = b :: m.live := rfl
  have hnew := @takeRegion_intact m i bytes (by omega) hi
  refine ⟨?_, h.len, h.size, ?_, ?_, ?_⟩
  · simp [Memory.takeRegion, h.length]
  · rw [takeRegion_freePages, hlive]
    exact h.packing.take hrange
  · have hcard := Packing.card_take hrange
    have hb : b.range.card = numPages bytes := by simp [Block.range, b]
    rw [takeRegion_freePages]
    change m.pt.freePageNum - numPages bytes = (m.freePages \ b.range).card
    rw [h.count]
    omega
  · intro c hc
    rw [hlive] at hc
    rcases List.mem_cons.mp hc with rfl | hold
    · exact hnew
    · -- no page of a live block is free
      have hcin := h.intact c hold
      exact takeRegion_intact_ne hcin (Block.start_ne_of_disjoint (b := b) hnew.pos hcin.pos
        ((h.packing.apart c hold).symm.mono_left hrange))

/-! ## Giving a block back -/

theorem pushFreeStack_eq (pt : PageTable) (i : Nat) :
    ∃ st, pt.pushFreeStack i = { pt with freeStack := st } := by
  unfold PageTable.pushFreeStack
  split
  · exact ⟨_, rfl⟩
  · exact ⟨pt.freeStack, rfl⟩

theorem foldl_pushFreeStack_eq (is : List Nat) (pt : PageTable) :
    ∃ st, is.foldl PageTable.pushFreeStack pt = { pt with freeStack := st } := by
  induction is generalizing pt with
  | nil => exact ⟨pt.freeStack, rfl⟩
  | cons i is ih =>
      obtain ⟨st, hst⟩ := pushFreeStack_eq pt i
      obtain ⟨st', hst'⟩ := ih { pt with freeStack := st }
      exact ⟨st', by rw [List.foldl_cons, hst, hst']⟩

/-- What giving a block back leaves. -/
def Memory.released (m : Memory) (b : Block) (freeStack : List Nat) : Memory :=
  { m with
    pt :=
      { m.pt with
        freePageNum := u32 (m.pt.freePageNum + b.pages)
        pages := m.pt.mapRange b.start (b.start + b.pages) fun p => { p with free := true }
        freeStack := freeStack }
    calls := .dealloc b.ptr :: m.calls }

theorem Memory.ptr_ne_zero (b : Block) : b.ptr ≠ 0 := by
  simp [Block.ptr, sizeofAllocHeader]

/-- An intact block can be given back, and that frees exactly its pages. -/
theorem cDealloc_intact {m : Memory} {b : Block} (hb : b.Intact m) (hlock : 0 < m.memoryS)
    (hlen : m.pt.len < 2 ^ 32) :
    ∃ freeStack, cDealloc m b.ptr = .ok (m.released b freeStack) := by
  have hin := hb.inside
  obtain ⟨n, hn⟩ := Nat.exists_eq_succ_of_ne_zero (Nat.ne_of_gt hlock)
  have hwait : m.wait = .ok { m with memoryS := n } := Memory.wait_eq_ok.mpr ⟨n, hn, rfl⟩
  have hhdr : ({ m with memoryS := n } : Memory).getHeader b.ptr
      = { id := b.start, pageNum := b.pages } := hb.header
  obtain ⟨st, hst⟩ := foldl_pushFreeStack_eq (List.range' b.start (b.start + b.pages - b.start))
    { m.pt with
      freePageNum := u32 (m.pt.freePageNum + b.pages)
      pages := m.pt.mapRange b.start (b.start + b.pages) fun p => { p with free := true } }
  refine ⟨st, ?_⟩
  unfold cDealloc
  rw [hwait, Except.ok_bind_run]
  dsimp only
  rw [if_neg (Memory.ptr_ne_zero b), hhdr]
  dsimp only
  rw [u32_of_lt (n := b.start + b.pages) (by omega),
    if_neg fun hout => Nat.not_lt.mpr hin hout.2, hst]
  simp only [Memory.post, Memory.released, hn]

/-- Giving back an intact live block frees exactly its pages. -/
theorem cDealloc_eq_ok {m m' : Memory} {b : Block} (h : m.Inv) (hb : b ∈ m.live)
    (hok : cDealloc m b.ptr = .ok m') :
    ∃ st,
      m' = { m with
        pt :=
          { m.pt with
            freePageNum := m.pt.freePageNum + b.pages
            pages := m.pt.mapRange b.start (b.start + b.pages) fun p => { p with free := true }
            freeStack := st }
        calls := .dealloc b.ptr :: m.calls } := by
  have hintact := h.intact b hb
  have hin := hintact.inside
  have hlen := h.len_lt
  have hnum := h.freePageNum_le
  obtain ⟨m₁, hwait, -⟩ := Except.bind_eq_ok.mp hok
  obtain ⟨n, hn, -⟩ := Memory.wait_eq_ok.mp hwait
  obtain ⟨st, hreturn⟩ := cDealloc_intact hintact (by omega) (by omega)
  rw [hreturn] at hok
  cases hok
  refine ⟨st, ?_⟩
  rw [Memory.released, u32_of_lt (by omega)]

theorem freeRange_freePages {m m' : Memory} {b : Block} (hlen : m'.pt.len = m.pt.len)
    (hlength : m.pt.pages.length = m.pt.len) (hin : b.start + b.pages ≤ m.pt.len)
    (hpages : m'.pt.pages
      = m.pt.mapRange b.start (b.start + b.pages) fun p => { p with free := true }) :
    m'.freePages = m.freePages ∪ b.range := by
  ext j
  rw [Finset.mem_union, Memory.mem_freePages, Memory.mem_freePages, Block.range, Finset.mem_Ico,
    hlen, hpages, mapRange_getElem?]
  by_cases hj : b.start ≤ j ∧ j < b.start + b.pages
  · have hjlen : j < m.pt.pages.length := by omega
    simp [hj, List.getElem?_eq_getElem hjlen]
    omega
  · simp [hj]

theorem cDealloc_inv {m m' : Memory} {mem : Addr} (h : m.Inv) (hlive : m.IsLive mem)
    (hok : cDealloc m mem = .ok m') : m'.Inv := by
  obtain ⟨b₀, hb₀, hptr₀⟩ := hlive
  -- the block whose life ends is the newest one at the address
  obtain ⟨b, before, after, -, hptr, hsplit, herase⟩ :=
    List.exists_of_eraseP (p := fun c : Block => c.ptr = mem) hb₀ (by simpa using hptr₀)
  simp only [decide_eq_true_eq] at hptr
  subst hptr
  have hb : b ∈ m.live := by rw [hsplit]; simp
  obtain ⟨hpos, hin, hfit, hhdr⟩ := h.intact b hb
  obtain ⟨st, hm'⟩ := cDealloc_eq_ok h hb hok
  have hlive' : m'.live = before ++ after := by
    rw [hm', ← herase]
    rfl
  have hperm : m.live.Perm (b :: m'.live) := by
    rw [hlive', hsplit]
    exact List.perm_middle
  have hfree : m'.freePages = m.freePages ∪ b.range := by
    apply freeRange_freePages (by rw [hm']) h.length hin
    rw [hm']
  have hcard : b.range.card = b.pages := by simp [Block.range]
  refine ⟨?_, ?_, ?_, ?_, ?_, ?_⟩
  · rw [hm']; simp [h.length]
  · rw [hm']; exact h.len
  · rw [hm']; exact h.size
  · rw [hfree]
    exact h.packing.release hperm
  · rw [hfree, h.packing.card_release hb, hcard, ← h.count, hm']
  · intro c hc
    obtain ⟨hcpos, hcin, hcfit, hchdr⟩ :=
      h.intact c (hperm.mem_iff.mpr (List.mem_cons_of_mem _ hc))
    subst hm'
    exact ⟨hcpos, hcin, hcfit, hchdr⟩

theorem cAlloc_inv {m m' : Memory} {bytes : UInt32} {p : Addr} (h : m.Inv)
    (hno : m'.NoReplacement) (hok : cAlloc m bytes = .ok (p, m')) : m'.Inv := by
  rcases cAlloc_cases hno hok with ⟨-, hs⟩ | ⟨i, hi, -, -, hm'⟩
  · exact h.of_sameOwners hs
  · have hlock : (m.takeRegion i (numPages bytes) bytes).SameOwners m' := by
      rw [hm']
      exact ⟨rfl, rfl, rfl, fun _ => rfl, rfl, rfl, rfl⟩
    exact (takeRegion_inv h hi).of_sameOwners hlock

/-! ## Runs of requests -/

/-- A request to the allocator. -/
inductive Request where
  | alloc (bytes : UInt32)
  | dealloc (mem : Addr)

/-- Serve one request. -/
def Memory.serve (m : Memory) : Request → Except Stop Memory
  | .alloc bytes => do
    let (_, m) ← cAlloc m bytes
    .ok m
  | .dealloc mem => cDealloc m mem

/-- Only live blocks are given back. -/
def Memory.Legal (m : Memory) : Request → Prop
  | .alloc _ => True
  | .dealloc mem => m.IsLive mem

/-- The request frees no page by replacement. -/
def Memory.KeepsPages (m : Memory) : Request → Prop
  | .alloc bytes => ¬ m.Replaces bytes
  | .dealloc _ => True

theorem serve_inv {m m' : Memory} {r : Request} (h : m.Inv ∧ m.NoReplacement)
    (hr : m.Legal r ∧ m.KeepsPages r) (hok : m.serve r = .ok m') :
    m'.Inv ∧ m'.NoReplacement := by
  cases r with
  | alloc bytes =>
      obtain ⟨⟨p, m₁⟩, halloc, hm⟩ := Except.bind_eq_ok.mp hok
      cases hm
      have hno := cAlloc_noReplacement h.1.length hr.2 h.2 halloc
      exact ⟨cAlloc_inv h.1 hno halloc, hno⟩
  | dealloc mem => exact ⟨cDealloc_inv h.1 hr.1 hok, cDealloc_noReplacement h.2 hok⟩

theorem initMem_noReplacement (pool : Bytes.Mem) (memSize : UInt32) :
    (initMem pool memSize).NoReplacement := fun _ => List.not_mem_nil

theorem serve_run_inv {pool : Bytes.Mem} {memSize : UInt32} {rs : List Request} {m : Memory}
    (hlegal : Run.Meets Memory.serve Memory.Legal (initMem pool memSize) rs)
    (hkeep : Run.Meets Memory.serve Memory.KeepsPages (initMem pool memSize) rs)
    (hrun : Run.run Memory.serve (initMem pool memSize) rs = .ok m) : m.Inv :=
  (Run.run_invariant (fun m => m.Inv ∧ m.NoReplacement) serve_inv
    ⟨initMem_inv pool memSize, initMem_noReplacement pool memSize⟩ (hlegal.and hkeep) hrun).1

/-! ## Allocator safety -/

/-- What the owners of blocks rely on. -/
structure Memory.Safe (m : Memory) : Prop where
  inside : ∀ b ∈ m.live, (b.start + b.pages) * PAGE_SIZE ≤ m.size
  usable : ∀ b ∈ m.live, b.bytes ≤ b.usable
  disjoint : m.live.Pairwise fun b c => Disjoint b.range c.range

theorem Memory.Inv.safe {m : Memory} (h : m.Inv) : m.Safe where
  inside := by
    intro b hb
    calc (b.start + b.pages) * PAGE_SIZE
        ≤ m.pt.len * PAGE_SIZE := Nat.mul_le_mul_right _ (h.intact b hb).inside
      _ ≤ m.size := h.len
  usable := fun b hb => (h.intact b hb).fits
  disjoint := h.packing.disjoint

/-- In every run in which replacement frees no page, every block handed out lies
in the pool, is large enough, and shares no page with another live block. -/
theorem live_blocks_safe (pool : Bytes.Mem) (memSize : UInt32) (rs : List Request) {m : Memory}
    (hlegal : Run.Meets Memory.serve Memory.Legal (initMem pool memSize) rs)
    (hkeep : Run.Meets Memory.serve Memory.KeepsPages (initMem pool memSize) rs)
    (hrun : Run.run Memory.serve (initMem pool memSize) rs = .ok m) : m.Safe :=
  (serve_run_inv hlegal hkeep hrun).safe

theorem live_blocks_safe_two_allocs :
    ∃ m, Run.run Memory.serve (initMem (fun _ => 0) 4096) [.alloc 100, .alloc 2000] = .ok m ∧
      m.live.length = 2 ∧ m.Safe := by
  refine ⟨_, rfl, by decide, live_blocks_safe (fun _ => 0) 4096
    [.alloc 100, .alloc 2000] ?_ ?_ rfl⟩
  · exact .cons_of_ok trivial rfl (.cons_of_ok trivial rfl trivial)
  · refine .cons_of_ok ?_ rfl (.cons_of_ok ?_ rfl trivial)
    · rintro ⟨-, -, hlt, -⟩
      exact absurd hlt (by decide)
    · rintro ⟨-, -, hlt, -⟩
      exact absurd hlt (by decide)

/-- Three requests of one page each in a pool of two pages: the third is given a
page that one of the first two still owns. -/
theorem live_blocks_not_always_safe :
    ¬ ∀ (pool : Bytes.Mem) (memSize : UInt32) (rs : List Request) (m : Memory),
      1 ≤ (initMem pool memSize).pt.len →
      Run.Meets Memory.serve Memory.Legal (initMem pool memSize) rs →
      Run.run Memory.serve (initMem pool memSize) rs = .ok m → m.Safe := by
  intro h
  have hlegal : Run.Meets Memory.serve Memory.Legal (initMem (fun _ => 0) 2048)
      [.alloc 100, .alloc 100, .alloc 100] :=
    .cons_of_ok trivial rfl (.cons_of_ok trivial rfl (.cons_of_ok trivial rfl trivial))
  have hsafe := h (fun _ => 0) 2048 [.alloc 100, .alloc 100, .alloc 100] _ (by decide) hlegal rfl
  exact absurd hsafe.disjoint (by decide)

/-! ## Page accounting -/

/-- `retrieve_free_mem_percentage`, in exact arithmetic. -/
def Memory.retrieveFreeMemPercentage (m : Memory) : ℚ :=
  (m.pt.freePageNum : ℚ) / (m.pt.len : ℚ) * 100

/-- `retrieve_used_mem_percentage`, in exact arithmetic. -/
def Memory.retrieveUsedMemPercentage (m : Memory) : ℚ := 100 - m.retrieveFreeMemPercentage

/-- The free count is right, and so the memory bar has a size. -/
structure Memory.Accounted (m : Memory) : Prop where
  count : m.pt.freePageNum = m.freePages.card
  le : m.pt.freePageNum ≤ m.pt.len
  percentage : 0 ≤ m.retrieveUsedMemPercentage ∧ m.retrieveUsedMemPercentage ≤ 100

theorem Memory.Inv.accounted {m : Memory} (h : m.Inv) : m.Accounted where
  count := h.count
  le := h.freePageNum_le
  percentage := by
    have hle : (m.pt.freePageNum : ℚ) ≤ (m.pt.len : ℚ) := by exact_mod_cast h.freePageNum_le
    have hnonneg : (0 : ℚ) ≤ (m.pt.freePageNum : ℚ) / (m.pt.len : ℚ) := by positivity
    have hone : (m.pt.freePageNum : ℚ) / (m.pt.len : ℚ) ≤ 1 := div_le_one_of_le₀ hle (by positivity)
    unfold Memory.retrieveUsedMemPercentage Memory.retrieveFreeMemPercentage
    constructor <;> linarith

/-- In every run in which replacement frees no page, `free_page_num` is the
number of free pages. -/
theorem pages_accounted (pool : Bytes.Mem) (memSize : UInt32) (rs : List Request) {m : Memory}
    (hlegal : Run.Meets Memory.serve Memory.Legal (initMem pool memSize) rs)
    (hkeep : Run.Meets Memory.serve Memory.KeepsPages (initMem pool memSize) rs)
    (hrun : Run.run Memory.serve (initMem pool memSize) rs = .ok m) : m.Accounted :=
  (serve_run_inv hlegal hkeep hrun).accounted

theorem pages_accounted_alloc_dealloc :
    ∃ m, Run.run Memory.serve (initMem (fun _ => 0) 4096) [.alloc 100, .dealloc 8] = .ok m ∧
      m.pt.freePageNum = 4 ∧ m.Accounted := by
  refine ⟨_, rfl, by decide, pages_accounted (fun _ => 0) 4096
    [.alloc 100, .dealloc 8] ?_ ?_ rfl⟩
  · exact .cons_of_ok trivial rfl (.cons_of_ok ⟨_, .head _, rfl⟩ rfl trivial)
  · refine .cons_of_ok ?_ rfl (.cons_of_ok trivial rfl trivial)
    rintro ⟨-, -, hlt, -⟩
    exact absurd hlt (by decide)

/-- In a pool of two pages, a block of one page takes the second page of a block
of two; releasing both counts that page twice. -/
theorem pages_not_always_accounted :
    ¬ ∀ (pool : Bytes.Mem) (memSize : UInt32) (rs : List Request) (m : Memory),
      1 ≤ (initMem pool memSize).pt.len →
      Run.Meets Memory.serve Memory.Legal (initMem pool memSize) rs →
      Run.run Memory.serve (initMem pool memSize) rs = .ok m → m.Accounted := by
  intro h
  have hlegal : Run.Meets Memory.serve Memory.Legal (initMem (fun _ => 0) 2048)
      [.alloc 1500, .alloc 100, .dealloc 8, .dealloc 1032] :=
    .cons_of_ok trivial rfl (.cons_of_ok trivial rfl
      (.cons_of_ok ⟨_, .tail _ (.head _), rfl⟩ rfl (.cons_of_ok ⟨_, .head _, rfl⟩ rfl trivial)))
  have hacc := h (fun _ => 0) 2048 [.alloc 1500, .alloc 100, .dealloc 8, .dealloc 1032] _
    (by decide) hlegal rfl
  exact absurd hacc.le (by decide)

end ChicOS
