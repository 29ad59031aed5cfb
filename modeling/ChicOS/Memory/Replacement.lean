-- SUMMARY: Page replacement: which page second_chance names, and that it and the loop of c_alloc around it end.
import ChicOS.Memory.Refusal

/-!
# Page replacement

`second_chance` meets the pages in circular order from its hand. A page that it has
passed is out of use when it comes by again, so there is a first place that is out of
use at most one turn ahead; the scan stops there, unless it gives up before. What it
returns is not the page it has stopped at but the one after it.
-/

namespace ChicOS

namespace Memory

/-- The page so many places ahead is out of use by the time the scan gets there. -/
def OutOfUse (m : Memory) (o : Nat) : Prop := m.pt.len ≤ o ∨ ¬ m.Used (m.ahead o)

instance decidableOutOfUse (m : Memory) : DecidablePred m.OutOfUse :=
  fun _ => inferInstanceAs (Decidable (_ ∨ _))

/-- `second_chance` has stopped at the first place out of use. -/
structure Stopped (m : Memory) (k : Nat) (v : Int) (m' : Memory) : Prop where
  le : k ≤ m.pt.len
  outOfUse : m.OutOfUse k
  before : ∀ l < k, ¬ m.OutOfUse l
  result : v = m.ahead (k + 1)
  state : m' = { m.clearUsed k with hand := m.ahead (k + 1) }

section

variable {m m₁ m₂ m' : Memory} {v : Int} {k : Nat}

theorem outOfUse_iff_of_lt {o : Nat} (ho : o < m.pt.len) : m.OutOfUse o ↔ ¬ m.Used (m.ahead o) :=
  or_iff_right (Nat.not_le.mpr ho)

theorem Chance.stopped (hchance : m.Chance v m') (hv : v ≠ -1) : ∃ k, m.Stopped k v m' := by
  cases hchance with
  | @found k hk _ hunused hpassed =>
      refine ⟨k, Nat.le_of_lt hk, .inr hunused, fun l hl => ?_, rfl, rfl⟩
      rw [outOfUse_iff_of_lt (Nat.lt_trans hl hk), not_not]
      exact hpassed l hl
  | around _ hused =>
      refine ⟨m.pt.len, Nat.le_refl _, .inl (Nat.le_refl _), fun l hl => ?_, rfl, rfl⟩
      rw [outOfUse_iff_of_lt hl, not_not]
      exact hused l hl
  | failed => exact absurd rfl hv

/-! ## The page it names -/

/-- What second chance is to do: name the first page out of use, clear the bits of the
pages before it, and go on behind it the next time. -/
structure PicksUnused (m : Memory) (v : Int) (m' : Memory) : Prop where
  first : (∃ j < m.pt.len, ¬ m.Used j) → ∃ k < m.pt.len,
    ¬ m.Used (m.ahead k) ∧ (∀ l < k, m.Used (m.ahead l)) ∧ v = m.ahead k ∧
      m'.hand = (m.ahead k + 1) % m.pt.len ∧
      (∀ l < k, m'.pt.pages[m.ahead l]?
        = m.pt.pages[m.ahead l]?.map fun p => { p with used := false }) ∧
      ∀ l < m.pt.len, k ≤ l → m'.pt.pages[m.ahead l]? = m.pt.pages[m.ahead l]?
  none : v = -1 → ∀ j < m.pt.len, m.Used j

/-- The pages that are passed are changed, and no others. -/
theorem HandIn.clearUsed_pages (h : m.HandIn) (hk : k ≤ m.pt.len) :
    (∀ l < k, (m.clearUsed k).pt.pages[m.ahead l]?
      = m.pt.pages[m.ahead l]?.map fun p => { p with used := false }) ∧
    ∀ l < m.pt.len, k ≤ l → (m.clearUsed k).pt.pages[m.ahead l]? = m.pt.pages[m.ahead l]? := by
  constructor
  · intro l hl
    exact Clock.getElem?_clear h.hand (by omega) (Nat.zero_le l) (by omega)
  · intro l hl hkl
    refine Clock.getElem?_clear_of_ne fun l' _ hl' heq => ?_
    have hplace := (Clock.place_inj h.hand (by omega) hl).mp heq
    omega

/-- In a table of more than one page the page after another is another page. -/
theorem HandIn.ahead_succ_ne (h : m.HandIn) (hlen : m.pt.len ≠ 1) : m.ahead (k + 1) ≠ m.ahead k := by
  have hlt := h.ahead_lt k
  rw [ahead_succ]
  by_cases hnext : m.ahead k + 1 < m.pt.len
  · rw [Nat.mod_eq_of_lt hnext]
    omega
  · have hend : m.ahead k + 1 = m.pt.len := by omega
    rw [hend, Nat.mod_self]
    omega

theorem Chance.picksUnused_iff (h : m.HandIn) (hchance : m.Chance v m') :
    m.PicksUnused v m' ↔ m.pt.len = 1 ∨ ∀ j < m.pt.len, m.Used j := by
  by_cases hall : ∀ j < m.pt.len, m.Used j
  · refine iff_of_true ⟨?_, fun _ => hall⟩ (.inr hall)
    rintro ⟨j, hj, hunused⟩
    exact absurd (hall j hj) hunused
  have hsome : ∃ j < m.pt.len, ¬ m.Used j := by
    by_contra hnone
    exact hall fun j hj => by_contra fun hunused => hnone ⟨j, hj, hunused⟩
  rw [or_iff_left hall]
  obtain ⟨j, hj, hunusedj⟩ := hsome
  cases hchance with
  | @found k hk _ hunused hpassed =>
      constructor
      · intro hpicks
        obtain ⟨k', hk', hunused', hpassed', hv, -⟩ := hpicks.first ⟨j, hj, hunusedj⟩
        -- the first page out of use is where the scan has stopped
        have hkk : k' = k := by
          rcases Nat.lt_trichotomy k' k with hlt | heq | hgt
          · exact absurd (hpassed k' hlt) hunused'
          · exact heq
          · exact absurd (hpassed' k hgt) hunused
        subst hkk
        by_contra hlen
        exact h.ahead_succ_ne hlen (Int.ofNat_inj.mp hv)
      · intro hlen
        obtain ⟨hcleared, hkept⟩ := h.clearUsed_pages (Nat.le_of_lt hk)
        have hone (o : Nat) : m.ahead o = 0 := by
          have := h.ahead_lt o
          omega
        refine ⟨fun _ => ⟨k, hk, hunused, hpassed, ?_, ?_, hcleared, hkept⟩, fun hv => ?_⟩
        · rw [hone, hone]
        · exact ahead_succ m k
        · omega
  | around _ hused =>
      obtain ⟨l, hl, rfl⟩ := Clock.exists_place h.hand hj
      exact absurd (hused l hl) hunusedj
  | failed hpos hused =>
      refine iff_of_false (fun hpicks => ?_) fun hlen => ?_
      · obtain ⟨k', -, -, -, hv, -⟩ := hpicks.first ⟨j, hj, hunusedj⟩
        omega
      · have := h.hand
        omega

end

end Memory

/-- `second_chance` returns, and has picked a page that was out of use just if there is
but one page, or there was none to pick. -/
theorem second_chance_unused {m : Memory} (h : m.HandIn) (hlock : 0 < m.memoryS) :
    ∃ v m', secondChance m = .ok (v, m') ∧
      (m.PicksUnused v m' ↔ m.pt.len = 1 ∨ ∀ j < m.pt.len, m.Used j) := by
  obtain ⟨v, m', hok, hchance⟩ := Memory.secondChance_chance h hlock
  exact ⟨v, m', hok, hchance.picksUnused_iff h⟩

theorem initMem_handIn {pool : Bytes.Mem} {memSize : UInt32} (hlen : 0 < (initMem pool memSize).pt.len) :
    (initMem pool memSize).HandIn := ⟨initMem_length pool memSize, hlen⟩

/-- A pool of one page. -/
theorem second_chance_unused_one :
    ∃ v m', secondChance (initMem (fun _ => 0) 1024) = .ok (v, m') ∧
      (initMem (fun _ => 0) 1024).PicksUnused v m' := by
  obtain ⟨v, m', hok, hiff⟩ := second_chance_unused
    (m := initMem (fun _ => 0) 1024) (initMem_handIn (by decide)) (by decide)
  exact ⟨v, m', hok, hiff.mpr (.inl (by decide))⟩

/-- In a fresh pool of two pages the page named is the second. -/
theorem second_chance_not_always_unused :
    ¬ ∀ (m m' : Memory) (v : Int), m.HandIn → 0 < m.memoryS → secondChance m = .ok (v, m') →
      m.PicksUnused v m' := by
  intro h
  have hin : (initMem (fun _ => 0) 2048).HandIn := initMem_handIn (by decide)
  obtain ⟨v, m', hok, hchance⟩ := Memory.secondChance_chance hin (by decide)
  rcases (hchance.picksUnused_iff hin).mp (h _ m' v hin (by decide) hok) with hone | hall
  · exact absurd hone (by decide)
  · exact absurd (hall 0 (by decide)) (by decide)

/-! ## Replacement ends -/

/-- More fuel than it takes does not matter to the scan. -/
theorem secondChanceLoop_add {i fuel curr : Nat} {m : Memory} {r : Int × Memory} (extra : Nat)
    (h : secondChanceLoop i fuel curr m = .ok r) :
    secondChanceLoop i (fuel + extra) curr m = .ok r := by
  induction fuel generalizing curr m with
  | zero => cases h
  | succ fuel ih =>
      have hfuel : fuel + 1 + extra = fuel + extra + 1 := by omega
      rw [hfuel]
      rw [secondChanceLoop] at h ⊢
      split at h
      · cases h
      · rename_i p hp
        dsimp only at h ⊢
        split at h
        · rename_i hunused
          rw [if_pos hunused]
          exact h
        · rename_i hused
          rw [if_neg hused]
          split at h
          · rename_i hnext
            rw [if_pos hnext]
            exact ih h
          · rename_i hlast
            rw [if_neg hlast]
            exact h

namespace Memory

section

variable {m m₁ m' : Memory} {v : Int}

/-- The result names a page, if it is none. -/
theorem Chance.range (h : m.HandIn) (hchance : m.Chance v m') : v = -1 ∨ 0 ≤ v ∧ v < m.pt.len := by
  by_cases hv : v = -1
  · exact .inl hv
  · obtain ⟨k, hstop⟩ := hchance.stopped hv
    have hlt := h.ahead_lt (k + 1)
    have hresult := hstop.result
    exact .inr ⟨by omega, by omega⟩

/-- A page that is named can be marked free. -/
theorem freePage_returns (m : Memory) {page : Nat} (hpage : page < m.pt.len) (hlock : 0 < m.memoryS) :
    ∃ m', m.freePage page = .ok m' := by
  obtain ⟨n, hn⟩ := Nat.exists_eq_succ_of_ne_zero (Nat.ne_of_gt hlock)
  have hwait : m.wait = .ok { m with memoryS := n } := wait_eq_ok.mpr ⟨n, hn, rfl⟩
  unfold freePage
  rw [hwait, Except.ok_bind_run]
  exact ⟨_, if_pos hpage⟩

/-- The replacement loop ends when as many pages have been freed as were missing, if it
does not give up before. -/
theorem replacePages_returns {num : Nat} (h : m.HandIn) (hlock : 0 < m.memoryS) (hnum : num < 2 ^ 32) :
    ∃ enough m', (∀ fuel, num - m.pt.freePageNum < fuel → replacePages num fuel m = .ok (enough, m')) ∧
      m'.HandIn ∧ 0 < m'.memoryS := by
  obtain ⟨d, hd⟩ : ∃ d, num ≤ m.pt.freePageNum + d := ⟨num, Nat.le_add_left _ _⟩
  induction d generalizing m with
  | zero =>
      refine ⟨true, m, fun fuel hfuel => ?_, h, hlock⟩
      obtain ⟨fuel, rfl⟩ : ∃ n, fuel = n + 1 := ⟨fuel - 1, by omega⟩
      exact if_pos hd
  | succ d ih =>
      by_cases hle : num ≤ m.pt.freePageNum
      · exact ih h hlock (by omega)
      obtain ⟨v, m₁, hscan, hchance⟩ := secondChance_chance h hlock
      obtain ⟨hkept, -, hlen⟩ := hchance.unchanged
      have hin₁ := hchance.handIn h
      by_cases hv : v = -1
      · subst hv
        refine ⟨false, m₁.post, fun fuel hfuel => ?_, ⟨hin₁.length, hin₁.hand⟩, Nat.succ_pos _⟩
        obtain ⟨fuel, rfl⟩ : ∃ n, fuel = n + 1 := ⟨fuel - 1, by omega⟩
        rw [replacePages, if_neg hle, hscan, Except.ok_bind_run]
        exact if_pos rfl
      · obtain ⟨hpos, hlt⟩ := (hchance.range h).resolve_left hv
        obtain ⟨m₂, hfree⟩ := freePage_returns m₁ (show v.toNat < m₁.pt.len by omega) (by omega)
        have hin₂ := (freePage_sameScan hfree).handIn hin₁
        have hone : m₂.pt.freePageNum = m.pt.freePageNum + 1 :=
          hchance.freePageNum_freePage hfree (by omega)
        have hlock₂ : m₂.memoryS = m.memoryS := hchance.memoryS_freePage hfree
        obtain ⟨enough, m', hrest, hin, hlock'⟩ := ih hin₂ (by omega) (by omega)
        refine ⟨enough, m', fun fuel hfuel => ?_, hin, hlock'⟩
        obtain ⟨fuel, rfl⟩ : ∃ n, fuel = n + 1 := ⟨fuel - 1, by omega⟩
        rw [replacePages, if_neg hle, hscan, Except.ok_bind_run]
        dsimp only
        rw [if_neg hv, hfree, Except.ok_bind_run]
        exact hrest fuel (by omega)

end

end Memory

/-- `second_chance` returns within one turn more than there are pages, names a page or
none, and leaves its hand in the table; and the loop of `c_alloc` that calls it ends, for
every request. -/
theorem replacement_ends {m : Memory} (h : m.HandIn) (hlock : 0 < m.memoryS) :
    (∃ v m', secondChance m = .ok (v, m') ∧
      (∀ fuel, m.pt.len < fuel →
        secondChanceLoop m.hand fuel m.hand { m with memoryS := m.memoryS - 1 } = .ok (v, m')) ∧
      (v = -1 ∨ 0 ≤ v ∧ v < m.pt.len) ∧ m'.pt.len = m.pt.len ∧ m'.HandIn) ∧
    ∀ bytes, ∃ enough m',
      (∀ fuel, numPages bytes < fuel → replacePages (numPages bytes) fuel m = .ok (enough, m')) ∧
      m'.HandIn := by
  constructor
  · obtain ⟨v, m', hok, hchance⟩ := Memory.secondChance_chance h hlock
    refine ⟨v, m', hok, fun fuel hfuel => ?_, hchance.range h, hchance.unchanged.2.2, hchance.handIn h⟩
    obtain ⟨m₁, hwait, hloop⟩ := Except.bind_eq_ok.mp hok
    obtain ⟨n, hn, rfl⟩ := Memory.wait_eq_ok.mp hwait
    obtain ⟨extra, rfl⟩ := Nat.exists_eq_add_of_lt hfuel
    have hbound := secondChanceLoop_add extra hloop
    have hfuel : m.pt.len + 1 + extra = m.pt.len + extra + 1 := by omega
    have hlocked : m.memoryS - 1 = n := by omega
    rw [hfuel] at hbound
    rw [hlocked]
    exact hbound
  · intro bytes
    obtain ⟨enough, m', hloop, hin, -⟩ := Memory.replacePages_returns h hlock (Memory.numPages_lt bytes)
    exact ⟨enough, m', fun fuel hfuel => hloop fuel (by omega), hin⟩

/-- With all four pages taken, and the hand at zero, the scan goes all the way round. -/
theorem replacement_ends_around :
    ∃ v m', secondChance ((initMem (fun _ => 0) 4096).takeRegion 0 4 4000) = .ok (v, m') ∧
      (v = -1 ∨ 0 ≤ v ∧ v < 4) ∧ m'.HandIn := by
  obtain ⟨⟨v, m', hok, -, hrange, -, hin⟩, -⟩ := replacement_ends
    (m := (initMem (fun _ => 0) 4096).takeRegion 0 4 4000) ⟨by decide, by decide⟩ (by decide)
  exact ⟨v, m', hok, hrange, hin⟩

end ChicOS
