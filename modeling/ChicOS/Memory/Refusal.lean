-- SUMMARY: When c_alloc gives up in the middle of page replacement, and what it leaves then.
import ChicOS.Memory.Safety

/-!
# Giving up

`c_alloc` replaces pages until the count of free pages suffices, and gives up when
`second_chance` finds none. It may give up at once; or, since `second_chance` looks
at all pages but the one before its hand, after it has replaced exactly one page: the
hand stood at the only page out of use, which is now the one before it. That page is
not put back.
-/

namespace ChicOS

namespace Memory

/-! ## What decides it -/

/-- Every page but the one before the hand is in use. -/
structure Exhausted (m : Memory) : Prop where
  pos : 0 < m.hand
  used : ∀ j < m.pt.len, j + 1 ≠ m.hand → m.Used j

/-- The hand stands at the only page out of use, and not at the last page. -/
structure Lone (m : Memory) : Prop where
  next : m.hand + 1 < m.pt.len
  unused : ¬ m.Used m.hand
  used : ∀ j < m.pt.len, j ≠ m.hand → m.Used j

/-- The request needs more pages than are free, and more than replacement gives. -/
def GivesUp (m : Memory) (bytes : UInt32) : Prop :=
  bytes ≠ 0 ∧ bytes.toNat < m.size ∧
    ((m.pt.freePageNum < numPages bytes ∧ m.Exhausted) ∨
      (m.pt.freePageNum + 1 < numPages bytes ∧ m.Lone))

section

variable {m m₁ m₂ m' : Memory} {v : Int}

/-- The pages that `second_chance` would pass, as pages and in its order. -/
theorem HandIn.ahead_used_iff (h : m.HandIn) (hpos : 0 < m.hand) :
    (∀ l, l + 1 < m.pt.len → m.Used (m.ahead l)) ↔
      ∀ j < m.pt.len, j + 1 ≠ m.hand → m.Used j := by
  constructor
  · intro hall j hj hne
    obtain ⟨k, hk, rfl⟩ := Clock.exists_place h.hand hj
    refine hall k (Nat.lt_of_le_of_ne hk fun hend => hne ?_)
    exact (Clock.place_add_one_eq_iff h.hand hk hpos).mpr hend
  · intro hall l hl
    refine hall _ (h.ahead_lt l) fun hlast => ?_
    have hend := (Clock.place_add_one_eq_iff h.hand (Nat.lt_of_succ_lt hl) hpos).mp hlast
    omega

/-- `second_chance` finds no page just when all it would look at are in use. -/
theorem Chance.eq_neg_one_iff (h : m.HandIn) (hchance : m.Chance v m₁) : v = -1 ↔ m.Exhausted := by
  cases hchance with
  | @found k hk hreach hunused hpassed =>
      refine iff_of_false (by omega) fun hex => hunused ?_
      have hpos := hex.pos
      exact (h.ahead_used_iff hpos).mpr hex.used k (by omega)
  | around hzero hused => exact iff_of_false (by omega) fun hex => absurd hzero (Nat.ne_of_gt hex.pos)
  | failed hpos hused => exact iff_of_true rfl ⟨hpos, (h.ahead_used_iff hpos).mp hused⟩

/-! ## A page is replaced -/

/-- Freeing a page is nothing to the next scan. -/
theorem freePage_eq_ok {page : Nat} (h : m.freePage page = .ok m') :
    page < m.pt.len ∧ ∃ st, m' = { m with
      pt :=
        { m.pt with
          pages := m.pt.pages.modify page fun p => { p with free := true }
          freePageNum := u32 (m.pt.freePageNum + 1)
          freeStack := st }
      calls := .replace page :: m.calls } := by
  obtain ⟨m₁, hwait, h⟩ := Except.bind_eq_ok.mp h
  obtain ⟨n, hn, rfl⟩ := wait_eq_ok.mp hwait
  dsimp only at h
  split at h
  · rename_i hpage
    cases h
    obtain ⟨st, hst⟩ := pushFreeStack_eq
      { m.pt with
        pages := m.pt.pages.modify page fun p => { p with free := true }
        freePageNum := u32 (m.pt.freePageNum + 1) } page
    refine ⟨hpage, st, ?_⟩
    rw [hst]
    simp only [post, hn]
  · cases h

/-- Two memories that `second_chance` cannot tell apart. -/
structure SameScan (m m' : Memory) : Prop where
  len : m'.pt.len = m.pt.len
  length : m'.pt.pages.length = m.pt.pages.length
  hand : m'.hand = m.hand
  used : ∀ j, m'.Used j ↔ m.Used j

theorem freePage_sameScan {page : Nat} (h : m.freePage page = .ok m') : m.SameScan m' := by
  obtain ⟨-, st, rfl⟩ := freePage_eq_ok h
  refine ⟨rfl, List.length_modify _ _ _, rfl, fun j => ?_⟩
  unfold Used
  dsimp only
  rw [List.getElem?_modify]
  cases m.pt.pages[j]? with
  | none => rfl
  | some p =>
      by_cases hj : page = j
      · simp [hj]
      · simp [hj]

/-- After a replacement `second_chance` finds no page only if there was one page out of
use, at the hand. -/
theorem Chance.lone_of_exhausted (h : m.HandIn) (hchance : m.Chance v m₁) (hv : v ≠ -1)
    (hsame : m₁.SameScan m₂) (hex : m₂.Exhausted) : m.Lone := by
  have hpos := hex.pos
  have hused : ∀ j < m.pt.len, j + 1 ≠ m₁.hand → m₁.Used j := by
    intro j hj hne
    refine (hsame.used j).mp (hex.used j ?_ (by rwa [hsame.hand]))
    rw [hsame.len]
    cases hchance <;> exact hj
  rw [hsame.hand] at hpos
  cases hchance with
  | @found k hk hreach hunused hpassed =>
      have hnot : ∀ l ≤ k, ¬ (m.clearUsed k).Used (m.ahead l) := by
        intro l hl
        rcases Nat.lt_or_eq_of_le hl with hlt | rfl
        · exact h.not_used_clearUsed (Nat.le_of_lt hk) hlt
        · rwa [h.used_clearUsed_ahead hk (Nat.le_refl _)]
      -- the pages passed and the one found are all the page before the new hand
      have hlast : ∀ l ≤ k, m.ahead l + 1 = m.ahead (k + 1) := by
        intro l hl
        by_contra hne
        exact hnot l hl (hused _ (h.ahead_lt l) hne)
      have hk0 : k = 0 := by
        have hfirst := hlast 0 (Nat.zero_le k)
        have hfound := hlast k (Nat.le_refl k)
        have heq : m.ahead 0 = m.ahead k := by omega
        exact ((h.ahead_inj (by omega) hk).mp heq).symm
      subst hk0
      have hzero : m.ahead 0 = m.hand := Clock.place_zero h.hand
      have hnext : m.hand + 1 = m.ahead 1 := by
        rw [← hzero]
        exact hlast 0 (Nat.le_refl 0)
      refine ⟨?_, hzero ▸ hunused, fun j hj hne => ?_⟩
      · rw [hnext]
        exact h.ahead_lt 1
      · refine hused j hj fun heq => hne ?_
        have heq : j + 1 = m.ahead 1 := heq
        omega
  | around hzero hall =>
      exfalso
      have hcleared : ∀ j < m.pt.len, ¬ (m.clearUsed m.pt.len).Used j := by
        intro j hj
        obtain ⟨k, hk, rfl⟩ := Clock.exists_place h.hand hj
        exact h.not_used_clearUsed (Nat.le_refl _) hk
      have hhand : m.ahead (m.pt.len + 1) = 1 % m.pt.len := by
        rw [ahead, Clock.place, hzero, Nat.zero_add, Nat.add_mod_left]
      have hpos : 0 < m.ahead (m.pt.len + 1) := hpos
      have htwo : 1 < m.pt.len := by
        by_contra hone
        have hlen : m.pt.len = 1 := by
          have := h.hand
          omega
        rw [hhand, hlen] at hpos
        exact absurd hpos (by decide)
      refine hcleared 1 htwo (hused 1 htwo fun heq => ?_)
      have heq : 2 = m.ahead (m.pt.len + 1) := heq
      rw [hhand, Nat.mod_eq_of_lt htwo] at heq
      omega
  | failed => exact absurd rfl hv

/-- After a replacement the only page out of use is never at the hand. -/
theorem Chance.not_lone (h : m.HandIn) (hchance : m.Chance v m₁) (hv : v ≠ -1)
    (hsame : m₁.SameScan m₂) : ¬ m₂.Lone := by
  rintro ⟨hnext, hunused, hused⟩
  rw [hsame.hand] at hnext
  have hused : ∀ j < m₁.pt.len, j ≠ m₁.hand → m₁.Used j := by
    intro j hj hne
    exact (hsame.used j).mp (hused j (hsame.len ▸ hj) (by rwa [hsame.hand]))
  rw [hsame.len] at hnext
  cases hchance with
  | @found k hk hreach hunused' hpassed =>
      have hnot : ¬ (m.clearUsed k).Used (m.ahead k) := by
        rwa [h.used_clearUsed_ahead hk (Nat.le_refl _)]
      have hnext : m.ahead (k + 1) + 1 < m.pt.len := hnext
      refine hnot (hused _ (h.ahead_lt k) fun heq => ?_)
      have heq : m.ahead k = m.ahead (k + 1) := heq
      have hlt := h.ahead_lt k
      rw [ahead_succ] at heq hnext
      by_cases hwrap : m.ahead k + 1 < m.pt.len
      · rw [Nat.mod_eq_of_lt hwrap] at heq
        omega
      · have hend : m.ahead k + 1 = m.pt.len := by omega
        rw [hend, Nat.mod_self] at heq hnext
        omega
  | around hzero hall =>
      have hnext : m.ahead (m.pt.len + 1) + 1 < m.pt.len := hnext
      obtain ⟨k, hk, hplace⟩ := Clock.exists_place h.hand hnext
      refine h.not_used_clearUsed (Nat.le_refl _) hk ?_
      rw [ahead, hplace]
      refine hused _ hnext fun heq => ?_
      have heq : m.ahead (m.pt.len + 1) + 1 = m.ahead (m.pt.len + 1) := heq
      omega
  | failed => exact hv rfl

/-- With one page out of use, at the hand, `second_chance` names the page after it, and
then finds no other. -/
theorem Chance.exhausted_of_lone (h : m.HandIn) (hchance : m.Chance v m₁) (hlone : m.Lone)
    (hsame : m₁.SameScan m₂) : v ≠ -1 ∧ m₂.Exhausted := by
  have hzero : m.ahead 0 = m.hand := Clock.place_zero h.hand
  have hnot : ¬ m.Used (m.ahead 0) := hzero ▸ hlone.unused
  have hnext := hlone.next
  cases hchance with
  | @found k hk hreach hunused hpassed =>
      have hk0 : k = 0 := by
        by_contra hne
        exact hnot (hpassed 0 (Nat.pos_of_ne_zero hne))
      subst hk0
      have hone : m.ahead 1 = m.hand + 1 := by
        rw [ahead_succ, hzero, Nat.mod_eq_of_lt hnext]
      refine ⟨by omega, ?_, fun j hj hne => ?_⟩
      · rw [hsame.hand]
        show 0 < m.ahead 1
        omega
      · rw [hsame.hand] at hne
        rw [hsame.len] at hj
        have hne : j + 1 ≠ m.ahead 1 := hne
        exact (hsame.used j).mpr (hlone.used j hj (by omega))
  | around hz hall => exact absurd (hall 0 (by omega)) hnot
  | failed hpos hall => exact absurd (hall 0 (by omega)) hnot

/-! ## The replacement loop -/

theorem SameScan.handIn (h : m₁.SameScan m₂) (hin : m₁.HandIn) : m₂.HandIn :=
  ⟨by rw [h.length, h.len, hin.length], by rw [h.hand, h.len]; exact hin.hand⟩

/-- The hand stays in the table. -/
theorem Chance.handIn (h : m.HandIn) (hchance : m.Chance v m₁) : m₁.HandIn := by
  have hlength (t : Nat) : (m.clearUsed t).pt.pages.length = m.pt.len := by
    show (Clock.clear _ _ _ _ _ _).length = _
    rw [Clock.length_clear, h.length]
  cases hchance with
  | found => exact ⟨hlength _, h.ahead_lt _⟩
  | around => exact ⟨hlength _, h.ahead_lt _⟩
  | failed => exact ⟨hlength _, h.hand⟩

/-- Once a page has been replaced, the loop gives up at its next turn or not at all. -/
theorem replacing_after {num : Nat} {enough : Bool} (hturns : Replacing num m enough m')
    (hfails : enough = false) (hin : m.HandIn) (hlone : ¬ m.Lone) :
    m.pt.freePageNum < num ∧ m.Exhausted ∧ ∃ m₁, m.Chance (-1) m₁ ∧ m' = m₁.post := by
  induction hturns with
  | enough => cases hfails
  | gaveUp hlt hscan =>
      have hchance := (secondChance_eq_ok hin.length hscan).2
      exact ⟨hlt, (hchance.eq_neg_one_iff hin).mp rfl, _, hchance, rfl⟩
  | replaced hlt hscan hv hfree hrest ih =>
      have hchance := (secondChance_eq_ok hin.length hscan).2
      have hsame := freePage_sameScan hfree
      have hin₂ := hsame.handIn (hchance.handIn hin)
      obtain ⟨-, hex, -⟩ := ih hfails hin₂ (hchance.not_lone hin hv hsame)
      exact absurd (hchance.lone_of_exhausted hin hv hsame hex) hlone

/-- The scan changes used bits and the hand only. -/
theorem Chance.unchanged (hchance : m.Chance v m₁) :
    m₁.memoryS = m.memoryS ∧ m₁.pt.freePageNum = m.pt.freePageNum ∧ m₁.pt.len = m.pt.len := by
  cases hchance with
  | found | around | failed => exact ⟨rfl, rfl, rfl⟩

/-- When the page it found is freed, there is one more. -/
theorem Chance.freePageNum_freePage {page : Nat} (hchance : m.Chance v m₁)
    (hfree : m₁.freePage page = .ok m') (hlt : m.pt.freePageNum + 1 < 2 ^ 32) :
    m'.pt.freePageNum = m.pt.freePageNum + 1 := by
  obtain ⟨-, st, rfl⟩ := freePage_eq_ok hfree
  show u32 (m₁.pt.freePageNum + 1) = _
  rw [hchance.unchanged.2.1]
  exact u32_of_lt hlt

theorem Chance.memoryS_freePage {page : Nat} (hchance : m.Chance v m₁)
    (hfree : m₁.freePage page = .ok m') : m'.memoryS = m.memoryS := by
  obtain ⟨-, st, rfl⟩ := freePage_eq_ok hfree
  exact hchance.unchanged.1

/-- A replacement loop that gives up does so at once, or after one page. -/
theorem replacePages_gaveUp {num : Nat} (hlen : m.pt.pages.length = m.pt.len) (hnum : num < 2 ^ 32)
    (h : replacePages num (num + 1) m = .ok (false, m')) :
    m'.memoryS = m.memoryS + 1 ∧
      ((m.pt.freePageNum < num ∧ m.Exhausted ∧ m.SameOwners m') ∨
        (m.pt.freePageNum + 1 < num ∧ m.Lone ∧ m'.pt.freePageNum = m.pt.freePageNum + 1)) := by
  cases replacePages_eq_ok h with
  | gaveUp hlt hscan =>
      obtain ⟨hin, hchance⟩ := secondChance_eq_ok hlen hscan
      obtain ⟨hlock, hcount, -⟩ := hchance.unchanged
      refine ⟨congrArg (· + 1) hlock, .inl ⟨hlt, (hchance.eq_neg_one_iff hin).mp rfl, ?_⟩⟩
      exact (secondChance_sameOwners hscan).trans ⟨rfl, rfl, rfl, fun _ => rfl, rfl, rfl, rfl⟩
  | @replaced _ m₁ m₂ _ v _ hlt hscan hv hfree hrest =>
      obtain ⟨hin, hchance⟩ := secondChance_eq_ok hlen hscan
      have hsame := freePage_sameScan hfree
      have hin₂ := hsame.handIn (hchance.handIn hin)
      obtain ⟨hlt₂, hex, m₃, hchance₂, rfl⟩ :=
        replacing_after hrest rfl hin₂ (hchance.not_lone hin hv hsame)
      obtain ⟨hlock₂, hcount₂, -⟩ := hchance₂.unchanged
      have hone : m₂.pt.freePageNum = m.pt.freePageNum + 1 :=
        hchance.freePageNum_freePage hfree (by omega)
      refine ⟨?_, .inr ⟨by omega, hchance.lone_of_exhausted hin hv hsame hex, ?_⟩⟩
      · show m₃.memoryS + 1 = _
        rw [hlock₂, hchance.memoryS_freePage hfree]
      · show m₃.pt.freePageNum = _
        rw [hcount₂]
        exact hone

/-- In these states it does give up. -/
theorem replacePages_givesUp {num : Nat} {enough : Bool} (hlen : m.pt.pages.length = m.pt.len)
    (hnum : num < 2 ^ 32)
    (hgives : (m.pt.freePageNum < num ∧ m.Exhausted) ∨ (m.pt.freePageNum + 1 < num ∧ m.Lone))
    (h : replacePages num (num + 1) m = .ok (enough, m')) : enough = false := by
  have hlt : ¬ num ≤ m.pt.freePageNum := by omega
  rw [replacePages, if_neg hlt] at h
  obtain ⟨⟨v, m₁⟩, hsc, h⟩ := Except.bind_eq_ok.mp h
  obtain ⟨hin, hchance⟩ := secondChance_eq_ok hlen hsc
  dsimp only at h
  rcases hgives with ⟨-, hex⟩ | ⟨htwo, hlone⟩
  · rw [if_pos ((hchance.eq_neg_one_iff hin).mpr hex)] at h
    cases h
    rfl
  · have hv : v ≠ -1 := (hchance.exhausted_of_lone hin hlone ⟨rfl, rfl, rfl, fun _ => Iff.rfl⟩).1
    rw [if_neg hv] at h
    obtain ⟨m₂, hfree, h⟩ := Except.bind_eq_ok.mp h
    have hsame := freePage_sameScan hfree
    have hin₂ := hsame.handIn (hchance.handIn hin)
    obtain ⟨-, hex⟩ := hchance.exhausted_of_lone hin hlone hsame
    obtain ⟨fuel, rfl⟩ : ∃ fuel, num = fuel + 1 := ⟨num - 1, by omega⟩
    have hmore : ¬ fuel + 1 ≤ m₂.pt.freePageNum := by
      rw [hchance.freePageNum_freePage hfree (by omega)]
      omega
    rw [replacePages, if_neg hmore] at h
    obtain ⟨⟨v₂, m₃⟩, hsc₂, h⟩ := Except.bind_eq_ok.mp h
    obtain ⟨-, hchance₂⟩ := secondChance_eq_ok hin₂.length hsc₂
    dsimp only at h
    rw [if_pos ((hchance₂.eq_neg_one_iff hin₂).mpr hex)] at h
    cases h
    rfl

/-- A loop that ends with enough pages leaves the lock as it was. -/
theorem replacing_lock {num : Nat} {enough : Bool} (hturns : Replacing num m enough m')
    (henough : enough = true) (hlen : m.pt.pages.length = m.pt.len) : m'.memoryS = m.memoryS := by
  induction hturns with
  | enough => rfl
  | gaveUp => cases henough
  | @replaced _ m₁ m₂ _ _ _ _ hscan hv hfree _ ih =>
      obtain ⟨hin, hchance⟩ := secondChance_eq_ok hlen hscan
      have hin₂ := (freePage_sameScan hfree).handIn (hchance.handIn hin)
      exact (ih henough hin₂.length).trans (hchance.memoryS_freePage hfree)

end

/-! ## Allocations -/

theorem numPages_lt (bytes : UInt32) : numPages bytes < 2 ^ 32 := by
  have hlt := bytes.toNat_lt
  unfold numPages PAGE_SIZE KB sizeofAllocHeader
  omega

section

variable {m m' : Memory} {bytes : UInt32} {p : Addr}

/-- A request that is not refused at once goes through replacement. -/
theorem cAlloc_replacing (h : cAlloc m bytes = .ok (p, m')) :
    ((bytes = 0 ∨ m.size ≤ bytes.toNat) ∧ m' = m) ∨
    (bytes ≠ 0 ∧ bytes.toNat < m.size ∧ ∃ enough m₁,
      replacePages (numPages bytes) (numPages bytes + 1) m = .ok (enough, m₁) ∧
        ((enough = false ∧ m' = m₁) ∨ (enough = true ∧ p ≠ 0 ∧ m'.memoryS = m₁.memoryS))) := by
  unfold cAlloc at h
  split at h
  · rename_i hzero
    cases h
    exact .inl ⟨.inl hzero, rfl⟩
  rename_i hbytes
  split at h
  · rename_i hsize
    cases h
    exact .inl ⟨.inr hsize, rfl⟩
  rename_i hsize
  obtain ⟨⟨enough, m₁⟩, hrepl, h⟩ := Except.bind_eq_ok.mp h
  refine .inr ⟨hbytes, Nat.not_le.mp hsize, enough, m₁, hrepl, ?_⟩
  dsimp only at h
  split at h
  · rename_i hnot
    cases h
    exact .inl ⟨hnot, rfl⟩
  rename_i henough
  obtain ⟨m₂, hwait, h⟩ := Except.bind_eq_ok.mp h
  obtain ⟨n, hn, rfl⟩ := wait_eq_ok.mp hwait
  split at h
  · cases h
  · cases h
    exact .inr ⟨by rwa [Bool.not_eq_false] at henough, Nat.succ_ne_zero _, hn.symm⟩

/-- Refused at once, a request does not give up. -/
theorem not_gives_up (h : bytes = 0 ∨ m.size ≤ bytes.toNat) :
    ¬ (bytes ≠ 0 ∧ bytes.toNat < m.size) := by
  rintro ⟨hbytes, hsize⟩
  exact h.elim hbytes (Nat.not_le.mpr hsize)

/-- `c_alloc` posts its lock once too often just when it gives up. -/
theorem cAlloc_lock (hlen : m.pt.pages.length = m.pt.len) (h : cAlloc m bytes = .ok (p, m')) :
    (m.GivesUp bytes → m'.memoryS = m.memoryS + 1) ∧
      (¬ m.GivesUp bytes → m'.memoryS = m.memoryS) := by
  have hnum := numPages_lt bytes
  rcases cAlloc_replacing h with ⟨hrefused, rfl⟩ | ⟨hbytes, hsize, enough, m₁, hrepl, hend⟩
  · exact ⟨fun hgives => absurd ⟨hgives.1, hgives.2.1⟩ (not_gives_up hrefused), fun _ => rfl⟩
  rcases hend with ⟨rfl, rfl⟩ | ⟨rfl, -, hlock⟩
  · obtain ⟨hlock, hcase⟩ := replacePages_gaveUp hlen hnum hrepl
    refine ⟨fun _ => hlock, fun hnot => absurd ⟨hbytes, hsize, ?_⟩ hnot⟩
    exact hcase.imp (fun hc => ⟨hc.1, hc.2.1⟩) fun hc => ⟨hc.1, hc.2.1⟩
  · refine ⟨fun hgives => ?_, fun _ => hlock.trans (replacing_lock (replacePages_eq_ok hrepl) rfl hlen)⟩
    cases replacePages_givesUp hlen hnum hgives.2.2 hrepl

/-! ## Refused requests -/

/-- A page will have been replaced in vain: the request needs two more than are free,
and `second_chance` has one to name. -/
def LosesPage (m : Memory) (bytes : UInt32) : Prop :=
  bytes ≠ 0 ∧ bytes.toNat < m.size ∧ m.pt.freePageNum + 1 < numPages bytes ∧ m.Lone

/-- The same pages are free, and the count is the same. -/
structure SameFree (m m' : Memory) : Prop where
  pages : m'.freePages = m.freePages
  count : m'.pt.freePageNum = m.pt.freePageNum

/-- A refusal changes nothing, unless a page has been replaced before it. -/
theorem cAlloc_refused (hlen : m.pt.pages.length = m.pt.len) (h : cAlloc m bytes = .ok (0, m')) :
    m.SameFree m' ↔ ¬ m.LosesPage bytes := by
  have hnum := numPages_lt bytes
  rcases cAlloc_replacing h with ⟨hrefused, rfl⟩ | ⟨hbytes, hsize, enough, m₁, hrepl, hend⟩
  · exact iff_of_true ⟨rfl, rfl⟩ fun hloses => not_gives_up hrefused ⟨hloses.1, hloses.2.1⟩
  obtain ⟨rfl, rfl⟩ := hend.resolve_right fun hserved => hserved.2.1 rfl
  rcases (replacePages_gaveUp hlen hnum hrepl).2 with ⟨-, hex, hsame⟩ | ⟨htwo, hlone, hcount⟩
  · refine iff_of_true ⟨hsame.freePages_eq, hsame.num⟩ fun hloses => ?_
    have hlone := hloses.2.2.2
    have hused : m.Used m.hand :=
      hex.used m.hand (Nat.lt_of_succ_lt hlone.next) (Nat.succ_ne_self _)
    exact hlone.unused hused
  · refine iff_of_false (fun hsame => ?_) fun hnot => hnot ⟨hbytes, hsize, htwo, hlone⟩
    have hcount' := hsame.count
    omega

/-! ## The length of the table -/

theorem replacing_length {num : Nat} {enough : Bool} (hturns : Replacing num m enough m')
    (hlen : m.pt.pages.length = m.pt.len) : m'.pt.pages.length = m'.pt.len := by
  induction hturns with
  | enough => exact hlen
  | gaveUp hlt hscan =>
      obtain ⟨hin, hchance⟩ := secondChance_eq_ok hlen hscan
      exact (hchance.handIn hin).length
  | replaced hlt hscan hv hfree hrest ih =>
      obtain ⟨hin, hchance⟩ := secondChance_eq_ok hlen hscan
      exact ih ((freePage_sameScan hfree).handIn (hchance.handIn hin)).length

theorem cAlloc_length (hlen : m.pt.pages.length = m.pt.len) (h : cAlloc m bytes = .ok (p, m')) :
    m'.pt.pages.length = m'.pt.len := by
  cases cAlloc_eq_ok h with
  | refused => exact hlen
  | exhausted hbytes hsize hrepl => exact replacing_length (replacePages_eq_ok hrepl) hlen
  | served hbytes hsize hrepl hlock hfind =>
      exact (mapRange_length _ _ _ _).trans (replacing_length (replacePages_eq_ok hrepl) hlen)

/-- `c_dealloc` leaves the lock and the length of the table alone. -/
theorem cDealloc_lock (h : cDealloc m p = .ok m') :
    m'.memoryS = m.memoryS ∧ (m.pt.pages.length = m.pt.len → m'.pt.pages.length = m'.pt.len) := by
  obtain ⟨m₁, hwait, h⟩ := Except.bind_eq_ok.mp h
  obtain ⟨n, hn, rfl⟩ := wait_eq_ok.mp hwait
  dsimp only at h
  split at h
  · cases h
    exact ⟨hn.symm, id⟩
  split at h
  · cases h
  · cases h
    refine ⟨hn.symm, fun hlen => ?_⟩
    have hstack (is : List Nat) {pt : PageTable} (h : pt.pages.length = pt.len) :
        (is.foldl PageTable.pushFreeStack pt).pages.length
          = (is.foldl PageTable.pushFreeStack pt).len := by
      obtain ⟨st, hst⟩ := foldl_pushFreeStack_eq is pt
      rw [hst]
      exact h
    exact hstack _ ((mapRange_length _ _ _ _).trans hlen)

end

theorem serve_length {m m' : Memory} {r : Request} (hlen : m.pt.pages.length = m.pt.len)
    (h : m.serve r = .ok m') : m'.pt.pages.length = m'.pt.len := by
  cases r with
  | alloc bytes =>
      obtain ⟨⟨p, m₁⟩, halloc, h⟩ := Except.bind_eq_ok.mp h
      cases h
      exact cAlloc_length hlen halloc
  | dealloc mem => exact (cDealloc_lock h).2 hlen

end Memory

theorem initMem_length (pool : Bytes.Mem) (memSize : UInt32) :
    (initMem pool memSize).pt.pages.length = (initMem pool memSize).pt.len := List.length_replicate

/-- In every state of every run of requests, a refused request leaves the free pages and
their count as they were just when it does not lose a page. -/
theorem refused_unchanged (pool : Bytes.Mem) (memSize : UInt32) (rs : List Request)
    {m m' : Memory} {bytes : UInt32}
    (hrun : Run.run Memory.serve (initMem pool memSize) rs = .ok m)
    (hnull : cAlloc m bytes = .ok (0, m')) : m.SameFree m' ↔ ¬ m.LosesPage bytes := by
  have hlen := Run.run_preserves (fun m : Memory => m.pt.pages.length = m.pt.len)
    Memory.serve_length (initMem_length pool memSize) hrun
  exact Memory.cAlloc_refused hlen hnull

/-! ## A pool of three pages -/

instance Memory.decidableLone (m : Memory) : Decidable m.Lone :=
  decidable_of_iff (m.hand + 1 < m.pt.len ∧ ¬ m.Used m.hand ∧ ∀ j < m.pt.len, j ≠ m.hand → m.Used j)
    ⟨fun h => ⟨h.1, h.2.1, h.2.2⟩, fun h => ⟨h.next, h.unused, h.used⟩⟩

instance Memory.decidableLosesPage (m : Memory) (bytes : UInt32) : Decidable (m.LosesPage bytes) :=
  inferInstanceAs (Decidable (_ ∧ _))

instance Memory.decidableLegal (m : Memory) : (r : Request) → Decidable (m.Legal r)
  | .alloc _ => inferInstanceAs (Decidable True)
  | .dealloc mem => inferInstanceAs (Decidable (m.IsLive mem))

/-- All pages are handed out, one of them twice; the bit of the first page is clear, and
the hand is at the second. -/
def threePages : List Request :=
  [.alloc 100, .alloc 100, .alloc 100, .alloc 100, .dealloc 2056, .alloc 100]

theorem refused_unchanged_three :
    ∃ m m', Run.run Memory.serve (initMem (fun _ => 0) 3072) threePages = .ok m ∧
      cAlloc m 100 = .ok (0, m') ∧ m.SameFree m' := by
  have hchecked : ((Run.runChecked Memory.serve Memory.Legal (initMem (fun _ => 0) 3072)
      threePages).bind fun m => (cAlloc m 100).toOption.map fun r =>
        (r.1, decide (m.LosesPage 100))) = some (0, false) := by
    decide +kernel
  obtain ⟨m, hm, hrefused⟩ := Option.bind_eq_some_iff.mp hchecked
  obtain ⟨-, hrun⟩ := Run.runChecked_eq_some hm
  obtain ⟨⟨p, m'⟩, halloc, hboth⟩ := Option.map_eq_some_iff.mp hrefused
  obtain ⟨hp, hkept⟩ := Prod.mk.inj hboth
  dsimp only at hp
  subst hp
  have hnull := Except.toOption_eq_ok.mp halloc
  exact ⟨m, m', hrun, hnull, (refused_unchanged (fun _ => 0) 3072 threePages hrun hnull).mpr
    (of_decide_eq_false hkept)⟩

/-- After the scan has cleared the bits, two pages are handed out anew: the page at the
hand is the only one out of use. -/
def lonePage : List Request :=
  threePages ++ [.alloc 100, .dealloc 8, .alloc 100, .dealloc 2056, .alloc 100]

/-- A refused request of two pages leaves a page of a live block free. -/
theorem refused_not_always_unchanged :
    ¬ ∀ (pool : Bytes.Mem) (memSize : UInt32) (rs : List Request) (m m' : Memory) (bytes : UInt32),
      1 ≤ (initMem pool memSize).pt.len →
      Run.Meets Memory.serve Memory.Legal (initMem pool memSize) rs →
      Run.run Memory.serve (initMem pool memSize) rs = .ok m → cAlloc m bytes = .ok (0, m') →
      m.SameFree m' := by
  intro h
  have hchecked : ((Run.runChecked Memory.serve Memory.Legal (initMem (fun _ => 0) 3072)
      lonePage).bind fun m => (cAlloc m 2000).toOption.map fun r =>
        (r.1, m.pt.freePageNum, r.2.pt.freePageNum)) = some (0, 0, 1) := by
    decide +kernel
  obtain ⟨m, hm, hrefused⟩ := Option.bind_eq_some_iff.mp hchecked
  obtain ⟨hlegal, hrun⟩ := Run.runChecked_eq_some hm
  obtain ⟨⟨p, m'⟩, halloc, hcounts⟩ := Option.map_eq_some_iff.mp hrefused
  obtain ⟨hp, hcounts⟩ := Prod.mk.inj hcounts
  obtain ⟨hbefore, hafter⟩ := Prod.mk.inj hcounts
  dsimp only at hp hafter
  subst hp
  have hsame := h (fun _ => 0) 3072 lonePage m m' 2000 (by decide) hlegal hrun
    (Except.toOption_eq_ok.mp halloc)
  rw [hsame.count, hbefore] at hafter
  exact absurd hafter (by decide)

end ChicOS
