-- SUMMARY: c_realloc: when the data of a block survives it, with the sum that wraps and the pages that replacement takes.
import ChicOS.Memory.Fragmentation

/-!
# Growing a block

`c_realloc` asks `c_alloc` for the usable size of the old block and as much again as its
caller wants, copies the old block and releases it. The sum has 32 bits. The request may
enter replacement, which frees pages whoever owns them: pages of another block, or of the
block that is to be copied.

`Secure` is what the owner of a block relies on.
-/

namespace ChicOS

/-- The address belongs to one of the block's pages. -/
def Block.Covers (b : Block) (a : Nat) : Prop :=
  b.start * PAGE_SIZE ≤ a ∧ a < (b.start + b.pages) * PAGE_SIZE

/-- `total_size` of `c_realloc`, for an intact block. -/
def Block.grown (b : Block) (bytes : UInt32) : UInt32 := UInt32.ofNat b.usable + bytes

/-- A caller of the allocator calls it, or writes to the pool. -/
inductive MemUse where
  | call (c : MemCall)
  | write (pool : Bytes.Mem)

namespace Memory

def use (m : Memory) : MemUse → Except Stop Memory
  | .call c => m.call c
  | .write pool => .ok { m with pool := pool }

/-- The block is live and as `c_alloc` left it, none of its pages is free, and it shares
none with another live block. -/
structure Secure (m : Memory) (b : Block) : Prop where
  intact : b.Intact m
  taken : Disjoint b.range m.freePages
  alone : ∃ rest, m.live.Perm (b :: rest) ∧ ∀ c ∈ rest, Disjoint b.range c.range

/-- What the block's pages hold is the same. -/
def SameBytes (m m' : Memory) (b : Block) : Prop := ∀ a, b.Covers a → m'.pool a = m.pool a

/-- The block has moved to a new one that is larger by `bytes`, with what was in it. -/
structure Moved (m : Memory) (b : Block) (bytes : UInt32) (new : Block) (m' : Memory) : Prop where
  intact : new.Intact m'
  taken : Disjoint new.range m'.freePages
  room : b.usable + bytes.toNat ≤ new.usable
  copied : ∀ k < b.usable, m'.pool (new.ptr + k) = m.pool (b.ptr + k)
  outside : ∀ a, ¬ new.Covers a → m'.pool a = m.pool a
  others : ∀ c, m.Secure c → c ≠ b → m'.Secure c ∧ m.SameBytes m' c
  released : b.range ⊆ m'.freePages
  live : ∃ rest, m.live.Perm (b :: rest) ∧ m'.live.Perm (new :: rest)

/-- `c_realloc` keeps the data of the block. -/
structure KeepsData (m : Memory) (b : Block) (bytes : UInt32) : Prop where
  ends : ∀ e, cRealloc m b.ptr bytes = .error e → e = .exit
  null : ∀ m', cRealloc m b.ptr bytes = .ok (0, m') → m'.Secure b ∧ m.SameBytes m' b
  moved : ∀ p m', cRealloc m b.ptr bytes = .ok (p, m') → p ≠ 0 →
    ∃ new : Block, new.ptr = p ∧ m.Moved b bytes new m'

/-- `c_alloc` serves the request from page `i` on. -/
structure ServesAt (m : Memory) (bytes : UInt32) (i : Nat) : Prop where
  nonzero : bytes ≠ 0
  below : bytes.toNat < m.size
  keeps : ¬ m.GivesUp bytes
  first : IsLeast {j | m.Room (numPages bytes) j} i

/-- The sum does not wrap, and replacement takes nothing from the block, nor from others. -/
structure GrowsSafely (m : Memory) (b : Block) (bytes : UInt32) : Prop where
  sum : ∀ i, m.ServesAt (b.grown bytes) i → b.usable + bytes.toNat < 2 ^ 32
  apart : ∀ i, m.ServesAt (b.grown bytes) i →
    Disjoint (Finset.Ico i (i + numPages (b.grown bytes))) b.range
  others : ∀ i, m.ServesAt (b.grown bytes) i → ∀ c, m.Secure c → c ≠ b → ∀ j ∈ c.range,
    ¬ m.Reclaims (numPages (b.grown bytes) - m.pt.freePageNum) j
  lost : m.LosesPage (b.grown bytes) → m.hand + 1 ∉ b.range

/-! ## Refusals -/

section

variable {m m' : Memory}

/-- Replacement is about pages only. -/
theorem replacing_kept {num : Nat} {enough : Bool} (hturns : Replacing num m enough m') :
    m'.pool = m.pool ∧ m'.size = m.size ∧ m'.live = m.live := by
  induction hturns with
  | enough => exact ⟨rfl, rfl, rfl⟩
  | gaveUp hlt hscan =>
      have hsame := secondChance_sameOwners hscan
      exact ⟨hsame.pool, hsame.size, hsame.live_eq⟩
  | replaced hlt hscan hv hfree hrest ih =>
      have hsame := secondChance_sameOwners hscan
      obtain ⟨hpool, hsize, hlive⟩ := ih
      obtain ⟨-, st, rfl⟩ := freePage_eq_ok hfree
      exact ⟨hpool.trans hsame.pool, hsize.trans hsame.size, hlive.trans hsame.live_eq⟩

/-- A loop that gives up has freed no page, or the one after the hand. -/
theorem replacing_gaveUp {num : Nat} (hturns : Replacing num m false m') (h : m.HandIn)
    (hnum : num < 2 ^ 32) (j : Nat) :
    j ∈ m'.freePages ↔
      j ∈ m.freePages ∨ (m.pt.freePageNum + 1 < num ∧ m.Lone) ∧ m.hand + 1 = j := by
  cases hturns with
  | @gaveUp m m₁ hlt hscan =>
      have hchance := (secondChance_eq_ok h.length hscan).2
      have hex := (hchance.eq_neg_one_iff h).mp rfl
      have hfree : m₁.post.freePages = m.freePages := (secondChance_sameOwners hscan).freePages_eq
      rw [hfree]
      refine (or_iff_left fun hlost => ?_).symm
      have hlone := hlost.1.2
      exact hlone.unused (hex.used m.hand h.hand (Nat.succ_ne_self _))
  | @replaced m m₁ m₂ _ v _ hlt hscan hv hfree hrest =>
      have hchance := (secondChance_eq_ok h.length hscan).2
      have hsame := freePage_sameScan hfree
      have hin₁ := hchance.handIn h
      have hin₂ := hsame.handIn hin₁
      obtain ⟨hlt₂, hex, -⟩ := replacing_after hrest rfl hin₂ (hchance.not_lone h hv hsame)
      have hlone := hchance.lone_of_exhausted h hv hsame hex
      have hcount : m₂.pt.freePageNum = m.pt.freePageNum + 1 :=
        hchance.freePageNum_freePage hfree (by omega)
      have hpage : v.toNat = m.hand + 1 := by
        have hzero : m.ahead 0 = m.hand := Clock.place_zero h.hand
        obtain ⟨k, hstop⟩ := hchance.stopped hv
        have hk : k = 0 := by
          by_contra hne
          refine hstop.before 0 (Nat.pos_of_ne_zero hne) (.inr ?_)
          rw [hzero]
          exact hlone.unused
        have hresult := hstop.result
        rw [hk, ahead_succ, hzero, Nat.mod_eq_of_lt hlone.next] at hresult
        omega
      have hlast : m'.freePages = m₂.freePages := by
        cases hrest with
        | gaveUp hlt' hscan' => exact (secondChance_sameOwners hscan').freePages_eq
        | replaced hlt' hscan' hv' =>
            have hchance' := (secondChance_eq_ok hin₂.length hscan').2
            exact absurd ((hchance'.eq_neg_one_iff hin₂).mpr hex) hv'
      rw [hlast, freePage_mem_freePages hin₁.length hfree,
        (secondChance_sameOwners hscan).freePages_eq, hpage, and_iff_right ⟨by omega, hlone⟩]
      exact or_comm

/-- What a refused request leaves. -/
structure Refused (m : Memory) (bytes : UInt32) (m' : Memory) : Prop where
  pool : m'.pool = m.pool
  live : m'.live = m.live
  len : m'.pt.len = m.pt.len
  free : ∀ j, j ∈ m'.freePages ↔ j ∈ m.freePages ∨ m.LosesPage bytes ∧ m.hand + 1 = j

theorem cAlloc_null {bytes : UInt32} (h : m.HandIn) (hnull : cAlloc m bytes = .ok (0, m')) :
    m.Refused bytes m' := by
  rcases cAlloc_replacing hnull with ⟨hrefused, rfl⟩ | ⟨hbytes, hsize, enough, m₁, hrepl, hend⟩
  · refine ⟨rfl, rfl, rfl, fun j => (or_iff_left ?_).symm⟩
    rintro ⟨hloses, -⟩
    exact not_gives_up hrefused ⟨hloses.1, hloses.2.1⟩
  · obtain ⟨rfl, rfl⟩ := hend.resolve_right fun hserved => hserved.2.1 rfl
    have hturns := replacePages_eq_ok hrepl
    obtain ⟨hpool, -, hlive⟩ := replacing_kept hturns
    refine ⟨hpool, hlive, replacing_len hturns, fun j => ?_⟩
    rw [replacing_gaveUp hturns h (numPages_lt bytes)]
    unfold LosesPage
    rw [and_iff_right hbytes, and_iff_right hsize]

end

/-! ## States between calls -/

/-- What every state between calls has, and writing to the pool keeps. -/
structure Between (m : Memory) : Prop extends Ready m where
  pages : m.pt.len * PAGE_SIZE ≤ m.size
  size : m.size < 4 * MB
  pos : ∀ c ∈ m.live, 0 < c.pages

section

variable {m m₁ m' : Memory}

/-- A `c_dealloc` does not write to the pool. -/
theorem cDealloc_frame {p : Addr} (h : cDealloc m p = .ok m') : m'.pool = m.pool ∧ m'.size = m.size := by
  obtain ⟨m₁, hwait, hrest⟩ := Except.bind_eq_ok.mp h
  obtain ⟨n, -, rfl⟩ := wait_eq_ok.mp hwait
  dsimp only at hrest
  split at hrest
  · cases hrest
    exact ⟨rfl, rfl⟩
  split at hrest
  · cases hrest
  · cases hrest
    exact ⟨rfl, rfl⟩

/-- The size of the pool stays, and every live block has a page. -/
structure KeepsSize (m m' : Memory) : Prop where
  size : m'.size = m.size
  pos : (∀ c ∈ m.live, 0 < c.pages) → ∀ c ∈ m'.live, 0 < c.pages

namespace KeepsSize

variable {m'' : Memory}

theorem trans (h : m.KeepsSize m') (h' : m'.KeepsSize m'') : m.KeepsSize m'' :=
  ⟨h'.size.trans h.size, fun hpos => h'.pos (h.pos hpos)⟩

theorem of_eq (hsize : m'.size = m.size) (hlive : m'.live = m.live) : m.KeepsSize m' :=
  ⟨hsize, fun hpos => hlive ▸ hpos⟩

theorem cAlloc {bytes : UInt32} {p : Addr} (h : ChicOS.cAlloc m bytes = .ok (p, m')) :
    m.KeepsSize m' := by
  cases cAlloc_eq_ok h with
  | refused => exact of_eq rfl rfl
  | exhausted hbytes hsize hrepl =>
      obtain ⟨-, hkept, hlive⟩ := replacing_kept (replacePages_eq_ok hrepl)
      exact of_eq hkept hlive
  | served hbytes hsize hrepl hlock hfind =>
      obtain ⟨-, hkept, hlive⟩ := replacing_kept (replacePages_eq_ok hrepl)
      refine (of_eq hkept hlive).trans ⟨rfl, fun hpos c hc => ?_⟩
      rcases List.mem_cons.mp hc with rfl | hold
      · exact (numPages_usable bytes).1
      · exact hpos c hold

theorem cDealloc {p : Addr} (h : ChicOS.cDealloc m p = .ok m') : m.KeepsSize m' := by
  have hlive : m'.live ⊆ m.live := by
    rcases cDealloc_calls h with ⟨-, hcalls⟩ | ⟨-, hcalls⟩
    · rw [live, live, hcalls]
      exact List.Subset.refl _
    · rw [live, live, hcalls]
      exact List.eraseP_subset
  exact ⟨(cDealloc_frame h).2, fun hpos c hc => hpos c (hlive hc)⟩

theorem memcpy {dest src : Addr} {n : Nat} (h : m.memcpy dest src n = .ok m') : m.KeepsSize m' := by
  unfold Memory.memcpy at h
  split at h
  · cases h
    exact of_eq rfl rfl
  · cases h

theorem cRealloc {currRegion p : Addr} {bytes : UInt32}
    (h : ChicOS.cRealloc m currRegion bytes = .ok (p, m')) : m.KeepsSize m' := by
  unfold ChicOS.cRealloc at h
  split at h
  · cases h
    exact of_eq rfl rfl
  obtain ⟨⟨buffer, m₁⟩, halloc, h⟩ := Except.bind_eq_ok.mp h
  dsimp only at h
  split at h
  · cases h
    exact .cAlloc halloc
  obtain ⟨m₂, hcopy, h⟩ := Except.bind_eq_ok.mp h
  obtain ⟨m₃, hdealloc, h⟩ := Except.bind_eq_ok.mp h
  cases h
  exact (KeepsSize.cAlloc halloc).trans ((KeepsSize.memcpy hcopy).trans (.cDealloc hdealloc))

theorem call {c : MemCall} (h : m.call c = .ok m') : m.KeepsSize m' := by
  cases c with
  | cAlloc bytes =>
      obtain ⟨⟨p, m₁⟩, halloc, h⟩ := Except.bind_eq_ok.mp h
      cases h
      exact .cAlloc halloc
  | cRealloc currRegion bytes =>
      obtain ⟨⟨p, m₁⟩, hrealloc, h⟩ := Except.bind_eq_ok.mp h
      cases h
      exact .cRealloc hrealloc
  | cDealloc mem => exact .cDealloc h
  | secondChance =>
      obtain ⟨⟨v, m₁⟩, hsc, h⟩ := Except.bind_eq_ok.mp h
      cases h
      have hsame := secondChance_sameOwners hsc
      exact of_eq hsame.size hsame.live_eq

end KeepsSize

theorem Between.use {u : MemUse} (h : m.Between) (huse : m.use u = .ok m') : m'.Between := by
  cases u with
  | call c =>
      have hready := h.toReady.call huse
      have hlen := (KeepsHand.call huse).len
      have hsize := KeepsSize.call huse
      refine ⟨hready, ?_, ?_, hsize.pos h.pos⟩
      · rw [hlen, hsize.size]
        exact h.pages
      · rw [hsize.size]
        exact h.size
  | write pool =>
      cases huse
      exact ⟨⟨h.length, fun hlen => ⟨h.length, (h.handIn hlen).hand⟩, h.lock⟩, h.pages, h.size, h.pos⟩

/-- The data of a header. -/
theorem getHeader_congr {p : Nat} (hp : sizeofAllocHeader ≤ p)
    (h : ∀ a : Nat, p - sizeofAllocHeader ≤ a → a < p → m'.pool a = m.pool a) :
    m'.getHeader p = m.getHeader p := by
  unfold sizeofAllocHeader at hp h
  have hid : Bytes.loadLE m'.pool (p - 8) 4 = Bytes.loadLE m.pool (p - 8) 4 :=
    Bytes.loadLE_congr fun a ha ha' => h a ha (by omega)
  have hnum : Bytes.loadLE m'.pool (p - 8 + 4) 4 = Bytes.loadLE m.pool (p - 8 + 4) 4 :=
    Bytes.loadLE_congr fun a ha ha' => h a (by omega) (by omega)
  unfold getHeader sizeofAllocHeader
  rw [hid, hnum]

/-- A header belongs to its block. -/
theorem getHeader_block {b : Block} (hpos : 0 < b.pages)
    (h : ∀ a, b.Covers a → m'.pool a = m.pool a) : m'.getHeader b.ptr = m.getHeader b.ptr := by
  refine getHeader_congr (Nat.le_add_left _ _) fun a ha ha' => h a ⟨?_, ?_⟩
  · have ha : b.start * PAGE_SIZE + sizeofAllocHeader - sizeofAllocHeader ≤ a := ha
    omega
  · have hpage : (b.start + 1) * PAGE_SIZE ≤ (b.start + b.pages) * PAGE_SIZE :=
      Nat.mul_le_mul_right _ (by omega)
    have hsmall : sizeofAllocHeader ≤ PAGE_SIZE := by decide
    have ha' : a < b.start * PAGE_SIZE + sizeofAllocHeader := ha'
    rw [Nat.succ_mul] at hpage
    omega

/-- Blocks apart have no byte in common. -/
theorem not_covers_of_disjoint {b c : Block} {a : Nat} (hdisjoint : Disjoint b.range c.range)
    (ha : b.Covers a) : ¬ c.Covers a := by
  intro hc
  have hpage {d : Block} (hd : d.Covers a) : a / PAGE_SIZE ∈ d.range :=
    Finset.mem_Ico.mpr ⟨(Nat.le_div_iff_mul_le (by decide)).mpr hd.1,
      (Nat.div_lt_iff_lt_mul (by decide)).mpr hd.2⟩
  exact Finset.disjoint_left.mp hdisjoint (hpage ha) (hpage hc)

/-- A table that has a block in it has a page for the hand. -/
theorem Between.handIn_of_intact {b : Block} (h : m.Between) (hb : b.Intact m) : m.HandIn :=
  h.handIn (Nat.lt_of_lt_of_le (Nat.add_pos_right _ hb.pos) hb.inside)

theorem Secure.mem_live {b : Block} (hb : m.Secure b) : b ∈ m.live := by
  obtain ⟨rest, hperm, -⟩ := hb.alone
  exact hperm.mem_iff.mpr List.mem_cons_self

theorem Between.len_lt (h : m.Between) : m.pt.len < 2 ^ 12 := by
  have hlen := h.pages
  have hsize := h.size
  unfold PAGE_SIZE KB at hlen
  unfold MB at hsize
  omega

/-! ## The copy -/

/-- `memcpy` within its bounds. -/
def copied (m : Memory) (dest src n : Nat) : Memory :=
  { m with pool := fun a => if dest ≤ a ∧ a < dest + n then m.pool (src + (a - dest)) else m.pool a }

theorem oldSize_eq {b : Block} (hb : b.Intact m) : m.oldSize b.ptr = UInt32.ofNat b.usable := by
  have hroom : sizeofAllocHeader ≤ b.pages * PAGE_SIZE := by
    have hpage : 1 * PAGE_SIZE ≤ b.pages * PAGE_SIZE := Nat.mul_le_mul_right _ hb.pos
    have hsmall : sizeofAllocHeader ≤ 1 * PAGE_SIZE := by decide
    omega
  unfold oldSize Block.usable
  rw [hb.header, UInt32.ofNat_sub hroom, UInt32.ofNat_mul]

theorem usable_lt {b : Block} (h : m.Between) (hb : b.Intact m) : b.usable < 2 ^ 32 := by
  have hlen := h.len_lt
  have hin := hb.inside
  unfold Block.usable PAGE_SIZE KB sizeofAllocHeader
  omega

/-- `c_realloc`, on an intact block. -/
theorem cRealloc_eq {b : Block} (h : m.Between) (hb : b.Intact m) (bytes : UInt32) :
    cRealloc m b.ptr bytes = (do
      let (buffer, m) ← cAlloc m (b.grown bytes)
      if buffer = 0 then .ok (0, m)
      else do
        let m ← m.memcpy buffer b.ptr b.usable
        let m ← cDealloc m b.ptr
        .ok (buffer, m)) := by
  have husable : (UInt32.ofNat b.usable).toNat = b.usable := by
    rw [UInt32.toNat_ofNat']
    exact Nat.mod_eq_of_lt (usable_lt h hb)
  unfold cRealloc Block.grown
  rw [if_neg (ptr_ne_zero b), oldSize_eq hb]
  dsimp only
  rw [husable]

/-- The block that `c_alloc` takes. -/
def blockFrom (i : Nat) (bytes : UInt32) : Block :=
  { start := i, pages := numPages bytes, bytes := bytes.toNat }

/-- A request that is served. -/
theorem cAlloc_serves {bytes : UInt32} {i : Nat} (h : m.HandIn) (hlock : 0 < m.memoryS)
    (hserves : m.ServesAt bytes i) :
    ∃ m₁, Replacing (numPages bytes) m true m₁ ∧
      cAlloc m bytes = .ok ((blockFrom i bytes).ptr, m₁.takeRegion i (numPages bytes) bytes) := by
  have hattempt := cAlloc_attempt h hlock hserves.nonzero hserves.below
  generalize cAlloc m bytes = r at hattempt
  cases hattempt with
  | gaveUp hgives => exact absurd hgives hserves.keeps
  | @served m₁ i' hkeeps hturns hfirst =>
      cases hfirst.unique hserves.first
      exact ⟨m₁, hturns, rfl⟩
  | noRoom hkeeps hnone => exact absurd hserves.first.1 (hnone i)

/-- A request is refused, or it ends the program, or it is served. -/
theorem cAlloc_serves_or (h : m.HandIn) (hlock : 0 < m.memoryS) (bytes : UInt32) :
    (∃ m', cAlloc m bytes = .ok (0, m')) ∨ cAlloc m bytes = .error .exit ∨
      ∃ i, m.ServesAt bytes i := by
  by_cases hbytes : bytes = 0
  · exact .inl ⟨m, if_pos hbytes⟩
  by_cases hsize : m.size ≤ bytes.toNat
  · exact .inl ⟨m, (if_neg hbytes).trans (if_pos hsize)⟩
  have hattempt := cAlloc_attempt h hlock hbytes (Nat.not_le.mp hsize)
  generalize cAlloc m bytes = r at hattempt ⊢
  cases hattempt with
  | gaveUp => exact .inl ⟨_, rfl⟩
  | served hkeeps hturns hfirst =>
      exact .inr (.inr ⟨_, hbytes, Nat.not_le.mp hsize, hkeeps, hfirst⟩)
  | noRoom => exact .inr (.inl rfl)

/-- Blocks apart lie one behind the other. -/
theorem before_or_after {b c : Block} (hb : 0 < b.pages) (hc : 0 < c.pages)
    (hdisjoint : Disjoint b.range c.range) :
    b.start + b.pages ≤ c.start ∨ c.start + c.pages ≤ b.start := by
  by_contra hover
  rw [not_or, Nat.not_le, Nat.not_le] at hover
  have hmemb : max b.start c.start ∈ b.range := Finset.mem_Ico.mpr (by omega)
  have hmemc : max b.start c.start ∈ c.range := Finset.mem_Ico.mpr (by omega)
  exact Finset.disjoint_left.mp hdisjoint hmemb hmemc

/-- A block ends where its pages end. -/
theorem ptr_add_usable {b : Block} (hpos : 0 < b.pages) :
    b.ptr + b.usable = (b.start + b.pages) * PAGE_SIZE := by
  have hpage : 1 * PAGE_SIZE ≤ b.pages * PAGE_SIZE := Nat.mul_le_mul_right _ hpos
  have hsmall : sizeofAllocHeader ≤ 1 * PAGE_SIZE := by decide
  rw [Nat.add_mul]
  show b.start * PAGE_SIZE + sizeofAllocHeader + (b.pages * PAGE_SIZE - sizeofAllocHeader) = _
  omega

/-- The block's data lies in its pages. -/
theorem ptr_add_le {b : Block} {n : Nat} (hpos : 0 < b.pages) (hn : n ≤ b.usable) :
    b.start * PAGE_SIZE ≤ b.ptr ∧ b.ptr + n ≤ (b.start + b.pages) * PAGE_SIZE :=
  ⟨Nat.le_add_right _ _, ptr_add_usable hpos ▸ Nat.add_le_add_left hn _⟩

/-- Giving an address back ends the life of the block that has it alone. -/
theorem eraseP_alone {b : Block} {rest : List Block} (hpos : 0 < b.pages)
    (hlive : ∀ c ∈ m.live, 0 < c.pages) (hperm : m.live.Perm (b :: rest))
    (halone : ∀ c ∈ rest, Disjoint b.range c.range) :
    (m.live.eraseP (·.ptr = b.ptr)).Perm rest := by
  have hb : b ∈ m.live := hperm.mem_iff.mpr List.mem_cons_self
  obtain ⟨d, before, after, -, hptr, hsplit, herase⟩ :=
    List.exists_of_eraseP (p := fun c : Block => c.ptr = b.ptr) hb (by simp)
  have hd : m.live.Perm (d :: (before ++ after)) := hsplit ▸ List.perm_middle
  have hdb : d = b := by
    have hmem : d ∈ m.live := hd.mem_iff.mpr List.mem_cons_self
    rcases List.mem_cons.mp (hperm.mem_iff.mp hmem) with heq | hrest
    · exact heq
    · exact absurd (of_decide_eq_true hptr).symm
        (ptr_ne_of_disjoint hpos (hlive d hmem) (halone d hrest))
  rw [hdb] at hd
  rw [herase]
  exact (hd.symm.trans hperm).cons_inv

/-! ## A request that is served -/

/-- The sum, unless it wraps. -/
theorem grown_toNat {b : Block} {bytes : UInt32} (hsum : b.usable + bytes.toNat < 2 ^ 32) :
    (b.grown bytes).toNat = b.usable + bytes.toNat := by
  have husable : b.usable % 2 ^ 32 = b.usable := Nat.mod_eq_of_lt (by omega)
  unfold Block.grown
  rw [UInt32.toNat_add, UInt32.toNat_ofNat', husable]
  exact Nat.mod_eq_of_lt hsum

/-- A sum that has wrapped is served with a block that is too small for it. -/
theorem grown_small {b : Block} {bytes : UInt32} {i : Nat} (husable : b.usable < 2 ^ 32)
    (hwraps : ¬ b.usable + bytes.toNat < 2 ^ 32) :
    (blockFrom i (b.grown bytes)).usable < b.usable + bytes.toNat := by
  have hbytes := bytes.toNat_lt
  have htotal : (b.grown bytes).toNat + 2 ^ 32 = b.usable + bytes.toNat := by
    have hmod : (b.grown bytes).toNat = (b.usable % 2 ^ 32 + bytes.toNat) % 2 ^ 32 := by
      unfold Block.grown
      rw [UInt32.toNat_add, UInt32.toNat_ofNat']
    omega
  show numPages (b.grown bytes) * PAGE_SIZE - sizeofAllocHeader < _
  unfold numPages PAGE_SIZE KB sizeofAllocHeader
  omega

/-- Outside of the new block its header is not written. -/
theorem takeRegion_outside {i : Nat} {bytes : UInt32} {a : Nat}
    (ha : ¬ (blockFrom i bytes).Covers a) :
    (m.takeRegion i (numPages bytes) bytes).pool a = m.pool a := by
  refine storeHeader_apply_of_outside ?_
  by_contra hin
  rw [not_or, Nat.not_lt, Nat.not_le] at hin
  have hpage : (i + 1) * PAGE_SIZE ≤ (i + numPages bytes) * PAGE_SIZE :=
    Nat.mul_le_mul_right _ (Nat.add_le_add_left (numPages_usable bytes).1 i)
  have hsmall : sizeofAllocHeader ≤ PAGE_SIZE := by decide
  rw [Nat.succ_mul] at hpage
  exact ha ⟨hin.1, by show a < (i + numPages bytes) * PAGE_SIZE; omega⟩

section

variable {b : Block} {bytes : UInt32} {i : Nat}

/-- Nor is anything else by the copy. -/
theorem copied_outside {new : Block} {n : Nat} (hnew : 0 < new.pages) (hn : n ≤ new.usable) {a : Nat}
    (ha : ¬ new.Covers a) (src : Nat) : (m.copied new.ptr src n).pool a = m.pool a := by
  obtain ⟨hstart, hend⟩ := ptr_add_le hnew hn
  exact if_neg fun hin => ha ⟨Nat.le_trans hstart hin.1, Nat.lt_of_lt_of_le hin.2 hend⟩

/-- The memory after the block has been copied from page `i` on and released. -/
def moveTo (m : Memory) (b : Block) (i : Nat) (bytes : UInt32) (freeStack : List Nat) : Memory :=
  ((m.takeRegion i (numPages bytes) bytes).copied (blockFrom i bytes).ptr b.ptr b.usable).released
    b freeStack

/-- What `c_realloc` does with a request that is served, if the sum does not wrap and the
new block is apart from the old one. -/
theorem cRealloc_served (h : m.Between) (hb : m.Secure b) (hserves : m.ServesAt (b.grown bytes) i)
    (hsum : b.usable + bytes.toNat < 2 ^ 32)
    (hapart : Disjoint (Finset.Ico i (i + numPages (b.grown bytes))) b.range) :
    ∃ m₁ st, Replacing (numPages (b.grown bytes)) m true m₁ ∧
      cRealloc m b.ptr bytes
        = .ok ((blockFrom i (b.grown bytes)).ptr, m₁.moveTo b i (b.grown bytes) st) := by
  have hin := h.handIn_of_intact hb.intact
  obtain ⟨m₁, hturns, halloc⟩ := cAlloc_serves hin h.lock hserves
  have hlock := (cAlloc_header halloc (ptr_ne_zero _)).1
  obtain ⟨hpool, hsize, -⟩ := replacing_kept hturns
  have hlen := replacing_len hturns
  let new : Block := blockFrom i (b.grown bytes)
  have hnew : 0 < new.pages := (numPages_usable _).1
  have hapart : Disjoint new.range b.range := hapart
  have hroom : b.usable ≤ new.usable := by
    have hfits : (b.grown bytes).toNat ≤ new.usable := (numPages_usable _).2
    rw [grown_toNat hsum] at hfits
    omega
  obtain ⟨hstart, hend⟩ := ptr_add_le hnew hroom
  obtain ⟨hbstart, hbend⟩ := ptr_add_le hb.intact.pos (Nat.le_refl b.usable)
  have hpages {n : Nat} (hn : n ≤ m.pt.len) : n * PAGE_SIZE ≤ m₁.size :=
    hsize ▸ Nat.le_trans (Nat.mul_le_mul_right _ hn) h.pages
  have hoverlap : new.ptr + b.usable ≤ b.ptr ∨ b.ptr + b.usable ≤ new.ptr := by
    rcases before_or_after hnew hb.intact.pos hapart with hbefore | hafter
    · exact .inl (hend.trans ((Nat.mul_le_mul_right _ hbefore).trans hbstart))
    · exact .inr (hbend.trans ((Nat.mul_le_mul_right _ hafter).trans hstart))
  let t := m₁.takeRegion i (numPages (b.grown bytes)) (b.grown bytes)
  have hcopy : t.memcpy new.ptr b.ptr b.usable = .ok (t.copied new.ptr b.ptr b.usable) :=
    if_pos ⟨hend.trans (hpages hserves.first.1.1), hbend.trans (hpages hb.intact.inside), hoverlap⟩
  have hintact : b.Intact (t.copied new.ptr b.ptr b.usable) := by
    refine ⟨hb.intact.pos, hlen ▸ hb.intact.inside, hb.intact.fits, ?_⟩
    rw [← hb.intact.header]
    refine getHeader_block hb.intact.pos fun a ha => ?_
    have hout := not_covers_of_disjoint hapart.symm ha
    rw [copied_outside hnew hroom hout, takeRegion_outside hout, hpool]
  have hlent : (t.copied new.ptr b.ptr b.usable).pt.len < 2 ^ 32 := by
    have hlt := h.len_lt
    show m₁.pt.len < 2 ^ 32
    omega
  obtain ⟨st, hdealloc⟩ := cDealloc_intact hintact hlock hlent
  refine ⟨m₁, st, hturns, ?_⟩
  rw [cRealloc_eq h hb.intact, halloc, Except.ok_bind_run]
  dsimp only
  rw [if_neg (ptr_ne_zero new)]
  exact Except.bind_eq_ok.mpr ⟨_, hcopy, Except.bind_eq_ok.mpr ⟨_, hdealloc, rfl⟩⟩

/-- The copy leaves the header that `c_alloc` has written. -/
theorem copied_header {src n : Nat} (hlen : m.pt.len < 2 ^ 32) (hin : i + numPages bytes ≤ m.pt.len) :
    ((m.takeRegion i (numPages bytes) bytes).copied (blockFrom i bytes).ptr src n).getHeader
      (blockFrom i bytes).ptr = { id := i, pageNum := numPages bytes } := by
  have hheader := m.takeRegion_getHeader i (numPages bytes) bytes
  rw [u32_of_lt (by omega), u32_of_lt (by omega)] at hheader
  rw [← hheader]
  exact getHeader_congr (Nat.le_add_left _ _) fun a _ ha => if_neg fun hcopied =>
    Nat.not_lt.mpr hcopied.1 ha

section Moving

variable {m₁ : Memory} {s : List Nat}

/-- The same of a request that is served. -/
theorem served_header (h : m.Between) (hserves : m.ServesAt bytes i)
    (hturns : Replacing (numPages bytes) m true m₁) (src n : Nat) :
    ((m₁.takeRegion i (numPages bytes) bytes).copied (blockFrom i bytes).ptr src n).getHeader
      (blockFrom i bytes).ptr = { id := i, pageNum := numPages bytes } := by
  have hlen := replacing_len hturns
  have hlenlt := h.len_lt
  exact copied_header (by omega) (hlen ▸ hserves.first.1.1)

theorem moveTo_freePages (h : m.Between) (hb : b.Intact m)
    (hturns : Replacing (numPages bytes) m true m₁) :
    (m₁.moveTo b i bytes s).freePages = m₁.freePages \ (blockFrom i bytes).range ∪ b.range := by
  have hlength : m₁.pt.pages.length = m₁.pt.len :=
    ((KeepsHand.replacing hturns).handIn (h.handIn_of_intact hb)).length
  have htaken : ((m₁.takeRegion i (numPages bytes) bytes).copied (blockFrom i bytes).ptr b.ptr
      b.usable).freePages = m₁.freePages \ (blockFrom i bytes).range :=
    @takeRegion_freePages m₁ i (numPages bytes) bytes
  rw [← htaken]
  exact freeRange_freePages rfl ((mapRange_length _ _ _ _).trans hlength)
    (replacing_len hturns ▸ hb.inside) rfl

theorem moveTo_outside (hturns : Replacing (numPages bytes) m true m₁)
    (hroom : b.usable ≤ (blockFrom i bytes).usable) {a : Nat} (ha : ¬ (blockFrom i bytes).Covers a) :
    (m₁.moveTo b i bytes s).pool a = m.pool a := by
  show ((m₁.takeRegion _ _ _).copied (blockFrom i bytes).ptr b.ptr b.usable).pool a = _
  rw [copied_outside (numPages_usable _).1 hroom ha, takeRegion_outside ha,
    (replacing_kept hturns).1]

theorem moveTo_copied (hturns : Replacing (numPages bytes) m true m₁) (hpos : 0 < b.pages)
    (hapart : Disjoint (blockFrom i bytes).range b.range) {k : Nat} (hk : k < b.usable) :
    (m₁.moveTo b i bytes s).pool ((blockFrom i bytes).ptr + k) = m.pool (b.ptr + k) := by
  have hcopied : (m₁.moveTo b i bytes s).pool ((blockFrom i bytes).ptr + k)
      = (m₁.takeRegion i (numPages bytes) bytes).pool
        (b.ptr + ((blockFrom i bytes).ptr + k - (blockFrom i bytes).ptr)) :=
    if_pos ⟨Nat.le_add_right _ _, Nat.add_lt_add_left hk _⟩
  have hsource : b.Covers (b.ptr + k) := by
    obtain ⟨hstart, hend⟩ := ptr_add_le hpos (Nat.succ_le_of_lt hk)
    exact ⟨hstart.trans (Nat.le_add_right _ _), hend⟩
  rw [hcopied, Nat.add_sub_cancel_left,
    takeRegion_outside (not_covers_of_disjoint hapart.symm hsource), (replacing_kept hturns).1]

theorem moveTo_live (h : m.Between) (hpos : 0 < b.pages)
    (hturns : Replacing (numPages bytes) m true m₁)
    (hapart : Disjoint (blockFrom i bytes).range b.range) {rest : List Block}
    (hperm : m.live.Perm (b :: rest)) (halone : ∀ c ∈ rest, Disjoint b.range c.range) :
    (m₁.moveTo b i bytes s).live.Perm (blockFrom i bytes :: rest) := by
  have herase := eraseP_alone hpos h.pos hperm halone
  have hne : (blockFrom i bytes).ptr ≠ b.ptr := ptr_ne_of_disjoint (numPages_usable _).1 hpos hapart
  have hkept : (blockFrom i bytes :: m₁.live).eraseP (·.ptr = b.ptr)
      = blockFrom i bytes :: m₁.live.eraseP (·.ptr = b.ptr) :=
    List.eraseP_cons_of_neg (by simpa using hne)
  show ((blockFrom i bytes :: m₁.live).eraseP (·.ptr = b.ptr)).Perm _
  rw [hkept, (replacing_kept hturns).2.2]
  exact herase.cons _

/-- Another block that has lost no page to replacement stays as it was. -/
theorem moveTo_secure {c : Block} (h : m.Between) (hb : m.Secure b) (hc : m.Secure c) (hcb : c ≠ b)
    (hturns : Replacing (numPages bytes) m true m₁) (hroom : b.usable ≤ (blockFrom i bytes).usable)
    (hapart : Disjoint (blockFrom i bytes).range b.range)
    (hrange : (blockFrom i bytes).range ⊆ m₁.freePages) (hkept : Disjoint c.range m₁.freePages) :
    (m₁.moveTo b i bytes s).Secure c ∧ m.SameBytes (m₁.moveTo b i bytes s) c := by
  have hcnew : Disjoint c.range (blockFrom i bytes).range := hkept.mono_right hrange
  have hbytes : m.SameBytes (m₁.moveTo b i bytes s) c := fun a ha =>
    moveTo_outside hturns hroom (not_covers_of_disjoint hcnew ha)
  obtain ⟨rest, hperm, halone⟩ := hb.alone
  obtain ⟨crest, hcperm, hcalone⟩ := hc.alone
  have hcrest : c ∈ rest := (List.mem_cons.mp (hperm.mem_iff.mp hc.mem_live)).resolve_left hcb
  refine ⟨⟨⟨hc.intact.pos, replacing_len hturns ▸ hc.intact.inside, hc.intact.fits, ?_⟩, ?_, ?_⟩,
    hbytes⟩
  · rw [getHeader_block hc.intact.pos hbytes]
    exact hc.intact.header
  · rw [moveTo_freePages h hb.intact hturns, Finset.disjoint_union_right]
    exact ⟨hkept.mono_right Finset.sdiff_subset, (halone c hcrest).symm⟩
  · have hrest : rest.Perm (c :: rest.erase c) := List.perm_cons_erase hcrest
    have hlive := moveTo_live (s := s) h hb.intact.pos hturns hapart hperm halone
    refine ⟨_ :: rest.erase c, hlive.trans ((hrest.cons _).trans (.swap _ _ _)), fun d hd => ?_⟩
    rcases List.mem_cons.mp hd with rfl | hd
    · exact hcnew
    · refine hcalone d ?_
      have hboth : (b :: c :: rest.erase c).Perm (c :: crest) :=
        ((hrest.cons b).symm.trans hperm.symm).trans hcperm
      have hcrest' : (b :: rest.erase c).Perm crest :=
        ((List.Perm.swap b c _).trans hboth).cons_inv
      exact hcrest'.mem_iff.mp (List.mem_cons_of_mem _ hd)

/-- The block has moved, if nothing of it and of the others was taken. -/
theorem moveTo_moved (h : m.Between) (hb : m.Secure b)
    (hserves : m.ServesAt (b.grown bytes) i) (hsafe : m.GrowsSafely b bytes)
    (hturns : Replacing (numPages (b.grown bytes)) m true m₁) :
    m.Moved b bytes (blockFrom i (b.grown bytes)) (m₁.moveTo b i (b.grown bytes) s) := by
  have hfreed := replacing_freePages hturns rfl (h.handIn_of_intact hb.intact) (numPages_lt _)
  let new : Block := blockFrom i (b.grown bytes)
  have hapart : Disjoint new.range b.range := hsafe.apart i hserves
  have hrange : new.range ⊆ m₁.freePages := by
    intro j hj
    obtain ⟨hj, hj'⟩ := Finset.mem_Ico.mp hj
    exact (hfreed j).mpr (hserves.first.1.2 j hj hj')
  have hfits : b.usable + bytes.toNat ≤ new.usable := by
    rw [← grown_toNat (hsafe.sum i hserves)]
    exact (numPages_usable _).2
  have hroom : b.usable ≤ new.usable := Nat.le_trans (Nat.le_add_right _ _) hfits
  have hfree := moveTo_freePages (i := i) (s := s) h hb.intact hturns
  refine ⟨⟨(numPages_usable _).1, ?_, (numPages_usable _).2, served_header h hserves hturns _ _⟩, ?_,
    hfits, fun k hk => moveTo_copied hturns hb.intact.pos hapart hk,
    fun a ha => moveTo_outside hturns hroom ha, fun c hc hcb => ?_, ?_, ?_⟩
  · exact replacing_len hturns ▸ hserves.first.1.1
  · rw [hfree, Finset.disjoint_union_right]
    exact ⟨Finset.disjoint_sdiff, hapart⟩
  · refine moveTo_secure h hb hc hcb hturns hroom hapart hrange ?_
    refine Finset.disjoint_left.mpr fun j hj hfreej => ?_
    rcases (hfreed j).mp hfreej with hold | hreclaims
    · exact Finset.disjoint_left.mp hc.taken hj hold
    · exact hsafe.others i hserves c hc hcb j hj hreclaims
  · rw [hfree]
    exact Finset.subset_union_right
  · obtain ⟨rest, hperm, halone⟩ := hb.alone
    exact ⟨rest, hperm, moveTo_live h hb.intact.pos hturns hapart hperm halone⟩

end Moving

/-- A refusal keeps the block, unless its page is the one that is lost. -/
theorem Refused.secure_iff {m' : Memory} (hrefused : m.Refused (b.grown bytes) m')
    (hb : m.Secure b) :
    m'.Secure b ↔ (m.LosesPage (b.grown bytes) → m.hand + 1 ∉ b.range) := by
  constructor
  · intro hsecure hloses hmem
    have hfree := (hrefused.free (m.hand + 1)).mpr (.inr ⟨hloses, rfl⟩)
    exact Finset.disjoint_left.mp hsecure.taken hmem hfree
  · intro hlost
    obtain ⟨hpos, hin, hfits, hheader⟩ := hb.intact
    refine ⟨⟨hpos, hrefused.len ▸ hin, hfits, ?_⟩, ?_, hrefused.live ▸ hb.alone⟩
    · rw [getHeader_block hpos fun a _ => congrFun hrefused.pool a]
      exact hheader
    · refine Finset.disjoint_left.mpr fun j hj hfree => ?_
      rcases (hrefused.free j).mp hfree with hold | ⟨hloses, rfl⟩
      · exact Finset.disjoint_left.mp hb.taken hj hold
      · exact hlost hloses hj

/-- A `c_dealloc` does not end the program. -/
theorem cDealloc_ne_exit {p : Addr} : cDealloc m p ≠ .error .exit := by
  intro h
  rcases Except.bind_eq_error.mp h with hwait | ⟨m₁, -, h⟩
  · rcases Except.bind_eq_error.mp hwait with hsem | ⟨n, -, hok⟩
    · cases (semWait_eq_error.mp hsem).2
    · cases hok
  · dsimp only at h
    split at h
    · cases h
    · split at h
      · cases h
      · cases h

/-- A block with the header of a request has its pages. -/
theorem Intact.eq_of_header {m' : Memory} {new : Block} (hintact : new.Intact m')
    (hheader : m'.getHeader new.ptr = { id := i, pageNum := numPages bytes }) :
    new.range = Finset.Ico i (i + numPages bytes) ∧ new.pages = numPages bytes := by
  rw [hintact.header] at hheader
  obtain ⟨hstart, hpages⟩ := AllocHeader.mk.inj hheader
  unfold Block.range
  rw [hstart, hpages]
  exact ⟨rfl, rfl⟩

/-- Where the data is kept, the sum has not wrapped, and the new block lies apart. -/
theorem KeepsData.sum_apart (h : m.Between) (hb : m.Secure b) (hkeeps : m.KeepsData b bytes)
    (hserves : m.ServesAt (b.grown bytes) i) :
    b.usable + bytes.toNat < 2 ^ 32 ∧
      Disjoint (Finset.Ico i (i + numPages (b.grown bytes))) b.range := by
  have hin := h.handIn_of_intact hb.intact
  obtain ⟨m₁, hturns, halloc⟩ := cAlloc_serves hin h.lock hserves
  let t := m₁.takeRegion i (numPages (b.grown bytes)) (b.grown bytes)
  have hstages : cRealloc m b.ptr bytes = (do
      let m ← t.memcpy (blockFrom i (b.grown bytes)).ptr b.ptr b.usable
      let m ← cDealloc m b.ptr
      .ok ((blockFrom i (b.grown bytes)).ptr, m)) := by
    rw [cRealloc_eq h hb.intact, halloc, Except.ok_bind_run]
    exact if_neg (ptr_ne_zero _)
  cases hcopy : t.memcpy (blockFrom i (b.grown bytes)).ptr b.ptr b.usable with
  | error e =>
      -- the copy would be undefined
      rw [hcopy] at hstages
      have hexit := hkeeps.ends e hstages
      unfold memcpy at hcopy
      split at hcopy
      · cases hcopy
      · cases hcopy
        cases hexit
  | ok m₂ =>
      rw [hcopy, Except.ok_bind_run] at hstages
      cases hdealloc : cDealloc m₂ b.ptr with
      | error e =>
          rw [hdealloc] at hstages
          rw [hkeeps.ends e hstages] at hdealloc
          exact absurd hdealloc cDealloc_ne_exit
      | ok m₃ =>
          rw [hdealloc] at hstages
          obtain ⟨new, hptr, hmoved⟩ := hkeeps.moved _ m₃ hstages (ptr_ne_zero _)
          have hcopied : m₂ = t.copied (blockFrom i (b.grown bytes)).ptr b.ptr b.usable := by
            unfold memcpy at hcopy
            split at hcopy
            · cases hcopy
              rfl
            · cases hcopy
          -- the header says which pages the block has
          have hheader : m₃.getHeader new.ptr = { id := i, pageNum := numPages (b.grown bytes) } := by
            have hsame : m₃.getHeader new.ptr = m₂.getHeader new.ptr := by
              unfold getHeader
              rw [(cDealloc_frame hdealloc).1]
            rw [hsame, hcopied, hptr]
            exact served_header h hserves hturns _ _
          obtain ⟨hrange, hpages⟩ := Intact.eq_of_header hmoved.intact hheader
          constructor
          · by_contra hwraps
            have hsmall := grown_small (i := i) (usable_lt h hb.intact) hwraps
            have hroom := hmoved.room
            unfold Block.usable at hroom
            rw [hpages] at hroom
            exact Nat.not_lt.mpr hroom hsmall
          · rw [← hrange]
            exact hmoved.taken.mono_right hmoved.released

/-- Where the data is kept, no other block has lost a page. -/
theorem KeepsData.others (h : m.Between) (hb : m.Secure b) (hkeeps : m.KeepsData b bytes)
    (hserves : m.ServesAt (b.grown bytes) i) {c : Block} (hc : m.Secure c) (hcb : c ≠ b) {j : Nat}
    (hj : j ∈ c.range) : ¬ m.Reclaims (numPages (b.grown bytes) - m.pt.freePageNum) j := by
  intro hreclaims
  have hin := h.handIn_of_intact hb.intact
  obtain ⟨hsum, hapart⟩ := hkeeps.sum_apart h hb hserves
  obtain ⟨m₁, st, hturns, hok⟩ := cRealloc_served h hb hserves hsum hapart
  obtain ⟨new, hptr, hmoved⟩ := hkeeps.moved _ _ hok (ptr_ne_zero _)
  have hfreed := (replacing_freePages hturns rfl hin (numPages_lt _) j).mpr (.inr hreclaims)
  have hfree := moveTo_freePages (i := i) (s := st) h hb.intact hturns
  obtain ⟨hsecure, -⟩ := hmoved.others c hc hcb
  by_cases hnew : j ∈ (blockFrom i (b.grown bytes)).range
  · have hheader : (m₁.moveTo b i (b.grown bytes) st).getHeader new.ptr
        = { id := i, pageNum := numPages (b.grown bytes) } := by
      rw [hptr]
      exact served_header h hserves hturns _ _
    have hjnew : j ∈ new.range := (Intact.eq_of_header hmoved.intact hheader).1 ▸ hnew
    obtain ⟨rest, hperm, hlive⟩ := hmoved.live
    obtain ⟨crest, hcperm, hcalone⟩ := hsecure.alone
    have hcrest : c ∈ rest := (List.mem_cons.mp (hperm.mem_iff.mp hc.mem_live)).resolve_left hcb
    -- the page belongs to both blocks, also if they are one
    by_cases heq : new = c
    · subst heq
      have hmem : new ∈ crest := (hlive.symm.trans hcperm).cons_inv.mem_iff.mp hcrest
      exact Finset.disjoint_left.mp (hcalone new hmem) hj hj
    · have hmem : new ∈ c :: crest := hcperm.mem_iff.mp (hlive.mem_iff.mpr List.mem_cons_self)
      have hrest := (List.mem_cons.mp hmem).resolve_left heq
      exact Finset.disjoint_left.mp (hcalone new hrest) hj hjnew
  · refine Finset.disjoint_left.mp hsecure.taken hj ?_
    rw [hfree]
    exact Finset.mem_union_left _ (Finset.mem_sdiff.mpr ⟨hfreed, hnew⟩)

/-- `c_realloc` keeps the data just if the block grows safely. -/
theorem keepsData_iff (h : m.Between) (hb : m.Secure b) :
    m.KeepsData b bytes ↔ m.GrowsSafely b bytes := by
  have hin := h.handIn_of_intact hb.intact
  -- a refused request
  have hnull {m' : Memory} (hnull : cAlloc m (b.grown bytes) = .ok (0, m')) :
      cRealloc m b.ptr bytes = .ok (0, m') := by
    rw [cRealloc_eq h hb.intact, hnull, Except.ok_bind_run]
    exact if_pos rfl
  constructor
  · intro hkeeps
    refine ⟨fun i hserves => (hkeeps.sum_apart h hb hserves).1,
      fun i hserves => (hkeeps.sum_apart h hb hserves).2,
      fun i hserves c hc hcb j hj => hkeeps.others h hb hserves hc hcb hj, fun hloses => ?_⟩
    have hgives : m.GivesUp (b.grown bytes) :=
      ⟨hloses.1, hloses.2.1, .inr ⟨hloses.2.2.1, hloses.2.2.2⟩⟩
    rcases cAlloc_serves_or hin h.lock (b.grown bytes) with ⟨m', halloc⟩ | hexit | ⟨i, hserves⟩
    · obtain ⟨hsecure, -⟩ := hkeeps.null m' (hnull halloc)
      exact ((cAlloc_null hin halloc).secure_iff hb).mp hsecure hloses
    · obtain ⟨p, m', hreturns⟩ := (cAlloc_returns_iff hin h.lock hloses.1 hloses.2.1).mpr (.inl hgives)
      rw [hexit] at hreturns
      cases hreturns
    · exact absurd hgives hserves.keeps
  · intro hsafe
    rcases cAlloc_serves_or hin h.lock (b.grown bytes) with ⟨m', halloc⟩ | hexit | ⟨i, hserves⟩
    · have hok := hnull halloc
      have hrefused := cAlloc_null hin halloc
      refine ⟨fun e he => ?_, fun m'' hm => ?_, fun p m'' hm hp => ?_⟩
      · rw [hok] at he
        cases he
      · rw [hok] at hm
        cases hm
        exact ⟨(hrefused.secure_iff hb).mpr hsafe.lost, fun a _ => congrFun hrefused.pool a⟩
      · rw [hok] at hm
        cases hm
        exact absurd rfl hp
    · have hstop : cRealloc m b.ptr bytes = .error .exit := by
        rw [cRealloc_eq h hb.intact, hexit]
        rfl
      refine ⟨fun e he => ?_, fun m'' hm => ?_, fun p m'' hm => ?_⟩
      · rw [hstop] at he
        cases he
        rfl
      · rw [hstop] at hm
        cases hm
      · rw [hstop] at hm
        cases hm
    · obtain ⟨m₁, st, hturns, hok⟩ :=
        cRealloc_served h hb hserves (hsafe.sum i hserves) (hsafe.apart i hserves)
      refine ⟨fun e he => ?_, fun m'' hm => ?_, fun p m'' hm _ => ?_⟩
      · rw [hok] at he
        cases he
      · rw [hok] at hm
        exact absurd (Prod.mk.inj (Except.ok.inj hm)).1 (ptr_ne_zero _)
      · rw [hok] at hm
        cases hm
        exact ⟨_, rfl, moveTo_moved h hb hserves hsafe hturns⟩

/-- Where enough pages are free only the sum matters. -/
theorem growsSafely_of_enough (hb : m.Secure b) (hsum : b.usable + bytes.toNat < 2 ^ 32)
    (hnum : numPages (b.grown bytes) ≤ m.pt.freePageNum) : m.GrowsSafely b bytes where
  sum := fun _ _ => hsum
  apart := by
    intro i hserves
    refine Finset.disjoint_left.mpr fun j hj hjb => ?_
    obtain ⟨hj, hj'⟩ := Finset.mem_Ico.mp hj
    rcases hserves.first.1.2 j hj hj' with hfree | hreclaims
    · exact Finset.disjoint_left.mp hb.taken hjb hfree
    · rw [Nat.sub_eq_zero_of_le hnum] at hreclaims
      exact m.not_reclaims_zero j hreclaims
  others := by
    intro i hserves c hc hcb j hj hreclaims
    rw [Nat.sub_eq_zero_of_le hnum] at hreclaims
    exact m.not_reclaims_zero j hreclaims
  lost := fun hloses => absurd hloses.2.2.1 (by omega)

/-- As long as replacement has freed no page, every live block is secure. -/
theorem Inv.secure (h : m.Inv) (hb : b ∈ m.live) : m.Secure b := by
  have hperm : m.live.Perm (b :: m.live.erase b) := List.perm_cons_erase hb
  have hpair := (hperm.pairwise_iff fun hdisjoint => Disjoint.symm hdisjoint).mp h.packing.disjoint
  exact ⟨h.intact b hb, h.packing.apart b hb, m.live.erase b, hperm, (List.pairwise_cons.mp hpair).1⟩

end

end

end Memory

theorem initMem_between (pool : Bytes.Mem) (memSize : UInt32) : (initMem pool memSize).Between :=
  have hinv := initMem_inv pool memSize
  ⟨initMem_ready pool memSize, hinv.len, hinv.size, fun _ hc => absurd hc List.not_mem_nil⟩

/-- In every state that calls of the allocator and writes to the pool lead to, for every
block whose pages are its own and every number of bytes, `c_realloc` keeps the data just
if the sum does not wrap and replacement takes nothing. -/
theorem realloc_keeps_data (pool : Bytes.Mem) (memSize : UInt32) (us : List MemUse) {m : Memory}
    {b : Block} (bytes : UInt32) (hrun : Run.run Memory.use (initMem pool memSize) us = .ok m)
    (hb : m.Secure b) : m.KeepsData b bytes ↔ m.GrowsSafely b bytes :=
  Memory.keepsData_iff
    (Run.run_preserves Memory.Between Memory.Between.use (initMem_between pool memSize) hrun) hb

/-- A block of one page grows by a hundred bytes, and moves to two pages. -/
theorem realloc_keeps_data_two :
    ∃ m, Run.run Memory.use (initMem (fun _ => 0) 4096) [.call (.cAlloc 100)] = .ok m ∧
      m.KeepsData { start := 0, pages := 1, bytes := 100 } 100 := by
  have hsecure : ((initMem (fun _ => 0) 4096).takeRegion 0 1 100).Secure
      { start := 0, pages := 1, bytes := 100 } :=
    (@takeRegion_inv _ 0 100 (initMem_inv (fun _ => 0) 4096) (by decide)).secure
      (List.mem_singleton_self _)
  exact ⟨_, rfl, (realloc_keeps_data (fun _ => 0) 4096 [.call (.cAlloc 100)] 100 rfl hsecure).mpr
    (Memory.growsSafely_of_enough hsecure (by decide) (by decide))⟩

/-- A block of two pages grows by so much that the sum is a hundred: the block that is
returned has one page. -/
theorem realloc_not_always_keeps_data :
    ¬ ∀ (pool : Bytes.Mem) (memSize : UInt32) (us : List MemUse) (m : Memory) (b : Block)
      (bytes : UInt32), Run.run Memory.use (initMem pool memSize) us = .ok m → m.Secure b →
      m.KeepsData b bytes := by
  intro h
  have hsecure : ((initMem (fun _ => 0) 4096).takeRegion 0 2 2000).Secure
      { start := 0, pages := 2, bytes := 2000 } :=
    (@takeRegion_inv _ 0 2000 (initMem_inv (fun _ => 0) 4096) (by decide)).secure
      (List.mem_singleton_self _)
  have hkeeps := h (fun _ => 0) 4096 [.call (.cAlloc 2000)] _ _ 4294965356 rfl hsecure
  have hbetween : ((initMem (fun _ => 0) 4096).takeRegion 0 2 2000).Between :=
    Memory.Between.use (u := .call (.cAlloc 2000)) (initMem_between (fun _ => 0) 4096) rfl
  have hserves : ((initMem (fun _ => 0) 4096).takeRegion 0 2 2000).ServesAt
      (Block.grown { start := 0, pages := 2, bytes := 2000 } 4294965356) 2 := by
    have hnone : ∀ j : Nat, j < 2 → ¬ ((initMem (fun _ => 0) 4096).takeRegion 0 2 2000).Room
        (numPages (Block.grown { start := 0, pages := 2, bytes := 2000 } 4294965356)) j := by
      decide +kernel
    refine ⟨by decide, by decide, by decide, by decide, fun j hj => ?_⟩
    exact Nat.not_lt.mp fun hlt => hnone j hlt hj
  exact absurd (hkeeps.sum_apart hbetween hsecure hserves).1 (by decide)

end ChicOS
