-- SUMMARY: The allocator seen by its callers: which blocks a stretch of calls has taken and not given back.
import ChicOS.Memory.Safety

/-!
# Leases

A caller of `c_alloc` does not care where its block lies. `Leases m m' bs` says
that between two states of the allocator the blocks `bs` have been handed out and
not given back, and nothing else has changed hands; free pages and leased pages
then add up.

`FreshSince` is weaker, and holds of some runs with page replacement too: every
block handed out since was apart from the blocks then live.
-/

namespace ChicOS

/-- The address that a call gives back. -/
def Call.givenBack : Call → Option Addr
  | .dealloc mem => some mem
  | .alloc _ | .replace _ => none

namespace Memory

variable {m m' m'' : Memory}

/-! ## Live addresses -/

/-- The addresses of the live blocks, newest first. -/
def addrs (m : Memory) : List Addr := m.live.map Block.ptr

theorem isLive_iff {p : Addr} : m.IsLive p ↔ p ∈ m.addrs := by
  rw [addrs, List.mem_map]
  exact Iff.rfl

/-- Blocks apart have different addresses. -/
theorem ptr_ne_of_disjoint {b c : Block} (hb : 0 < b.pages) (hc : 0 < c.pages)
    (hdisjoint : Disjoint b.range c.range) : b.ptr ≠ c.ptr := by
  intro hptr
  have hptr : b.start * PAGE_SIZE + sizeofAllocHeader = c.start * PAGE_SIZE + sizeofAllocHeader :=
    hptr
  have hstart : b.start = c.start := by
    unfold PAGE_SIZE KB at hptr
    omega
  exact Block.start_ne_of_disjoint hb hc hdisjoint hstart

/-- No two live blocks have one address. -/
theorem Inv.nodup_addrs (h : m.Inv) : m.addrs.Nodup := by
  rw [addrs, List.Nodup, List.pairwise_map]
  refine h.packing.disjoint.imp_of_mem ?_
  intro b c hb hc hdisjoint
  exact ptr_ne_of_disjoint (h.intact b hb).pos (h.intact c hc).pos hdisjoint

/-- An address names one live block. -/
theorem Inv.eq_of_ptr {b c : Block} (h : m.Inv) (hb : b ∈ m.live) (hc : c ∈ m.live)
    (hptr : b.ptr = c.ptr) : b = c :=
  List.inj_on_of_nodup_map h.nodup_addrs hb hc hptr

/-- The addresses that `c_dealloc` has been given, the first one first. -/
def deallocs (m : Memory) : List Addr := (m.calls.filterMap Call.givenBack).reverse

theorem cDealloc_deallocs {p : Addr} (hp : p ≠ 0) (h : cDealloc m p = .ok m') :
    m'.deallocs = m.deallocs ++ [p] := by
  rcases cDealloc_calls h with ⟨hzero, -⟩ | ⟨-, hcalls⟩
  · exact absurd hzero hp
  · rw [deallocs, hcalls]
    exact List.reverse_cons

theorem cDealloc_suffix {p : Addr} (h : cDealloc m p = .ok m') : m.calls <:+ m'.calls := by
  rcases cDealloc_calls h with ⟨-, hcalls⟩ | ⟨-, hcalls⟩
  · rw [hcalls]
  · rw [hcalls]
    exact List.suffix_cons _ _

/-- A `c_dealloc` of a live block takes one block at its address away. -/
theorem cDealloc_live {p : Addr} (hp : p ≠ 0) (hlive : m.IsLive p) (h : cDealloc m p = .ok m') :
    ∃ b : Block, b.ptr = p ∧ m.live.Perm (b :: m'.live) := by
  obtain ⟨c, hc, hcptr⟩ := hlive
  rcases cDealloc_calls h with ⟨hzero, -⟩ | ⟨-, hcalls⟩
  · exact absurd hzero hp
  obtain ⟨b, before, after, -, hptr, hsplit, herase⟩ :=
    List.exists_of_eraseP (p := fun c : Block => c.ptr = p) hc (by simpa using hcptr)
  have hlive' : m'.live = before ++ after := by
    rw [live, hcalls]
    exact herase
  refine ⟨b, by simpa using hptr, ?_⟩
  rw [hlive', hsplit]
  exact List.perm_middle

/-! ## Leases -/

/-- From `m` to `m'` the blocks `bs` have changed hands. -/
structure Leases (m m' : Memory) (bs : List Block) : Prop where
  inv : m'.Inv
  live : m'.live.Perm (bs ++ m.live)
  count : m'.pt.freePageNum + (bs.map Block.pages).sum = m.pt.freePageNum

namespace Leases

theorem refl (h : m.Inv) : m.Leases m [] := ⟨h, .refl _, rfl⟩

theorem perm {bs bs' : List Block} (h : m.Leases m' bs) (hperm : bs.Perm bs') :
    m.Leases m' bs' := by
  refine ⟨h.inv, h.live.trans (hperm.append_right _), ?_⟩
  rw [← (hperm.map Block.pages).sum_eq]
  exact h.count

theorem isLive {bs : List Block} {b : Block} (h : m.Leases m' bs) (hb : b ∈ bs) :
    m'.IsLive b.ptr := ⟨b, h.live.mem_iff.mpr (List.mem_append_left _ hb), rfl⟩

/-- A `c_alloc` that replaces no page leases a block, or nothing. -/
theorem alloc {bs : List Block} {bytes : UInt32} {p : Addr} (h : m.Leases m' bs)
    (hno : m''.NoReplacement) (hok : cAlloc m' bytes = .ok (p, m'')) :
    (p = 0 ∧ m.Leases m'' bs) ∨
    ∃ b : Block, b.ptr = p ∧ b.pages = numPages bytes ∧ m.Leases m'' (b :: bs) := by
  have hinv := cAlloc_inv h.inv hno hok
  rcases cAlloc_cases hno hok with ⟨hp, hs⟩ | ⟨i, -, hle, hp, hm⟩
  · refine .inl ⟨hp, hinv, ?_, ?_⟩
    · rw [hs.live_eq]
      exact h.live
    · rw [hs.num]
      exact h.count
  · let b : Block := { start := i, pages := numPages bytes, bytes := bytes.toNat }
    refine .inr ⟨b, hp.symm, rfl, hinv, ?_, ?_⟩
    · rw [hm]
      exact h.live.cons b
    · have hnum : m''.pt.freePageNum = m'.pt.freePageNum - numPages bytes := by
        rw [hm]
        rfl
      have hcount := h.count
      rw [List.map_cons, List.sum_cons, hnum]
      show m'.pt.freePageNum - numPages bytes + (numPages bytes + _) = _
      omega

/-- A `c_dealloc` of a leased block ends its lease. -/
theorem dealloc {bs : List Block} {b : Block} (h : m.Leases m' (b :: bs))
    (hok : cDealloc m' b.ptr = .ok m'') : m.Leases m'' bs := by
  have hb : b ∈ m'.live := h.live.mem_iff.mpr List.mem_cons_self
  have hinv := cDealloc_inv h.inv ⟨b, hb, rfl⟩ hok
  obtain ⟨st, hm⟩ := cDealloc_eq_ok h.inv hb hok
  obtain ⟨c, hc, hperm⟩ := cDealloc_live (ptr_ne_zero b) ⟨b, hb, rfl⟩ hok
  have hcb : c = b := h.inv.eq_of_ptr (hperm.mem_iff.mpr List.mem_cons_self) hb hc
  subst hcb
  refine ⟨hinv, (hperm.symm.trans h.live).cons_inv, ?_⟩
  have hcount := h.count
  rw [List.map_cons, List.sum_cons] at hcount
  rw [hm]
  show m'.pt.freePageNum + c.pages + _ = _
  omega

end Leases

/-! ## Fresh blocks -/

/-- What a history says, apart from the pages replaced, replacing pages leaves. -/
theorem replacePages_forget {β : Type} {g : List Call → β}
    (hg : ∀ page calls, g (.replace page :: calls) = g calls) {num fuel : Nat} {enough : Bool}
    (h : replacePages num fuel m = .ok (enough, m')) : g m'.calls = g m.calls := by
  have hturns := replacePages_eq_ok h
  clear h
  induction hturns with
  | enough => rfl
  | gaveUp hlt hscan =>
      rw [← (secondChance_sameOwners hscan).calls]
      rfl
  | replaced hlt hscan hv hfree hrest ih =>
      rw [ih, freePage_calls hfree, hg, (secondChance_sameOwners hscan).calls]

/-- Replacing pages ends no block's life. -/
theorem replacePages_live {num fuel : Nat} {enough : Bool}
    (h : replacePages num fuel m = .ok (enough, m')) : m'.live = m.live :=
  replacePages_forget (fun _ _ => rfl) h

/-- What the header of a new block says. -/
theorem takeRegion_getHeader (m : Memory) (i num : Nat) (bytes : UInt32) :
    (m.takeRegion i num bytes).getHeader (i * PAGE_SIZE + sizeofAllocHeader)
      = { id := u32 i, pageNum := u32 num } :=
  storeHeader_getHeader_u32 (m := m) (h := { id := i, pageNum := num })

/-- A `c_alloc` refuses, or hands one block out with its header in front. -/
theorem cAlloc_blocks {bytes : UInt32} {p : Addr} (h : cAlloc m bytes = .ok (p, m')) :
    (p = 0 ∧ m'.live = m.live) ∨ ∃ (b : Block) (before : List Call), b.ptr = p ∧ 0 < b.pages ∧
      m'.calls = .alloc b :: before ∧ m.calls <:+ before ∧ liveBlocks before = m.live ∧
      (m'.getHeader p).pageNum ≤ b.pages := by
  cases cAlloc_eq_ok h with
  | refused => exact .inl ⟨rfl, rfl⟩
  | exhausted hbytes hsize hrepl => exact .inl ⟨rfl, replacePages_live hrepl⟩
  | @served i m₁ hbytes hsize hrepl hlock hfind =>
      refine .inr ⟨{ start := i, pages := numPages bytes, bytes := bytes.toNat }, m₁.calls, rfl,
        (numPages_usable bytes).1, rfl, replacePages_calls hrepl, replacePages_live hrepl, ?_⟩
      rw [takeRegion_getHeader]
      exact Nat.mod_le _ _

theorem cAlloc_block {bytes : UInt32} {p : Addr} (h : cAlloc m bytes = .ok (p, m')) (hp : p ≠ 0) :
    ∃ (b : Block) (before : List Call), b.ptr = p ∧ 0 < b.pages ∧ m'.calls = .alloc b :: before ∧
      m.calls <:+ before ∧ liveBlocks before = m.live ∧ (m'.getHeader p).pageNum ≤ b.pages := by
  rcases cAlloc_blocks h with ⟨hzero, -⟩ | hblock
  · exact absurd hzero hp
  · exact hblock

/-- A block's header names a run of pages that the table has. -/
theorem cAlloc_header {bytes : UInt32} {p : Addr} (h : cAlloc m bytes = .ok (p, m')) (hp : p ≠ 0) :
    0 < m'.memoryS ∧ (m'.getHeader p).id + (m'.getHeader p).pageNum ≤ m'.pt.len := by
  cases cAlloc_eq_ok h with
  | refused | exhausted => exact absurd rfl hp
  | @served i m₁ hbytes hsize hrepl hlock hfind =>
      refine ⟨hlock, ?_⟩
      rw [takeRegion_getHeader]
      calc u32 i + u32 (numPages bytes)
          ≤ i + numPages bytes := Nat.add_le_add (Nat.mod_le _ _) (Nat.mod_le _ _)
        _ ≤ m₁.pt.len := (findRegion_eq_some hfind).1

/-- A block just handed out can be given back. -/
theorem cDealloc_of_cAlloc {bytes : UInt32} {p : Addr} (h : cAlloc m bytes = .ok (p, m'))
    (hp : p ≠ 0) : ∃ m'', cDealloc m' p = .ok m'' := by
  obtain ⟨hlock, hle⟩ := cAlloc_header h hp
  obtain ⟨n, hn⟩ : ∃ n, m'.memoryS = n + 1 := Nat.exists_eq_succ_of_ne_zero (by omega)
  have hwait : m'.wait = .ok { m' with memoryS := n } := wait_eq_ok.mpr ⟨n, hn, rfl⟩
  have hstop : u32 ((m'.getHeader p).id + (m'.getHeader p).pageNum) ≤ m'.pt.len :=
    Nat.le_trans (Nat.mod_le _ _) hle
  have hbound : ¬ ((m'.getHeader p).id < u32 ((m'.getHeader p).id + (m'.getHeader p).pageNum) ∧
      m'.pt.len < u32 ((m'.getHeader p).id + (m'.getHeader p).pageNum)) :=
    fun hbad => Nat.not_lt.mpr hstop hbad.2
  rw [cDealloc, hwait]
  exact ⟨_, (if_neg hp).trans (if_neg hbound)⟩

/-- Handing out blocks gives none back. -/
theorem cAlloc_deallocs {bytes : UInt32} {p : Addr} (h : cAlloc m bytes = .ok (p, m')) :
    m'.deallocs = m.deallocs := by
  have hsame : ∀ {enough m₁},
      replacePages (numPages bytes) (numPages bytes + 1) m = .ok (enough, m₁) →
      m₁.deallocs = m.deallocs :=
    replacePages_forget (g := fun calls => (calls.filterMap Call.givenBack).reverse) fun _ _ => rfl
  cases cAlloc_eq_ok h with
  | refused => rfl
  | exhausted hbytes hsize hrepl => exact hsame hrepl
  | served hbytes hsize hrepl hlock hfind =>
      have hkept := hsame hrepl
      exact hkept

/-- Handing out blocks ends no block's life. -/
theorem cAlloc_live_of_mem {bytes : UInt32} {p : Addr} {b : Block}
    (h : cAlloc m bytes = .ok (p, m')) (hb : b ∈ m.live) : b ∈ m'.live := by
  rcases cAlloc_blocks h with ⟨-, hlive⟩ | ⟨new, before, -, -, hcalls, -, hlive, -⟩
  · rw [hlive]
    exact hb
  · rw [live, hcalls]
    refine List.mem_cons_of_mem new ?_
    rw [hlive]
    exact hb

/-- Giving one address back leaves the blocks at others. -/
theorem cDealloc_live_of_ne {p : Addr} {b : Block} (h : cDealloc m p = .ok m') (hb : b ∈ m.live)
    (hne : b.ptr ≠ p) : b ∈ m'.live := by
  rcases cDealloc_calls h with ⟨-, hcalls⟩ | ⟨-, hcalls⟩
  · rw [live, hcalls]
    exact hb
  · rw [live, hcalls]
    exact (List.mem_eraseP_of_neg (by simpa using hne)).mpr hb

/-- The newest call of a history, if it handed a block out after `old`, handed out
one apart from the blocks live before it. -/
def FreshCall (old : List Call) : List Call → Prop
  | .alloc b :: before => old <:+ before → ∀ c ∈ liveBlocks before, Disjoint b.range c.range
  | _ => True

instance (old : List Call) : (calls : List Call) → Decidable (FreshCall old calls)
  | .alloc b :: before =>
    inferInstanceAs (Decidable (old <:+ before → ∀ c ∈ liveBlocks before, Disjoint b.range c.range))
  | .dealloc _ :: _ => inferInstanceAs (Decidable True)
  | .replace _ :: _ => inferInstanceAs (Decidable True)
  | [] => inferInstanceAs (Decidable True)

/-- Every block handed out since was apart from the blocks then live. -/
def FreshSince (m m' : Memory) : Prop := ∀ calls ∈ m'.calls.tails, FreshCall m.calls calls

instance (m m' : Memory) : Decidable (m.FreshSince m') :=
  inferInstanceAs (Decidable (∀ calls ∈ m'.calls.tails, FreshCall m.calls calls))

theorem FreshSince.disjoint (h : m.FreshSince m') {b c : Block} {before : List Call}
    (hb : .alloc b :: before <:+ m'.calls) (hbefore : m.calls <:+ before)
    (hc : c ∈ liveBlocks before) : Disjoint b.range c.range :=
  h _ ((List.mem_tails _ _).mpr hb) hbefore c hc

end Memory

end ChicOS
