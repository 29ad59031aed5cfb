-- SUMMARY: Release undoes allocation: what is not free while blocks are held, and what is left when all are released.
import ChicOS.Memory.Leases

/-!
# Release undoes allocation

Users of the allocator request blocks, write to the pool and release blocks, in any
order. As long as no request needs replacement and nobody writes to a header, the
pages that are not free are those that were not free before, and those of the blocks
that are held. So when the last block is released the table is as it was.

`c_dealloc` knows a block by its header only. `Lent` says that the headers are right
and that the blocks are apart from each other and from the free pages.
-/

namespace ChicOS

/-- The block that `c_alloc` hands out at an address. -/
def blockAt (p : Addr) (bytes : UInt32) : Block :=
  { start := p / PAGE_SIZE, pages := numPages bytes, bytes := bytes.toNat }

/-- The allocator, and the blocks that are held. -/
structure Lending where
  mem : Memory
  held : List Block

/-- What a user of the allocator does. -/
inductive Deal where
  | request (bytes : UInt32)
  | write (pool : Bytes.Mem)
  | release (b : Block)

namespace Lending

variable {m : Memory} {l l' : Lending}

def step (l : Lending) : Deal → Except Stop Lending
  | .request bytes => do
    let (p, mem) ← cAlloc l.mem bytes
    .ok { mem := mem, held := blockAt p bytes :: l.held }
  | .write pool => .ok { l with mem.pool := pool }
  | .release b => do
    let mem ← cDealloc l.mem b.ptr
    .ok { mem := mem, held := l.held.erase b }

/-- Requests are served without replacement, headers are not written to, and what is
released is held. -/
def Fair (l : Lending) : Deal → Prop
  | .request bytes =>
    numPages bytes ≤ l.mem.pt.freePageNum ∧ ∀ p mem, cAlloc l.mem bytes = .ok (p, mem) → p ≠ 0
  | .write pool =>
    ∀ b ∈ l.held, { l.mem with pool := pool }.getHeader b.ptr = l.mem.getHeader b.ptr
  | .release b => b ∈ l.held

/-- What is out of the pages of `m`. -/
structure Accounts (m : Memory) (l : Lending) : Prop where
  pages : ∀ j, j ∉ l.mem.freePages ↔ j ∉ m.freePages ∨ ∃ b ∈ l.held, j ∈ b.range
  count : l.mem.pt.freePageNum + (l.held.map Block.pages).sum = m.pt.freePageNum
  restored : l.held = [] → l.mem.pt.pages.map Page.free = m.pt.pages.map Page.free ∧
    l.mem.pt.freePageNum = m.pt.freePageNum

/-! ## The invariant -/

/-- The blocks that are held have been taken from the pages of `m`. -/
structure Lent (m : Memory) (l : Lending) : Prop where
  length : l.mem.pt.pages.length = l.mem.pt.len
  len : l.mem.pt.len = m.pt.len
  intact : ∀ b ∈ l.held, b.Intact l.mem
  packing : Packing Block.range l.mem.freePages l.held
  covers : Packing.Covers Block.range l.mem.freePages l.held m.freePages
  count : l.mem.pt.freePageNum + (l.held.map Block.pages).sum = m.pt.freePageNum
  lock : l.held ≠ [] → 0 < l.mem.memoryS

theorem Lent.start (hlength : m.pt.pages.length = m.pt.len) : Lent m { mem := m, held := [] } where
  length := hlength
  len := rfl
  intact := fun _ hb => absurd hb List.not_mem_nil
  packing := .empty _
  covers := .empty _
  count := rfl
  lock := fun hne => absurd rfl hne

/-- A block is taken from the free pages. -/
theorem Lent.take {i : Nat} {bytes : UInt32} (h : Lent m l) (hlen : m.pt.len < 2 ^ 32)
    (hlock : 0 < l.mem.memoryS) (hnum : numPages bytes ≤ l.mem.pt.freePageNum)
    (hfind : l.mem.pt.findRegion (numPages bytes) = some i) :
    Lent m
      { mem := l.mem.takeRegion i (numPages bytes) bytes
        held := { start := i, pages := numPages bytes, bytes := bytes.toNat } :: l.held } := by
  let b : Block := { start := i, pages := numPages bytes, bytes := bytes.toNat }
  have hrange : b.range ⊆ l.mem.freePages := findRegion_range hfind
  have hnew := @takeRegion_intact l.mem i bytes (h.len ▸ hlen) hfind
  refine ⟨(mapRange_length _ _ _ _).trans h.length, h.len, ?_, ?_, ?_, ?_, fun _ => hlock⟩
  · intro c hc
    rcases List.mem_cons.mp hc with rfl | hold
    · exact hnew
    · have hintact := h.intact c hold
      exact takeRegion_intact_ne hintact (Block.start_ne_of_disjoint (b := b) hnew.pos hintact.pos
        ((h.packing.apart c hold).symm.mono_left hrange))
  · rw [takeRegion_freePages]
    exact h.packing.take hrange
  · rw [takeRegion_freePages]
    exact h.covers.take hrange
  · have hcount := h.count
    rw [List.map_cons, List.sum_cons]
    show l.mem.pt.freePageNum - numPages bytes + (numPages bytes + _) = _
    omega

/-- A request that is served takes one. -/
theorem Lent.request {bytes : UInt32} (h : Lent m l) (hlen : m.pt.len < 2 ^ 32)
    (hfair : l.Fair (.request bytes)) (hstep : l.step (.request bytes) = .ok l') : Lent m l' := by
  obtain ⟨hnum, hserved⟩ := hfair
  obtain ⟨⟨p, mem⟩, halloc, hok⟩ := Except.bind_eq_ok.mp hstep
  have hp := hserved p mem halloc
  cases hok
  cases cAlloc_eq_ok halloc with
  | refused | exhausted => exact absurd rfl hp
  | @served i m₁ hbytes hsize hrepl hlock hfind =>
      rcases replacePages_cases hrepl with ⟨-, -, rfl⟩ | ⟨hlt, -⟩
      · have hblock : blockAt (i * PAGE_SIZE + sizeofAllocHeader) bytes
            = { start := i, pages := numPages bytes, bytes := bytes.toNat } := by
          unfold blockAt PAGE_SIZE KB sizeofAllocHeader
          rw [Nat.mul_comm, Nat.mul_add_div (by decide)]
          rfl
        rw [hblock]
        exact h.take hlen hlock hnum hfind
      · exact absurd hnum (Nat.not_le.mpr hlt)

/-- Writing beside the headers changes nothing that matters here. -/
theorem Lent.write {pool : Bytes.Mem} (h : Lent m l) (hfair : l.Fair (.write pool)) :
    Lent m { l with mem.pool := pool } where
  length := h.length
  len := h.len
  intact := by
    intro b hb
    have hintact := h.intact b hb
    exact ⟨hintact.pos, hintact.inside, hintact.fits, (hfair b hb).trans hintact.header⟩
  packing := h.packing
  covers := h.covers
  count := h.count
  lock := h.lock

/-- A block that is held can be released. -/
theorem Lent.release {b : Block} (h : Lent m l) (hlen : m.pt.len < 2 ^ 32)
    (hnum : m.pt.freePageNum ≤ m.pt.len) (hb : b ∈ l.held) :
    ∃ l', l.step (.release b) = .ok l' ∧ l'.held = l.held.erase b ∧ Lent m l' := by
  have hintact := h.intact b hb
  have hperm : l.held.Perm (b :: l.held.erase b) := List.perm_cons_erase hb
  have hcount : l.mem.pt.freePageNum + (b.pages + ((l.held.erase b).map Block.pages).sum)
      = m.pt.freePageNum := by
    rw [← h.count, (hperm.map Block.pages).sum_eq, List.map_cons, List.sum_cons]
  have hlock := h.lock (List.ne_nil_of_mem hb)
  obtain ⟨st, hdealloc⟩ := cDealloc_intact hintact hlock (h.len ▸ hlen)
  have hfree : (l.mem.released b st).freePages = l.mem.freePages ∪ b.range :=
    freeRange_freePages rfl h.length hintact.inside rfl
  refine ⟨⟨l.mem.released b st, l.held.erase b⟩, Except.bind_eq_ok.mpr ⟨_, hdealloc, rfl⟩, rfl, ?_⟩
  refine ⟨(mapRange_length _ _ _ _).trans h.length, h.len, fun c hc => ?_, ?_, ?_, ?_,
    fun _ => hlock⟩
  · have hold := h.intact c (List.mem_of_mem_erase hc)
    exact ⟨hold.pos, hold.inside, hold.fits, hold.header⟩
  · rw [hfree]
    exact h.packing.release hperm
  · rw [hfree]
    exact h.covers.release hperm
  · show u32 (l.mem.pt.freePageNum + b.pages) + ((l.held.erase b).map Block.pages).sum = _
    rw [u32_of_lt (by omega)]
    omega

theorem Lent.step {d : Deal} (hlen : m.pt.len < 2 ^ 32) (hnum : m.pt.freePageNum ≤ m.pt.len)
    (h : Lent m l) (hfair : l.Fair d) (hstep : l.step d = .ok l') : Lent m l' := by
  cases d with
  | request bytes => exact h.request hlen hfair hstep
  | write pool =>
      cases hstep
      exact h.write hfair
  | release b =>
      obtain ⟨l₁, hreturn, -, hlent⟩ := h.release hlen hnum hfair
      cases hstep.symm.trans hreturn
      exact hlent

/-- Blocks that are held can be released one after another, in any order. -/
theorem Lent.releases {done left : List Block} (hlen : m.pt.len < 2 ^ 32)
    (hnum : m.pt.freePageNum ≤ m.pt.len) (h : Lent m l) (hperm : (done ++ left).Perm l.held) :
    ∃ l', Run.run Lending.step l (done.map .release) = .ok l' ∧ l'.held.Perm left ∧ Lent m l' := by
  induction done generalizing l with
  | nil => exact ⟨l, rfl, hperm.symm, h⟩
  | cons b done ih =>
      obtain ⟨hb, hrest⟩ := List.cons_perm_iff_perm_erase.mp hperm
      obtain ⟨l₁, hstep, hheld, hlent⟩ := h.release hlen hnum hb
      rw [← hheld] at hrest
      obtain ⟨l', hrun, hleft⟩ := ih hlent hrest
      exact ⟨l', Run.run_cons_eq_ok.mpr ⟨l₁, hstep, hrun⟩, hleft⟩

/-! ## What the invariant says about the pages -/

/-- The pages that are free determine the flags. -/
theorem free_eq_of_freePages {m m' : Memory} (hlength : m.pt.pages.length = m.pt.len)
    (hlength' : m'.pt.pages.length = m'.pt.len) (hlen : m'.pt.len = m.pt.len)
    (hpages : m'.freePages = m.freePages) : m'.pt.pages.map Page.free = m.pt.pages.map Page.free := by
  refine List.ext_getElem (by simp [hlength, hlength', hlen]) fun j hj hj' => ?_
  rw [List.length_map] at hj hj'
  have hmem := Finset.ext_iff.mp hpages j
  rw [Memory.mem_freePages, Memory.mem_freePages, List.getElem?_eq_getElem hj,
    List.getElem?_eq_getElem hj'] at hmem
  rw [List.getElem_map, List.getElem_map, Bool.eq_iff_iff]
  simpa [← hlength, ← hlength', hj, hj'] using hmem

theorem Lent.accounts (h : Lent m l) (hlength : m.pt.pages.length = m.pt.len) : l.Accounts m where
  pages := h.packing.not_mem_free_iff h.covers
  count := h.count
  restored := by
    intro hnone
    have hcount := h.count
    have hcovers := h.covers
    rw [hnone] at hcount hcovers
    refine ⟨free_eq_of_freePages hlength h.length h.len (Finset.ext fun j => ?_), hcount⟩
    rw [hcovers j]
    simp

end Lending

/-- From any table whose count is right: at every point the pages that are not free are
those that were not before and those of the blocks that are held; the blocks that are
held can be released in any order; and once none is held every flag and the count are
what they were. -/
theorem release_undoes_allocation {m : Memory} (hlength : m.pt.pages.length = m.pt.len)
    (hlen : m.pt.len < 2 ^ 32) (hcount : m.pt.freePageNum = m.freePages.card)
    {deals : List Deal} {l : Lending}
    (hfair : Run.Meets Lending.step Lending.Fair { mem := m, held := [] } deals)
    (hrun : Run.run Lending.step { mem := m, held := [] } deals = .ok l) :
    l.Accounts m ∧
      ∀ done left : List Block, (done ++ left).Perm l.held →
        ∃ l', Run.run Lending.step l (done.map .release) = .ok l' ∧ l'.held.Perm left ∧
          l'.Accounts m := by
  have hnum : m.pt.freePageNum ≤ m.pt.len := by
    rw [hcount]
    calc m.freePages.card ≤ (Finset.range m.pt.len).card := Finset.card_filter_le _ _
      _ = m.pt.len := Finset.card_range _
  have hlent : Lending.Lent m l :=
    Run.run_invariant (Lending.Lent m) (Lending.Lent.step hlen hnum) (.start hlength) hfair hrun
  refine ⟨hlent.accounts hlength, fun done left hperm => ?_⟩
  obtain ⟨l', hrun', hleft, hlent'⟩ := hlent.releases hlen hnum hperm
  exact ⟨l', hrun', hleft, hlent'.accounts hlength⟩

/-- Two blocks in a pool of four pages, released in the order in which they were handed out. -/
theorem release_undoes_allocation_two :
    ∃ l l' : Lending,
      Run.run Lending.step { mem := initMem (fun _ => 0) 4096, held := [] }
        [.request 100, .request 2000] = .ok l ∧
      Run.run Lending.step l ([blockAt 8 100, blockAt 1032 2000].map .release) = .ok l' ∧
      l'.mem.pt.pages.map Page.free = List.replicate 4 true ∧ l'.mem.pt.freePageNum = 4 := by
  have hserved {m : Memory} {bytes : UInt32} {q : Addr} (hq : q ≠ 0)
      (hr : (cAlloc m bytes).toOption.map Prod.fst = some q) (p : Addr) (mem : Memory)
      (h : cAlloc m bytes = .ok (p, mem)) : p ≠ 0 := by
    rw [h] at hr
    cases hr
    exact hq
  have hfirst : Lending.step { mem := initMem (fun _ => 0) 4096, held := [] } (.request 100)
      = .ok { mem := (initMem (fun _ => 0) 4096).takeRegion 0 1 100, held := [blockAt 8 100] } := rfl
  have hfair : Run.Meets Lending.step Lending.Fair { mem := initMem (fun _ => 0) 4096, held := [] }
      [.request 100, .request 2000] :=
    .cons_of_ok ⟨by decide, @hserved _ _ 8 (by decide) (by decide +kernel)⟩ hfirst
      (.cons_of_ok ⟨by decide, @hserved _ _ 1032 (by decide) (by decide +kernel)⟩ rfl trivial)
  obtain ⟨l, hrun, hheld⟩ : ∃ l, Run.run Lending.step
      { mem := initMem (fun _ => 0) 4096, held := [] } [.request 100, .request 2000] = .ok l ∧
      l.held = [blockAt 1032 2000, blockAt 8 100] := ⟨_, rfl, rfl⟩
  obtain ⟨-, hreleases⟩ := release_undoes_allocation rfl (by decide) (by decide) hfair hrun
  obtain ⟨l', hrun', hleft, haccounts⟩ :=
    hreleases [blockAt 8 100, blockAt 1032 2000] [] (hheld ▸ List.Perm.swap _ _ _)
  exact ⟨l, l', hrun, hrun', haccounts.restored (List.perm_nil.mp hleft)⟩

end ChicOS
