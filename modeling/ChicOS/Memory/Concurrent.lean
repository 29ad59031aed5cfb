-- SUMMARY: c_alloc and c_dealloc by many threads at once, page by page: every interleaving is a serial run, and no block is handed out twice.
import ChicOS.Lib.Monitor
import ChicOS.Memory.FirstFit
import ChicOS.Memory.Leases

/-!
# The allocator under its lock

`c_alloc` compares with `free_page_num` before it takes `memory_s`, and everything after
that is done a page at a time. A thread may therefore make its test on a count that another
thread is in the middle of changing. `Place` is where a thread is between `sem_wait` and
`sem_post`; the steps are those of the C, in their order.

Requests that are refused before the lock touch nothing and are not here; requests that
enter page replacement are not here either. An address is given back by any thread, once.
The lock is the count of the monitor, so `memoryS` of the shared memory stays as it is. The
history gets the entry of a call with the last step of its work.
-/

namespace ChicOS

open Monitor

-- ---------------------------------------------------------------------------
-- The two functions, a step at a time
-- ---------------------------------------------------------------------------

/-- Where a thread is between `sem_wait` and `sem_post`. -/
inductive Place where
  /-- Before the scan of `c_alloc`. -/
  | scan (bytes : UInt32)
  /-- A run of free pages is found, and `free_page_num` not yet lowered. -/
  | count (bytes : UInt32) (i : Nat)
  /-- At page `j` of the loop that takes the pages. -/
  | mark (bytes : UInt32) (i j : Nat)
  | headerId (bytes : UInt32) (i : Nat)
  | headerNum (bytes : UInt32) (i : Nat)
  /-- Before the test of `c_dealloc`. -/
  | check (mem : Addr)
  /-- At page `i` of the loop of `c_dealloc`, which reads its end from the header. -/
  | free (mem : Addr) (i : Nat)

def Place.enter : Request → Place
  | .alloc bytes => .scan bytes
  | .dealloc mem => .check mem

def Place.step (m : Memory) : Place → Except Stop (Memory × (Place ⊕ Addr))
  | .scan bytes =>
    match m.pt.findRegion (numPages bytes) with
    | none => .error .exit
    | some i => .ok (m, .inl (.count bytes i))
  | .count bytes i =>
    .ok ({ m with pt.freePageNum := m.pt.freePageNum - numPages bytes }, .inl (.mark bytes i i))
  | .mark bytes i j =>
    if j < i + numPages bytes then
      .ok ({ m with pt.pages := m.pt.pages.modify j fun _ => { free := false, used := true } },
        .inl (.mark bytes i (j + 1)))
    else .ok (m, .inl (.headerId bytes i))
  | .headerId bytes i =>
    .ok ({ m with pool := Bytes.storeLE m.pool (i * PAGE_SIZE) i 4 }, .inl (.headerNum bytes i))
  | .headerNum bytes i =>
    .ok ({ m with
        pool := Bytes.storeLE m.pool (i * PAGE_SIZE + 4) (numPages bytes) 4
        calls := .alloc { start := i, pages := numPages bytes, bytes := bytes.toNat } :: m.calls },
      .inr (i * PAGE_SIZE + sizeofAllocHeader))
  | .check mem =>
    if mem = 0 then .ok (m, .inr 0) else .ok (m, .inl (.free mem (m.getHeader mem).id))
  | .free mem i =>
    let h := m.getHeader mem
    if i < u32 (h.id + h.pageNum) then
      if i < m.pt.len then
        let pt := { m.pt with pages := m.pt.pages.modify i fun p => { p with free := true } }
        .ok ({ m with pt := pt.pushFreeStack i }, .inl (.free mem (i + 1)))
      else .error .outOfBounds
    else
      .ok ({ m with
          pt.freePageNum := u32 (m.pt.freePageNum + h.pageNum)
          calls := .dealloc mem :: m.calls },
        .inr 0)

/-- The tests of `c_alloc` before it takes the lock, passed. A request that fails the last of them
goes on to the page replacement, and has no move here. -/
def Memory.admits (m : Memory) : Request → Bool
  | .alloc bytes =>
    decide (bytes ≠ 0 ∧ bytes.toNat < m.size ∧ numPages bytes ≤ m.pt.freePageNum)
  | .dealloc _ => true

/-- The allocator as threads use it. -/
def allocator : Object Memory Request Place Addr Stop where
  ready := Memory.admits
  enter := Place.enter
  step := Place.step

-- ---------------------------------------------------------------------------
-- In the middle of a call
-- ---------------------------------------------------------------------------

theorem mapRange_self (pt : PageTable) (i : Nat) (f : Page → Page) :
    pt.mapRange i i f = pt.pages := by
  refine List.ext_getElem? fun j => ?_
  rw [mapRange_getElem?, if_neg (by omega)]

/-- A loop over a range of pages changes one page more. -/
theorem mapRange_modify (pt : PageTable) {i j : Nat} (h : i ≤ j) (f : Page → Page) :
    (pt.mapRange i j f).modify j f = pt.mapRange i (j + 1) f := by
  refine List.ext_getElem? fun k => ?_
  rw [List.getElem?_modify, mapRange_getElem?, mapRange_getElem?]
  by_cases hk : j = k
  · subst hk
    rw [if_neg (by omega), if_pos (by omega)]
    simp
  · by_cases hin : i ≤ k ∧ k < j
    · rw [if_pos hin, if_pos (by omega)]
      simp [hk]
    · rw [if_neg hin, if_neg (by omega)]
      simp [hk]

/-- The free stack takes no notice of the pages and of the count. -/
theorem pushFreeStack_with (pt : PageTable) (ps : List Page) (n i : Nat) :
    ({ pt with pages := ps, freePageNum := n } : PageTable).pushFreeStack i =
      { pt.pushFreeStack i with pages := ps, freePageNum := n } := by
  unfold PageTable.pushFreeStack
  split
  · rfl
  · rfl

theorem foldl_pushFreeStack_with (is : List Nat) (pt : PageTable) (ps : List Page) (n : Nat) :
    is.foldl PageTable.pushFreeStack { pt with pages := ps, freePageNum := n } =
      { is.foldl PageTable.pushFreeStack pt with pages := ps, freePageNum := n } := by
  induction is generalizing pt with
  | nil => rfl
  | cons i is ih => rw [List.foldl_cons, pushFreeStack_with, ih, List.foldl_cons]

/-- The pages from `i` up to `j` are taken. -/
def Memory.marked (m : Memory) (bytes : UInt32) (i j : Nat) : Memory :=
  { m with
    pt :=
      { m.pt with
        freePageNum := m.pt.freePageNum - numPages bytes
        pages := m.pt.mapRange i j fun _ => { free := false, used := true } } }

/-- The pages of a block up to `i` are free again. -/
def Memory.freeing (m : Memory) (mem : Addr) (i : Nat) : Memory :=
  let id := (m.getHeader mem).id
  { m with
    pt :=
      { (List.range' id (i - id)).foldl PageTable.pushFreeStack m.pt with
        pages := m.pt.mapRange id i fun p => { p with free := true }
        freePageNum := m.pt.freePageNum } }

/-- The loop of `c_dealloc` frees one page more. -/
theorem freeing_step {m : Memory} {mem : Addr} {i : Nat} (h : (m.getHeader mem).id ≤ i) :
    m.freeing mem (i + 1) =
      { m.freeing mem i with
        pt :=
          ({ (m.freeing mem i).pt with
            pages := (m.freeing mem i).pt.pages.modify i fun p => { p with free := true } } :
              PageTable).pushFreeStack i } := by
  have hmore : i + 1 - (m.getHeader mem).id = i - (m.getHeader mem).id + 1 := by omega
  have hlast : (m.getHeader mem).id + 1 * (i - (m.getHeader mem).id) = i := by omega
  simp only [Memory.freeing]
  rw [hmore, List.range'_concat, List.foldl_append, ← mapRange_modify _ h, hlast, List.foldl_cons,
    List.foldl_nil, ← pushFreeStack_with]

theorem freeing_len (m : Memory) (mem : Addr) (i : Nat) :
    (m.freeing mem i).pt.len = m.pt.len := by
  obtain ⟨st, hst⟩ := foldl_pushFreeStack_eq
    (List.range' (m.getHeader mem).id (i - (m.getHeader mem).id)) m.pt
  simp only [Memory.freeing, hst]

/-- The memory in the middle of a call that began with `m`. -/
inductive Amid (m : Memory) : Request → Memory → Place → Prop
  | scan {bytes : UInt32} : Amid m (.alloc bytes) m (.scan bytes)
  | count {bytes : UInt32} {i : Nat} (hi : m.pt.findRegion (numPages bytes) = some i) :
      Amid m (.alloc bytes) m (.count bytes i)
  | mark {bytes : UInt32} {i j : Nat} (hi : m.pt.findRegion (numPages bytes) = some i)
      (hij : i ≤ j) (hj : j ≤ i + numPages bytes) :
      Amid m (.alloc bytes) (m.marked bytes i j) (.mark bytes i j)
  | headerId {bytes : UInt32} {i : Nat} (hi : m.pt.findRegion (numPages bytes) = some i) :
      Amid m (.alloc bytes) (m.marked bytes i (i + numPages bytes)) (.headerId bytes i)
  | headerNum {bytes : UInt32} {i : Nat} (hi : m.pt.findRegion (numPages bytes) = some i) :
      Amid m (.alloc bytes)
        { m.marked bytes i (i + numPages bytes) with
          pool := Bytes.storeLE m.pool (i * PAGE_SIZE) i 4 } (.headerNum bytes i)
  | check {mem : Addr} : Amid m (.dealloc mem) m (.check mem)
  | free {mem : Addr} {i : Nat} (hmem : mem ≠ 0) (hid : (m.getHeader mem).id ≤ i)
      (hlen : i = (m.getHeader mem).id ∨
        i ≤ u32 ((m.getHeader mem).id + (m.getHeader mem).pageNum) ∧ i ≤ m.pt.len) :
      Amid m (.dealloc mem) (m.freeing mem i) (.free mem i)

namespace Amid

variable {m s s' : Memory} {r : Request} {k k' : Place}

theorem enter : Amid m r m (allocator.enter r) := by
  cases r with
  | alloc bytes => exact .scan
  | dealloc mem => exact .check

theorem step (h : Amid m r s k) (hstep : allocator.step s k = .ok (s', .inl k')) :
    Amid m r s' k' := by
  change Place.step s k = _ at hstep
  cases h with
  | @scan bytes =>
      rw [Place.step] at hstep
      split at hstep
      · cases hstep
      · rename_i i hi
        cases hstep
        exact .count hi
  | @count bytes i hi =>
      cases hstep
      have hmark : Amid m (.alloc bytes) (m.marked bytes i i) (.mark bytes i i) :=
        .mark hi (le_refl i) (Nat.le_add_right i _)
      rw [Memory.marked, mapRange_self] at hmark
      exact hmark
  | @mark bytes i j hi hij hj =>
      rw [Place.step] at hstep
      split at hstep
      · rename_i hlt
        cases hstep
        have hmark : Amid m (.alloc bytes) (m.marked bytes i (j + 1)) (.mark bytes i (j + 1)) :=
          .mark hi (Nat.le_succ_of_le hij) hlt
        rw [Memory.marked, ← mapRange_modify _ hij] at hmark
        exact hmark
      · rename_i hlast
        cases hstep
        obtain rfl : j = i + numPages bytes := by omega
        exact .headerId hi
  | headerId hi =>
      cases hstep
      exact .headerNum hi
  | headerNum hi => cases hstep
  | @check mem =>
      rw [Place.step] at hstep
      split at hstep
      · cases hstep
      · rename_i hmem
        cases hstep
        have hfree := Amid.free (m := m) hmem (le_refl _) (.inl rfl)
        rw [Memory.freeing, Nat.sub_self, mapRange_self] at hfree
        exact hfree
  | @free mem i hmem hid hlen =>
      rw [Place.step] at hstep
      dsimp only at hstep
      split at hstep
      · rename_i hlt
        split at hstep
        · rename_i hin
          cases hstep
          rw [freeing_len] at hin
          rw [← freeing_step hid]
          exact .free hmem (Nat.le_succ_of_le hid) (.inr ⟨hlt, hin⟩)
        · cases hstep
      · cases hstep

theorem within (h : Within allocator m (allocator.enter r) s k) : Amid m r s k := by
  induction h with
  | refl => exact enter
  | tail _ hstep ih => exact ih.step hstep

end Amid

-- ---------------------------------------------------------------------------
-- A call in one piece
-- ---------------------------------------------------------------------------

/-- The lock, taken and given back. -/
theorem posted {m : Memory} {n : Nat} (hn : m.memoryS = n + 1) :
    ({ m with memoryS := n } : Memory).post = m := by
  rw [Memory.post]
  dsimp only
  rw [← hn]

/-- The last page of a block is free, and its pages are counted. -/
theorem freeing_cDealloc {m : Memory} {mem : Addr} {i : Nat} (hlock : 0 < m.memoryS)
    (hmem : mem ≠ 0) (hid : (m.getHeader mem).id ≤ i)
    (hlen : i = (m.getHeader mem).id ∨
      i ≤ u32 ((m.getHeader mem).id + (m.getHeader mem).pageNum) ∧ i ≤ m.pt.len)
    (hend : ¬ i < u32 ((m.getHeader mem).id + (m.getHeader mem).pageNum)) :
    cDealloc m mem = .ok
      { m.freeing mem i with
        pt.freePageNum := u32 (m.pt.freePageNum + (m.getHeader mem).pageNum)
        calls := .dealloc mem :: m.calls } := by
  obtain ⟨n, hn⟩ := Nat.exists_eq_succ_of_ne_zero (Nat.ne_of_gt hlock)
  have hwait : m.wait = .ok { m with memoryS := n } := Memory.wait_eq_ok.mpr ⟨n, hn, rfl⟩
  have hheader : ({ m with memoryS := n } : Memory).getHeader mem = m.getHeader mem := rfl
  unfold cDealloc
  rw [hwait, Except.ok_bind_run]
  dsimp only
  rw [if_neg hmem, hheader, if_neg (by omega), foldl_pushFreeStack_with]
  have hlast : u32 ((m.getHeader mem).id + (m.getHeader mem).pageNum) - (m.getHeader mem).id =
      i - (m.getHeader mem).id := by omega
  have hpages : m.pt.mapRange (m.getHeader mem).id
      (u32 ((m.getHeader mem).id + (m.getHeader mem).pageNum)) (fun p => { p with free := true }) =
        m.pt.mapRange (m.getHeader mem).id i fun p => { p with free := true } := by
    refine List.ext_getElem? fun k => ?_
    rw [mapRange_getElem?, mapRange_getElem?]
    rcases hlen with hi | ⟨hi, -⟩
    · rw [if_neg (by omega), if_neg (by omega)]
    · rw [Nat.le_antisymm (Nat.not_lt.mp hend) hi]
  rw [hlast, hpages, posted hn]
  rfl

theorem section_alloc {m m' : Memory} {bytes : UInt32} {p : Addr}
    (h : Section allocator m (.alloc bytes) m' p) :
    ∃ i, m.pt.findRegion (numPages bytes) = some i ∧ p = i * PAGE_SIZE + sizeofAllocHeader ∧
      m' = m.takeRegion i (numPages bytes) bytes := by
  obtain ⟨s, k, hwithin, hstep⟩ := h
  change Place.step s k = _ at hstep
  cases Amid.within hwithin with
  | scan =>
      rw [Place.step] at hstep
      split at hstep
      · cases hstep
      · cases hstep
  | count hi => cases hstep
  | mark hi hij hj =>
      rw [Place.step] at hstep
      split at hstep
      · cases hstep
      · cases hstep
  | headerId hi => cases hstep
  | headerNum hi =>
      cases hstep
      exact ⟨_, hi, rfl, rfl⟩

theorem cDealloc_null {m : Memory} (hlock : 0 < m.memoryS) : cDealloc m 0 = .ok m := by
  obtain ⟨n, hn⟩ := Nat.exists_eq_succ_of_ne_zero (Nat.ne_of_gt hlock)
  have hwait : m.wait = .ok { m with memoryS := n } := Memory.wait_eq_ok.mpr ⟨n, hn, rfl⟩
  unfold cDealloc
  rw [hwait, Except.ok_bind_run, if_pos rfl, posted hn]

theorem section_dealloc {m m' : Memory} {mem p : Addr} (hlock : 0 < m.memoryS)
    (h : Section allocator m (.dealloc mem) m' p) : cDealloc m mem = .ok m' := by
  obtain ⟨s, k, hwithin, hstep⟩ := h
  change Place.step s k = _ at hstep
  cases Amid.within hwithin with
  | check =>
      rw [Place.step] at hstep
      split at hstep
      · rename_i hzero
        cases hstep
        rw [hzero]
        exact cDealloc_null hlock
      · cases hstep
  | @free mem i hmem hid hlen =>
      rw [Place.step] at hstep
      dsimp only at hstep
      split at hstep
      · split at hstep
        · cases hstep
        · cases hstep
      · rename_i hend
        cases hstep
        exact freeing_cDealloc hlock hmem hid hlen hend

-- ---------------------------------------------------------------------------
-- How the allocator is used
-- ---------------------------------------------------------------------------

variable {ι : Type}

/-- The addresses handed out and not given back, after one more call. -/
def handedOutNext (ps : List Addr) : Request → Addr → List Addr
  | .alloc _, p => p :: ps
  | .dealloc mem, _ => ps.erase mem

/-- The addresses handed out and not given back, as the callers saw them. -/
def handedOut (log : List (ι × Request × Addr)) : List Addr :=
  log.foldl (fun ps e => handedOutNext ps e.2.1 e.2.2) []

theorem handedOut_snoc (log : List (ι × Request × Addr)) (i : ι) (r : Request) (p : Addr) :
    handedOut (log ++ [(i, r, p)]) = handedOutNext (handedOut log) r p := by
  rw [handedOut, List.foldl_append]
  rfl

/-- What is given back was handed out, or is `NULL`. -/
def Request.Asks (log : List (ι × Request × Addr)) : Request → Prop
  | .alloc _ => True
  | .dealloc mem => mem = 0 ∨ mem ∈ handedOut log

/-- A request that `c_alloc` did not refuse at once asks for some bytes, and for fewer than
there are. -/
def Request.May (size : Nat) (log : List (ι × Request × Addr)) : Request → Prop
  | .alloc bytes => bytes ≠ 0 ∧ bytes.toNat < size
  | .dealloc mem => mem = 0 ∨ mem ∈ handedOut log

/-- Two threads do not give one address back. -/
def Request.Apart : Request → Request → Prop
  | .dealloc p, .dealloc q => p = 0 ∨ p ≠ q
  | _, _ => True

theorem Place.step_size {m m' : Memory} {k : Place} {x : Place ⊕ Addr}
    (h : k.step m = .ok (m', x)) : m'.size = m.size := by
  cases k with
  | scan bytes =>
      rw [Place.step] at h
      split at h
      · cases h
      · cases h
        rfl
  | count bytes i | headerId bytes i | headerNum bytes i =>
      cases h
      rfl
  | mark bytes i j =>
      rw [Place.step] at h
      split at h
      · cases h
        rfl
      · cases h
        rfl
  | check mem =>
      rw [Place.step] at h
      split at h
      · cases h
        rfl
      · cases h
        rfl
  | free mem i =>
      rw [Place.step] at h
      dsimp only at h
      split at h
      · split at h
        · cases h
          rfl
        · cases h
      · cases h
        rfl

/-- Calls by any number of threads: each address is given back once, by whoever has it. -/
def usage (ι : Type) (size : Nat) : Usage ι allocator where
  good m := m.size = size
  asks := Request.Asks
  may := Request.May size
  apart := Request.Apart
  good_step hgood hstep := (Place.step_size hstep).trans hgood
  granted := by
    intro m log r hgood hready hasks
    cases r with
    | alloc bytes =>
        have hready := of_decide_eq_true hready
        rw [hgood] at hready
        exact ⟨hready.1, hready.2.1⟩
    | dealloc mem => exact hasks
  symm := by
    intro r r' h
    cases r with
    | alloc bytes =>
        cases r' with
        | alloc | dealloc => trivial
    | dealloc p =>
        cases r' with
        | alloc bytes => trivial
        | dealloc q =>
            change p = 0 ∨ p ≠ q at h
            change q = 0 ∨ q ≠ p
            by_cases hq : q = p
            · rw [hq]
              exact .inl (h.resolve_right fun hne => hne hq.symm)
            · exact .inr hq
  ended := by
    intro log i r r' a hmay hapart
    cases r with
    | alloc bytes => exact hmay
    | dealloc p =>
        rcases hmay with hzero | hmem
        · exact .inl hzero
        cases r' with
        | alloc bytes =>
            refine .inr ?_
            rw [handedOut_snoc]
            exact List.mem_cons_of_mem _ hmem
        | dealloc q =>
            rcases hapart with hzero | hne
            · exact .inl hzero
            · refine .inr ?_
              rw [handedOut_snoc]
              exact (List.mem_erase_of_ne hne).mpr hmem

-- ---------------------------------------------------------------------------
-- Whole calls, one after the other
-- ---------------------------------------------------------------------------

/-- A `c_dealloc` takes its address off those of the live blocks. -/
theorem cDealloc_addrs {m m' : Memory} {p : Addr} (hp : p ≠ 0) (h : cDealloc m p = .ok m') :
    m'.addrs = m.addrs.erase p := by
  rcases Memory.cDealloc_calls h with ⟨hzero, -⟩ | ⟨-, hcalls⟩
  · exact absurd hzero hp
  · rw [Memory.addrs, Memory.live, hcalls, List.erase_eq_eraseP', Memory.addrs, List.eraseP_map]
    rfl

/-- What whole calls leave: the memory that `serve` leaves, and the addresses the callers
were given and kept are those of the live blocks. -/
structure Served (pool : Bytes.Mem) (memSize : UInt32) (log : List (ι × Request × Addr))
    (m : Memory) : Prop where
  run : Run.run Memory.serve (initMem pool memSize) (log.map fun e => e.2.1) = .ok m
  inv : m.Inv
  lock : m.memoryS = 1
  size : m.size = (initMem pool memSize).size
  addrs : m.addrs = handedOut log

namespace Served

variable {pool : Bytes.Mem} {memSize : UInt32} {log : List (ι × Request × Addr)} {m m' : Memory}
  {i : ι}

theorem serve {r : Request} {a : Addr} (h : Served pool memSize log m)
    (hserve : m.serve r = .ok m') :
    Run.run Memory.serve (initMem pool memSize) ((log ++ [(i, r, a)]).map fun e => e.2.1) =
      .ok m' := by
  rw [List.map_append, Run.run_append_eq_ok]
  refine ⟨m, h.run, ?_⟩
  rw [List.map_singleton, Run.run_cons_eq_ok]
  exact ⟨m', hserve, rfl⟩

theorem alloc {bytes : UInt32} {p : Addr} (h : Served pool memSize log m) (hbytes : bytes ≠ 0)
    (hsize : bytes.toNat < m.size) (hsection : Section allocator m (.alloc bytes) m' p) :
    Served pool memSize (log ++ [(i, .alloc bytes, p)]) m' := by
  obtain ⟨start, hfind, rfl, rfl⟩ := section_alloc hsection
  have hnum : numPages bytes ≤ m.pt.freePageNum := by
    rw [h.inv.count]
    calc numPages bytes = (Finset.Ico start (start + numPages bytes)).card := by simp
      _ ≤ m.freePages.card := Finset.card_le_card (findRegion_range hfind)
  have halloc := cAlloc_eq (by rw [h.lock]; exact Nat.one_pos) hbytes hsize hnum
  rw [hfind] at halloc
  refine ⟨h.serve ?_, takeRegion_inv h.inv hfind, h.lock, h.size, ?_⟩
  · rw [Memory.serve, halloc]
    rfl
  · rw [handedOut_snoc, ← h.addrs]
    rfl

theorem dealloc {mem p : Addr} (h : Served pool memSize log m)
    (hmem : mem = 0 ∨ mem ∈ handedOut log)
    (hsection : Section allocator m (.dealloc mem) m' p) :
    Served pool memSize (log ++ [(i, .dealloc mem, p)]) m' := by
  have hlock : 0 < m.memoryS := by
    rw [h.lock]
    exact Nat.one_pos
  have hdealloc := section_dealloc hlock hsection
  have hrun := h.serve (i := i) (r := .dealloc mem) (a := p) hdealloc
  rcases hmem with rfl | hmem
  · rw [cDealloc_null hlock] at hdealloc
    cases hdealloc
    refine ⟨hrun, h.inv, h.lock, h.size, ?_⟩
    have hnull : 0 ∉ handedOut log := by
      rw [← h.addrs, Memory.addrs, List.mem_map]
      rintro ⟨b, -, hb⟩
      exact Memory.ptr_ne_zero b hb
    rw [handedOut_snoc, handedOutNext, List.erase_of_not_mem hnull, h.addrs]
  · rw [← h.addrs] at hmem
    obtain ⟨b, hb, rfl⟩ := Memory.isLive_iff.mpr hmem
    have haddrs := cDealloc_addrs (Memory.ptr_ne_zero b) hdealloc
    have hinv := cDealloc_inv h.inv ⟨b, hb, rfl⟩ hdealloc
    obtain ⟨st, rfl⟩ := cDealloc_eq_ok h.inv hb hdealloc
    refine ⟨hrun, hinv, h.lock, h.size, ?_⟩
    rw [handedOut_snoc, handedOutNext, ← h.addrs]
    exact haddrs

end Served

theorem serial_served {pool : Bytes.Mem} {memSize : UInt32} {log : List (ι × Request × Addr)}
    {m : Memory}
    (h : Serial (usage ι (initMem pool memSize).size) (initMem pool memSize) log m) :
    Served pool memSize log m := by
  induction h with
  | nil => exact ⟨rfl, initMem_inv pool memSize, rfl, rfl, rfl⟩
  | @snoc log m m' i r a _ hmay hsection ih =>
      cases r with
      | alloc bytes =>
          have hsize := hmay.2
          rw [← ih.size] at hsize
          exact ih.alloc hmay.1 hsize hsection
      | dealloc mem => exact ih.dealloc hmay hsection

/-- However the threads' steps come, as long as every request finds its pages, at most one of
them is at work, and the calls that have ended had the effect and the results of whole calls in
one order: no block is in two hands, and `free_page_num` counts the free pages. -/
theorem concurrent_calls_serial [DecidableEq ι] (pool : Bytes.Mem) (memSize : UInt32)
    (es : List (ι × Move Request)) {s : State ι Memory Request Place Addr}
    (hcalls : Run.Meets (Monitor.step allocator) (usage ι (initMem pool memSize).size).Calls
      (start (initMem pool memSize)) es)
    (hrun : Run.run (Monitor.step allocator) (start (initMem pool memSize)) es = .ok s) :
    (∀ i j, (s.phase i).Holding → (s.phase j).Holding → j = i) ∧
      ∃ m, Run.run Memory.serve (initMem pool memSize) (s.log.map fun e => e.2.1) = .ok m ∧
        m.Safe ∧ m.Accounted ∧ (handedOut s.log).Nodup ∧ m.live.map Block.ptr = handedOut s.log ∧
        (s.lock = 1 → s.shared = m) := by
  have hlinear := linear_run (u := usage ι (initMem pool memSize).size) rfl hcalls hrun
  refine ⟨fun i j hi hj => hlinear.exclusive hi hj, ?_⟩
  obtain ⟨m, hserial, hstate⟩ := hlinear.serial
  have hserved := serial_served hserial
  refine ⟨m, hserved.run, hserved.inv.safe, hserved.inv.accounted, ?_, hserved.addrs, ?_⟩
  · rw [← hserved.addrs]
    exact hserved.inv.nodup_addrs
  · intro hlock
    rcases hstate with ⟨-, hshared, -⟩ | ⟨hzero, -⟩
    · exact hshared
    · omega

/-- Two threads. The second makes its test on the count that the first is changing, waits for
it, and gives the first one's block back. -/
def twoThreads : List (Bool × Move Request) :=
  [(false, .call (.alloc 100)), (false, .acquire), (false, .work), (false, .work),
    (true, .call (.alloc 2000)), (false, .work), (false, .work), (false, .work), (false, .work),
    (false, .release), (true, .acquire), (true, .work), (true, .work), (true, .work),
    (true, .work), (true, .work), (true, .work), (true, .work), (true, .release),
    (true, .call (.dealloc 8)), (true, .acquire), (true, .work), (true, .work), (true, .work),
    (true, .release)]

theorem concurrent_calls_serial_two :
    ∃ s, Run.run (Monitor.step allocator) (start (initMem (fun _ => 0) 4096)) twoThreads = .ok s ∧
      handedOut s.log = [1032] ∧ s.log.length = 3 ∧
      ∃ m, Run.run Memory.serve (initMem (fun _ => 0) 4096) (s.log.map fun e => e.2.1) = .ok m ∧
        m.Safe ∧ m.Accounted ∧ (handedOut s.log).Nodup ∧ m.live.map Block.ptr = handedOut s.log ∧
        (s.lock = 1 → s.shared = m) := by
  refine ⟨_, rfl, rfl, rfl, (concurrent_calls_serial (fun _ => 0) 4096 twoThreads ?_ rfl).2⟩
  refine .cons_of_ok ⟨trivial, fun _ _ _ => trivial⟩ rfl ?_
  iterate 3 refine .cons_of_ok trivial rfl ?_
  refine .cons_of_ok ⟨trivial, fun _ _ _ => trivial⟩ rfl ?_
  iterate 14 refine .cons_of_ok trivial rfl ?_
  refine .cons_of_ok ⟨.inr (.tail _ (.head _)), fun j r' hj => ?_⟩ rfl ?_
  · cases j with
    | false => cases hj
    | true => cases hj
  · iterate 5 refine .cons_of_ok trivial rfl ?_
    exact Run.meets_nil

end ChicOS
