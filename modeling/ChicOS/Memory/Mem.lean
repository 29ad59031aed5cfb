-- SUMMARY: The page allocator of mem.c: page table, block headers, second chance, c_alloc, c_realloc and c_dealloc.
import ChicOS.Defines
import ChicOS.Lib.Bytes
import Mathlib.Data.Finset.Range
import Mathlib.Order.Interval.Finset.Nat

/-!
# The memory pool

`init_mem` cuts a malloc'ed pool into pages. `c_alloc` hands out runs of pages,
first fit, and writes an `alloc_header` at the start of the first page;
`c_dealloc` reads the pages to free back from that header. When there are fewer
free pages than a request needs, `c_alloc` marks pages free that `second_chance`
names, until the count suffices.

The pool is a byte memory. `hand` is the static local of `second_chance`.
`calls` is a history variable: it records the blocks handed out, the addresses
given back and the pages replaced, newest first, and no function reads it.
-/

namespace ChicOS

def MB : Nat := 1048576
def KB : Nat := 1024
def DEFAULT_MEMORY_SIZE : Nat := MB
def PAGE_SIZE : Nat := KB

/-- `sizeof(alloc_header)`: two 32-bit fields. -/
def sizeofAllocHeader : Nat := 8

structure Page where
  free : Bool
  used : Bool
  deriving DecidableEq, Repr

structure PageTable where
  len : Nat
  freePageNum : Nat
  freeStack : List Nat
  pages : List Page
  deriving DecidableEq, Repr

structure AllocHeader where
  id : Nat
  pageNum : Nat
  deriving DecidableEq, Repr

/-- A run of pages handed out by `c_alloc`, with the number of bytes asked for. -/
structure Block where
  start : Nat
  pages : Nat
  bytes : Nat
  deriving DecidableEq, Repr

/-- What the allocator did, as the history records it. -/
inductive Call where
  | alloc (b : Block)
  | dealloc (mem : Addr)
  /-- The replacement loop of `c_alloc` marked a page free. -/
  | replace (page : Nat)
  deriving DecidableEq, Repr

structure Memory where
  memoryS : Nat
  pt : PageTable
  pool : Bytes.Mem
  size : Nat
  hand : Nat
  calls : List Call

/-! ## Blocks and the history -/

/-- The address `c_alloc` returns for a block: past the header in its first page. -/
def Block.ptr (b : Block) : Addr := b.start * PAGE_SIZE + sizeofAllocHeader

/-- The page indices a block covers. -/
def Block.range (b : Block) : Finset Nat := Finset.Ico b.start (b.start + b.pages)

/-- The bytes of a block its owner may use. -/
def Block.usable (b : Block) : Nat := b.pages * PAGE_SIZE - sizeofAllocHeader

/-- The blocks handed out and not yet given back. An address given back ends the
life of the newest block it designates. -/
def liveBlocks : List Call → List Block
  | [] => []
  | .alloc b :: cs => b :: liveBlocks cs
  | .dealloc mem :: cs => (liveBlocks cs).eraseP (·.ptr = mem)
  | .replace _ :: cs => liveBlocks cs

namespace Memory

/-- The live blocks of the pool. -/
def live (m : Memory) : List Block := liveBlocks m.calls

/-- The address designates a live block. -/
def IsLive (m : Memory) (mem : Addr) : Prop := ∃ b ∈ m.live, b.ptr = mem

instance (m : Memory) (mem : Addr) : Decidable (m.IsLive mem) :=
  inferInstanceAs (Decidable (∃ b ∈ m.live, b.ptr = mem))

/-- The pages whose free flag is set. -/
def freePages (m : Memory) : Finset Nat :=
  (Finset.range m.pt.len).filter fun j => m.pt.pages[j]?.any Page.free = true

/-! ## Locking and headers -/

def wait (m : Memory) : Except Stop Memory := do
  let n ← semWait .memoryS m.memoryS
  .ok { m with memoryS := n }

def post (m : Memory) : Memory := { m with memoryS := m.memoryS + 1 }

/-- `get_header`: the eight bytes before a block's address. -/
def getHeader (m : Memory) (mem : Addr) : AllocHeader where
  id := Bytes.loadLE m.pool (mem - sizeofAllocHeader) 4
  pageNum := Bytes.loadLE m.pool (mem - sizeofAllocHeader + 4) 4

end Memory

/-- Write an `alloc_header` at an address of the pool. -/
def storeHeader (pool : Bytes.Mem) (at_ : Addr) (h : AllocHeader) : Bytes.Mem :=
  Bytes.storeLE (Bytes.storeLE pool at_ h.id 4) (at_ + 4) h.pageNum 4

/-- `push_free_stack`. -/
def PageTable.pushFreeStack (pt : PageTable) (i : Nat) : PageTable :=
  if pt.freeStack.length < pt.len then { pt with freeStack := pt.freeStack ++ [i] } else pt

/-- `init_mem`, on whatever bytes `malloc` returned for the pool. -/
def initMem (pool : Bytes.Mem) (memSize : UInt32) : Memory :=
  let size := if 4 * MB ≤ memSize.toNat then DEFAULT_MEMORY_SIZE else memSize.toNat
  let len := size / PAGE_SIZE
  { memoryS := 1
    pt :=
      { len := len
        freePageNum := len
        freeStack := List.range len
        pages := List.replicate len { free := true, used := false } }
    pool := pool
    size := size
    hand := 0
    calls := [] }

/-! ## Page replacement -/

/-- The loop of `second_chance` at page `curr`, with `i` the hand it started
from. The first page found unused ends it, and the *next* index is both the new
hand and the result; coming back to `i - 1`, an index that hand `0` never
reaches, ends it with `-1`. -/
def secondChanceLoop (i : Nat) : Nat → Nat → Memory → Except Stop (Int × Memory)
  | 0, _, _ => .error .diverge
  | fuel + 1, curr, m =>
    match m.pt.pages[curr]? with
    | none => .error .outOfBounds
    | some p =>
      let next := (curr + 1) % m.pt.len
      if p.used = false then
        .ok (next, { m.post with hand := next })
      else
        let m := { m with pt.pages := m.pt.pages.modify curr fun p => { p with used := false } }
        if (next : Int) ≠ i - 1 then secondChanceLoop i fuel next m
        else .ok (-1, { m.post with hand := (next + 1) % m.pt.len })

/-- `second_chance`. A full turn clears every used bit, so the loop is over
after one page more than the table has. -/
def secondChance (m : Memory) : Except Stop (Int × Memory) := do
  let m ← m.wait
  secondChanceLoop m.hand (m.pt.len + 1) m.hand m

/-- The body of the replacement loop of `c_alloc` for the page `second_chance`
returned. -/
def Memory.freePage (m : Memory) (page : Nat) : Except Stop Memory := do
  let m ← m.wait
  if page < m.pt.len then
    let pt :=
      { m.pt with
        pages := m.pt.pages.modify page fun p => { p with free := true }
        freePageNum := u32 (m.pt.freePageNum + 1) }
    .ok { m.post with pt := pt.pushFreeStack page, calls := .replace page :: m.calls }
  else .error .outOfBounds

/-- The replacement loop of `c_alloc`. It gives up, with one post too many, when
`second_chance` finds no page. Every turn adds one to `free_page_num`. -/
def replacePages (numPages : Nat) : Nat → Memory → Except Stop (Bool × Memory)
  | 0, _ => .error .diverge
  | fuel + 1, m =>
    if numPages ≤ m.pt.freePageNum then .ok (true, m)
    else do
      let (page, m) ← secondChance m
      if page = -1 then .ok (false, m.post)
      else do
        let m ← m.freePage page.toNat
        replacePages numPages fuel m

/-! ## Allocation and release -/

/-- `num_pages` of `c_alloc`: the request and a header, rounded up to pages. -/
def numPages (bytes : UInt32) : Nat :=
  (bytes.toNat + sizeofAllocHeader + PAGE_SIZE - 1) / PAGE_SIZE

/-- Every page of the run is free. -/
def PageTable.regionFree (pt : PageTable) (i num : Nat) : Bool :=
  (List.range' i num).all fun j => pt.pages[j]?.any Page.free

/-- The scan of `c_alloc`: the first index from which enough pages are free. -/
def PageTable.findRegion (pt : PageTable) (num : Nat) : Option Nat :=
  (List.range pt.len).find? fun i => decide (i + num ≤ pt.len) && pt.regionFree i num

/-- Change the pages of an index range. -/
def PageTable.mapRange (pt : PageTable) (lo hi : Nat) (f : Page → Page) : List Page :=
  pt.pages.mapIdx fun j p => if lo ≤ j ∧ j < hi then f p else p

/-- Hand out the pages from `i` on and write their header. -/
def Memory.takeRegion (m : Memory) (i num : Nat) (bytes : UInt32) : Memory :=
  { m with
    pt :=
      { m.pt with
        freePageNum := m.pt.freePageNum - num
        pages := m.pt.mapRange i (i + num) fun _ => { free := false, used := true } }
    pool := storeHeader m.pool (i * PAGE_SIZE) { id := i, pageNum := num }
    calls := .alloc { start := i, pages := num, bytes := bytes.toNat } :: m.calls }

/-- `c_alloc`. A refused request returns `NULL`; a request for which the count of
free pages suffices but no run of free pages does ends the program. -/
def cAlloc (m : Memory) (bytes : UInt32) : Except Stop (Addr × Memory) :=
  if bytes = 0 then .ok (0, m)
  else if m.size ≤ bytes.toNat then .ok (0, m)
  else do
    let num := numPages bytes
    let (enough, m) ← replacePages num (num + 1) m
    if enough = false then .ok (0, m)
    else do
      let m ← m.wait
      match m.pt.findRegion num with
      | none => .error .exit
      | some i => .ok (i * PAGE_SIZE + sizeofAllocHeader, (m.takeRegion i num bytes).post)

/-- `c_dealloc`. The pages to free are those the header names. -/
def cDealloc (m : Memory) (mem : Addr) : Except Stop Memory := do
  let m ← m.wait
  if mem = 0 then .ok m.post
  else
    let h := m.getHeader mem
    let stop := u32 (h.id + h.pageNum)
    if h.id < stop ∧ m.pt.len < stop then .error .outOfBounds
    else
      let pt :=
        { m.pt with
          freePageNum := u32 (m.pt.freePageNum + h.pageNum)
          pages := m.pt.mapRange h.id stop fun p => { p with free := true } }
      .ok { m.post with
        pt := (List.range' h.id (stop - h.id)).foldl PageTable.pushFreeStack pt
        calls := .dealloc mem :: m.calls }

/-- `memcpy` within the pool. For regions that overlap it is not defined. -/
def Memory.memcpy (m : Memory) (dest src : Addr) (n : Nat) : Except Stop Memory :=
  if dest + n ≤ m.size ∧ src + n ≤ m.size ∧ (dest + n ≤ src ∨ src + n ≤ dest) then
    .ok { m with
      pool := fun a => if dest ≤ a ∧ a < dest + n then m.pool (src + (a - dest)) else m.pool a }
  else .error .outOfBounds

/-- `old_size` of `c_realloc`: the usable bytes of the block, by its header. -/
def Memory.oldSize (m : Memory) (currRegion : Addr) : UInt32 :=
  UInt32.ofNat (m.getHeader currRegion).pageNum * UInt32.ofNat PAGE_SIZE
    - UInt32.ofNat sizeofAllocHeader

/-- `c_realloc`. The header of a region is never `NULL`, so that check is not here. -/
def cRealloc (m : Memory) (currRegion : Addr) (bytes : UInt32) : Except Stop (Addr × Memory) :=
  if currRegion = 0 then .ok (0, m)
  else do
    let oldSize := m.oldSize currRegion
    let totalSize := oldSize + bytes
    let (buffer, m) ← cAlloc m totalSize
    if buffer = 0 then .ok (0, m)
    else do
      let m ← m.memcpy buffer currRegion oldSize.toNat
      let m ← cDealloc m currRegion
      .ok (buffer, m)

end ChicOS
