-- SUMMARY: The semaphores as bytes of the pool: semaphore.c on them, and the values they hold.
import ChicOS.Lib.Buffer
import ChicOS.Semaphore.Waiters

/-!
# Semaphores in the pool

The list of semaphores is a block of the pool, and each ring of waiters another: what is
stored through one pointer is stored in those bytes, whoever else has them. Here the
functions of `semaphore.c` work on the bytes, with 24 of them for a `semaphore` and 816 for
the list.

`listAt` reads a list of semaphores, as a value, off the bytes. As long as the blocks of
the list and of the rings lie apart, a `semaphoreP` and a `semaphoreV` on the bytes do to
that value what they do to a list kept by value (`semaphoreP_view`, `semaphoreV_view`).
-/

namespace ChicOS

-- ---------------------------------------------------------------------------
-- Fields
-- ---------------------------------------------------------------------------

namespace Memory

def setByte (m : Memory) (a : Nat) (b : UInt8) : Memory :=
  { m with pool := Function.update m.pool a b }

/-- Store the low `n` bytes of a number. -/
def setWord (m : Memory) (a v n : Nat) : Memory := { m with pool := Bytes.storeLE m.pool a v n }

/-! ## A semaphore -/

def semId (m : Memory) (s : Nat) : UInt16 := UInt16.ofNat (Bytes.loadLE m.pool s 2)
def semName (m : Memory) (s : Nat) : UInt8 := m.pool (s + 2)
def semWaiters (m : Memory) (s : Nat) : Nat := Bytes.loadLE m.pool (s + 8) 8
def semTail (m : Memory) (s : Nat) : UInt8 := m.pool (s + 16)
def semHead (m : Memory) (s : Nat) : UInt8 := m.pool (s + 17)
def semValue (m : Memory) (s : Nat) : Int8 := (m.pool (s + 18)).toInt8

/-- The address of `sem->waiters[k]`. -/
def waiter (m : Memory) (sem : Nat) (k : UInt8) : Except Stop Nat :=
  if m.semWaiters sem = 0 then .error .nullDeref
  else if m.size < m.semWaiters sem + 4 * k.toNat + 4 then .error .outOfBounds
  else .ok (m.semWaiters sem + 4 * k.toNat)

/-! ## The list -/

/-- `&list->l[i]`. -/
def semEntry (list i : Nat) : Nat := list + 24 * i

def semMax (m : Memory) (list : Nat) : Nat := Bytes.loadLE m.pool (list + 768) 8
def semLast (m : Memory) (list : Nat) : Nat := Bytes.loadLE m.pool (list + 776) 4
def semMutex (m : Memory) (list : Nat) : Nat := Bytes.loadLE m.pool (list + 784) 4

end Memory

open Memory (semEntry)

/-- What the functions of `semaphore.c` work on: the pool, `app.semaphores`, and the table. -/
structure Pooled where
  mem : Memory
  semaphores : Addr
  pcb : PCB

namespace Pooled

-- ---------------------------------------------------------------------------
-- The functions
-- ---------------------------------------------------------------------------

/-- `waiter_push`. The tail is read again after the store. -/
def waiterPush (m : Memory) (sem : Addr) (pid : UInt32) : Except Stop Memory :=
  if ((m.semTail sem).toNat + 1) % DEFAULT_WAITERS_NUM = (m.semHead sem).toNat then .ok m
  else do
    let cell ← m.waiter sem (m.semTail sem)
    let m := m.setWord cell pid.toNat 4
    .ok (m.setByte (sem + 16) (UInt8.ofNat (((m.semTail sem).toNat + 1) % DEFAULT_WAITERS_NUM)))

/-- `waiter_pop`. -/
def waiterPop (m : Memory) (sem : Addr) : Except Stop (UInt32 × Memory) :=
  if m.semHead sem = m.semTail sem then .ok (0xFFFFFFFF, m)
  else do
    let cell ← m.waiter sem (m.semHead sem)
    let pid := UInt32.ofNat (Bytes.loadLE m.pool cell 4)
    .ok (pid,
      m.setByte (sem + 17) (UInt8.ofNat (((m.semHead sem).toNat + 1) % DEFAULT_WAITERS_NUM)))

/-- `get_waiters_size`. -/
def getWaitersSize (m : Memory) (sem : Addr) : UInt32 :=
  UInt32.ofInt (Int.tmod ((m.semTail sem).toNat + DEFAULT_WAITERS_NUM - (m.semHead sem).toNat)
    DEFAULT_WAITERS_NUM)

/-- A section between `sem_wait` and `sem_post` on the lock of the list. -/
def inMutex (s : Pooled) (f : Pooled → Except Stop Pooled) : Except Stop Pooled := do
  let n ← semWait .mutex (s.mem.semMutex s.semaphores)
  let s ← f { s with mem := s.mem.setWord (s.semaphores + 784) n 4 }
  .ok { s with
    mem := s.mem.setWord (s.semaphores + 784) (s.mem.semMutex s.semaphores + 1) 4 }

/-- Find a process and change it under the table's lock. -/
def pUpdate (s : Pooled) (pid : UInt32) (f : Process → Process) : Except Stop Pooled :=
  match s.pcb.find pid with
  | none => do
    let _ ← semWait .pcbS s.pcb.pcbS
    .error .nullDeref
  | some k => do
    let n ← semWait .pcbS s.pcb.pcbS
    let pcb := { s.pcb with pcbS := n }.modify k f
    .ok { s with pcb := { pcb with pcbS := pcb.pcbS + 1 } }

/-- `semaphoreP`. -/
def semaphoreP (s : Pooled) (sem : Addr) (pid : UInt32) : Except Stop Pooled :=
  if sem = 0 then .ok s
  else s.inMutex fun s => do
    let m := s.mem.setByte (sem + 18) (s.mem.semValue sem - 1).toUInt8
    if m.semValue sem < 0 then do
      let m ← waiterPush m sem pid
      { s with mem := m }.pUpdate pid fun p => { p with status := .waiting, timeToRun := 0 }
    else .ok { s with mem := m }

/-- `semaphoreV`. -/
def semaphoreV (s : Pooled) (sem : Addr) : Except Stop Pooled :=
  if sem = 0 then .ok s
  else s.inMutex fun s => do
    let m := s.mem.setByte (sem + 18) (s.mem.semValue sem + 1).toUInt8
    if 0 < getWaitersSize m sem then do
      let (wakingPid, m) ← waiterPop m sem
      { s with mem := m }.pUpdate wakingPid fun p => { p with status := .ready }
    else .ok { s with mem := m }

/-- `init_semaphore_list`, on a pool whose table of processes is there. -/
def initSemaphoreList (m : Memory) (pcb : PCB) : Except Stop Pooled := do
  let (list, m) ← cAlloc m sizeofSemaphoreList
  if list = 0 then .error .exit
  else
    let m := m.setWord (list + 776) 0 4
    let m := (List.range MAX_SIZE_SEMAPHORES).foldl (fun m i =>
      ((m.setWord (semEntry list i) 0 2).setByte (semEntry list i + 2) 0).setWord
        (semEntry list i + 8) 0 8) m
    .ok { mem := m.setWord (list + 768) 0 8, semaphores := list, pcb := pcb }

/-- `init_semaphore`. The new semaphore is filled in where it was allocated, and its 24
bytes are copied into the list. `last` is an `int`. -/
def initSemaphore (s : Pooled) (name : UInt8) (value : UInt32) : Except Stop (Int × Pooled) :=
  let list := s.semaphores
  if ∃ i < MAX_SIZE_SEMAPHORES, s.mem.semName (semEntry list i) = name then .ok (-1, s)
  else if MAX_SIZE_SEMAPHORES ≤ s.mem.semLast list ∧ s.mem.semLast list < 2 ^ 31 then .ok (-1, s)
  else do
    let (sem, m) ← cAlloc s.mem sizeofSemaphore
    if sem = 0 then .error .nullDeref
    else do
      let m := m.setByte (sem + 2) name
      let m := m.setWord (list + 768) (m.semMax list + 1) 8
      let m := m.setWord sem (m.semMax list) 2
      let (w, m) ← cAlloc m (4 * (UInt32.ofNat DEFAULT_WAITERS_NUM + value))
      let m := m.setWord (sem + 8) w 8
      let m := ((m.setByte (sem + 17) 0).setByte (sem + 16) 0).setByte (sem + 18) value.toUInt8
      let entry : Int := list + 24 * (Int32.ofNat (m.semLast list)).toInt
      if entry < 0 ∨ m.size < entry + 24 then .error .outOfBounds
      else
        let m := { m with pool := Bytes.move m.pool entry.toNat sem 24 }
        .ok (0, { s with mem := m.setWord (list + 776) (m.semLast list + 1) 4 })

/-- What happens before the first call: somebody gets a block, or a semaphore with one unit is
declared. -/
inductive Preparation where
  | alloc (bytes : UInt32)
  | declare (name : UInt8)

end Pooled

-- ---------------------------------------------------------------------------
-- The values in the bytes
-- ---------------------------------------------------------------------------

namespace Memory

/-- The 64 words of a ring. -/
def ringAt (m : Memory) (w : Nat) : Nat → UInt32 := fun k =>
  if k < DEFAULT_WAITERS_NUM then UInt32.ofNat (Bytes.loadLE m.pool (w + 4 * k) 4) else 0

/-- The semaphore at an address, with its ring. -/
def semaphoreAt (m : Memory) (s : Nat) : Semaphore where
  id := m.semId s
  name := m.semName s
  waiters := if m.semWaiters s = 0 then none else some (m.ringAt (m.semWaiters s))
  tail := m.semTail s
  head := m.semHead s
  value := m.semValue s

def listAt (m : Memory) (list : Nat) : SemaphoreList where
  l := Vector.ofFn fun i => m.semaphoreAt (semEntry list i)
  max := UInt64.ofNat (m.semMax list)
  last := m.semLast list
  mutex := m.semMutex list

/-- There is a list, and its bytes and those of the rings that its entries have are apart. -/
structure Apart (m : Memory) (list : Nat) : Prop where
  ne : list ≠ 0
  fromList : ∀ i : Fin MAX_SIZE_SEMAPHORES, m.semWaiters (semEntry list i) ≠ 0 →
    m.semWaiters (semEntry list i) + 256 ≤ list ∨ list + 816 ≤ m.semWaiters (semEntry list i)
  fromRings : ∀ i : Fin MAX_SIZE_SEMAPHORES, m.semWaiters (semEntry list i) ≠ 0 →
    ∀ j : Fin MAX_SIZE_SEMAPHORES, m.semWaiters (semEntry list j) ≠ 0 → i ≠ j →
      m.semWaiters (semEntry list i) + 256 ≤ m.semWaiters (semEntry list j) ∨
        m.semWaiters (semEntry list j) + 256 ≤ m.semWaiters (semEntry list i)

end Memory

theorem setEntry_entry (sl : SemaphoreList) (i : Fin MAX_SIZE_SEMAPHORES) :
    sl.setEntry i (sl.entry i) = sl := by
  simp [SemaphoreList.setEntry, SemaphoreList.entry]

theorem setEntry_setEntry (sl : SemaphoreList) (i : Fin MAX_SIZE_SEMAPHORES)
    (sem sem' : Semaphore) : (sl.setEntry i sem).setEntry i sem' = sl.setEntry i sem' := by
  simp [SemaphoreList.setEntry]

theorem Semaphore.eq_of {s t : Semaphore} (hid : s.id = t.id) (hname : s.name = t.name)
    (hwaiters : s.waiters = t.waiters) (htail : s.tail = t.tail) (hhead : s.head = t.head)
    (hvalue : s.value = t.value) : s = t := by
  cases s
  cases t
  dsimp only at *
  rw [hid, hname, hwaiters, htail, hhead, hvalue]

-- ---------------------------------------------------------------------------
-- Stores and what they leave alone
-- ---------------------------------------------------------------------------

namespace Memory

/-- The `n` bytes from `a` on are the same. -/
def SameAt (m m' : Memory) (a n : Nat) : Prop := ∀ b, a ≤ b → b < a + n → m'.pool b = m.pool b

variable {m m' : Memory} {a v n s list : Nat} {i j : Fin MAX_SIZE_SEMAPHORES}

theorem SameAt.mono {k c : Nat} (h : m.SameAt m' a n) (hlow : a ≤ c) (hhigh : c + k ≤ a + n) :
    m.SameAt m' c k := fun b hb hb' => h b (Nat.le_trans hlow hb) (by omega)

theorem SameAt.load (h : m.SameAt m' a n) : Bytes.loadLE m'.pool a n = Bytes.loadLE m.pool a n :=
  Bytes.loadLE_congr h

theorem setByte_sameAt {b : UInt8} (hout : v < a ∨ a + n ≤ v) : m.SameAt (m.setByte v b) a n := by
  intro c hc hc'
  have hne : c ≠ v := by omega
  exact Function.update_of_ne hne b m.pool

theorem setWord_sameAt {w k : Nat} (hout : w + k ≤ a ∨ a + n ≤ w) :
    m.SameAt (m.setWord w v k) a n :=
  fun c hc hc' => Bytes.storeLE_apply_of_outside (by omega)

@[simp] theorem setByte_self {b : UInt8} : (m.setByte a b).pool a = b := Function.update_self ..

theorem loadLE_lt (pool : Bytes.Mem) (a n : Nat) : Bytes.loadLE pool a n < 256 ^ n := by
  induction n generalizing a with
  | zero => exact Nat.one_pos
  | succ n ih =>
      have hlt := ih (a + 1)
      have hbyte := (pool a).toNat_lt
      rw [Bytes.loadLE, Nat.pow_succ]
      omega

/-- A word that fits is read back. -/
theorem setWord_load (hv : v < 256 ^ n) : Bytes.loadLE (m.setWord a v n).pool a n = v := by
  rw [setWord, Bytes.loadLE_storeLE, Nat.mod_eq_of_lt hv]

/-! ## A semaphore, from its bytes -/

/-- A semaphore is in 19 bytes, apart from its ring. -/
structure SameFields (m m' : Memory) (s : Nat) : Prop where
  id : m'.semId s = m.semId s
  name : m'.semName s = m.semName s
  waiters : m'.semWaiters s = m.semWaiters s

theorem SameAt.fields (h : m.SameAt m' s 16) : m.SameFields m' s where
  id := congrArg UInt16.ofNat (h.mono (Nat.le_refl s) (by omega)).load
  name := h (s + 2) (by omega) (by omega)
  waiters := (h.mono (by omega) (by omega)).load

/-- The words of the ring are the same. -/
def SameRing (m m' : Memory) (s : Nat) : Prop :=
  m.semWaiters s ≠ 0 → m.SameAt m' (m.semWaiters s) 256

@[simp] theorem semaphoreAt_id : (m.semaphoreAt s).id = m.semId s := rfl
@[simp] theorem semaphoreAt_name : (m.semaphoreAt s).name = m.semName s := rfl
@[simp] theorem semaphoreAt_tail : (m.semaphoreAt s).tail = m.semTail s := rfl
@[simp] theorem semaphoreAt_head : (m.semaphoreAt s).head = m.semHead s := rfl
@[simp] theorem semaphoreAt_value : (m.semaphoreAt s).value = m.semValue s := rfl

theorem ringAt_congr {w : Nat} (h : m.SameAt m' w 256) : m'.ringAt w = m.ringAt w := by
  funext k
  unfold ringAt
  split
  · rename_i hk
    unfold DEFAULT_WAITERS_NUM at hk
    rw [(h.mono (by omega) (by omega)).load]
  · rfl

theorem ringAt_setWord {w k : Nat} (hk : k < DEFAULT_WAITERS_NUM) (pid : UInt32) :
    (m.setWord (w + 4 * k) pid.toNat 4).ringAt w = Function.update (m.ringAt w) k pid := by
  funext j
  rw [Function.update_apply, ringAt, ringAt]
  by_cases hjk : j = k
  · subst hjk
    rw [if_pos hk, if_pos rfl, setWord_load pid.toNat_lt, UInt32.ofNat_toNat]
  · rw [if_neg hjk, (setWord_sameAt (by omega)).load]

theorem semaphoreAt_waiters_some (hne : m.semWaiters s ≠ 0) :
    (m.semaphoreAt s).waiters = some (m.ringAt (m.semWaiters s)) := by
  unfold semaphoreAt
  dsimp only
  rw [if_neg hne]

theorem semaphoreAt_waiters (hw : m'.semWaiters s = m.semWaiters s) (hring : m.SameRing m' s) :
    (m'.semaphoreAt s).waiters = (m.semaphoreAt s).waiters := by
  unfold semaphoreAt
  dsimp only
  rw [hw]
  split
  · rfl
  · rename_i hne
    rw [ringAt_congr (hring hne)]

theorem semaphoreAt_eq {sem : Semaphore} (hfields : m.SameFields m' s) (hring : m.SameRing m' s)
    (hid : sem.id = m.semId s) (hname : sem.name = m.semName s)
    (hwaiters : sem.waiters = (m.semaphoreAt s).waiters) (htail : sem.tail = m'.semTail s)
    (hhead : sem.head = m'.semHead s) (hvalue : sem.value = m'.semValue s) :
    m'.semaphoreAt s = sem := by
  have hwaiters' := (semaphoreAt_waiters hfields.waiters hring).trans hwaiters.symm
  exact Semaphore.eq_of (hfields.id.trans hid.symm) (hfields.name.trans hname.symm) hwaiters'
    htail.symm hhead.symm hvalue.symm

theorem semaphoreAt_congr (h : m.SameAt m' s 19) (hring : m.SameRing m' s) :
    m'.semaphoreAt s = m.semaphoreAt s := by
  have htail : m.semTail s = m'.semTail s := (h (s + 16) (by omega) (by omega)).symm
  have hhead : m.semHead s = m'.semHead s := (h (s + 17) (by omega) (by omega)).symm
  have hvalue : m.semValue s = m'.semValue s :=
    congrArg UInt8.toInt8 (h (s + 18) (by omega) (by omega)).symm
  have hfields : m.SameFields m' s := (h.mono (Nat.le_refl s) (by omega)).fields
  exact semaphoreAt_eq hfields hring rfl rfl rfl htail hhead hvalue

/-! ## The list, from its bytes -/

@[simp] theorem listAt_entry : (m.listAt list).entry i = m.semaphoreAt (semEntry list i) := by
  simp [listAt, SemaphoreList.entry]

theorem listAt_eq_of {sl : SemaphoreList}
    (hentries : ∀ j : Fin MAX_SIZE_SEMAPHORES, sl.entry j = m.semaphoreAt (semEntry list j))
    (hmax : sl.max = UInt64.ofNat (m.semMax list)) (hlast : sl.last = m.semLast list)
    (hmutex : sl.mutex = m.semMutex list) : m.listAt list = sl := by
  obtain ⟨l, max, last, mutex⟩ := sl
  dsimp only at hmax hlast hmutex
  subst hmax hlast hmutex
  have hl : Vector.ofFn
      (fun i : Fin MAX_SIZE_SEMAPHORES => m.semaphoreAt (semEntry list i)) = l := by
    refine Vector.ext fun k hk => ?_
    rw [Vector.getElem_ofFn]
    exact (hentries ⟨k, hk⟩).symm
  rw [← hl]
  rfl

/-- From one memory to the other, an entry of the list is all that has changed. -/
structure OnlyEntry (m m' : Memory) (list : Nat) (i : Fin MAX_SIZE_SEMAPHORES) : Prop where
  apart : m'.Apart list
  list : m'.listAt list = (m.listAt list).setEntry i (m'.semaphoreAt (semEntry list i))

theorem Apart.congr (h : m.Apart list) (hsame : ∀ i : Fin MAX_SIZE_SEMAPHORES,
    m'.semWaiters (semEntry list i) = m.semWaiters (semEntry list i)) : m'.Apart list where
  ne := h.ne
  fromList i hi := by
    rw [hsame] at hi ⊢
    exact h.fromList i hi
  fromRings i hi j hj hij := by
    rw [hsame] at hi hj ⊢
    rw [hsame]
    exact h.fromRings i hi j hj hij

theorem OnlyEntry.refl (h : m.Apart list) (i : Fin MAX_SIZE_SEMAPHORES) : m.OnlyEntry m list i := by
  refine ⟨h, ?_⟩
  rw [← listAt_entry]
  exact (setEntry_entry ..).symm

theorem OnlyEntry.trans {m'' : Memory} (h : m.OnlyEntry m' list i) (h' : m'.OnlyEntry m'' list i) :
    m.OnlyEntry m'' list i := by
  refine ⟨h'.apart, ?_⟩
  rw [h'.list, h.list, setEntry_setEntry]

/-- That it is all follows from what is stored outside. -/
theorem OnlyEntry.of_same (h : m.Apart list)
    (hfields : m.SameAt m' (semEntry list i) 16)
    (hothers : ∀ j : Fin MAX_SIZE_SEMAPHORES, j ≠ i → m.SameAt m' (semEntry list j) 19)
    (hrings : ∀ j : Fin MAX_SIZE_SEMAPHORES, j ≠ i → m.SameRing m' (semEntry list j))
    (hrest : m.SameAt m' (list + 768) 20) : m.OnlyEntry m' list i := by
  refine ⟨h.congr fun j => ?_, listAt_eq_of (fun j => ?_) ?_ ?_ ?_⟩
  · by_cases hj : j = i
    · subst hj
      exact hfields.fields.waiters
    · exact ((hothers j hj).mono (Nat.le_refl _) (by omega)).fields.waiters
  · by_cases hj : i = j
    · subst hj
      exact entry_setEntry_self ..
    · rw [entry_setEntry_ne _ _ hj, listAt_entry]
      exact (semaphoreAt_congr (hothers j (Ne.symm hj)) (hrings j (Ne.symm hj))).symm
  · exact congrArg UInt64.ofNat (hrest.mono (Nat.le_refl _) (by omega)).load.symm
  · exact (hrest.mono (by omega) (by omega)).load.symm
  · exact (hrest.mono (by omega) (by omega)).load.symm

/-! ## The lock of the list -/

theorem semMutex_lt (m : Memory) (list : Nat) : m.semMutex list < 2 ^ 32 := loadLE_lt ..

@[simp] theorem listAt_mutex : (m.listAt list).mutex = m.semMutex list := rfl

theorem OnlyEntry.semMutex (h : m.OnlyEntry m' list i) : m'.semMutex list = m.semMutex list :=
  congrArg SemaphoreList.mutex h.list

/-! ## The stores of `semaphore.c` -/

theorem semEntry_le (list : Nat) (i : Fin MAX_SIZE_SEMAPHORES) :
    list ≤ semEntry list i ∧ semEntry list i + 24 ≤ list + 768 := by
  have hi : i.val < 32 := i.isLt
  unfold semEntry
  omega

theorem semEntry_apart (list : Nat) (hij : i ≠ j) :
    semEntry list i + 24 ≤ semEntry list j ∨ semEntry list j + 24 ≤ semEntry list i := by
  have hne : i.val ≠ j.val := fun heq => hij (Fin.ext heq)
  unfold semEntry
  omega

/-- What is stored in the list is in no ring. -/
theorem Apart.sameRing (h : m.Apart list)
    (hout : ∀ b, b < list ∨ list + 816 ≤ b → m'.pool b = m.pool b)
    (i : Fin MAX_SIZE_SEMAPHORES) : m.SameRing m' (semEntry list i) := by
  intro hne b hb hb'
  have hapart := h.fromList i hne
  exact hout b (by omega)

/-- The count of the lock is stored. -/
theorem Apart.setMutex (h : m.Apart list) (hv : v < 2 ^ 32) :
    (m.setWord (list + 784) v 4).Apart list ∧
      (m.setWord (list + 784) v 4).listAt list = { m.listAt list with mutex := v } := by
  have hentry : ∀ j : Fin MAX_SIZE_SEMAPHORES,
      m.SameAt (m.setWord (list + 784) v 4) (semEntry list j) 19 := by
    intro j
    obtain ⟨hle, hle'⟩ := semEntry_le list j
    exact setWord_sameAt (by omega)
  have hrest : m.SameAt (m.setWord (list + 784) v 4) (list + 768) 12 := setWord_sameAt (by omega)
  have hring : ∀ j : Fin MAX_SIZE_SEMAPHORES,
      m.SameRing (m.setWord (list + 784) v 4) (semEntry list j) :=
    h.sameRing fun c hc => Bytes.storeLE_apply_of_outside (by omega)
  refine ⟨h.congr fun j => ((hentry j).mono (Nat.le_refl _) (by omega)).fields.waiters,
    listAt_eq_of (fun j => ?_) ?_ ?_ (setWord_load hv).symm⟩
  · rw [semaphoreAt_congr (hentry j) (hring j)]
    exact listAt_entry
  · exact congrArg UInt64.ofNat (hrest.mono (Nat.le_refl _) (by omega)).load.symm
  · exact (hrest.mono (by omega) (by omega)).load.symm

/-- The tail, the head or the value of an entry is stored. -/
theorem Apart.setByte (h : m.Apart list) (i : Fin MAX_SIZE_SEMAPHORES) {k : Nat} (hlow : 16 ≤ k)
    (hhigh : k < 19) (b : UInt8) : m.OnlyEntry (m.setByte (semEntry list i + k) b) list i := by
  obtain ⟨hle, hle'⟩ := semEntry_le list i
  refine .of_same h (setByte_sameAt (by omega)) (fun j hj => setByte_sameAt ?_) (fun j _ => ?_)
    (setByte_sameAt (by omega))
  · have hapart := semEntry_apart list hj
    omega
  · exact h.sameRing (fun c hc => Function.update_of_ne (by omega) b m.pool) j

theorem Apart.semaphoreAt_setByte (h : m.Apart list) (i : Fin MAX_SIZE_SEMAPHORES) {k : Nat}
    (hlow : 16 ≤ k) (hhigh : k < 19) (b : UInt8) {sem : Semaphore}
    (hid : sem.id = m.semId (semEntry list i)) (hname : sem.name = m.semName (semEntry list i))
    (hwaiters : sem.waiters = (m.semaphoreAt (semEntry list i)).waiters)
    (htail : sem.tail = if k = 16 then b else m.semTail (semEntry list i))
    (hhead : sem.head = if k = 17 then b else m.semHead (semEntry list i))
    (hvalue : sem.value = if k = 18 then b.toInt8 else m.semValue (semEntry list i)) :
    (m.setByte (semEntry list i + k) b).semaphoreAt (semEntry list i) = sem := by
  obtain ⟨hle, hle'⟩ := semEntry_le list i
  have hbyte : ∀ n, (m.setByte (semEntry list i + k) b).pool (semEntry list i + n)
      = if k = n then b else m.pool (semEntry list i + n) := by
    intro n
    show Function.update m.pool (semEntry list i + k) b (semEntry list i + n) = _
    rw [Function.update_apply]
    simp only [Nat.add_left_cancel_iff, eq_comm]
  have hring : m.SameRing (m.setByte (semEntry list i + k) b) (semEntry list i) :=
    h.sameRing (fun c hc => Function.update_of_ne (by omega) b m.pool) i
  refine semaphoreAt_eq (setByte_sameAt (by omega)).fields hring hid hname hwaiters ?_ ?_ ?_
  · exact htail.trans (hbyte 16).symm
  · exact hhead.trans (hbyte 17).symm
  · refine hvalue.trans (.trans ?_ (congrArg UInt8.toInt8 (hbyte 18)).symm)
    split <;> rfl

theorem Apart.semaphoreAt_setTail (h : m.Apart list) (i : Fin MAX_SIZE_SEMAPHORES) (b : UInt8) :
    (m.setByte (semEntry list i + 16) b).semaphoreAt (semEntry list i)
      = { m.semaphoreAt (semEntry list i) with tail := b } :=
  h.semaphoreAt_setByte i (by omega) (by omega) b (by simp) (by simp) (by simp) (by simp) (by simp)
    (by simp)

theorem Apart.semaphoreAt_setHead (h : m.Apart list) (i : Fin MAX_SIZE_SEMAPHORES) (b : UInt8) :
    (m.setByte (semEntry list i + 17) b).semaphoreAt (semEntry list i)
      = { m.semaphoreAt (semEntry list i) with head := b } :=
  h.semaphoreAt_setByte i (by omega) (by omega) b (by simp) (by simp) (by simp) (by simp) (by simp)
    (by simp)

theorem Apart.semaphoreAt_setValue (h : m.Apart list) (i : Fin MAX_SIZE_SEMAPHORES) (v : Int8) :
    (m.setByte (semEntry list i + 18) v.toUInt8).semaphoreAt (semEntry list i)
      = { m.semaphoreAt (semEntry list i) with value := v } :=
  h.semaphoreAt_setByte i (by omega) (by omega) _ (by simp) (by simp) (by simp) (by simp) (by simp)
    (by simp)

/-- A word of the ring of an entry is stored. -/
theorem Apart.setWord (h : m.Apart list) (hne : m.semWaiters (semEntry list i) ≠ 0) {k : Nat}
    (hk : k < DEFAULT_WAITERS_NUM) (pid : UInt32) :
    m.OnlyEntry (m.setWord (m.semWaiters (semEntry list i) + 4 * k) pid.toNat 4) list i ∧
      m.SameAt (m.setWord (m.semWaiters (semEntry list i) + 4 * k) pid.toNat 4)
        (semEntry list i) 24 := by
  unfold DEFAULT_WAITERS_NUM at hk
  have hlist := h.fromList i hne
  have hentry : ∀ j : Fin MAX_SIZE_SEMAPHORES, m.SameAt
      (m.setWord (m.semWaiters (semEntry list i) + 4 * k) pid.toNat 4) (semEntry list j) 24 := by
    intro j
    obtain ⟨hle, hle'⟩ := semEntry_le list j
    exact setWord_sameAt (by omega)
  refine ⟨.of_same h ((hentry i).mono (Nat.le_refl _) (by omega))
    (fun j _ => (hentry j).mono (Nat.le_refl _) (by omega)) (fun j hj hnej => ?_)
    (setWord_sameAt (by omega)), hentry i⟩
  have hrings := h.fromRings i hne j hnej (Ne.symm hj)
  exact setWord_sameAt (by omega)

end Memory

end ChicOS
