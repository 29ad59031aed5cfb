-- SUMMARY: The semaphores of semaphore.c: the waiter ring, P and V, and the semaphore list.
import ChicOS.Process.Table
import ChicOS.Lib.Ring

/-!
# Semaphores

`semaphoreP` and `semaphoreV` lower and raise the counter of a listed semaphore
under the lock of the list; a process that finds no unit queues its pid in the
semaphore's ring of waiters and stops being runnable. `init_semaphore_list`
allocates the list and stores some of its fields: the lock and the unused
entries' counters keep whatever bytes the pool held.
-/

namespace ChicOS

/-! ## The ring of waiters -/

/-- `waiter_push`, into a ring that no other block shares. A full ring drops the pid. -/
def waiterPush (sem : Semaphore) (pid : UInt32) : Except Stop Semaphore :=
  if (sem.tail.toNat + 1) % DEFAULT_WAITERS_NUM = sem.head.toNat then .ok sem
  else
    match sem.waiters with
    | none => .error .nullDeref
    | some w =>
      .ok { sem with
        waiters := some (Function.update w sem.tail.toNat pid)
        tail := UInt8.ofNat ((sem.tail.toNat + 1) % DEFAULT_WAITERS_NUM) }

/-- `waiter_pop`. An empty ring gives `(u32)-1`. -/
def waiterPop (sem : Semaphore) : Except Stop (UInt32 × Semaphore) :=
  if sem.head = sem.tail then .ok (0xFFFFFFFF, sem)
  else
    match sem.waiters with
    | none => .error .nullDeref
    | some w =>
      .ok (w sem.head.toNat,
        { sem with head := UInt8.ofNat ((sem.head.toNat + 1) % DEFAULT_WAITERS_NUM) })

/-- `get_waiters_size`, computed in `int` and returned as `u32`. -/
def getWaitersSize (sem : Semaphore) : UInt32 :=
  UInt32.ofInt (Int.tmod (sem.tail.toNat + DEFAULT_WAITERS_NUM - sem.head.toNat)
    DEFAULT_WAITERS_NUM)

/-! ## P and V -/

/-- An entry of the list. -/
def SemaphoreList.entry (sl : SemaphoreList) (i : Fin MAX_SIZE_SEMAPHORES) : Semaphore := sl.l[i]

/-- The list with an entry replaced. -/
def SemaphoreList.setEntry (sl : SemaphoreList) (i : Fin MAX_SIZE_SEMAPHORES) (sem : Semaphore) :
    SemaphoreList := { sl with l := sl.l.set i sem }

/-- Replace a listed semaphore. -/
def App.setSem (app : App) (i : Fin MAX_SIZE_SEMAPHORES) (sem : Semaphore) : App :=
  { app with semaphores := app.semaphores.setEntry i sem }

/-- A section between `sem_wait` and `sem_post` on the lock of the list. -/
def App.inMutex (app : App) (f : App → Except Stop App) : Except Stop App := do
  let n ← semWait .mutex app.semaphores.mutex
  let app ← f { app with semaphores.mutex := n }
  .ok { app with semaphores.mutex := app.semaphores.mutex + 1 }

/-- `semaphoreP`, on a semaphore of the list or on `NULL`. -/
def semaphoreP (app : App) (s : Option (Fin MAX_SIZE_SEMAPHORES)) (pid : UInt32) :
    Except Stop App :=
  match s with
  | none => .ok app
  | some i => app.inMutex fun app => do
    let sem := (app.semaphores.entry i)
    let sem := { sem with value := sem.value - 1 }
    if sem.value < 0 then do
      let sem ← waiterPush sem pid
      pUpdate (app.setSem i sem) pid fun p => { p with status := .waiting, timeToRun := 0 }
    else .ok (app.setSem i sem)

/-- `semaphoreV`, on a semaphore of the list or on `NULL`. -/
def semaphoreV (app : App) (s : Option (Fin MAX_SIZE_SEMAPHORES)) : Except Stop App :=
  match s with
  | none => .ok app
  | some i => app.inMutex fun app => do
    let sem := (app.semaphores.entry i)
    let sem := { sem with value := sem.value + 1 }
    if 0 < getWaitersSize sem then do
      let (wakingPid, sem) ← waiterPop sem
      pUpdate (app.setSem i sem) wakingPid fun p => { p with status := .ready }
    else .ok (app.setSem i sem)

/-! ## The list -/

/-- `init_semaphore_list`. The fields it does not store are read from the pool at
the offsets of the C layout: 24 bytes an entry, then `max`, `last` and, at 784,
the count of the `sem_t`. -/
def initSemaphoreList (st : Store) : Except Stop Store := do
  let (p, mem) ← cAlloc st.mem sizeofSemaphoreList
  if p = 0 then .error .exit
  else
    .ok { st with
      mem := mem
      semaphores :=
        { l := Vector.ofFn fun i =>
            { id := 0
              name := 0
              waiters := none
              tail := mem.pool (p + 24 * i + 16)
              head := mem.pool (p + 24 * i + 17)
              value := (mem.pool (p + 24 * i + 18)).toInt8 }
          max := 0
          last := 0
          mutex := Bytes.loadLE mem.pool (p + 784) 4 } }

/-- `init_semaphore`. The result is `-1` when the name is taken or the list is
full. The block of `sem` is only written, and copied into the list: a fresh block
is nobody's, so its bytes are left out. -/
def initSemaphore (st : Store) (name : UInt8) (value : UInt32) : Except Stop (Int × Store) :=
  if ∃ i : Fin MAX_SIZE_SEMAPHORES, (st.semaphores.entry i).name = name then .ok (-1, st)
  else if h : st.semaphores.last < MAX_SIZE_SEMAPHORES then do
    let (p, mem) ← cAlloc st.mem sizeofSemaphore
    if p = 0 then .error .nullDeref
    else do
      let max := st.semaphores.max + 1
      let (w, mem) ← cAlloc mem (4 * (UInt32.ofNat DEFAULT_WAITERS_NUM + value))
      let sem : Semaphore :=
        { id := max.toUInt16
          name := name
          waiters :=
            if w = 0 then none
            else some fun k => UInt32.ofNat (Bytes.loadLE mem.pool (w + 4 * k) 4)
          tail := 0
          head := 0
          value := value.toUInt8.toInt8 }
      .ok (0, { st with
        mem := mem
        semaphores :=
          { st.semaphores with
            l := st.semaphores.l.set st.semaphores.last sem
            max := max
            last := st.semaphores.last + 1 } })
  else .ok (-1, st)

/-- `get_semaphore_by_name`: the first entry with the name. -/
def getSemaphoreByName (app : App) (name : UInt8) : Option (Fin MAX_SIZE_SEMAPHORES) :=
  (List.finRange MAX_SIZE_SEMAPHORES).find? fun i => (app.semaphores.entry i).name = name

/-! ## What the ring leaves alone -/

theorem waiterPush_same {sem sem' : Semaphore} {pid : UInt32} (h : waiterPush sem pid = .ok sem') :
    sem'.name = sem.name ∧ sem'.id = sem.id := by
  unfold waiterPush at h
  split at h
  · cases h
    exact ⟨rfl, rfl⟩
  · split at h
    · cases h
    · cases h
      exact ⟨rfl, rfl⟩

theorem waiterPop_same {sem sem' : Semaphore} {pid : UInt32} (h : waiterPop sem = .ok (pid, sem')) :
    sem'.name = sem.name ∧ sem'.id = sem.id := by
  unfold waiterPop at h
  split at h
  · cases h
    exact ⟨rfl, rfl⟩
  · split at h
    · cases h
    · cases h
      exact ⟨rfl, rfl⟩

/-! ## What P and V change -/

@[simp] theorem setSem_pcb (app : App) (i sem) : (app.setSem i sem).pcb = app.pcb := rfl

@[simp] theorem entry_setEntry_self (sl : SemaphoreList) (i : Fin MAX_SIZE_SEMAPHORES)
    (sem : Semaphore) : (sl.setEntry i sem).entry i = sem := by
  simp [SemaphoreList.setEntry, SemaphoreList.entry]

theorem entry_setEntry_ne (sl : SemaphoreList) {i j : Fin MAX_SIZE_SEMAPHORES} (sem : Semaphore)
    (h : i ≠ j) : (sl.setEntry i sem).entry j = sl.entry j := by
  have hij : i.val ≠ j.val := fun hv => h (Fin.ext hv)
  simp [SemaphoreList.setEntry, SemaphoreList.entry, hij]

@[simp] theorem setSem_get (app : App) (i : Fin MAX_SIZE_SEMAPHORES) (sem : Semaphore) :
    ((app.setSem i sem).semaphores.entry i) = sem := entry_setEntry_self ..

/-- A P that returns took a unit, or queued its caller and set it waiting. -/
theorem semaphoreP_eq_ok {app app' : App} {i : Fin MAX_SIZE_SEMAPHORES} {pid : UInt32}
    (h : semaphoreP app (some i) pid = .ok app') :
    (¬ (app.semaphores.entry i).value - 1 < 0 ∧
      app' = app.setSem i { (app.semaphores.entry i) with value := (app.semaphores.entry i).value - 1 }) ∨
    ((app.semaphores.entry i).value - 1 < 0 ∧ ∃ sem k,
      waiterPush { (app.semaphores.entry i) with value := (app.semaphores.entry i).value - 1 } pid
        = .ok sem ∧
      pFind app pid = some k ∧
      app' = { app.setSem i sem with
        pcb := app.pcb.modify k fun p => { p with status := .waiting, timeToRun := 0 } }) := by
  obtain ⟨n, hn, h⟩ := Except.bind_eq_ok.mp h
  have hn := semWait_eq_ok.mp hn
  obtain ⟨app₁, hf, hok⟩ := Except.bind_eq_ok.mp h
  cases hok
  dsimp only at hf
  split at hf
  · rename_i hneg
    obtain ⟨sem, hpush, hf⟩ := Except.bind_eq_ok.mp hf
    obtain ⟨k, hk, -, rfl⟩ := pUpdate_eq_ok hf
    refine .inr ⟨hneg, sem, k, hpush, hk, ?_⟩
    simp [App.setSem, SemaphoreList.setEntry, hn]
  · rename_i hneg
    cases hf
    refine .inl ⟨hneg, ?_⟩
    simp [App.setSem, SemaphoreList.setEntry, SemaphoreList.entry, hn]

/-- A V that returns gave a unit, or handed it to the oldest waiter. -/
theorem semaphoreV_eq_ok {app app' : App} {i : Fin MAX_SIZE_SEMAPHORES}
    (h : semaphoreV app (some i) = .ok app') :
    (¬ 0 < getWaitersSize (app.semaphores.entry i) ∧
      app' = app.setSem i { (app.semaphores.entry i) with value := (app.semaphores.entry i).value + 1 }) ∨
    (0 < getWaitersSize (app.semaphores.entry i) ∧ ∃ pid sem k,
      waiterPop { (app.semaphores.entry i) with value := (app.semaphores.entry i).value + 1 }
        = .ok (pid, sem) ∧
      pFind app pid = some k ∧
      app' = { app.setSem i sem with
        pcb := app.pcb.modify k fun p => { p with status := .ready } }) := by
  obtain ⟨n, hn, h⟩ := Except.bind_eq_ok.mp h
  have hn := semWait_eq_ok.mp hn
  obtain ⟨app₁, hf, hok⟩ := Except.bind_eq_ok.mp h
  cases hok
  dsimp only at hf
  split at hf
  · rename_i hpos
    obtain ⟨⟨pid, sem⟩, hpop, hf⟩ := Except.bind_eq_ok.mp hf
    obtain ⟨k, hk, -, rfl⟩ := pUpdate_eq_ok hf
    refine .inr ⟨hpos, pid, sem, k, hpop, hk, ?_⟩
    simp [App.setSem, SemaphoreList.setEntry, hn]
  · rename_i hpos
    cases hf
    refine .inl ⟨hpos, ?_⟩
    simp [App.setSem, SemaphoreList.setEntry, SemaphoreList.entry, hn]

/-- P leaves the memory as it is, and so does V. -/
theorem semaphoreP_mem {app app' : App} {s : Option (Fin MAX_SIZE_SEMAPHORES)} {pid : UInt32}
    (h : semaphoreP app s pid = .ok app') : app'.mem = app.mem := by
  cases s with
  | none => cases h; rfl
  | some i => rcases semaphoreP_eq_ok h with ⟨-, rfl⟩ | ⟨-, sem, k, -, -, rfl⟩ <;> rfl

theorem semaphoreV_mem {app app' : App} {s : Option (Fin MAX_SIZE_SEMAPHORES)}
    (h : semaphoreV app s = .ok app') : app'.mem = app.mem := by
  cases s with
  | none => cases h; rfl
  | some i => rcases semaphoreV_eq_ok h with ⟨-, rfl⟩ | ⟨-, pid, sem, k, -, -, rfl⟩ <;> rfl

end ChicOS
