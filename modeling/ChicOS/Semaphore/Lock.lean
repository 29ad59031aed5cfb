-- SUMMARY: The lock of the semaphore list: when its count is one, and that P, V and init_semaphore return it.
import ChicOS.Semaphore.Semaphore
import ChicOS.Memory.Safety

/-!
# The lock of the semaphore list

`semaphoreP` and `semaphoreV` take the lock once and give it back on every path
on which they return, so its count is what it was at the start. Where it starts
is up to the pool: `init_semaphore_list` stores nothing in the `sem_t`, which
lies in the first block ever handed out, 792 bytes into the pool.
-/

namespace ChicOS

/-- A call of `init_semaphore`, `semaphoreP` or `semaphoreV`. -/
inductive SemCall where
  | init (name : UInt8) (value : UInt32)
  | p (i : Fin MAX_SIZE_SEMAPHORES) (pid : UInt32)
  | v (i : Fin MAX_SIZE_SEMAPHORES)

def App.semCall (app : App) : SemCall → Except Stop App
  | .init name value => do
    let (_, st) ← initSemaphore app.toStore name value
    .ok { app with toStore := st }
  | .p i pid => semaphoreP app (some i) pid
  | .v i => semaphoreV app (some i)

/-- The call is on a listed semaphore, and on a live pid. -/
def App.SemLegal (app : App) : SemCall → Prop
  | .init _ _ => True
  | .p i pid =>
    i.val < app.semaphores.last ∧
      ∃ k : Fin MAX_PCB, k.val < app.pcb.last.toNat ∧ (app.pcb.slot k).pid = pid
  | .v i => i.val < app.semaphores.last

/-- `init_mem` and `init_semaphore_list`, as `init_app` calls them. -/
def App.initSemaphores (app : App) (pool : Bytes.Mem) (memSize : UInt32) : Except Stop App := do
  let st ← initSemaphoreList { app.toStore with mem := initMem pool memSize }
  .ok { app with toStore := st }

/-- The lock is free, and stays free and available along every run of calls. -/
structure App.MutexKept (app : App) : Prop where
  one : app.semaphores.mutex = 1
  returned : ∀ cs app', Run.Meets App.semCall App.SemLegal app cs →
    Run.run App.semCall app cs = .ok app' → app'.semaphores.mutex = 1
  noHang : ∀ cs, Run.Meets App.semCall App.SemLegal app cs →
    Run.run App.semCall app cs ≠ .error (.hang .mutex)

/-! ## Where the count starts -/

/-- The first block handed out starts at the first page. -/
theorem initMem_findRegion {pool : Bytes.Mem} {memSize : UInt32}
    (hlen : 0 < (initMem pool memSize).pt.len) :
    (initMem pool memSize).pt.findRegion 1 = some 0 := by
  obtain ⟨n, hn⟩ := Nat.exists_eq_succ_of_ne_zero (Nat.pos_iff_ne_zero.mp hlen)
  simp only [initMem] at hn
  simp [PageTable.findRegion, PageTable.regionFree, initMem, hn, List.range_succ_eq_map,
    List.replicate_succ]

/-- In a pool with no page `second_chance` reads past the table. -/
theorem initMem_cAlloc_zero {pool : Bytes.Mem} {memSize : UInt32} {r : Addr × Memory}
    (hlen : (initMem pool memSize).pt.len = 0)
    (h : cAlloc (initMem pool memSize) sizeofSemaphoreList = .ok r) : r.1 = 0 := by
  have hpages : (initMem pool memSize).pt.pages = [] := by
    have := (initMem_inv pool memSize).length
    rw [hlen] at this
    exact List.length_eq_zero_iff.mp this
  have hnum : (initMem pool memSize).pt.freePageNum = 0 := hlen
  obtain ⟨p, m'⟩ := r
  show p = 0
  cases cAlloc_eq_ok h with
  | refused | exhausted => rfl
  | served hbytes hsize hrepl hlock hfind =>
      rcases replacePages_cases hrepl with ⟨hle, -⟩ | ⟨-, v, m₁, hsc, -⟩
      · rw [hnum] at hle
        exact absurd hle (by decide)
      · obtain ⟨m₂, hwait, hloop⟩ := Except.bind_eq_ok.mp hsc
        obtain ⟨n, -, rfl⟩ := Memory.wait_eq_ok.mp hwait
        simp [secondChanceLoop, hpages] at hloop

/-- The list is the first block of the pool, and only its header has been written
to the pool before. -/
theorem initSemaphores_mutex {app app' : App} {pool : Bytes.Mem} {memSize : UInt32}
    (h : app.initSemaphores pool memSize = .ok app') :
    app'.semaphores.mutex = Bytes.loadLE pool 792 4 := by
  obtain ⟨st, hlist, hok⟩ := Except.bind_eq_ok.mp h
  cases hok
  obtain ⟨⟨p, mem⟩, halloc, hst⟩ := Except.bind_eq_ok.mp hlist
  dsimp only at halloc hst
  split at hst
  · cases hst
  rename_i hp
  cases hst
  have hlen : 0 < (initMem pool memSize).pt.len := by
    by_contra hzero
    exact hp (initMem_cAlloc_zero (by omega) halloc)
  have hone : numPages sizeofSemaphoreList = 1 := by decide
  have hrep : ¬ (initMem pool memSize).Replaces sizeofSemaphoreList := by
    rintro ⟨-, -, hlt, -⟩
    rw [hone] at hlt
    exact absurd hlt (Nat.not_lt.mpr hlen)
  have hno := cAlloc_noReplacement (initMem_inv pool memSize).length hrep
    (initMem_noReplacement pool memSize) halloc
  rcases cAlloc_cases hno halloc with ⟨hnull, -⟩ | ⟨i, hi, -, hptr, hmem⟩
  · exact absurd hnull hp
  rw [hone, initMem_findRegion hlen] at hi
  cases hi
  have hpool : mem.pool = storeHeader pool 0 { id := 0, pageNum := 1 } := by
    rw [hmem, hone]
    rfl
  show Bytes.loadLE mem.pool (p + 784) 4 = _
  rw [hpool, hptr, storeHeader, Bytes.loadLE_storeLE_of_disjoint (by decide),
    Bytes.loadLE_storeLE_of_disjoint (by decide)]
  rfl

/-! ## The allocator takes another lock -/

theorem wait_ne_hang {m : Memory} {l : Lock} (hl : l ≠ .memoryS) : m.wait ≠ .error (.hang l) := by
  intro h
  rcases Except.bind_eq_error.mp h with h | ⟨n, -, h⟩
  · obtain ⟨-, he⟩ := semWait_eq_error.mp h
    cases he
    exact hl rfl
  · cases h

theorem secondChanceLoop_ne_hang {i fuel curr : Nat} {m : Memory} {l : Lock} :
    secondChanceLoop i fuel curr m ≠ .error (.hang l) := by
  induction fuel generalizing curr m with
  | zero => simp [secondChanceLoop]
  | succ fuel ih =>
      simp only [secondChanceLoop]
      split
      · simp
      · split
        · simp
        · split
          · exact ih
          · simp

theorem replacePages_ne_hang {num fuel : Nat} {m : Memory} {l : Lock} (hl : l ≠ .memoryS) :
    replacePages num fuel m ≠ .error (.hang l) := by
  induction fuel generalizing m with
  | zero => simp [replacePages]
  | succ fuel ih =>
      rw [replacePages]
      split
      · simp
      intro h
      rcases Except.bind_eq_error.mp h with hsc | ⟨⟨v, m₁⟩, -, h⟩
      · rcases Except.bind_eq_error.mp hsc with hwait | ⟨m₂, -, hloop⟩
        · exact wait_ne_hang hl hwait
        · exact secondChanceLoop_ne_hang hloop
      · dsimp only at h
        split at h
        · cases h
        · rcases Except.bind_eq_error.mp h with hfree | ⟨m₂, -, hrest⟩
          · rcases Except.bind_eq_error.mp hfree with hwait | ⟨m₃, -, hpage⟩
            · exact wait_ne_hang hl hwait
            · split at hpage <;> cases hpage
          · exact ih hrest

theorem cAlloc_ne_hang {m : Memory} {bytes : UInt32} {l : Lock} (hl : l ≠ .memoryS) :
    cAlloc m bytes ≠ .error (.hang l) := by
  unfold cAlloc
  split
  · simp
  split
  · simp
  intro h
  rcases Except.bind_eq_error.mp h with hrepl | ⟨⟨enough, m₁⟩, -, h⟩
  · exact replacePages_ne_hang hl hrepl
  dsimp only at h
  split at h
  · cases h
  rcases Except.bind_eq_error.mp h with hwait | ⟨m₂, -, h⟩
  · exact wait_ne_hang hl hwait
  · split at h <;> cases h

/-! ## Every call gives it back -/

theorem initSemaphore_mutex {st st' : Store} {name : UInt8} {value : UInt32} {r : Int}
    (h : initSemaphore st name value = .ok (r, st')) :
    st'.semaphores.mutex = st.semaphores.mutex := by
  unfold initSemaphore at h
  split at h
  · cases h; rfl
  split at h
  · obtain ⟨⟨p, mem⟩, -, h⟩ := Except.bind_eq_ok.mp h
    dsimp only at h
    split at h
    · cases h
    obtain ⟨⟨w, mem'⟩, -, h⟩ := Except.bind_eq_ok.mp h
    cases h
    rfl
  · cases h; rfl

theorem semCall_mutex {app app' : App} {c : SemCall} (h : app.semCall c = .ok app') :
    app'.semaphores.mutex = app.semaphores.mutex := by
  cases c with
  | init name value =>
      obtain ⟨⟨r, st⟩, hinit, hok⟩ := Except.bind_eq_ok.mp h
      cases hok
      have hmutex := initSemaphore_mutex hinit
      exact hmutex
  | p i pid =>
      rcases semaphoreP_eq_ok h with ⟨-, rfl⟩ | ⟨-, sem, k, -, -, rfl⟩
      · rfl
      · rfl
  | v i =>
      rcases semaphoreV_eq_ok h with ⟨-, rfl⟩ | ⟨-, pid, sem, k, -, -, rfl⟩
      · rfl
      · rfl

theorem pUpdate_ne_hang {app : App} {pid : UInt32} {f : Process → Process} {l : Lock}
    (hl : l ≠ .pcbS) : pUpdate app pid f ≠ .error (.hang l) := by
  have hwait : ∀ {n : Nat}, semWait .pcbS n ≠ .error (.hang l) := by
    intro n h
    cases (semWait_eq_error.mp h).2
    exact hl rfl
  intro h
  unfold pUpdate at h
  split at h
  · rcases Except.bind_eq_error.mp h with h | ⟨n, -, h⟩
    · exact hwait h
    · cases h
  · rcases Except.bind_eq_error.mp h with h | ⟨n, -, h⟩
    · exact hwait h
    · cases h

theorem initSemaphore_ne_hang {st : Store} {name : UInt8} {value : UInt32} {l : Lock}
    (hl : l ≠ .memoryS) : initSemaphore st name value ≠ .error (.hang l) := by
  intro h
  unfold initSemaphore at h
  split at h
  · cases h
  split at h
  · rcases Except.bind_eq_error.mp h with h | ⟨⟨p, mem⟩, -, h⟩
    · exact cAlloc_ne_hang hl h
    dsimp only at h
    split at h
    · cases h
    rcases Except.bind_eq_error.mp h with h | ⟨⟨w, mem'⟩, -, h⟩
    · exact cAlloc_ne_hang hl h
    · cases h
  · cases h

/-- The only wait on the lock of the list is the first step of P and of V. -/
theorem inMutex_ne_hang {app : App} {f : App → Except Stop App} (h : app.semaphores.mutex ≠ 0)
    (hf : ∀ app, f app ≠ .error (.hang .mutex)) : app.inMutex f ≠ .error (.hang .mutex) := by
  intro herr
  rcases Except.bind_eq_error.mp herr with hwait | ⟨n, -, herr⟩
  · exact h (semWait_eq_error.mp hwait).1
  · rcases Except.bind_eq_error.mp herr with herr | ⟨app₁, -, herr⟩
    · exact hf _ herr
    · cases herr

theorem semCall_noHang {app : App} {c : SemCall} (h : app.semaphores.mutex ≠ 0) :
    app.semCall c ≠ .error (.hang .mutex) := by
  cases c with
  | init name value =>
      intro herr
      rcases Except.bind_eq_error.mp herr with herr | ⟨r, -, herr⟩
      · exact initSemaphore_ne_hang (by decide) herr
      · cases herr
  | p i pid =>
      unfold App.semCall semaphoreP
      refine inMutex_ne_hang h fun app herr => ?_
      dsimp only at herr
      split at herr
      · rcases Except.bind_eq_error.mp herr with hpush | ⟨sem, -, herr⟩
        · unfold waiterPush at hpush
          split at hpush
          · cases hpush
          · split at hpush <;> cases hpush
        · exact pUpdate_ne_hang (by decide) herr
      · cases herr
  | v i =>
      unfold App.semCall semaphoreV
      refine inMutex_ne_hang h fun app herr => ?_
      dsimp only at herr
      split at herr
      · rcases Except.bind_eq_error.mp herr with hpop | ⟨⟨pid, sem⟩, -, herr⟩
        · unfold waiterPop at hpop
          split at hpop
          · cases hpop
          · split at hpop <;> cases hpop
        · exact pUpdate_ne_hang (by decide) herr
      · cases herr

theorem semCall_run_mutex {app app' : App} {cs : List SemCall} (h : app.semaphores.mutex = 1)
    (hrun : Run.run App.semCall app cs = .ok app') : app'.semaphores.mutex = 1 :=
  Run.run_preserves (fun app => app.semaphores.mutex = 1)
    (fun hone hstep => (semCall_mutex hstep).trans hone) h hrun

theorem semCall_run_noHang {app : App} {cs : List SemCall} (h : app.semaphores.mutex = 1) :
    Run.run App.semCall app cs ≠ .error (.hang .mutex) := by
  induction cs generalizing app with
  | nil => simp
  | cons c cs ih =>
      intro herr
      rw [Run.run_cons] at herr
      rcases Except.bind_eq_error.mp herr with herr | ⟨app₁, hstep, herr⟩
      · exact semCall_noHang (by omega) herr
      · exact ih ((semCall_mutex hstep).trans h) herr

/-! ## When the lock works -/

/-- The lock works, from `init_semaphore_list` on and along every run of calls,
exactly when the pool came with a one in the word the count lies in. -/
theorem mutexKept_iff (app : App) (pool : Bytes.Mem) (memSize : UInt32) {app' : App}
    (h : app.initSemaphores pool memSize = .ok app') :
    app'.MutexKept ↔ Bytes.loadLE pool 792 4 = 1 := by
  rw [← initSemaphores_mutex h]
  constructor
  · intro hkept
    exact hkept.one
  · intro hone
    exact ⟨hone, fun cs _ _ hrun => semCall_run_mutex hone hrun,
      fun cs _ => semCall_run_noHang hone⟩

theorem mutexKept_one_at_792 :
    ∃ app, (App.zero Heap.zero fun _ => none).initSemaphores
      (fun a => if a = 792 then 1 else 0) 1024 = .ok app ∧ app.MutexKept :=
  ⟨_, rfl, (mutexKept_iff (App.zero Heap.zero fun _ => none)
    (fun a => if a = 792 then 1 else 0) 1024 rfl).mpr (by decide)⟩

/-- In a pool of zero bytes the count starts at zero, and the first P waits for
ever. -/
theorem mutex_not_always_kept :
    ¬ ∀ (app app' : App) (pool : Bytes.Mem) (memSize : UInt32),
      app.initSemaphores pool memSize = .ok app' → app'.MutexKept := by
  intro h
  have hkept := h (App.zero Heap.zero fun _ => none) _ (fun _ => 0) 1024 rfl
  exact absurd hkept.one (by decide)

end ChicOS
