-- SUMMARY: Creations that fail: what p_create and log_process do when the table is full or the file missing.
import ChicOS.Process.Loading

/-!
# Failed creations

`p_create` tells its caller that it has failed by the pid `-1`, which it returns for a
full table only. The handler passes every pid on to `log_process`, which warns when the
process it has found carries the pid 0, and has found none for `-1`: then it looks at a
local that was never set. A missing file is noticed by `open_file`, whose `NULL` nobody
looks at before `init_code_section` reads a field of it.
-/

namespace ChicOS

/-- There is no slot left, or the host cannot open the file. -/
def App.CannotCreate (app : App) (path : List UInt8) : Prop :=
  MAX_PCB - 1 ≤ app.pcb.curr.toNat ∨ app.fs path = none

/-- The table with its counters, the list of semaphores and the pages handed out. -/
structure App.LeftAlone (app app' : App) : Prop where
  pcb : app'.pcb = app.pcb
  semaphores : app'.semaphores = app.semaphores
  pages : app'.mem.freePages = app.mem.freePages

/-- `log_process` warns: it has found a process, and that has the pid 0. -/
def App.LogWarns (app : App) (pid : UInt32) : Prop :=
  ∃ k, pFind app pid = some k ∧ (app.pcb.slot k).pid = 0

/-- What a creation that fails is to do. -/
def App.FailsCleanly (app : App) (path : List UInt8) : Prop :=
  ∃ app', pCreate app path = .ok (0xFFFFFFFF, app') ∧ app'.LogWarns 0xFFFFFFFF ∧
    app.LeftAlone app'

/-! ## The pid after a failure -/

theorem logWarns_iff {app : App} {pid : UInt32} :
    app.LogWarns pid ↔ pid = 0 ∧ logProcess app pid = .ok () := by
  unfold App.LogWarns logProcess
  cases hfind : pFind app pid with
  | none =>
      refine iff_of_false ?_ fun h => ?_
      · rintro ⟨k, hk, -⟩
        cases hk
      · cases h.2
  | some k =>
      have hpid : (app.pcb.slot k).pid = pid := PCB.find_eq_some hfind
      constructor
      · rintro ⟨k', hk', hzero⟩
        cases hk'
        rw [hpid] at hzero
        exact ⟨hzero, if_pos hzero⟩
      · rintro ⟨hzero, -⟩
        exact ⟨k, rfl, hpid.trans hzero⟩

/-- With no process of that pid, the local that is looked at was never set. -/
theorem logProcess_absent {app : App} {pid : UInt32}
    (h : ∀ k : Fin MAX_PCB, (app.pcb.slot k).pid ≠ pid) : logProcess app pid = .error .uninit := by
  have hfind : pFind app pid = none := PCB.find_eq_none.mpr h
  unfold logProcess
  rw [hfind]

/-- With a full table nothing has changed, but the pid that is returned cannot be warned about:
where no process has it, `log_process` reads the local that was never set. -/
theorem pCreate_full {app app' : App} {path : List UInt8} {pid : UInt32}
    (hfull : MAX_PCB - 1 ≤ app.pcb.curr.toNat) (h : pCreate app path = .ok (pid, app')) :
    app' = app ∧ pid = 0xFFFFFFFF ∧ ¬ app'.LogWarns pid ∧
      ((∀ k : Fin MAX_PCB, (app.pcb.slot k).pid ≠ pid) → logProcess app' pid = .error .uninit) := by
  rcases pCreate_eq_ok h with ⟨-, rfl, rfl⟩ | ⟨hroom, -⟩
  · refine ⟨rfl, rfl, fun hwarns => ?_, logProcess_absent⟩
    exact absurd (logWarns_iff.mp hwarns).1 (by decide)
  · omega

/-! ## A file that is missing -/

/-- `open_file` has allocated a buffer by the time it returns `NULL`. -/
theorem openFile_missing {st st' : Store} {fs : List UInt8 → Option (List UInt8)}
    {path : List UInt8} {fb : Addr} (hfile : fs path = none)
    (h : openFile st fs path = .ok (fb, st')) :
    fb = 0 ∧ ∃ sb mem, cAlloc st.mem sizeofSyntBuffer = .ok (sb, mem) ∧ st'.mem = mem := by
  obtain ⟨⟨sb, mem⟩, halloc, h⟩ := Except.bind_eq_ok.mp h
  dsimp only at h
  split at h
  · cases h
    exact ⟨rfl, sb, mem, halloc, rfl⟩
  split at h
  · cases h
  split at h
  · cases h
    exact ⟨rfl, sb, mem, halloc, rfl⟩
  · rename_i hopen
    rw [hfile] at hopen
    exact absurd rfl hopen

/-- `p_create` does not come back from it. -/
theorem pCreate_missing {app : App} {path : List UInt8} {r : UInt32 × App}
    (hfile : app.fs path = none) (hroom : app.pcb.curr.toNat < MAX_PCB - 1) :
    pCreate app path ≠ .ok r := by
  intro h
  obtain ⟨pid, app'⟩ := r
  rcases pCreate_eq_ok h with ⟨hfull, -⟩ | ⟨-, p, st, hp, -⟩
  · omega
  · obtain ⟨mem, st₁, fp, -, hopen, -⟩ := hp.stages
    exact hp.fb (openFile_missing hfile hopen).1

/-- What it does instead: the pid is used up, two blocks are allocated, and the buffer
that is absent is read. -/
theorem pCreate_missing_nullDeref {app : App} {path name : List UInt8} {space sb : Addr}
    {mem mem' : Memory} (hname : createName path = .ok (some name)) (hfile : app.fs path = none)
    (hroom : app.pcb.curr.toNat < MAX_PCB - 1)
    (hspace : cAlloc app.mem (UInt32.ofNat KB) = .ok (space, mem))
    (hsb : cAlloc mem sizeofSyntBuffer = .ok (sb, mem')) (hne : sb ≠ 0) :
    pCreate app path = .error .nullDeref := by
  have hopen (st : Store) (hst : st.mem = mem) :
      ∃ st', openFile st app.fs path = .ok (0, st') := by
    unfold openFile
    rw [hst, hsb, Except.ok_bind_run]
    dsimp only
    split
    · exact ⟨_, rfl⟩
    · rw [hfile]
      exact ⟨_, rfl⟩
  unfold pCreate
  rw [hname, Except.ok_bind_run, if_neg (Nat.not_le.mpr hroom)]
  unfold App.alloc
  dsimp only
  rw [hspace]
  obtain ⟨st', hst'⟩ := hopen { app.toStore with mem := mem } rfl
  show (openFile { app.toStore with mem := mem } app.fs path >>= _) = _
  rw [hst']
  rfl

/-- A creation that cannot succeed never fails cleanly: for a missing file it does not return,
and when it has returned for a full table, the log reads the pid of a local that was never set,
where no process has the pid that came back. -/
theorem failed_creation_not_clean {app : App} {path : List UInt8} (h : app.CannotCreate path) :
    ¬ app.FailsCleanly path ∧ ∀ pid app', pCreate app path = .ok (pid, app') →
      (∀ k : Fin MAX_PCB, (app.pcb.slot k).pid ≠ pid) → logProcess app' pid = .error .uninit := by
  by_cases hfull : MAX_PCB - 1 ≤ app.pcb.curr.toNat
  · refine ⟨?_, fun pid app' hcreate habsent => (pCreate_full hfull hcreate).2.2.2 habsent⟩
    rintro ⟨app', hcreate, hwarns, -⟩
    exact (pCreate_full hfull hcreate).2.2.1 hwarns
  · have hmissing := h.resolve_left hfull
    refine ⟨?_, fun pid app' hcreate => ?_⟩
    · rintro ⟨app', hcreate, -⟩
      exact pCreate_missing hmissing (Nat.not_le.mp hfull) hcreate
    · exact absurd hcreate (pCreate_missing hmissing (Nat.not_le.mp hfull))

/-- A path that the host does not have. -/
theorem failed_creation_not_clean_missing : ¬ App.oneFile.FailsCleanly (ascii "b") :=
  (failed_creation_not_clean (.inr (by decide))).1

theorem failed_creation_not_always_clean :
    ¬ ∀ (app : App) (path : List UInt8), app.CannotCreate path → app.FailsCleanly path := by
  intro h
  have hstop : (pCreate App.oneFile (ascii "b")).toOption.isSome = false := by decide +kernel
  obtain ⟨app', hcreate, -⟩ := h App.oneFile (ascii "b") (.inr (by decide))
  rw [hcreate] at hstop
  cases hstop

end ChicOS
