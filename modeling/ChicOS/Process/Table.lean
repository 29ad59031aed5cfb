-- SUMMARY: The process table: lookup by pid and the status changes made under its lock.
import ChicOS.App
import Mathlib.Data.List.FinRange

/-!
# The process table

`p_find` and the functions of `process.c` that change one field or two of the
process it finds. `p_find` scans all slots, the empty ones included, and returns
the first with the pid; its retries look at the same table again.
-/

namespace ChicOS

/-- `init_pcb`. It leaves the slots as they are. -/
def initPcb (pcb : PCB) : PCB := { pcb with last := 0, curr := 0, lastPid := 0, pcbS := 1 }

/-! ## Slots -/

namespace PCB

/-- The process in a slot. -/
def slot (pcb : PCB) (i : Fin MAX_PCB) : Process := pcb.processStack[i]

theorem slot_initPcb (k : Fin MAX_PCB) : (initPcb PCB.zero).slot k = Process.zero := by
  simp [initPcb, zero, slot]

/-- Change the process in a slot. -/
def modify (pcb : PCB) (i : Fin MAX_PCB) (f : Process → Process) : PCB :=
  { pcb with processStack := pcb.processStack.set i (f (pcb.slot i)) }

@[simp] theorem modify_curr (pcb : PCB) (i f) : (pcb.modify i f).curr = pcb.curr := rfl
@[simp] theorem modify_last (pcb : PCB) (i f) : (pcb.modify i f).last = pcb.last := rfl
@[simp] theorem modify_lastPid (pcb : PCB) (i f) : (pcb.modify i f).lastPid = pcb.lastPid := rfl
@[simp] theorem modify_pcbS (pcb : PCB) (i f) : (pcb.modify i f).pcbS = pcb.pcbS := rfl

theorem slot_modify (pcb : PCB) (i j : Fin MAX_PCB) (f : Process → Process) :
    (pcb.modify i f).slot j
      = if i = j then f (pcb.slot i) else pcb.slot j := by
  simp only [slot, modify, Fin.getElem_fin, Vector.getElem_set, Fin.ext_iff]

@[simp] theorem slot_modify_self (pcb : PCB) (i : Fin MAX_PCB) (f : Process → Process) :
    (pcb.modify i f).slot i = f (pcb.slot i) := by
  rw [slot_modify, if_pos rfl]

theorem slot_modify_ne (pcb : PCB) {i j : Fin MAX_PCB} (f : Process → Process) (h : i ≠ j) :
    (pcb.modify i f).slot j = pcb.slot j := by
  rw [slot_modify, if_neg h]

theorem modify_congr {pcb : PCB} {i : Fin MAX_PCB} {f g : Process → Process}
    (h : f (pcb.slot i) = g (pcb.slot i)) : pcb.modify i f = pcb.modify i g := by
  rw [modify, modify, h]

theorem modify_eq_self {pcb : PCB} {i : Fin MAX_PCB} {f : Process → Process}
    (h : f (pcb.slot i) = pcb.slot i) : pcb.modify i f = pcb := by
  rw [modify, h]
  simp [slot]

theorem modify_modify (pcb : PCB) (i : Fin MAX_PCB) (f g : Process → Process) :
    (pcb.modify i f).modify i g = pcb.modify i fun p => g (f p) := by
  have hget : (pcb.modify i f).slot i = f (pcb.slot i) := slot_modify_self pcb i f
  unfold modify at hget ⊢
  rw [hget]
  simp [Vector.set_set]

/-- A process enters the table, in the slot `curr` names. -/
def enter (pcb : PCB) (p : Process) (h : pcb.curr.toNat < MAX_PCB) : PCB :=
  { pcb with
    processStack := pcb.processStack.set pcb.curr.toNat p
    curr := pcb.curr + 1
    last := pcb.last + 1 }

theorem slot_enter (pcb : PCB) (p : Process) (h : pcb.curr.toNat < MAX_PCB) (k : Fin MAX_PCB) :
    (pcb.enter p h).slot k = if pcb.curr.toNat = k.val then p else pcb.slot k := by
  simp only [slot, enter, Fin.getElem_fin, Vector.getElem_set]

/-- What a change leaves alone in one process, it leaves alone in the table. -/
theorem slot_modify_congr {α : Type} (pcb : PCB) (i j : Fin MAX_PCB) {f : Process → Process}
    (field : Process → α) (hf : field (f (pcb.slot i)) = field (pcb.slot i)) :
    field ((pcb.modify i f).slot j) = field (pcb.slot j) := by
  rw [slot_modify]
  split
  · rename_i hij
    rw [hf, hij]
  · rfl

theorem slot_modify_pid (pcb : PCB) (i j : Fin MAX_PCB) {f : Process → Process}
    (hf : ∀ p, (f p).pid = p.pid) :
    ((pcb.modify i f).slot j).pid = (pcb.slot j).pid :=
  slot_modify_congr pcb i j Process.pid (hf _)

/-- The first slot that carries a pid. -/
def find (pcb : PCB) (pid : UInt32) : Option (Fin MAX_PCB) :=
  (List.finRange MAX_PCB).find? fun i => (pcb.slot i).pid = pid

theorem find_eq_some {pcb : PCB} {pid : UInt32} {i : Fin MAX_PCB} (h : pcb.find pid = some i) :
    (pcb.slot i).pid = pid := by
  simpa using List.find?_some h

theorem find_eq_none {pcb : PCB} {pid : UInt32} :
    pcb.find pid = none ↔ ∀ i : Fin MAX_PCB, (pcb.slot i).pid ≠ pid := by
  simp [find]

/-- No slot before the one found carries the pid. -/
theorem find_before {pcb : PCB} {pid : UInt32} {i j : Fin MAX_PCB} (h : pcb.find pid = some i)
    (hj : j < i) : (pcb.slot j).pid ≠ pid := by
  obtain ⟨-, k, hk, hki, hbefore⟩ := List.find?_eq_some_iff_getElem.mp h
  have hki' : k = i.val := by simpa using congrArg Fin.val hki
  have hj' := hbefore j.val (by omega)
  simpa using hj'

/-- Lookup finds the slot no earlier slot shares its pid with. -/
theorem find_of_first {pcb : PCB} {i : Fin MAX_PCB}
    (h : ∀ j < i, (pcb.slot j).pid ≠ (pcb.slot i).pid) :
    pcb.find (pcb.slot i).pid = some i := by
  cases hf : pcb.find (pcb.slot i).pid with
  | none => exact absurd rfl (find_eq_none.mp hf i)
  | some j =>
      have hj := find_eq_some hf
      rcases lt_trichotomy j i with hlt | rfl | hgt
      · exact absurd hj (h j hlt)
      · rfl
      · exact absurd rfl (find_before hf hgt)

/-- Lookup looks at pids only. -/
theorem find_congr {pcb pcb' : PCB} (h : ∀ k, (pcb'.slot k).pid = (pcb.slot k).pid) (pid : UInt32) :
    pcb'.find pid = pcb.find pid := by
  simp only [find, h]

theorem find_modify (pcb : PCB) (i : Fin MAX_PCB) (f : Process → Process) (pid : UInt32)
    (hf : ∀ p, (f p).pid = p.pid) : (pcb.modify i f).find pid = pcb.find pid :=
  find_congr (fun j => slot_modify_pid pcb i j hf) pid

/-- The first `n` slots carry distinct pids. -/
structure LiveTable (pcb : PCB) (n : Nat) : Prop where
  lt : n < MAX_PCB
  distinct : ∀ {j k : Fin MAX_PCB}, j.val < n → k.val < n →
    (pcb.slot j).pid = (pcb.slot k).pid → j = k

/-- A table of two live processes, with pids 0 and 1. -/
def two : PCB :=
  { PCB.zero with
    processStack := PCB.zero.processStack.set 1 { Process.zero with pid := 1 }
    pcbS := 1 }

theorem two_liveTable : PCB.two.LiveTable 2 := ⟨by decide, by decide⟩

/-- The pids of the first `n` slots. -/
def pids (pcb : PCB) (n : Nat) : List UInt32 := (pcb.processStack.toList.take n).map (·.pid)

theorem length_pids_le (pcb : PCB) (n : Nat) : (pcb.pids n).length ≤ n := by
  simp [pids]

theorem mem_pids {pcb : PCB} {n : Nat} {pid : UInt32} :
    pid ∈ pcb.pids n ↔ ∃ k : Fin MAX_PCB, k.val < n ∧ (pcb.slot k).pid = pid := by
  simp only [pids, List.mem_map, List.mem_take_iff_getElem, slot]
  constructor
  · rintro ⟨p, ⟨k, hk, rfl⟩, rfl⟩
    simp only [Vector.length_toList, lt_min_iff] at hk
    exact ⟨⟨k, hk.2⟩, hk.1, by simp⟩
  · rintro ⟨k, hk, rfl⟩
    refine ⟨pcb.processStack[k], ⟨k.val, ?_, ?_⟩, rfl⟩
    · simpa using hk
    · simp

/-- Lookup of a live pid finds its slot. -/
theorem LiveTable.find {pcb : PCB} {n : Nat} (h : pcb.LiveTable n) {k : Fin MAX_PCB}
    (hk : k.val < n) : pcb.find (pcb.slot k).pid = some k := by
  refine find_of_first fun j hj hpid => ?_
  have hjk := h.distinct (Nat.lt_trans hj hk) hk hpid
  exact absurd hj (by simp [hjk])

theorem LiveTable.find_eq {pcb : PCB} {n : Nat} (h : pcb.LiveTable n) {j k : Fin MAX_PCB}
    {pid : UInt32} (hf : pcb.find pid = some j) (hk : k.val < n)
    (hpid : (pcb.slot k).pid = pid) : j = k := by
  subst hpid
  rw [h.find hk] at hf
  exact (Option.some.inj hf).symm

/-- A change that keeps the pid keeps the table. -/
theorem LiveTable.modify {pcb : PCB} {n : Nat} (h : pcb.LiveTable n) (i : Fin MAX_PCB)
    {f : Process → Process} (hf : ∀ p, (f p).pid = p.pid) : (pcb.modify i f).LiveTable n where
  lt := h.lt
  distinct := by
    intro j k hj hk hpid
    rw [slot_modify_pid pcb i j hf, slot_modify_pid pcb i k hf] at hpid
    exact h.distinct hj hk hpid

end PCB

/-! ## Critical sections and status changes -/

/-- A section between `sem_wait(&app.pcb.pcb_s)` and `sem_post(&app.pcb.pcb_s)`. -/
def App.inPcb (app : App) (f : PCB → PCB) : Except Stop App := do
  let n ← semWait .pcbS app.pcb.pcbS
  let pcb := f { app.pcb with pcbS := n }
  .ok { app with pcb := { pcb with pcbS := pcb.pcbS + 1 } }

/-- `p_find`. -/
def pFind (app : App) (pid : UInt32) : Option (Fin MAX_PCB) := app.pcb.find pid

/-- Find a process and change it under the table's lock. The lookup is not
checked: a pid with no slot is dereferenced as `NULL`. -/
def pUpdate (app : App) (pid : UInt32) (f : Process → Process) : Except Stop App :=
  match pFind app pid with
  | none => do
    let _ ← semWait .pcbS app.pcb.pcbS
    .error .nullDeref
  | some i => app.inPcb fun pcb => pcb.modify i f

def pInterrupt (app : App) (pid : UInt32) : Except Stop App :=
  pUpdate app pid fun p => { p with timeToRun := 0 }

def pBlock (app : App) (pid : UInt32) : Except Stop App :=
  pUpdate app pid fun p => { p with status := .blocked, timeToRun := 0 }

def pUnblock (app : App) (pid : UInt32) : Except Stop App :=
  pUpdate app pid fun p => { p with status := .ready }

/-- `p_kill`. The address space is released and its pointer stays in the slot. -/
def pKill (app : App) (pid : UInt32) : Except Stop App :=
  match pFind app pid with
  | none => .ok app
  | some i => do
    let n ← semWait .pcbS app.pcb.pcbS
    let app := { app with pcb.pcbS := n }
    let space := (app.pcb.slot i).addressSpace
    let app ← (if space ≠ 0 then app.release space else .ok app)
    let app := { app with pcb := app.pcb.modify i fun p => { p with status := .kill } }
    .ok { app with pcb.pcbS := app.pcb.pcbS + 1 }

theorem inPcb_eq_ok {app app' : App} {i : Fin MAX_PCB} {f : Process → Process}
    (h : app.inPcb (fun pcb => pcb.modify i f) = .ok app') :
    app.pcb.pcbS ≠ 0 ∧ app' = { app with pcb := app.pcb.modify i f } := by
  obtain ⟨n, hn, hok⟩ := Except.bind_eq_ok.mp h
  have hn := semWait_eq_ok.mp hn
  cases hok
  refine ⟨by omega, ?_⟩
  simp [PCB.modify, PCB.slot, hn]

theorem inPcb_eq {app : App} (i : Fin MAX_PCB) (f : Process → Process) (h : app.pcb.pcbS ≠ 0) :
    app.inPcb (fun pcb => pcb.modify i f) = .ok { app with pcb := app.pcb.modify i f } := by
  obtain ⟨n, hn⟩ := Nat.exists_eq_succ_of_ne_zero h
  have hwait : semWait .pcbS app.pcb.pcbS = .ok n := semWait_eq_ok.mpr hn
  unfold App.inPcb
  rw [hwait, Except.ok_bind_run]
  simp [PCB.modify, PCB.slot, hn]

theorem pUpdate_eq {app : App} {pid : UInt32} {i : Fin MAX_PCB} (f : Process → Process)
    (hfind : pFind app pid = some i) (h : app.pcb.pcbS ≠ 0) :
    pUpdate app pid f = .ok { app with pcb := app.pcb.modify i f } := by
  unfold pUpdate
  rw [hfind]
  exact inPcb_eq i f h

/-- What a status change does: it found the process, and changes its slot only. -/
theorem pUpdate_eq_ok {app app' : App} {pid : UInt32} {f : Process → Process}
    (h : pUpdate app pid f = .ok app') :
    ∃ i, pFind app pid = some i ∧ app.pcb.pcbS ≠ 0 ∧
      app' = { app with pcb := app.pcb.modify i f } := by
  unfold pUpdate at h
  split at h
  · obtain ⟨n, -, hn⟩ := Except.bind_eq_ok.mp h
    cases hn
  · rename_i i hi
    exact ⟨i, hi, inPcb_eq_ok h⟩

/-- `p_kill` marks a slot and gives its address space back, if it has one. -/
theorem pKill_eq_ok {app app' : App} {pid : UInt32} (h : pKill app pid = .ok app') :
    (pFind app pid = none ∧ app' = app) ∨
    ∃ i, pFind app pid = some i ∧ app.pcb.pcbS ≠ 0 ∧
      (((app.pcb.slot i).addressSpace = 0 ∧
        app' = { app with pcb := app.pcb.modify i fun p => { p with status := .kill } }) ∨
      ((app.pcb.slot i).addressSpace ≠ 0 ∧ ∃ mem,
        cDealloc app.mem (app.pcb.slot i).addressSpace = .ok mem ∧
        app' = { app with
          mem := mem
          pcb := app.pcb.modify i fun p => { p with status := .kill }
          trace := app.trace ++ [.release (app.pcb.slot i).addressSpace
            (decide (app.mem.IsLive (app.pcb.slot i).addressSpace))] })) := by
  unfold pKill at h
  split at h
  · rename_i hnone
    cases h
    exact .inl ⟨hnone, rfl⟩
  rename_i i hi
  obtain ⟨n, hn, h⟩ := Except.bind_eq_ok.mp h
  have hn := semWait_eq_ok.mp hn
  obtain ⟨app₁, hrelease, h⟩ := Except.bind_eq_ok.mp h
  cases h
  refine .inr ⟨i, hi, by omega, ?_⟩
  have hslot : ({ app.pcb with pcbS := n } : PCB).slot i = app.pcb.slot i := rfl
  dsimp only at hrelease
  rw [hslot] at hrelease
  split at hrelease
  · rename_i hspace
    obtain ⟨mem, hfree, rfl⟩ := release_eq_ok hrelease
    refine .inr ⟨hspace, mem, hfree, ?_⟩
    simp [PCB.modify, PCB.slot, hn]
  · rename_i hspace
    cases hrelease
    refine .inl ⟨not_not.mp hspace, ?_⟩
    simp [PCB.modify, PCB.slot, hn]

end ChicOS
