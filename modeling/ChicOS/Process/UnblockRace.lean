-- SUMMARY: p_unblock and scheduler_kill_process step by step: the interleavings in which a status lands on another process.
import ChicOS.Scheduler.Scheduler
import ChicOS.Lib.Interleave

/-!
# Waking a process while another is reaped

`p_unblock` looks its process up without the lock of the table, and writes the
status under it. `scheduler_kill_process` takes the lock for every single move.
A process that is moved down between the lookup and the write has left the slot
that is written: it stays blocked, and the status goes to a stale copy or to the
process that moved in.

While slots are moved one of them holds no process of its own, the dead one or
one whose process has been copied down: the others are `Occupied`, and each of
them is the first with its pid. `Good` and `Bad` are the two kinds of states, with
the process in the slot that was found, and below it.
-/

namespace ChicOS

open Interleave

/-! ## The two threads -/

inductive ReapPc where
  /-- At the test for a dead process in a slot. -/
  | scan (i : Nat)
  /-- At the test of the inner loop: a dead slot, and the slot to move down. -/
  | move (i j : Nat)
  deriving DecidableEq

inductive UnblockPc where
  | find
  /-- The slot that `p_find` has returned. -/
  | write (found : Option (Fin MAX_PCB))
  | done
  deriving DecidableEq

/-- `process_stack[j - 1] = process_stack[j]`. -/
def PCB.moveDown (pcb : PCB) (j : Nat) (h : j < MAX_PCB) : PCB :=
  pcb.modify ⟨j - 1, Nat.lt_of_le_of_lt (Nat.sub_le j 1) h⟩ fun _ => pcb.slot ⟨j, h⟩

/-- A step of `scheduler_kill_process`: a test, or a section under the lock. -/
def reapStep : Thread PCB ReapPc Stop
  | pcb, .scan i =>
    if h : i < MAX_PCB then
      some (.ok (pcb, if (pcb.slot ⟨i, h⟩).status = .kill then .move i (i + 1) else .scan (i + 1)))
    else none
  | pcb, .move i j =>
    some do
      let _ ← semWait .pcbS pcb.pcbS
      if h : j < MAX_PCB then .ok (pcb.moveDown j h, .move i (j + 1))
      else .ok ({ pcb with last := pcb.last - 1 }, .scan (i + 1))

/-- A step of `p_unblock`: the lookup, or the section under the lock. -/
def unblockStep (pid : UInt32) : Thread PCB UnblockPc Stop
  | pcb, .find => some (.ok (pcb, .write (pcb.find pid)))
  | pcb, .write found =>
    some do
      let _ ← semWait .pcbS pcb.pcbS
      match found with
      | none => .error .nullDeref
      | some k => .ok (pcb.modify k fun p => { p with status := .ready }, .done)
  | _, .done => none

abbrev UnblockRace := Pair PCB ReapPc UnblockPc

namespace UnblockRace

/-- The CPU thread on the left, the disk thread on the right. -/
def start (pcb : PCB) : UnblockRace where
  shared := pcb
  left := .scan 0
  right := .find

def step (pid : UInt32) : UnblockRace → Side → Except (Option Stop) UnblockRace :=
  Interleave.step reapStep (unblockStep pid)

/-- Both calls have returned. -/
def Done (s : UnblockRace) : Prop := s.left = .scan MAX_PCB ∧ s.right = .done

end UnblockRace

/-! ## The table while it is reaped -/

/-- The slot without a process of its own, or the number of processes. -/
def ReapPc.hole (last : Nat) : ReapPc → Nat
  | .scan _ => last
  | .move _ j => min j last - 1

/-- From here on no slot is dead. -/
def ReapPc.bound (last : Nat) : ReapPc → Nat
  | .scan _ => last
  | .move _ j => if last < j then last - 1 else last

/-- The slot holds a process of the table. -/
def PCB.Occupied (pcb : PCB) (pc : ReapPc) (k : Fin MAX_PCB) : Prop :=
  k.val < pcb.last.toNat ∧ k.val ≠ pc.hole pcb.last.toNat

/-- What `scheduler_kill_process` keeps from step to step. -/
structure Reaping (pcb : PCB) (pc : ReapPc) : Prop where
  lt : pcb.last.toNat < MAX_PCB
  first : ∀ {a b : Fin MAX_PCB}, a < b → pcb.Occupied pc b → (pcb.slot a).pid ≠ (pcb.slot b).pid
  stale : ∀ k : Fin MAX_PCB, pc.bound pcb.last.toNat ≤ k.val → (pcb.slot k).status ≠ .kill
  moving : ∀ i j, pc = .move i j → i < j ∧ j ≤ MAX_PCB ∧ 0 < pcb.last.toNat

/-- Where a step leaves the process in a slot: one slot down, if it moves it. -/
def ReapPc.Takes (pc : ReapPc) (k k' : Fin MAX_PCB) : Prop :=
  (k' = k ∧ ∀ i, pc ≠ .move i k.val) ∨ (k' < k ∧ ∃ i, pc = .move i k.val)

/-- Between two tables, the living stay, and nobody comes. -/
structure Carried (pcb : PCB) (pc : ReapPc) (pcb' : PCB) (pc' : ReapPc) : Prop where
  reaping : Reaping pcb' pc'
  back : ∀ {k'}, pcb'.Occupied pc' k' → ∃ k, pcb.Occupied pc k ∧ pcb'.slot k' = pcb.slot k
  forth : ∀ {k}, pcb.Occupied pc k → (pcb.slot k).status ≠ .kill →
    ∃ k', pcb'.Occupied pc' k' ∧ pcb'.slot k' = pcb.slot k ∧ pc.Takes k k'

theorem Reaping.start {pcb : PCB} (htable : pcb.LiveTable pcb.last.toNat)
    (hstale : ∀ k : Fin MAX_PCB, pcb.last.toNat ≤ k.val → (pcb.slot k).status ≠ .kill) :
    Reaping pcb (.scan 0) where
  lt := htable.lt
  first hab hb heq :=
    absurd (htable.distinct (Nat.lt_trans hab hb.1) hb.1 heq) (ne_of_lt hab)
  stale := hstale
  moving _ _ h := nomatch h

/-- Two processes of a table have two pids. -/
theorem Reaping.eq {pcb : PCB} {pc : ReapPc} (h : Reaping pcb pc) {a b : Fin MAX_PCB}
    (ha : pcb.Occupied pc a) (hb : pcb.Occupied pc b)
    (heq : (pcb.slot a).pid = (pcb.slot b).pid) : a = b := by
  rcases lt_trichotomy a b with hlt | hsame | hgt
  · exact absurd heq (h.first hlt hb)
  · exact hsame
  · exact absurd heq.symm (h.first hgt ha)

/-- `p_find` finds the processes of the table, moved or not. -/
theorem Reaping.find {pcb : PCB} {pc : ReapPc} (h : Reaping pcb pc) {k : Fin MAX_PCB}
    (hk : pcb.Occupied pc k) : pcb.find (pcb.slot k).pid = some k :=
  PCB.find_of_first fun _ hj => h.first hj hk

/-- Making a process ready moves nothing. -/
theorem Reaping.ready {pcb : PCB} {pc : ReapPc} (h : Reaping pcb pc) (i : Fin MAX_PCB) :
    Reaping (pcb.modify i fun p => { p with status := .ready }) pc where
  lt := h.lt
  first hab hb := by
    have hpid (k : Fin MAX_PCB) :
        ((pcb.modify i fun p => { p with status := .ready }).slot k).pid = (pcb.slot k).pid :=
      PCB.slot_modify_pid pcb i k fun _ => rfl
    rw [hpid, hpid]
    exact h.first hab hb
  stale k hk := by
    rw [PCB.slot_modify]
    split
    · exact nofun
    · exact h.stale k hk
  moving := h.moving

/-! ## One step of the CPU thread -/

theorem slot_moveDown (pcb : PCB) {j : Nat} (h : j < MAX_PCB) (k : Fin MAX_PCB) :
    (pcb.moveDown j h).slot k = if k.val = j - 1 then pcb.slot ⟨j, h⟩ else pcb.slot k := by
  rw [PCB.moveDown, PCB.slot_modify]
  simp only [Fin.ext_iff, eq_comm]

theorem PCB.ext_slot {a b : PCB} (hslot : ∀ k, a.slot k = b.slot k)
    (hrest : { a with processStack := b.processStack } = b) : a = b := by
  have hstack : a.processStack = b.processStack :=
    Vector.ext fun i hi => hslot ⟨i, hi⟩
  rw [← hrest, ← hstack]

theorem PCB.shift_last (pcb : PCB) {k : Fin MAX_PCB} (hk : k.val + 0 + 1 = MAX_PCB) :
    pcb.shift k = pcb := by
  refine PCB.ext_slot (fun j => ?_) rfl
  rw [slot_shift, dif_neg]
  rintro ⟨hle, hlt⟩
  rw [Fin.le_def] at hle
  omega

/-- A shift moves the next slot down, and shifts the slots after it. -/
theorem PCB.shift_moveDown (pcb : PCB) {k : Fin MAX_PCB} (hk : k.val + 1 < MAX_PCB) :
    (pcb.moveDown (k.val + 1) hk).shift ⟨k.val + 1, hk⟩ = pcb.shift k := by
  refine PCB.ext_slot (fun j => ?_) rfl
  rw [slot_shift, slot_shift]
  by_cases hj : k ≤ j ∧ j.val + 1 < MAX_PCB
  · rw [dif_pos hj]
    obtain ⟨hle, hlt⟩ := hj
    rw [Fin.le_def] at hle
    by_cases heq : j = k
    · subst heq
      rw [dif_neg (fun hc => absurd (Fin.le_def.mp hc.1) (Nat.not_succ_le_self _)), slot_moveDown,
        if_pos (Nat.add_sub_cancel _ 1).symm]
    · have hgt : k.val < j.val := Nat.lt_of_le_of_ne hle fun hc => heq (Fin.ext hc.symm)
      rw [dif_pos ⟨Fin.le_def.mpr hgt, hlt⟩, slot_moveDown, if_neg]
      show j.val + 1 ≠ k.val
      omega
  · rw [dif_neg hj, dif_neg, slot_moveDown, if_neg]
    · intro hc
      obtain rfl : j = k := Fin.ext hc
      exact hj ⟨le_rfl, hk⟩
    · rintro ⟨hle, hlt⟩
      exact hj ⟨le_trans (Fin.le_def.mpr (Nat.le_succ _)) hle, hlt⟩

theorem reapStep_scan (pcb : PCB) {n : Nat} (h : n < MAX_PCB) :
    reapStep pcb (.scan n)
      = some (.ok (pcb, if (pcb.slot ⟨n, h⟩).status = .kill then .move n (n + 1) else .scan (n + 1))) :=
  dif_pos h

/-- A section of `scheduler_kill_process` moves a slot down, or lowers `last`. -/
theorem reapStep_move {pcb pcb' : PCB} {i n : Nat} {pc : ReapPc}
    (h : reapStep pcb (.move i n) = some (.ok (pcb', pc))) :
    (∃ hn : n < MAX_PCB, pcb' = pcb.moveDown n hn ∧ pc = .move i (n + 1)) ∨
    (MAX_PCB ≤ n ∧ pcb' = { pcb with last := pcb.last - 1 } ∧ pc = .scan (i + 1)) := by
  rw [reapStep, Option.some.injEq] at h
  obtain ⟨_, -, h⟩ := Except.bind_eq_ok.mp h
  split at h
  · cases h
    exact .inl ⟨‹_›, rfl, rfl⟩
  · cases h
    exact .inr ⟨Nat.not_lt.mp ‹_›, rfl, rfl⟩

section Steps

variable {pcb pcb' : PCB} {pc pc' : ReapPc} {i j n : Nat}

/-- A slot that is not dead is passed. -/
theorem Reaping.pass (h : Reaping pcb (.scan n)) : Carried pcb (.scan n) pcb (.scan (n + 1)) where
  reaping := ⟨h.lt, h.first, h.stale, fun _ _ hpc => nomatch hpc⟩
  back hk := ⟨_, hk, rfl⟩
  forth hk _ := ⟨_, hk, rfl, .inl ⟨rfl, fun _ hpc => nomatch hpc⟩⟩

/-- A dead slot becomes the one without a process. -/
theorem Reaping.bury (h : Reaping pcb (.scan n)) (hn : n < MAX_PCB)
    (hdead : (pcb.slot ⟨n, hn⟩).status = .kill) :
    Carried pcb (.scan n) pcb (.move n (n + 1)) := by
  have hlast : n < pcb.last.toNat := Nat.lt_of_not_le fun hle => h.stale ⟨n, hn⟩ hle hdead
  have hhole : ReapPc.hole pcb.last.toNat (.move n (n + 1)) = n := by
    rw [ReapPc.hole, Nat.min_eq_left (Nat.succ_le_of_lt hlast)]
    rfl
  have hscan {k : Fin MAX_PCB} (hk : k.val < pcb.last.toNat) : pcb.Occupied (.scan n) k :=
    ⟨hk, Nat.ne_of_lt hk⟩
  refine ⟨⟨h.lt, fun hab hb => h.first hab (hscan hb.1), ?_, ?_⟩, fun hk => ⟨_, hscan hk.1, rfl⟩, ?_⟩
  · intro k hk
    rw [ReapPc.bound, if_neg (Nat.not_lt.mpr hlast)] at hk
    exact h.stale k hk
  · intro i j hpc
    cases hpc
    exact ⟨Nat.lt_succ_self n, hn, Nat.zero_lt_of_lt hlast⟩
  · intro k hk hliving
    refine ⟨k, ⟨hk.1, ?_⟩, rfl, .inl ⟨rfl, fun _ hpc => nomatch hpc⟩⟩
    rw [hhole]
    intro hkn
    subst hkn
    exact hliving hdead

/-- The slot that is written in a move, and the one it is copied from. -/
def source (n : Nat) (hn : n < MAX_PCB) (k : Fin MAX_PCB) : Fin MAX_PCB :=
  if k.val = n - 1 then ⟨n, hn⟩ else k

theorem source_val (hn : n < MAX_PCB) (k : Fin MAX_PCB) :
    (source n hn k).val = if k.val = n - 1 then n else k.val := by
  unfold source
  split <;> rfl

theorem slot_moveDown_source (hn : n < MAX_PCB) (k : Fin MAX_PCB) :
    (pcb.moveDown n hn).slot k = pcb.slot (source n hn k) := by
  rw [slot_moveDown, source]
  split <;> rfl

/-- A process moves down into the slot without one. -/
theorem Reaping.moveDown (h : Reaping pcb (.move i n)) (hn : n < MAX_PCB) :
    Carried pcb (.move i n) (pcb.moveDown n hn) (.move i (n + 1)) := by
  obtain ⟨hin, -, hpos⟩ := h.moving i n rfl
  have hsource {k : Fin MAX_PCB} (hk : (pcb.moveDown n hn).Occupied (.move i (n + 1)) k) :
      pcb.Occupied (.move i n) (source n hn k) := by
    obtain ⟨hlt, hne⟩ := hk
    change k.val < pcb.last.toNat at hlt
    change k.val ≠ min (n + 1) pcb.last.toNat - 1 at hne
    rw [PCB.Occupied, source_val, ReapPc.hole]
    split <;> omega
  refine ⟨⟨h.lt, ?_, ?_, ?_⟩, ?_, ?_⟩
  · intro a b hab hb
    rw [slot_moveDown_source, slot_moveDown_source]
    refine h.first ?_ (hsource hb)
    have hlt : b.val < pcb.last.toNat := hb.1
    have hne : b.val ≠ min (n + 1) pcb.last.toNat - 1 := hb.2
    rw [Fin.lt_def] at hab ⊢
    rw [source_val, source_val]
    split <;> split <;> omega
  · intro k hk
    rw [slot_moveDown_source]
    refine h.stale _ ?_
    change (if pcb.last.toNat < n + 1 then pcb.last.toNat - 1 else pcb.last.toNat) ≤ k.val at hk
    rw [source_val, ReapPc.bound]
    split at hk <;> split <;> split <;> omega
  · intro i' j' hpc
    cases hpc
    exact ⟨Nat.lt_succ_of_lt hin, hn, hpos⟩
  · intro k hk
    exact ⟨source n hn k, hsource hk, slot_moveDown_source hn k⟩
  · intro k ⟨hlt, hne⟩ _
    rw [ReapPc.hole] at hne
    by_cases hkn : k.val = n
    · have hbelow : n - 1 < MAX_PCB := Nat.lt_of_le_of_lt (Nat.sub_le n 1) hn
      refine ⟨⟨n - 1, hbelow⟩, ⟨?_, ?_⟩, ?_, .inr ⟨?_, i, by rw [hkn]⟩⟩
      · show n - 1 < pcb.last.toNat
        omega
      · show n - 1 ≠ min (n + 1) pcb.last.toNat - 1
        omega
      · rw [slot_moveDown, if_pos rfl]
        exact congrArg pcb.slot (Fin.ext hkn.symm)
      · rw [Fin.lt_def]
        show n - 1 < k.val
        omega
    · refine ⟨k, ⟨hlt, ?_⟩, ?_, .inl ⟨rfl, ?_⟩⟩
      · show k.val ≠ min (n + 1) pcb.last.toNat - 1
        omega
      · rw [slot_moveDown, if_neg (by omega)]
      · intro i' hpc
        cases hpc
        exact hkn rfl

/-- After the last move the slot without a process is the last. -/
theorem Reaping.drop (h : Reaping pcb (.move i n)) (hn : MAX_PCB ≤ n) :
    Carried pcb (.move i n) { pcb with last := pcb.last - 1 } (.scan (i + 1)) := by
  obtain ⟨-, -, hpos⟩ := h.moving i n rfl
  have hlt := h.lt
  have hlast : (pcb.last - 1).toNat = pcb.last.toNat - 1 := UInt8.toNat_pred hpos
  have hoccupied (k : Fin MAX_PCB) :
      PCB.Occupied { pcb with last := pcb.last - 1 } (.scan (i + 1)) k ↔
        pcb.Occupied (.move i n) k := by
    show (k.val < (pcb.last - 1).toNat ∧ k.val ≠ (pcb.last - 1).toNat) ↔
      (k.val < pcb.last.toNat ∧ k.val ≠ min n pcb.last.toNat - 1)
    omega
  refine ⟨⟨?_, fun hab hb => h.first hab ((hoccupied _).mp hb), ?_, fun _ _ hpc => nomatch hpc⟩,
    fun hk => ⟨_, (hoccupied _).mp hk, rfl⟩, ?_⟩
  · show (pcb.last - 1).toNat < MAX_PCB
    omega
  · intro k hk
    change (pcb.last - 1).toNat ≤ k.val at hk
    refine h.stale k ?_
    rw [ReapPc.bound, if_pos (Nat.lt_of_lt_of_le hlt hn)]
    omega
  · intro k hk _
    refine ⟨k, (hoccupied k).mpr hk, rfl, .inl ⟨rfl, ?_⟩⟩
    intro i' hpc
    cases hpc
    exact absurd hn (Nat.not_le.mpr k.isLt)

theorem Reaping.step (h : Reaping pcb pc) (hstep : reapStep pcb pc = some (.ok (pcb', pc'))) :
    Carried pcb pc pcb' pc' := by
  cases pc with
  | scan n =>
      by_cases hn : n < MAX_PCB
      · rw [reapStep_scan pcb hn] at hstep
        cases hstep
        split
        · exact h.bury hn ‹_›
        · exact h.pass
      · rw [reapStep, dif_neg hn] at hstep
        cases hstep
  | move i n =>
      rcases reapStep_move hstep with ⟨hn, rfl, rfl⟩ | ⟨hn, rfl, rfl⟩
      · exact h.moveDown hn
      · exact h.drop hn

end Steps

/-! ## Where the status lands -/

/-- The process with the pid is ready, every process that was not dead is still
there, and the others have the status they had. -/
structure Lands (before after : PCB) (pid : UInt32) : Prop where
  survives : ∀ j : Fin MAX_PCB, j.val < before.last.toNat → (before.slot j).status ≠ .kill →
    ∃ k : Fin MAX_PCB, k.val < after.last.toNat ∧ (after.slot k).pid = (before.slot j).pid
  status : ∀ j k : Fin MAX_PCB, j.val < before.last.toNat → k.val < after.last.toNat →
    (after.slot k).pid = (before.slot j).pid →
    (after.slot k).status = if (before.slot j).pid = pid then .ready else (before.slot j).status

namespace UnblockRace

/-- The next section of the CPU thread moves the process with the pid. -/
def Moving (pcb : PCB) (pid : UInt32) : ReapPc → Prop
  | .scan _ => False
  | .move _ j => ∃ h : j < MAX_PCB, j < pcb.last.toNat ∧ (pcb.slot ⟨j, h⟩).pid = pid

/-- The section moves the slot the process is in, no other with its pid. -/
theorem moving_eq {pcb : PCB} {pid : UInt32} {pc : ReapPc} (h : Reaping pcb pc)
    (hmoving : Moving pcb pid pc) {k : Fin MAX_PCB} (hk : pcb.Occupied pc k)
    (hpid : (pcb.slot k).pid = pid) : ∃ i, pc = .move i k.val := by
  cases pc with
  | scan n => exact hmoving.elim
  | move i j =>
      obtain ⟨hlt, hlive, hsame⟩ := hmoving
      obtain ⟨hij, -⟩ := h.moving i j rfl
      have hj : pcb.Occupied (.move i j) ⟨j, hlt⟩ := by
        refine ⟨hlive, ?_⟩
        show j ≠ min j pcb.last.toNat - 1
        omega
      obtain rfl := h.eq hk hj (hpid.trans hsame.symm)
      exact ⟨i, rfl⟩

/-- The disk thread has looked the process up, and has yet to write. -/
def Pending : UnblockPc → Prop
  | .write _ => True
  | _ => False

/-- The step does not move the process between the lookup and the write. -/
def Undisturbed (pid : UInt32) (s : UnblockRace) : Side → Prop
  | .left => Pending s.right → ¬ Moving s.shared pid s.left
  | .right => True

variable {pcb : PCB} {pid : UInt32} {s s' t : UnblockRace}

/-- No process has been moved since it was looked up. -/
structure Good (pcb : PCB) (pid : UInt32) (s : UnblockRace) : Prop where
  reaping : Reaping s.shared s.left
  survives : ∀ j : Fin MAX_PCB, j.val < pcb.last.toNat → (pcb.slot j).status ≠ .kill →
    ∃ k, s.shared.Occupied s.left k ∧ (s.shared.slot k).pid = (pcb.slot j).pid
  status : ∀ j k : Fin MAX_PCB, j.val < pcb.last.toNat → s.shared.Occupied s.left k →
    (s.shared.slot k).pid = (pcb.slot j).pid →
    (s.shared.slot k).status =
      if (pcb.slot j).pid = pid ∧ s.right = .done then .ready else (pcb.slot j).status
  found : ∀ found, s.right = .write found →
    ∃ k, found = some k ∧ s.shared.Occupied s.left k ∧ (s.shared.slot k).pid = pid

/-- The process is below the slot that was found, or it was when the status was
written. -/
structure Bad (pid : UInt32) (s : UnblockRace) : Prop where
  reaping : Reaping s.shared s.left
  missed : ∃ k, s.shared.Occupied s.left k ∧ (s.shared.slot k).pid = pid ∧
    (s.shared.slot k).status = .blocked ∧ ((∃ j, s.right = .write (some j) ∧ k < j) ∨ s.right = .done)

/-- The process that is to be woken is in the table. -/
def Blocked (pcb : PCB) (pid : UInt32) : Prop :=
  ∃ b : Fin MAX_PCB, b.val < pcb.last.toNat ∧ (pcb.slot b).pid = pid ∧ (pcb.slot b).status = .blocked

theorem Good.start (htable : pcb.LiveTable pcb.last.toNat)
    (hstale : ∀ k : Fin MAX_PCB, pcb.last.toNat ≤ k.val → (pcb.slot k).status ≠ .kill) :
    Good pcb pid (start pcb) where
  reaping := .start htable hstale
  survives j hj _ := ⟨j, ⟨hj, Nat.ne_of_lt hj⟩, rfl⟩
  status j k hj hk hpid := by
    obtain rfl := htable.distinct hk.1 hj hpid
    exact (if_neg fun h => nomatch h.2).symm
  found _ h := nomatch h

/-- Until the write, the process is where it is blocked. -/
theorem Good.blocked (h : Good pcb pid s) (hblocked : Blocked pcb pid) (hright : s.right ≠ .done) :
    ∃ k, s.shared.Occupied s.left k ∧ (s.shared.slot k).pid = pid ∧
      (s.shared.slot k).status = .blocked := by
  obtain ⟨b, hb, hpid, hstatus⟩ := hblocked
  obtain ⟨k, hk, hsame⟩ := h.survives b hb (by rw [hstatus]; exact nofun)
  refine ⟨k, hk, hsame.trans hpid, ?_⟩
  rw [h.status b k hb hk hsame, if_neg fun hc => hright hc.2, hstatus]

/-- A step of the CPU thread that leaves the process where it was found. -/
theorem Good.left (h : Good pcb pid s) (hblocked : Blocked pcb pid)
    (hg : Undisturbed pid s .left) (hstep : step pid s .left = .ok s') : Good pcb pid s' := by
  obtain ⟨shared, left, hreap, rfl⟩ := step_left_eq_ok.mp hstep
  have hcarried := h.reaping.step hreap
  refine ⟨hcarried.reaping, ?_, ?_, ?_⟩
  · intro j hj hliving
    obtain ⟨k, hk, hpid⟩ := h.survives j hj hliving
    have hstatus := h.status j k hj hk hpid
    have hnotdead : (s.shared.slot k).status ≠ .kill := by
      rw [hstatus]
      split
      · exact nofun
      · exact hliving
    obtain ⟨k', hk', hslot, -⟩ := hcarried.forth hk hnotdead
    exact ⟨k', hk', by rw [hslot, hpid]⟩
  · intro j k' hj hk' hpid
    obtain ⟨k, hk, hslot⟩ := hcarried.back hk'
    dsimp only at hpid ⊢
    rw [hslot] at hpid ⊢
    exact h.status j k hj hk hpid
  · intro found hright
    obtain ⟨k, rfl, hk, hpid⟩ := h.found found hright
    obtain ⟨k₀, hk₀, hpid₀, hstatus⟩ := h.blocked hblocked (by rw [hright]; exact nofun)
    obtain rfl := h.reaping.eq hk₀ hk (hpid₀.trans hpid.symm)
    obtain ⟨k', hk', hslot, htakes⟩ := hcarried.forth hk (by rw [hstatus]; exact nofun)
    rcases htakes with ⟨rfl, -⟩ | ⟨-, i, hmove⟩
    · exact ⟨k', rfl, hk', by rw [hslot, hpid]⟩
    · refine absurd ?_ (hg (by rw [hright]; trivial))
      rw [hmove]
      exact ⟨k₀.isLt, hk.1, hpid⟩

/-- A step that moves the process after it was found. -/
theorem Good.disturbed (h : Good pcb pid s) (hblocked : Blocked pcb pid)
    (hg : ¬ Undisturbed pid s .left) (hstep : step pid s .left = .ok s') : Bad pid s' := by
  obtain ⟨shared, left, hreap, rfl⟩ := step_left_eq_ok.mp hstep
  have hcarried := h.reaping.step hreap
  obtain ⟨hpending, hmoving⟩ := Classical.not_imp.mp hg
  rw [not_not] at hmoving
  cases hright : s.right with
  | find => exact absurd hpending (by rw [hright]; exact id)
  | done => exact absurd hpending (by rw [hright]; exact id)
  | write found =>
      obtain ⟨j, rfl, hj, hpid⟩ := h.found found hright
      obtain ⟨k, hk, hpid', hstatus⟩ := h.blocked hblocked (by rw [hright]; exact nofun)
      obtain rfl := h.reaping.eq hk hj (hpid'.trans hpid.symm)
      obtain ⟨k', hk', hslot, htakes⟩ := hcarried.forth hk (by rw [hstatus]; exact nofun)
      refine ⟨hcarried.reaping, k', hk', by rw [hslot, hpid], by rw [hslot, hstatus],
        .inl ⟨k, rfl, ?_⟩⟩
      obtain ⟨i, hmove⟩ := moving_eq h.reaping hmoving hk hpid
      rcases htakes with ⟨-, hstays⟩ | ⟨hlt, -⟩
      · exact absurd hmove (hstays i)
      · exact hlt

/-- Once it has been missed, a process is not found again. -/
theorem Bad.left (h : Bad pid s) (hstep : step pid s .left = .ok s') : Bad pid s' := by
  obtain ⟨shared, left, hreap, rfl⟩ := step_left_eq_ok.mp hstep
  have hcarried := h.reaping.step hreap
  obtain ⟨k, hk, hpid, hstatus, hwhere⟩ := h.missed
  obtain ⟨k', hk', hslot, htakes⟩ := hcarried.forth hk (by rw [hstatus]; exact nofun)
  have hle : k' ≤ k := by
    rcases htakes with ⟨rfl, -⟩ | ⟨hlt, -⟩
    · exact le_rfl
    · exact hlt.le
  refine ⟨hcarried.reaping, k', hk', by rw [hslot, hpid], by rw [hslot, hstatus], ?_⟩
  rcases hwhere with ⟨j, hright, hlt⟩ | hdone
  · exact .inl ⟨j, hright, lt_of_le_of_lt hle hlt⟩
  · exact .inr hdone

/-- A step of `p_unblock` finds the process, or writes to the slot it found. -/
theorem unblockStep_eq_ok {right right' : UnblockPc} {pcb' : PCB}
    (h : unblockStep pid pcb right = some (.ok (pcb', right'))) :
    (right = .find ∧ pcb' = pcb ∧ right' = .write (pcb.find pid)) ∨
    ∃ k, right = .write (some k) ∧ right' = .done ∧
      pcb' = pcb.modify k fun p => { p with status := .ready } := by
  cases right with
  | find =>
      cases h
      exact .inl ⟨rfl, rfl, rfl⟩
  | write found =>
      obtain ⟨_, -, h⟩ := Except.bind_eq_ok.mp (Option.some.inj h)
      cases found with
      | none => cases h
      | some k =>
          cases h
          exact .inr ⟨k, rfl, rfl, rfl⟩
  | done => cases h

/-- The lookup finds the process, and the write wakes it. -/
theorem Good.right (h : Good pcb pid s) (hblocked : Blocked pcb pid)
    (hstep : step pid s .right = .ok s') : Good pcb pid s' := by
  obtain ⟨shared, right, hunblock, rfl⟩ := step_right_eq_ok.mp hstep
  rcases unblockStep_eq_ok hunblock with ⟨hright, rfl, rfl⟩ | ⟨f, hright, rfl, rfl⟩
  · refine ⟨h.reaping, h.survives, ?_, ?_⟩
    · intro j k hj hk hpid
      have hstatus := h.status j k hj hk hpid
      rw [if_neg fun hc => by rw [hright] at hc; exact nomatch hc.2] at hstatus
      rw [if_neg fun hc => nomatch hc.2]
      exact hstatus
    · intro found hfound
      cases hfound
      obtain ⟨k, hk, hpid, -⟩ := h.blocked hblocked (by rw [hright]; exact nofun)
      have hfind := h.reaping.find hk
      rw [hpid] at hfind
      exact ⟨k, hfind, hk, hpid⟩
  · obtain ⟨k, hsome, hk, hpid⟩ := h.found _ hright
    cases hsome
    have hsame (j : Fin MAX_PCB) :
        ((s.shared.modify f fun p => { p with status := .ready }).slot j).pid
          = (s.shared.slot j).pid := PCB.slot_modify_pid _ f j fun _ => rfl
    refine ⟨h.reaping.ready f, ?_, ?_, fun _ hfound => nomatch hfound⟩
    · intro j hj hliving
      obtain ⟨k, hk, hpid⟩ := h.survives j hj hliving
      exact ⟨k, hk, (hsame k).trans hpid⟩
    · intro j k hj hk' hpid'
      dsimp only at hpid' ⊢
      rw [hsame] at hpid'
      rw [PCB.slot_modify]
      split
      · rename_i hfk
        rw [if_pos ⟨by rw [← hpid', ← hfk, hpid], rfl⟩]
      · rename_i hfk
        have hother : (pcb.slot j).pid ≠ pid := fun hc =>
          hfk (h.reaping.eq hk hk' (by rw [hpid, hpid', hc]))
        have hstatus := h.status j k hj hk' hpid'
        rw [if_neg fun hc => hother hc.1] at hstatus ⊢
        exact hstatus

/-- The write hits a slot above the process. -/
theorem Bad.right (h : Bad pid s) (hstep : step pid s .right = .ok s') : Bad pid s' := by
  obtain ⟨shared, right, hunblock, rfl⟩ := step_right_eq_ok.mp hstep
  obtain ⟨k, hk, hpid, hstatus, hwhere⟩ := h.missed
  rcases unblockStep_eq_ok hunblock with ⟨hright, rfl, rfl⟩ | ⟨f, hright, rfl, rfl⟩
  · rw [hright] at hwhere
    rcases hwhere with ⟨_, hc, -⟩ | hc
    · cases hc
    · cases hc
  · rw [hright] at hwhere
    rcases hwhere with ⟨j, hj, hlt⟩ | hc
    · cases hj
      have hslot := PCB.slot_modify_ne s.shared (fun p => { p with status := .ready }) hlt.ne'
      exact ⟨h.reaping.ready f, k, hk, by rw [hslot, hpid], by rw [hslot, hstatus], .inr rfl⟩
    · cases hc

/-! ## Runs -/

theorem Good.step {e : Side} (h : Good pcb pid s) (hblocked : Blocked pcb pid)
    (hg : Undisturbed pid s e) (hstep : UnblockRace.step pid s e = .ok s') : Good pcb pid s' := by
  cases e with
  | left => exact h.left hblocked hg hstep
  | right => exact h.right hblocked hstep

theorem Bad.step {e : Side} (h : Bad pid s) (hstep : UnblockRace.step pid s e = .ok s') :
    Bad pid s' := by
  cases e with
  | left => exact h.left hstep
  | right => exact h.right hstep

theorem Good.lands (h : Good pcb pid t) (hdone : t.Done) : Lands pcb t.shared pid := by
  have hoccupied {k : Fin MAX_PCB} : t.shared.Occupied t.left k ↔ k.val < t.shared.last.toNat := by
    rw [hdone.1]
    exact ⟨And.left, fun hk => ⟨hk, Nat.ne_of_lt hk⟩⟩
  constructor
  · intro j hj hliving
    obtain ⟨k, hk, hpid⟩ := h.survives j hj hliving
    exact ⟨k, hoccupied.mp hk, hpid⟩
  · intro j k hj hk hpid
    have hstatus := h.status j k hj (hoccupied.mpr hk) hpid
    simp only [hdone.2, and_true] at hstatus
    exact hstatus

theorem Bad.not_lands (h : Bad pid t) (hblocked : Blocked pcb pid) :
    ¬ Lands pcb t.shared pid := by
  intro hlands
  obtain ⟨k, hk, hpid, hstatus, -⟩ := h.missed
  obtain ⟨b, hb, hpid', -⟩ := hblocked
  have hready := hlands.status b k hb hk.1 (hpid.trans hpid'.symm)
  rw [if_pos hpid', hstatus] at hready
  cases hready

theorem Good.run {es : List Side} (h : Good pcb pid s) (hblocked : Blocked pcb pid)
    (hrun : Run.run (UnblockRace.step pid) s es = .ok t) :
    (Run.Meets (UnblockRace.step pid) (Undisturbed pid) s es ∧ Good pcb pid t) ∨
    (¬ Run.Meets (UnblockRace.step pid) (Undisturbed pid) s es ∧ Bad pid t) := by
  induction es generalizing s with
  | nil =>
      cases hrun
      exact .inl ⟨Run.meets_nil, h⟩
  | cons e es ih =>
      obtain ⟨s', hstep, hrest⟩ := Run.run_cons_eq_ok.mp hrun
      by_cases hg : Undisturbed pid s e
      · rcases ih (h.step hblocked hg hstep) hrest with ⟨hm, hgood⟩ | ⟨hm, hbad⟩
        · exact .inl ⟨.cons_of_ok hg hstep hm, hgood⟩
        · exact .inr ⟨fun hc => hm (hc.2 s' hstep), hbad⟩
      · refine .inr ⟨fun hc => hg hc.1, ?_⟩
        cases e with
        | left => exact Run.run_preserves (Bad pid) Bad.step (h.disturbed hblocked hg hstep) hrest
        | right => exact absurd trivial hg

/-! ## One call after the other -/

/-- Alone, the steps of `p_unblock` are `p_unblock`. -/
theorem unblock_alone {app : App}
    (hrun : Run.run (step pid) (start app.pcb) [.right, .right] = .ok t) :
    pUnblock app pid = .ok { app with pcb := t.shared } := by
  obtain ⟨s₁, hfind, hrest⟩ := Run.run_cons_eq_ok.mp hrun
  obtain ⟨s₂, hwrite, hnil⟩ := Run.run_cons_eq_ok.mp hrest
  cases hnil
  obtain ⟨shared₁, right₁, hstep₁, rfl⟩ := step_right_eq_ok.mp hfind
  cases hstep₁
  obtain ⟨shared₂, right₂, hstep₂, rfl⟩ := step_right_eq_ok.mp hwrite
  have hlock : app.pcb.pcbS ≠ 0 := by
    obtain ⟨n, hn, -⟩ := Except.bind_eq_ok.mp (Option.some.inj hstep₂)
    have hn := semWait_eq_ok.mp hn
    exact fun hzero => absurd (hzero.symm.trans hn) (Nat.succ_ne_zero n).symm
  rcases unblockStep_eq_ok hstep₂ with ⟨hc, -, -⟩ | ⟨k, hk, -, rfl⟩
  · cases hc
  · exact pUpdate_eq _ (UnblockPc.write.inj hk) hlock

theorem step_scan {r : UnblockRace} {k : Fin MAX_PCB} (hleft : r.left = .scan k.val) :
    step pid r .left = .ok
      { r with
        left :=
          if (r.shared.slot k).status = .kill then .move k.val (k.val + 1)
          else .scan (k.val + 1) } := by
  refine step_left_eq_ok.mpr ⟨_, _, ?_, rfl⟩
  rw [hleft]
  exact reapStep_scan r.shared k.isLt

theorem step_move {r : UnblockRace} {i j : Nat} (hlock : r.shared.pcbS ≠ 0)
    (hleft : r.left = .move i j) :
    step pid r .left = .ok
      (if h : j < MAX_PCB then
        { r with shared := r.shared.moveDown j h, left := .move i (j + 1) }
      else
        { r with
          shared := { r.shared with last := r.shared.last - 1 }
          left := .scan (i + 1) }) := by
  obtain ⟨m, hm⟩ := Nat.exists_eq_succ_of_ne_zero hlock
  have hwait : semWait .pcbS r.shared.pcbS = .ok m := semWait_eq_ok.mpr hm
  rw [step, Interleave.step, hleft, reapStep, hwait, Except.ok_bind_run]
  by_cases h : j < MAX_PCB
  · rw [dif_pos h, dif_pos h]
  · rw [dif_neg h, dif_neg h]

/-- The sections from one on shift the slots above, and lower `last`. -/
theorem run_moves {i n : Nat} {k : Fin MAX_PCB} {r : UnblockRace} (hlock : r.shared.pcbS ≠ 0)
    (hn : k.val + n + 1 = MAX_PCB) (hleft : r.left = .move i (k.val + 1)) :
    Run.run (step pid) r (List.replicate (n + 1) .left) = .ok
      { r with
        shared := { r.shared.shift k with last := r.shared.last - 1 }
        left := .scan (i + 1) } := by
  induction n generalizing k r with
  | zero =>
      refine Run.run_cons_eq_ok.mpr ⟨_, step_move hlock hleft, ?_⟩
      rw [dif_neg (by omega), PCB.shift_last _ hn]
      rfl
  | succ n ih =>
      have hk : k.val + 1 < MAX_PCB := by omega
      refine Run.run_cons_eq_ok.mpr ⟨_, step_move hlock hleft, ?_⟩
      rw [dif_pos hk, ← PCB.shift_moveDown _ hk]
      exact ih (k := ⟨k.val + 1, hk⟩) hlock (by dsimp only; omega) rfl

/-- Alone, the steps of `scheduler_kill_process` are `scheduler_kill_process`. -/
theorem reap_alone {app app' : App} {right : UnblockPc} (h : schedulerKillProcess app = .ok app') :
    ∃ n, Run.run (step pid) { shared := app.pcb, left := .scan 0, right := right }
        (List.replicate n .left)
      = .ok { shared := app'.pcb, left := .scan MAX_PCB, right := right } := by
  refine forSlots_induct_index (fun i app₁ => ∃ n,
    Run.run (step pid) { shared := app.pcb, left := .scan 0, right := right }
        (List.replicate n .left)
      = .ok { shared := app₁.pcb, left := .scan i, right := right }) ?_ ⟨0, rfl⟩ h
  rintro app₁ app₂ k - ⟨n, hrun⟩ hbody
  have hscan : step pid { shared := app₁.pcb, left := .scan k.val, right := right } .left = _ :=
    step_scan rfl
  by_cases hdead : (app₁.pcb.slot k).status = .kill
  · have hlock : app₁.pcb.pcbS ≠ 0 := by
      rw [killBody, if_pos hdead] at hbody
      obtain ⟨m, hm, -⟩ := Except.bind_eq_ok.mp hbody
      have hm := semWait_eq_ok.mp hm
      omega
    rcases killBody_eq_ok hbody with ⟨hc, -⟩ | ⟨-, rfl⟩
    · exact absurd hdead hc
    obtain ⟨m, hm⟩ : ∃ m, k.val + m + 1 = MAX_PCB := ⟨MAX_PCB - 1 - k.val, by omega⟩
    rw [if_pos hdead] at hscan
    refine ⟨n + (m + 1 + 1), ?_⟩
    rw [← List.replicate_append_replicate]
    refine Run.run_append_eq_ok.mpr ⟨_, hrun, Run.run_cons_eq_ok.mpr ⟨_, hscan, ?_⟩⟩
    exact run_moves hlock hm rfl
  · rw [if_neg hdead] at hscan
    rcases killBody_eq_ok hbody with ⟨-, rfl⟩ | ⟨hc, -⟩
    · refine ⟨n + 1, ?_⟩
      rw [← List.replicate_append_replicate]
      exact Run.run_append_eq_ok.mpr ⟨_, hrun, Run.run_cons_eq_ok.mpr ⟨_, hscan, rfl⟩⟩
    · exact absurd hc hdead

end UnblockRace

open UnblockRace

/-- In an interleaving of `p_unblock` and `scheduler_kill_process` the status lands
on its process, and on no other, exactly when the process is not moved between
the lookup and the write. -/
theorem unblock_race (pcb : PCB) (pid : UInt32) (es : List Side) {t : UnblockRace}
    (htable : pcb.LiveTable pcb.last.toNat)
    (hstale : ∀ k : Fin MAX_PCB, pcb.last.toNat ≤ k.val → (pcb.slot k).status ≠ .kill)
    (hblocked : Blocked pcb pid)
    (hrun : Run.run (UnblockRace.step pid) (start pcb) es = .ok t) (hdone : t.Done) :
    Lands pcb t.shared pid ↔ Run.Meets (UnblockRace.step pid) (Undisturbed pid) (start pcb) es := by
  have hstart : Good pcb pid (start pcb) := .start htable hstale
  rcases hstart.run hblocked hrun with ⟨hm, hgood⟩ | ⟨hm, hbad⟩
  · exact iff_of_true (hgood.lands hdone) hm
  · exact iff_of_false (hbad.not_lands hblocked) hm

/-- A dead process, and a blocked one behind it. -/
def PCB.oneDead : PCB :=
  { (PCB.two.modify 0 fun p => { p with status := .kill }).modify 1 fun p =>
      { p with status := .blocked } with last := 2 }

theorem PCB.oneDead_liveTable : PCB.oneDead.LiveTable PCB.oneDead.last.toNat :=
  ⟨by decide, by decide⟩

theorem PCB.oneDead_blocked : Blocked PCB.oneDead 1 := ⟨1, by decide, by decide, by decide⟩

instance UnblockRace.decidableDone (s : UnblockRace) : Decidable s.Done :=
  inferInstanceAs (Decidable (_ ∧ _))

instance UnblockRace.decidableMoving (pcb : PCB) (pid : UInt32) :
    (pc : ReapPc) → Decidable (Moving pcb pid pc)
  | .scan _ => .isFalse id
  | .move _ _ => inferInstanceAs (Decidable (∃ _ : _, _))

instance UnblockRace.decidablePending : (pc : UnblockPc) → Decidable (Pending pc)
  | .find => .isFalse id
  | .write _ => .isTrue trivial
  | .done => .isFalse id

instance UnblockRace.decidableUndisturbed (pid : UInt32) (s : UnblockRace) :
    (e : Side) → Decidable (Undisturbed pid s e)
  | .left => inferInstanceAs (Decidable (_ → _))
  | .right => .isTrue trivial

theorem unblock_race_two :
    ∃ t, Run.run (UnblockRace.step 1) (start .oneDead)
        (.right :: .right :: List.replicate 22 .left) = .ok t ∧ Lands .oneDead t.shared 1 := by
  refine ⟨_, rfl, ?_⟩
  refine (unblock_race .oneDead 1 (.right :: .right :: List.replicate 22 .left)
    PCB.oneDead_liveTable (by decide) PCB.oneDead_blocked rfl (by decide)).mpr ?_
  exact (Run.runChecked_eq_some rfl).1

/-- Moved down after it was looked up, a process stays blocked. -/
theorem unblock_race_misses :
    ¬ ∀ (pcb : PCB) (pid : UInt32) (es : List Side) (t : UnblockRace),
      pcb.LiveTable pcb.last.toNat →
      (∀ k : Fin MAX_PCB, pcb.last.toNat ≤ k.val → (pcb.slot k).status ≠ .kill) →
      Blocked pcb pid → (∃ i : Fin MAX_PCB, i.val < pcb.last.toNat ∧ (pcb.slot i).status = .kill) →
      Run.run (UnblockRace.step pid) (start pcb) es = .ok t → t.Done → Lands pcb t.shared pid := by
  intro h
  have hlands := h .oneDead 1 (.right :: .left :: .left :: .right :: List.replicate 20 .left) _
    PCB.oneDead_liveTable (by decide) PCB.oneDead_blocked ⟨0, by decide, by decide⟩ rfl (by decide)
  have hready := hlands.status 1 0 (by decide) (by decide) (by decide)
  exact absurd hready (by decide)

end ChicOS
