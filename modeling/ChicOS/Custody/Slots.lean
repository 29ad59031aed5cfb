-- SUMMARY: The slots of the process table: which have been used, which is dead, and the address spaces they hold.
import ChicOS.Lib.Cells
import ChicOS.Memory.Ownership
import ChicOS.Scheduler.Scheduler

/-!
# Slots and address spaces

A slot of the table is used, with a file buffer, or still as `init_pcb` found it.
Reaping moves processes down but leaves `curr` alone, so that unused slots come to
lie between used ones; what lasts is that a used slot is the first with its pid,
that the slots from `curr` on are unused, and that at most one process is dead.

The table holds the address space of every process that is not dead.
-/

namespace ChicOS

namespace Process

variable {p q : Process}

/-- As in static storage, but for the status and the time to run. -/
structure Unused (p : Process) : Prop where
  pid : p.pid = 0
  space : p.addressSpace = 0
  it : p.c.it = 0
  alive : p.status ≠ .kill

/-- Waiting for a device or for a semaphore. -/
def Parked (p : Process) : Prop := p.status = .blocked ∨ p.status = .waiting

theorem not_parked_of_running (h : p.status = .running) : ¬ p.Parked := by
  simp [Parked, h]

/-- The address spaces a process holds: its own, until it is dead. -/
def spaces (p : Process) : List Addr :=
  if p.status = .kill ∨ p.addressSpace = 0 then [] else [p.addressSpace]

/-- The same process, dead if it was dead before. -/
structure Same (p q : Process) : Prop where
  pid : q.pid = p.pid
  fb : q.fb = p.fb
  space : q.addressSpace = p.addressSpace
  it : q.c.it = p.c.it
  dead : q.status = .kill ↔ p.status = .kill

theorem Same.unused (h : Same p q) (hp : p.Unused) : q.Unused :=
  ⟨h.pid.trans hp.pid, h.space.trans hp.space, h.it.trans hp.it, fun hq => hp.alive (h.dead.mp hq)⟩

theorem Same.spaces (h : Same p q) : q.spaces = p.spaces := by
  simp only [Process.spaces, h.space, h.dead]

theorem Unused.zero : Process.zero.Unused := ⟨rfl, rfl, rfl, by decide⟩

theorem spaces_unused (h : p.Unused) : p.spaces = [] := if_pos (.inr h.space)

theorem spaces_dead (h : p.status = .kill) : p.spaces = [] := if_pos (.inl h)

theorem spaces_none (h : p.addressSpace = 0) : p.spaces = [] := if_pos (.inr h)

theorem spaces_some (h : p.status ≠ .kill) (hspace : p.addressSpace ≠ 0) :
    p.spaces = [p.addressSpace] := if_neg (not_or.mpr ⟨h, hspace⟩)

end Process

namespace PCB

variable {pcb : PCB} {i : Fin MAX_PCB} {f : Process → Process}

/-! ## The shape of the table -/

structure Shape (pcb : PCB) : Prop where
  curr_le : pcb.curr.toNat ≤ MAX_PCB - 1
  lastPid : pcb.lastPid.toNat = pcb.curr.toNat
  pid_lt : ∀ k : Fin MAX_PCB, k.val < pcb.curr.toNat → (pcb.slot k).pid.toNat < pcb.curr.toNat
  unused : ∀ k : Fin MAX_PCB, pcb.curr.toNat ≤ k.val → (pcb.slot k).fb = 0
  hole : ∀ k, (pcb.slot k).fb = 0 → (pcb.slot k).Unused
  first : ∀ j k, j < k → (pcb.slot k).fb ≠ 0 → (pcb.slot j).pid ≠ (pcb.slot k).pid
  oneDead : ∀ j k, (pcb.slot j).status = .kill → (pcb.slot k).status = .kill → j = k

/-- No process is dead. -/
def NoneDead (pcb : PCB) : Prop := ∀ k, (pcb.slot k).status ≠ .kill

namespace Shape

theorem find (h : pcb.Shape) {k : Fin MAX_PCB} (hk : (pcb.slot k).fb ≠ 0) :
    pcb.find (pcb.slot k).pid = some k := find_of_first fun j hj => h.first j k hj hk

/-- Used slots have different pids. -/
theorem eq_of_pid (h : pcb.Shape) {j k : Fin MAX_PCB} (hj : (pcb.slot j).fb ≠ 0)
    (hk : (pcb.slot k).fb ≠ 0) (hpid : (pcb.slot j).pid = (pcb.slot k).pid) : j = k := by
  have hfind := h.find hj
  rw [hpid, h.find hk] at hfind
  exact (Option.some.inj hfind).symm

theorem lt_of_used (h : pcb.Shape) {k : Fin MAX_PCB} (hk : (pcb.slot k).fb ≠ 0) :
    k.val < pcb.curr.toNat := by
  by_contra hle
  exact hk (h.unused k (Nat.le_of_not_lt hle))

/-- The table's counters and its slots are all the shape is about. -/
theorem of_slots (h : pcb.Shape) {pcb' : PCB} (hcurr : pcb'.curr = pcb.curr)
    (hlastPid : pcb'.lastPid = pcb.lastPid) (hslot : ∀ k, pcb'.slot k = pcb.slot k) :
    pcb'.Shape := by
  refine ⟨?_, ?_, ?_, ?_, ?_, ?_, ?_⟩ <;> simp only [hcurr, hlastPid, hslot]
  · exact h.curr_le
  · exact h.lastPid
  · exact h.pid_lt
  · exact h.unused
  · exact h.hole
  · exact h.first
  · exact h.oneDead

/-- A change of one slot that keeps its pid and its buffer, and adds no second dead
process. -/
theorem modify (h : pcb.Shape) (hpid : (f (pcb.slot i)).pid = (pcb.slot i).pid)
    (hfb : (f (pcb.slot i)).fb = (pcb.slot i).fb)
    (hunused : (pcb.slot i).fb = 0 → (f (pcb.slot i)).Unused)
    (hdead : (f (pcb.slot i)).status = .kill → ∀ j, (pcb.slot j).status = .kill → j = i) :
    (pcb.modify i f).Shape := by
  have hpids : ∀ k, ((pcb.modify i f).slot k).pid = (pcb.slot k).pid :=
    fun k => pcb.slot_modify_congr i k Process.pid hpid
  have hfbs : ∀ k, ((pcb.modify i f).slot k).fb = (pcb.slot k).fb :=
    fun k => pcb.slot_modify_congr i k Process.fb hfb
  refine ⟨h.curr_le, h.lastPid, ?_, ?_, ?_, ?_, ?_⟩
  · intro k hk
    rw [hpids]
    exact h.pid_lt k hk
  · intro k hk
    rw [hfbs]
    exact h.unused k hk
  · intro k hk
    rw [hfbs] at hk
    rw [slot_modify]
    split
    · rename_i hik
      subst hik
      exact hunused hk
    · exact h.hole k hk
  · intro j k hjk hk
    rw [hfbs] at hk
    rw [hpids, hpids]
    exact h.first j k hjk hk
  · intro j k hj hk
    rw [slot_modify] at hj hk
    split at hj
    · split at hk
      · exact ‹i = j›.symm.trans ‹i = k›
      · exact ((hdead hj k hk).trans ‹i = j›).symm
    · split at hk
      · exact (hdead hk j hj).trans ‹i = k›
      · exact h.oneDead j k hj hk

theorem modify_same (h : pcb.Shape) (hf : (pcb.slot i).Same (f (pcb.slot i))) :
    (pcb.modify i f).Shape :=
  h.modify hf.pid hf.fb (fun hfb => hf.unused (h.hole i hfb))
    fun hkill j hj => h.oneDead j i hj (hf.dead.mp hkill)

/-- A process dies, while no other is dead. -/
theorem modify_dead (h : pcb.Shape) (hnone : pcb.NoneDead) (hi : (pcb.slot i).fb ≠ 0)
    (hpid : (f (pcb.slot i)).pid = (pcb.slot i).pid)
    (hfb : (f (pcb.slot i)).fb = (pcb.slot i).fb) : (pcb.modify i f).Shape :=
  h.modify hpid hfb (fun hfree => absurd hfree hi) fun _ j hj => absurd hj (hnone j)

/-- A slot with code is used. -/
theorem used_of_it (h : pcb.Shape) {k : Fin MAX_PCB} (hk : (pcb.slot k).c.it ≠ 0) :
    (pcb.slot k).fb ≠ 0 := fun hfb => hk (h.hole k hfb).it

theorem find_it (h : pcb.Shape) {k : Fin MAX_PCB} (hk : (pcb.slot k).c.it ≠ 0) :
    pcb.find (pcb.slot k).pid = some k := h.find (h.used_of_it hk)

theorem used_of_dead (h : pcb.Shape) {k : Fin MAX_PCB} (hk : (pcb.slot k).status = .kill) :
    (pcb.slot k).fb ≠ 0 := fun hfb => (h.hole k hfb).alive hk

/-- A new process takes the slot `curr` names. -/
theorem enter (h : pcb.Shape) {p : Process} (hcurr : pcb.curr.toNat < MAX_PCB - 1)
    (hpid : p.pid = pcb.lastPid.toUInt32) (hfb : p.fb ≠ 0) (halive : p.status ≠ .kill) :
    Shape { pcb.enter p (Nat.lt_of_lt_pred hcurr) with lastPid := pcb.lastPid + 1 } := by
  have hlt := Nat.lt_of_lt_pred hcurr
  have hlastPid := h.lastPid
  have hten : pcb.curr.toNat < 10 := hcurr
  have hcurr' : (pcb.curr + 1).toNat = pcb.curr.toNat + 1 := u8_toNat_add_one (by omega)
  have hlastPid' : (pcb.lastPid + 1).toNat = pcb.lastPid.toNat + 1 := u16_toNat_add_one (by omega)
  have hslot : ∀ k, PCB.slot { pcb.enter p hlt with lastPid := pcb.lastPid + 1 } k
      = if pcb.curr.toNat = k.val then p else pcb.slot k := slot_enter pcb p hlt
  have hpid' : p.pid.toNat = pcb.curr.toNat := by
    rw [hpid, UInt16.toNat_toUInt32, hlastPid]
  refine ⟨?_, ?_, ?_, ?_, ?_, ?_, ?_⟩
  · show (pcb.curr + 1).toNat ≤ 10
    omega
  · show (pcb.lastPid + 1).toNat = (pcb.curr + 1).toNat
    omega
  · intro k hk
    have hk : k.val < (pcb.curr + 1).toNat := hk
    show _ < (pcb.curr + 1).toNat
    rw [hslot]
    split
    · omega
    · have := h.pid_lt k (by omega)
      omega
  · intro k hk
    have hk : (pcb.curr + 1).toNat ≤ k.val := hk
    rw [hslot, if_neg (by omega)]
    exact h.unused k (by omega)
  · intro k hk
    rw [hslot] at hk ⊢
    split at hk
    · exact absurd hk hfb
    · rw [if_neg ‹_›]
      exact h.hole k hk
  · intro j k hjk hk
    have hjk' : j.val < k.val := hjk
    rw [hslot] at hk
    rw [hslot, hslot]
    split at hk
    · -- all pids in the table are smaller than the new one
      rename_i heq
      have hj := h.pid_lt j (by omega)
      rw [if_neg (by omega), if_pos heq]
      intro hpids
      rw [hpids] at hj
      omega
    · rename_i hne
      have hused := h.lt_of_used hk
      rw [if_neg (by omega), if_neg hne]
      exact h.first j k hjk hk
  · intro j k hj hk
    rw [hslot] at hj hk
    split at hj
    · exact absurd hj halive
    · split at hk
      · exact absurd hk halive
      · exact h.oneDead j k hj hk

theorem start : (initPcb PCB.zero).Shape where
  curr_le := by decide
  lastPid := rfl
  pid_lt k hk := absurd hk (Nat.not_lt_zero _)
  unused k _ := congrArg Process.fb (slot_initPcb k)
  hole k _ := by
    rw [slot_initPcb]
    exact .zero
  first j k _ hk := absurd (congrArg Process.fb (slot_initPcb k)) hk
  oneDead j k hj := by
    rw [slot_initPcb] at hj
    cases hj

end Shape

/-! ## Reaping -/

/-- The slot whose process `shift` puts in a slot. -/
def shiftFrom (i j : Fin MAX_PCB) : Fin MAX_PCB :=
  if i ≤ j then if h : j.val + 1 < MAX_PCB then ⟨j.val + 1, h⟩ else j else j

theorem shiftFrom_val (i j : Fin MAX_PCB) :
    (shiftFrom i j).val = if i.val ≤ j.val ∧ j.val < 10 then j.val + 1 else j.val := by
  have hlast : j.val + 1 < MAX_PCB ↔ j.val < 10 := Nat.add_lt_add_iff_right (k := 1) (n := j.val)
  unfold shiftFrom
  by_cases hij : i ≤ j
  · rw [if_pos hij]
    split
    · exact (if_pos ⟨hij, hlast.mp ‹_›⟩).symm
    · exact (if_neg fun h => ‹¬ _› (hlast.mpr h.2)).symm
  · rw [if_neg hij]
    exact (if_neg fun h => hij h.1).symm

/-- Every process but the one that is reaped is put somewhere. -/
theorem exists_shiftFrom {i k : Fin MAX_PCB} (h : i ≠ k) : ∃ j, shiftFrom i j = k := by
  have hne : i.val ≠ k.val := fun heq => h (Fin.ext heq)
  have hk : k.val < 11 := k.isLt
  by_cases hlt : i.val < k.val
  · refine ⟨⟨k.val - 1, Nat.lt_of_le_of_lt (Nat.sub_le _ _) k.isLt⟩, Fin.ext ?_⟩
    rw [shiftFrom_val, if_pos ⟨Nat.le_sub_one_of_lt hlt, by dsimp only; omega⟩]
    dsimp only
    omega
  · exact ⟨k, Fin.ext (by rw [shiftFrom_val, if_neg (by omega)])⟩

theorem slot_shift_from (pcb : PCB) (i j : Fin MAX_PCB) :
    (pcb.shift i).slot j = pcb.slot (shiftFrom i j) := by
  rw [slot_shift]
  unfold shiftFrom
  split
  · rename_i h
    rw [if_pos h.1, dif_pos h.2]
  · rename_i h
    split
    · rw [dif_neg fun hlast => h ⟨‹_›, hlast⟩]
    · rfl

theorem Shape.shift (h : pcb.Shape) (i : Fin MAX_PCB) : (pcb.shift i).Shape := by
  have hten : pcb.curr.toNat ≤ 10 := h.curr_le
  refine ⟨h.curr_le, h.lastPid, ?_, ?_, ?_, ?_, ?_⟩
  · intro k hk
    have hk : k.val < pcb.curr.toNat := hk
    show _ < pcb.curr.toNat
    rw [slot_shift_from]
    by_cases hlt : (shiftFrom i k).val < pcb.curr.toNat
    · exact h.pid_lt _ hlt
    · have hfree := h.unused _ (Nat.le_of_not_lt hlt)
      rw [(h.hole _ hfree).pid]
      exact Nat.zero_lt_of_lt hk
  · intro k hk
    have hk : pcb.curr.toNat ≤ k.val := hk
    have hval := shiftFrom_val i k
    rw [slot_shift_from]
    refine h.unused _ ?_
    split at hval <;> omega
  · intro k hk
    rw [slot_shift_from] at hk ⊢
    exact h.hole _ hk
  · intro j k hjk hk
    rw [slot_shift_from] at hk
    rw [slot_shift_from, slot_shift_from]
    have hjk : j.val < k.val := hjk
    have hused := h.lt_of_used hk
    have hj := shiftFrom_val i j
    have hk' := shiftFrom_val i k
    refine h.first _ _ (Fin.lt_def.mpr ?_) hk
    split at hj <;> split at hk' <;> omega
  · intro j k hj hk
    rw [slot_shift_from] at hj hk
    have hused := h.lt_of_used (h.used_of_dead hj)
    have heq := congrArg Fin.val (h.oneDead _ _ hj hk)
    have hj' := shiftFrom_val i j
    have hk' := shiftFrom_val i k
    refine Fin.ext ?_
    split at hj' <;> split at hk' <;> omega

/-- Reaping the dead process leaves no other. -/
theorem Shape.shift_noneDead (h : pcb.Shape) (hi : (pcb.slot i).status = .kill) :
    (pcb.shift i).NoneDead := by
  intro j hj
  rw [slot_shift_from] at hj
  have hten : pcb.curr.toNat ≤ 10 := h.curr_le
  have hused := h.lt_of_used (h.used_of_dead hi)
  have heq := congrArg Fin.val (h.oneDead _ _ hj hi)
  have hval := shiftFrom_val i j
  split at hval <;> omega

/-! ## Address spaces -/

/-- The address spaces of the processes that are not dead. -/
def spaces (pcb : PCB) : List Addr := Cells.held Process.spaces pcb.processStack

/-- Those of all processes but one. -/
def spacesBut (pcb : PCB) (i : Fin MAX_PCB) : List Addr :=
  Cells.others Process.spaces pcb.processStack i.val

theorem spaces_perm (pcb : PCB) (i : Fin MAX_PCB) :
    pcb.spaces.Perm ((pcb.slot i).spaces ++ pcb.spacesBut i) :=
  Cells.held_perm pcb.processStack i.isLt

theorem spaces_modify (pcb : PCB) (i : Fin MAX_PCB) (f : Process → Process) :
    (pcb.modify i f).spaces.Perm ((f (pcb.slot i)).spaces ++ pcb.spacesBut i) :=
  Cells.held_set_perm pcb.processStack i.isLt _

theorem spaces_same (hf : (pcb.slot i).Same (f (pcb.slot i))) :
    (pcb.modify i f).spaces.Perm pcb.spaces :=
  Cells.held_set_of_eq pcb.processStack i.isLt hf.spaces

/-- A new process brings its address space. -/
theorem spaces_enter (h : pcb.Shape) (p : Process) (hcurr : pcb.curr.toNat < MAX_PCB) :
    (pcb.enter p hcurr).spaces.Perm (p.spaces ++ pcb.spaces) := by
  have hfree := h.hole ⟨_, hcurr⟩ (h.unused ⟨_, hcurr⟩ le_rfl)
  have hbut := pcb.spaces_perm ⟨_, hcurr⟩
  rw [Process.spaces_unused hfree, List.nil_append] at hbut
  have henter : (pcb.enter p hcurr).spaces.Perm (p.spaces ++ pcb.spacesBut ⟨_, hcurr⟩) :=
    Cells.held_set_perm pcb.processStack hcurr p
  exact henter.trans (hbut.symm.append_left _)

/-- Reaping takes no address space away from a process that stays. -/
theorem spaces_shift (h : pcb.Shape) (i : Fin MAX_PCB) :
    (pcb.shift i).spaces.Sublist pcb.spaces := by
  have hlast : pcb.curr.toNat ≤ (10 : Fin MAX_PCB).val := h.curr_le
  have hnil := Process.spaces_unused (h.hole 10 (h.unused 10 hlast))
  exact Cells.held_shift_sublist pcb.processStack _ i.isLt (rfl : 10 + 1 = MAX_PCB)
    (fun j hj => slot_shift pcb i ⟨j, hj⟩) hnil

end PCB

end ChicOS
