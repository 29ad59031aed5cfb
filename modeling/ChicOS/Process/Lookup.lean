-- SUMMARY: Lookup by pid over whole histories of the table: which pids the calls of the kernel are safe on.
import ChicOS.Process.TableInvariant
import ChicOS.Scheduler.Reaping

/-!
# Lookup over histories

Pids are handed out in growing order and never again, a process is created in a slot
of its pid's number and only ever moves down, and a slot in which no process was
created has the pid 0, like the first process. So a process in the table is found under
its pid. A pid that no process has may still be found: 0, in a slot that is empty. And
where nothing is found, three of the four callers go on with `NULL`.
-/

namespace ChicOS

/-- Created, and neither killed nor reaped. -/
def Process.Live (p : Process) : Prop := p.fb ≠ 0 ∧ ¬ p.Dead

/-- Some process in the table has the pid. -/
def App.HasLive (app : App) (pid : UInt32) : Prop :=
  ∃ k : Fin MAX_PCB, (app.pcb.slot k).Live ∧ (app.pcb.slot k).pid = pid

/-- The pid is not found, the calls return, and the table is what it was, also for a
reaping that comes after them. -/
structure App.Harmless (app : App) (pid : UInt32) : Prop where
  find : pFind app pid = none
  kill : ∃ app', pKill app pid = .ok app' ∧ app'.pcb = app.pcb
  interrupt : ∃ app', pInterrupt app pid = .ok app' ∧ app'.pcb = app.pcb
  block : ∃ app', pBlock app pid = .ok app' ∧ app'.pcb = app.pcb
  unblock : ∃ app', pUnblock app pid = .ok app' ∧ app'.pcb = app.pcb
  reap : ∀ app' app'', pKill app pid = .ok app' → schedulerKillProcess app' = .ok app'' →
    ∃ app₁, schedulerKillProcess app = .ok app₁ ∧ app''.pcb.last = app₁.pcb.last

/-- What the calls of the kernel rely on for a pid. -/
structure App.CallsSafe (app : App) (pid : UInt32) : Prop where
  absent : ¬ app.HasLive pid → app.Harmless pid
  present : ∀ k : Fin MAX_PCB, (app.pcb.slot k).Live → (app.pcb.slot k).pid = pid →
    pFind app pid = some k

/-! ## The invariant -/

/-- The processes in a table, dead or alive, stand in the order of their pids, none
above the slot of its pid's number; and the counters of creations agree. -/
structure PCB.Ordered (pcb : PCB) : Prop where
  curr : pcb.curr.toNat ≤ MAX_PCB - 1
  lastPid : pcb.lastPid.toNat = pcb.curr.toNat
  empty : ∀ k : Fin MAX_PCB, (pcb.slot k).fb = 0 → (pcb.slot k).pid = 0
  low : ∀ k : Fin MAX_PCB, (pcb.slot k).fb ≠ 0 → k.val ≤ (pcb.slot k).pid.toNat
  below : ∀ k : Fin MAX_PCB, (pcb.slot k).fb ≠ 0 → (pcb.slot k).pid.toNat < pcb.lastPid.toNat
  increasing : ∀ j k : Fin MAX_PCB, j < k → (pcb.slot j).fb ≠ 0 → (pcb.slot k).fb ≠ 0 →
    (pcb.slot j).pid.toNat < (pcb.slot k).pid.toNat

namespace PCB.Ordered

variable {pcb pcb' : PCB}

theorem start : (initPcb PCB.zero).Ordered := by
  refine ⟨by decide, rfl, fun k _ => ?_, fun k hk => ?_, fun k hk => ?_, fun j k _ hj => ?_⟩
  · rw [slot_initPcb]
    rfl
  · exact absurd (congrArg Process.fb (slot_initPcb k)) hk
  · exact absurd (congrArg Process.fb (slot_initPcb k)) hk
  · exact absurd (congrArg Process.fb (slot_initPcb j)) hj

/-- Every slot has what another had, in the same order, or no process. -/
theorem of_slots (h : pcb.Ordered) (f : Fin MAX_PCB → Fin MAX_PCB)
    (hcurr : pcb'.curr = pcb.curr) (hlastPid : pcb'.lastPid = pcb.lastPid)
    (hpid : ∀ k, (pcb'.slot k).pid = (pcb.slot (f k)).pid)
    (hfb : ∀ k, (pcb'.slot k).fb = (pcb.slot (f k)).fb) (hle : ∀ k, k ≤ f k)
    (hmono : ∀ j k, j < k → (pcb.slot (f k)).fb ≠ 0 → f j < f k) : pcb'.Ordered where
  curr := hcurr ▸ h.curr
  lastPid := by rw [hlastPid, hcurr, h.lastPid]
  empty := fun k hk => (hpid k).trans (h.empty (f k) ((hfb k).symm.trans hk))
  low := by
    intro k hk
    rw [hfb] at hk
    rw [hpid]
    exact Nat.le_trans (hle k) (h.low (f k) hk)
  below := by
    intro k hk
    rw [hfb] at hk
    rw [hpid, hlastPid]
    exact h.below (f k) hk
  increasing := by
    intro j k hjk hj hk
    rw [hfb] at hj hk
    rw [hpid, hpid]
    exact h.increasing (f j) (f k) (hmono j k hjk hk) hj hk

/-- Marking a process moves none. -/
theorem mark (h : pcb.Ordered) (i : Fin MAX_PCB) (s : PStatus) :
    (pcb.modify i fun p => { p with status := s }).Ordered :=
  h.of_slots id rfl rfl (fun k => PCB.slot_modify_pid pcb i k fun _ => rfl)
    (fun k => PCB.slot_modify_congr pcb i k Process.fb rfl) (fun k => le_refl k)
    fun _ _ hjk _ => hjk

/-- The last slot is never used. -/
theorem last_empty (h : pcb.Ordered) : (pcb.slot (Fin.last 10)).fb = 0 := by
  by_contra hfb
  have hlow : 10 ≤ (pcb.slot (Fin.last 10)).pid.toNat := h.low (Fin.last 10) hfb
  have hbelow := h.below (Fin.last 10) hfb
  have hcurr : pcb.curr.toNat ≤ 10 := h.curr
  have hlast := h.lastPid
  omega

/-- Moving the processes behind a slot one slot down. -/
theorem shift (h : pcb.Ordered) (i : Fin MAX_PCB) {last : UInt8} :
    ({ pcb.shift i with last := last } : PCB).Ordered := by
  let f (k : Fin MAX_PCB) : Fin MAX_PCB :=
    if hk : i ≤ k ∧ k.val + 1 < MAX_PCB then ⟨k.val + 1, hk.2⟩ else k
  have hslot (k : Fin MAX_PCB) : (pcb.shift i).slot k = pcb.slot (f k) := by
    rw [slot_shift]
    exact (apply_dite pcb.slot _ _ _).symm
  refine h.of_slots f rfl rfl (fun k => congrArg Process.pid (hslot k))
    (fun k => congrArg Process.fb (hslot k)) (fun k => ?_) fun j k hjk hk => ?_
  · unfold f
    split
    · exact Fin.le_def.mpr (Nat.le_succ _)
    · exact le_refl k
  · -- two slots may both have the last one's process, but there is none
    have hlast : f (Fin.last 10) = Fin.last 10 := dif_neg fun hmove => absurd hmove.2 (by decide)
    have hk10 : k.val < 10 := by
      refine Nat.lt_of_le_of_ne (Nat.lt_succ_iff.mp k.isLt) fun heq => ?_
      obtain rfl : k = Fin.last 10 := Fin.ext heq
      rw [hlast] at hk
      exact hk h.last_empty
    have hk11 : k.val + 1 < MAX_PCB := Nat.succ_lt_succ hk10
    have hj10 : j.val + 1 < MAX_PCB := Nat.lt_trans (Nat.succ_lt_succ hjk) hk11
    have hjk' : j.val < k.val := hjk
    unfold f
    by_cases hij : i ≤ j
    · have hik : i ≤ k := le_trans hij (le_of_lt hjk)
      rw [dif_pos ⟨hij, hj10⟩, dif_pos ⟨hik, hk11⟩]
      exact Fin.lt_def.mpr (Nat.succ_lt_succ hjk')
    · rw [dif_neg fun hmove => hij hmove.1]
      split
      · exact Fin.lt_def.mpr (Nat.lt_succ_of_lt hjk')
      · exact hjk

/-- A process that is created takes the slot and the pid of the same number. -/
theorem enter (h : pcb.Ordered) {p : Process} (hroom : pcb.curr.toNat < MAX_PCB - 1)
    (hpid : p.pid = pcb.lastPid.toUInt32) (hfb : p.fb ≠ 0) :
    ({ pcb.enter p (Nat.lt_of_lt_pred hroom) with lastPid := pcb.lastPid + 1 } : PCB).Ordered := by
  have hten : pcb.curr.toNat < 10 := hroom
  have hlast := h.lastPid
  have hnew : p.pid.toNat = pcb.curr.toNat := by rw [hpid, UInt16.toNat_toUInt32, hlast]
  have hcurr : (pcb.curr + 1).toNat = pcb.curr.toNat + 1 := u8_toNat_add_one (by omega)
  have hnext : (pcb.lastPid + 1).toNat = pcb.curr.toNat + 1 := by
    rw [u16_toNat_add_one (by omega), hlast]
  have hslot (k : Fin MAX_PCB) :
      ({ pcb.enter p (Nat.lt_of_lt_pred hroom) with lastPid := pcb.lastPid + 1 } : PCB).slot k
        = if pcb.curr.toNat = k.val then p else pcb.slot k :=
    PCB.slot_enter pcb p (Nat.lt_of_lt_pred hroom) k
  refine ⟨?_, hnext.trans hcurr.symm, fun k hk => ?_, fun k hk => ?_, fun k hk => ?_,
    fun j k hjk hj hk => ?_⟩
  · show (pcb.curr + 1).toNat ≤ 10
    omega
  · rw [hslot] at hk ⊢
    by_cases hnewk : pcb.curr.toNat = k.val
    · rw [if_pos hnewk] at hk
      exact absurd hk hfb
    · rw [if_neg hnewk] at hk ⊢
      exact h.empty k hk
  · rw [hslot] at hk ⊢
    by_cases hnewk : pcb.curr.toNat = k.val
    · rw [if_pos hnewk, hnew]
      exact Nat.le_of_eq hnewk.symm
    · rw [if_neg hnewk] at hk ⊢
      exact h.low k hk
  · show _ < (pcb.lastPid + 1).toNat
    rw [hslot] at hk ⊢
    rw [hnext]
    by_cases hnewk : pcb.curr.toNat = k.val
    · rw [if_pos hnewk, hnew]
      exact Nat.lt_succ_self _
    · rw [if_neg hnewk] at hk ⊢
      exact Nat.lt_succ_of_lt (hlast ▸ h.below k hk)
  · have hlt : j.val < k.val := hjk
    rw [hslot] at hj hk ⊢
    rw [hslot k]
    by_cases hnewj : pcb.curr.toNat = j.val
    · -- no process stands above the slot of a creation
      have hnewk : pcb.curr.toNat ≠ k.val := by omega
      rw [if_neg hnewk] at hk
      have hlow := h.low k hk
      have hbelow := h.below k hk
      omega
    · rw [if_neg hnewj] at hj ⊢
      have hbelow := h.below j hj
      by_cases hnewk : pcb.curr.toNat = k.val
      · rw [if_pos hnewk]
        omega
      · rw [if_neg hnewk] at hk ⊢
        exact h.increasing j k hjk hj hk

/-- A process is found under its pid. -/
theorem find (h : pcb.Ordered) {k : Fin MAX_PCB} (hk : (pcb.slot k).fb ≠ 0) :
    pcb.find (pcb.slot k).pid = some k := by
  refine PCB.find_of_first fun j hj heq => ?_
  by_cases hfb : (pcb.slot j).fb = 0
  · -- an empty slot has the pid of the first process, which stands in the first slot
    have hlow := h.low k hk
    have hzero : (pcb.slot k).pid.toNat = 0 := by
      rw [← heq, h.empty j hfb]
      rfl
    have hlt : j.val < k.val := hj
    omega
  · have hlt := h.increasing j k hj hfb hk
    rw [heq] at hlt
    exact Nat.lt_irrefl _ hlt

end PCB.Ordered

/-! ## Histories -/

theorem killBody_ordered {app app' : App} {i : Fin MAX_PCB} (h : app.pcb.Ordered)
    (hbody : killBody app i = .ok app') : app'.pcb.Ordered := by
  rcases killBody_eq_ok hbody with ⟨-, rfl⟩ | ⟨-, rfl⟩
  · exact h
  · exact h.shift i

theorem tableCall_ordered {app app' : App} {c : TableCall} (h : app.pcb.Ordered)
    (hok : app.tableCall c = .ok app') : app'.pcb.Ordered := by
  cases c with
  | create address =>
      obtain ⟨⟨pid, app₁⟩, hcreate, hok⟩ := Except.bind_eq_ok.mp hok
      cases hok
      rcases pCreate_eq_ok hcreate with ⟨-, -, rfl⟩ | ⟨hroom, p, st, hp, -, rfl⟩
      · exact h
      · exact h.enter hroom hp.pid hp.fb
  | kill pid =>
      rcases pKill_eq_ok hok with ⟨-, rfl⟩ | ⟨i, -, -, ⟨-, rfl⟩ | ⟨-, mem, -, rfl⟩⟩
      · exact h
      · exact h.mark i .kill
      · exact h.mark i .kill
  | reap => exact forSlots_induct (fun a => a.pcb.Ordered) (fun _ => killBody_ordered) h hok

/-! ## Calls on a pid -/

/-- A call that does not check the lookup does not return from one that fails. -/
theorem pUpdate_absent {app app' : App} {pid : UInt32} {f : Process → Process}
    (hfind : pFind app pid = none) : pUpdate app pid f ≠ .ok app' := by
  intro h
  obtain ⟨i, hi, -⟩ := pUpdate_eq_ok h
  rw [hfind] at hi
  cases hi

/-- So the calls are harmless on no pid at all. -/
theorem App.Harmless.elim {app : App} {pid : UInt32} (h : app.Harmless pid) : False := by
  obtain ⟨app', hblock, -⟩ := h.block
  exact pUpdate_absent h.find hblock

theorem callsSafe_iff {app : App} {pid : UInt32} (h : app.pcb.Ordered) :
    app.CallsSafe pid ↔ app.HasLive pid := by
  constructor
  · intro hsafe
    by_contra habsent
    exact (hsafe.absent habsent).elim
  · intro hlive
    refine ⟨fun habsent => absurd hlive habsent, fun k hk hpid => ?_⟩
    rw [← hpid]
    exact h.find hk.1

/-- After any history of creations, kills and reapings the calls of the kernel are safe on
a pid just if a live process has it. -/
theorem calls_safe {app : App} (cs : List TableCall) {t : App} (pid : UInt32)
    (hpcb : app.pcb = initPcb PCB.zero) (hrun : Run.run App.tableCall app cs = .ok t) :
    t.CallsSafe pid ↔ t.HasLive pid :=
  callsSafe_iff (Run.run_preserves (fun a : App => a.pcb.Ordered) tableCall_ordered
    (hpcb ▸ PCB.Ordered.start) hrun)

instance Process.decidableLive (p : Process) : Decidable p.Live :=
  inferInstanceAs (Decidable (_ ∧ _))

instance App.decidableHasLive (app : App) (pid : UInt32) : Decidable (app.HasLive pid) :=
  inferInstanceAs (Decidable (∃ _ : Fin MAX_PCB, _ ∧ _))

/-- Of two processes the first is reaped; the second is found in the first slot. -/
theorem calls_safe_moved :
    ∃ t, Run.run App.tableCall App.oneFile
      [.create (ascii "a"), .create (ascii "a"), .kill 0, .reap] = .ok t ∧ t.CallsSafe 1 := by
  have hrun : ((Run.run App.tableCall App.oneFile
      [.create (ascii "a"), .create (ascii "a"), .kill 0, .reap]).toOption.map fun t =>
        decide (t.HasLive 1)) = some true := by
    decide +kernel
  obtain ⟨t, ht, hlive⟩ := Option.map_eq_some_iff.mp hrun
  have hrun := Except.toOption_eq_ok.mp ht
  exact ⟨t, hrun, (calls_safe _ 1 rfl hrun).mpr (of_decide_eq_true hlive)⟩

/-- In an empty table the pid 0 is found, in a slot without a process. -/
theorem calls_not_always_safe :
    ¬ ∀ (app : App) (cs : List TableCall) (t : App) (pid : UInt32),
      app.pcb = initPcb PCB.zero → Run.run App.tableCall app cs = .ok t → t.CallsSafe pid := by
  intro h
  have hsafe := h App.oneFile [] App.oneFile 0 rfl rfl
  have hfound : pFind App.oneFile 0 = some 0 := by decide
  have habsent := (hsafe.absent (by decide)).find
  rw [hfound] at habsent
  cases habsent

end ChicOS
