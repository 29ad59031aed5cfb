-- SUMMARY: The table's representation: two counters, the live processes in pid order, and empty slots after them.
import ChicOS.Process.Loading
import ChicOS.Scheduler.Scheduler

/-!
# The representation of the process table

`curr` and `last` both count the processes in the table, the slots below them hold
the live processes with growing pids, and the slots from there on are empty.
`p_create` and `p_kill` keep this. `scheduler_kill_process` takes a process out and
lowers `last` only, so that the next `p_create` leaves a hole: the representation
survives as long as no reaping finds a process to reap.
-/

namespace ChicOS

/-! ## Live processes -/

/-- Created and not yet reaped, in the order of creation. -/
def livePids (trace : List Event) : List UInt32 :=
  trace.foldl
    (fun live e =>
      match e with
      | .create pid => live ++ [pid]
      | .reap pid => live.erase pid
      | _ => live) []

@[simp] theorem livePids_create (trace : List Event) (pid : UInt32) :
    livePids (trace ++ [.create pid]) = livePids trace ++ [pid] := by
  simp [livePids]

@[simp] theorem livePids_release (trace : List Event) (space : Addr) (live : Bool) :
    livePids (trace ++ [.release space live]) = livePids trace := by
  simp [livePids]

def App.live (app : App) : List UInt32 := livePids app.trace

/-! ## The representation -/

structure TableOk (app : App) : Prop where
  curr : app.pcb.curr.toNat = app.live.length
  last : app.pcb.last.toNat = app.live.length
  /-- The slots hold the live processes, and each has a file buffer. -/
  slots : ∀ k : Fin MAX_PCB, k.val < app.live.length →
    app.live[k.val]? = some (app.pcb.slot k).pid ∧ (app.pcb.slot k).fb ≠ 0
  increasing : app.live.Pairwise (· < ·)
  empty : ∀ k : Fin MAX_PCB, app.live.length ≤ k.val → app.pcb.slot k = Process.zero
  /-- `p_create` refuses only when `MAX_PCB - 1` processes are live. -/
  full : MAX_PCB - 1 ≤ app.pcb.curr.toNat → app.live.length = MAX_PCB - 1

/-- The representation, and the pid counter counts the processes as well. -/
structure TableInv (app : App) : Prop extends TableOk app where
  le : app.live.length ≤ MAX_PCB - 1
  lastPid : app.pcb.lastPid.toNat = app.live.length
  pids : ∀ pid ∈ app.live, pid.toNat < app.live.length

/-! ## Calls -/

/-- A call of `p_create`, `p_kill` or `scheduler_kill_process`. -/
inductive TableCall where
  | create (address : List UInt8)
  | kill (pid : UInt32)
  | reap

def App.tableCall (app : App) : TableCall → Except Stop App
  | .create address => do
    let (_, app) ← pCreate app address
    .ok app
  | .kill pid => pKill app pid
  | .reap => schedulerKillProcess app

/-- Creations pass the test for a full table, and kills are of live pids. -/
def App.TableLegal (app : App) : TableCall → Prop
  | .create _ => app.pcb.curr.toNat < MAX_PCB - 1
  | .kill pid => pid ∈ app.live
  | .reap => True

/-- Reapings find nothing to reap. -/
def App.NothingToReap (app : App) : TableCall → Prop
  | .reap => ∀ k : Fin MAX_PCB, (app.pcb.slot k).status ≠ .kill
  | _ => True

/-! ## Steps -/

theorem forSlots_eq_self {app : App} {body : App → Fin MAX_PCB → Except Stop App} {last : Nat}
    (hlast : last ≤ MAX_PCB) (h : ∀ k : Fin MAX_PCB, body app k = .ok app) :
    forSlots last app body = .ok app := by
  unfold forSlots
  induction last with
  | zero => rfl
  | succ last ih =>
      have hlt : last < MAX_PCB := hlast
      rw [List.range_succ, List.foldlM_append, ih (by omega)]
      simp [hlt, h]

theorem schedulerKillProcess_eq_self {app : App}
    (h : ∀ k : Fin MAX_PCB, (app.pcb.slot k).status ≠ .kill) :
    schedulerKillProcess app = .ok app :=
  forSlots_eq_self le_rfl fun k => if_neg (h k)

theorem initPcb_inv {app : App} (hpcb : app.pcb = initPcb PCB.zero) (htrace : app.trace = []) :
    TableInv app := by
  have hlive : app.live = [] := by
    rw [App.live, htrace]
    rfl
  have hslot : ∀ k, app.pcb.slot k = Process.zero := by
    intro k
    rw [hpcb]
    simp [initPcb, PCB.zero, PCB.slot]
  refine ⟨⟨?_, ?_, ?_, ?_, ?_, ?_⟩, ?_, ?_, ?_⟩
  · rw [hlive, hpcb]; rfl
  · rw [hlive, hpcb]; rfl
  · intro k hk
    rw [hlive] at hk
    cases hk
  · rw [hlive]; exact List.Pairwise.nil
  · intro k _
    exact hslot k
  · rw [hpcb]
    intro hfull
    exact absurd hfull (by decide)
  · rw [hlive]; exact Nat.zero_le _
  · rw [hlive, hpcb]; rfl
  · intro pid hpid
    rw [hlive] at hpid
    cases hpid

/-- A new process takes the first empty slot, and the largest pid so far. -/
theorem TableInv.create {app app' : App} {address : List UInt8} {pid : UInt32} (h : TableInv app)
    (hroom : app.pcb.curr.toNat < MAX_PCB - 1) (hok : pCreate app address = .ok (pid, app')) :
    TableInv app' := by
  rcases pCreate_eq_ok hok with ⟨hfull, -, -⟩ | ⟨hcurr, p, st, hp, -, happ⟩
  · omega
  have hlen := h.curr
  have hlast := h.last
  have hlastPid := h.lastPid
  have hten : app.live.length < 10 := by
    rw [← hlen]
    exact hroom
  have hpid : p.pid.toNat = app.live.length := by
    rw [hp.pid, UInt16.toNat_toUInt32, hlastPid]
  have hlive : app'.live = app.live ++ [p.pid] := by
    rw [App.live, happ]
    exact livePids_create app.trace p.pid
  have hlength : app'.live.length = app.live.length + 1 := by
    rw [hlive, List.length_append, List.length_singleton]
  have hslot : ∀ k, app'.pcb.slot k = if app.live.length = k.val then p else app.pcb.slot k := by
    intro k
    rw [happ, ← hlen]
    exact PCB.slot_enter app.pcb p (Nat.lt_of_lt_pred hcurr) k
  have hcurr' : app'.pcb.curr.toNat = app.live.length + 1 := by
    rw [happ]
    show (app.pcb.curr + 1).toNat = _
    rw [u8_toNat_add_one (by omega), hlen]
  refine ⟨⟨?_, ?_, ?_, ?_, ?_, ?_⟩, ?_, ?_, ?_⟩
  · rw [hcurr', hlength]
  · rw [hlength, happ]
    show (app.pcb.last + 1).toNat = _
    rw [u8_toNat_add_one (by omega), hlast]
  · intro k hk
    rw [hslot, hlive]
    split
    · rename_i heq
      refine ⟨?_, hp.fb⟩
      rw [← heq, List.getElem?_concat_length]
    · rename_i hne
      have hk' : k.val < app.live.length := by omega
      rw [List.getElem?_append_left hk']
      exact h.slots k hk'
  · rw [hlive]
    refine List.pairwise_append.mpr ⟨h.increasing, List.pairwise_singleton _ _, ?_⟩
    intro q hq r hr
    rw [List.mem_singleton.mp hr, UInt32.lt_iff_toNat_lt, hpid]
    exact h.pids q hq
  · intro k hk
    rw [hslot, if_neg (by omega)]
    exact h.empty k (by omega)
  · intro hfull
    rw [hcurr'] at hfull
    rw [hlength]
    unfold MAX_PCB at hfull ⊢
    omega
  · rw [hlength]
    exact hten
  · rw [hlength, happ]
    show (app.pcb.lastPid + 1).toNat = _
    rw [u16_toNat_add_one (by omega), hlastPid]
  · intro q hq
    rw [hlength]
    rw [hlive] at hq
    rcases List.mem_append.mp hq with hold | hnew
    · exact Nat.lt_succ_of_lt (h.pids q hold)
    · rw [List.mem_singleton.mp hnew, hpid]
      exact Nat.lt_succ_self _

/-- What the representation says of an application, it says of one with the same
counters and history whose slots differ in their status only. -/
theorem TableInv.of_status {app app' : App} (h : TableInv app) (hlive : app'.live = app.live)
    (hcurr : app'.pcb.curr = app.pcb.curr) (hlast : app'.pcb.last = app.pcb.last)
    (hlastPid : app'.pcb.lastPid = app.pcb.lastPid)
    (hslots : ∀ k : Fin MAX_PCB, k.val < app.live.length →
      (app'.pcb.slot k).pid = (app.pcb.slot k).pid ∧ (app'.pcb.slot k).fb = (app.pcb.slot k).fb)
    (hempty : ∀ k : Fin MAX_PCB, app.live.length ≤ k.val → app'.pcb.slot k = app.pcb.slot k) :
    TableInv app' := by
  refine ⟨⟨?_, ?_, ?_, ?_, ?_, ?_⟩, ?_, ?_, ?_⟩ <;> rw [hlive]
  · rw [hcurr, h.curr]
  · rw [hlast, h.last]
  · intro k hk
    rw [(hslots k hk).1, (hslots k hk).2]
    exact h.slots k hk
  · exact h.increasing
  · intro k hk
    rw [hempty k hk]
    exact h.empty k hk
  · rw [hcurr]
    exact h.full
  · exact h.le
  · rw [hlastPid, h.lastPid]
  · exact h.pids

/-- A live pid is found in a live slot, and only the status of that slot changes. -/
theorem TableInv.kill {app app' : App} {pid : UInt32} (h : TableInv app) (hpid : pid ∈ app.live)
    (hok : pKill app pid = .ok app') : TableInv app' := by
  obtain ⟨j, hj, hjpid⟩ := List.mem_iff_getElem.mp hpid
  have hle := h.le
  have hjlt : j < MAX_PCB := by
    unfold MAX_PCB at hle ⊢
    omega
  have hjslot : (app.pcb.slot ⟨j, hjlt⟩).pid = pid := by
    have hget := (h.slots ⟨j, hjlt⟩ hj).1
    rw [List.getElem?_eq_getElem hj, hjpid] at hget
    exact (Option.some.inj hget).symm
  -- the slot found is a live one
  have hfound : ∀ i, pFind app pid = some i → i.val < app.live.length := by
    intro i hi
    have hij : i ≤ ⟨j, hjlt⟩ := by
      by_contra hlt
      exact PCB.find_before hi (not_le.mp hlt) hjslot
    exact Nat.lt_of_le_of_lt hij hj
  have hkilled : ∀ i, pFind app pid = some i → app'.live = app.live →
      app'.pcb = app.pcb.modify i (fun p => { p with status := .kill }) → TableInv app' := by
    intro i hi hlive hpcb
    refine h.of_status hlive (by rw [hpcb]; rfl) (by rw [hpcb]; rfl) (by rw [hpcb]; rfl) ?_ ?_
    · intro k _
      rw [hpcb, PCB.slot_modify]
      split
      · rename_i hik
        subst hik
        exact ⟨rfl, rfl⟩
      · exact ⟨rfl, rfl⟩
    · intro k hk
      have hik : i ≠ k := fun heq => by
        have := hfound i hi
        rw [heq] at this
        omega
      rw [hpcb, PCB.slot_modify_ne _ _ hik]
  rcases pKill_eq_ok hok with ⟨-, rfl⟩ | ⟨i, hi, -, ⟨-, rfl⟩ | ⟨-, mem, -, rfl⟩⟩
  · exact h
  · exact hkilled i hi rfl rfl
  · exact hkilled i hi (livePids_release _ _ _) rfl

theorem tableCall_inv {app app' : App} {c : TableCall} (h : TableInv app)
    (hc : app.TableLegal c ∧ app.NothingToReap c) (hok : app.tableCall c = .ok app') :
    TableInv app' := by
  cases c with
  | create address =>
      obtain ⟨⟨pid, app₁⟩, hcreate, hok⟩ := Except.bind_eq_ok.mp hok
      cases hok
      exact h.create hc.1 hcreate
  | kill pid => exact h.kill hc.1 hok
  | reap =>
      have hself := schedulerKillProcess_eq_self hc.2
      cases hself.symm.trans hok
      exact h

/-! ## Runs -/

/-- In every run from `init_pcb` on a zeroed table in which no reaping finds a
process to reap, both counters count the live processes, and the slots hold them. -/
theorem table_ok (app : App) (cs : List TableCall) {t : App} (hpcb : app.pcb = initPcb PCB.zero)
    (htrace : app.trace = []) (hlegal : Run.Meets App.tableCall App.TableLegal app cs)
    (hreap : Run.Meets App.tableCall App.NothingToReap app cs)
    (hrun : Run.run App.tableCall app cs = .ok t) : TableOk t :=
  (Run.run_invariant TableInv tableCall_inv (initPcb_inv hpcb htrace) (hlegal.and hreap)
    hrun).toTableOk

/-! ## A creation, a kill and a reaping -/

instance (app : App) : (c : TableCall) → Decidable (app.TableLegal c)
  | .create _ => inferInstanceAs (Decidable (app.pcb.curr.toNat < MAX_PCB - 1))
  | .kill pid => inferInstanceAs (Decidable (pid ∈ app.live))
  | .reap => inferInstanceAs (Decidable True)

instance (app : App) : (c : TableCall) → Decidable (app.NothingToReap c)
  | .reap => inferInstanceAs (Decidable (∀ k : Fin MAX_PCB, (app.pcb.slot k).status ≠ .kill))
  | .create _ => inferInstanceAs (Decidable True)
  | .kill _ => inferInstanceAs (Decidable True)

theorem table_ok_create :
    ∃ t, Run.run App.tableCall App.oneFile [.create (ascii "a"), .reap] = .ok t ∧
      t.live = [0] ∧ TableOk t := by
  have hrun : ((Run.runChecked App.tableCall (fun app c => app.TableLegal c ∧ app.NothingToReap c)
      App.oneFile [.create (ascii "a"), .reap]).map App.live) = some [0] := by
    decide +kernel
  obtain ⟨t, ht, hlive⟩ := Option.map_eq_some_iff.mp hrun
  obtain ⟨hmeets, hrun⟩ := Run.runChecked_eq_some ht
  exact ⟨t, hrun, hlive, table_ok App.oneFile [.create (ascii "a"), .reap] rfl rfl
    (hmeets.mono fun _ _ h => h.1) (hmeets.mono fun _ _ h => h.2) hrun⟩

/-- Reaping lowers `last` and not `curr`. -/
theorem table_not_always_ok :
    ¬ ∀ (app : App) (cs : List TableCall) (t : App), app.pcb = initPcb PCB.zero → app.trace = [] →
      Run.Meets App.tableCall App.TableLegal app cs → Run.run App.tableCall app cs = .ok t →
      cs.getLast? = some .reap → TableOk t := by
  intro h
  have hrun : ((Run.runChecked App.tableCall App.TableLegal App.oneFile
      [.create (ascii "a"), .kill 0, .reap]).map fun t => (t.pcb.curr, t.live)) = some (1, []) := by
    decide +kernel
  obtain ⟨t, ht, hcounts⟩ := Option.map_eq_some_iff.mp hrun
  obtain ⟨hmeets, hrun⟩ := Run.runChecked_eq_some ht
  obtain ⟨hcurr, hlive⟩ := Prod.mk.inj hcounts
  have hok := (h App.oneFile _ t rfl rfl hmeets hrun rfl).curr
  rw [hcurr, hlive] at hok
  exact absurd hok (by decide)

end ChicOS
