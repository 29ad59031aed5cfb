-- SUMMARY: q_put and q_remove step by step: the interleavings in which a request is lost.
import ChicOS.Io.Queue
import ChicOS.Lib.Interleave

/-!
# A request during a completion

The CPU thread puts a request, the disk thread removes one, and no lock is held
around either. `q_put` stores at the index `len` and then counts; `q_remove`
compares with `len` before every move, and lowers it at the end. The new request
survives if it is counted before the loop of `q_remove` has ended, or stored
after `len` has been lowered. Counted in between it is cleared, or left behind a
cleared entry.
-/

namespace ChicOS

open Interleave

/-! ## The two threads -/

inductive RemovePc where
  /-- At the test of the loop, with its index. -/
  | shift (i : Nat)
  | clear
  | done
  deriving DecidableEq

inductive PutPc where
  | write
  | count
  | done
  deriving DecidableEq

/-- A statement of `q_remove`. -/
def removeStep : Thread QueueReq RemovePc Stop
  | qr, .shift i =>
    some (if i + 1 < qr.len.toNat then do
        let r ← qr.get (i + 1)
        let qr ← qr.put i r
        .ok (qr, .shift (i + 1))
      else .ok (qr, .clear))
  | qr, .clear =>
    some do
      let len := qr.len - 1
      let qr ← qr.put len.toNat IoReq.zero
      .ok ({ qr with len := len }, .done)
  | _, .done => none

/-- A statement of `q_put`. -/
def putStep (r : IoReq) : Thread QueueReq PutPc Stop
  | qr, .write =>
    some do
      let qr ← qr.put qr.len.toNat r
      .ok (qr, .count)
  | qr, .count => some (.ok ({ qr with len := qr.len + 1 }, .done))
  | _, .done => none

abbrev QueueRace := Pair QueueReq RemovePc PutPc

namespace QueueRace

/-- The disk thread on the left, the CPU thread on the right. -/
def start (qr : QueueReq) : QueueRace where
  shared := qr
  left := .shift 0
  right := .write

def step (r : IoReq) : QueueRace → Side → Except (Option Stop) QueueRace :=
  Interleave.step removeStep (putStep r)

/-- Both calls have returned. -/
def Done (s : QueueRace) : Prop := s.left = .done ∧ s.right = .done

end QueueRace

/-! ## What the disk thread has done -/

/-- The state of `q_remove` after some of its steps, on a queue of `len` requests. -/
inductive Removing (queue : Vector IoReq MAX_PCB) (len : UInt8) :
    Nat → QueueReq → RemovePc → Prop where
  | shift {n : Nat} (h : n < len.toNat) :
      Removing queue len n { queue := Front.shiftFront queue n, len := len } (.shift n)
  | clear :
      Removing queue len len.toNat
        { queue := Front.shiftFront queue (len.toNat - 1), len := len } .clear
  | done (h : len.toNat - 1 < MAX_PCB) :
      Removing queue len (len.toNat + 1)
        { queue := (Front.shiftFront queue (len.toNat - 1)).set (len.toNat - 1) IoReq.zero
          len := len - 1 } .done

namespace Removing

variable {queue : Vector IoReq MAX_PCB} {len : UInt8} {n : Nat} {qr qr' : QueueReq}
  {pc pc' : RemovePc} {r : IoReq}

theorem start (hpos : 1 ≤ qr.len.toNat) : Removing qr.queue qr.len 0 qr (.shift 0) := by
  have h : Removing qr.queue qr.len 0
      { queue := Front.shiftFront qr.queue 0, len := qr.len } (.shift 0) := .shift hpos
  rwa [Front.shiftFront_zero] at h

theorem step (h : Removing queue len n qr pc) (hpos : 1 ≤ len.toNat) (hle : len.toNat ≤ MAX_PCB)
    (hstep : removeStep qr pc = some (.ok (qr', pc'))) : Removing queue len (n + 1) qr' pc' := by
  cases h with
  | shift h =>
      rw [removeStep, Option.some.injEq] at hstep
      split at hstep
      · rename_i hmore
        have hmore : n + 1 < len.toNat := hmore
        rw [QueueReq.get_of_lt (by omega), Except.ok_bind_run, QueueReq.put_of_lt _ (by omega),
          Except.ok_bind_run] at hstep
        cases hstep
        dsimp only
        rw [Front.getElem_shiftFront_of_le queue (Nat.le_succ n), Front.shiftFront_succ]
        exact .shift hmore
      · rename_i hlast
        have hlast : ¬ n + 1 < len.toNat := hlast
        cases hstep
        obtain rfl : n = len.toNat - 1 := by omega
        rw [Nat.sub_add_cancel hpos]
        exact .clear
  | clear =>
      have hlt : len.toNat - 1 < MAX_PCB := by omega
      rw [removeStep, Option.some.injEq] at hstep
      dsimp only at hstep
      simp only [UInt8.toNat_pred hpos] at hstep
      rw [QueueReq.put_of_lt _ hlt, Except.ok_bind_run] at hstep
      cases hstep
      exact .done hlt
  | done _ =>
      rw [removeStep] at hstep
      cases hstep

/-- A store after the queue does not meet the moves. -/
theorem write (h : Removing queue len n qr pc) (hpos : 1 ≤ len.toNat) (hlt : len.toNat < MAX_PCB)
    (hn : n ≤ len.toNat) :
    qr.len = len ∧
      Removing (queue.set len.toNat r) len n { qr with queue := qr.queue.set len.toNat r } pc := by
  cases h with
  | shift h =>
      refine ⟨rfl, ?_⟩
      dsimp only
      rw [Front.shiftFront_set queue r h]
      exact .shift h
  | clear =>
      refine ⟨rfl, ?_⟩
      dsimp only
      rw [Front.shiftFront_set queue r (by omega)]
      exact .clear
  | done _ => exact absurd hn (by omega)

/-- Counted before the loop ends, a request is moved up with the others. -/
theorem count (h : Removing queue len n qr pc) (hn : n < len.toNat) (hlt : len.toNat < MAX_PCB) :
    Removing queue (len + 1) n { qr with len := qr.len + 1 } pc := by
  cases h with
  | shift h =>
      apply Removing.shift
      rw [u8_toNat_add_one (Nat.lt_trans hlt (by decide))]
      exact Nat.lt_succ_of_lt h
  | clear => exact absurd hn (Nat.lt_irrefl _)
  | done _ => exact absurd hn (by omega)

end Removing

namespace QueueRace

variable {s t : QueueRace} {r : IoReq} {qr : QueueReq} {a b c n : Nat}

theorem left_removing {queue : Vector IoReq MAX_PCB} {len : UInt8} {i : Nat}
    (h : Removing queue len i s.shared s.left) (hpos : 1 ≤ len.toNat) (hle : len.toNat ≤ MAX_PCB)
    (hrun : Run.run (step r) s (List.replicate n .left) = .ok t) :
    Removing queue len (i + n) t.shared t.left ∧ t.right = s.right :=
  left_run (Removing queue len) (fun hi hf => hi.step hpos hle hf) h hrun

/-- A call that has returned takes no step. -/
theorem left_done (h : s.left = .done)
    (hrun : Run.run (step r) s (List.replicate n .left) = .ok t) : t = s := by
  cases n with
  | zero =>
      cases hrun
      rfl
  | succ n =>
      obtain ⟨s', hstep, -⟩ := Run.run_cons_eq_ok.mp hrun
      obtain ⟨shared, left, hf, -⟩ := step_left_eq_ok.mp hstep
      rw [h, removeStep] at hf
      cases hf

theorem step_write {len : UInt8} (h : s.right = .write) (hlen : s.shared.len = len)
    (hroom : len.toNat < MAX_PCB) (hok : s.step r .right = .ok t) :
    t = { shared := { s.shared with queue := s.shared.queue.set len.toNat r }
          left := s.left
          right := .count } := by
  subst hlen
  obtain ⟨shared, right, hg, rfl⟩ := step_right_eq_ok.mp hok
  rw [h, putStep, Option.some.injEq, QueueReq.put_of_lt _ hroom, Except.ok_bind_run] at hg
  cases hg
  rfl

theorem step_count (h : s.right = .count) (hok : s.step r .right = .ok t) :
    t = { shared := { s.shared with len := s.shared.len + 1 }, left := s.left, right := .done } := by
  obtain ⟨shared, right, hg, rfl⟩ := step_right_eq_ok.mp hok
  rw [h, putStep] at hg
  cases hg
  rfl

/-! ## What the interleavings leave -/

/-- Stored after `len` was lowered, the request takes the place of the cleared one. -/
theorem write_after (hpos : 1 ≤ qr.len.toNat) (hlt : qr.len.toNat < MAX_PCB)
    (ha : qr.len.toNat < a) (hrun : Run.run (step r) (start qr) (blocks a b c) = .ok t) :
    t.shared.requests = qr.requests.tail ++ [r] := by
  obtain ⟨s₁, s₂, s₃, s₄, h₁, h₂, h₃, h₄, h₅⟩ := run_blocks_eq_ok.mp hrun
  obtain ⟨hremoving, hright⟩ := left_removing (.start hpos) hpos hlt.le h₁
  rw [Nat.zero_add] at hremoving
  obtain ⟨shared, left, right⟩ := s₁
  cases hremoving with
  | shift h => exact absurd ha (by omega)
  | clear => exact absurd ha (Nat.lt_irrefl _)
  | done hlast =>
      have hlen := UInt8.toNat_pred hpos
      have hroom : (qr.len - 1).toNat < MAX_PCB := by omega
      cases step_write hright rfl hroom h₂
      cases left_done rfl h₃
      cases step_count rfl h₄
      cases left_done rfl h₅
      have hback : qr.len - 1 + 1 = qr.len := UInt8.sub_add_cancel _ _
      have hfront := Front.front_shiftFront_set qr.queue r hlast
      rw [Nat.sub_add_cancel hpos] at hfront
      unfold QueueReq.requests
      dsimp only
      simp only [hback, hlen, Vector.set_set]
      exact hfront

/-- What `q_remove` has done when the request has been stored before its end. -/
theorem write_before (hpos : 1 ≤ qr.len.toNat) (hlt : qr.len.toNat < MAX_PCB)
    (ha : a ≤ qr.len.toNat) (hrun : Run.run (step r) (start qr) (blocks a b c) = .ok t) :
    ∃ s₃ s₄ : QueueRace, Removing (qr.queue.set qr.len.toNat r) qr.len (a + b) s₃.shared s₃.left ∧
      s₄ = { shared := { s₃.shared with len := s₃.shared.len + 1 }, left := s₃.left, right := .done } ∧
      Run.run (step r) s₄ (List.replicate c .left) = .ok t := by
  obtain ⟨s₁, s₂, s₃, s₄, h₁, h₂, h₃, h₄, h₅⟩ := run_blocks_eq_ok.mp hrun
  obtain ⟨hremoving, hright⟩ := left_removing (.start hpos) hpos hlt.le h₁
  rw [Nat.zero_add] at hremoving
  obtain ⟨hlen, hwritten⟩ := hremoving.write (r := r) hpos hlt ha
  cases step_write hright hlen hlt h₂
  obtain ⟨hremoving', hright'⟩ := left_removing hwritten hpos hlt.le h₃
  exact ⟨s₃, s₄, hremoving', step_count hright' h₄, h₅⟩

/-- Counted before the loop has ended, the request is moved up with the others. -/
theorem count_before (hpos : 1 ≤ qr.len.toNat) (hlt : qr.len.toNat < MAX_PCB)
    (hab : a + b < qr.len.toNat) (hrun : Run.run (step r) (start qr) (blocks a b c) = .ok t)
    (hdone : t.left = .done) : t.shared.requests = qr.requests.tail ++ [r] := by
  obtain ⟨s₃, s₄, hremoving, rfl, h₅⟩ := write_before hpos hlt (by omega) hrun
  have hlen := u8_toNat_add_one (Nat.lt_trans hlt (by decide))
  obtain ⟨hremoving', -⟩ := left_removing (hremoving.count hab hlt) (by omega) (by omega) h₅
  obtain ⟨shared, left, right⟩ := t
  cases hdone
  generalize hn : a + b + c = n at hremoving'
  cases hremoving' with
  | done hlast =>
      have hback : qr.len + 1 - 1 = qr.len := UInt8.add_sub_cancel _ _
      unfold QueueReq.requests
      dsimp only
      simp only [hback, hlen, Nat.add_sub_cancel]
      rw [Front.front_set_of_le _ _ _ le_rfl, Front.front_shiftFront _ hlt,
        Front.front_set_self _ _ hlt, List.tail_append_of_ne_nil]
      rw [← List.length_pos_iff, Front.length_front _ hlt.le]
      exact hpos

/-- The decrement after a count clears the entry behind the queue. -/
theorem clear_run {queue : Vector IoReq MAX_PCB} {len : UInt8} (hlt : len.toNat < MAX_PCB)
    (hrun : Run.run (step r)
      { shared := { queue := queue, len := len + 1 }, left := .clear, right := .done }
      (List.replicate c .left) = .ok t) (hdone : t.left = .done) :
    t.shared = { queue := queue.set len.toNat IoReq.zero, len := len } := by
  cases c with
  | zero =>
      cases hrun
      cases hdone
  | succ c =>
      obtain ⟨s', hstep, hrest⟩ := Run.run_cons_eq_ok.mp hrun
      obtain ⟨shared, left, hf, rfl⟩ := step_left_eq_ok.mp hstep
      have hback : len + 1 - 1 = len := UInt8.add_sub_cancel _ _
      rw [removeStep, Option.some.injEq] at hf
      dsimp only at hf
      simp only [hback] at hf
      rw [QueueReq.put_of_lt _ hlt, Except.ok_bind_run] at hf
      cases hf
      cases left_done rfl hrest
      rfl

/-- Counted between the end of the loop and the decrement, the request is cleared,
and the one before it is there twice. -/
theorem count_between (hpos : 1 ≤ qr.len.toNat) (hlt : qr.len.toNat < MAX_PCB)
    (hab : a + b = qr.len.toNat) (hrun : Run.run (step r) (start qr) (blocks a b c) = .ok t)
    (hdone : t.left = .done) :
    ∃ last, qr.requests.getLast? = some last ∧ t.shared.requests = qr.requests.tail ++ [last] := by
  obtain ⟨s₃, s₄, hremoving, rfl, h₅⟩ := write_before hpos hlt (by omega) hrun
  obtain ⟨shared, left, right⟩ := s₃
  generalize hn : a + b = n at hremoving hab
  cases hremoving with
  | shift h => exact absurd hab (by omega)
  | clear =>
      have hlast : qr.len.toNat - 1 < MAX_PCB := by omega
      have hsucc := Front.front_succ qr.queue hlast
      have hfront := Front.front_shiftFront_succ (qr.queue.set qr.len.toNat r) hlast
      rw [Nat.sub_add_cancel hpos] at hsucc
      rw [Nat.sub_add_cancel hpos, Front.front_set_of_le _ _ _ le_rfl] at hfront
      refine ⟨qr.queue[qr.len.toNat - 1], ?_, ?_⟩
      · rw [QueueReq.requests, hsucc, List.getLast?_concat]
      · rw [clear_run hlt h₅ hdone, QueueReq.requests]
        dsimp only
        rw [Front.front_set_of_le _ _ _ le_rfl, hfront, Vector.getElem_set_ne _ _ (by omega)]
        rfl
  | done hlast => exact absurd hab (by omega)

/-- Stored before the decrement and counted after it, the request is behind a
cleared one. -/
theorem count_after (hpos : 1 ≤ qr.len.toNat) (hlt : qr.len.toNat < MAX_PCB)
    (ha : a ≤ qr.len.toNat) (hab : qr.len.toNat < a + b)
    (hrun : Run.run (step r) (start qr) (blocks a b c) = .ok t) :
    t.shared.requests = qr.requests.tail ++ [IoReq.zero] := by
  obtain ⟨s₃, s₄, hremoving, rfl, h₅⟩ := write_before hpos hlt ha hrun
  obtain ⟨shared, left, right⟩ := s₃
  generalize hn : a + b = n at hremoving hab
  cases hremoving with
  | shift h => exact absurd hab (by omega)
  | clear => exact absurd hab (Nat.lt_irrefl _)
  | done hlast =>
      cases left_done rfl h₅
      have hback : qr.len - 1 + 1 = qr.len := UInt8.sub_add_cancel _ _
      have hfront := Front.front_shiftFront_set (qr.queue.set qr.len.toNat r) IoReq.zero hlast
      rw [Nat.sub_add_cancel hpos, Front.front_set_of_le _ _ _ le_rfl] at hfront
      unfold QueueReq.requests
      dsimp only
      simp only [hback]
      exact hfront

/-! ## One call after the other -/

/-- Alone, the statements of `q_remove` are `q_remove`. -/
theorem remove_alone (hpos : 1 ≤ qr.len.toNat) (hle : qr.len.toNat ≤ MAX_PCB)
    (hrun : Run.run (step r) (start qr) (List.replicate n .left) = .ok t)
    (hdone : t.left = .done) : qRemove qr = .ok t.shared := by
  obtain ⟨hremoving, -⟩ := left_removing (.start hpos) hpos hle hrun
  obtain ⟨shared, left, right⟩ := t
  cases hdone
  generalize hm : 0 + n = m at hremoving
  cases hremoving with
  | done hlast =>
      have hlen := UInt8.toNat_pred hpos
      unfold qRemove
      rw [shiftLoop_eq qr (Nat.succ_le_of_lt hlast), Except.ok_bind_run]
      dsimp only
      simp only [hlen]
      rw [QueueReq.put_of_lt _ hlast, Except.ok_bind_run]
      rfl

/-- Alone, the statements of `q_put` are `q_put`. -/
theorem put_alone {app : App} (hroom : app.disk.qr.len.toNat < MAX_PCB)
    (hrun : Run.run (step r) (start app.disk.qr) [.right, .right] = .ok t) :
    qPut app r = .ok { app with disk.qr := t.shared } := by
  obtain ⟨s₁, h₁, hrest⟩ := Run.run_cons_eq_ok.mp hrun
  obtain ⟨s₂, h₂, hnil⟩ := Run.run_cons_eq_ok.mp hrest
  cases hnil
  cases step_write rfl rfl hroom h₁
  cases step_count rfl h₂
  unfold qPut
  rw [QueueReq.put_of_lt _ hroom, Except.ok_bind_run]
  rfl

/-! ## Lost requests -/

/-- A new request, as `simulate_io` makes it. -/
def newRequest (pid track : UInt32) : IoReq :=
  { id := pid, timeToRun := DISK_SLICE, track := track }

/-- Counted before the loop of `q_remove` ends, or stored after the decrement. -/
def Apart (len : Nat) (es : List Side) : Prop := leftBefore es 1 < len ∨ len < leftBefore es 0

end QueueRace

open QueueRace

/-- `q_put` takes two turns. -/
theorem right_turns {qr : QueueReq} {r : IoReq} {es : List Side} {t : QueueRace}
    (hrun : Run.run (QueueRace.step r) (start qr) es = .ok t) (hdone : t.right = .done) :
    es.count .right = 2 := by
  have hrank := count_right (fun pc => match pc with | .write => 2 | .count => 1 | .done => 0)
    (fun {shared right shared' right'} hg => ?_) hrun
  · rw [hdone] at hrank
    simpa [start] using hrank.symm
  · cases right with
    | write =>
        obtain ⟨qr', -, hg⟩ := Except.bind_eq_ok.mp (Option.some.inj hg)
        cases hg
        rfl
    | count =>
        cases hg
        rfl
    | done => cases hg

/-- In an interleaving of `q_put` and `q_remove` the queue ends as it would if one
came after the other, exactly when the request is counted before the loop ends or
stored after the decrement; or, by accident, when it is cleared and equals the
last request, which is there twice, or is all zero, as a cleared entry is. -/
theorem queue_race (qr : QueueReq) (r : IoReq) (es : List Side) {t : QueueRace}
    (hpos : 1 ≤ qr.len.toNat) (hlt : qr.len.toNat < MAX_PCB)
    (hrun : Run.run (QueueRace.step r) (start qr) es = .ok t) (hdone : t.Done) :
    t.shared.requests = qr.requests.tail ++ [r] ↔
      Apart qr.len.toNat es ∨
        (leftBefore es 1 = qr.len.toNat ∧ qr.requests.getLast? = some r) ∨
        (qr.len.toNat < leftBefore es 1 ∧ r = IoReq.zero) := by
  have hcount := right_turns hrun hdone.2
  obtain ⟨a, b, c, rfl⟩ := exists_blocks hcount
  rw [Apart, leftBefore_blocks_zero, leftBefore_blocks_one]
  rcases Nat.lt_trichotomy (a + b) qr.len.toNat with hlt' | heq | hgt
  · exact iff_of_true (count_before hpos hlt hlt' hrun hdone.1) (.inl (.inl hlt'))
  · obtain ⟨last, hlast, hrequests⟩ := count_between hpos hlt heq hrun hdone.1
    rw [hrequests, hlast]
    constructor
    · intro h
      have hsame := List.append_cancel_left h
      cases hsame
      exact .inr (.inl ⟨heq, rfl⟩)
    · rintro ((h | h) | ⟨-, h⟩ | ⟨h, -⟩)
      · exact absurd h (by omega)
      · exact absurd h (by omega)
      · cases h
        rfl
      · exact absurd h (by omega)
  · by_cases ha : qr.len.toNat < a
    · exact iff_of_true (write_after hpos hlt ha hrun) (.inl (.inr ha))
    · rw [count_after hpos hlt (Nat.not_lt.mp ha) hgt hrun]
      constructor
      · intro h
        have hsame := List.append_cancel_left h
        exact .inr (.inr ⟨hgt, (List.singleton_inj.mp hsame).symm⟩)
      · rintro ((h | h) | ⟨h, -⟩ | ⟨-, rfl⟩)
        · exact absurd h (by omega)
        · exact absurd h ha
        · exact absurd h (by omega)
        · rfl

/-- A queue of one request. -/
def QueueReq.one : QueueReq where
  queue := (Vector.replicate MAX_PCB IoReq.zero).set 0 (newRequest 1 3)
  len := 1

instance QueueRace.decidableDone (s : QueueRace) : Decidable s.Done :=
  inferInstanceAs (Decidable (_ ∧ _))

theorem queue_race_one :
    ∃ t, Run.run (QueueRace.step (newRequest 0 7)) (start .one) [.left, .left, .right, .right]
        = .ok t ∧ t.shared.requests = [newRequest 0 7] := by
  refine ⟨_, rfl, ?_⟩
  exact (queue_race .one (newRequest 0 7) [.left, .left, .right, .right] (by decide) (by decide) rfl
    (by decide)).mpr (.inl (.inr (by decide)))

/-- Stored before the decrement and counted after it, the request is lost. -/
theorem queue_race_loses :
    ¬ ∀ (qr : QueueReq) (r : IoReq) (es : List Side) (t : QueueRace),
      1 ≤ qr.len.toNat → qr.len.toNat < MAX_PCB →
      Run.run (QueueRace.step r) (start qr) es = .ok t → t.Done →
      t.shared.requests = qr.requests.tail ++ [r] := by
  intro h
  have hqueue := h .one (newRequest 0 7) [.right, .left, .left, .right] _ (by decide) (by decide) rfl (by decide)
  exact absurd hqueue (by decide)

end ChicOS
