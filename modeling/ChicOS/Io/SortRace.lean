-- SUMMARY: sort_disk and q_put step by step: every interleaving is a sort between two of the calls of q_put.
import ChicOS.Io.Queue
import ChicOS.Lib.Interleave

/-!
# Requests during a sort

The disk thread sorts the queue while the CPU thread puts requests, and no lock is held around
either. `q_put` stores behind the queue and then counts; `sort_disk` looks at the entries
before `len`, which it reads again at every turn of its loop, and swaps two of those. So
the two never store to the same entry, and nothing that the sort has read changes: it is as if
the requests that had been counted when the loop ended had come before the sort, and the others
after it.

In the proof the queue without the sort goes along: `Sorting` says how the array differs
from it at every place in `sort_disk`.
-/

namespace ChicOS

open Interleave

-- ---------------------------------------------------------------------------
-- The two threads
-- ---------------------------------------------------------------------------

/-- The places in `sort_disk`, with its local variables. -/
inductive SortPc where
  | first
  /-- At the test of the loop. -/
  | test (i : Nat) (minDiff : UInt32) (closest : Nat)
  | compare (i : Nat) (minDiff : UInt32) (closest : Nat)
  /-- Behind the loop. -/
  | temp (closest : Nat)
  | move (closest : Nat) (temp : IoReq)
  | back (closest : Nat) (temp : IoReq)
  | done
  deriving DecidableEq

/-- The places in a list of calls of `q_put`, with the requests of the calls to come. -/
inductive PutsPc where
  | write (rs : List IoReq)
  | count (rs : List IoReq)
  deriving DecidableEq

/-- A statement of `sort_disk`. -/
def sortStep (base : UInt32) : Thread QueueReq SortPc Stop
  | qr, .first =>
    some do
      let r ← qr.get 0
      .ok (qr, .test 1 (absDiff base r.track) 0)
  | qr, .test i minDiff closest =>
    some (.ok (qr, if i < qr.len.toNat then .compare i minDiff closest else .temp closest))
  | qr, .compare i minDiff closest =>
    some do
      let r ← qr.get i
      let diff := absDiff base r.track
      .ok (qr, if diff < minDiff then .test (i + 1) diff i else .test (i + 1) minDiff closest)
  | qr, .temp closest =>
    some (if closest ≠ 0 then do
        let temp ← qr.get 0
        .ok (qr, .move closest temp)
      else .ok (qr, .done))
  | qr, .move closest temp =>
    some do
      let r ← qr.get closest
      let qr ← qr.put 0 r
      .ok (qr, .back closest temp)
  | qr, .back closest temp =>
    some do
      let qr ← qr.put closest temp
      .ok (qr, .done)
  | _, .done => none

/-- A statement of the calls of `q_put`. -/
def putsStep : Thread QueueReq PutsPc Stop
  | _, .write [] => none
  | qr, .write (r :: rs) =>
    some do
      let qr ← qr.put qr.len.toNat r
      .ok (qr, .count rs)
  | qr, .count rs => some (.ok ({ qr with len := qr.len + 1 }, .write rs))

abbrev SortRace := Pair QueueReq SortPc PutsPc

namespace SortRace

/-- The disk thread on the left, the CPU thread on the right. -/
def start (qr : QueueReq) (rs : List IoReq) : SortRace where
  shared := qr
  left := .first
  right := .write rs

def step (base : UInt32) : SortRace → Side → Except (Option Stop) SortRace :=
  Interleave.step (sortStep base) putsStep

/-- All calls have returned. -/
def Done (s : SortRace) : Prop := s.left = .done ∧ s.right = .write []

end SortRace

-- ---------------------------------------------------------------------------
-- The requests
-- ---------------------------------------------------------------------------

/-- The queue after the calls of `q_put` so far, when nobody sorts it. -/
inductive Putting (qr : QueueReq) (rs : List IoReq) : QueueReq → PutsPc → Prop where
  | write {g : QueueReq} {k : Nat} (hk : k ≤ rs.length)
      (hlen : g.len.toNat = qr.len.toNat + k) (hqueue : g.requests = qr.requests ++ rs.take k) :
      Putting qr rs g (.write (rs.drop k))
  | count {g : QueueReq} {k : Nat} (hk : k < rs.length)
      (hlen : g.len.toNat = qr.len.toNat + k)
      (hqueue : Front.front g.queue (g.len.toNat + 1) = qr.requests ++ rs.take (k + 1)) :
      Putting qr rs g (.count (rs.drop (k + 1)))

namespace Putting

variable {qr g : QueueReq} {rs : List IoReq} {pc : PutsPc}

theorem start (qr : QueueReq) (rs : List IoReq) : Putting qr rs qr (.write rs) :=
  .write (k := 0) (Nat.zero_le _) rfl (List.append_nil _).symm

theorem len_le (h : Putting qr rs g pc) : g.len.toNat ≤ qr.len.toNat + rs.length := by
  cases h with
  | write hk hlen => omega
  | count hk hlen => omega

theorem le_len (h : Putting qr rs g pc) : qr.len.toNat ≤ g.len.toNat := by
  cases h with
  | write hk hlen => omega
  | count hk hlen => omega

/-- A step of `q_put` stores behind the queue, or counts what has been stored there. -/
inductive Step (g : QueueReq) : PutsPc → QueueReq → PutsPc → Prop where
  | write (r : IoReq) (rs : List IoReq) (h : g.len.toNat < MAX_PCB) :
      Step g (.write (r :: rs)) { g with queue := g.queue.set g.len.toNat r } (.count rs)
  | count (rs : List IoReq) (h : (g.len + 1).toNat = g.len.toNat + 1) :
      Step g (.count rs) { g with len := g.len + 1 } (.write rs)

theorem step (h : Putting qr rs g pc) (hroom : qr.len.toNat + rs.length ≤ MAX_PCB) :
    pc = .write [] ∨ ∃ g' pc', Step g pc g' pc' ∧ Putting qr rs g' pc' := by
  cases h with
  | @write k hk hlen hqueue =>
      rcases Nat.eq_or_lt_of_le hk with rfl | hlt
      · left
        rw [List.drop_length]
      · right
        have hnext : rs.drop k = rs[k] :: rs.drop (k + 1) := List.drop_eq_getElem_cons hlt
        have hspace : g.len.toNat < MAX_PCB := by omega
        rw [hnext]
        refine ⟨_, _, .write rs[k] (rs.drop (k + 1)) hspace, .count hlt hlen ?_⟩
        dsimp only
        have hset : Front.front (g.queue.set g.len.toNat rs[k]) (g.len.toNat + 1)
            = g.requests ++ [rs[k]] := Front.front_set_self _ _ hspace
        rw [hset, hqueue, List.append_assoc, List.take_append_getElem hlt]
  | @count k hk hlen hqueue =>
      right
      have hfits : g.len.toNat < 255 := by
        have hfew : MAX_PCB < 255 := by decide
        omega
      have hnext : (g.len + 1).toNat = g.len.toNat + 1 := u8_toNat_add_one hfits
      refine ⟨_, _, .count (rs.drop (k + 1)) hnext, .write hk ?_ ?_⟩
      · dsimp only
        rw [hnext]
        omega
      · rw [QueueReq.requests]
        dsimp only
        rw [hnext, hqueue]

end Putting

-- ---------------------------------------------------------------------------
-- The sort
-- ---------------------------------------------------------------------------

/-- The loop of `sort_disk` before the index `n`: what it has found. -/
structure Scanned (base : UInt32) (g : QueueReq) (n : Nat) (closest : Nat) : Prop where
  lt : closest < n
  pos : 1 ≤ n
  le : n ≤ g.len.toNat
  found : closestLoop g base (List.range' 1 (n - 1)) (absDiff base g.queue[0].track) 0 = .ok closest

/-- The first entry and another one change places. -/
def swapFirst (queue : Vector IoReq MAX_PCB) (i : Nat) (hi : i < MAX_PCB) :
    Vector IoReq MAX_PCB := (queue.set 0 queue[i]).set i queue[0]

/-- What the sort has done to the queue `g` that the calls of `q_put` make, if there were
`old` requests before. -/
inductive Sorting (base : UInt32) (old : Nat) (g : QueueReq) : QueueReq → SortPc → Prop where
  | first (h : 1 ≤ g.len.toNat) : Sorting base old g g .first
  | test {i closest : Nat} (h : Scanned base g i closest) (hin : closest < MAX_PCB) :
      Sorting base old g g (.test i (absDiff base g.queue[closest].track) closest)
  | compare {i closest : Nat} (h : Scanned base g i closest) (hin : closest < MAX_PCB)
      (hi : i < g.len.toNat) :
      Sorting base old g g (.compare i (absDiff base g.queue[closest].track) closest)
  | temp {n closest : Nat} (h : Scanned base g n closest) (hold : old ≤ n) :
      Sorting base old g g (.temp closest)
  | move {n closest : Nat} (h : Scanned base g n closest) (hold : old ≤ n) :
      Sorting base old g g (.move closest g.queue[0])
  | back {n closest : Nat} (h : Scanned base g n closest) (hold : old ≤ n)
      (hin : closest < MAX_PCB) :
      Sorting base old g { g with queue := g.queue.set 0 g.queue[closest] }
        (.back closest g.queue[0])
  | done {n closest : Nat} (h : Scanned base g n closest) (hold : old ≤ n)
      (hin : closest < MAX_PCB) :
      Sorting base old g { g with queue := swapFirst g.queue closest hin } .done

theorem swapFirst_zero {queue : Vector IoReq MAX_PCB} (h : 0 < MAX_PCB) :
    swapFirst queue 0 h = queue := by
  rw [swapFirst, Vector.set_getElem_self, Vector.set_getElem_self]

/-- A store behind the two does not meet them. -/
theorem swapFirst_set {queue : Vector IoReq MAX_PCB} {i n : Nat} (r : IoReq) (hi : i < MAX_PCB)
    (hn : n < MAX_PCB) (hpos : 0 < n) (hlt : i < n) :
    (swapFirst queue i hi).set n r = swapFirst (queue.set n r) i hi := by
  rw [swapFirst, swapFirst, Vector.getElem_set_ne _ _ (Nat.ne_of_gt hlt),
    Vector.getElem_set_ne _ _ (Nat.ne_of_gt hpos), Vector.set_comm _ _ (Nat.ne_of_lt hlt),
    Vector.set_comm _ _ (Nat.ne_of_lt hpos)]

theorem closestLoop_congr {qr qr' : QueueReq} {base minDiff : UInt32} {is : List Nat}
    {closest : Nat} (h : ∀ i ∈ is, qr.get i = qr'.get i) :
    closestLoop qr base is minDiff closest = closestLoop qr' base is minDiff closest := by
  induction is generalizing minDiff closest with
  | nil => rfl
  | cons j is ih =>
      have hrest : ∀ i ∈ is, qr.get i = qr'.get i := fun i hi => h i (List.mem_cons_of_mem j hi)
      rw [closestLoop, closestLoop, h j List.mem_cons_self]
      refine congrArg _ (funext fun r => ?_)
      simp only [ih hrest]

/-- One index more. -/
theorem closestLoop_concat {qr : QueueReq} {base minDiff : UInt32} {is : List Nat}
    {closest c i : Nat} (his : ∀ j ∈ is, j < MAX_PCB) (hclosest : closest < MAX_PCB)
    (hmin : minDiff = absDiff base qr.queue[closest].track) (hi : i < MAX_PCB) (hc : c < MAX_PCB)
    (hfound : closestLoop qr base is minDiff closest = .ok c) :
    closestLoop qr base (is ++ [i]) minDiff closest
      = .ok (if absDiff base qr.queue[i].track < absDiff base qr.queue[c].track then i else c) := by
  induction is generalizing minDiff closest with
  | nil =>
      cases hfound
      rw [List.nil_append, closestLoop, QueueReq.get_of_lt hi, Except.ok_bind_run, hmin]
      dsimp only [closestLoop]
      split
      · rfl
      · rfl
  | cons j is ih =>
      have hj : j < MAX_PCB := his j List.mem_cons_self
      have hrest : ∀ k ∈ is, k < MAX_PCB := fun k hk => his k (List.mem_cons_of_mem j hk)
      rw [closestLoop, QueueReq.get_of_lt hj, Except.ok_bind_run] at hfound
      rw [List.cons_append, closestLoop, QueueReq.get_of_lt hj, Except.ok_bind_run]
      dsimp only at hfound ⊢
      split at hfound
      · rename_i hlt
        rw [if_pos hlt]
        exact ih hrest hj rfl hfound
      · rename_i hge
        rw [if_neg hge]
        exact ih hrest hclosest hmin hfound

namespace Scanned

variable {base : UInt32} {g g' : QueueReq} {n closest : Nat}

theorem start (h : 1 ≤ g.len.toNat) : Scanned base g 1 0 :=
  ⟨Nat.one_pos, Nat.le_refl 1, h, rfl⟩

/-- The next index is looked at. -/
theorem next (h : Scanned base g n closest) (hin : closest < MAX_PCB)
    (hn : n < g.len.toNat) (hn' : n < MAX_PCB) :
    Scanned base g (n + 1)
      (if absDiff base g.queue[n].track < absDiff base g.queue[closest].track then n
        else closest) := by
  have hlt := h.lt
  have hrange : List.range' 1 (n + 1 - 1) = List.range' 1 (n - 1) ++ [n] := by
    have hpos := h.pos
    obtain ⟨m, rfl⟩ := Nat.exists_eq_add_of_le' hpos
    rw [Nat.add_sub_cancel, Nat.add_sub_cancel, List.range'_1_concat, Nat.add_comm 1 m]
  refine ⟨?_, Nat.le_add_left 1 n, hn, ?_⟩
  · split
    · exact Nat.lt_succ_self n
    · exact Nat.lt_succ_of_lt hlt
  · rw [hrange]
    refine closestLoop_concat (fun j hj => ?_) (by decide) rfl hn' hin h.found
    have hj := (List.mem_range'_1.mp hj).2
    omega

/-- What the loop has looked at stays as it is. -/
theorem congr (h : Scanned base g n closest) (hlen : g.len.toNat ≤ g'.len.toNat)
    (hget : ∀ i < n, g.get i = g'.get i) : Scanned base g' n closest := by
  have hpos := h.pos
  have hzero : g'.queue[0] = g.queue[0] := by
    have hfirst := hget 0 hpos
    rw [QueueReq.get_of_lt (by decide), QueueReq.get_of_lt (by decide)] at hfirst
    exact (Except.ok.inj hfirst).symm
  refine ⟨h.lt, hpos, h.le.trans hlen, ?_⟩
  rw [hzero, ← h.found]
  refine (closestLoop_congr fun i hi => hget i ?_).symm
  have hi := List.mem_range'_1.mp hi
  omega

theorem write (h : Scanned base g n closest) (r : IoReq) (hroom : g.len.toNat < MAX_PCB) :
    Scanned base { g with queue := g.queue.set g.len.toNat r } n closest := by
  refine h.congr le_rfl fun i hi => ?_
  have hle := h.le
  have hin : i < MAX_PCB := by omega
  rw [QueueReq.get_of_lt hin, QueueReq.get_of_lt hin, Vector.getElem_set_ne _ _ (by omega)]

theorem count (h : Scanned base g n closest) (hlen : (g.len + 1).toNat = g.len.toNat + 1) :
    Scanned base { g with len := g.len + 1 } n closest := by
  refine h.congr ?_ fun i _ => rfl
  dsimp only
  omega

end Scanned

namespace Sorting

variable {base : UInt32} {old : Nat} {g g' shared : QueueReq} {pc : SortPc}

theorem len_eq (h : Sorting base old g shared pc) : shared.len = g.len := by
  cases h <;> rfl

/-- A step of `sort_disk`. -/
theorem left (h : Sorting base old g shared pc) (hold : old ≤ g.len.toNat)
    (hle : g.len.toNat ≤ MAX_PCB) :
    pc = .done ∨ ∃ shared' pc', sortStep base shared pc = some (.ok (shared', pc')) ∧
      Sorting base old g shared' pc' := by
  cases h with
  | first h =>
      have hzero : 0 < MAX_PCB := by decide
      refine .inr ⟨g, _, ?_, .test (.start h) hzero⟩
      rw [sortStep, QueueReq.get_of_lt hzero, Except.ok_bind_run]
  | @test i closest h hin =>
      right
      rw [sortStep]
      by_cases hi : i < g.len.toNat
      · rw [if_pos hi]
        exact ⟨g, _, rfl, .compare h hin hi⟩
      · rw [if_neg hi]
        exact ⟨g, _, rfl, .temp h (hold.trans (Nat.not_lt.mp hi))⟩
  | @compare i closest h hin hi =>
      right
      have hlt : i < MAX_PCB := Nat.lt_of_lt_of_le hi hle
      have hnext := h.next hin hi hlt
      rw [sortStep, QueueReq.get_of_lt hlt, Except.ok_bind_run]
      dsimp only
      split at hnext
      · rename_i hcloser
        rw [if_pos hcloser]
        exact ⟨g, _, rfl, .test hnext hlt⟩
      · rename_i hfurther
        rw [if_neg hfurther]
        exact ⟨g, _, rfl, .test hnext hin⟩
  | @temp n closest h hold =>
      right
      rw [sortStep]
      by_cases hc : closest = 0
      · -- to swap the first entry with itself changes nothing
        subst hc
        have hzero : 0 < MAX_PCB := by decide
        have hdone := Sorting.done h hold hzero
        rw [swapFirst_zero] at hdone
        rw [if_neg (fun hne => hne rfl)]
        exact ⟨g, .done, rfl, hdone⟩
      · rw [if_pos hc, QueueReq.get_of_lt (by decide), Except.ok_bind_run]
        exact ⟨g, _, rfl, .move h hold⟩
  | @move n closest h hold =>
      right
      have hlt := h.lt
      have hn := h.le
      have hin : closest < MAX_PCB := by omega
      rw [sortStep, QueueReq.get_of_lt hin, Except.ok_bind_run,
        QueueReq.put_of_lt _ (by decide), Except.ok_bind_run]
      exact ⟨_, _, rfl, .back h hold hin⟩
  | @back n closest h hold hin =>
      right
      rw [sortStep, QueueReq.put_of_lt _ hin, Except.ok_bind_run]
      exact ⟨_, _, rfl, .done h hold hin⟩
  | done h hold hin => exact .inl rfl

/-- A step of `q_put`, which does to both queues the same. -/
theorem right {pc' pc'' : PutsPc} (h : Sorting base old g shared pc)
    (hstep : Putting.Step g pc' g' pc'') :
    ∃ shared', putsStep shared pc' = some (.ok (shared', pc'')) ∧ Sorting base old g' shared' pc := by
  have hlen := h.len_eq
  cases hstep with
  | write r rs hroom =>
      refine ⟨{ shared with queue := shared.queue.set g.len.toNat r }, ?_, ?_⟩
      · rw [← hlen] at hroom
        rw [putsStep, QueueReq.put_of_lt _ hroom, Except.ok_bind_run]
        simp only [hlen]
      · have hkept : ∀ (i : Nat) (hi : i < MAX_PCB), i < g.len.toNat →
            (g.queue.set g.len.toNat r)[i] = g.queue[i] :=
          fun i hi hlt => Vector.getElem_set_ne hroom hi (Nat.ne_of_gt hlt)
        have hzero : 0 < MAX_PCB := by decide
        cases h with
        | first h => exact .first h
        | @test i closest h hin =>
            have htest : Sorting base old _ _ _ := .test (h.write r hroom) hin
            rw [hkept closest hin (Nat.lt_of_lt_of_le h.lt h.le)] at htest
            exact htest
        | @compare i closest h hin hi =>
            have hcompare : Sorting base old _ _ _ := .compare (h.write r hroom) hin hi
            rw [hkept closest hin (Nat.lt_of_lt_of_le h.lt h.le)] at hcompare
            exact hcompare
        | temp h hold => exact .temp (h.write r hroom) hold
        | move h hold =>
            have hmove := Sorting.move (h.write r hroom) hold
            rw [hkept 0 hzero (Nat.lt_of_lt_of_le h.pos h.le)] at hmove
            exact hmove
        | @back n closest h hold hin =>
            have hback := Sorting.back (h.write r hroom) hold hin
            have hpos := Nat.lt_of_lt_of_le h.pos h.le
            dsimp only at hback ⊢
            rw [hkept 0 hzero hpos, hkept closest hin (Nat.lt_of_lt_of_le h.lt h.le)] at hback
            rw [Vector.set_comm _ _ (Nat.ne_of_lt hpos)]
            exact hback
        | @done n closest h hold hin =>
            have hdone := Sorting.done (h.write r hroom) hold hin
            dsimp only at hdone ⊢
            rw [swapFirst_set r hin hroom (Nat.lt_of_lt_of_le h.pos h.le)
              (Nat.lt_of_lt_of_le h.lt h.le)]
            exact hdone
  | count rs hnext =>
      refine ⟨{ shared with len := shared.len + 1 }, rfl, ?_⟩
      rw [hlen]
      cases h with
      | first h =>
          refine .first ?_
          dsimp only
          omega
      | test h hin => exact .test (h.count hnext) hin
      | compare h hin hi =>
          refine .compare (h.count hnext) hin ?_
          dsimp only
          omega
      | temp h hold => exact .temp (h.count hnext) hold
      | move h hold => exact .move (h.count hnext) hold
      | back h hold hin => exact .back (h.count hnext) hold hin
      | done h hold hin => exact .done (h.count hnext) hold hin

end Sorting

-- ---------------------------------------------------------------------------
-- Interleavings
-- ---------------------------------------------------------------------------

/-- The sort and the calls of `q_put`, each at its place. -/
def Racing (qr : QueueReq) (rs : List IoReq) (base : UInt32) (shared : QueueReq) (left : SortPc)
    (right : PutsPc) : Prop :=
  ∃ g, Putting qr rs g right ∧ Sorting base qr.len.toNat g shared left

section Race

variable {qr : QueueReq} {rs : List IoReq} {base : UInt32}

theorem Racing.start (hpos : 1 ≤ qr.len.toNat) : Racing qr rs base qr .first (.write rs) :=
  ⟨qr, .start qr rs, .first hpos⟩

theorem Racing.left {shared : QueueReq} {left : SortPc} {right : PutsPc}
    (h : Racing qr rs base shared left right) (hroom : qr.len.toNat + rs.length ≤ MAX_PCB) :
    sortStep base shared left = none ∨ ∃ shared' left',
      sortStep base shared left = some (.ok (shared', left')) ∧
        Racing qr rs base shared' left' right := by
  obtain ⟨g, hput, hsort⟩ := h
  rcases hsort.left hput.le_len (hput.len_le.trans hroom) with rfl | ⟨shared', left', hstep, hsort'⟩
  · exact .inl rfl
  · exact .inr ⟨shared', left', hstep, g, hput, hsort'⟩

theorem Racing.right {shared : QueueReq} {left : SortPc} {right : PutsPc}
    (h : Racing qr rs base shared left right) (hroom : qr.len.toNat + rs.length ≤ MAX_PCB) :
    putsStep shared right = none ∨ ∃ shared' right',
      putsStep shared right = some (.ok (shared', right')) ∧
        Racing qr rs base shared' left right' := by
  obtain ⟨g, hput, hsort⟩ := h
  rcases hput.step hroom with rfl | ⟨g', right', hstep, hput'⟩
  · exact .inl rfl
  · obtain ⟨shared', hok, hsort'⟩ := hsort.right hstep
    exact .inr ⟨shared', right', hok, g', hput', hsort'⟩

/-- The first entries, with two of them swapped, and what is behind them. -/
theorem front_swapFirst {queue : Vector IoReq MAX_PCB} {i n m : Nat} (hi : i < MAX_PCB)
    (hpos : 0 < n) (hlt : i < n) (hnm : n ≤ m) :
    Front.front (swapFirst queue i hi) m
      = Front.front (swapFirst queue i hi) n ++ (Front.front queue m).drop n := by
  have hsplit : Front.front (swapFirst queue i hi) m
      = (Front.front (swapFirst queue i hi) m).take n
        ++ (Front.front (swapFirst queue i hi) m).drop n := (List.take_append_drop _ _).symm
  rw [hsplit]
  congr 1
  · rw [Front.front, List.take_take, Nat.min_eq_left hnm, Front.front]
  · simp only [Front.front, swapFirst, Vector.toList_set, List.take_set]
    rw [List.drop_set_of_lt hlt, List.drop_set_of_lt hpos]

/-- Sorting is one swap. -/
theorem sortDisk_eq_swapFirst {qr : QueueReq} {base : UInt32} {c : Nat} (hc : c < MAX_PCB)
    (hfound : closestLoop qr base (List.range' 1 (qr.len.toNat - 1))
      (absDiff base qr.queue[0].track) 0 = .ok c) :
    sortDisk qr base = .ok { qr with queue := swapFirst qr.queue c hc } := by
  have hzero : 0 < MAX_PCB := by decide
  rw [sortDisk, QueueReq.get_of_lt hzero, Except.ok_bind_run, hfound, Except.ok_bind_run]
  by_cases h : c = 0
  · subst h
    rw [swapFirst_zero]
    exact if_neg fun hne => hne rfl
  · rw [if_pos h, QueueReq.get_of_lt hc, Except.ok_bind_run, QueueReq.put_of_lt _ hzero,
      Except.ok_bind_run, QueueReq.put_of_lt _ hc]
    rfl

/-- All requests have been put. -/
theorem Putting.ended {g : QueueReq} (h : Putting qr rs g (.write [])) :
    g.len.toNat = qr.len.toNat + rs.length ∧ g.requests = qr.requests ++ rs := by
  generalize hpc : PutsPc.write [] = pc at h
  cases h with
  | @write k hk hlen hqueue =>
      have hnil := List.drop_eq_nil_iff.mp (PutsPc.write.inj hpc).symm
      obtain rfl : k = rs.length := Nat.le_antisymm hk hnil
      rw [List.take_length] at hqueue
      exact ⟨hlen, hqueue⟩
  | count => cases hpc

/-- When both are done, the sort has come between two of the calls. -/
theorem Racing.ended {shared : QueueReq} (h : Racing qr rs base shared .done (.write []))
    (hroom : qr.len.toNat + rs.length ≤ MAX_PCB) :
    ∃ k ≤ rs.length, ∃ before after : QueueReq, before.requests = qr.requests ++ rs.take k ∧
      before.len.toNat = qr.len.toNat + k ∧ sortDisk before base = .ok after ∧
      shared.requests = after.requests ++ rs.drop k := by
  obtain ⟨g, hput, hsort⟩ := h
  obtain ⟨hlen, hqueue⟩ := hput.ended
  have hold : qr.requests.length = qr.len.toNat :=
    QueueReq.length_requests (by omega)
  generalize hpc : SortPc.done = pc at hsort
  cases hsort with
  | @done n c h hn hin =>
      obtain ⟨k, rfl⟩ := Nat.exists_eq_add_of_le hn
      have hk := h.le
      have hfew : MAX_PCB < UInt8.size := by decide
      have hlen₀ : (UInt8.ofNat (qr.len.toNat + k)).toNat = qr.len.toNat + k :=
        UInt8.toNat_ofNat_of_lt' (by omega)
      let before : QueueReq := { g with len := UInt8.ofNat (qr.len.toNat + k) }
      refine ⟨k, by omega, before, { before with queue := swapFirst g.queue c hin }, ?_, hlen₀,
        sortDisk_eq_swapFirst hin ?_, ?_⟩
      · -- the requests that had been counted
        calc before.requests = Front.front g.queue (qr.len.toNat + k) :=
              congrArg (Front.front g.queue) hlen₀
          _ = g.requests.take (qr.len.toNat + k) := by
              rw [QueueReq.requests, Front.front, Front.front, List.take_take, Nat.min_eq_left hk]
          _ = qr.requests ++ rs.take k := by
              rw [hqueue, ← hold, List.take_length_add_append]
      · show closestLoop before base (List.range' 1 ((UInt8.ofNat (qr.len.toNat + k)).toNat - 1))
          _ 0 = _
        rw [hlen₀, ← h.found]
        exact closestLoop_congr fun _ _ => rfl
      · have hbehind : g.requests.drop (qr.len.toNat + k) = rs.drop k := by
          rw [hqueue, ← hold, List.drop_length_add_append]
        rw [← hbehind]
        show Front.front (swapFirst g.queue c hin) g.len.toNat
          = Front.front (swapFirst g.queue c hin) (UInt8.ofNat (qr.len.toNat + k)).toNat ++ _
        rw [hlen₀]
        exact front_swapFirst hin h.pos h.lt hk
  | _ => cases hpc

end Race

open SortRace

/-- As long as there is room for all requests, however the statements come, nothing is stored
outside the array, and the queue ends as after a sort between two of the calls of `q_put`: no
request is lost, and the first one is a closest of those that had been counted. -/
theorem sort_race (qr : QueueReq) (base : UInt32) (rs : List IoReq) (es : List Side)
    (hpos : 1 ≤ qr.len.toNat) (hroom : qr.len.toNat + rs.length ≤ MAX_PCB) :
    (∀ e, Run.run (SortRace.step base) (start qr rs) es ≠ .error (some e)) ∧
      ∀ t, Run.run (SortRace.step base) (start qr rs) es = .ok t → t.Done →
        ∃ k ≤ rs.length, ∃ before after : QueueReq, before.requests = qr.requests ++ rs.take k ∧
          sortDisk before base = .ok after ∧ t.shared.requests = after.requests ++ rs.drop k ∧
          t.shared.requests.Perm (qr.requests ++ rs) ∧
          ∃ r ∈ t.shared.requests.head?,
            ∀ q ∈ before.requests, trackDist base r.track ≤ trackDist base q.track := by
  obtain ⟨hsafe, hracing⟩ := Interleave.run_safe (Racing qr rs base) (fun h => h.left hroom)
    (fun h => h.right hroom) (s := start qr rs) (.start hpos) es
  refine ⟨hsafe, fun t hrun hdone => ?_⟩
  have hended := hracing t hrun
  rw [hdone.1, hdone.2] at hended
  obtain ⟨k, hk, before, after, hbefore, hlen, hsort, hrequests⟩ := hended.ended hroom
  have hsome : 0 < before.len.toNat := by omega
  have hfits : before.len.toNat ≤ MAX_PCB := by omega
  obtain ⟨qr', r, rest, hsort', -, hqueue, hperm, hclosest⟩ := sortDisk_eq base hsome hfits
  cases hsort.symm.trans hsort'
  refine ⟨k, hk, before, after, hbefore, hsort, hrequests, ?_, r, ?_, hclosest⟩
  · calc t.shared.requests = after.requests ++ rs.drop k := hrequests
      _ = r :: rest ++ rs.drop k := by rw [hqueue]
      List.Perm _ (before.requests ++ rs.drop k) := hperm.append_right _
      _ = qr.requests ++ rs := by rw [hbefore, List.append_assoc, List.take_append_drop]
  · rw [hrequests, hqueue]
    rfl

/-- A queue of two requests. -/
def QueueReq.two : QueueReq where
  queue := Vector.ofFn fun i =>
    if i = 0 then ⟨1, DISK_SLICE, 9⟩ else if i = 1 then ⟨2, DISK_SLICE, 5⟩ else IoReq.zero
  len := 2

instance SortRace.decidableDone (s : SortRace) : Decidable s.Done :=
  inferInstanceAs (Decidable (_ ∧ _))

/-- One request comes while the loop is at the second entry, and one while the entries are
swapped. -/
def sortRaceTwo : List Side :=
  [.left, .left, .right, .right, .left, .left, .left, .left, .left, .left, .right, .left, .right]

theorem sort_race_two :
    ∃ t, Run.run (SortRace.step 0) (start .two [⟨3, DISK_SLICE, 2⟩, ⟨4, DISK_SLICE, 1⟩])
        sortRaceTwo = .ok t ∧
      t.shared.ids = [3, 2, 1, 4] ∧
      t.shared.requests.Perm
        (QueueReq.two.requests ++ [⟨3, DISK_SLICE, 2⟩, ⟨4, DISK_SLICE, 1⟩]) := by
  have hends : (Run.run (SortRace.step 0)
      (start .two [⟨3, DISK_SLICE, 2⟩, ⟨4, DISK_SLICE, 1⟩]) sortRaceTwo).toOption.any
        (fun t => decide (t.Done ∧ t.shared.ids = [3, 2, 1, 4])) = true := by
    decide +kernel
  obtain ⟨t, hrun, hends⟩ := (Option.any_eq_true _ _).mp hends
  have hrun := Except.toOption_eq_ok.mp hrun
  obtain ⟨hdone, hids⟩ := of_decide_eq_true hends
  have hrace := sort_race .two 0 [⟨3, DISK_SLICE, 2⟩, ⟨4, DISK_SLICE, 1⟩] sortRaceTwo
    (by decide) (by decide)
  obtain ⟨-, -, -, -, -, -, -, hperm, -⟩ := hrace.2 t hrun hdone
  exact ⟨t, hrun, hids, hperm⟩

end ChicOS
