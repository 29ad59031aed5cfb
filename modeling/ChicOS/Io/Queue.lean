-- SUMMARY: The disk queue as a list: what sorting, putting and removing do to the requests in it.
import ChicOS.Io.Disk
import ChicOS.Lib.Front

/-!
# The disk queue

The requests in the queue are the first `len` entries of its array. `q_put`
appends one, `q_remove` drops the first, and `sort_disk` swaps a closest one to
the front.
-/

namespace ChicOS

/-- The distance between two tracks. -/
def trackDist (a b : UInt32) : Nat := (absDiff a b).toNat

theorem trackDist_eq (a b : UInt32) :
    trackDist a b = (a.toNat - b.toNat) + (b.toNat - a.toNat) := by
  unfold trackDist absDiff
  split
  · rename_i h
    rw [UInt32.toNat_sub_of_le _ _ (UInt32.le_of_lt h)]
    have := UInt32.lt_iff_toNat_lt.mp h
    omega
  · rename_i h
    have h := UInt32.not_lt.mp h
    rw [UInt32.toNat_sub_of_le _ _ h]
    have := UInt32.le_iff_toNat_le.mp h
    omega

namespace QueueReq

/-- The requests in the queue. -/
def requests (qr : QueueReq) : List IoReq := Front.front qr.queue qr.len.toNat

/-- The pids of the requests in the queue. -/
def ids (qr : QueueReq) : List UInt32 := qr.requests.map (·.id)

theorem length_requests {qr : QueueReq} (h : qr.len.toNat ≤ MAX_PCB) :
    qr.requests.length = qr.len.toNat := Front.length_front _ h

theorem get_of_lt {qr : QueueReq} {i : Nat} (h : i < MAX_PCB) : qr.get i = .ok qr.queue[i] :=
  dif_pos h

theorem put_of_lt {qr : QueueReq} {i : Nat} (r : IoReq) (h : i < MAX_PCB) :
    qr.put i r = .ok { qr with queue := qr.queue.set i r } := dif_pos h

/-- The first request is at index zero. -/
theorem get_zero {qr : QueueReq} {r : IoReq} {rest : List IoReq}
    (h : qr.requests = r :: rest) : qr.get 0 = .ok r := by
  have hzero : 0 < MAX_PCB := by decide
  have hlen : 0 < qr.requests.length := by
    rw [h]
    exact Nat.succ_pos _
  have hget := Front.getElem_front qr.queue hlen hzero
  have hfirst : qr.requests[0] = r := by simp only [h, List.getElem_cons_zero]
  rw [get_of_lt hzero, ← hget]
  exact congrArg Except.ok hfirst

/-- Storing at index zero replaces the first request. -/
theorem put_zero {qr : QueueReq} {r : IoReq} {rest : List IoReq} (r' : IoReq)
    (h : qr.requests = r :: rest) :
    ∃ qr', qr.put 0 r' = .ok qr' ∧ qr'.len = qr.len ∧ qr'.requests = r' :: rest := by
  have hzero : 0 < MAX_PCB := by decide
  refine ⟨_, put_of_lt r' hzero, rfl, ?_⟩
  show ((qr.queue.set 0 r').toList).take qr.len.toNat = r' :: rest
  have hset : ((qr.queue.set 0 r').toList).take qr.len.toNat = qr.requests.set 0 r' := by
    simp [requests, Front.front, Vector.toList_set, List.take_set]
  rw [hset, h]
  rfl

end QueueReq

open QueueReq

/-! ## Sorting -/

/-- The loop ends on an index it has looked at, none of which is closer. -/
theorem closestLoop_eq {qr : QueueReq} {base minDiff : UInt32} {is : List Nat} {closest : Nat}
    (his : ∀ i ∈ is, i < MAX_PCB) (hclosest : closest < MAX_PCB)
    (hmin : minDiff = absDiff base qr.queue[closest].track) :
    ∃ (c : Nat) (hc : c < MAX_PCB), closestLoop qr base is minDiff closest = .ok c ∧
      (c = closest ∨ c ∈ is) ∧
      trackDist base qr.queue[c].track ≤ trackDist base qr.queue[closest].track ∧
      ∀ i (hi : i < MAX_PCB), i ∈ is →
        trackDist base qr.queue[c].track ≤ trackDist base qr.queue[i].track := by
  induction is generalizing minDiff closest with
  | nil => exact ⟨closest, hclosest, rfl, .inl rfl, le_rfl, fun i _ hi => by cases hi⟩
  | cons j is ih =>
      have hj : j < MAX_PCB := his j List.mem_cons_self
      have his' : ∀ i ∈ is, i < MAX_PCB := fun i hi => his i (List.mem_cons_of_mem j hi)
      rw [closestLoop, get_of_lt hj, Except.ok_bind_run]
      by_cases hlt : absDiff base qr.queue[j].track < minDiff
      · have hcloser : trackDist base qr.queue[j].track ≤ trackDist base qr.queue[closest].track := by
          rw [hmin] at hlt
          exact Nat.le_of_lt (UInt32.lt_iff_toNat_lt.mp hlt)
        obtain ⟨c, hc, heq, hmem, hle, hall⟩ := ih his' hj rfl
        refine ⟨c, hc, ?_, ?_, hle.trans hcloser, fun i hi himem => ?_⟩
        · exact (if_pos hlt).trans heq
        · exact .inr (List.mem_cons.mpr hmem)
        · rcases List.mem_cons.mp himem with rfl | himem
          · exact hle
          · exact hall i hi himem
      · have hfurther : trackDist base qr.queue[closest].track ≤ trackDist base qr.queue[j].track := by
          rw [hmin] at hlt
          exact UInt32.le_iff_toNat_le.mp (UInt32.not_lt.mp hlt)
        obtain ⟨c, hc, heq, hmem, hle, hall⟩ := ih his' hclosest hmin
        refine ⟨c, hc, ?_, ?_, hle, fun i hi himem => ?_⟩
        · exact (if_neg hlt).trans heq
        · exact hmem.imp_right (List.mem_cons_of_mem j)
        · rcases List.mem_cons.mp himem with rfl | himem
          · exact hle.trans hfurther
          · exact hall i hi himem

/-- Sorting permutes the requests, and brings a closest one to the front. -/
theorem sortDisk_eq {qr : QueueReq} (base : UInt32) (hpos : 0 < qr.len.toNat)
    (hle : qr.len.toNat ≤ MAX_PCB) :
    ∃ qr' r rest, sortDisk qr base = .ok qr' ∧ qr'.len = qr.len ∧
      qr'.requests = r :: rest ∧ (r :: rest).Perm qr.requests ∧
      ∀ q ∈ qr.requests, trackDist base r.track ≤ trackDist base q.track := by
  have hzero : 0 < MAX_PCB := by decide
  have hall : ∀ i ∈ List.range' 1 (qr.len.toNat - 1), i < MAX_PCB := by
    intro i hi
    have := (List.mem_range'_1.mp hi).2
    omega
  obtain ⟨c, hc, heq, hmem, hfirst, hclosest⟩ :=
    closestLoop_eq hall hzero (rfl : absDiff base qr.queue[0].track = _)
  have hmin : ∀ q ∈ qr.requests,
      trackDist base qr.queue[c].track ≤ trackDist base q.track := by
    intro q hq
    obtain ⟨i, hi, hin, rfl⟩ := Front.mem_front.mp hq
    by_cases hi0 : i = 0
    · subst hi0
      exact hfirst
    · exact hclosest i hi (List.mem_range'_1.mpr ⟨by omega, by omega⟩)
  have hcn : c < qr.len.toNat := by
    rcases hmem with rfl | h
    · exact hpos
    · have := (List.mem_range'_1.mp h).2
      omega
  let swapped := (qr.queue.set 0 qr.queue[c]).set c qr.queue[0]
  -- swapping an index with itself changes nothing, so both branches are one swap
  have hsort : sortDisk qr base = .ok { qr with queue := swapped } := by
    unfold sortDisk
    rw [get_of_lt hzero, Except.ok_bind_run, heq, Except.ok_bind_run]
    by_cases hc0 : c = 0
    · subst hc0
      simp [swapped]
    · rw [if_pos hc0, get_of_lt hc, Except.ok_bind_run, put_of_lt _ hzero, Except.ok_bind_run,
        put_of_lt _ hc]
  have hfront : swapped[0] = qr.queue[c] := by
    by_cases hc0 : c = 0
    · subst hc0
      simp [swapped]
    · rw [Vector.getElem_set_ne _ _ hc0, Vector.getElem_set_self]
  have hcons := Front.front_eq_cons swapped hpos hzero
  rw [hfront] at hcons
  have hperm := Front.front_swap qr.queue hpos hcn hle
  refine ⟨_, _, _, hsort, rfl, hcons, ?_, hmin⟩
  rw [← hcons]
  exact hperm

/-! ## Putting and removing -/

/-- `q_put` appends, as long as there is room. -/
theorem requests_put {qr : QueueReq} (r : IoReq) (h : qr.len.toNat < MAX_PCB) :
    QueueReq.requests { queue := qr.queue.set qr.len.toNat r, len := qr.len + 1 }
      = qr.requests ++ [r] := by
  have hlen : (qr.len + 1).toNat = qr.len.toNat + 1 :=
    u8_toNat_add_one (Nat.lt_trans h (by decide))
  unfold requests
  dsimp only
  rw [hlen]
  exact Front.front_set_self qr.queue r h

/-- The loop of `q_remove` moves the entries up. -/
theorem shiftLoop_eq (qr : QueueReq) {n : Nat} (hn : n + 1 ≤ MAX_PCB) :
    (List.range n).foldlM (fun (qr : QueueReq) i => do
        let r ← qr.get (i + 1)
        qr.put i r) qr
      = (.ok { qr with queue := Front.shiftFront qr.queue n } : Except Stop QueueReq) := by
  induction n with
  | zero =>
      rw [Front.shiftFront_zero]
      rfl
  | succ n ih =>
      have hn' : n < MAX_PCB := Nat.lt_of_succ_lt hn
      rw [List.range_succ, List.foldlM_append, ih hn', Except.ok_bind_run, List.foldlM_cons,
        get_of_lt hn, Except.ok_bind_run, put_of_lt _ hn']
      dsimp only
      rw [Front.getElem_shiftFront_of_le qr.queue (Nat.le_succ n), Front.shiftFront_succ]
      rfl

/-- `q_remove` drops the first request. -/
theorem qRemove_eq {qr : QueueReq} (hpos : 0 < qr.len.toNat) (hle : qr.len.toNat ≤ MAX_PCB) :
    ∃ qr', qRemove qr = .ok qr' ∧ qr'.len.toNat = qr.len.toNat - 1 ∧
      qr'.requests = qr.requests.tail := by
  have hlen : (qr.len - 1).toNat = qr.len.toNat - 1 := by
    have hone : (1 : UInt8) ≤ qr.len := UInt8.le_iff_toNat_le.mpr hpos
    rw [UInt8.toNat_sub_of_le _ _ hone]
    rfl
  have hlast : qr.len.toNat - 1 < MAX_PCB := by omega
  unfold qRemove
  rw [shiftLoop_eq qr (by omega), Except.ok_bind_run]
  dsimp only
  rw [put_of_lt _ (hlen ▸ hlast), Except.ok_bind_run]
  refine ⟨_, rfl, hlen, ?_⟩
  unfold requests
  dsimp only
  rw [Front.front_set_of_le _ _ _ le_rfl, hlen, Front.front_shiftFront _ hlast, Nat.sub_add_cancel hpos]

/-! ## A turn of the disk loop -/

/-- What a turn does with the request at the front of the sorted queue: move the
head towards it, serve it, or finish it. -/
inductive DiskStep (r : IoReq) (rest : List IoReq) (disk disk' : Disk) : Option UInt32 → Prop where
  | seek (hqueue : disk'.qr.requests = r :: rest)
      (hcloser : trackDist disk'.currentTrack r.track < trackDist disk.currentTrack r.track) :
      DiskStep r rest disk disk' none
  | serve (hreached : r.track = disk.currentTrack) (htime : 0 < r.timeToRun)
      (hqueue : disk'.qr.requests = { r with timeToRun := r.timeToRun - 1 } :: rest)
      (hhead : disk'.currentTrack = disk.currentTrack) :
      DiskStep r rest disk disk' none
  | finish (hreached : r.track = disk.currentTrack) (htime : r.timeToRun = 0)
      (hqueue : disk'.qr.requests = rest) (hhead : disk'.currentTrack = disk.currentTrack) :
      DiskStep r rest disk disk' (some r.id)

/-- Where the head is after `n` moves to a target: on the target, or on the way. -/
def towards (head target n : Nat) : Nat :=
  if head ≤ target then min (head + n) target else max (head - n) target

/-- The head moves one track. -/
theorem moveHeader_eq {app : App} (target : UInt32) (hlock : app.disk.diskS ≠ 0) :
    ∃ track, moveHeader app target = .ok { app with disk.currentTrack := track } ∧
      track.toNat = towards app.disk.currentTrack.toNat target.toNat 1 := by
  obtain ⟨n, hn⟩ := Nat.exists_eq_succ_of_ne_zero hlock
  have hwait : semWait .diskS app.disk.diskS = .ok n := semWait_eq_ok.mpr hn
  unfold moveHeader
  rw [hwait, Except.ok_bind_run]
  refine ⟨_, by rw [← Nat.succ_eq_add_one, ← hn], ?_⟩
  generalize app.disk.currentTrack = track
  have hmax := target.toNat_lt
  unfold towards
  by_cases hlt : track < target
  · have hlt' := UInt32.lt_iff_toNat_lt.mp hlt
    have hinc : (track + 1).toNat = track.toNat + 1 := by
      rw [UInt32.toNat_add]
      show (track.toNat + 1) % 2 ^ 32 = _
      omega
    have hstop : ¬ target < track + 1 := by
      rw [UInt32.lt_iff_toNat_lt, hinc]
      omega
    rw [if_pos hlt, if_neg hstop, hinc, if_pos (Nat.le_of_lt hlt')]
    omega
  · have hge := UInt32.le_iff_toNat_le.mp (UInt32.not_lt.mp hlt)
    rw [if_neg hlt]
    by_cases hgt : target < track
    · have hgt' := UInt32.lt_iff_toNat_lt.mp hgt
      have hone : (1 : UInt32) ≤ track := UInt32.le_iff_toNat_le.mpr (Nat.zero_lt_of_lt hgt')
      have hdec : (track - 1).toNat = track.toNat - 1 := UInt32.toNat_sub_of_le _ _ hone
      rw [if_pos hgt, hdec, if_neg (Nat.not_le_of_lt hgt')]
      omega
    · have hle := UInt32.le_iff_toNat_le.mp (UInt32.not_lt.mp hgt)
      rw [if_neg hgt, if_pos hle]
      omega

/-- A head that is not on its target gets closer to it. -/
theorem trackDist_towards {head head' target : UInt32} (hne : target ≠ head)
    (hmove : head'.toNat = towards head.toNat target.toNat 1) :
    trackDist head' target < trackDist head target := by
  have hne' : target.toNat ≠ head.toNat := fun h => hne (UInt32.toNat_inj.mp h)
  rw [trackDist_eq, trackDist_eq, hmove, towards]
  split
  · omega
  · omega

/-- With nothing queued a turn does nothing. -/
theorem diskTurn_nil {app : App} (hempty : app.disk.qr.len.toNat = 0) :
    diskTurn app = .ok (none, app) := by
  have hzero : app.disk.qr.len = 0 := UInt8.toNat_inj.mp hempty
  unfold diskTurn
  rw [hzero]
  simp [hzero]

/-- The first half of a turn: a closest request is at the front. -/
theorem sorted_eq {qr : QueueReq} (base : UInt32) (hpos : 0 < qr.len.toNat)
    (hle : qr.len.toNat ≤ MAX_PCB) :
    ∃ qr' r rest, (if 1 < qr.len then sortDisk qr base else .ok qr) = .ok qr' ∧
      qr'.len = qr.len ∧ qr'.requests = r :: rest ∧ (r :: rest).Perm qr.requests ∧
      ∀ q ∈ qr.requests, trackDist base r.track ≤ trackDist base q.track := by
  by_cases hmany : 1 < qr.len
  · rw [if_pos hmany]
    exact sortDisk_eq base hpos hle
  · have hone : qr.requests.length = 1 := by
      rw [length_requests hle]
      have := UInt8.le_iff_toNat_le.mp (UInt8.not_lt.mp hmany)
      exact Nat.le_antisymm this hpos
    obtain ⟨r, hr⟩ := List.length_eq_one_iff.mp hone
    rw [if_neg hmany]
    refine ⟨qr, r, [], rfl, rfl, hr, List.Perm.of_eq hr.symm, fun q hq => ?_⟩
    rw [hr, List.mem_singleton] at hq
    rw [hq]

/-- With something queued it deals with the front of the sorted queue. -/
theorem diskTurn_front {app : App} {qr : QueueReq} {r : IoReq} {rest : List IoReq}
    (hsort : (if 1 < app.disk.qr.len then sortDisk app.disk.qr app.disk.currentTrack
      else .ok app.disk.qr) = .ok qr)
    (hlen : qr.len = app.disk.qr.len) (hqueue : qr.requests = r :: rest)
    (hpos : 0 < app.disk.qr.len.toNat) (hle : app.disk.qr.len.toNat ≤ MAX_PCB)
    (hlock : app.disk.diskS ≠ 0) :
    ∃ (disk : Disk) (finished : Option UInt32),
      diskTurn app = .ok (finished, { app with disk := disk }) ∧
      disk.qr.len.toNat ≤ app.disk.qr.len.toNat ∧ disk.diskS = app.disk.diskS ∧
      DiskStep r rest app.disk disk finished ∧
      disk.currentTrack.toNat = towards app.disk.currentTrack.toNat r.track.toNat 1 := by
  have hpos' : 0 < qr.len := by
    rw [hlen]
    exact UInt8.lt_iff_toNat_lt.mpr hpos
  have hstay : r.track = app.disk.currentTrack →
      app.disk.currentTrack.toNat = towards app.disk.currentTrack.toNat r.track.toNat 1 := by
    intro h
    rw [h, towards, if_pos le_rfl]
    omega
  unfold diskTurn
  rw [hsort, Except.ok_bind_run]
  dsimp only
  rw [if_pos hpos', get_zero hqueue, Except.ok_bind_run]
  by_cases hreached : r.track = app.disk.currentTrack
  · rw [if_pos hreached]
    unfold execIo
    dsimp only
    rw [get_zero hqueue, Except.ok_bind_run]
    by_cases htime : 0 < r.timeToRun
    · obtain ⟨qr', hput, hlen', hqueue'⟩ := put_zero { r with timeToRun := r.timeToRun - 1 } hqueue
      rw [if_pos htime, hput, Except.ok_bind_run]
      refine ⟨_, none, rfl, ?_, rfl, .serve hreached htime hqueue' hreached, ?_⟩
      · dsimp only
        rw [hlen', hlen]
      · exact (congrArg UInt32.toNat hreached).trans (hstay hreached)
    · have hzero : r.timeToRun = 0 := UInt32.le_zero_iff.mp (UInt32.not_lt.mp htime)
      have hqr : 0 < qr.len.toNat ∧ qr.len.toNat ≤ MAX_PCB := by
        rw [hlen]
        exact ⟨hpos, hle⟩
      obtain ⟨qr', hremove, hlen', hqueue'⟩ := qRemove_eq hqr.1 hqr.2
      rw [hqueue, List.tail_cons] at hqueue'
      rw [if_neg htime, hremove, Except.ok_bind_run]
      refine ⟨_, some r.id, rfl, ?_, rfl, .finish hreached hzero hqueue' rfl, hstay hreached⟩
      dsimp only
      rw [hlen', hlen]
      exact Nat.sub_le _ _
  · obtain ⟨track, hmove, htrack⟩ := moveHeader_eq r.track
      (show ({ app with disk.qr := qr } : App).disk.diskS ≠ 0 from hlock)
    rw [if_neg hreached, hmove, Except.ok_bind_run]
    exact ⟨_, none, rfl, Nat.le_of_eq (by rw [hlen]), rfl,
      .seek hqueue (trackDist_towards hreached htrack), htrack⟩

/-- With something queued it deals with a closest request. -/
theorem diskTurn_cons {app : App} (hpos : 0 < app.disk.qr.len.toNat)
    (hle : app.disk.qr.len.toNat ≤ MAX_PCB) (hlock : app.disk.diskS ≠ 0) :
    ∃ (r : IoReq) (rest : List IoReq) (disk : Disk) (finished : Option UInt32),
      diskTurn app = .ok (finished, { app with disk := disk }) ∧
      (r :: rest).Perm app.disk.qr.requests ∧
      (∀ q ∈ app.disk.qr.requests,
        trackDist app.disk.currentTrack r.track ≤ trackDist app.disk.currentTrack q.track) ∧
      disk.qr.len.toNat ≤ app.disk.qr.len.toNat ∧ disk.diskS = app.disk.diskS ∧
      DiskStep r rest app.disk disk finished := by
  obtain ⟨qr, r, rest, hsort, hlen, hqueue, hperm, hclosest⟩ :=
    sorted_eq app.disk.currentTrack hpos hle
  obtain ⟨disk, finished, hturn, hlen', hlock', hstep, -⟩ :=
    diskTurn_front hsort hlen hqueue hpos hle hlock
  exact ⟨r, rest, disk, finished, hturn, hperm, hclosest, hlen', hlock', hstep⟩

end ChicOS
