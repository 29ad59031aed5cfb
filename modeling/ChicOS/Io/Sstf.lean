-- SUMMARY: The disk loop serves shortest-seek-first: what it does to the request it has chosen, over runs of turns and arrivals.
import ChicOS.Io.Queue

/-!
# Shortest seek first

Every turn of `disk_loop` sorts the queue again, whatever the turn before it
chose. A request on the track of the head is at distance zero, so that nothing
gets in front of it: it is served to its end. The request that the head moves
towards is closer by one track after each move, the others by one at most: as
long as nothing arrives it is the closest again.
-/

namespace ChicOS

/-! ## A record of what the loop does -/

/-- What a turn of the disk loop does: nothing, a move of the head towards the
first request, or a call of `exec_io` on it. -/
inductive DiskAct where
  | idle
  | seek (r : IoReq)
  | exec (r : IoReq)
  deriving DecidableEq, Repr

/-- What the next turn does. -/
def diskAct (app : App) : Except Stop DiskAct := do
  let qr ← (if 1 < app.disk.qr.len then sortDisk app.disk.qr app.disk.currentTrack
    else .ok app.disk.qr)
  if 0 < qr.len then do
    let r ← qr.get 0
    if r.track = app.disk.currentTrack then .ok (.exec r) else .ok (.seek r)
  else .ok .idle

/-- The simulator, and the history of its turns and of the pids that finished. -/
structure DiskLog where
  app : App
  acts : List DiskAct
  finishes : List UInt32

inductive DiskEvent where
  /-- `simulate_io` puts a new request. -/
  | arrive (pid track : UInt32)
  /-- An iteration of `disk_loop`. -/
  | turn
  deriving DecidableEq

namespace DiskLog

def start (app : App) : DiskLog where
  app := app
  acts := []
  finishes := []

def step (s : DiskLog) : DiskEvent → Except Stop DiskLog
  | .arrive pid track => do
    let app ← simulateIo s.app pid track
    .ok { s with app := app }
  | .turn => do
    let act ← diskAct s.app
    let (finished, app) ← diskTurn s.app
    .ok { app := app, acts := s.acts ++ [act], finishes := s.finishes ++ finished.toList }

def requests (s : DiskLog) : List IoReq := s.app.disk.qr.requests

def head (s : DiskLog) : UInt32 := s.app.disk.currentTrack

/-- The queue fits, and the lock of the disk is free. -/
structure Ready (s : DiskLog) : Prop where
  len_le : s.app.disk.qr.len.toNat ≤ MAX_PCB
  lock : s.app.disk.diskS ≠ 0

/-- No request is closer to the head. -/
def Nearest (s : DiskLog) (r : IoReq) : Prop :=
  ∀ q ∈ s.requests, trackDist s.head r.track ≤ trackDist s.head q.track

end DiskLog

/-! ## Sorting a sorted queue -/

theorem closestLoop_stay {qr : QueueReq} {base minDiff : UInt32} {is : List Nat} {closest : Nat}
    (his : ∀ i ∈ is, i < MAX_PCB)
    (hmin : ∀ i (hi : i < MAX_PCB), i ∈ is → ¬ absDiff base qr.queue[i].track < minDiff) :
    closestLoop qr base is minDiff closest = .ok closest := by
  induction is with
  | nil => rfl
  | cons j is ih =>
      have hj : j < MAX_PCB := his j List.mem_cons_self
      rw [closestLoop, QueueReq.get_of_lt hj, Except.ok_bind_run]
      dsimp only
      rw [if_neg (hmin j hj List.mem_cons_self)]
      apply ih
      · exact fun i hi => his i (List.mem_cons_of_mem j hi)
      · exact fun i hi himem => hmin i hi (List.mem_cons_of_mem j himem)

/-- A closest request at the front stays there: the loop looks for a closer one. -/
theorem sortDisk_stay {qr : QueueReq} {base : UInt32} {r : IoReq} {rest : List IoReq}
    (hqueue : qr.requests = r :: rest) (hle : qr.len.toNat ≤ MAX_PCB)
    (hnear : ∀ q ∈ qr.requests, trackDist base r.track ≤ trackDist base q.track) :
    sortDisk qr base = .ok qr := by
  have hall : ∀ i ∈ List.range' 1 (qr.len.toNat - 1), i < MAX_PCB := by
    intro i hi
    have := List.mem_range'_1.mp hi
    omega
  have hloop : closestLoop qr base (List.range' 1 (qr.len.toNat - 1)) (absDiff base r.track) 0
      = .ok 0 := by
    apply closestLoop_stay hall
    intro i hi himem
    have hmem : qr.queue[i] ∈ qr.requests := by
      have := List.mem_range'_1.mp himem
      exact Front.mem_front.mpr ⟨i, hi, by omega, rfl⟩
    rw [UInt32.not_lt, UInt32.le_iff_toNat_le]
    exact hnear _ hmem
  unfold sortDisk
  rw [QueueReq.get_zero hqueue, Except.ok_bind_run, hloop, Except.ok_bind_run]
  exact if_neg (fun h => h rfl)

theorem sorted_stay {qr : QueueReq} {base : UInt32} {r : IoReq} {rest : List IoReq}
    (hqueue : qr.requests = r :: rest) (hle : qr.len.toNat ≤ MAX_PCB)
    (hnear : ∀ q ∈ qr.requests, trackDist base r.track ≤ trackDist base q.track) :
    (if 1 < qr.len then sortDisk qr base else .ok qr) = .ok qr := by
  split
  · exact sortDisk_stay hqueue hle hnear
  · rfl

/-! ## Serving -/

/-- A request after some milliseconds of service. -/
def IoReq.after (r : IoReq) (n : Nat) : IoReq :=
  { r with timeToRun := r.timeToRun - UInt32.ofNat n }

/-- The first calls of `exec_io` on a request. -/
def execs (r : IoReq) (n : Nat) : List DiskAct := (List.range n).map fun k => .exec (r.after k)

namespace IoReq

variable {r : IoReq}

@[simp] theorem after_zero (r : IoReq) : r.after 0 = r := by
  simp [after]

@[simp] theorem after_track (r : IoReq) (n : Nat) : (r.after n).track = r.track := rfl

theorem after_after (r : IoReq) (m n : Nat) : (r.after m).after n = r.after (m + n) := by
  have hsub : r.timeToRun - UInt32.ofNat m - UInt32.ofNat n = r.timeToRun - UInt32.ofNat (m + n) := by
    rw [UInt32.ofNat_add]
    grind
  simp only [after, hsub]

theorem after_one_time (h : r.timeToRun ≠ 0) :
    (r.after 1).timeToRun.toNat + 1 = r.timeToRun.toNat := by
  have hpos : 0 < r.timeToRun.toNat :=
    Nat.pos_of_ne_zero fun hzero => h (UInt32.toNat_inj.mp hzero)
  have hone : (1 : UInt32) ≤ r.timeToRun := UInt32.le_iff_toNat_le.mpr hpos
  have hdec : (r.timeToRun - 1).toNat = r.timeToRun.toNat - 1 :=
    UInt32.toNat_sub_of_le _ _ hone
  show (r.timeToRun - 1).toNat + 1 = _
  omega

end IoReq

theorem execs_succ (r : IoReq) (n : Nat) : execs r (n + 1) = .exec r :: execs (r.after 1) n := by
  have hafter : ∀ k, (r.after 1).after k = r.after (k + 1) := by
    intro k
    rw [IoReq.after_after, Nat.add_comm]
  simp [execs, List.range_succ_eq_map, Function.comp_def, hafter]

/-! ## Turns -/

namespace DiskLog

variable {s t : DiskLog} {r : IoReq} {rest : List IoReq}

theorem length_requests_eq (h : s.Ready) : s.requests.length = s.app.disk.qr.len.toNat :=
  QueueReq.length_requests h.len_le

theorem diskAct_front {app : App} {qr : QueueReq}
    (hsort : (if 1 < app.disk.qr.len then sortDisk app.disk.qr app.disk.currentTrack
      else .ok app.disk.qr) = .ok qr) (hqueue : qr.requests = r :: rest) (hpos : 0 < qr.len) :
    diskAct app = .ok (if r.track = app.disk.currentTrack then .exec r else .seek r) := by
  unfold diskAct
  rw [hsort, Except.ok_bind_run, if_pos hpos, QueueReq.get_zero hqueue, Except.ok_bind_run]
  split
  · rfl
  · rfl

/-- A turn acts on a queue as on the sorted one, where a closest request is first. -/
theorem exists_sorted (h : s.Ready) (hne : s.requests ≠ []) :
    ∃ (t : DiskLog) (r : IoReq) (rest : List IoReq), s.step .turn = t.step .turn ∧
      diskAct s.app = diskAct t.app ∧ t.Ready ∧ t.requests = r :: rest ∧ t.Nearest r ∧
      (r :: rest).Perm s.requests ∧ t.head = s.head ∧ t.acts = s.acts ∧
      t.finishes = s.finishes := by
  have hpos : 0 < s.app.disk.qr.len.toNat := by
    rw [← length_requests_eq h]
    exact List.length_pos_iff.mpr hne
  obtain ⟨qr, r, rest, hsort, hlen, hqueue, hperm, hclosest⟩ :=
    sorted_eq s.app.disk.currentTrack hpos h.len_le
  have hle : qr.len.toNat ≤ MAX_PCB := by
    rw [hlen]
    exact h.len_le
  have hnear : ∀ q ∈ qr.requests, trackDist s.app.disk.currentTrack r.track
      ≤ trackDist s.app.disk.currentTrack q.track := by
    intro q hq
    rw [hqueue] at hq
    exact hclosest q (hperm.mem_iff.mp hq)
  have hagain := sorted_stay hqueue hle hnear
  have hact : diskAct s.app = diskAct { s.app with disk.qr := qr } := by
    unfold diskAct
    dsimp only
    rw [hsort, hagain]
  have hturn : diskTurn s.app = diskTurn { s.app with disk.qr := qr } := by
    unfold diskTurn
    dsimp only
    rw [hsort, hagain, Except.ok_bind_run]
  refine ⟨{ s with app.disk.qr := qr }, r, rest, ?_, hact, ⟨hle, h.lock⟩, hqueue, hnear, hperm,
    rfl, rfl, rfl⟩
  dsimp only [step]
  rw [hact, hturn]

/-- A turn on a queue whose first request is a closest one. -/
theorem turn_front (h : s.Ready) (hqueue : s.requests = r :: rest) (hnear : s.Nearest r) :
    diskAct s.app = .ok (if r.track = s.head then .exec r else .seek r) ∧
      ∃ (disk : Disk) (finished : Option UInt32),
        s.step .turn = .ok
          { app := { s.app with disk := disk }
            acts := s.acts ++ [if r.track = s.head then .exec r else .seek r]
            finishes := s.finishes ++ finished.toList } ∧
        disk.qr.len.toNat ≤ MAX_PCB ∧ disk.diskS ≠ 0 ∧
        DiskStep r rest s.app.disk disk finished ∧
        disk.currentTrack.toNat = towards s.head.toNat r.track.toNat 1 := by
  have hpos : 0 < s.app.disk.qr.len.toNat := by
    rw [← length_requests_eq h, hqueue]
    exact Nat.succ_pos _
  have hsort := sorted_stay hqueue h.len_le hnear
  have hact := diskAct_front hsort hqueue (UInt8.lt_iff_toNat_lt.mpr hpos)
  obtain ⟨disk, finished, hturn, hlen, hlock, hstep, hhead⟩ :=
    diskTurn_front hsort rfl hqueue hpos h.len_le h.lock
  refine ⟨hact, disk, finished, ?_, hlen.trans h.len_le, ?_, hstep, hhead⟩
  · dsimp only [step]
    rw [hact, hturn]
    rfl
  · rw [hlock]
    exact h.lock

theorem arrive_eq_ok {pid track : UInt32} (h : s.Ready) (hok : s.step (.arrive pid track) = .ok t) :
    t.Ready ∧ t.requests = s.requests ++ [{ id := pid, timeToRun := DISK_SLICE, track := track }] ∧
      t.head = s.head ∧ t.acts = s.acts ∧ t.finishes = s.finishes := by
  obtain ⟨app, hio, hok⟩ := Except.bind_eq_ok.mp hok
  cases hok
  obtain ⟨-, qr, hput, rfl⟩ := simulateIo_eq_ok hio
  unfold QueueReq.put at hput
  split at hput
  · rename_i hroom
    cases hput
    have hlen := h.len_le
    refine ⟨⟨?_, h.lock⟩, requests_put _ hroom, rfl, rfl, rfl⟩
    show (s.app.disk.qr.len + 1).toNat ≤ MAX_PCB
    rw [UInt8.toNat_add]
    exact (Nat.mod_le _ _).trans hroom
  · cases hput

/-! ## Runs -/

/-- How many turns there are among the events. -/
def turns (es : List DiskEvent) : Nat := es.count .turn

@[simp] theorem turns_arrive (pid track : UInt32) (es : List DiskEvent) :
    turns (.arrive pid track :: es) = turns es := by
  simp [turns]

@[simp] theorem turns_turn (es : List DiskEvent) : turns (.turn :: es) = turns es + 1 := by
  simp [turns]

/-- Arrivals leave no trace in the history. -/
theorem arrivals_run {es : List DiskEvent} (h : s.Ready) (hes : turns es = 0)
    (hrun : Run.run step s es = .ok t) : t.acts = s.acts ∧ t.finishes = s.finishes := by
  induction es generalizing s with
  | nil =>
      cases hrun
      exact ⟨rfl, rfl⟩
  | cons e es ih =>
      obtain ⟨s', hstep, hrest⟩ := Run.run_cons_eq_ok.mp hrun
      cases e with
      | arrive pid track =>
          rw [turns_arrive] at hes
          obtain ⟨hready, -, -, hacts, hfinishes⟩ := arrive_eq_ok h hstep
          rw [← hacts, ← hfinishes]
          exact ih hready hes hrest
      | turn =>
          rw [turns_turn] at hes
          cases hes

theorem trackDist_eq_zero {a b : UInt32} : trackDist a b = 0 ↔ a = b := by
  rw [trackDist_eq, ← UInt32.toNat_inj]
  omega

theorem nearest_of_reached (h : r.track = s.head) : s.Nearest r := by
  intro q _
  rw [trackDist_eq_zero.mpr h.symm]
  exact Nat.zero_le _

/-- A turn with the head on the track of the first request serves it. -/
theorem turn_serve (h : s.Ready) (hqueue : s.requests = r :: rest) (hreached : r.track = s.head)
    (hok : s.step .turn = .ok t) :
    t.Ready ∧ t.acts = s.acts ++ [.exec r] ∧ t.head = s.head ∧
      ((r.timeToRun ≠ 0 ∧ t.requests = r.after 1 :: rest ∧ t.finishes = s.finishes) ∨
      (r.timeToRun = 0 ∧ t.requests = rest ∧ t.finishes = s.finishes ++ [r.id])) := by
  obtain ⟨-, disk, finished, hturn, hlen, hlock, hstep, -⟩ :=
    turn_front h hqueue (nearest_of_reached hreached)
  cases hturn.symm.trans hok
  have hacts : s.acts ++ [if r.track = s.head then DiskAct.exec r else .seek r]
      = s.acts ++ [.exec r] := by
    rw [if_pos hreached]
  cases hstep with
  | seek _ hcloser =>
      have hzero : trackDist s.app.disk.currentTrack r.track = 0 := trackDist_eq_zero.mpr hreached.symm
      rw [hzero] at hcloser
      exact absurd hcloser (Nat.not_lt_zero _)
  | serve _ htime hqueue' hhead =>
      refine ⟨⟨hlen, hlock⟩, hacts, hhead, .inl ⟨?_, hqueue', List.append_nil _⟩⟩
      rintro hzero
      rw [hzero] at htime
      exact absurd htime (by decide)
  | finish _ htime hqueue' hhead =>
      exact ⟨⟨hlen, hlock⟩, hacts, hhead, .inr ⟨htime, hqueue', rfl⟩⟩

/-- Whatever arrives, the turns serve the request at the front until it finishes. -/
theorem serve_run {es : List DiskEvent} (h : s.Ready) (hqueue : s.requests = r :: rest)
    (hreached : r.track = s.head) (hrun : Run.run step s es = .ok t) :
    (turns es ≤ r.timeToRun.toNat → t.requests.head? = some (r.after (turns es)) ∧
      t.acts = s.acts ++ execs r (turns es) ∧ t.finishes = s.finishes) ∧
    (turns es = r.timeToRun.toNat + 1 → t.acts = s.acts ++ execs r (turns es) ∧
      t.finishes = s.finishes ++ [r.id]) := by
  induction es generalizing s r rest with
  | nil =>
      cases hrun
      refine ⟨fun _ => ⟨?_, (List.append_nil _).symm, rfl⟩, fun hturns => by cases hturns⟩
      rw [hqueue]
      exact congrArg some r.after_zero.symm
  | cons e es ih =>
      obtain ⟨s', hstep, hrest⟩ := Run.run_cons_eq_ok.mp hrun
      cases e with
      | arrive pid track =>
          obtain ⟨hready, hqueue', hhead, hacts, hfinishes⟩ := arrive_eq_ok h hstep
          rw [hqueue] at hqueue'
          rw [← hhead] at hreached
          rw [turns_arrive, ← hacts, ← hfinishes]
          exact ih hready hqueue' hreached hrest
      | turn =>
          obtain ⟨hready, hacts, hhead, ⟨htime, hqueue', hfinishes⟩ | ⟨htime, -, hfinishes⟩⟩ :=
            turn_serve h hqueue hreached hstep
          · have hdec := IoReq.after_one_time htime
            have hafter : (r.after 1).after (turns es) = r.after (turns es + 1) := by
              rw [IoReq.after_after, Nat.add_comm]
            obtain ⟨hserving, hfinish⟩ := ih hready hqueue' (hreached.trans hhead.symm) hrest
            rw [hafter, hacts, hfinishes, List.append_assoc] at hserving
            rw [hacts, hfinishes, List.append_assoc] at hfinish
            rw [turns_turn, execs_succ]
            exact ⟨fun hle => hserving (by omega), fun heq => hfinish (by omega)⟩
          · have hzero : r.timeToRun.toNat = 0 := by rw [htime]; rfl
            rw [turns_turn, hzero, execs_succ]
            refine ⟨fun hle => by omega, fun heq => ?_⟩
            have hnone : turns es = 0 := by omega
            obtain ⟨hacts', hfinishes'⟩ := arrivals_run hready hnone hrest
            rw [hacts', hacts, hfinishes', hfinishes, hnone]
            exact ⟨rfl, rfl⟩

/-! ## Stretches with no arrival -/

/-- What the loop does with the request it has chosen: move to it, and serve it to
its end. -/
def plan (s : DiskLog) (r : IoReq) : List DiskAct :=
  List.replicate (trackDist s.head r.track) (.seek r) ++ execs r (r.timeToRun.toNat + 1)

/-- The turns before the one that finishes a request. -/
def left (s : DiskLog) (r : IoReq) : Nat := trackDist s.head r.track + r.timeToRun.toNat

theorem towards_zero (head target : Nat) : towards head target 0 = head := by
  unfold towards
  split
  · omega
  · omega

theorem towards_towards (head target n : Nat) :
    towards (towards head target 1) target n = towards head target (n + 1) := by
  unfold towards
  split
  · rename_i hle
    rw [if_pos (min_le_right _ _)]
    omega
  · rename_i hgt
    by_cases hle : max (head - 1) target ≤ target
    · rw [if_pos hle]
      omega
    · rw [if_neg hle]
      omega

/-- A move towards a closest request brings it one track closer, and the others
by no more than that. -/
theorem nearest_seek (hnear : s.Nearest r) (hne : r.track ≠ s.head)
    (hsame : t.requests = s.requests)
    (hmove : t.head.toNat = towards s.head.toNat r.track.toNat 1) :
    t.Nearest r ∧ trackDist t.head r.track + 1 = trackDist s.head r.track := by
  have hne' : r.track.toNat ≠ s.head.toNat := fun h => hne (UInt32.toNat_inj.mp h)
  have hcloser : trackDist t.head r.track + 1 = trackDist s.head r.track := by
    rw [trackDist_eq, trackDist_eq, hmove, towards]
    split
    · omega
    · omega
  refine ⟨?_, hcloser⟩
  intro q hq
  rw [hsame] at hq
  have hle := hnear q hq
  have hstep : trackDist s.head q.track ≤ trackDist t.head q.track + 1 := by
    rw [trackDist_eq, trackDist_eq, hmove, towards]
    split
    · omega
    · omega
  omega

/-- A turn takes the first step of the plan. -/
theorem turn_plan (h : s.Ready) (hqueue : s.requests = r :: rest) (hnear : s.Nearest r) :
    ∃ s' act, s.step .turn = .ok s' ∧ s'.acts = s.acts ++ [act] ∧
      s'.head.toNat = towards s.head.toNat r.track.toNat 1 ∧
      ((∃ r', s'.Ready ∧ s'.requests = r' :: rest ∧ s'.Nearest r' ∧ r'.id = r.id ∧
        r'.track = r.track ∧ s.left r = s'.left r' + 1 ∧ s.plan r = act :: s'.plan r' ∧
        s'.finishes = s.finishes) ∨
      (s.left r = 0 ∧ s.plan r = [act] ∧ s'.finishes = s.finishes ++ [r.id])) := by
  obtain ⟨-, disk, finished, hturn, hlen, hlock, hstep, hmove⟩ := turn_front h hqueue hnear
  by_cases hreached : r.track = s.head
  · have hdist : trackDist s.head r.track = 0 := trackDist_eq_zero.mpr hreached.symm
    obtain ⟨hready, hacts, hhead, hcase⟩ := turn_serve h hqueue hreached hturn
    refine ⟨_, .exec r, hturn, hacts, hmove, ?_⟩
    obtain ⟨htime, hqueue', hfinishes⟩ | ⟨htime, -, hfinishes⟩ := hcase
    · have hdec := IoReq.after_one_time htime
      have hreached' := hreached.trans hhead.symm
      refine .inl ⟨r.after 1, hready, hqueue', nearest_of_reached hreached', rfl, rfl, ?_, ?_,
        hfinishes⟩
      · rw [left, left, hhead, IoReq.after_track, hdist]
        omega
      · rw [plan, plan, hhead, IoReq.after_track, hdist, execs_succ r, hdec]
        rfl
    · have hzero : r.timeToRun.toNat = 0 := by rw [htime]; rfl
      refine .inr ⟨?_, ?_, hfinishes⟩
      · rw [left, hdist, hzero]
      · rw [plan, hdist, hzero, execs_succ]
        rfl
  · cases hstep with
    | seek hqueue' _ =>
        obtain ⟨hnear', hcloser⟩ := nearest_seek (t := { s with app := { s.app with disk := disk } })
          hnear hreached (hqueue'.trans hqueue.symm) hmove
        refine ⟨_, .seek r, hturn, ?_, hmove, .inl ⟨r, ⟨hlen, hlock⟩, hqueue', hnear', rfl, rfl, ?_,
          ?_, List.append_nil _⟩⟩
        · dsimp only
          rw [if_neg hreached]
        · rw [left, ← hcloser]
          exact Nat.add_right_comm _ _ _
        · rw [plan, ← hcloser, List.replicate_succ]
          rfl
    | serve hreached' | finish hreached' => exact absurd hreached' hreached

/-- With no arrival the loop carries out its plan for the request it has chosen. -/
theorem stretch {n : Nat} (h : s.Ready) (hqueue : s.requests = r :: rest) (hnear : s.Nearest r)
    (hn : n ≤ s.left r + 1) :
    ∃ t, Run.run step s (List.replicate n .turn) = .ok t ∧
      t.acts = s.acts ++ (s.plan r).take n ∧
      t.finishes = s.finishes ++ (if n = s.left r + 1 then [r.id] else []) ∧
      t.head.toNat = towards s.head.toNat r.track.toNat n := by
  induction n generalizing s r with
  | zero =>
      refine ⟨s, rfl, (List.append_nil _).symm, ?_, (towards_zero _ _).symm⟩
      rw [if_neg (Nat.succ_ne_zero _).symm, List.append_nil]
  | succ n ih =>
      obtain ⟨s', act, hturn, hacts, hmove, hcase⟩ := turn_plan h hqueue hnear
      rw [List.replicate_succ]
      obtain ⟨r', hready, hqueue', hnear', hid, htrack, hleft, hplan, hfinishes⟩ |
        ⟨hleft, hplan, hfinishes⟩ := hcase
      · rw [hleft] at hn ⊢
        obtain ⟨t, hrun, hacts', hfinishes', hmove'⟩ :=
          ih hready hqueue' hnear' (Nat.le_of_succ_le_succ hn)
        refine ⟨t, Run.run_cons_eq_ok.mpr ⟨s', hturn, hrun⟩, ?_, ?_, ?_⟩
        · rw [hacts', hacts, hplan, List.append_assoc]
          rfl
        · rw [hfinishes', hfinishes, hid]
          simp only [Nat.add_right_cancel_iff]
        · rw [hmove', htrack, hmove, towards_towards]
      · rw [hleft] at hn ⊢
        have hzero : n = 0 := Nat.le_zero.mp (Nat.le_of_succ_le_succ hn)
        subst hzero
        refine ⟨s', Run.run_cons_eq_ok.mpr ⟨s', hturn, rfl⟩, ?_, ?_, hmove⟩
        · rw [hacts, hplan]
          rfl
        · rw [hfinishes, if_pos rfl]

/-! ## What holds of every state -/

/-- Every request has its whole time left, except the one that the last turn served. -/
structure Inv (s : DiskLog) : Prop extends Ready s where
  whole : (∀ q ∈ s.requests, q.timeToRun = DISK_SLICE) ∨
    ∃ r rest, s.requests = r :: rest ∧ (∀ q ∈ rest, q.timeToRun = DISK_SLICE) ∧
      r.track = s.head ∧ s.acts.getLast? = some (.exec { r with timeToRun := r.timeToRun + 1 })

/-- What a turn leaves of a queue whose first request is a closest one. -/
theorem inv_turn (h : s.Ready) (hqueue : s.requests = r :: rest) (hnear : s.Nearest r)
    (hrest : ∀ q ∈ rest, q.timeToRun = DISK_SLICE)
    (hfirst : r.timeToRun = DISK_SLICE ∨ r.track = s.head) (hok : s.step .turn = .ok t) :
    t.Inv := by
  by_cases hreached : r.track = s.head
  · obtain ⟨hready, hacts, hhead, ⟨-, hqueue', -⟩ | ⟨-, hqueue', -⟩⟩ :=
      turn_serve h hqueue hreached hok
    · refine ⟨hready, .inr ⟨r.after 1, rest, hqueue', hrest, hreached.trans hhead.symm, ?_⟩⟩
      have hback : r.timeToRun - UInt32.ofNat 1 + 1 = r.timeToRun := UInt32.sub_add_cancel _ _
      rw [hacts, List.getLast?_concat, IoReq.after]
      dsimp only
      rw [hback]
    · refine ⟨hready, .inl ?_⟩
      rw [hqueue']
      exact hrest
  · obtain ⟨-, disk, finished, hturn, hlen, hlock, hstep, -⟩ := turn_front h hqueue hnear
    cases hturn.symm.trans hok
    cases hstep with
    | seek hqueue' _ =>
        refine ⟨⟨hlen, hlock⟩, .inl ?_⟩
        intro q hq
        have hq : q ∈ r :: rest := hqueue' ▸ (show q ∈ disk.qr.requests from hq)
        rcases List.mem_cons.mp hq with rfl | hq
        · exact hfirst.resolve_right hreached
        · exact hrest q hq
    | serve hreached' | finish hreached' => exact absurd hreached' hreached

/-- With nothing queued a turn changes nothing but the history. -/
theorem turn_nil (h : s.Ready) (hempty : s.requests = []) :
    diskAct s.app = .ok .idle ∧ s.step .turn = .ok { s with acts := s.acts ++ [.idle] } := by
  have hlen : s.app.disk.qr.len.toNat = 0 := by
    rw [← length_requests_eq h, hempty]
    rfl
  have hzero : s.app.disk.qr.len = 0 := UInt8.toNat_inj.mp hlen
  have hact : diskAct s.app = .ok .idle := by
    unfold diskAct
    simp [hzero]
  refine ⟨hact, ?_⟩
  dsimp only [step]
  rw [hact, diskTurn_nil hlen, Except.ok_bind_run, Except.ok_bind_run]
  simp

theorem idle_run {n : Nat} (h : s.Ready) (hempty : s.requests = [])
    (hrun : Run.run step s (List.replicate n .turn) = .ok t) : t.finishes = s.finishes := by
  induction n generalizing s with
  | zero =>
      cases hrun
      rfl
  | succ n ih =>
      obtain ⟨s', hturn, hrest⟩ := Run.run_cons_eq_ok.mp hrun
      cases (turn_nil h hempty).2.symm.trans hturn
      exact ih (s := { s with acts := s.acts ++ [.idle] }) ⟨h.len_le, h.lock⟩ hempty hrest

theorem run_finishes {es : List DiskEvent} (hrun : Run.run step s es = .ok t) :
    s.finishes <+: t.finishes := by
  refine Run.run_preserves (fun u => s.finishes <+: u.finishes) (fun {u e u'} hu hok => ?_)
    (List.prefix_refl _) hrun
  cases e with
  | arrive pid track =>
      obtain ⟨app, -, hok⟩ := Except.bind_eq_ok.mp hok
      cases hok
      exact hu
  | turn =>
      obtain ⟨act, -, hok⟩ := Except.bind_eq_ok.mp hok
      obtain ⟨⟨finished, app⟩, -, hok⟩ := Except.bind_eq_ok.mp hok
      cases hok
      exact hu.trans (List.prefix_append _ _)

theorem step_ready {e : DiskEvent} (h : s.Ready) (hok : s.step e = .ok t) : t.Ready := by
  cases e with
  | arrive pid track => exact (arrive_eq_ok h hok).1
  | turn =>
      by_cases hempty : s.requests = []
      · cases (turn_nil h hempty).2.symm.trans hok
        exact ⟨h.len_le, h.lock⟩
      · obtain ⟨s', r, rest, hstep, -, hready, hqueue, hnear, -⟩ := exists_sorted h hempty
        obtain ⟨-, disk, finished, hturn, hlen, hlock, -⟩ := turn_front hready hqueue hnear
        cases (hstep.trans hturn).symm.trans hok
        exact ⟨hlen, hlock⟩

theorem step_inv {e : DiskEvent} (h : s.Inv) (hok : s.step e = .ok t) : t.Inv := by
  cases e with
  | arrive pid track =>
      obtain ⟨hready, hqueue, hhead, hacts, -⟩ := arrive_eq_ok h.toReady hok
      refine ⟨hready, ?_⟩
      rw [hqueue, hhead, hacts]
      have hnew : ∀ l : List IoReq, (∀ q ∈ l, q.timeToRun = DISK_SLICE) →
          ∀ q ∈ l ++ [{ id := pid, timeToRun := DISK_SLICE, track := track }],
            q.timeToRun = DISK_SLICE := by
        intro l hl q hq
        rcases List.mem_append.mp hq with hq | hq
        · exact hl q hq
        · rw [List.mem_singleton.mp hq]
      rcases h.whole with hall | ⟨r, rest, hrequests, hrest, hreached, hlast⟩
      · exact .inl (hnew _ hall)
      · rw [hrequests]
        exact .inr ⟨r, rest ++ _, rfl, hnew _ hrest, hreached, hlast⟩
  | turn =>
      rcases h.whole with hall | ⟨r, rest, hqueue, hrest, hreached, -⟩
      · by_cases hempty : s.requests = []
        · cases (turn_nil h.toReady hempty).2.symm.trans hok
          exact ⟨⟨h.len_le, h.lock⟩, .inl hall⟩
        · obtain ⟨s', r, rest, hstep, -, hready, hqueue, hnear, hperm, -⟩ :=
            exists_sorted h.toReady hempty
          have hall' : ∀ q ∈ r :: rest, q.timeToRun = DISK_SLICE :=
            fun q hq => hall q (hperm.mem_iff.mp hq)
          rw [hstep] at hok
          exact inv_turn hready hqueue hnear (fun q hq => hall' q (List.mem_cons_of_mem r hq))
            (.inl (hall' r List.mem_cons_self)) hok
      · exact inv_turn h.toReady hqueue (nearest_of_reached hreached) hrest (.inr hreached) hok

/-- The request that the next turn acts on. -/
theorem exists_front (h : s.Ready) (hact : diskAct s.app = .ok (.exec r)) :
    ∃ (t : DiskLog) (rest : List IoReq), s.step .turn = t.step .turn ∧ t.Ready ∧
      t.requests = r :: rest ∧ r.track = t.head ∧ r ∈ s.requests ∧ t.acts = s.acts ∧
      t.finishes = s.finishes := by
  by_cases hempty : s.requests = []
  · rw [(turn_nil h hempty).1] at hact
    cases hact
  · obtain ⟨t, q, rest, hstep, hsame, hready, hqueue, hnear, hperm, -, hacts, hfinishes⟩ :=
      exists_sorted h hempty
    rw [hsame, (turn_front hready hqueue hnear).1] at hact
    split at hact
    · cases hact
      exact ⟨t, rest, hstep, hready, hqueue, ‹_›, hperm.mem_iff.mp List.mem_cons_self, hacts,
        hfinishes⟩
    · cases hact

end DiskLog

open DiskLog

/-- What the disk loop does from a state on. -/
structure ShortestSeekFirst (s : DiskLog) : Prop where
  /-- Once a turn has called `exec_io` on a request, the request stays at the front
  and every turn serves it, until it has had its time and finishes. -/
  serves : ∀ r, diskAct s.app = .ok (.exec r) →
    ∀ es t, Run.run DiskLog.step s (.turn :: es) = .ok t →
      (turns es < r.timeToRun.toNat →
        t.requests.head? = some (r.after (turns es + 1)) ∧
        t.acts = s.acts ++ execs r (turns es + 1) ∧ t.finishes = s.finishes) ∧
      (turns es = r.timeToRun.toNat →
        t.acts = s.acts ++ execs r (turns es + 1) ∧ t.finishes = s.finishes ++ [r.id])
  /-- With no arrival the loop moves the head to a closest request, not beyond it,
  and serves that request to its end. -/
  chooses : s.requests ≠ [] → ∃ r ∈ s.requests, s.Nearest r ∧ ∀ n ≤ s.left r + 1,
    ∃ t, Run.run DiskLog.step s (List.replicate n .turn) = .ok t ∧
      t.acts = s.acts ++ (s.plan r).take n ∧
      t.finishes = s.finishes ++ (if n = s.left r + 1 then [r.id] else []) ∧
      t.head.toNat = towards s.head.toNat r.track.toNat n
  /-- What finishes next, if nothing arrives, was a closest request. -/
  nearest : ∀ n t t', Run.run DiskLog.step s (List.replicate n .turn) = .ok t →
    t.finishes = s.finishes → t.step .turn = .ok t' → t'.finishes ≠ t.finishes →
    ∃ r ∈ s.requests, s.Nearest r ∧ t'.finishes = t.finishes ++ [r.id]

/-- The first call of `exec_io` on a request finds its whole time, and every other
one comes right after a call on it. -/
def ServedInOneGo (s : DiskLog) : Prop :=
  ∀ r, diskAct s.app = .ok (.exec r) → r.timeToRun = DISK_SLICE ∨
    s.acts.getLast? = some (.exec { r with timeToRun := r.timeToRun + 1 })

namespace DiskLog

variable {s : DiskLog}

theorem Inv.servedInOneGo (h : s.Inv) : ServedInOneGo s := by
  intro r hact
  rcases h.whole with hall | ⟨q, rest, hqueue, -, hreached, hlast⟩
  · obtain ⟨-, -, -, -, -, -, hmem, -⟩ := exists_front h.toReady hact
    exact .inl (hall r hmem)
  · rw [(turn_front h.toReady hqueue (nearest_of_reached hreached)).1, if_pos hreached] at hact
    cases hact
    exact .inr hlast

theorem Ready.chooses (h : s.Ready) (hne : s.requests ≠ []) :
    ∃ r ∈ s.requests, s.Nearest r ∧ ∀ n ≤ s.left r + 1,
      ∃ t, Run.run step s (List.replicate n .turn) = .ok t ∧
        t.acts = s.acts ++ (s.plan r).take n ∧
        t.finishes = s.finishes ++ (if n = s.left r + 1 then [r.id] else []) ∧
        t.head.toNat = towards s.head.toNat r.track.toNat n := by
  obtain ⟨s', r, rest, hstep, -, hready, hqueue, hnear, hperm, hhead, hacts, hfinishes⟩ :=
    exists_sorted h hne
  have hnear' : s.Nearest r := by
    intro q hq
    rw [← hhead]
    refine hnear q ?_
    rw [hqueue]
    exact hperm.mem_iff.mpr hq
  have hleft : s'.left r = s.left r := by rw [left, left, hhead]
  have hplan : s'.plan r = s.plan r := by rw [plan, plan, hhead]
  refine ⟨r, hperm.mem_iff.mp List.mem_cons_self, hnear', ?_⟩
  intro n hn
  cases n with
  | zero =>
      refine ⟨s, rfl, (List.append_nil _).symm, ?_, (towards_zero _ _).symm⟩
      rw [if_neg (Nat.succ_ne_zero _).symm, List.append_nil]
  | succ n =>
      rw [← hleft] at hn
      obtain ⟨t, hrun, hacts', hfinishes', hmove⟩ := stretch hready hqueue hnear hn
      rw [hacts, hplan] at hacts'
      rw [hfinishes, hleft] at hfinishes'
      rw [hhead] at hmove
      refine ⟨t, ?_, hacts', hfinishes', hmove⟩
      rw [List.replicate_succ, Run.run_cons, ← hstep] at hrun
      exact hrun

theorem Ready.nearest (h : s.Ready) {n : Nat} {t t' : DiskLog}
    (hrun : Run.run step s (List.replicate n .turn) = .ok t) (hsame : t.finishes = s.finishes)
    (hturn : t.step .turn = .ok t') (hnew : t'.finishes ≠ t.finishes) :
    ∃ r ∈ s.requests, s.Nearest r ∧ t'.finishes = t.finishes ++ [r.id] := by
  have hnext : Run.run step s (List.replicate (n + 1) .turn) = .ok t' := by
    rw [List.replicate_succ', Run.run_append_eq_ok]
    exact ⟨t, hrun, Run.run_cons_eq_ok.mpr ⟨t', hturn, rfl⟩⟩
  by_cases hempty : s.requests = []
  · exact absurd ((idle_run h hempty hnext).trans hsame.symm) hnew
  · obtain ⟨r, hr, hnear, hplan⟩ := h.chooses hempty
    refine ⟨r, hr, hnear, ?_⟩
    -- nothing has finished in `n` turns, so the plan is not over
    have hn : n ≤ s.left r := by
      by_contra hlt
      obtain ⟨u, hu, -, hfinishes, -⟩ := hplan (s.left r + 1) le_rfl
      obtain ⟨k, rfl⟩ := Nat.exists_eq_add_of_le (Nat.lt_of_not_le hlt)
      rw [List.replicate_add, Run.run_append, hu, Except.ok_bind_run] at hrun
      have hlength := (run_finishes hrun).length_le
      rw [if_pos rfl] at hfinishes
      rw [hfinishes, hsame, List.length_append, List.length_singleton] at hlength
      omega
    obtain ⟨u, hu, -, hfinishes, -⟩ := hplan (n + 1) (Nat.succ_le_succ hn)
    cases hu.symm.trans hnext
    rw [hsame]
    split at hfinishes
    · exact hfinishes
    · rw [List.append_nil, ← hsame] at hfinishes
      exact absurd hfinishes hnew

theorem Ready.shortestSeekFirst (h : s.Ready) : ShortestSeekFirst s := by
  refine ⟨?_, h.chooses, fun n t t' => h.nearest⟩
  intro r hact es t hrun
  obtain ⟨s', rest, hstep, hready, hqueue, hreached, -, hacts, hfinishes⟩ := exists_front h hact
  rw [Run.run_cons, hstep, ← Run.run_cons] at hrun
  have hserve := serve_run hready hqueue hreached hrun
  rw [turns_turn, hacts, hfinishes] at hserve
  exact ⟨hserve.1, fun heq => hserve.2 (by rw [heq])⟩

end DiskLog

/-! ## Runs -/

/-- The disk loop serves shortest-seek-first in every interleaving of its turns with
arrivals, from any queue and any position of the head; and it serves new requests
for their whole time. -/
theorem disk_shortest_seek_first (app : App) (es : List DiskEvent) {s : DiskLog}
    (hlen : app.disk.qr.len.toNat ≤ MAX_PCB) (hlock : app.disk.diskS = 1)
    (hrun : Run.run DiskLog.step (.start app) es = .ok s) :
    ShortestSeekFirst s ∧
      ((∀ r ∈ app.disk.qr.requests, r.timeToRun = DISK_SLICE) → ServedInOneGo s) := by
  have hready : (DiskLog.start app).Ready := by
    refine ⟨hlen, ?_⟩
    show app.disk.diskS ≠ 0
    rw [hlock]
    exact Nat.one_ne_zero
  constructor
  · exact (Run.run_preserves DiskLog.Ready DiskLog.step_ready hready hrun).shortestSeekFirst
  · intro hnew
    have hstart : (DiskLog.start app).Inv := ⟨hready, .inl hnew⟩
    exact (Run.run_preserves DiskLog.Inv DiskLog.step_inv hstart hrun).servedInOneGo

/-- The disk after `init_disk`, on its own. -/
def App.idleDisk : App :=
  { App.zero Heap.zero fun _ => none with
    disk :=
      { qr := { queue := Vector.replicate MAX_PCB IoReq.zero, len := 0 }
        diskS := 1
        currentTrack := 0 } }

/-- The later request is the closer one. -/
theorem disk_shortest_seek_first_two :
    ∃ s, Run.run DiskLog.step (.start App.idleDisk) [.arrive 0 9, .arrive 1 2, .turn] = .ok s ∧
      s.acts = [.seek { id := 1, timeToRun := DISK_SLICE, track := 2 }] ∧
      ShortestSeekFirst s ∧ ServedInOneGo s := by
  have hrun : ((Run.run DiskLog.step (.start App.idleDisk)
      [.arrive 0 9, .arrive 1 2, .turn]).toOption.map DiskLog.acts)
      = some [.seek { id := 1, timeToRun := DISK_SLICE, track := 2 }] := by
    decide +kernel
  obtain ⟨s, hs, hacts⟩ := Option.map_eq_some_iff.mp hrun
  have hs := Except.toOption_eq_ok.mp hs
  obtain ⟨hsstf, hwhole⟩ := disk_shortest_seek_first App.idleDisk _ (by decide) rfl hs
  exact ⟨s, hs, hacts, hsstf, hwhole fun r hr => by cases hr⟩

end ChicOS
