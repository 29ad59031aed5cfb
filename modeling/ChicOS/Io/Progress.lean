-- SUMMARY: Whatever arrives, some request of the disk finishes soon, and not always a given one.
import ChicOS.Io.Sstf

/-!
# Progress of the disk

Arrivals can change the request that the head moves towards, but not to one further away: with
every move the distance to a closest request gets smaller, and once the head has reached one,
it is served to its end. So the disk finishes a request within as many turns as any of those
queued has tracks to go, and a slice.

Which one that is, is another matter. A request on the track of the head is the closest, so as
long as those keep coming all the others wait (`disk_starves`).
-/

namespace ChicOS

namespace DiskLog

variable {s t : DiskLog} {r : IoReq} {rest : List IoReq}

/-- No request needs more than a slice. -/
def Short (s : DiskLog) : Prop := ∀ q ∈ s.requests, q.timeToRun ≤ DISK_SLICE

-- ---------------------------------------------------------------------------
-- Steps
-- ---------------------------------------------------------------------------

/-- Events with many turns start with events of fewer. -/
theorem exists_turns {es : List DiskEvent} {n : Nat} (h : n ≤ turns es) :
    ∃ es₁ es₂, es = es₁ ++ es₂ ∧ turns es₁ = n := by
  induction es generalizing n with
  | nil => exact ⟨[], [], rfl, (Nat.le_zero.mp h).symm⟩
  | cons e es ih =>
      cases n with
      | zero => exact ⟨[], e :: es, rfl, rfl⟩
      | succ n =>
          cases e with
          | arrive pid track =>
              rw [turns_arrive] at h
              obtain ⟨es₁, es₂, rfl, hes₁⟩ := ih h
              exact ⟨.arrive pid track :: es₁, es₂, rfl, by rw [turns_arrive, hes₁]⟩
          | turn =>
              rw [turns_turn] at h
              obtain ⟨es₁, es₂, rfl, hes₁⟩ := ih (Nat.le_of_succ_le_succ h)
              exact ⟨.turn :: es₁, es₂, rfl, by rw [turns_turn, hes₁]⟩

/-- A move towards a closest request: it is one track closer. -/
theorem turn_seek (h : s.Ready) (hqueue : s.requests = r :: rest) (hnear : s.Nearest r)
    (hne : r.track ≠ s.head) (hok : s.step .turn = .ok t) :
    t.Ready ∧ t.requests = r :: rest ∧ t.finishes = s.finishes ∧
      trackDist t.head r.track + 1 = trackDist s.head r.track ∧
      t.head.toNat = towards s.head.toNat r.track.toNat 1 := by
  obtain ⟨-, disk, finished, hturn, hlen, hlock, hstep, hmove⟩ := turn_front h hqueue hnear
  cases hturn.symm.trans hok
  cases hstep with
  | seek hqueue' _ =>
      refine ⟨⟨hlen, hlock⟩, hqueue', List.append_nil _, ?_, hmove⟩
      exact (nearest_seek (t := { s with app := { s.app with disk := disk } }) hnear hne
        (hqueue'.trans hqueue.symm) hmove).2
  | serve hreached | finish hreached => exact absurd hreached hne

/-- A turn of the disk is an event of the log. -/
theorem Ready.step_turn {app' : App} {finished : Option UInt32}
    (h : s.Ready) (hturn : diskTurn s.app = .ok (finished, app')) :
    ∃ act, s.step .turn = .ok
      { app := app', acts := s.acts ++ [act], finishes := s.finishes ++ finished.toList } := by
  obtain ⟨act, hact⟩ : ∃ act, diskAct s.app = .ok act := by
    by_cases hempty : s.requests = []
    · exact ⟨_, (turn_nil h hempty).1⟩
    · obtain ⟨s', r, rest, -, hact, hready, hqueue, hnear, -⟩ := exists_sorted h hempty
      exact ⟨_, hact.trans (turn_front hready hqueue hnear).1⟩
  refine ⟨act, ?_⟩
  rw [step, hact, Except.ok_bind_run, hturn, Except.ok_bind_run]

/-- The disk can go on turning. -/
theorem Ready.runs (h : s.Ready) (n : Nat) :
    ∃ t, Run.run step s (List.replicate n .turn) = .ok t := by
  induction n generalizing s with
  | zero => exact ⟨s, rfl⟩
  | succ n ih =>
      obtain ⟨s₁, hturn⟩ : ∃ s₁, s.step .turn = .ok s₁ := by
        by_cases hempty : s.requests = []
        · exact ⟨_, (turn_nil h hempty).2⟩
        · obtain ⟨s', r, rest, hsame, -, hready, hqueue, hnear, -⟩ := exists_sorted h hempty
          obtain ⟨-, disk, finished, hturn, -⟩ := turn_front hready hqueue hnear
          exact ⟨_, hsame.trans hturn⟩
      obtain ⟨t, hrun⟩ := ih (step_ready h hturn)
      exact ⟨t, Run.run_cons_eq_ok.mpr ⟨s₁, hturn, hrun⟩⟩

theorem turns_replicate (n : Nat) : turns (List.replicate n .turn) = n := by
  induction n with
  | zero => rfl
  | succ n ih => rw [List.replicate_succ, turns_turn, ih]

/-- Once the head has reached the first request, it finishes after its time. -/
theorem serve_finishes {es : List DiskEvent} (h : s.Ready) (hqueue : s.requests = r :: rest)
    (hreached : r.track = s.head) (hturns : r.timeToRun.toNat + 1 ≤ turns es)
    (hrun : Run.run step s es = .ok t) : s.finishes.length < t.finishes.length := by
  obtain ⟨es₁, es₂, rfl, hes₁⟩ := exists_turns hturns
  obtain ⟨s₁, hrun₁, hrun₂⟩ := Run.run_append_eq_ok.mp hrun
  obtain ⟨-, hfinishes⟩ := (serve_run h hqueue hreached hrun₁).2 hes₁
  have hmore := (run_finishes hrun₂).length_le
  rw [hfinishes, List.length_append] at hmore
  exact hmore

/-- Whatever arrives, a request finishes before the head could have reached any given one
and served it. -/
theorem run_progress {es : List DiskEvent} (h : s.Ready) (hshort : s.Short)
    (hr : r ∈ s.requests)
    (hturns : trackDist s.head r.track + DISK_SLICE.toNat + 1 ≤ turns es)
    (hrun : Run.run step s es = .ok t) : s.finishes.length < t.finishes.length := by
  induction es generalizing s r with
  | nil => cases hturns
  | cons e es ih =>
      obtain ⟨s₁, hstep, hrest⟩ := Run.run_cons_eq_ok.mp hrun
      cases e with
      | arrive pid track =>
          obtain ⟨hready, hqueue, hhead, -, hfinishes⟩ := arrive_eq_ok h hstep
          have hshort₁ : s₁.Short := by
            intro q hq
            rw [hqueue] at hq
            rcases List.mem_append.mp hq with hq | hq
            · exact hshort q hq
            · rw [List.mem_singleton.mp hq]
              exact UInt32.le_refl _
          have hr₁ : r ∈ s₁.requests := by
            rw [hqueue]
            exact List.mem_append_left _ hr
          rw [turns_arrive, ← hhead] at hturns
          rw [← hfinishes]
          exact ih hready hshort₁ hr₁ hturns hrest
      | turn =>
          obtain ⟨s', q, rest, hsame, -, hready, hqueue, hnear, hperm, hhead, -, hfinishes⟩ :=
            exists_sorted h (List.ne_nil_of_mem hr)
          have hshort' : ∀ p ∈ q :: rest, p.timeToRun ≤ DISK_SLICE :=
            fun p hp => hshort p (hperm.mem_iff.mp hp)
          -- the request that is chosen is not further away than `r`
          have hcloser : trackDist s.head q.track ≤ trackDist s.head r.track := by
            rw [← hhead]
            refine hnear r ?_
            rw [hqueue]
            exact hperm.mem_iff.mpr hr
          rw [← hfinishes]
          by_cases hreached : q.track = s'.head
          · refine serve_finishes hready hqueue hreached ?_ (Run.run_cons_eq_ok.mpr
              ⟨s₁, hsame.symm.trans hstep, hrest⟩)
            have htime := UInt32.le_iff_toNat_le.mp (hshort' q List.mem_cons_self)
            omega
          · rw [hsame] at hstep
            obtain ⟨hready₁, hqueue₁, hfinishes₁, hcloser₁, -⟩ :=
              turn_seek hready hqueue hnear hreached hstep
            rw [← hfinishes₁]
            rw [turns_turn] at hturns
            rw [hhead] at hcloser₁
            refine ih hready₁ (fun p hp => hshort' p (hqueue₁ ▸ hp))
              (hqueue₁ ▸ List.mem_cons_self) ?_ hrest
            omega

-- ---------------------------------------------------------------------------
-- Every state
-- ---------------------------------------------------------------------------

/-- No request needs more than a slice, and all are on the disk, as the head is. -/
structure Fit (s : DiskLog) : Prop extends Ready s where
  short : s.Short
  tracks : ∀ q ∈ s.requests, q.track ≤ TOTAL_TRACKS
  head : s.head ≤ TOTAL_TRACKS

theorem Fit.congr (h : s.Fit) (hready : t.Ready) (hhead : t.head ≤ TOTAL_TRACKS)
    (hrequests : ∀ q ∈ t.requests, ∃ p ∈ s.requests, q.timeToRun ≤ p.timeToRun ∧
      q.track = p.track) : t.Fit := by
  refine ⟨hready, fun q hq => ?_, fun q hq => ?_, hhead⟩
  · obtain ⟨p, hp, hle, -⟩ := hrequests q hq
    exact UInt32.le_trans hle (h.short p hp)
  · obtain ⟨p, hp, -, htrack⟩ := hrequests q hq
    rw [htrack]
    exact h.tracks p hp

theorem Fit.step {e : DiskEvent} (h : s.Fit) (hok : s.step e = .ok t) : t.Fit := by
  have hready := step_ready h.toReady hok
  cases e with
  | arrive pid track =>
      obtain ⟨-, hqueue, hhead, -⟩ := arrive_eq_ok h.toReady hok
      have htrack : track ≤ TOTAL_TRACKS := by
        obtain ⟨app, hio, -⟩ := Except.bind_eq_ok.mp hok
        exact (simulateIo_eq_ok hio).1
      refine ⟨hready, fun q hq => ?_, fun q hq => ?_, hhead ▸ h.head⟩
      · rw [hqueue] at hq
        rcases List.mem_append.mp hq with hq | hq
        · exact h.short q hq
        · rw [List.mem_singleton.mp hq]
          exact UInt32.le_refl _
      · rw [hqueue] at hq
        rcases List.mem_append.mp hq with hq | hq
        · exact h.tracks q hq
        · rw [List.mem_singleton.mp hq]
          exact htrack
  | turn =>
      by_cases hempty : s.requests = []
      · cases (turn_nil h.toReady hempty).2.symm.trans hok
        exact h.congr hready h.head fun q hq => ⟨q, hq, UInt32.le_refl _, rfl⟩
      · obtain ⟨s', r, rest, hsame, -, hready', hqueue, hnear, hperm, hhead, -⟩ :=
          exists_sorted h.toReady hempty
        have hmem : ∀ q ∈ r :: rest, q ∈ s.requests := fun q hq => hperm.mem_iff.mp hq
        rw [hsame] at hok
        by_cases hreached : r.track = s'.head
        · obtain ⟨-, -, hhead', ⟨htime, hqueue', -⟩ | ⟨-, hqueue', -⟩⟩ :=
            turn_serve hready' hqueue hreached hok
          all_goals
            have hstill : t.head ≤ TOTAL_TRACKS := by
              rw [hhead', hhead]
              exact h.head
          · refine h.congr hready hstill fun q hq => ?_
            rw [hqueue'] at hq
            rcases List.mem_cons.mp hq with rfl | hq
            · have hless := IoReq.after_one_time htime
              refine ⟨r, hmem r List.mem_cons_self, UInt32.le_iff_toNat_le.mpr ?_, rfl⟩
              omega
            · exact ⟨q, hmem q (List.mem_cons_of_mem r hq), UInt32.le_refl _, rfl⟩
          · refine h.congr hready hstill fun q hq => ?_
            rw [hqueue'] at hq
            exact ⟨q, hmem q (List.mem_cons_of_mem r hq), UInt32.le_refl _, rfl⟩
        · obtain ⟨-, hqueue', -, -, hmove⟩ := turn_seek hready' hqueue hnear hreached hok
          have hfar := UInt32.le_iff_toNat_le.mp (h.tracks r (hmem r List.mem_cons_self))
          have hfar' := UInt32.le_iff_toNat_le.mp h.head
          refine h.congr hready (UInt32.le_iff_toNat_le.mpr ?_) fun q hq => ?_
          · rw [hmove, hhead, towards]
            split
            · omega
            · omega
          · rw [hqueue'] at hq
            exact ⟨q, hmem q hq, UInt32.le_refl _, rfl⟩

/-- There is a request that finishes before the head could have crossed the disk and served one. -/
theorem Fit.progress {es : List DiskEvent} (h : s.Fit) (hne : s.requests ≠ [])
    (hturns : TOTAL_TRACKS.toNat + DISK_SLICE.toNat + 1 ≤ turns es)
    (hrun : Run.run DiskLog.step s es = .ok t) :
    s.finishes.length < t.finishes.length := by
  obtain ⟨r, hr⟩ := List.exists_mem_of_ne_nil _ hne
  have hdist : trackDist s.head r.track ≤ TOTAL_TRACKS.toNat := by
    have htrack := UInt32.le_iff_toNat_le.mp (h.tracks r hr)
    have hhead := UInt32.le_iff_toNat_le.mp h.head
    rw [trackDist_eq]
    omega
  exact run_progress h.toReady h.short hr (by omega) hrun

end DiskLog

open DiskLog

/-- Whatever arrives, a request finishes before the head could have gone to any of those
queued and served it; so there is always one within the tracks of the disk and a slice. -/
theorem disk_progress (app : App) (es fs : List DiskEvent) {s t : DiskLog}
    (hlen : app.disk.qr.len.toNat ≤ MAX_PCB) (hlock : app.disk.diskS = 1)
    (hfit : ∀ r ∈ app.disk.qr.requests, r.timeToRun ≤ DISK_SLICE ∧ r.track ≤ TOTAL_TRACKS)
    (hhead : app.disk.currentTrack ≤ TOTAL_TRACKS)
    (hreached : Run.run DiskLog.step (.start app) es = .ok s)
    (hrun : Run.run DiskLog.step s fs = .ok t) :
    (∀ r ∈ s.requests, trackDist s.head r.track + DISK_SLICE.toNat + 1 ≤ turns fs →
      s.finishes.length < t.finishes.length) ∧
    (s.requests ≠ [] → TOTAL_TRACKS.toNat + DISK_SLICE.toNat + 1 ≤ turns fs →
      s.finishes.length < t.finishes.length) := by
  have hstart : (DiskLog.start app).Fit := by
    refine ⟨⟨hlen, ?_⟩, fun q hq => (hfit q hq).1, fun q hq => (hfit q hq).2, hhead⟩
    show app.disk.diskS ≠ 0
    rw [hlock]
    exact Nat.one_ne_zero
  have h := Run.run_preserves DiskLog.Fit (fun h hok => h.step hok) hstart hreached
  exact ⟨fun r hr hturns => run_progress h.toReady h.short hr hturns hrun,
    fun hne hturns => h.progress hne hturns hrun⟩

/-- From track 0 the request on track 2 is close enough for two turns and a slice. -/
theorem disk_progress_two :
    ∃ s t, Run.run DiskLog.step (.start App.idleDisk) [.arrive 0 9, .arrive 1 2] = .ok s ∧
      Run.run DiskLog.step s (List.replicate (2 + DISK_SLICE.toNat + 1) .turn) = .ok t ∧
      s.finishes.length < t.finishes.length := by
  have hends : (Run.run DiskLog.step (.start App.idleDisk)
      [.arrive 0 9, .arrive 1 2]).toOption.any (fun s => decide (
        (⟨1, DISK_SLICE, 2⟩ : IoReq) ∈ s.requests ∧ s.head = 0)) = true := by
    decide +kernel
  obtain ⟨s, hs, hends⟩ := (Option.any_eq_true _ _).mp hends
  have hs := Except.toOption_eq_ok.mp hs
  obtain ⟨hmem, hhead⟩ := of_decide_eq_true hends
  have hready : (DiskLog.start App.idleDisk).Ready := ⟨by decide, by decide⟩
  obtain ⟨t, ht⟩ := (Run.run_preserves DiskLog.Ready DiskLog.step_ready hready hs).runs
    (2 + DISK_SLICE.toNat + 1)
  refine ⟨s, t, hs, ht, ?_⟩
  refine (disk_progress App.idleDisk _ _ (by decide) rfl (fun r hr => by cases hr) (by decide) hs
    ht).1 _ hmem ?_
  rw [hhead, turns_replicate]
  exact Nat.le_refl _

-- ---------------------------------------------------------------------------
-- Starvation
-- ---------------------------------------------------------------------------

/-- A request on the track of the head, and the turns that serve it. -/
def servedAtHead (pid track : UInt32) : List DiskEvent :=
  .arrive pid track :: List.replicate (DISK_SLICE.toNat + 1) .turn

namespace DiskLog

variable {s : DiskLog} {r : IoReq} {rest : List IoReq}

theorem arrive_ok (pid : UInt32) {track : UInt32} (h : s.Ready) (hroom : s.requests.length < MAX_PCB)
    (htrack : track ≤ TOTAL_TRACKS) : ∃ t, s.step (.arrive pid track) = .ok t := by
  rw [length_requests_eq h] at hroom
  rw [step, simulateIo, if_neg (UInt32.not_lt.mpr htrack), qPut, QueueReq.put_of_lt _ hroom]
  exact ⟨_, rfl⟩

/-- With the head on its track the first request is served to its end and leaves. -/
theorem serve_whole {n : Nat} (h : s.Ready) (hqueue : s.requests = r :: rest)
    (hreached : r.track = s.head) (htime : r.timeToRun.toNat = n) :
    ∃ t, Run.run step s (List.replicate (n + 1) .turn) = .ok t ∧ t.Ready ∧ t.requests = rest ∧
      t.head = s.head ∧ t.finishes = s.finishes ++ [r.id] := by
  induction n generalizing s r with
  | zero =>
      obtain ⟨-, disk, finished, hturn, -⟩ := turn_front h hqueue (nearest_of_reached hreached)
      obtain ⟨hready, -, hhead, ⟨hmore, -⟩ | ⟨-, hqueue', hfinishes⟩⟩ :=
        turn_serve h hqueue hreached hturn
      · exact absurd (UInt32.toNat_inj.mp htime) hmore
      · exact ⟨_, Run.run_cons_eq_ok.mpr ⟨_, hturn, rfl⟩, hready, hqueue', hhead, hfinishes⟩
  | succ n ih =>
      obtain ⟨-, disk, finished, hturn, -⟩ := turn_front h hqueue (nearest_of_reached hreached)
      obtain ⟨hready, -, hhead, ⟨hmore, hqueue', hfinishes⟩ | ⟨hnone, -⟩⟩ :=
        turn_serve h hqueue hreached hturn
      · have hless := IoReq.after_one_time hmore
        obtain ⟨t, hrun, hready', hrest, hhead', hfinishes'⟩ :=
          ih hready hqueue' (hreached.trans hhead.symm) (by omega)
        refine ⟨t, ?_, hready', hrest, hhead'.trans hhead, ?_⟩
        · rw [List.replicate_succ]
          exact Run.run_cons_eq_ok.mpr ⟨_, hturn, hrun⟩
        · rw [hfinishes', hfinishes]
          rfl
      · rw [hnone] at htime
        cases htime

/-- Such a request comes and goes, and the others wait. -/
theorem servedAtHead_run (pid : UInt32) (h : s.Ready) (hroom : s.requests.length < MAX_PCB)
    (hfar : ∀ q ∈ s.requests, q.track ≠ s.head) (hhead : s.head ≤ TOTAL_TRACKS) :
    ∃ t, Run.run step s (servedAtHead pid s.head) = .ok t ∧ t.Ready ∧
      t.requests.Perm s.requests ∧ t.head = s.head ∧ t.finishes = s.finishes ++ [pid] := by
  obtain ⟨s₁, harrive⟩ := arrive_ok pid h hroom hhead
  obtain ⟨hready₁, hqueue₁, hhead₁, -, hfinishes₁⟩ := arrive_eq_ok h harrive
  have hnew : (⟨pid, DISK_SLICE, s.head⟩ : IoReq) ∈ s₁.requests := by
    rw [hqueue₁]
    exact List.mem_append_right _ List.mem_cons_self
  obtain ⟨s₂, r, rest, hsame, -, hready₂, hqueue₂, hnear, hperm, hhead₂, -, hfinishes₂⟩ :=
    exists_sorted hready₁ (List.ne_nil_of_mem hnew)
  have hheads : s₂.head = s.head := hhead₂.trans hhead₁
  -- only the new request is at distance zero
  have hreached : r.track = s₂.head := by
    have hle := hnear ⟨pid, DISK_SLICE, s.head⟩ (by
      rw [hqueue₂]
      exact hperm.mem_iff.mpr hnew)
    rw [hheads, trackDist_eq_zero.mpr (rfl : s.head = s.head)] at hle
    rw [hheads]
    exact (trackDist_eq_zero.mp (Nat.le_zero.mp hle)).symm
  have hr : r = ⟨pid, DISK_SLICE, s.head⟩ := by
    have hmem : r ∈ s₁.requests := hperm.mem_iff.mp List.mem_cons_self
    rw [hqueue₁] at hmem
    rcases List.mem_append.mp hmem with hold | hlast
    · exact absurd (hreached.trans hheads) (hfar r hold)
    · exact List.mem_singleton.mp hlast
  subst hr
  have hrest : rest.Perm s.requests := by
    rw [hqueue₁] at hperm
    exact (hperm.trans (List.perm_append_singleton _ _)).cons_inv
  obtain ⟨t, hrun, hready, hrequests, hhead', hfinishes⟩ :=
    serve_whole hready₂ hqueue₂ hreached (rfl : DISK_SLICE.toNat = _)
  refine ⟨t, ?_, hready, hrequests ▸ hrest, hhead'.trans hheads, ?_⟩
  · refine Run.run_cons_eq_ok.mpr ⟨s₁, harrive, ?_⟩
    rw [List.replicate_succ, Run.run_cons] at hrun ⊢
    rw [hsame]
    exact hrun
  · rw [hfinishes, hfinishes₂, hfinishes₁]

theorem starving_run (pid : UInt32) {n : Nat} (h : s.Ready) (hroom : s.requests.length < MAX_PCB)
    (hfar : ∀ q ∈ s.requests, q.track ≠ s.head) (hhead : s.head ≤ TOTAL_TRACKS) :
    ∃ t, Run.run step s (List.replicate n (servedAtHead pid s.head)).flatten = .ok t ∧
      t.requests.Perm s.requests ∧ t.finishes = s.finishes ++ List.replicate n pid := by
  induction n generalizing s with
  | zero => exact ⟨s, rfl, .refl _, (List.append_nil _).symm⟩
  | succ n ih =>
      obtain ⟨s₁, hrun₁, hready₁, hperm₁, hhead₁, hfinishes₁⟩ :=
        servedAtHead_run pid h hroom hfar hhead
      rw [← hperm₁.length_eq] at hroom
      rw [← hhead₁] at hhead
      have hfar₁ : ∀ q ∈ s₁.requests, q.track ≠ s₁.head := by
        intro q hq
        rw [hhead₁]
        exact hfar q (hperm₁.mem_iff.mp hq)
      obtain ⟨t, hrun, hperm, hfinishes⟩ := ih hready₁ hroom hfar₁ hhead
      rw [hhead₁] at hrun
      refine ⟨t, ?_, hperm.trans hperm₁, ?_⟩
      · rw [List.replicate_succ, List.flatten_cons]
        exact Run.run_append_eq_ok.mpr ⟨s₁, hrun₁, hrun⟩
      · rw [hfinishes, hfinishes₁, List.append_assoc, List.replicate_succ]
        rfl

end DiskLog

/-- While requests on the track of the head keep coming, all those that are queued for other
tracks wait: there is no bound on the turns, nor on the requests that are served before them. -/
theorem disk_starves {s : DiskLog} (h : s.Ready) (hroom : s.requests.length < MAX_PCB)
    (hfar : ∀ q ∈ s.requests, q.track ≠ s.head) (hhead : s.head ≤ TOTAL_TRACKS) (pid : UInt32)
    (n : Nat) :
    ∃ t, Run.run DiskLog.step s (List.replicate n (servedAtHead pid s.head)).flatten = .ok t ∧
      t.requests.Perm s.requests ∧ t.finishes = s.finishes ++ List.replicate n pid :=
  starving_run pid h hroom hfar hhead

/-- Process 0 reads on the track of the head three times, and process 1 has waited all along. -/
theorem disk_starves_three :
    ∃ s t, Run.run DiskLog.step (.start App.idleDisk) [.arrive 1 9] = .ok s ∧
      Run.run DiskLog.step s (List.replicate 3 (servedAtHead 0 s.head)).flatten = .ok t ∧
      t.requests = [⟨1, DISK_SLICE, 9⟩] ∧ t.finishes = [0, 0, 0] := by
  have hends : (Run.run DiskLog.step (.start App.idleDisk) [.arrive 1 9]).toOption.any
      (fun s => decide (s.requests = [⟨1, DISK_SLICE, 9⟩] ∧ s.head = 0 ∧ s.finishes = [])) =
        true := by
    decide +kernel
  obtain ⟨s, hs, hends⟩ := (Option.any_eq_true _ _).mp hends
  have hs := Except.toOption_eq_ok.mp hs
  obtain ⟨hrequests, hhead, hfinishes⟩ := of_decide_eq_true hends
  have hready : (DiskLog.start App.idleDisk).Ready := ⟨by decide, by decide⟩
  have h := Run.run_preserves DiskLog.Ready DiskLog.step_ready hready hs
  obtain ⟨t, hrun, hperm, hfinishes'⟩ := disk_starves h (by rw [hrequests]; decide)
    (by rw [hrequests, hhead]; decide) (by rw [hhead]; decide) 0 3
  rw [hrequests] at hperm
  rw [hfinishes] at hfinishes'
  exact ⟨s, t, hs, hrun, List.perm_singleton.mp hperm, hfinishes'⟩

end ChicOS
