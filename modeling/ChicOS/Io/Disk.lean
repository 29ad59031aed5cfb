-- SUMMARY: The disk: the request queue, the head, and one turn of the disk loop.
import ChicOS.Process.Table

/-!
# The disk

Requests wait in an array of `MAX_PCB` entries. Each turn of `disk_loop` brings
the request closest to the head to the front, and either serves it for a
millisecond or moves the head one track towards it. A request that has been
served to its end leaves the queue and raises `disk_finish`.
-/

namespace ChicOS

def absDiff (a b : UInt32) : UInt32 := if b < a then a - b else b - a

/-- An entry of the queue. -/
def QueueReq.get (qr : QueueReq) (i : Nat) : Except Stop IoReq :=
  if h : i < MAX_PCB then .ok qr.queue[i] else .error .outOfBounds

/-- Store an entry of the queue. -/
def QueueReq.put (qr : QueueReq) (i : Nat) (r : IoReq) : Except Stop QueueReq :=
  if h : i < MAX_PCB then .ok { qr with queue := qr.queue.set i r } else .error .outOfBounds

/-- The loop of `sort_disk` that looks for the closest request. -/
def closestLoop (qr : QueueReq) (base : UInt32) : List Nat → UInt32 → Nat → Except Stop Nat
  | [], _, closest => .ok closest
  | i :: is, minDiff, closest => do
    let r ← qr.get i
    let diff := absDiff base r.track
    if diff < minDiff then closestLoop qr base is diff i else closestLoop qr base is minDiff closest

/-- `sort_disk`: swap the closest request with the first. -/
def sortDisk (qr : QueueReq) (base : UInt32) : Except Stop QueueReq := do
  let first ← qr.get 0
  let closest ← closestLoop qr base (List.range' 1 (qr.len.toNat - 1)) (absDiff base first.track) 0
  if closest ≠ 0 then do
    let r ← qr.get closest
    let qr ← qr.put 0 r
    qr.put closest first
  else .ok qr

/-- `move_header`. -/
def moveHeader (app : App) (target : UInt32) : Except Stop App := do
  let n ← semWait .diskS app.disk.diskS
  let track := app.disk.currentTrack
  let track := if track < target then track + 1 else track
  let track := if target < track then track - 1 else track
  .ok { app with disk := { app.disk with diskS := n + 1, currentTrack := track } }

/-- `q_put`. -/
def qPut (app : App) (r : IoReq) : Except Stop App := do
  let qr ← app.disk.qr.put app.disk.qr.len.toNat r
  .ok { app with disk.qr := { qr with len := qr.len + 1 } }

/-- `q_remove`: the first request leaves, the others move up, and the place of
the last is cleared. -/
def qRemove (qr : QueueReq) : Except Stop QueueReq := do
  let qr ← (List.range (qr.len.toNat - 1)).foldlM
    (fun qr i => do
      let r ← qr.get (i + 1)
      qr.put i r) qr
  let len := qr.len - 1
  let qr ← qr.put len.toNat { id := 0, timeToRun := 0, track := 0 }
  .ok { qr with len := len }

/-- `simulate_io`. -/
def simulateIo (app : App) (pid track : UInt32) : Except Stop App :=
  if TOTAL_TRACKS < track then .error .exit
  else qPut app { id := pid, timeToRun := DISK_SLICE, track := track }

/-- `exec_io` on the first request: the pid whose `disk_finish` it raises, if any. -/
def execIo (app : App) : Except Stop (Option UInt32 × App) := do
  let r ← app.disk.qr.get 0
  if 0 < r.timeToRun then do
    let qr ← app.disk.qr.put 0 { r with timeToRun := r.timeToRun - 1 }
    .ok (none, { app with disk := { app.disk with qr := qr, currentTrack := r.track } })
  else do
    let qr ← qRemove app.disk.qr
    .ok (some r.id, { app with disk.qr := qr })

/-- One turn of `disk_loop`, up to the interrupt. -/
def diskTurn (app : App) : Except Stop (Option UInt32 × App) := do
  let qr ← (if 1 < app.disk.qr.len then sortDisk app.disk.qr app.disk.currentTrack
    else .ok app.disk.qr)
  let app := { app with disk.qr := qr }
  if 0 < app.disk.qr.len then do
    let r ← app.disk.qr.get 0
    if r.track = app.disk.currentTrack then execIo app
    else do
      let app ← moveHeader app r.track
      .ok (none, app)
  else .ok (none, app)

/-! ## What the disk changes -/

theorem simulateIo_eq_ok {app app' : App} {pid track : UInt32}
    (h : simulateIo app pid track = .ok app') :
    track ≤ TOTAL_TRACKS ∧ ∃ qr,
      app.disk.qr.put app.disk.qr.len.toNat { id := pid, timeToRun := DISK_SLICE, track := track }
        = .ok qr ∧
      app' = { app with disk.qr := { qr with len := qr.len + 1 } } := by
  unfold simulateIo at h
  split at h
  · cases h
  · rename_i htrack
    obtain ⟨qr, hput, h⟩ := Except.bind_eq_ok.mp h
    cases h
    exact ⟨UInt32.not_lt.mp htrack, qr, hput, rfl⟩

/-- A turn of the disk reads nothing but the disk. -/
theorem diskTurn_congr {a b a' : App} {r : Option UInt32} (hdisk : b.disk = a.disk)
    (h : diskTurn a = .ok (r, a')) : diskTurn b = .ok (r, { b with disk := a'.disk }) := by
  unfold diskTurn at h ⊢
  rw [hdisk]
  obtain ⟨qr, hqr, h⟩ := Except.bind_eq_ok.mp h
  rw [hqr, Except.ok_bind_run]
  dsimp only at h ⊢
  by_cases hpos : 0 < qr.len
  · rw [if_pos hpos] at h ⊢
    obtain ⟨first, hfirst, h⟩ := Except.bind_eq_ok.mp h
    rw [hfirst, Except.ok_bind_run]
    by_cases hreached : first.track = a.disk.currentTrack
    · rw [if_pos hreached] at h ⊢
      unfold execIo at h ⊢
      dsimp only at h ⊢
      rw [hfirst, Except.ok_bind_run] at h ⊢
      by_cases htime : 0 < first.timeToRun
      · rw [if_pos htime] at h ⊢
        obtain ⟨qr', hput, h⟩ := Except.bind_eq_ok.mp h
        cases h
        rw [hput]
        rfl
      · rw [if_neg htime] at h ⊢
        obtain ⟨qr', hremove, h⟩ := Except.bind_eq_ok.mp h
        cases h
        rw [hremove]
        rfl
    · rw [if_neg hreached] at h ⊢
      obtain ⟨app₁, hmove, h⟩ := Except.bind_eq_ok.mp h
      cases h
      obtain ⟨n, hwait, hmove⟩ := Except.bind_eq_ok.mp hmove
      cases hmove
      unfold moveHeader
      dsimp only at hwait ⊢
      rw [hwait]
      rfl
  · rw [if_neg hpos] at h ⊢
    cases h
    rfl

/-- A turn of the disk loop changes the queue and the head only. -/
theorem diskTurn_eq_ok {app app' : App} {r : Option UInt32} (h : diskTurn app = .ok (r, app')) :
    ∃ disk, app' = { app with disk := disk } := by
  have hsame : diskTurn app = .ok (r, { app with disk := app'.disk }) := diskTurn_congr rfl h
  obtain ⟨-, heq⟩ := Prod.mk.inj (Except.ok.inj (h.symm.trans hsame))
  exact ⟨app'.disk, heq⟩

end ChicOS
