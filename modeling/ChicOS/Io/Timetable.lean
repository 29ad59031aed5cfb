-- SUMMARY: When a print job finishes is settled when it is added: a timetable that later jobs only make longer.
import ChicOS.Io.PrintFifo

/-!
# The timetable of the printer

What is left of the job in the buffer and the jobs in the list come before a new one, and
nothing that is added later does. So when a job is added the turn in which its node will be
released is known, to the millisecond. The disk gives no such promise.
-/

namespace ChicOS

namespace PrintRun

variable {old : List Addr} {r r' : PrintRun} {s : Server PrintJob}

-- ---------------------------------------------------------------------------
-- What is ahead of a job
-- ---------------------------------------------------------------------------

/-- The jobs in the list. -/
def waiting (r : PrintRun) : List PrintJob := r.added.drop r.entered.length

/-- The turn in which the first job of the list enters the buffer. -/
def free (r : PrintRun) : Nat :=
  let buffer := r.app.printer.printerBuffer
  if buffer = 0 then r.turns + 1
  else r.turns + max (r.app.heap.printLists buffer).time.toNat 1

/-- The turn in which a job finishes that is added now. -/
def finishes (r : PrintRun) (time : UInt32) : Nat :=
  r.free + (r.waiting.map PrintJob.work).sum + max time.toNat 1

namespace Tracks

theorem waiting_eq {done now : List (PrintJob × Nat)} (h : Tracks old r s)
    (hinv : s.Inv PrintJob.work done now) : r.waiting = s.queue := by
  rw [waiting, h.added, h.entered, hinv.order, ← List.length_map (f := Prod.fst),
    List.drop_left]

theorem free_eq (h : Tracks old r s) : r.free = s.free := by
  unfold free
  dsimp only
  rcases hcurrent : s.current with _ | c
  · rw [if_pos (h.simulates.buffer_of_none hcurrent), Server.free_of_none hcurrent, h.turns]
  · obtain ⟨hne, hbuffer⟩ := h.simulates.buffer_of_some hcurrent
    rw [if_neg hne, Server.free_of_some hcurrent, h.turns, hbuffer, h.simulates.left c hcurrent]

/-- `add_to_print_queue` is a job submitted. -/
theorem add {time pid : UInt32} (h : Tracks old r s) (hfresh : r.Fresh (.add time pid))
    (hok : r.step (.add time pid) = .ok r') :
    ∃ node, Tracks old r' (s.submit { node := node, time := time, pid := pid }) := by
  obtain ⟨app, hadd, hr⟩ := Except.bind_eq_ok.mp hok
  cases hr
  have hnode : ∀ new mem, cAlloc r.app.mem sizeofPrintList = .ok (new, mem) →
      ¬ r.app.mem.IsLive new :=
    fun new mem halloc => hfresh (new, mem) (Except.toOption_eq_ok.mpr halloc)
  refine ⟨app.printer.tail, h.simulates.add hadd hnode, h.turns, ?_, h.entered, h.released⟩
  rw [h.added]
  rfl

/-- A turn of `printer_loop` is one of the server. -/
theorem turn (h : Tracks old r s) (hok : r.step .turn = .ok r') :
    Tracks old r' (s.serve.next PrintJob.work) := by
  obtain ⟨app, hturn, hr⟩ := Except.bind_eq_ok.mp hok
  cases hr
  refine ⟨h.simulates.turn hturn, ?_, ?_, ?_, ?_⟩
  · simp [h.turns]
  · simp [h.added]
  · rw [h.simulates.started_turn hturn, h.entered, h.turns]
  · rw [h.simulates.finished_turn hturn, h.released, h.turns]

end Tracks

-- ---------------------------------------------------------------------------
-- Runs
-- ---------------------------------------------------------------------------

/-- The run is one of a server whose timetable begins with the plan. -/
def Planned (old : List Addr) (plan : List (PrintJob × Nat)) (r : PrintRun) : Prop :=
  ∃ s done now, Tracks old r s ∧ s.Inv PrintJob.work done now ∧ s.Timely ∧
    plan <+: s.timetable PrintJob.work

theorem Planned.start {app : App} (hinit : app.printer = initPrinter) :
    Planned app.mem.deallocs [] (start app) :=
  ⟨.empty, [], [], .start hinit, .empty, .empty, List.nil_prefix⟩

/-- Whatever is called, the plan is kept. -/
theorem Planned.step {plan : List (PrintJob × Nat)} {c : PrinterCall} (h : Planned old plan r)
    (hfresh : r.Fresh c) (hok : r.step c = .ok r') : Planned old plan r' := by
  obtain ⟨s, done, now, htracks, hinv, htimely, hplan⟩ := h
  cases c with
  | add time pid =>
      obtain ⟨node, htracks'⟩ := htracks.add hfresh hok
      refine ⟨_, done, now, htracks', hinv.submit _, htimely.submit _, hplan.trans ?_⟩
      rw [Server.timetable_submit]
      exact List.prefix_append _ _
  | turn =>
      have hwork (j : PrintJob) : 0 < j.work := Nat.lt_of_lt_of_le Nat.one_pos (le_max_right _ _)
      obtain ⟨done', now₁, hserve⟩ := hinv.serve
      obtain ⟨now', hnext⟩ := hserve.next hwork
      refine ⟨_, done', now', htracks.turn hok, hnext, htimely.turn hwork, ?_⟩
      rw [Server.timetable_turn htimely]
      exact hplan

/-- Adding a job enters it in the plan, in its place. -/
theorem Planned.add {time pid : UInt32} (h : Planned old [] r) (hfresh : r.Fresh (.add time pid))
    (hok : r.step (.add time pid) = .ok r') :
    ∃ job plan, job.time = time ∧ job.pid = pid ∧ plan.length = r.added.length ∧
      Planned old (plan ++ [(job, r.finishes time)]) r' := by
  obtain ⟨s, done, now, htracks, hinv, htimely, -⟩ := h
  obtain ⟨node, htracks'⟩ := htracks.add hfresh hok
  refine ⟨{ node := node, time := time, pid := pid }, s.timetable PrintJob.work, rfl, rfl, ?_,
    _, done, now, htracks', hinv.submit _, htimely.submit _, ?_⟩
  · rw [htracks.added, ← hinv.timetable_jobs, List.length_map]
  · rw [Server.timetable_submit, finishes, htracks.waiting_eq hinv, htracks.free_eq]
    rfl

/-- The plan says which node has been released and when. -/
theorem Planned.released {plan : List (PrintJob × Nat)} {i : Nat} {job : PrintJob} {turn : Nat}
    (h : Planned old plan r) (hplan : plan[i]? = some (job, turn)) :
    r.added[i]? = some job ∧
      r.released[i]? = if turn ≤ r.turns then some (job.node, turn) else none := by
  obtain ⟨s, done, now, htracks, hinv, htimely, rest, htable⟩ := h
  have hlt := (List.getElem?_eq_some_iff.mp hplan).1
  have hentry : (s.timetable PrintJob.work)[i]? = some (job, turn) := by
    rw [← htable, List.getElem?_append_left hlt, hplan]
  constructor
  · rw [htracks.added, ← hinv.timetable_jobs, List.getElem?_map, hentry]
    rfl
  · rw [htracks.released, List.getElem?_map, htimely.finished_getElem? hentry, htracks.turns]
    split <;> rfl

/-- The list runs through the jobs that wait. -/
theorem Planned.waiting {plan : List (PrintJob × Nat)} (h : Planned old plan r) :
    Chain (fun a => (r.app.heap.printLists a).prox) 0 r.app.printer.head
      (r.waiting.map PrintJob.node) := by
  obtain ⟨s, done, now, htracks, hinv, -⟩ := h
  rw [htracks.waiting_eq hinv]
  exact htracks.simulates.nodes.chain

end PrintRun

/-- The node of a job is released in the turn that is known when the job is added, whatever is
added after it, as long as no job is given the block of another one: what is left of the job in
the buffer, the jobs in the list, and its own time. -/
theorem print_timetable (app : App) (calls later : List PrinterCall) (time pid : UInt32)
    {s t : PrintRun} (hinit : app.printer = initPrinter)
    (hfresh : Run.Meets PrintRun.step PrintRun.Fresh (.start app) calls)
    (hcalls : Run.run PrintRun.step (.start app) calls = .ok s)
    (hfresh' : Run.Meets PrintRun.step PrintRun.Fresh s (.add time pid :: later))
    (hlater : Run.run PrintRun.step s (.add time pid :: later) = .ok t) :
    Chain (fun a => (s.app.heap.printLists a).prox) 0 s.app.printer.head
      (s.waiting.map PrintJob.node) ∧
    ∃ job, t.added[s.added.length]? = some job ∧ job.time = time ∧ job.pid = pid ∧
      t.released[s.added.length]? =
        if s.finishes time ≤ t.turns then some (job.node, s.finishes time) else none := by
  have hs : s.Planned app.mem.deallocs [] :=
    Run.run_invariant (PrintRun.Planned app.mem.deallocs []) PrintRun.Planned.step (.start hinit)
      hfresh hcalls
  obtain ⟨s₁, hadd, hrest⟩ := Run.run_cons_eq_ok.mp hlater
  obtain ⟨job, plan, htime, hpid, hlength, hs₁⟩ := hs.add hfresh'.1 hadd
  have ht := Run.run_invariant (PrintRun.Planned app.mem.deallocs _) PrintRun.Planned.step hs₁
    (hfresh'.2 s₁ hadd) hrest
  have hentry : (plan ++ [(job, s.finishes time)])[s.added.length]? =
      some (job, s.finishes time) := by
    rw [← hlength, List.getElem?_concat_length]
  obtain ⟨hadded, hreleased⟩ := ht.released hentry
  exact ⟨hs.waiting, job, hadded, htime, hpid, hreleased⟩

/-- One job is in the buffer for a turn, and one of no time waits. -/
def beforeJob : List PrinterCall := [.add 2 7, .turn, .add 0 8]

/-- What comes after a third one. -/
def afterJob : List PrinterCall := [.turn, .turn, .add 5 9, .turn, .turn, .turn, .turn]

/-- The job of 3 ms is finished in turn 7, although another one is added in between. -/
theorem print_timetable_three :
    ∃ s t : PrintRun, Run.run PrintRun.step (.start .idlePrinter) beforeJob = .ok s ∧
      Run.run PrintRun.step s (.add 3 6 :: afterJob) = .ok t ∧ s.finishes 3 = 7 ∧
      ∃ job, t.added[2]? = some job ∧ job.pid = 6 ∧ t.released[2]? = some (job.node, 7) := by
  have hchecked : (Run.runChecked PrintRun.step PrintRun.Fresh (.start .idlePrinter)
      beforeJob).any (fun s => decide (s.added.length = 2 ∧ s.finishes 3 = 7) &&
        (Run.runChecked PrintRun.step PrintRun.Fresh s (.add 3 6 :: afterJob)).any
          (fun t => decide (t.turns = 7))) = true := by
    decide +kernel
  obtain ⟨s, hs, hchecked⟩ := (Option.any_eq_true _ _).mp hchecked
  obtain ⟨hwhen, hchecked⟩ := (Bool.and_eq_true _ _).mp hchecked
  obtain ⟨hlength, hfinishes⟩ := of_decide_eq_true hwhen
  obtain ⟨t, ht, hturns⟩ := (Option.any_eq_true _ _).mp hchecked
  obtain ⟨hfresh, hcalls⟩ := Run.runChecked_eq_some hs
  obtain ⟨hfresh', hlater⟩ := Run.runChecked_eq_some ht
  obtain ⟨-, job, hadded, -, hpid, hreleased⟩ :=
    print_timetable .idlePrinter beforeJob afterJob 3 6 rfl hfresh hcalls hfresh' hlater
  rw [hlength, hfinishes, of_decide_eq_true hturns, if_pos (Nat.le_refl 7)] at hreleased
  rw [hlength] at hadded
  exact ⟨s, t, hcalls, hlater, hfinishes, job, hadded, hpid, hreleased⟩

end ChicOS
