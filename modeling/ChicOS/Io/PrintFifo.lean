-- SUMMARY: The printer is a first-in first-out server: a simulation of its list and buffer, and what follows for every run.
import ChicOS.Lib.Server
import ChicOS.Machine
import ChicOS.Memory.Leases

/-!
# The printer as a server

Calls of `add_to_print_queue` and turns of `printer_loop` come in any order. The
linked list and the buffer simulate a `Server` whose jobs need one turn for each
millisecond, and one at least: a job of no time is released by the turn after the
one that put it in the buffer.

`added`, `entered` and `released` record what the calls show: their arguments with
the node at the tail, the node that is new in the buffer, and the addresses
that `c_dealloc` was given.
-/

namespace ChicOS

/-! ## Runs -/

structure PrintJob where
  node : Addr
  time : UInt32
  pid : UInt32
  deriving DecidableEq, Repr

/-- The turns for which a job stays in the buffer. -/
def PrintJob.work (j : PrintJob) : Nat := max j.time.toNat 1

inductive PrinterCall where
  | add (time pid : UInt32)
  | turn

structure PrintRun where
  app : App
  turns : Nat
  added : List PrintJob
  /-- With the turn in which the job entered the buffer. -/
  entered : List (PrintJob × Nat)
  /-- With the turn in which the node was released. -/
  released : List (Addr × Nat)

/-- The job that is new in the buffer. -/
def entering (before after : App) : List PrintJob :=
  let buffer := after.printer.printerBuffer
  if buffer = 0 ∨ buffer = before.printer.printerBuffer then []
  else
    [{ node := buffer
       time := (after.heap.printLists buffer).time
       pid := (after.heap.printLists buffer).pid }]

/-- The addresses given to `c_dealloc` in between. -/
def givenBack (before after : App) : List Addr :=
  after.mem.deallocs.drop before.mem.deallocs.length

namespace PrintRun

def start (app : App) : PrintRun :=
  { app := app, turns := 0, added := [], entered := [], released := [] }

def step (r : PrintRun) : PrinterCall → Except Stop PrintRun
  | .add time pid => do
    let app ← addToPrintQueue r.app time pid
    .ok { r with
      app := app
      added := r.added ++ [{ node := app.printer.tail, time := time, pid := pid }] }
  | .turn => do
    let app ← printerLoopTurn r.app
    let turn := r.turns + 1
    .ok { r with
      app := app
      turns := turn
      entered := r.entered ++ (entering r.app app).map fun j => (j, turn)
      released := r.released ++ (givenBack r.app app).map fun a => (a, turn) }

/-- The node that `c_alloc` hands out is not in use. -/
def Fresh (r : PrintRun) : PrinterCall → Prop
  | .add _ _ => ∀ a ∈ (cAlloc r.app.mem sizeofPrintList).toOption, ¬ r.app.mem.IsLive a.1
  | .turn => True

end PrintRun

/-- The printer as `init_printer` sets it up. -/
def initPrinter : Printer :=
  { printerS := 1, head := 0, tail := 0, printerBuffer := 0, active := true }

/-! ## The simulation -/

/-- The list and the buffer stand for a server; `old` is what `c_dealloc` was
given before. -/
structure Simulates (old : List Addr) (app : App) (s : Server PrintJob) : Prop where
  nodes : app.printer.Nodes app.heap.printLists (s.queue.map PrintJob.node)
  empty : s.queue = [] → app.printer.tail = 0
  buffered : app.printer.buffered = s.current.toList.map fun c => c.1.node
  times : ∀ j ∈ s.queue, (app.heap.printLists j.node).time = j.time
  left : ∀ c ∈ s.current, c.2 = max (app.heap.printLists c.1.node).time.toNat 1
  pids : ∀ j ∈ s.held, (app.heap.printLists j.node).pid = j.pid
  distinct : (s.held.map PrintJob.node).Nodup
  live : ∀ j ∈ s.held, app.mem.IsLive j.node
  deallocs : app.mem.deallocs = old ++ s.finished.map fun c => c.1.node
  unlocked : app.printer.printerS = 1

@[simp] theorem PrintList.countDown_time (node : PrintList) :
    node.countDown.time.toNat = node.time.toNat - 1 := by
  unfold PrintList.countDown
  by_cases h : 0 < node.time
  · have hpos := UInt32.lt_iff_toNat_lt.mp h
    simp only [h, if_true]
    exact UInt32.toNat_sub_of_le _ _ (UInt32.le_iff_toNat_le.mpr hpos)
  · have hzero : node.time.toNat = 0 := by
      have := fun hlt => h (UInt32.lt_iff_toNat_lt.mpr hlt)
      simpa using this
    simp only [h, if_false]
    omega

@[simp] theorem PrintList.countDown_pid (node : PrintList) : node.countDown.pid = node.pid := rfl

namespace Simulates

variable {old : List Addr} {app app' : App} {s : Server PrintJob}

/-- Only the printer, its nodes and the memory matter. -/
theorem congr (h : Simulates old app s) (hprinter : app'.printer = app.printer)
    (hheap : app'.heap = app.heap) (hmem : app'.mem = app.mem) : Simulates old app' s := by
  obtain ⟨hnodes, hempty, hbuffered, htimes, hleft, hpids, hdistinct, hlive, hdeallocs, hlock⟩ := h
  constructor <;> (try rw [hprinter]) <;> (try rw [hheap]) <;> (try rw [hmem]) <;> assumption

theorem buffer_of_none (h : Simulates old app s) (hcurrent : s.current = none) :
    app.printer.printerBuffer = 0 := by
  have hbuffered := h.buffered
  rw [hcurrent, Printer.buffered] at hbuffered
  simpa using hbuffered

theorem buffer_of_some {c : PrintJob × Nat} (h : Simulates old app s)
    (hcurrent : s.current = some c) :
    app.printer.printerBuffer ≠ 0 ∧ app.printer.printerBuffer = c.1.node := by
  have hbuffered := h.buffered
  rw [hcurrent, Printer.buffered] at hbuffered
  split at hbuffered
  · cases hbuffered
  · exact ⟨‹_›, by simpa using hbuffered⟩

theorem current_eq_none (h : Simulates old app s) :
    s.current = none ↔ app.printer.printerBuffer = 0 := by
  constructor
  · exact h.buffer_of_none
  · intro hzero
    rcases hcurrent : s.current with _ | c
    · rfl
    · exact absurd hzero (h.buffer_of_some hcurrent).1

theorem head_eq_zero (h : Simulates old app s) : app.printer.head = 0 ↔ s.queue = [] := by
  rw [h.nodes.chain.head_eq_nil, List.map_eq_nil_iff]

/-- The nodes in the queue are others than the one in the buffer. -/
theorem ne_of_queued {c : PrintJob × Nat} {j : PrintJob} (h : Simulates old app s)
    (hcurrent : s.current = some c) (hj : j ∈ s.queue) : j.node ≠ c.1.node := by
  have hdistinct := h.distinct
  rw [Server.held_of_some hcurrent] at hdistinct
  intro heq
  apply (List.nodup_cons.mp hdistinct).1
  rw [← heq]
  exact List.mem_map_of_mem hj

/-! ## The calls -/

/-- Counting the job in the buffer down leaves the times of the others. -/
theorem times_countDown (h : Simulates old app s) {c : PrintJob × Nat}
    (hcurrent : s.current = some c) {j : PrintJob} (hj : j ∈ s.queue) :
    (Function.update app.heap.printLists app.printer.printerBuffer
      (app.heap.printLists app.printer.printerBuffer).countDown j.node).time = j.time := by
  have hother : j.node ≠ app.printer.printerBuffer := by
    rw [(h.buffer_of_some hcurrent).2]
    exact h.ne_of_queued hcurrent hj
  rw [Function.update_of_ne hother]
  exact h.times j hj

theorem pids_countDown (h : Simulates old app s) {j : PrintJob} (hj : j ∈ s.held) :
    (Function.update app.heap.printLists app.printer.printerBuffer
      (app.heap.printLists app.printer.printerBuffer).countDown j.node).pid = j.pid := by
  by_cases hsame : j.node = app.printer.printerBuffer
  · rw [hsame, Function.update_self, PrintList.countDown_pid, ← hsame]
    exact h.pids j hj
  · rw [Function.update_of_ne hsame]
    exact h.pids j hj

/-- A turn of a job that has more than a millisecond to go. -/
theorem serve_more (h : Simulates old app s) (hbuffer : app.printer.printerBuffer ≠ 0)
    (htime : (app.heap.printLists app.printer.printerBuffer).time.toNat - 1 ≠ 0) :
    Simulates old
      { app with
        heap.printLists := Function.update app.heap.printLists app.printer.printerBuffer
          (app.heap.printLists app.printer.printerBuffer).countDown } s.serve := by
  obtain ⟨⟨j, left⟩, hcurrent⟩ := Option.ne_none_iff_exists'.mp (h.current_eq_none.not.mpr hbuffer)
  have hnode : app.printer.printerBuffer = j.node := (h.buffer_of_some hcurrent).2
  have hleft : left = max (app.heap.printLists j.node).time.toNat 1 := h.left (j, left) hcurrent
  have hmore : left ≠ 1 := by
    rintro rfl
    rw [hnode] at htime
    omega
  rw [Server.serve_of_more hcurrent hmore]
  have hheld : Server.held { s with turns := s.turns + 1, current := some (j, left - 1) }
      = s.held := by
    rw [Server.held_of_some hcurrent, Server.held_of_some rfl]
  constructor
  case nodes => exact h.nodes.countDown _
  case empty => exact h.empty
  case buffered =>
    show app.printer.buffered = _
    rw [h.buffered, hcurrent]
    rfl
  case times => exact fun i hi => h.times_countDown hcurrent hi
  case left =>
    rintro c ⟨⟩
    dsimp only
    rw [hnode] at htime ⊢
    rw [Function.update_self, PrintList.countDown_time]
    omega
  case pids =>
    rw [hheld]
    exact fun i hi => h.pids_countDown hi
  case distinct =>
    rw [hheld]
    exact h.distinct
  case live =>
    rw [hheld]
    exact h.live
  case deallocs => exact h.deallocs
  case unlocked => exact h.unlocked

/-- A turn of a job whose time is up. -/
theorem serve_last {mem : Memory} (h : Simulates old app s)
    (hbuffer : app.printer.printerBuffer ≠ 0)
    (htime : (app.heap.printLists app.printer.printerBuffer).time.toNat - 1 = 0)
    (hfree : cDealloc app.mem app.printer.printerBuffer = .ok mem) :
    Simulates old
      { app with
        mem := mem
        heap.printLists := Function.update app.heap.printLists app.printer.printerBuffer
          (app.heap.printLists app.printer.printerBuffer).countDown
        printer.printerBuffer := 0 } s.serve := by
  obtain ⟨⟨j, left⟩, hcurrent⟩ := Option.ne_none_iff_exists'.mp (h.current_eq_none.not.mpr hbuffer)
  have hnode : app.printer.printerBuffer = j.node := (h.buffer_of_some hcurrent).2
  have hleft : left = max (app.heap.printLists j.node).time.toNat 1 := h.left (j, left) hcurrent
  obtain rfl : left = 1 := by
    rw [hnode] at htime
    omega
  rw [Server.serve_of_last hcurrent]
  have hheld : s.held = j :: s.queue := Server.held_of_some hcurrent
  have hsub : ∀ i ∈ s.queue, i ∈ s.held := fun i hi => Server.mem_held_of_queue hi
  have hnodes := h.nodes.countDown app.printer.printerBuffer
  constructor
  case nodes => exact ⟨hnodes.chain, hnodes.tail⟩
  case empty => exact h.empty
  case buffered => simp [Printer.buffered]
  case times => exact fun i hi => h.times_countDown hcurrent hi
  case left => simp
  case pids => exact fun i hi => h.pids_countDown (hsub i hi)
  case distinct =>
    have hdistinct := h.distinct
    rw [hheld] at hdistinct
    exact (List.nodup_cons.mp hdistinct).2
  case live =>
    intro i hi
    obtain ⟨b, hb, hptr⟩ := h.live i (hsub i hi)
    refine ⟨b, Memory.cDealloc_live_of_ne hfree hb ?_, hptr⟩
    rw [hptr, hnode]
    exact h.ne_of_queued hcurrent hi
  case deallocs =>
    dsimp only
    rw [Memory.cDealloc_deallocs hbuffer hfree, h.deallocs, hnode]
    simp
  case unlocked => exact h.unlocked

/-- The part of a turn up to the interrupt. -/
theorem serve {finish : Bool} (h : Simulates old app s)
    (hturn : printerTurn app = .ok (finish, app')) : Simulates old app' s.serve := by
  obtain ⟨-, ⟨hbuffer, rfl⟩ | ⟨hbuffer, hcases⟩⟩ := printerTurn_eq_ok hturn
  · rw [Server.serve_of_none (h.current_eq_none.mpr hbuffer)]
    exact ⟨h.nodes, h.empty, h.buffered, h.times, h.left, h.pids, h.distinct, h.live, h.deallocs,
      h.unlocked⟩
  · dsimp only at hcases
    rw [Function.update_self, ne_eq, ← UInt32.toNat_inj, PrintList.countDown_time,
      UInt32.toNat_zero] at hcases
    rcases hcases with ⟨htime, rfl⟩ | ⟨htime, mem, hfree, rfl⟩
    · exact h.serve_more hbuffer htime
    · exact h.serve_last hbuffer htime hfree

/-- `pop_print`, with an empty buffer. -/
theorem next (h : Simulates old app s) (hcurrent : s.current = none)
    (hpop : popPrint app = .ok app') : Simulates old app' (s.next PrintJob.work) := by
  have hheld : s.held = s.queue := Server.held_of_none hcurrent
  have hdistinct := h.distinct
  have hpids := h.pids
  have hlive := h.live
  rw [hheld] at hdistinct hpids hlive
  rcases popPrint_eq_ok hpop with ⟨hhead, rfl⟩ | ⟨hhead, rfl⟩
  · rw [Server.next_of_nil (h.head_eq_zero.mp hhead)]
    exact ⟨⟨h.nodes.chain, h.nodes.tail⟩, h.empty, by simp [Printer.buffered, hcurrent], h.times,
      h.left, h.pids, h.distinct, h.live, h.deallocs, h.unlocked⟩
  · rcases hqueue : s.queue with _ | ⟨j, rest⟩
    · exact absurd (h.head_eq_zero.mpr hqueue) hhead
    obtain ⟨nodes, hcons, hnodes⟩ := h.nodes.pop hhead
    rw [hqueue, List.map_cons, List.cons.injEq] at hcons
    obtain ⟨hj, rfl⟩ := hcons
    rw [Server.next_of_cons hcurrent hqueue]
    rw [hqueue] at hdistinct hpids hlive
    refine ⟨hnodes, ?_, ?_, ?_, ?_, hpids, hdistinct, hlive, h.deallocs, h.unlocked⟩
    · rintro rfl
      have hnext := hnodes.chain.head_eq_nil.mpr rfl
      exact if_pos hnext
    · simp [Printer.buffered, hhead, hj]
    · intro i hi
      exact h.times i (by rw [hqueue]; exact List.mem_cons_of_mem j hi)
    · rintro c ⟨⟩
      dsimp only
      rw [h.times j (by rw [hqueue]; exact List.mem_cons_self)]
      rfl

/-- A turn of `printer_loop`. -/
theorem turn (h : Simulates old app s) (hturn : printerLoopTurn app = .ok app') :
    Simulates old app' (s.serve.next PrintJob.work) := by
  obtain ⟨⟨finish, mid⟩, hserve, hfinish⟩ := Except.bind_eq_ok.mp hturn
  have hmid := h.serve hserve
  obtain ⟨hflag, -⟩ := printerTurn_eq_ok hserve
  dsimp only at hfinish
  split at hfinish
  · rename_i htrue
    have hempty := of_decide_eq_true (hflag.symm.trans htrue)
    have hcurrent : s.serve.current = none := hmid.current_eq_none.mpr hempty.1
    obtain ⟨n, a, hpop, rfl⟩ := inCpu_eq_ok hfinish
    have hentry : Simulates old { mid with cpu.cpuS := n } s.serve := hmid.congr rfl rfl rfl
    exact (hentry.next hcurrent hpop).congr rfl rfl rfl
  · rename_i hfalse
    cases hfinish
    have hstays : s.serve.next PrintJob.work = s.serve := by
      rcases hc : s.serve.current with _ | c
      · apply Server.next_of_nil
        by_contra hqueue
        apply hfalse
        rw [hflag]
        exact decide_eq_true ⟨hmid.buffer_of_none hc, fun hhead => hqueue (hmid.head_eq_zero.mp hhead)⟩
      · exact Server.next_of_some hc
    rw [hstays]
    exact hmid

/-- `add_to_print_queue`, in a node that is not in use. -/
theorem add {time pid : UInt32} (h : Simulates old app s)
    (hadd : addToPrintQueue app time pid = .ok app')
    (hfresh : ∀ new mem, cAlloc app.mem sizeofPrintList = .ok (new, mem) → ¬ app.mem.IsLive new) :
    Simulates old app' (s.submit { node := app'.printer.tail, time := time, pid := pid }) := by
  obtain ⟨new, mem, lists, head, halloc, hnew, rfl, hlink⟩ := addToPrintQueue_nodes hadd
  have hdead := hfresh new mem halloc
  have hother : ∀ j ∈ s.held, j.node ≠ new := by
    rintro j hj rfl
    exact hdead (h.live j hj)
  have hqueued : ∀ j ∈ s.queue, j ∈ s.held := fun j hj => Server.mem_held_of_queue hj
  have hnodup : (s.queue.map PrintJob.node).Nodup :=
    h.distinct.sublist (List.Sublist.map _ (List.sublist_append_right _ _))
  have hnotMem : new ∉ s.queue.map PrintJob.node := by
    intro hmem
    obtain ⟨j, hj, hsame⟩ := List.mem_map.mp hmem
    exact hother j (hqueued j hj) hsame
  obtain ⟨hnodes, htime, hpid, hsame⟩ := hlink _ h.nodes hnodup hnotMem
  have hmem (job j : PrintJob) : j ∈ (s.submit job).held ↔ j ∈ s.held ∨ j = job := by
    simp [Server.held_submit]
  refine ⟨?_, ?_, h.buffered, ?_, ?_, ?_, ?_, ?_, ?_, h.unlocked⟩
  · simpa [Server.submit] using hnodes
  · simp [Server.submit]
  · intro j hj
    rcases List.mem_append.mp hj with hj | hj
    · rw [(hsame j.node (hother j (hqueued j hj))).1]
      exact h.times j hj
    · cases List.mem_singleton.mp hj
      exact htime
  · intro c hc
    have hcheld : c.1 ∈ s.held := by
      apply List.mem_append_left
      exact List.mem_map_of_mem (Option.mem_toList.mpr hc)
    rw [h.left c hc, (hsame c.1.node (hother c.1 hcheld)).1]
  · intro j hj
    rcases (hmem _ j).mp hj with hj | rfl
    · rw [(hsame j.node (hother j hj)).2]
      exact h.pids j hj
    · exact hpid
  · rw [Server.held_submit, List.map_append]
    apply h.distinct.append (List.nodup_singleton new)
    apply List.disjoint_singleton.mpr
    intro hnewMem
    obtain ⟨j, hj, hsame⟩ := List.mem_map.mp hnewMem
    exact hother j hj hsame
  · intro j hj
    rcases (hmem _ j).mp hj with hj | rfl
    · obtain ⟨b, hb, hptr⟩ := h.live j hj
      exact ⟨b, Memory.cAlloc_live_of_mem halloc hb, hptr⟩
    · obtain ⟨b, before, hptr, -, hcalls, -⟩ := Memory.cAlloc_block halloc hnew
      refine ⟨b, ?_, hptr⟩
      rw [Memory.live, hcalls]
      exact List.mem_cons_self
  · exact (Memory.cAlloc_deallocs halloc).trans h.deallocs

/-! ## What the calls show -/

theorem popPrint_heap (hpop : popPrint app = .ok app') : app'.heap = app.heap := by
  rcases popPrint_eq_ok hpop with ⟨-, rfl⟩ | ⟨-, rfl⟩ <;> rfl

/-- The interrupt changes no job. -/
theorem printerLoopTurn_heap (hturn : printerLoopTurn app = .ok app') :
    ∃ finish mid, printerTurn app = .ok (finish, mid) ∧ app'.heap = mid.heap := by
  obtain ⟨⟨finish, mid⟩, hserve, hfinish⟩ := Except.bind_eq_ok.mp hturn
  refine ⟨finish, mid, hserve, ?_⟩
  dsimp only at hfinish
  split at hfinish
  · obtain ⟨n, a, hrun, rfl⟩ := inCpu_eq_ok hfinish
    have hpop : popPrint { mid with cpu.cpuS := n } = .ok a := hrun
    have hheap := popPrint_heap hpop
    exact hheap
  · cases hfinish
    rfl

/-- The job that starts is the one that is new in the buffer. -/
theorem started_turn (h : Simulates old app s) (hturn : printerLoopTurn app = .ok app') :
    (s.serve.next PrintJob.work).started
      = s.started ++ (entering app app').map fun j => (j, s.turns + 1) := by
  obtain ⟨finish, mid, hserve, hheap⟩ := printerLoopTurn_heap hturn
  have hafter := h.turn hturn
  rcases hcurrent : s.serve.current with _ | ⟨a, left⟩
  · rcases hqueue : s.serve.queue with _ | ⟨a, rest⟩
    · rw [Server.next_of_nil hqueue] at hafter ⊢
      have hbuffer := hafter.buffer_of_none hcurrent
      simp [entering, hbuffer]
    · rw [Server.next_of_cons hcurrent hqueue] at hafter ⊢
      have hbuffer := hafter.buffer_of_some rfl
      have hpid := hafter.pids a (by simp [Server.held])
      have htime := (h.serve hserve).times a (by rw [hqueue]; exact List.mem_cons_self)
      rw [← hheap] at htime
      have hnew : a.node ≠ app.printer.printerBuffer := by
        rcases hc : s.current with _ | c
        · rw [h.buffer_of_none hc, ← hbuffer.2]
          exact hbuffer.1
        · rw [(h.buffer_of_some hc).2]
          apply h.ne_of_queued hc
          rw [← Server.serve_queue, hqueue]
          exact List.mem_cons_self
      have hne : a.node ≠ 0 := hbuffer.2 ▸ hbuffer.1
      simp [entering, hbuffer.2, hne, hnew, htime, hpid]
  · rw [Server.next_of_some hcurrent] at hafter ⊢
    obtain ⟨left', hbefore⟩ := Server.current_of_serve hcurrent
    have hsame : app'.printer.printerBuffer = app.printer.printerBuffer := by
      rw [(hafter.buffer_of_some hcurrent).2, (h.buffer_of_some hbefore).2]
    simp [entering, hsame]

/-- The job that finishes is the one whose node is given back. -/
theorem finished_turn (h : Simulates old app s) (hturn : printerLoopTurn app = .ok app') :
    (s.serve.next PrintJob.work).finished.map (fun c => (c.1.node, c.2))
      = s.finished.map (fun c => (c.1.node, c.2))
        ++ (givenBack app app').map fun a => (a, s.turns + 1) := by
  have hafter := (h.turn hturn).deallocs
  obtain ⟨new, hnew, htime⟩ := s.serve_finished
  rw [Server.next_finished, hnew] at hafter ⊢
  have hback : givenBack app app' = new.map fun c => c.1.node := by
    rw [givenBack, hafter, h.deallocs, List.map_append, ← List.append_assoc, List.drop_left]
  rw [hback, List.map_append, List.map_map]
  congr 1
  apply List.map_congr_left
  intro c hc
  rw [htime c hc]
  rfl

end Simulates

/-! ## Every run -/

namespace PrintRun

variable {old : List Addr} {r r' : PrintRun}

/-- A state of a run and of a server with the same history. -/
structure Tracks (old : List Addr) (r : PrintRun) (s : Server PrintJob) : Prop where
  simulates : Simulates old r.app s
  turns : r.turns = s.turns
  added : r.added = s.submitted
  entered : r.entered = s.started
  released : r.released = s.finished.map fun c => (c.1.node, c.2)

theorem Tracks.start {app : App} (hinit : app.printer = initPrinter) :
    Tracks app.mem.deallocs (start app) .empty := by
  refine ⟨⟨⟨?_, ?_⟩, ?_, ?_, ?_, ?_, ?_, ?_, ?_, ?_, ?_⟩, rfl, rfl, rfl, rfl⟩
  · simp only [PrintRun.start, hinit]
    exact .nil
  · simp [Server.empty]
  · simp [PrintRun.start, hinit, initPrinter]
  · simp [PrintRun.start, hinit, initPrinter, Printer.buffered, Server.empty]
  · simp [Server.empty]
  · simp [Server.empty]
  · simp [Server.empty, Server.held]
  · simp [Server.empty, Server.held]
  · simp [Server.empty, Server.held]
  · simp [PrintRun.start, Server.empty]
  · simp [PrintRun.start, hinit, initPrinter]

def Inv (old : List Addr) (r : PrintRun) : Prop :=
  ∃ s done now, Tracks old r s ∧ s.Inv PrintJob.work done now

theorem Inv.step {c : PrinterCall} (h : Inv old r) (hfresh : r.Fresh c)
    (hok : r.step c = .ok r') : Inv old r' := by
  obtain ⟨s, done, now, ⟨hsim, hturns, hadded, hentered, hreleased⟩, hinv⟩ := h
  cases c with
  | add time pid =>
      obtain ⟨app, hadd, hr⟩ := Except.bind_eq_ok.mp hok
      cases hr
      have hnode : ∀ new mem, cAlloc r.app.mem sizeofPrintList = .ok (new, mem) →
          ¬ r.app.mem.IsLive new := by
        intro new mem halloc
        exact hfresh (new, mem) (Except.toOption_eq_ok.mpr halloc)
      refine ⟨_, done, now, ⟨hsim.add hadd hnode, hturns, ?_, hentered, hreleased⟩,
        hinv.submit _⟩
      rw [hadded]
      rfl
  | turn =>
      obtain ⟨app, hturn, hr⟩ := Except.bind_eq_ok.mp hok
      cases hr
      obtain ⟨done', now₁, hserve⟩ := hinv.serve
      obtain ⟨now', hnext⟩ := hserve.next fun j => Nat.lt_of_lt_of_le Nat.one_pos (le_max_right _ _)
      refine ⟨_, done', now', ⟨hsim.turn hturn, ?_, ?_, ?_, ?_⟩, hnext⟩
      · simp [hturns]
      · simp [hadded]
      · rw [hsim.started_turn hturn, hentered, hturns]
      · rw [hsim.finished_turn hturn, hreleased, hturns]

end PrintRun

/-! ## First in, first out -/

/-- What holds in a state: `done` are the stays in the buffer that are over, `now`
is the one that is not, and `waiting` are the jobs in the queue. -/
structure PrinterFifo (app : App) (r : PrintRun) (done now : List (PrintJob × Nat))
    (waiting : List PrintJob) : Prop where
  /-- Jobs enter the buffer in the order of their calls, each once, with its own time and pid. -/
  order : r.added = r.entered.map Prod.fst ++ waiting
  entered : r.entered = done ++ now
  /-- A job that entered in turn `c.2` is released as many turns later as it has work. -/
  released : r.released = done.map fun c => (c.1.node, c.2 + max c.1.time.toNat 1)
  /-- Until then it is in the buffer. -/
  buffered : r.app.printer.buffered = now.map fun c => c.1.node
  staying : ∀ c ∈ now, r.turns < c.2 + max c.1.time.toNat 1 ∧
    (r.app.heap.printLists c.1.node).pid = c.1.pid
  /-- The nodes given back are those of the jobs that have left, each once. -/
  deallocs : r.app.mem.deallocs = app.mem.deallocs ++ done.map fun c => c.1.node
  /-- The nodes of the others are in use, and distinct. -/
  live : ∀ j ∈ now.map Prod.fst ++ waiting, r.app.mem.IsLive j.node
  distinct : ((now.map Prod.fst ++ waiting).map PrintJob.node).Nodup
  /-- The list runs through the jobs that wait, and `tail` is the last of them. -/
  list : Chain (fun a => (r.app.heap.printLists a).prox) 0 r.app.printer.head
    (waiting.map PrintJob.node)
  tail : r.app.printer.tail = (waiting.map PrintJob.node).getLast?.getD 0
  jobs : ∀ j ∈ waiting, (r.app.heap.printLists j.node).time = j.time ∧
    (r.app.heap.printLists j.node).pid = j.pid
  ends : r.app.printer.head = 0 ↔ r.app.printer.tail = 0
  /-- A turn that leaves the buffer empty leaves the queue empty. -/
  busy : ∀ app', printerLoopTurn r.app = .ok app' → app'.printer.printerBuffer = 0 →
    app'.printer.head = 0
  unlocked : r.app.printer.printerS = 1

namespace Simulates

variable {old : List Addr} {app app' : App} {s : Server PrintJob}

/-- `tail` is the last node of the list. -/
theorem tail_eq (h : Simulates old app s) :
    app.printer.tail = (s.queue.map PrintJob.node).getLast?.getD 0 := by
  rcases hlast : (s.queue.map PrintJob.node).getLast? with _ | a
  · apply h.empty
    simpa using hlast
  · exact h.nodes.tail a hlast

theorem ends (h : Simulates old app s) : app.printer.head = 0 ↔ app.printer.tail = 0 := by
  rw [h.head_eq_zero, h.tail_eq]
  constructor
  · intro hqueue
    simp [hqueue]
  · intro htail
    by_contra hqueue
    have hne : s.queue.map PrintJob.node ≠ [] := by simpa using hqueue
    rw [List.getLast?_eq_some_getLast hne, Option.getD_some] at htail
    obtain ⟨j, hj, hnode⟩ := List.mem_map.mp (List.getLast_mem hne)
    obtain ⟨b, -, hptr⟩ := h.live j (Server.mem_held_of_queue hj)
    rw [← hnode, ← hptr] at htail
    exact Memory.ptr_ne_zero b htail

/-- The printer is not idle while a job waits. -/
theorem busy (h : Simulates old app s) (hturn : printerLoopTurn app = .ok app')
    (hbuffer : app'.printer.printerBuffer = 0) : app'.printer.head = 0 := by
  have hafter := h.turn hturn
  rw [hafter.head_eq_zero]
  rcases hcurrent : s.serve.current with _ | c
  · rcases hqueue : s.serve.queue with _ | ⟨a, rest⟩
    · rw [Server.next_of_nil hqueue, hqueue]
    · rw [Server.next_of_cons hcurrent hqueue] at hafter
      exact absurd hbuffer (hafter.buffer_of_some rfl).1
  · rw [Server.next_of_some hcurrent] at hafter
    exact absurd hbuffer (hafter.buffer_of_some hcurrent).1

end Simulates

theorem PrintRun.Inv.printerFifo {app : App} {r : PrintRun} (h : r.Inv app.mem.deallocs) :
    ∃ done now waiting, PrinterFifo app r done now waiting := by
  obtain ⟨s, done, now, ⟨hsim, hturns, hadded, hentered, hreleased⟩, hinv⟩ := h
  have hheld : s.held = now.map Prod.fst ++ s.queue := by
    rw [Server.held, hinv.serving.jobs]
  have hbuffered : s.current.toList.map (fun c => c.1.node) = now.map fun c => c.1.node := by
    have hjobs := congrArg (List.map PrintJob.node) hinv.serving.jobs
    rwa [List.map_map, List.map_map] at hjobs
  have hlive := hsim.live
  have hdistinct := hsim.distinct
  rw [hheld] at hlive hdistinct
  refine ⟨done, now, s.queue,
    { order := ?_
      entered := hentered.trans hinv.started
      released := ?_
      buffered := hsim.buffered.trans hbuffered
      staying := ?_
      deallocs := ?_
      live := hlive
      distinct := hdistinct
      list := hsim.nodes.chain
      tail := hsim.tail_eq
      jobs := fun j hj => ⟨hsim.times j hj, hsim.pids j (Server.mem_held_of_queue hj)⟩
      ends := hsim.ends
      busy := fun app' hturn => hsim.busy hturn
      unlocked := hsim.unlocked }⟩
  · rw [hadded, hentered, hinv.order]
  · rw [hreleased, hinv.finished, List.map_map]
    rfl
  · intro c hc
    have hpid := hsim.pids c.1 (by rw [hheld]; exact List.mem_append_left _ (List.mem_map_of_mem hc))
    refine ⟨?_, hpid⟩
    rw [hturns]
    exact hinv.serving.lt hc
  · rw [hsim.deallocs, hinv.finished, List.map_map]
    rfl

/-- In every run of additions and turns from an empty printer, with fresh nodes. -/
theorem printer_fifo (app : App) (calls : List PrinterCall) {t : PrintRun}
    (hinit : app.printer = initPrinter)
    (hfresh : Run.Meets PrintRun.step PrintRun.Fresh (.start app) calls)
    (hrun : Run.run PrintRun.step (.start app) calls = .ok t) :
    ∃ done now waiting, PrinterFifo app t done now waiting := by
  have hstart : (PrintRun.start app).Inv app.mem.deallocs :=
    ⟨.empty, [], [], .start hinit, .empty⟩
  exact (Run.run_invariant (PrintRun.Inv app.mem.deallocs) PrintRun.Inv.step hstart hfresh
    hrun).printerFifo

instance PrintRun.decidableFresh (r : PrintRun) : (c : PrinterCall) → Decidable (r.Fresh c)
  | .add _ _ => inferInstanceAs (Decidable (∀ a ∈ Except.toOption _, _))
  | .turn => inferInstanceAs (Decidable True)

/-- An empty printer, and a pool of a few pages. -/
def App.idlePrinter : App :=
  { App.zero Heap.zero fun _ => none with
    mem := initMem (fun _ => 0) 32768
    cpu := { quantumTime := 0, cpuS := 1 }
    printer := initPrinter }

/-- A job of no time, added while another one is in the buffer, stays there for a turn. -/
def twoJobs : List PrinterCall := [.add 2 7, .turn, .add 0 8, .turn, .turn, .turn]

theorem printer_fifo_two :
    ∃ t, Run.run PrintRun.step (.start .idlePrinter) twoJobs = .ok t ∧
      t.released.map Prod.snd = [3, 4] ∧
      ∃ done now waiting, PrinterFifo .idlePrinter t done now waiting := by
  have hchecked : (Run.runChecked PrintRun.step PrintRun.Fresh (.start .idlePrinter) twoJobs).map
      (fun t => t.released.map Prod.snd) = some [3, 4] := by decide +kernel
  obtain ⟨t, hsome, hreleased⟩ := Option.map_eq_some_iff.mp hchecked
  obtain ⟨hfresh, hrun⟩ := Run.runChecked_eq_some hsome
  exact ⟨t, hrun, hreleased, printer_fifo .idlePrinter twoJobs rfl hfresh hrun⟩

end ChicOS
