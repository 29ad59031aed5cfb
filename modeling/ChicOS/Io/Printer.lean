-- SUMMARY: The printer: its queue of jobs as a linked list in the pool, and one turn of its loop.
import ChicOS.Lib.Chain
import ChicOS.Process.Table

/-!
# The printer

Print jobs are `c_alloc`'ed list nodes. `add_to_print_queue` appends one,
`pop_print` moves the first into the buffer, and a turn of `printer_loop` counts
the job in the buffer down and releases it at zero.
-/

namespace ChicOS

/-- Change a list node. `NULL` has none. -/
def App.setNode (app : App) (a : Addr) (f : PrintList → PrintList) : Except Stop App :=
  if a = 0 then .error .nullDeref
  else
    .ok { app with
      heap.printLists := Function.update app.heap.printLists a (f (app.heap.printLists a)) }

/-- `add_to_print_queue`. -/
def addToPrintQueue (app : App) (time pid : UInt32) : Except Stop App := do
  let n ← semWait .printerS app.printer.printerS
  let (new, app) ← { app with printer.printerS := n }.alloc sizeofPrintList
  let app ← app.setNode new fun _ => { time := time, pid := pid, prox := 0 }
  let app ← (if app.printer.head = 0 then
      .ok { app with printer := { app.printer with head := new, tail := new } }
    else do
      let app ← app.setNode app.printer.tail fun node => { node with prox := new }
      .ok { app with printer.tail := new })
  .ok { app with printer.printerS := app.printer.printerS + 1 }

/-- `pop_print`: the first job, if any, becomes the job in the buffer. -/
def popPrint (app : App) : Except Stop App := do
  let _ ← semWait .printerS app.printer.printerS
  if app.printer.head = 0 then .ok { app with printer.printerBuffer := 0 }
  else
    let next := (app.heap.printLists app.printer.head).prox
    .ok { app with
      printer :=
        { app.printer with
          head := next
          tail := if next = 0 then 0 else app.printer.tail
          printerBuffer := app.printer.head } }

/-- One millisecond of printing. -/
def PrintList.countDown (node : PrintList) : PrintList :=
  { node with time := if 0 < node.time then node.time - 1 else node.time }

/-- One turn of `printer_loop`, up to the interrupt; the flag tells whether it
raises `print_finish`. -/
def printerTurn (app : App) : Except Stop (Bool × App) := do
  let buffer := app.printer.printerBuffer
  let app ← (if buffer ≠ 0 then do
      let app ← app.setNode buffer PrintList.countDown
      if (app.heap.printLists buffer).time = 0 then do
        let app ← app.dealloc buffer
        .ok { app with printer.printerBuffer := 0 }
      else .ok app
    else .ok app)
  .ok (decide (app.printer.printerBuffer = 0 ∧ app.printer.head ≠ 0), app)

/-! ## What the printer changes -/

theorem setNode_eq_ok {app app' : App} {a : Addr} {f : PrintList → PrintList}
    (h : app.setNode a f = .ok app') :
    a ≠ 0 ∧ app' = { app with
      heap.printLists := Function.update app.heap.printLists a (f (app.heap.printLists a)) } := by
  unfold App.setNode at h
  split at h
  · cases h
  · rename_i ha
    cases h
    exact ⟨ha, rfl⟩

/-- A job is added at the end of the list, in a new node. -/
theorem addToPrintQueue_eq_ok {app app' : App} {time pid : UInt32}
    (h : addToPrintQueue app time pid = .ok app') :
    ∃ (new : Addr) (mem : Memory), cAlloc app.mem sizeofPrintList = .ok (new, mem) ∧ new ≠ 0 ∧
      let node : PrintList := { time := time, pid := pid, prox := 0 }
      let lists := Function.update app.heap.printLists new node
      (app.printer.head = 0 ∧
        app' = { app with
          mem := mem
          heap.printLists := lists
          printer := { app.printer with head := new, tail := new } }) ∨
      (app.printer.head ≠ 0 ∧ app.printer.tail ≠ 0 ∧
        app' = { app with
          mem := mem
          heap.printLists := Function.update lists app.printer.tail
            { lists app.printer.tail with prox := new }
          printer.tail := new }) := by
  obtain ⟨n, hn, h⟩ := Except.bind_eq_ok.mp h
  have hn := semWait_eq_ok.mp hn
  obtain ⟨⟨new, app₁⟩, halloc, h⟩ := Except.bind_eq_ok.mp h
  obtain ⟨mem, hmem, rfl⟩ := alloc_eq_ok halloc
  obtain ⟨app₂, hnode, h⟩ := Except.bind_eq_ok.mp h
  obtain ⟨hnew, rfl⟩ := setNode_eq_ok hnode
  obtain ⟨app₃, hlink, h⟩ := Except.bind_eq_ok.mp h
  cases h
  refine ⟨new, mem, hmem, hnew, ?_⟩
  dsimp only at hlink ⊢
  split at hlink
  · rename_i hhead
    cases hlink
    exact .inl ⟨hhead, by simp [hn]⟩
  · rename_i hhead
    obtain ⟨app₄, hset, hlink⟩ := Except.bind_eq_ok.mp hlink
    obtain ⟨htail, rfl⟩ := setNode_eq_ok hset
    cases hlink
    exact .inr ⟨hhead, htail, by simp [hn]⟩

theorem popPrint_eq_ok {app app' : App} (h : popPrint app = .ok app') :
    (app.printer.head = 0 ∧ app' = { app with printer.printerBuffer := 0 }) ∨
    (app.printer.head ≠ 0 ∧
      let next := (app.heap.printLists app.printer.head).prox
      app' = { app with
        printer :=
          { app.printer with
            head := next
            tail := if next = 0 then 0 else app.printer.tail
            printerBuffer := app.printer.head } }) := by
  obtain ⟨n, -, h⟩ := Except.bind_eq_ok.mp h
  split at h
  · rename_i hhead
    cases h
    exact .inl ⟨hhead, rfl⟩
  · rename_i hhead
    cases h
    exact .inr ⟨hhead, rfl⟩

/-- A turn leaves an empty buffer alone, counts its job down, or releases it. -/
theorem printerTurn_eq_ok {app app' : App} {finish : Bool}
    (h : printerTurn app = .ok (finish, app')) :
    (finish = decide (app'.printer.printerBuffer = 0 ∧ app'.printer.head ≠ 0)) ∧
    ((app.printer.printerBuffer = 0 ∧ app' = app) ∨
    (app.printer.printerBuffer ≠ 0 ∧
      let lists := Function.update app.heap.printLists app.printer.printerBuffer
        (app.heap.printLists app.printer.printerBuffer).countDown
      (((lists app.printer.printerBuffer).time ≠ 0 ∧ app' = { app with heap.printLists := lists }) ∨
        ((lists app.printer.printerBuffer).time = 0 ∧
          ∃ mem, cDealloc app.mem app.printer.printerBuffer = .ok mem ∧
            app' = { app with
              mem := mem, heap.printLists := lists, printer.printerBuffer := 0 })))) := by
  obtain ⟨app₁, hbuffer, h⟩ := Except.bind_eq_ok.mp h
  cases h
  refine ⟨rfl, ?_⟩
  split at hbuffer
  · rename_i hne
    obtain ⟨app₂, hnode, hbuffer⟩ := Except.bind_eq_ok.mp hbuffer
    obtain ⟨-, rfl⟩ := setNode_eq_ok hnode
    refine .inr ⟨hne, ?_⟩
    split at hbuffer
    · rename_i htime
      obtain ⟨app₃, hfree, hbuffer⟩ := Except.bind_eq_ok.mp hbuffer
      obtain ⟨mem, hmem, rfl⟩ := dealloc_eq_ok hfree
      cases hbuffer
      exact .inr ⟨htime, mem, hmem, rfl⟩
    · rename_i htime
      cases hbuffer
      exact .inl ⟨htime, rfl⟩
  · rename_i hzero
    cases hbuffer
    exact .inl ⟨not_not.mp hzero, rfl⟩

/-! ## The queue as a list -/

/-- The jobs in the queue. -/
structure Printer.Nodes (printer : Printer) (lists : Addr → PrintList) (nodes : List Addr) :
    Prop where
  chain : Chain (fun a => (lists a).prox) 0 printer.head nodes
  tail : ∀ a, nodes.getLast? = some a → printer.tail = a

/-- The job in the buffer. -/
def Printer.buffered (printer : Printer) : List Addr :=
  if printer.printerBuffer = 0 then [] else [printer.printerBuffer]

namespace Printer.Nodes

variable {printer : Printer} {lists : Addr → PrintList} {nodes : List Addr}

/-- Counting a job down moves no link. -/
theorem countDown (h : printer.Nodes lists nodes) (a : Addr) :
    printer.Nodes (Function.update lists a (lists a).countDown) nodes := by
  refine ⟨h.chain.congr fun b _ => ?_, h.tail⟩
  by_cases hb : b = a
  · rw [hb, Function.update_self]
    rfl
  · rw [Function.update_of_ne hb]

/-- The first job leaves the queue. -/
theorem pop (h : printer.Nodes lists nodes) (hhead : printer.head ≠ 0) :
    ∃ rest, nodes = printer.head :: rest ∧
      let next := (lists printer.head).prox
      Printer.Nodes
        { printer with
          head := next
          tail := if next = 0 then 0 else printer.tail
          printerBuffer := printer.head } lists rest := by
  obtain ⟨rest, rfl, hrest⟩ := h.chain.eq_cons hhead
  refine ⟨rest, rfl, hrest, fun a ha => ?_⟩
  have hnext : (lists printer.head).prox ≠ 0 := by
    intro hzero
    rw [(hrest.head_eq_nil).mp hzero] at ha
    cases ha
  dsimp only
  rw [if_neg hnext]
  exact h.tail a (by rw [List.getLast?_cons, ha]; rfl)

/-- A new node is linked behind the last one. -/
theorem link {new : Addr} {node : PrintList} (h : printer.Nodes lists nodes) (hnodup : nodes.Nodup)
    (hnew : new ∉ nodes) (hne : new ≠ 0) (hhead : printer.head ≠ 0) (hprox : node.prox = 0) :
    let lists' := Function.update lists new node
    Printer.Nodes { printer with tail := new }
      (Function.update lists' printer.tail { lists' printer.tail with prox := new })
      (nodes ++ [new]) := by
  have hnil : nodes ≠ [] := fun hnil => hhead (h.chain.head_eq_nil.mpr hnil)
  obtain ⟨front, last, rfl⟩ := (List.eq_nil_or_concat' nodes).resolve_left hnil
  have hlast : printer.tail = last := h.tail last (by simp)
  have hlastNew : new ≠ last := fun heq => hnew (by simp [heq])
  rw [List.append_assoc]
  dsimp only
  rw [hlast]
  refine ⟨h.chain.append ?_ ?_ hne ?_, fun a ha => by simpa using ha⟩
  · intro a ha
    have hanew : a ≠ new := fun heq => hnew (by simp [← heq, ha])
    have halast : a ≠ last := by
      rintro rfl
      exact (List.nodup_append.mp hnodup).2.2 a ha a (by simp) rfl
    rw [Function.update_of_ne halast, Function.update_of_ne hanew]
  · rw [Function.update_self]
  · rw [Function.update_of_ne hlastNew, Function.update_self, hprox]

end Printer.Nodes

/-- What a new job changes: its node is the last of the queue, and no job in the
queue or elsewhere is another one. -/
theorem addToPrintQueue_nodes {app app' : App} {time pid : UInt32}
    (hok : addToPrintQueue app time pid = .ok app') :
    ∃ (new : Addr) (mem : Memory) (lists : Addr → PrintList) (head : Addr),
      cAlloc app.mem sizeofPrintList = .ok (new, mem) ∧ new ≠ 0 ∧
      app' = { app with
        mem := mem
        heap.printLists := lists
        printer := { app.printer with head := head, tail := new } } ∧
      ∀ nodes, app.printer.Nodes app.heap.printLists nodes → nodes.Nodup → new ∉ nodes →
        app'.printer.Nodes lists (nodes ++ [new]) ∧
        (lists new).time = time ∧ (lists new).pid = pid ∧
        ∀ a, a ≠ new → (lists a).time = (app.heap.printLists a).time ∧
          (lists a).pid = (app.heap.printLists a).pid := by
  obtain ⟨new, mem, halloc, hnew, ⟨hhead, rfl⟩ | ⟨hhead, htail, rfl⟩⟩ := addToPrintQueue_eq_ok hok
  · refine ⟨new, mem, _, new, halloc, hnew, rfl, fun nodes hnodes _ _ => ?_⟩
    obtain rfl := hnodes.chain.head_eq_nil.mp hhead
    refine ⟨⟨.cons hnew ?_, ?_⟩, ?_, ?_, ?_⟩
    · rw [Function.update_self]
      exact .nil
    · rintro a ⟨⟩
      rfl
    · rw [Function.update_self]
    · rw [Function.update_self]
    · intro a ha
      rw [Function.update_of_ne ha]
      exact ⟨rfl, rfl⟩
  · refine ⟨new, mem, _, app.printer.head, halloc, hnew, rfl, fun nodes hnodes hnodup hfresh => ?_⟩
    have hlast : new ≠ app.printer.tail := by
      have hnil : nodes ≠ [] := fun hnil => hhead (hnodes.chain.head_eq_nil.mpr hnil)
      rw [hnodes.tail _ (List.getLast?_eq_some_getLast hnil)]
      rintro rfl
      exact hfresh (List.getLast_mem hnil)
    refine ⟨hnodes.link hnodup hfresh hnew hhead rfl, ?_, ?_, ?_⟩
    · rw [Function.update_of_ne hlast, Function.update_self]
    · rw [Function.update_of_ne hlast, Function.update_self]
    · intro a ha
      by_cases hat : a = app.printer.tail
      · subst hat
        rw [Function.update_self, Function.update_of_ne ha]
        exact ⟨rfl, rfl⟩
      · rw [Function.update_of_ne hat, Function.update_of_ne ha]
        exact ⟨rfl, rfl⟩

end ChicOS
