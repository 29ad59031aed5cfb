-- SUMMARY: Custody of the blocks that are given back: the invariant, and what each call of the kernel does to it.
import ChicOS.Custody.Parked
import ChicOS.Cpu.Cpu
import ChicOS.Lib.Chain
import ChicOS.Process.Life

/-!
# Custody

Three parts of the kernel pass blocks to `c_dealloc`: the process table its
address spaces, the printer its jobs, and `p_realloc` its scratch entry.
`Custody` says that what the table and the printer hold is live and held once,
and that all address spaces released so far were live.

Every call keeps it if the blocks that are handed out are fresh, as long as no
dead process is unparked, grown or killed again.
-/

namespace ChicOS

/-! ## The invariant -/

/-- What is given back is live, and has one holder. -/
def App.Holds (app : App) : Prop :=
  ∃ nodes, app.printer.Nodes app.heap.printLists nodes ∧
    app.mem.Owns (app.pcb.spaces ++ (app.printer.buffered ++ nodes))

/-- Every address space released so far was live. -/
def App.ReleasesLive (app : App) : Prop :=
  ∀ space live, .release space live ∈ app.trace → live = true

structure Custody (app : App) : Prop where
  table : app.pcb.Shape
  parks : app.pcb.Parks app.parked
  rings : app.semaphores.InRing
  disk : app.disk.Ok
  holds : app.Holds
  released : app.ReleasesLive

/-- A call that keeps custody, as far as the blocks handed out are fresh. -/
structure Keeps (app app' : App) : Prop where
  calls : app.mem.calls <:+ app'.mem.calls
  custody : app'.mem.Fresh → Custody app → Custody app'

theorem Keeps.trans {app app' app'' : App} (h : Keeps app app') (h' : Keeps app' app'') :
    Keeps app app'' where
  calls := h.calls.trans h'.calls
  custody hfresh hc := h'.custody hfresh (h.custody (hfresh.of_suffix h'.calls) hc)

theorem Keeps.of_mem {app app' : App} (hmem : app'.mem = app.mem) (h : Custody app → Custody app') :
    Keeps app app' := ⟨by rw [hmem], fun _ => h⟩

theorem Keeps.refl (app : App) : Keeps app app := .of_mem rfl id

/-- A call that keeps custody if nobody is dead before it. -/
structure KeepsAlive (app app' : App) : Prop where
  calls : app.mem.calls <:+ app'.mem.calls
  custody : app'.mem.Fresh → Custody app → app.pcb.NoneDead → Custody app'

theorem Keeps.alive {app app' : App} (h : Keeps app app') : KeepsAlive app app' :=
  ⟨h.calls, fun hfresh hc _ => h.custody hfresh hc⟩

theorem KeepsAlive.trans {app app' app'' : App} (h : KeepsAlive app app') (h' : Keeps app' app'') :
    KeepsAlive app app'' where
  calls := h.calls.trans h'.calls
  custody hfresh hc hnone := h'.custody hfresh (h.custody (hfresh.of_suffix h'.calls) hc hnone)

/-! ## Changes of a slot -/

namespace Custody

variable {app : App} {k : Fin MAX_PCB} {f : Process → Process} {pid : UInt32}

/-- The lock of the CPU and its clock do not matter. -/
theorem cpu (h : Custody app) (cpu : Cpu) : Custody { app with cpu := cpu } :=
  ⟨h.table, h.parks, h.rings, h.disk, h.holds, h.released⟩

theorem pcbS (h : Custody app) (n : Nat) : Custody { app with pcb.pcbS := n } :=
  ⟨h.table.of_slots rfl rfl fun _ => rfl, h.parks.of_slots fun _ => rfl, h.rings, h.disk, h.holds,
    h.released⟩

theorem note (h : Custody app) {e : Event} (he : ∀ space live, e ≠ .release space live) :
    Custody (app.note e) := by
  refine ⟨h.table, h.parks, h.rings, h.disk, h.holds, fun space live hmem => ?_⟩
  rcases List.mem_append.mp hmem with hold | hnew
  · exact h.released space live hold
  · exact absurd (List.mem_singleton.mp hnew).symm (he space live)

/-- The objects that nobody gives back do not matter. -/
theorem heap (h : Custody app) {heap : Heap} (hlists : heap.printLists = app.heap.printLists) :
    Custody { app with heap := heap } := by
  refine ⟨h.table, h.parks, h.rings, h.disk, ?_, h.released⟩
  obtain ⟨nodes, hnodes, howns⟩ := h.holds
  refine ⟨nodes, ?_, howns⟩
  show app.printer.Nodes heap.printLists nodes
  rw [hlists]
  exact hnodes

/-- The same process in a slot. -/
theorem holds_same (h : Custody app) (hf : (app.pcb.slot k).Same (f (app.pcb.slot k))) :
    App.Holds { app with pcb := app.pcb.modify k f } := by
  obtain ⟨nodes, hnodes, howns⟩ := h.holds
  exact ⟨nodes, hnodes, howns.perm ((PCB.spaces_same hf).append_right _)⟩

/-- A change of a slot that neither kills nor unparks. -/
theorem modify (h : Custody app) (hf : (app.pcb.slot k).Same (f (app.pcb.slot k)))
    (hparked : (app.pcb.slot k).Parked → (f (app.pcb.slot k)).Parked) :
    Custody { app with pcb := app.pcb.modify k f } :=
  ⟨h.table.modify_same hf, h.parks.modify hf.pid hf.fb hparked, h.rings, h.disk, h.holds_same hf,
    h.released⟩

/-- A process parks; its pid may be queued now. -/
theorem park (h : Custody app) (hf : (app.pcb.slot k).Same (f (app.pcb.slot k)))
    (hk : (app.pcb.slot k).fb ≠ 0) (hnot : ¬ (app.pcb.slot k).Parked)
    (hparked : (f (app.pcb.slot k)).Parked) :
    Custody { app with pcb := app.pcb.modify k f } ∧
      (app.pcb.modify k f).Parks ((app.pcb.slot k).pid :: app.parked) :=
  ⟨h.modify hf fun _ => hparked, h.parks.park h.table hk hnot hf.pid hf.fb hparked⟩

/-- A process whose pid has been taken out goes on. -/
theorem wake (h : Custody app) (hpid : app.pcb.Parks (pid :: app.parked))
    (hfind : app.pcb.find pid = some k)
    (hf : (app.pcb.slot k).status ≠ .kill → (app.pcb.slot k).Same (f (app.pcb.slot k))) :
    Custody { app with pcb := app.pcb.modify k f } := by
  obtain ⟨-, hparked⟩ := hpid.find h.table List.mem_cons_self hfind
  have hsame := hf (by rcases hparked with hs | hs <;> rw [hs] <;> decide)
  exact ⟨h.table.modify_same hsame, hpid.wake hfind, h.rings, h.disk, h.holds_same hsame, h.released⟩

/-- The queues may change, as long as the pids in them are of parked processes. -/
theorem queues (h : Custody app) {disk : Disk} {sl : SemaphoreList} (hdisk : disk.Ok)
    (hrings : sl.InRing) (hparks : app.pcb.Parks (disk.qr.ids ++ sl.parked)) :
    Custody { app with disk := disk, semaphores := sl } :=
  ⟨h.table, hparks, hrings, hdisk, h.holds, h.released⟩

end Custody

end ChicOS
