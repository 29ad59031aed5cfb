-- SUMMARY: What system calls, interrupts and instructions do to the process table and the history, said once.
import ChicOS.Process.Loading
import ChicOS.Cpu.Cpu

/-!
# Effects on the process table

A call marks processes and notes events, an instruction may also grow the process
that executes it and count its quantum; nothing else happens to the table or to
the history. `Effect` lists these changes, so that what one of them keeps is kept
by every call and every instruction.
-/

namespace ChicOS

/-- An event that a process executing its own program may leave in the history. -/
def Event.Own : Event → Prop
  | .dispatch _ pc last => pc < last
  | .sysCall _ e => e ≠ .processKill
  | _ => True

/-- Changes of the table and of the history, with the quanta counted for the
process in a slot. -/
inductive Effect (k : Fin MAX_PCB) : Nat → App → App → Prop where
  | refl (app : App) : Effect k 0 app app
  | trans {m n : Nat} {app app' app'' : App} (h : Effect k m app app')
      (h' : Effect k n app' app'') : Effect k (m + n) app app''
  /-- What is neither in the table nor in the history. -/
  | rest {app app' : App} (hpcb : app'.pcb = { app.pcb with pcbS := app'.pcb.pcbS })
      (htrace : app'.trace = app.trace) : Effect k 0 app app'
  | mark {app app' : App} (i : Fin MAX_PCB) (f : Process → Process)
      (hf : ∀ p, f p = { p with status := (f p).status, timeToRun := (f p).timeToRun })
      (hpcb : app'.pcb = app.pcb.modify i f) (htrace : app'.trace = app.trace) :
      Effect k 0 app app'
  | note {app app' : App} (e : Event) (he : e.Own) (hpcb : app'.pcb = app.pcb)
      (htrace : app'.trace = app.trace ++ [e]) : Effect k 0 app app'
  /-- The process gets another address space, with its code. -/
  | grow {app app' : App} (f : Process → Process)
      (hf : ∀ p, f p = { p with addressSpace := (f p).addressSpace, c := (f p).c })
      (hpc : (f (app.pcb.slot k)).c.pc = (app.pcb.slot k).c.pc)
      (hlast : (f (app.pcb.slot k)).c.last = (app.pcb.slot k).c.last)
      (hpcb : app'.pcb = app.pcb.modify k f) (htrace : app'.trace = app.trace) :
      Effect k 0 app app'
  | quantum {app app' : App}
      (hpcb : app'.pcb = app.pcb.modify k fun p => { p with hUsed := p.hUsed + 1 })
      (htrace : app'.trace = app.trace) : Effect k 1 app app'

namespace Effect

variable {k : Fin MAX_PCB} {n : Nat} {app app' app'' : App}

theorem of_eq (hpcb : app'.pcb = app.pcb) (htrace : app'.trace = app.trace) : Effect k 0 app app' :=
  .rest (by rw [hpcb]) htrace

theorem after (h : Effect k 0 app app') (h' : Effect k n app' app'') : Effect k n app app'' :=
  Nat.zero_add n ▸ h.trans h'

theorem before (h : Effect k n app app') (h' : Effect k 0 app' app'') : Effect k n app app'' :=
  h.trans h'

end Effect

section Calls

variable {k : Fin MAX_PCB} {app app' : App} {pid : UInt32} {buffer : List UInt8}

/-! ## Calls -/

theorem inCpu_effect {n : Nat} {f : App → Except Stop App}
    (hf : ∀ {a a'}, f a = .ok a' → Effect k n a a') (hok : app.inCpu f = .ok app') :
    Effect k n app app' := by
  obtain ⟨c, app₁, hrun, rfl⟩ := inCpu_eq_ok hok
  have hentry : Effect k 0 app { app with cpu.cpuS := c } := .of_eq rfl rfl
  have hexit : Effect k 0 app₁ { app₁ with cpu.cpuS := app₁.cpu.cpuS + 1 } := .of_eq rfl rfl
  exact hentry.after ((hf hrun).before hexit)

theorem pUpdate_effect {f : Process → Process} (hok : pUpdate app pid f = .ok app')
    (hf : ∀ p, f p = { p with status := (f p).status, timeToRun := (f p).timeToRun }) :
    Effect k 0 app app' := by
  obtain ⟨i, -, -, rfl⟩ := pUpdate_eq_ok hok
  exact .mark i f hf rfl rfl

theorem pKill_effect (hok : pKill app pid = .ok app') : Effect k 0 app app' := by
  rcases pKill_eq_ok hok with ⟨-, rfl⟩ | ⟨i, -, -, ⟨-, rfl⟩ | ⟨-, mem, -, rfl⟩⟩
  · exact .refl _
  · exact .mark i (fun p => { p with status := .kill }) (fun _ => rfl) rfl rfl
  · have hkill : Effect k 0 app
        { app with pcb := app.pcb.modify i fun p => { p with status := .kill } } :=
      .mark i (fun p => { p with status := .kill }) (fun _ => rfl) rfl rfl
    exact hkill.after (.note (.release (app.pcb.slot i).addressSpace
      (decide (app.mem.IsLive (app.pcb.slot i).addressSpace))) trivial rfl rfl)

theorem semaphoreP_effect {s : Option (Fin MAX_SIZE_SEMAPHORES)}
    (hok : semaphoreP app s pid = .ok app') : Effect k 0 app app' := by
  cases s with
  | none => cases hok; exact .refl _
  | some i =>
      rcases semaphoreP_eq_ok hok with ⟨-, rfl⟩ | ⟨-, sem, j, -, -, rfl⟩
      · exact .of_eq rfl rfl
      · exact .mark j (fun p => { p with status := .waiting, timeToRun := 0 }) (fun _ => rfl) rfl rfl

theorem semaphoreV_effect {s : Option (Fin MAX_SIZE_SEMAPHORES)}
    (hok : semaphoreV app s = .ok app') : Effect k 0 app app' := by
  cases s with
  | none => cases hok; exact .refl _
  | some i =>
      rcases semaphoreV_eq_ok hok with ⟨-, rfl⟩ | ⟨-, pid, sem, j, -, -, rfl⟩
      · exact .of_eq rfl rfl
      · exact .mark j (fun p => { p with status := .ready }) (fun _ => rfl) rfl rfl

theorem addToPrintQueue_effect {time : UInt32} (hok : addToPrintQueue app time pid = .ok app') :
    Effect k 0 app app' := by
  obtain ⟨new, mem, -, -, ⟨-, rfl⟩ | ⟨-, -, rfl⟩⟩ := addToPrintQueue_eq_ok hok
  · exact .of_eq rfl rfl
  · exact .of_eq rfl rfl

theorem popPrint_effect (hok : popPrint app = .ok app') : Effect k 0 app app' := by
  rcases popPrint_eq_ok hok with ⟨-, rfl⟩ | ⟨-, rfl⟩
  · exact .of_eq rfl rfl
  · exact .of_eq rfl rfl

theorem printBranch_effect (hok : printBranch app buffer = .ok app') : Effect k 0 app app' := by
  obtain ⟨⟨pid, rest⟩, -, hok⟩ := Except.bind_eq_ok.mp hok
  obtain ⟨⟨time, rest'⟩, -, hok⟩ := Except.bind_eq_ok.mp hok
  exact addToPrintQueue_effect hok

theorem killBranch_effect (hok : killBranch app buffer = .ok app') : Effect k 0 app app' := by
  obtain ⟨⟨pid, rest⟩, -, hok⟩ := Except.bind_eq_ok.mp hok
  exact pKill_effect hok

/-- Every system call but a creation. -/
theorem sysCall_effect {e : Events} (he : e ≠ .processCreate)
    (hok : sysCall app e buffer = .ok app') : Effect k 0 app app' := by
  refine inCpu_effect (fun {a a'} hrun => ?_) hok
  cases e with
  | processCreate => exact absurd rfl he
  | diskRequest =>
      obtain ⟨⟨pid, rest⟩, -, hrun⟩ := Except.bind_eq_ok.mp hrun
      obtain ⟨⟨track, rest'⟩, -, hrun⟩ := Except.bind_eq_ok.mp hrun
      obtain ⟨a₁, hblock, hio⟩ := Except.bind_eq_ok.mp hrun
      obtain ⟨-, qr, -, rfl⟩ := simulateIo_eq_ok hio
      exact (pUpdate_effect hblock fun _ => rfl).before (.of_eq rfl rfl)
  | processInterrupt =>
      obtain ⟨⟨pid, rest⟩, -, hrun⟩ := Except.bind_eq_ok.mp hrun
      exact pUpdate_effect hrun fun _ => rfl
  | processKill => exact killBranch_effect hrun
  | memLoadReq => cases hrun
  | semaphoreP =>
      obtain ⟨⟨sem, rest⟩, -, hrun⟩ := Except.bind_eq_ok.mp hrun
      obtain ⟨⟨pid, rest'⟩, -, hrun⟩ := Except.bind_eq_ok.mp hrun
      exact semaphoreP_effect hrun
  | semaphoreV =>
      obtain ⟨⟨sem, rest⟩, -, hrun⟩ := Except.bind_eq_ok.mp hrun
      exact semaphoreV_effect hrun
  | printRequest => exact printBranch_effect hrun
  | printFinish => exact popPrint_effect hrun
  | diskFinish => cases hrun; exact .refl _
  | memLoadFinish => cases hrun; exact .refl _
  | processExec => cases hrun; exact .refl _

/-- Every interrupt but a creation. -/
theorem interruptControl_effect {e : Events} (he : e ≠ .processCreate)
    (hok : interruptControl app e buffer = .ok app') : Effect k 0 app app' := by
  refine inCpu_effect (fun {a a'} hrun => ?_) hok
  cases e with
  | processCreate => exact absurd rfl he
  | diskFinish =>
      obtain ⟨⟨pid, rest⟩, -, hrun⟩ := Except.bind_eq_ok.mp hrun
      exact pUpdate_effect hrun fun _ => rfl
  | processInterrupt =>
      obtain ⟨⟨pid, rest⟩, -, hrun⟩ := Except.bind_eq_ok.mp hrun
      exact pUpdate_effect hrun fun _ => rfl
  | processKill => exact killBranch_effect hrun
  | memLoadFinish => cases hrun
  | printRequest => exact printBranch_effect hrun
  | printFinish => exact popPrint_effect hrun
  | diskRequest => cases hrun; exact .refl _
  | memLoadReq => cases hrun; exact .refl _
  | semaphoreP => cases hrun; exact .refl _
  | semaphoreV => cases hrun; exact .refl _
  | processExec => cases hrun; exact .refl _

/-! ## Executing an instruction -/

theorem execSysCall_effect {e : Events} (he : e ≠ .processCreate) (hown : e ≠ .processKill)
    (hok : execSysCall app pid e buffer = .ok app') : Effect k 0 app app' := by
  have hnote : Effect k 0 app (app.note (.sysCall pid e)) := .note (.sysCall pid e) hown rfl rfl
  exact hnote.after (sysCall_effect he hok)

/-- A growth moves the code and puts the program counter back. -/
theorem pRealloc_effect {region : Addr} {bytes : UInt32}
    (hok : pRealloc app k region bytes = .ok app') : Effect k 0 app app' := by
  by_cases hregion : region = 0
  · rw [pRealloc, if_pos hregion] at hok
    cases hok
    exact .refl _
  · obtain ⟨it, buffer, fp, fp₁, m₁, m₂, m₃, m₄, st₁, st₂, c, -, rfl⟩ := pRealloc_eq_ok hok hregion
    have hgrow : Effect k 0 app { app with pcb := app.pcb.modify k fun p => p.move buffer } :=
      .grow (fun p => p.move buffer) (fun _ => rfl) rfl rfl rfl rfl
    exact hgrow.after (.note (.release region (decide (st₁.mem.IsLive region))) trivial rfl rfl)

/-- The time to run is counted down, and the quantum. -/
theorem sliced_effect (app : App) : Effect k 1 app (app.sliced k) := by
  have hrun : Effect k 0 app
      { app with pcb := app.pcb.modify k fun p => { p with timeToRun := 0 } } :=
    .mark k (fun p => { p with timeToRun := 0 }) (fun _ => rfl) rfl rfl
  refine hrun.after (.quantum ?_ rfl)
  dsimp only
  rw [PCB.modify_modify]
  rfl

/-- A time slice counts one quantum. -/
theorem execSlice_effect {done : Bool} (hok : execSlice app k = .ok (done, app')) :
    Effect k 1 app app' := by
  rcases (execSlice_eq_ok hok).2 with rfl | ⟨-, n, bytes, app₁, hrealloc, rfl⟩
  · exact sliced_effect app
  · have hentry : Effect k 0 (app.sliced k) { app.sliced k with pcb.pcbS := n } := .rest rfl rfl
    have hexit : Effect k 0 app₁ { app₁ with pcb.pcbS := app₁.pcb.pcbS + 1 } := .rest rfl rfl
    exact (sliced_effect app).before (hentry.after ((pRealloc_effect hrealloc).after hexit))

theorem execDisk_effect {p : Process} {c : Instruction} (hok : execDisk app p c = .ok app') :
    Effect k 0 app app' := by
  obtain ⟨rw, -, hok⟩ := Except.bind_eq_ok.mp hok
  obtain ⟨app₁, hcount, hok⟩ := Except.bind_eq_ok.mp hok
  have h₁ : Effect k 0 app app₁ := by
    refine inCpu_effect (fun {a a'} hrun => ?_) hcount
    cases hrun
    exact .of_eq rfl rfl
  exact h₁.after (execSysCall_effect (by decide) (by decide) hok)

/-- A case that makes a system call is done after it. -/
theorem done_effect {r : Except Stop App} {done : Bool} {c : Instruction}
    (hc : c.e ≠ .processExec) (hr : ∀ {a}, r = .ok a → Effect k 0 app a)
    (hok : (r >>= fun a => .ok (true, a)) = .ok (done, app')) :
    Effect k (if c.e = .processExec then 1 else 0) app app' := by
  obtain ⟨a, hrun, hok⟩ := Except.bind_eq_ok.mp hok
  cases hok
  rw [if_neg hc]
  exact hr hrun

/-- The quanta an instruction takes. -/
def Instruction.quanta (c : Instruction) : Nat := if c.e = .processExec then 1 else 0

theorem dispatch_effect {c : Instruction} {done : Bool}
    (hok : dispatch app k c = .ok (done, app')) : Effect k c.quanta app app' := by
  unfold dispatch at hok
  dsimp only at hok
  unfold Instruction.quanta
  split at hok
  · rename_i he
    exact done_effect (by simp [he]) (execSysCall_effect (by decide) (by decide)) hok
  · rename_i he
    exact done_effect (by simp [he]) (execSysCall_effect (by decide) (by decide)) hok
  · rename_i he
    rw [if_pos he]
    exact execSlice_effect hok
  · rename_i he
    exact done_effect (by simp [he]) execDisk_effect hok
  · rename_i he
    exact done_effect (by simp [he]) (execSysCall_effect (by decide) (by decide)) hok
  · rename_i _ _ hexec _ _
    cases hok
    rw [if_neg hexec]
    exact .refl _

end Calls

end ChicOS
