-- SUMMARY: The turns of others leave a process what is its own: the scheduler, the calls that change a status, and the slices of another process.
import ChicOS.Cpu.Slice
import ChicOS.Custody.Slots

/-!
# The turns of others

The scheduler moves a process to another slot at most, and a status change leaves its
code alone. The slice of another process writes to the entry that this one is at, and
its growth to fresh blocks.
-/

namespace ChicOS

/-! ## The scheduler -/

section Scheduler

variable {app app' : App} {k : Fin MAX_PCB} {n : Nat}

/-- A change of what is not the code of a process. -/
theorem Apart.modify {f : Process → Process} {i : Fin MAX_PCB}
    (hf : ∀ p, (f p).c = p.c ∧ (f p).fb = p.fb ∧ (f p).addressSpace = p.addressSpace) :
    Apart n app k { app with pcb := app.pcb.modify i f } k := by
  obtain ⟨hc, hfb, hspace⟩ := hf (app.pcb.slot i)
  exact .of_slot rfl rfl (PCB.slot_modify_congr _ _ _ Process.c hc)
    (PCB.slot_modify_congr _ _ _ Process.fb hfb)
    (PCB.slot_modify_congr _ _ _ Process.addressSpace hspace)

theorem pUpdate_apart {f : Process → Process} {pid : UInt32} (hok : pUpdate app pid f = .ok app')
    (hf : ∀ p, (f p).c = p.c ∧ (f p).fb = p.fb ∧ (f p).addressSpace = p.addressSpace) :
    Apart n app k app' k := by
  obtain ⟨i, -, -, rfl⟩ := pUpdate_eq_ok hok
  exact .modify hf

theorem noRunning_apart (hok : schedulerNoRunning app = .ok app') :
    Apart n app k app' k ∧ ((app'.pcb.slot k).status = .kill → (app.pcb.slot k).status = .kill) := by
  refine forSlots_induct (fun app₁ => Apart n app k app₁ k ∧
    ((app₁.pcb.slot k).status = .kill → (app.pcb.slot k).status = .kill)) ?_ ⟨.refl, id⟩ hok
  rintro app₁ app₂ i - ⟨hapart, hdead⟩ hbody
  rcases noRunningBody_eq_ok hbody with ⟨-, rfl⟩ | ⟨-, rfl⟩
  · exact ⟨hapart, hdead⟩
  · refine ⟨hapart.trans (.modify fun _ => ⟨rfl, rfl, rfl⟩), fun hkill => hdead ?_⟩
    rw [PCB.slot_modify] at hkill
    split at hkill
    · cases hkill
    · exact hkill

/-- A process that is not dead survives the reaping, in this slot or in one before it. -/
theorem killProcess_apart (hok : schedulerKillProcess app = .ok app')
    (halive : (app.pcb.slot k).status ≠ .kill) :
    ∃ k', Apart n app k app' k' ∧ (app'.pcb.slot k').status ≠ .kill := by
  refine forSlots_induct (fun app₁ => ∃ k', Apart n app k app₁ k' ∧
    (app₁.pcb.slot k').status ≠ .kill) ?_ ⟨k, .refl, halive⟩ hok
  rintro app₁ app₂ i - ⟨k', hapart, halive'⟩ hbody
  rcases killBody_eq_ok hbody with ⟨-, rfl⟩ | ⟨hdead, rfl⟩
  · exact ⟨k', hapart, halive'⟩
  · have hne : i ≠ k' := fun heq => halive' (heq ▸ hdead)
    obtain ⟨k'', hk''⟩ := PCB.exists_shiftFrom hne
    have hslot : ({ app₁.pcb.shift i with last := app₁.pcb.last - 1 } : PCB).slot k''
        = app₁.pcb.slot k' := by
      rw [← hk'']
      exact PCB.slot_shift_from app₁.pcb i k''
    refine ⟨k'', hapart.trans (.of_slot rfl rfl ?_ ?_ ?_), ?_⟩
    · rw [hslot]
    · rw [hslot]
    · rw [hslot]
    · rw [hslot]
      exact halive'

theorem getProcess_apart {r : Option (Fin MAX_PCB)} (hok : schedulerGetProcess app = .ok (r, app')) :
    Apart n app k app' k := by
  rcases schedulerGetProcess_eq_ok hok with ⟨-, rfl⟩ | ⟨i, -, -, -, -, rfl⟩
  · exact .refl
  · exact .modify fun _ => ⟨rfl, rfl, rfl⟩

/-- The start of a turn of `cpu_loop`. -/
theorem schedule_apart {r : Option (Fin MAX_PCB)} (hok : schedule app = .ok (r, app'))
    (halive : (app.pcb.slot k).status ≠ .kill) : ∃ k', Apart n app k app' k' := by
  obtain ⟨app₁, hdemote, hok⟩ := Except.bind_eq_ok.mp hok
  obtain ⟨app₂, hreap, hget⟩ := Except.bind_eq_ok.mp hok
  have hclock : Apart n app k { app with cpu.quantumTime := app.cpu.quantumTime + 1 } k :=
    .of_slot rfl rfl rfl rfl rfl
  obtain ⟨hapart, hdead⟩ := noRunning_apart (n := n) (k := k) hdemote
  obtain ⟨k', hreaped, -⟩ := killProcess_apart (n := n) hreap fun hkill => halive (hdead hkill)
  exact ⟨k', ((hclock.trans hapart).trans hreaped).trans (getProcess_apart hget)⟩

end Scheduler

/-! ## Another process -/

/-- Two processes with two files, in two blocks. -/
structure Separate (app : App) (j k : Fin MAX_PCB) : Prop where
  slot : j ≠ k
  fb : (app.pcb.slot j).fb ≠ (app.pcb.slot k).fb
  blocks : ∀ b ∈ app.mem.live, ∀ c ∈ app.mem.live, b.ptr = (app.pcb.slot j).addressSpace →
    c.ptr = (app.pcb.slot k).addressSpace → Disjoint b.range c.range

section Another

variable {app app' : App} {j k : Fin MAX_PCB} {progj prog : Program} {pc : Nat}

/-- The entry that another process is at is none of this one. -/
theorem Holds.sliced_apart (hj : Holds app j progj (app.pcb.slot j).c.pc.toNat)
    (hpc : (app.pcb.slot j).c.pc.toNat < progj.commands.length) (hk : Holds app k prog pc)
    (hseparate : Separate app j k) : Apart prog.commands.length app k (app.sliced j) k := by
  have hslot : (app.sliced j).pcb.slot k = app.pcb.slot k :=
    PCB.slot_modify_ne app.pcb _ hseparate.slot
  obtain ⟨b, hb, hbptr, hbfits⟩ := hj.space
  obtain ⟨c, hc, hcptr, hcfits⟩ := hk.space
  have hdisjoint := hseparate.blocks b hb c hc hbptr hcptr
  constructor
  case c => rw [hslot]
  case fb => rw [hslot]
  case addressSpace => rw [hslot]
  case file => rfl
  case entry =>
    intro i hi
    rw [App.entry, hslot]
    refine Function.update_of_ne ?_ _ _
    rw [hj.it, hk.it, ← hbptr, ← hcptr]
    exact hbfits.ne hcfits hdisjoint hpc hi
  case live => exact fun _ hb _ => hb

/-- Nor are the entries that its growth writes. -/
theorem Holds.growth_apart {bytes : UInt32} (hj : Holds app j progj (app.pcb.slot j).c.pc.toNat)
    (hpc : (app.pcb.slot j).c.pc.toNat < progj.commands.length) (hk : Holds app k prog pc)
    (hseparate : Separate app j k) (hfresh : app.mem.FreshSince app'.mem)
    (hok : pRealloc app j (app.pcb.slot j).addressSpace bytes = .ok app') :
    Apart prog.commands.length app k app' k := by
  obtain ⟨r, hr, hrptr, hrfits⟩ := hj.space
  obtain ⟨c, hc, hcptr, hcfits⟩ := hk.space
  have hregion : (app.pcb.slot j).addressSpace ≠ 0 := by
    rw [← hrptr]
    exact Memory.ptr_ne_zero r
  have hne : c.ptr ≠ (app.pcb.slot j).addressSpace := by
    rw [← hrptr]
    exact (Memory.ptr_ne_of_disjoint hrfits.1 hcfits.1 (hseparate.blocks r hr c hc hrptr hcptr)).symm
  obtain ⟨it, buffer, fp, fp₁, m₁, m₂, m₃, m₄, st₁, st₂, code, hgrown, rfl⟩ :=
    pRealloc_eq_ok hok hregion
  obtain ⟨b, s, hbptr, hbpages, hsptr, hspages, -, -, hroom, hothers⟩ := hgrown.blocks hj.block hfresh
  obtain ⟨hbc, hsc, hc₃⟩ := hothers c hc hne
  obtain ⟨fp₀, hfp₀, hprog⟩ := hj.file
  cases hgrown.file.symm.trans hfp₀
  have hreloaded := hgrown.reloaded hprog
  have hbfits : b.Fits progj.commands.length := .of_header hbpages hroom hreloaded.fits
  have hslot : (app.grown j (app.pcb.slot j).addressSpace it buffer m₄ st₁ st₂).pcb.slot k
      = app.pcb.slot k := PCB.slot_modify_ne app.pcb _ hseparate.slot
  constructor
  case c => rw [hslot]
  case fb => rw [hslot]
  case addressSpace => rw [hslot]
  case file => exact congrArg SyntBuffer.fp (hgrown.buffers hseparate.fb.symm)
  case entry =>
    intro i hi
    -- what the growth writes is in the two blocks that it was given
    have hnew : ∀ l < progj.commands.length,
        entryAddr (app.pcb.slot k).c.it i ≠ entryAddr buffer l := by
      intro l hl
      rw [hk.it, ← hcptr, ← hbptr]
      exact hbfits.ne hcfits hbc hl hi
    have hscratch : entryAddr (app.pcb.slot k).c.it i ≠ it := by
      rw [hk.it, ← hcptr, ← hsptr, ← entryAddr_zero s.ptr]
      exact (Block.Fits.one hspages).ne hcfits hsc Nat.zero_lt_one hi
    rw [App.entry, hslot]
    refine (Function.update_of_ne (hnew _ hpc) _ _).trans ?_
    rw [hreloaded.others _ hnew, readHeader_instructions hgrown.header]
    exact Function.update_of_ne hscratch _ _
  case live =>
    intro d hd hdptr
    have hdne : d.ptr ≠ (app.pcb.slot j).addressSpace := by
      rw [hdptr, ← hcptr]
      exact hne
    obtain ⟨-, hsd, hd₃⟩ := hothers d hd hdne
    refine Memory.cDealloc_live_of_ne hgrown.scratch_free hd₃ fun heq => ?_
    rw [hdptr, ← hcptr, ← hsptr] at heq
    exact Memory.ptr_ne_of_disjoint hspages hcfits.1 hsc heq.symm

/-- The slice of another process. -/
theorem Holds.slice_apart {done : Bool} (hj : Holds app j progj (app.pcb.slot j).c.pc.toNat)
    (hpc : (app.pcb.slot j).c.pc.toNat < progj.commands.length) (hk : Holds app k prog pc)
    (hseparate : Separate app j k) (hfresh : app.mem.FreshSince app'.mem)
    (hok : execSlice app j = .ok (done, app')) : Apart prog.commands.length app k app' k := by
  have hapart := hj.sliced_apart hpc hk hseparate
  rcases (execSlice_eq_ok hok).2 with rfl | ⟨-, n, bytes, app₁, hgrow, rfl⟩
  · exact hapart
  · have hslot : (app.sliced j).pcb.slot k = app.pcb.slot k :=
      PCB.slot_modify_ne app.pcb _ hseparate.slot
    have hself : (app.sliced j).pcb.slot j = _ := App.sliced_slot
    have hlocked : Apart prog.commands.length app k { app.sliced j with pcb.pcbS := n } k :=
      hapart.trans (.of_slot rfl rfl rfl rfl rfl)
    have hj' : Holds { app.sliced j with pcb.pcbS := n } j progj
        ((app.sliced j).pcb.slot j).c.pc.toNat := by
      rw [hself]
      exact hj.sliced.apart (.of_slot rfl rfl rfl rfl rfl)
    have hseparate' : Separate { app.sliced j with pcb.pcbS := n } j k := by
      refine ⟨hseparate.slot, ?_, ?_⟩
      · show ((app.sliced j).pcb.slot j).fb ≠ ((app.sliced j).pcb.slot k).fb
        rw [hself, hslot]
        exact hseparate.fb
      · show ∀ b ∈ app.mem.live, ∀ c ∈ app.mem.live,
          b.ptr = ((app.sliced j).pcb.slot j).addressSpace →
          c.ptr = ((app.sliced j).pcb.slot k).addressSpace → Disjoint b.range c.range
        rw [hself, hslot]
        exact hseparate.blocks
    have hpc' : ((app.sliced j).pcb.slot j).c.pc.toNat < progj.commands.length := by
      rw [hself]
      exact hpc
    have hspace : ((app.sliced j).pcb.slot j).addressSpace = (app.pcb.slot j).addressSpace := by
      rw [hself]
    rw [← hspace] at hgrow
    have hfresh : (app.sliced j).mem.FreshSince app₁.mem := hfresh
    have hgrown := hj'.growth_apart hpc' (hk.apart hlocked) hseparate' hfresh hgrow
    exact (hlocked.trans hgrown).trans (.of_slot rfl rfl rfl rfl rfl)

/-- A turn of another process at an exec instruction, from its selection on. -/
theorem Holds.execProcess_apart (hj : Holds app j progj (app.pcb.slot j).c.pc.toNat)
    (hpc : (app.pcb.slot j).c.pc < (app.pcb.slot j).c.last) (hexec : (app.next j).e = .processExec)
    (htime : (app.pcb.slot j).timeToRun ≠ 0) (hk : Holds app k prog pc)
    (hseparate : Separate app j k) (hfresh : app.mem.FreshSince app'.mem)
    (hok : execProcess app j = .ok app') : Apart prog.commands.length app k app' k := by
  have hlength := hj.lt_length (UInt32.lt_iff_toNat_lt.mp hpc)
  obtain ⟨e, app₁, hslice, rfl⟩ := execProcess_exec hexec htime (UInt32.ne_of_lt hpc) hok
  have hnoted : Apart prog.commands.length app k (app.note e) k := .of_slot rfl rfl rfl rfl rfl
  have hj' : Holds (app.note e) j progj (app.pcb.slot j).c.pc.toNat :=
    hj.apart (.of_slot rfl rfl rfl rfl rfl)
  have hseparate' : Separate (app.note e) j k :=
    ⟨hseparate.slot, hseparate.fb, hseparate.blocks⟩
  have hfresh : (app.note e).mem.FreshSince app₁.mem := hfresh
  have hsliced := hj'.slice_apart hlength (hk.apart hnoted) hseparate' hfresh hslice
  have hslot := PCB.slot_modify_ne app₁.pcb (fun p =>
    { p with c.pc := if (app₁.next j).remainingTime = 0 then p.c.pc + 1 else p.c.pc }) hseparate.slot
  refine (hnoted.trans hsliced).trans (.of_slot rfl rfl ?_ ?_ ?_)
  · exact congrArg Process.c hslot
  · exact congrArg Process.fb hslot
  · exact congrArg Process.addressSpace hslot

end Another

end ChicOS
