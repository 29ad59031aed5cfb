-- SUMMARY: The time of an exec instruction over the selections of its process: what each slice takes, and when the program goes on.
import ChicOS.Lib.Countdown
import ChicOS.Lib.Run
import ChicOS.Cpu.Others

/-!
# CPU time

A process is selected again and again, and others run in between. An exec instruction
is over when the slices have taken all its time, and the program after it is as it was
loaded.
-/

namespace ChicOS

/-- The state, the slot of the process, and the `l_time` of each of its selections. -/
structure ExecRun where
  app : App
  slot : Fin MAX_PCB
  slices : List UInt32

inductive ExecEvent where
  /-- `scheduler_get_process` selects the process, and `exec_process` runs it. -/
  | select
  /-- Others run, and the process is in this slot afterwards. -/
  | other (app : App) (slot : Fin MAX_PCB)

namespace ExecRun

/-- One event. A selection of another process is none of this one. -/
def step (s : ExecRun) : ExecEvent → Except (Option Stop) ExecRun
  | .select =>
    match schedulerGetProcess s.app with
    | .error e => .error (some e)
    | .ok (selected, app) =>
      if selected = some s.slot then
        match execProcess app s.slot with
        | .error e => .error (some e)
        | .ok app' => .ok { s with app := app', slices := s.slices ++ [app.lTime s.slot] }
      else .error none
  | .other app slot => .ok { s with app := app, slot := slot }

/-- The process is at the instruction when it is selected, and the blocks that its growth
is given are fresh; others leave it what is its own. -/
def Admits (pc : UInt32) (length : Nat) (s : ExecRun) : ExecEvent → Prop
  | .select => (s.app.pcb.slot s.slot).c.pc = pc ∧
      ∀ t, s.step .select = .ok t → s.app.mem.FreshSince t.app.mem
  | .other app slot => Apart length s.app s.slot app slot

theorem step_select_eq_ok {s t : ExecRun} (h : s.step .select = .ok t) :
    ∃ app₁ app', schedulerGetProcess s.app = .ok (some s.slot, app₁) ∧
      execProcess app₁ s.slot = .ok app' ∧
      t = { s with app := app', slices := s.slices ++ [app₁.lTime s.slot] } := by
  rw [step] at h
  split at h
  · cases h
  rename_i selected app₁ hselect
  split at h
  · rename_i hslot
    subst hslot
    split at h
    · cases h
    · rename_i app' hexec
      cases h
      exact ⟨app₁, app', hselect, hexec, rfl⟩
  · cases h

/-- The instruction's entry in the code of the process. -/
def current (s : ExecRun) (pc : UInt32) : Instruction := s.app.entry s.slot pc.toNat

/-- Where an instruction of this time stands in its rounds. -/
structure Counting (total : Nat) (prog : Program) (pc : UInt32) (s : ExecRun) : Prop where
  holds : Holds s.app s.slot prog pc.toNat
  exec : (s.current pc).e = .processExec
  slices : s.slices.map UInt32.toNat = Countdown.parts total TIME_SLICE.toNat s.slices.length
  left : (s.current pc).remainingTime.toNat
    = Countdown.left total TIME_SLICE.toNat s.slices.length
  rounds : s.slices.length ≤ Countdown.rounds total TIME_SLICE.toNat
  pc : (s.app.pcb.slot s.slot).c.pc
    = if s.slices.length = Countdown.rounds total TIME_SLICE.toNat then pc + 1 else pc

variable {s t : ExecRun} {total : Nat} {prog : Program} {pc : UInt32}

theorem ne_add_one (n : UInt32) : n ≠ n + 1 := by
  intro hself
  have hnat := congrArg UInt32.toNat hself
  rw [UInt32.toNat_add, UInt32.toNat_one] at hnat
  omega

/-- A selection is a round. -/
theorem Counting.select (h : s.Counting total prog pc) (hpc : pc ≠ UInt32.ofNat prog.commands.length)
    (hat : (s.app.pcb.slot s.slot).c.pc = pc)
    (hfresh : s.app.mem.FreshSince t.app.mem) (hstep : s.step .select = .ok t) :
    t.Counting total prog pc := by
  obtain ⟨app₁, app', hselect, hok, rfl⟩ := step_select_eq_ok hstep
  subst hat
  have hnot : s.slices.length ≠ Countdown.rounds total TIME_SLICE.toNat := fun heq => by
    have hself := h.pc
    rw [if_pos heq] at hself
    exact ne_add_one _ hself
  have hround := Nat.lt_of_le_of_ne h.rounds hnot
  have hend : (s.app.pcb.slot s.slot).c.pc ≠ (s.app.pcb.slot s.slot).c.last := h.holds.last ▸ hpc
  obtain ⟨htime, hentry, hmoved, hholds⟩ := selection_takes h.holds h.exec hend hselect hok hfresh
  have hleft : (s.app.next s.slot).remainingTime.toNat
      = Countdown.left total TIME_SLICE.toNat s.slices.length := h.left
  have hpart : (app₁.lTime s.slot).toNat
      = Countdown.part total TIME_SLICE.toNat s.slices.length := by
    rw [htime, hleft]
    rfl
  have hrest : ((s.app.next s.slot).remainingTime - app₁.lTime s.slot).toNat
      = Countdown.left total TIME_SLICE.toNat (s.slices.length + 1) := by
    have hle : app₁.lTime s.slot ≤ (s.app.next s.slot).remainingTime := by
      rw [UInt32.le_iff_toNat_le, htime]
      exact Nat.min_le_left _ _
    rw [UInt32.toNat_sub_of_le _ _ hle, hleft, hpart, ← Countdown.part_add_left, Nat.add_sub_cancel_left]
  have hdone : (s.app.next s.slot).remainingTime - app₁.lTime s.slot = 0
      ↔ s.slices.length + 1 = Countdown.rounds total TIME_SLICE.toNat := by
    rw [← UInt32.toNat_inj, hrest]
    exact Countdown.left_succ_eq_zero_iff (by decide) hround
  constructor
  case holds => exact hholds
  case exec => exact (congrArg Instruction.e hentry).trans h.exec
  case slices =>
    simp only [List.map_append, List.length_append, List.map_singleton, List.length_singleton]
    rw [h.slices, hpart, Countdown.parts_succ]
  case left =>
    simp only [List.length_append, List.length_singleton]
    exact (congrArg (fun c => c.remainingTime.toNat) hentry).trans hrest
  case rounds =>
    simp only [List.length_append, List.length_singleton]
    exact hround
  case pc =>
    simp only [List.length_append, List.length_singleton]
    exact hmoved.trans (if_congr hdone rfl rfl)

/-- The step lemma. -/
theorem Counting.step {e : ExecEvent} (h : s.Counting total prog pc)
    (hpc : pc.toNat < prog.commands.length) (hlast : pc ≠ UInt32.ofNat prog.commands.length)
    (hadmits : s.Admits pc prog.commands.length e) (hstep : s.step e = .ok t) :
    t.Counting total prog pc := by
  cases e with
  | select => exact h.select hlast hadmits.1 (hadmits.2 t hstep) hstep
  | other app slot =>
      cases hstep
      have hcurrent : app.entry slot pc.toNat = s.current pc := hadmits.entry _ hpc
      constructor
      case holds => exact h.holds.apart hadmits
      case exec => exact (congrArg Instruction.e hcurrent).trans h.exec
      case slices => exact h.slices
      case left =>
        exact (congrArg (fun c => c.remainingTime.toNat) hcurrent).trans h.left
      case rounds => exact h.rounds
      case pc => exact (congrArg CodeSection.pc hadmits.c).trans h.pc

/-- What the selections of a process have done to the instruction it was at. -/
structure Conserved (pc : UInt32) (s t : ExecRun) : Prop where
  /-- Each slice took what was left, or a whole slice. -/
  slices : ∀ (n : Nat) (h : n < t.slices.length), t.slices[n].toNat
    = min ((s.current pc).remainingTime.toNat - n * TIME_SLICE.toNat) TIME_SLICE.toNat
  /-- They add up to what is no longer left. -/
  conserved : (t.slices.map UInt32.toNat).sum + (t.current pc).remainingTime.toNat
    = (s.current pc).remainingTime.toNat
  rounds : t.slices.length ≤ max 1 ((s.current pc).remainingTime.toNat ⌈/⌉ TIME_SLICE.toNat)
  /-- The program goes on after the last round, when nothing is left. -/
  moved : (t.app.pcb.slot t.slot).c.pc
    = if t.slices.length = max 1 ((s.current pc).remainingTime.toNat ⌈/⌉ TIME_SLICE.toNat)
      then pc + 1 else pc
  done : (t.app.pcb.slot t.slot).c.pc = pc + 1 ↔
    t.slices ≠ [] ∧ (t.current pc).remainingTime = 0
  /-- The instructions after it are as they were. -/
  later : ∀ i, pc.toNat < i → i < (s.app.pcb.slot s.slot).c.last.toNat →
    (s.app.entry s.slot i).Same (t.app.entry t.slot i)

/-- Before the first selection. -/
theorem Counting.start (hholds : Holds s.app s.slot prog (s.app.pcb.slot s.slot).c.pc.toNat)
    (hexec : (s.app.next s.slot).e = .processExec) (hslices : s.slices = []) :
    s.Counting (s.app.next s.slot).remainingTime.toNat prog (s.app.pcb.slot s.slot).c.pc where
  holds := hholds
  exec := hexec
  slices := by rw [hslices]; rfl
  left := by rw [hslices, List.length_nil, Countdown.left_zero]; rfl
  rounds := by rw [hslices]; exact Nat.zero_le _
  pc := by
    have hnot : ¬ s.slices.length
        = Countdown.rounds (s.app.next s.slot).remainingTime.toNat TIME_SLICE.toNat := by
      rw [hslices, List.length_nil]
      exact Nat.ne_of_lt (Nat.le_max_left _ _)
    rw [if_neg hnot]

/-- What the rounds so far say. -/
theorem Counting.conserved (hs : Holds s.app s.slot prog pc.toNat)
    (h : t.Counting (s.current pc).remainingTime.toNat prog pc) : Conserved pc s t := by
  constructor
  case slices =>
    intro n hn
    have hget := congrArg (·[n]?) h.slices
    simpa [Countdown.parts, Countdown.part, Countdown.left, hn] using hget
  case conserved =>
    rw [h.slices, h.left]
    exact Countdown.sum_parts_add_left
  case rounds => exact h.rounds
  case moved => exact h.pc
  case done =>
    have hzero : (t.current pc).remainingTime = 0 ↔ Countdown.left
        (s.current pc).remainingTime.toNat TIME_SLICE.toNat t.slices.length = 0 := by
      rw [← UInt32.toNat_inj, h.left]
      rfl
    rw [h.pc, hzero, ne_eq, ← List.length_eq_zero_iff, ← ne_eq, ← Countdown.eq_rounds_iff (by decide) h.rounds]
    split
    · rename_i hend
      exact iff_of_true rfl hend
    · rename_i hend
      exact iff_of_false (ne_add_one pc) hend
  case later => exact fun i hi hlast => hs.later_same h.holds hi hlast

end ExecRun

open ExecRun

/-- CPU time is conserved: over the selections of a process at an exec instruction, each
slice takes the smaller of what is left and a whole slice, until nothing is left and the
program goes on with the next instruction, which is as it was loaded. -/
theorem cpu_time {s t : ExecRun} {prog : Program} {es : List ExecEvent}
    (hholds : Holds s.app s.slot prog (s.app.pcb.slot s.slot).c.pc.toNat)
    (hlast : (s.app.pcb.slot s.slot).c.pc < (s.app.pcb.slot s.slot).c.last)
    (hexec : (s.app.next s.slot).e = .processExec) (hslices : s.slices = [])
    (hadmits : Run.Meets ExecRun.step (Admits (s.app.pcb.slot s.slot).c.pc prog.commands.length) s es)
    (hrun : Run.run ExecRun.step s es = .ok t) : Conserved (s.app.pcb.slot s.slot).c.pc s t := by
  have hpc := hholds.lt_length (UInt32.lt_iff_toNat_lt.mp hlast)
  have hne : (s.app.pcb.slot s.slot).c.pc ≠ UInt32.ofNat prog.commands.length := by
    rw [← hholds.last]
    exact UInt32.ne_of_lt hlast
  have hstart := Counting.start hholds hexec hslices
  exact (Run.run_invariant _ (fun h hg hstep => h.step hpc hne hg hstep) hstart hadmits hrun).conserved
    hholds

/-! ## A run of two slices -/

/-- A machine of 64 pages with a program whose first instruction takes two slices. -/
def App.twoSlices : App :=
  { App.zero Heap.zero (oneProgram "a 1 1 1\n\n\nexec 1500\nV(s)\n") with
    mem := initMem (fun _ => 0) 65536
    pcb := initPcb PCB.zero
    cpu := { quantumTime := 0, cpuS := 1 } }

instance Block.decidableFits (b : Block) (n : Nat) : Decidable (b.Fits n) :=
  inferInstanceAs (Decidable (_ ∧ _))

/-- The process of the machine is at its first instruction, with the program in memory. -/
def App.AtStart (app : App) (prog : Program) : Prop :=
  (∃ b ∈ app.mem.live, b.ptr = (app.pcb.slot 0).addressSpace ∧ b.Fits prog.commands.length) ∧
    (app.pcb.slot 0).c.pc = 0 ∧ (app.pcb.slot 0).c.last = 2 ∧ (app.next 0).e = .processExec ∧
    (app.next 0).remainingTime = 1500

instance App.decidableAtStart (app : App) (prog : Program) : Decidable (app.AtStart prog) :=
  inferInstanceAs (Decidable (_ ∧ _))

theorem cpu_time_1500 :
    ∃ s t : ExecRun, (s.app.next s.slot).remainingTime = 1500 ∧ t.slices = [1000, 500] ∧
      Conserved (s.app.pcb.slot s.slot).c.pc s t := by
  have hrun : ((pCreate App.twoSlices (ascii "a")).toOption.bind fun r =>
      (App.twoSlices.fs (ascii "a")).bind fun data => (programOf data).toOption.bind fun prog =>
      (ExecRun.step ⟨r.2, 0, []⟩ .select).toOption.bind fun t =>
      (schedulerNoRunning t.app).toOption.bind fun app =>
      (ExecRun.step ⟨app, 0, t.slices⟩ .select).toOption.map fun u =>
        decide (r.2.AtStart prog ∧ r.2.mem.FreshSince t.app.mem ∧ t.slot = 0 ∧
          (app.pcb.slot 0).c.pc = 0 ∧ app.mem.FreshSince u.app.mem ∧ u.slices = [1000, 500]))
      = some true := by
    decide +kernel
  obtain ⟨⟨pid, app⟩, hcreate, hrun⟩ := Option.bind_eq_some_iff.mp hrun
  obtain ⟨data, hdata, hrun⟩ := Option.bind_eq_some_iff.mp hrun
  obtain ⟨prog, hprog, hrun⟩ := Option.bind_eq_some_iff.mp hrun
  obtain ⟨t, hfirst, hrun⟩ := Option.bind_eq_some_iff.mp hrun
  obtain ⟨app₁, hdemote, hrun⟩ := Option.bind_eq_some_iff.mp hrun
  obtain ⟨u, hsecond, hfacts⟩ := Option.map_eq_some_iff.mp hrun
  obtain ⟨⟨hspace, hpc, hlast, hexec, htime⟩, hfresh, hslot, hpc₁, hfresh₁, hslices⟩ :=
    of_decide_eq_true hfacts
  have hfirst := Except.toOption_eq_ok.mp hfirst
  have hdemote := Except.toOption_eq_ok.mp hdemote
  have hsecond := Except.toOption_eq_ok.mp hsecond
  obtain ⟨data', prog', hdata', hprog', hholds⟩ :=
    Holds.of_pCreate (Except.toOption_eq_ok.mp hcreate) (by decide)
  cases hdata.symm.trans hdata'
  cases (Except.toOption_eq_ok.mp hprog).symm.trans hprog'
  have hholds : Holds app 0 prog (app.pcb.slot 0).c.pc.toNat := by
    rw [hpc]
    exact hholds hspace
  obtain ⟨tapp, tslot, tslices⟩ := t
  subst hslot
  have hother : Apart prog.commands.length tapp 0 app₁ 0 := (noRunning_apart hdemote).1
  have hadmits : Run.Meets ExecRun.step (Admits (app.pcb.slot 0).c.pc prog.commands.length)
      ⟨app, 0, []⟩ [.select, .other app₁ 0, .select] := by
    refine .cons_of_ok ⟨rfl, fun v hv => ?_⟩ hfirst (.cons_of_ok hother rfl
      (.cons_of_ok ⟨hpc₁.trans hpc.symm, fun v hv => ?_⟩ hsecond Run.meets_nil))
    · cases hfirst.symm.trans hv
      exact hfresh
    · cases hsecond.symm.trans hv
      exact hfresh₁
  have hlt : (app.pcb.slot 0).c.pc < (app.pcb.slot 0).c.last := by
    rw [hpc, hlast]
    decide
  refine ⟨⟨app, 0, []⟩, u, htime, hslices, cpu_time hholds hlt hexec rfl hadmits ?_⟩
  exact Run.run_cons_eq_ok.mpr ⟨_, hfirst, Run.run_cons_eq_ok.mpr ⟨_, rfl,
    Run.run_cons_eq_ok.mpr ⟨_, hsecond, rfl⟩⟩⟩

end ChicOS
