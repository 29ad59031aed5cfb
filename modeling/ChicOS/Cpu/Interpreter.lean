-- SUMMARY: The interpreter is right: the selections of a process execute its program, each instruction in its turn and for all its time.
import ChicOS.Lib.Rounds
import ChicOS.Cpu.CpuTime

/-!
# Programs and their execution

A program file says what is to be executed: one command after the other, an `exec` in slices
of at most a whole time slice, everything else at once. `Program.trace` is that, read off the
text. `Execution` is what happens: each time the scheduler selects the process, `exec_process`
fetches an instruction from memory and executes it, and others run in between, which may make
the process wait, or move it to another slot. What has been fetched is always a prefix of the
trace, and it is all of it just when the program counter has reached the end.
-/

namespace ChicOS

-- ---------------------------------------------------------------------------
-- What a program says
-- ---------------------------------------------------------------------------

/-- An instruction as it is executed: where it stands, and what is read of it. -/
structure Executed where
  index : Nat
  e : Events
  time : Option UInt32
  semName : Option UInt8
  deriving DecidableEq, Repr

/-- How often a command is executed. -/
def Command.rounds (cmd : Command) : Nat :=
  if cmd.e = .processExec then Countdown.rounds (cmd.time.getD 0).toNat TIME_SLICE.toNat else 1

/-- A command in one of its rounds: of the time of an `exec` the rounds before have taken
theirs. -/
def Command.round (cmd : Command) (i n : Nat) : Executed where
  index := i
  e := cmd.e
  time :=
    if cmd.e.hasTime then
      cmd.time.map fun t => UInt32.ofNat (Countdown.left t.toNat TIME_SLICE.toNat n)
    else none
  semName := if cmd.e.hasSemaphore then cmd.semName else none

namespace Program

/-- The commands with their indices. -/
def jobs (prog : Program) : List ((UInt32 × Command) × Nat) := prog.commands.zipIdx

/-- All a program says is to be executed, in order. -/
def trace (prog : Program) : List Executed :=
  Rounds.all (fun job => job.1.2.rounds) (fun job => job.1.2.round job.2) prog.jobs

theorem jobs_getElem? (prog : Program) (i : Nat) :
    prog.jobs[i]? = prog.commands[i]?.map fun cmd => (cmd, i) := by
  rw [jobs, List.getElem?_zipIdx, Nat.zero_add]

/-- What is executed up to some rounds of a command. -/
def begun (prog : Program) (pc : Nat) (cmd : UInt32 × Command) (n : Nat) : List Executed :=
  Rounds.upTo (fun job => job.1.2.rounds) (fun job => job.1.2.round job.2) prog.jobs pc (cmd, pc) n

section Begun

variable {prog : Program} {pc n : Nat} {cmd : UInt32 × Command}

theorem job (hcmd : prog.commands[pc]? = some cmd) : prog.jobs[pc]? = some (cmd, pc) := by
  rw [jobs_getElem?, hcmd]
  rfl

theorem begun_round : prog.begun pc cmd (n + 1) = prog.begun pc cmd n ++ [cmd.2.round pc n] :=
  Rounds.upTo_round

theorem begun_next (hcmd : prog.commands[pc]? = some cmd) (cmd' : UInt32 × Command) :
    prog.begun (pc + 1) cmd' 0 = prog.begun pc cmd cmd.2.rounds :=
  Rounds.upTo_next (job hcmd) (cmd', pc + 1)

theorem begun_last (hcmd : prog.commands[pc]? = some cmd) (hend : pc + 1 = prog.commands.length) :
    prog.begun pc cmd cmd.2.rounds = prog.trace := by
  have hall : prog.jobs.take (pc + 1) = prog.jobs := by
    refine List.take_of_length_le ?_
    rw [jobs, List.length_zipIdx, hend]
  have hdone : Rounds.all (fun job => job.1.2.rounds) (fun job => job.1.2.round job.2)
      (prog.jobs.take (pc + 1)) = prog.begun pc cmd cmd.2.rounds :=
    Rounds.all_take_succ (job hcmd)
  rw [← hdone, hall]
  rfl

end Begun

end Program

/-- An instruction, as it is fetched. -/
def Instruction.executed (c : Instruction) (i : Nat) : Executed where
  index := i
  e := c.e
  time := if c.e.hasTime then some c.remainingTime else none
  semName := if c.e.hasSemaphore then some c.semName else none

-- ---------------------------------------------------------------------------
-- Instructions that are executed at once
-- ---------------------------------------------------------------------------

section AtOnce

variable {app app' : App} {k : Fin MAX_PCB} {n : Nat} {pid : UInt32} {buffer : List UInt8}

theorem inCpu_apart {f : App → Except Stop App}
    (hf : ∀ {a a'}, f a = .ok a' → Apart n a k a' k) (hok : app.inCpu f = .ok app') :
    Apart n app k app' k := by
  obtain ⟨c, app₁, hrun, rfl⟩ := inCpu_eq_ok hok
  have hentry : Apart n app k { app with cpu.cpuS := c } k := .of_slot rfl rfl rfl rfl rfl
  exact (hentry.trans (hf hrun)).trans (.of_slot rfl rfl rfl rfl rfl)

theorem semaphoreP_apart {s : Option (Fin MAX_SIZE_SEMAPHORES)}
    (hok : semaphoreP app s pid = .ok app') : Apart n app k app' k := by
  cases s with
  | none =>
      cases hok
      exact .refl
  | some i =>
      rcases semaphoreP_eq_ok hok with ⟨-, rfl⟩ | ⟨-, sem, j, -, -, rfl⟩
      · exact .of_slot rfl rfl rfl rfl rfl
      · have hset : Apart n app k (app.setSem i sem) k := .of_slot rfl rfl rfl rfl rfl
        exact hset.trans (.modify fun _ => ⟨rfl, rfl, rfl⟩)

theorem semaphoreV_apart {s : Option (Fin MAX_SIZE_SEMAPHORES)}
    (hok : semaphoreV app s = .ok app') : Apart n app k app' k := by
  cases s with
  | none =>
      cases hok
      exact .refl
  | some i =>
      rcases semaphoreV_eq_ok hok with ⟨-, rfl⟩ | ⟨-, pid, sem, j, -, -, rfl⟩
      · exact .of_slot rfl rfl rfl rfl rfl
      · have hset : Apart n app k (app.setSem i sem) k := .of_slot rfl rfl rfl rfl rfl
        exact hset.trans (.modify fun _ => ⟨rfl, rfl, rfl⟩)

/-- A print request takes a block, and none away. -/
theorem addToPrintQueue_apart {time : UInt32} (hok : addToPrintQueue app time pid = .ok app') :
    Apart n app k app' k := by
  obtain ⟨new, mem, halloc, -, ⟨-, rfl⟩ | ⟨-, -, rfl⟩⟩ := addToPrintQueue_eq_ok hok
  · exact ⟨rfl, rfl, rfl, rfl, fun _ _ => rfl, fun _ hb _ => Memory.cAlloc_live_of_mem halloc hb⟩
  · exact ⟨rfl, rfl, rfl, rfl, fun _ _ => rfl, fun _ hb _ => Memory.cAlloc_live_of_mem halloc hb⟩

/-- The calls an instruction makes. -/
theorem sysCall_apart {e : Events} (hcreate : e ≠ .processCreate) (hkill : e ≠ .processKill)
    (hprint : e ≠ .printFinish) (hok : sysCall app e buffer = .ok app') : Apart n app k app' k := by
  refine inCpu_apart (fun {a a'} hrun => ?_) hok
  cases e with
  | processCreate => exact absurd rfl hcreate
  | processKill => exact absurd rfl hkill
  | printFinish => exact absurd rfl hprint
  | diskRequest =>
      obtain ⟨⟨pid, rest⟩, -, hrun⟩ := Except.bind_eq_ok.mp hrun
      obtain ⟨⟨track, rest'⟩, -, hrun⟩ := Except.bind_eq_ok.mp hrun
      obtain ⟨a₁, hblock, hio⟩ := Except.bind_eq_ok.mp hrun
      obtain ⟨-, qr, -, rfl⟩ := simulateIo_eq_ok hio
      have hblocked : Apart n a k a₁ k := pUpdate_apart hblock fun _ => ⟨rfl, rfl, rfl⟩
      exact hblocked.trans (.of_slot rfl rfl rfl rfl rfl)
  | processInterrupt =>
      obtain ⟨⟨pid, rest⟩, -, hrun⟩ := Except.bind_eq_ok.mp hrun
      exact pUpdate_apart hrun fun _ => ⟨rfl, rfl, rfl⟩
  | memLoadReq => cases hrun
  | semaphoreP =>
      obtain ⟨⟨sem, rest⟩, -, hrun⟩ := Except.bind_eq_ok.mp hrun
      obtain ⟨⟨pid, rest'⟩, -, hrun⟩ := Except.bind_eq_ok.mp hrun
      exact semaphoreP_apart hrun
  | semaphoreV =>
      obtain ⟨⟨sem, rest⟩, -, hrun⟩ := Except.bind_eq_ok.mp hrun
      exact semaphoreV_apart hrun
  | printRequest =>
      obtain ⟨⟨pid, rest⟩, -, hrun⟩ := Except.bind_eq_ok.mp hrun
      obtain ⟨⟨time, rest'⟩, -, hrun⟩ := Except.bind_eq_ok.mp hrun
      exact addToPrintQueue_apart hrun
  | diskFinish | memLoadFinish | processExec =>
      cases hrun
      exact .refl

theorem execSysCall_apart {e : Events} (hcreate : e ≠ .processCreate) (hkill : e ≠ .processKill)
    (hprint : e ≠ .printFinish) (hok : execSysCall app pid e buffer = .ok app') :
    Apart n app k app' k := by
  have hnoted : Apart n app k (app.note (.sysCall pid e)) k := .of_slot rfl rfl rfl rfl rfl
  exact hnoted.trans (sysCall_apart hcreate hkill hprint hok)

/-- The count of disk accesses is in the header. -/
theorem execDisk_apart {p : Process} {c : Instruction} (hok : execDisk app p c = .ok app') :
    Apart n app k app' k := by
  obtain ⟨rw, -, hok⟩ := Except.bind_eq_ok.mp hok
  obtain ⟨app₁, hcount, hok⟩ := Except.bind_eq_ok.mp hok
  have hcounted : Apart n app k app₁ k := by
    refine inCpu_apart (fun {a a'} hrun => ?_) hcount
    cases hrun
    exact ⟨rfl, rfl, rfl, rfl, fun _ _ => rfl, fun _ hb _ => hb⟩
  exact hcounted.trans (execSysCall_apart (by decide) (by decide) (by decide) hok)

/-- An instruction but an `exec` is done at once, and leaves a process what is its own. -/
theorem dispatch_apart {c : Instruction} {done : Bool} (hc : c.e ≠ .processExec)
    (hok : dispatch app k c = .ok (done, app')) : done = true ∧ Apart n app k app' k := by
  have hdone : ∀ {r : Except Stop App}, (∀ {a}, r = .ok a → Apart n app k a k) →
      (r >>= fun a => .ok (true, a)) = .ok (done, app') → done = true ∧ Apart n app k app' k := by
    intro r hr hok
    obtain ⟨a, hrun, hok⟩ := Except.bind_eq_ok.mp hok
    cases hok
    exact ⟨rfl, hr hrun⟩
  unfold dispatch at hok
  dsimp only at hok
  split at hok
  · exact hdone (execSysCall_apart (by decide) (by decide) (by decide)) hok
  · exact hdone (execSysCall_apart (by decide) (by decide) (by decide)) hok
  · rename_i hexec
    exact absurd hexec hc
  · exact hdone execDisk_apart hok
  · exact hdone (execSysCall_apart (by decide) (by decide) (by decide)) hok
  · cases hok
    exact ⟨rfl, .refl⟩

/-- The spec lemma of `exec_process` on an instruction but an `exec`. -/
theorem execProcess_advances {prog : Program} (h : Holds app k prog (app.pcb.slot k).c.pc.toNat)
    (hexec : (app.next k).e ≠ .processExec) (htime : (app.pcb.slot k).timeToRun ≠ 0)
    (hpc : (app.pcb.slot k).c.pc ≠ (app.pcb.slot k).c.last) (hok : execProcess app k = .ok app') :
    (app'.pcb.slot k).c.pc = (app.pcb.slot k).c.pc + 1 ∧
      Holds app' k prog (app.pcb.slot k).c.pc.toNat := by
  unfold execProcess at hok
  dsimp only at hok
  rw [if_neg htime, if_neg hpc, Except.ok_bind_run] at hok
  obtain ⟨c, hfetch, hok⟩ := Except.bind_eq_ok.mp hok
  obtain ⟨-, rfl⟩ := fetch_eq_ok hfetch
  obtain ⟨⟨done, app₁⟩, hdispatch, hok⟩ := Except.bind_eq_ok.mp hok
  obtain ⟨rfl, hapart⟩ := dispatch_apart (n := prog.commands.length) hexec hdispatch
  cases hok
  have hnoted : Apart prog.commands.length app k (app.note (.dispatch (app.pcb.slot k).pid
      (app.pcb.slot k).c.pc (app.pcb.slot k).c.last)) k := .of_slot rfl rfl rfl rfl rfl
  refine ⟨?_, (h.apart (hnoted.trans hapart)).modify fun _ => ⟨rfl, rfl, rfl, rfl⟩⟩
  rw [PCB.slot_modify_self]
  exact congrArg (fun c => c.pc + 1) hapart.c

end AtOnce

-- ---------------------------------------------------------------------------
-- Executions
-- ---------------------------------------------------------------------------

/-- The state, the slot of the process, and what has been fetched for it. -/
structure Execution where
  app : App
  slot : Fin MAX_PCB
  fetched : List Executed

namespace Execution

/-- One event. A selection of another process is none of this one. -/
def step (s : Execution) : ExecEvent → Except (Option Stop) Execution
  | .select =>
    match schedulerGetProcess s.app with
    | .error e => .error (some e)
    | .ok (selected, app) =>
      if selected = some s.slot then
        match execProcess app s.slot with
        | .error e => .error (some e)
        | .ok app' =>
          .ok { s with
            app := app'
            fetched := s.fetched ++ [(app.next s.slot).executed (app.pcb.slot s.slot).c.pc.toNat] }
      else .error none
  | .other app slot => .ok { s with app := app, slot := slot }

/-- The process is selected before its program has ended, and the blocks that its growth is
given are fresh; others leave it what is its own. -/
def Admits (length : Nat) (s : Execution) : ExecEvent → Prop
  | .select => (s.app.pcb.slot s.slot).c.pc ≠ (s.app.pcb.slot s.slot).c.last ∧
      ∀ t, s.step .select = .ok t → s.app.mem.FreshSince t.app.mem
  | .other app slot => Apart length s.app s.slot app slot

theorem step_select_eq_ok {s t : Execution} (h : s.step .select = .ok t) :
    ∃ app₁ app', schedulerGetProcess s.app = .ok (some s.slot, app₁) ∧
      execProcess app₁ s.slot = .ok app' ∧
      t = { s with
        app := app'
        fetched :=
          s.fetched ++ [(app₁.next s.slot).executed (app₁.pcb.slot s.slot).c.pc.toNat] } := by
  rw [step] at h
  split at h
  · cases h
  rename_i selected app₁ hselect
  split at h
  · rename_i hslot
    subst hslot
    split at h
    · cases h
    · rename_i app' hexec
      cases h
      exact ⟨app₁, app', hselect, hexec, rfl⟩
  · cases h

/-- Where an execution stands: so many rounds of a command have been executed, or all the
program. -/
inductive Running (prog : Program) (s : Execution) : Prop
  | working {pc n : Nat} {cmd : UInt32 × Command} (hcmd : prog.commands[pc]? = some cmd)
      (hn : n < cmd.2.rounds) (holds : Holds s.app s.slot prog pc)
      (hpc : (s.app.pcb.slot s.slot).c.pc.toNat = pc)
      (htime : ∀ t, cmd.2.time = some t → (s.app.entry s.slot pc).remainingTime =
        UInt32.ofNat (Countdown.left t.toNat TIME_SLICE.toNat n))
      (hfetched : s.fetched = prog.begun pc cmd n)
  | ended (holds : Holds s.app s.slot prog prog.commands.length)
      (hpc : (s.app.pcb.slot s.slot).c.pc.toNat = prog.commands.length)
      (hfetched : s.fetched = prog.trace)

end Execution

-- ---------------------------------------------------------------------------
-- One instruction
-- ---------------------------------------------------------------------------

theorem Command.rounds_pos (cmd : Command) : 0 < cmd.rounds := by
  unfold Command.rounds
  split
  · exact Nat.lt_of_lt_of_le Nat.one_pos (Nat.le_max_left _ _)
  · exact Nat.one_pos

/-- An entry that carries a command is executed as the command says. -/
theorem Instruction.Carries.executed {c : Instruction} {cmd : UInt32 × Command} {fresh : Prop}
    {i n : Nat} (h : c.Carries cmd fresh) (hcmd : cmd.2.Complete)
    (htime : ∀ t, cmd.2.time = some t →
      c.remainingTime = UInt32.ofNat (Countdown.left t.toNat TIME_SLICE.toNat n)) :
    c.executed i = cmd.2.round i n := by
  have htimes : (if c.e.hasTime then some c.remainingTime else none) =
      (cmd.2.round i n).time := by
    rw [Command.round, h.e]
    by_cases hhas : cmd.2.e.hasTime
    · obtain ⟨t, ht⟩ := Option.isSome_iff_exists.mp (hcmd.1 hhas)
      rw [if_pos hhas, if_pos hhas, htime t ht, ht]
      rfl
    · rw [if_neg hhas, if_neg hhas]
  have hnames : (if c.e.hasSemaphore then some c.semName else none) =
      (cmd.2.round i n).semName := by
    rw [Command.round, h.e]
    by_cases hhas : cmd.2.e.hasSemaphore
    · obtain ⟨s, hs⟩ := Option.isSome_iff_exists.mp (hcmd.2 hhas)
      rw [if_pos hhas, if_pos hhas, h.semName s hs, hs]
    · rw [if_neg hhas, if_neg hhas]
  rw [Instruction.executed, htimes, hnames, h.e]
  rfl

/-- Nothing has been taken from the time of a command yet. -/
theorem Command.left_zero (t : UInt32) :
    UInt32.ofNat (Countdown.left t.toNat TIME_SLICE.toNat 0) = t := by
  rw [Countdown.left_zero, UInt32.ofNat_toNat]

/-- The instruction is over. -/
theorem Holds.next {app : App} {k : Fin MAX_PCB} {prog : Program} {pc : Nat}
    (h : Holds app k prog pc) : Holds app k prog (pc + 1) where
  file := h.file
  last := h.last
  code i hi hle := by
    have hcarries := h.code i hi (Nat.le_of_succ_le hle)
    exact ⟨hcarries.e, hcarries.fpPos, fun _ => hcarries.time (Nat.ne_of_gt hle), hcarries.semName⟩
  it := h.it
  space := h.space

namespace Execution.Running

variable {prog : Program} {s t : Execution}

/-- All rounds of a command have been executed. -/
theorem next {pc : Nat} {cmd : UInt32 × Command} (hcmd : prog.commands[pc]? = some cmd)
    (holds : Holds s.app s.slot prog pc) (hpc : (s.app.pcb.slot s.slot).c.pc.toNat = pc + 1)
    (hfetched : s.fetched = prog.begun pc cmd cmd.2.rounds) : Running prog s := by
  obtain ⟨hlt, -⟩ := List.getElem?_eq_some_iff.mp hcmd
  by_cases hnext : pc + 1 < prog.commands.length
  · refine .working (n := 0) (List.getElem?_eq_getElem hnext) (Command.rounds_pos _) holds.next hpc
      (fun t ht => ?_) ?_
    · rw [Command.left_zero]
      exact (holds.code _ hnext (Nat.le_succ pc)).time (Nat.succ_ne_self pc) t ht
    · rw [hfetched, Program.begun_next hcmd]
  · have hend : pc + 1 = prog.commands.length := by omega
    refine .ended (hend ▸ holds.next) (hpc.trans hend) ?_
    rw [hfetched, Program.begun_last hcmd hend]

/-- A round of an `exec`. -/
theorem select_exec {pc n : Nat} {cmd : UInt32 × Command} {app₁ app' : App}
    (hlength : prog.commands.length < 2 ^ 32) (hcmd : prog.commands[pc]? = some cmd)
    (hn : n < cmd.2.rounds) (hcomplete : cmd.2.Complete) (hexec : cmd.2.e = .processExec)
    (holds : Holds s.app s.slot prog pc) (hpc : (s.app.pcb.slot s.slot).c.pc.toNat = pc)
    (htime : ∀ t, cmd.2.time = some t → (s.app.entry s.slot pc).remainingTime =
      UInt32.ofNat (Countdown.left t.toNat TIME_SLICE.toNat n))
    (hend : (s.app.pcb.slot s.slot).c.pc ≠ (s.app.pcb.slot s.slot).c.last)
    (hselect : schedulerGetProcess s.app = .ok (some s.slot, app₁))
    (hok : execProcess app₁ s.slot = .ok app') (hfresh : s.app.mem.FreshSince app'.mem) :
    Running prog
      { s with app := app', fetched := prog.begun pc cmd (n + 1) } := by
  obtain ⟨t, ht⟩ := Option.isSome_iff_exists.mp (hcomplete.1 (by rw [hexec]; rfl))
  have hrounds : cmd.2.rounds = Countdown.rounds t.toNat TIME_SLICE.toNat := by
    rw [Command.rounds, if_pos hexec, ht]
    rfl
  obtain ⟨hlt, hget⟩ := List.getElem?_eq_some_iff.mp hcmd
  subst hpc
  have hnext : (s.app.next s.slot).e = .processExec := by
    rw [← hexec, ← hget]
    exact (holds.code _ hlt (Nat.le_refl _)).e
  have hleft : (s.app.next s.slot).remainingTime.toNat =
      Countdown.left t.toNat TIME_SLICE.toNat n := by
    have hentry : (s.app.next s.slot).remainingTime = _ := htime t ht
    rw [hentry, UInt32.toNat_ofNat']
    exact Nat.mod_eq_of_lt (Nat.lt_of_le_of_lt (Nat.sub_le _ _) t.toNat_lt)
  obtain ⟨hslice, hentry, hmoved, hholds⟩ := selection_takes holds hnext hend hselect hok hfresh
  have hrest : ((s.app.next s.slot).remainingTime - app₁.lTime s.slot).toNat =
      Countdown.left t.toNat TIME_SLICE.toNat (n + 1) := by
    have hpart : (app₁.lTime s.slot).toNat = Countdown.part t.toNat TIME_SLICE.toNat n := by
      rw [hslice, hleft]
      rfl
    have hle : app₁.lTime s.slot ≤ (s.app.next s.slot).remainingTime := by
      rw [UInt32.le_iff_toNat_le, hslice]
      exact Nat.min_le_left _ _
    rw [UInt32.toNat_sub_of_le _ _ hle, hleft, hpart, ← Countdown.part_add_left,
      Nat.add_sub_cancel_left]
  have hdone : (s.app.next s.slot).remainingTime - app₁.lTime s.slot = 0 ↔
      n + 1 = cmd.2.rounds := by
    rw [hrounds, ← UInt32.toNat_inj, hrest]
    exact Countdown.left_succ_eq_zero_iff (by decide) (hrounds ▸ hn)
  by_cases hlast : n + 1 = cmd.2.rounds
  · rw [if_pos (hdone.mpr hlast)] at hmoved
    refine next hcmd hholds ?_ (by rw [hlast])
    dsimp only
    rw [hmoved, UInt32.toNat_add, UInt32.toNat_one]
    exact Nat.mod_eq_of_lt (by omega)
  · rw [if_neg fun h => hlast (hdone.mp h)] at hmoved
    refine .working hcmd (Nat.lt_of_le_of_ne hn hlast) hholds (congrArg UInt32.toNat hmoved)
      (fun t' ht' => ?_) rfl
    cases ht.symm.trans ht'
    dsimp only
    rw [hentry, ← hrest, UInt32.ofNat_toNat]

/-- Any other command has one round. -/
theorem select_atOnce {pc n : Nat} {cmd : UInt32 × Command} {app₁ app' : App}
    (hlength : prog.commands.length < 2 ^ 32) (hcmd : prog.commands[pc]? = some cmd)
    (hn : n < cmd.2.rounds) (hexec : cmd.2.e ≠ .processExec)
    (holds : Holds s.app s.slot prog pc) (hpc : (s.app.pcb.slot s.slot).c.pc.toNat = pc)
    (hend : (s.app.pcb.slot s.slot).c.pc ≠ (s.app.pcb.slot s.slot).c.last)
    (hselect : schedulerGetProcess s.app = .ok (some s.slot, app₁))
    (hok : execProcess app₁ s.slot = .ok app') :
    Running prog
      { s with app := app', fetched := prog.begun pc cmd (n + 1) } := by
  have hone : cmd.2.rounds = 1 := if_neg hexec
  obtain rfl : n = 0 := by omega
  obtain ⟨hlt, hget⟩ := List.getElem?_eq_some_iff.mp hcmd
  subst hpc
  obtain ⟨hc, htime, -, hnext, hselected⟩ := holds.selected hselect
  have hfetch : (app₁.next s.slot).e ≠ .processExec := by
    have hentry : (s.app.next s.slot).e = _ := (holds.code _ hlt (Nat.le_refl _)).e
    rw [hnext, hentry, hget]
    exact hexec
  have hrun : (app₁.pcb.slot s.slot).timeToRun ≠ 0 := by
    rw [htime]
    decide
  rw [← hc] at hselected hend
  obtain ⟨hmoved, hholds⟩ := execProcess_advances hselected hfetch hrun hend hok
  rw [hc] at hmoved hholds
  refine next hcmd hholds ?_ (by rw [hone])
  dsimp only
  rw [hmoved, UInt32.toNat_add, UInt32.toNat_one]
  exact Nat.mod_eq_of_lt (by omega)

/-- A selection fetches what the program has next. -/
theorem select (hlength : prog.commands.length < 2 ^ 32) (h : Running prog s)
    (hend : (s.app.pcb.slot s.slot).c.pc ≠ (s.app.pcb.slot s.slot).c.last)
    (hfresh : s.app.mem.FreshSince t.app.mem) (hstep : s.step .select = .ok t) :
    Running prog t := by
  obtain ⟨app₁, app', hselect, hok, rfl⟩ := step_select_eq_ok hstep
  cases h with
  | ended holds hpc hfetched =>
      refine absurd ?_ hend
      rw [holds.last, ← hpc, UInt32.ofNat_toNat]
  | @working pc n cmd hcmd hn holds hpc htime hfetched =>
      obtain ⟨hlt, hget⟩ := List.getElem?_eq_some_iff.mp hcmd
      obtain ⟨fp, -, hprog⟩ := holds.file
      have hcomplete : cmd.2.Complete := by
        refine programOf_complete hprog _ ?_
        rw [← hget]
        exact List.getElem_mem hlt
      obtain ⟨hc, -, -, hnext, -⟩ := holds.selected hselect
      have hexecuted : (app₁.next s.slot).executed (app₁.pcb.slot s.slot).c.pc.toNat =
          cmd.2.round pc n := by
        have hcarries := holds.code pc hlt (Nat.le_refl pc)
        rw [hget] at hcarries
        have hentry : app₁.next s.slot = s.app.entry s.slot pc := by
          rw [hnext, ← hpc]
          rfl
        rw [hentry, hc, hpc]
        exact hcarries.executed hcomplete htime
      rw [hexecuted, hfetched, ← Program.begun_round]
      by_cases hexec : cmd.2.e = .processExec
      · exact select_exec hlength hcmd hn hcomplete hexec holds hpc htime hend hselect hok hfresh
      · exact select_atOnce hlength hcmd hn hexec holds hpc hend hselect hok

/-- What others do is none of it. -/
theorem other {app : App} {slot : Fin MAX_PCB} (h : Running prog s)
    (hapart : Apart prog.commands.length s.app s.slot app slot) :
    Running prog { s with app := app, slot := slot } := by
  have hpc : (app.pcb.slot slot).c.pc = (s.app.pcb.slot s.slot).c.pc :=
    congrArg CodeSection.pc hapart.c
  cases h with
  | ended holds hlast hfetched =>
      exact .ended (holds.apart hapart) ((congrArg UInt32.toNat hpc).trans hlast) hfetched
  | @working pc n cmd hcmd hn holds hat htime hfetched =>
      obtain ⟨hlt, -⟩ := List.getElem?_eq_some_iff.mp hcmd
      refine .working hcmd hn (holds.apart hapart) ((congrArg UInt32.toNat hpc).trans hat)
        (fun t ht => ?_) hfetched
      dsimp only
      rw [hapart.entry pc hlt]
      exact htime t ht

/-- The step lemma. -/
theorem step {e : ExecEvent} (hlength : prog.commands.length < 2 ^ 32) (h : Running prog s)
    (hadmits : s.Admits prog.commands.length e) (hstep : s.step e = .ok t) : Running prog t := by
  cases e with
  | select => exact h.select hlength hadmits.1 (hadmits.2 t hstep) hstep
  | other app slot =>
      cases hstep
      exact h.other hadmits

end Execution.Running

-- ---------------------------------------------------------------------------
-- Whole executions
-- ---------------------------------------------------------------------------

/-- The program has been loaded, and nothing of it executed. -/
structure Begins (app : App) (k : Fin MAX_PCB) (prog : Program) : Prop where
  holds : Holds app k prog 0
  pc : (app.pcb.slot k).c.pc = 0
  first : ∀ cmd, prog.commands[0]? = some cmd → (app.entry k 0).Carries cmd True

/-- A creation loads the program. -/
theorem Begins.of_pCreate {app app' : App} {address : List UInt8} {pid : UInt32}
    (h : pCreate app address = .ok (pid, app')) (hroom : app.pcb.curr.toNat < MAX_PCB - 1) :
    ∃ data prog, app.fs address = some data ∧ programOf data = .ok prog ∧
      ((∃ b ∈ app'.mem.live,
          b.ptr = (app'.pcb.slot ⟨app.pcb.curr.toNat, Nat.lt_of_lt_pred hroom⟩).addressSpace ∧
            b.Fits prog.commands.length) →
        Begins app' ⟨app.pcb.curr.toNat, Nat.lt_of_lt_pred hroom⟩ prog) := by
  obtain ⟨data, prog, hdata, hprog, hholds⟩ := Holds.of_pCreate h hroom
  rcases pCreate_eq_ok h with ⟨hfull, -, -⟩ | ⟨hcurr, p, st, hp, -, happ⟩
  · exact absurd hroom (Nat.not_lt.mpr hfull)
  obtain ⟨data', prog', hdata', hprog', hcreated⟩ := hp.program
  cases hdata.symm.trans hdata'
  cases hprog.symm.trans hprog'
  have hslot : app'.pcb.slot ⟨app.pcb.curr.toNat, Nat.lt_of_lt_pred hroom⟩ = p := by
    rw [happ]
    exact (PCB.slot_enter app.pcb p (Nat.lt_of_lt_pred hcurr) _).trans (if_pos rfl)
  refine ⟨data, prog, hdata, hprog, fun hspace => ⟨hholds hspace, ?_, fun cmd hcmd => ?_⟩⟩
  · rw [hslot]
    exact hcreated.pc
  · obtain ⟨hlt, rfl⟩ := List.getElem?_eq_some_iff.mp hcmd
    obtain ⟨c, hc⟩ := hcreated.code 0 hlt
    have hheap : app'.heap = st.heap := by rw [happ]
    rw [App.entry, hslot, hcreated.it, hheap, hc]
    exact store_carries c _ _ _

theorem Begins.running {prog : Program} {s : Execution} (h : Begins s.app s.slot prog)
    (hfetched : s.fetched = []) : Execution.Running prog s := by
  cases hcmd : prog.commands[0]? with
  | none =>
      have hlength : prog.commands.length = 0 := by
        have hle := List.getElem?_eq_none_iff.mp hcmd
        omega
      refine .ended (hlength.symm ▸ h.holds) ?_ ?_
      · rw [h.pc, hlength]
        rfl
      · rw [hfetched, Program.trace, Program.jobs, List.eq_nil_of_length_eq_zero hlength]
        rfl
  | some cmd =>
      refine .working hcmd (Command.rounds_pos _) h.holds ?_ (fun t ht => ?_) ?_
      · rw [h.pc]
        rfl
      · rw [Command.left_zero]
        exact (h.first cmd hcmd).time trivial t ht
      · rw [hfetched]
        rfl

namespace Execution

/-- A selection of the process in the first slot: its program has not ended, and the growth
is given fresh blocks. -/
def Selects (s t : Execution) : Prop :=
  (s.app.pcb.slot 0).c.pc ≠ (s.app.pcb.slot 0).c.last ∧ s.app.mem.FreshSince t.app.mem

instance decidableSelects (s t : Execution) : Decidable (s.Selects t) :=
  inferInstanceAs (Decidable (_ ∧ _))

end Execution

end ChicOS
