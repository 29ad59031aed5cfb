-- SUMMARY: From the text of a program to its execution: what is written to the file is what the process executes.
import ChicOS.Process.Creation
import ChicOS.Cpu.Interpreter

/-!
# From the text to the execution

The two results about a program put together: with room for it, `p_create` loads the program
that was written to the file, and the selections of the process execute what has been loaded.
Nothing is left here of files, of memory and of the interpreter's tables: an `exec`
of some time is executed slice by slice, and every other instruction once.
-/

namespace ChicOS

/-- The executions of an instruction. -/
def CodeLine.executions (i : Nat) : CodeLine → List Executed
  | .timed .exec time =>
    (List.range (Countdown.rounds time.val TIME_SLICE.toNat)).map fun n =>
      { index := i
        e := .processExec
        time := some (UInt32.ofNat (Countdown.left time.val TIME_SLICE.toNat n))
        semName := none }
  | .timed command time =>
    [{ index := i, e := command.event, time := some (UInt32.ofNat time.val), semName := none }]
  | .semaphore command name =>
    [{ index := i, e := command.event, time := none, semName := some name.val }]

/-- What a program is written to do. -/
def ProgramText.trace (t : ProgramText) : List Executed :=
  t.code.zipIdx.flatMap fun line => line.1.executions line.2

namespace CodeLine

theorem toNat_time (time : Fin (2 ^ 31)) : (UInt32.ofNat time.val).toNat = time.val :=
  UInt32.toNat_ofNat_of_lt' (Nat.lt_trans time.isLt (by decide))

/-- The rounds of a command are the executions of the instruction it was written from. -/
theorem executions_eq (l : CodeLine) (i : Nat) :
    (List.range l.command.rounds).map (l.command.round i) = l.executions i := by
  cases l with
  | timed command time =>
      have htime := toNat_time time
      cases command with
      | exec =>
          have hrounds : (CodeLine.timed .exec time).command.rounds =
              Countdown.rounds time.val TIME_SLICE.toNat := by
            rw [← htime]
            rfl
          rw [hrounds]
          refine List.map_congr_left fun n _ => ?_
          have hleft : (CodeLine.timed .exec time).command.round i n =
              { index := i
                e := .processExec
                time := some (UInt32.ofNat
                  (Countdown.left (UInt32.ofNat time.val).toNat TIME_SLICE.toNat n))
                semName := none } := rfl
          rw [hleft, htime]
      | read | write | print =>
          have hleft := Command.left_zero (UInt32.ofNat time.val)
          show [Executed.mk i _ (some (UInt32.ofNat (Countdown.left _ _ 0))) none] = _
          rw [hleft]
          rfl
  | semaphore command name =>
      cases command with
      | p | v => rfl

end CodeLine

theorem ProgramText.Says.trace {t : ProgramText} {prog : Program} (h : t.Says prog) :
    prog.trace = t.trace := by
  have hcommands : prog.trace = (prog.commands.map Prod.snd).zipIdx.flatMap fun job =>
      (List.range job.1.rounds).map (job.1.round job.2) := by
    rw [List.zipIdx_map, List.flatMap_map]
    rfl
  rw [hcommands, h.commands, List.zipIdx_map, List.flatMap_map, ProgramText.trace]
  refine congrArg (fun f => t.code.zipIdx.flatMap f) (funext fun line => ?_)
  exact line.1.executions_eq line.2

-- ---------------------------------------------------------------------------
-- From the text to the execution
-- ---------------------------------------------------------------------------

end ChicOS
