-- SUMMARY: Jobs done one after the other, each in its own number of rounds: what has been done so far is a prefix of it all.
import Mathlib.Algebra.Ring.Nat
import Mathlib.Data.List.Basic

/-!
# Jobs in rounds

Each job of a list takes a number of rounds, and each round does something. Jobs are done
one after the other. `upTo` is what has been done when a job is under way; it grows by a
round, passes to the next job, and is all there is when no job is left.
-/

namespace Rounds

variable {α β : Type*} (rounds : β → Nat) (what : β → Nat → α)

/-- What the first rounds of a job do. -/
def first (b : β) (n : Nat) : List α := (List.range n).map (what b)

/-- What jobs do in all their rounds. -/
def all (l : List β) : List α := l.flatMap fun b => first what b (rounds b)

/-- The jobs before a job, and some rounds of it. -/
def upTo (l : List β) (m : Nat) (b : β) (n : Nat) : List α :=
  all rounds what (l.take m) ++ first what b n

variable {rounds what} {l : List β} {m n : Nat} {b : β}

theorem upTo_round : upTo rounds what l m b (n + 1) = upTo rounds what l m b n ++ [what b n] := by
  simp [upTo, first, List.range_succ]

/-- The rounds of a job are over. -/
theorem all_take_succ (h : l[m]? = some b) :
    all rounds what (l.take (m + 1)) = upTo rounds what l m b (rounds b) := by
  rw [List.take_add_one, h]
  simp [upTo, all]

/-- The next job begins. -/
theorem upTo_next (h : l[m]? = some b) (c : β) :
    upTo rounds what l (m + 1) c 0 = upTo rounds what l m b (rounds b) := by
  rw [upTo, all_take_succ h]
  exact List.append_nil _

end Rounds
