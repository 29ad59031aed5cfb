-- SUMMARY: Programs of semaphore operations, the order of their locks, and why threads that keep one order never deadlock.
import ChicOS.Lib.Run
import Mathlib.Logic.Function.Basic
import Mathlib.Logic.Relation
import Mathlib.Order.WellFounded

/-!
# Locks taken in order

A `Prog` is what is left of a program when only its operations on counting
semaphores are kept: its branches are open, and its loops run any number of
times. The locks carry an order. `Prog.held` checks that a program takes each lock
above all the locks it holds, gives back the newest first, and ends what it begins
with the locks it had; a lock that is *loose* may also be given back by a program
that does not hold it, or be set anew.

`Config` runs any number of such programs side by side. `WaitsFor` is the relation
of a blocked thread to the threads that hold the lock it waits for. Threads that
keep the order never close a circle of it (`Safe.no_cycle`), and from every thread
that is not done it leads to one that can take a step (`Safe.exists_step`).

`Runs` is the meaning of a program that runs alone, and `Follows` relates it to a
function whose result tells the counts after it, or the lock it hangs on.
-/

universe u v w x

namespace LockOrder

variable {L : Type u} {ι : Type v}

/-- A program, seen from its locks. -/
inductive Prog (L : Type u) where
  | skip
  | wait (l : L)
  | post (l : L)
  /-- The count of the lock becomes one, whatever it was. -/
  | init (l : L)
  /-- The process ends, and its other threads with it. -/
  | exit
  | seq (p q : Prog L)
  | alt (p q : Prog L)
  /-- Any number of turns, and maybe no end of them. -/
  | loop (p : Prog L)

/-- The programs of a list, one after the other. -/
def Prog.block : List (Prog L) → Prog L
  | [] => .skip
  | [p] => p
  | p :: q :: ps => .seq p (block (q :: ps))

/-- One of the programs of a list. -/
def Prog.alts : List (Prog L) → Prog L
  | [] => .skip
  | [p] => p
  | p :: q :: ps => .alt p (alts (q :: ps))

/-- A program that is left out on some paths. -/
def Prog.opt (p : Prog L) : Prog L := .alt .skip p

/-- A program under a lock. -/
def Prog.under (l : L) (p : Prog L) : Prog L := .seq (.wait l) (.seq p (.post l))

-- ---------------------------------------------------------------------------
-- The order
-- ---------------------------------------------------------------------------

section GiveBack

variable [DecidableEq L]

/-- A lock is given back by the thread that took it last, or by none. -/
def giveBack (l : L) (h : List L) : List L :=
  if h.head? = some l then h.tail else h

/-- Another lock that is held stays so. -/
theorem mem_giveBack {l m : L} {h : List L} (hm : m ∈ h) (hne : m ≠ l) : m ∈ giveBack l h := by
  unfold giveBack
  split
  · rename_i hhead
    obtain ⟨t, rfl⟩ := List.head?_eq_some_iff.mp hhead
    exact (List.mem_cons.mp hm).resolve_left hne
  · exact hm

theorem count_giveBack {l : L} {h : List L} (hhead : h.head? = some l) (m : L) :
    (giveBack l h).count m + (if m = l then 1 else 0) = h.count m := by
  obtain ⟨t, rfl⟩ := List.head?_eq_some_iff.mp hhead
  rw [giveBack, if_pos hhead, List.tail_cons, List.count_cons]
  simp only [beq_iff_eq]
  rw [if_congr eq_comm rfl rfl]

end GiveBack

section Order

variable [DecidableEq L] [Preorder L] [DecidableLT L] {loose : L → Bool}

/-- The locks held after a program, newest first, if it keeps the order. -/
def Prog.held (loose : L → Bool) : Prog L → List L → Option (List L)
  | .skip, h => some h
  | .wait l, h => if ∀ m ∈ h, m < l then some (l :: h) else none
  | .post l, h => if h.head? = some l ∨ loose l then some (giveBack l h) else none
  | .init l, h => if loose l then some h else none
  | .exit, h => some h
  | .seq p q, h => (p.held loose h).bind (q.held loose)
  | .alt p q, h => (p.held loose h).bind fun a => if q.held loose h = some a then some a else none
  | .loop p, h => if p.held loose h = some h then some h else none

/-- The locks held after all that a thread has still to do. -/
def heldAll (loose : L → Bool) : List (Prog L) → List L → Option (List L)
  | [], h => some h
  | p :: k, h => (p.held loose h).bind (heldAll loose k)

theorem held_wait {l : L} {h h' : List L} :
    (Prog.wait l).held loose h = some h' ↔ (∀ m ∈ h, m < l) ∧ l :: h = h' := by
  rw [Prog.held, Option.ite_none_right_eq_some, Option.some.injEq]

theorem held_post {l : L} {h h' : List L} :
    (Prog.post l).held loose h = some h' ↔
      (h.head? = some l ∨ loose l = true) ∧ giveBack l h = h' := by
  rw [Prog.held, Option.ite_none_right_eq_some, Option.some.injEq]

theorem held_init {l : L} {h h' : List L} :
    (Prog.init l).held loose h = some h' ↔ loose l = true ∧ h = h' := by
  rw [Prog.held, Option.ite_none_right_eq_some, Option.some.injEq]

theorem held_seq {p q : Prog L} {h h' : List L} :
    (Prog.seq p q).held loose h = some h' ↔
      ∃ a, p.held loose h = some a ∧ q.held loose a = some h' := by
  rw [Prog.held, Option.bind_eq_some_iff]

theorem held_alt {p q : Prog L} {h h' : List L} :
    (Prog.alt p q).held loose h = some h' ↔
      p.held loose h = some h' ∧ q.held loose h = some h' := by
  rw [Prog.held, Option.bind_eq_some_iff]
  constructor
  · rintro ⟨a, hp, hq⟩
    obtain ⟨hqa, ha⟩ := Option.ite_none_right_eq_some.mp hq
    cases ha
    exact ⟨hp, hqa⟩
  · rintro ⟨hp, hq⟩
    exact ⟨h', hp, if_pos hq⟩

theorem held_loop {p : Prog L} {h h' : List L} :
    (Prog.loop p).held loose h = some h' ↔ p.held loose h = some h ∧ h = h' := by
  rw [Prog.held, Option.ite_none_right_eq_some, Option.some.injEq]

theorem heldAll_cons {p : Prog L} {k : List (Prog L)} {h h' : List L} :
    heldAll loose (p :: k) h = some h' ↔
      ∃ a, p.held loose h = some a ∧ heldAll loose k a = some h' := by
  rw [heldAll, Option.bind_eq_some_iff]

end Order

-- ---------------------------------------------------------------------------
-- One program alone
-- ---------------------------------------------------------------------------

section Alone

variable [DecidableEq L]

/-- What a program that runs alone may come to: the counts it leaves, or a lock it waits
for while there is no one to give it back. -/
inductive Runs : Prog L → (L → Nat) → Except L (L → Nat) → Prop
  | skip {c : L → Nat} : Runs .skip c (.ok c)
  | wait {l : L} {c : L → Nat} {n : Nat} (h : c l = n + 1) :
      Runs (.wait l) c (.ok (Function.update c l n))
  | blocked {l : L} {c : L → Nat} (h : c l = 0) : Runs (.wait l) c (.error l)
  | post {l : L} {c : L → Nat} : Runs (.post l) c (.ok (Function.update c l (c l + 1)))
  | init {l : L} {c : L → Nat} : Runs (.init l) c (.ok (Function.update c l 1))
  | seq {p q : Prog L} {c c' : L → Nat} {r : Except L (L → Nat)}
      (hp : Runs p c (.ok c')) (hq : Runs q c' r) : Runs (.seq p q) c r
  | seqBlocked {p q : Prog L} {c : L → Nat} {l : L} (hp : Runs p c (.error l)) :
      Runs (.seq p q) c (.error l)
  | altLeft {p q : Prog L} {c : L → Nat} {r : Except L (L → Nat)} (hp : Runs p c r) :
      Runs (.alt p q) c r
  | altRight {p q : Prog L} {c : L → Nat} {r : Except L (L → Nat)} (hq : Runs q c r) :
      Runs (.alt p q) c r
  | leave {p : Prog L} {c : L → Nat} : Runs (.loop p) c (.ok c)
  | again {p : Prog L} {c c' : L → Nat} {r : Except L (L → Nat)}
      (hp : Runs p c (.ok c')) (hrest : Runs (.loop p) c' r) : Runs (.loop p) c r
  | againBlocked {p : Prog L} {c : L → Nat} {l : L} (hp : Runs p c (.error l)) :
      Runs (.loop p) c (.error l)

theorem Runs.loopAgain {p q : Prog L} {c c' : L → Nat} {r : Except L (L → Nat)}
    (hp : Runs p c (.ok c')) (hrest : Runs (.seq (.loop p) q) c' r) :
    Runs (.seq (.loop p) q) c r := by
  cases hrest with
  | seq hloop hq => exact .seq (.again hp hloop) hq
  | seqBlocked hloop => exact .seqBlocked (.again hp hloop)

/-- Every lock is free, or held. -/
def Covered (c : L → Nat) (h : List L) : Prop := ∀ l, 0 < c l ∨ l ∈ h

/-- A lock that is not loose is there as often as before, free or held. -/
def Kept (loose : L → Bool) (c : L → Nat) (h : List L) (c' : L → Nat) (h' : List L) : Prop :=
  ∀ l, loose l = false → c' l + h'.count l = c l + h.count l

variable [Preorder L] [DecidableLT L] {loose : L → Bool}

/-- A program that keeps the order never waits in vain, and keeps every lock. -/
theorem Runs.held {p : Prog L} {c : L → Nat} {r : Except L (L → Nat)} {h h' : List L}
    (hrun : Runs p c r) (hheld : p.held loose h = some h') (hcov : Covered c h) :
    ∃ c', r = .ok c' ∧ Covered c' h' ∧ Kept loose c h c' h' := by
  induction hrun generalizing h h' with
  | skip =>
      cases hheld
      exact ⟨_, rfl, hcov, fun _ _ => rfl⟩
  | @wait l c n hn =>
      obtain ⟨hlt, rfl⟩ := held_wait.mp hheld
      refine ⟨_, rfl, fun m => ?_, fun m _ => ?_⟩
      · by_cases hm : m = l
        · exact .inr (by simp [hm])
        · rw [Function.update_of_ne hm]
          exact (hcov m).imp_right (List.mem_cons_of_mem l)
      · by_cases hm : m = l
        · subst hm
          rw [Function.update_self, List.count_cons_self, hn]
          omega
        · rw [Function.update_of_ne hm, List.count_cons_of_ne (Ne.symm hm)]
  | @blocked l c hzero =>
      obtain ⟨hlt, -⟩ := held_wait.mp hheld
      -- the lock would be held by the program itself, below itself
      rcases hcov l with hpos | hmem
      · omega
      · exact absurd (hlt l hmem) (lt_irrefl l)
  | @post l c =>
      obtain ⟨hpost, rfl⟩ := held_post.mp hheld
      refine ⟨_, rfl, fun m => ?_, fun m hm => ?_⟩
      · by_cases hml : m = l
        · exact .inl (by simp [hml])
        · rw [Function.update_of_ne hml]
          exact (hcov m).imp_right fun hmem => mem_giveBack hmem hml
      · by_cases hhead : h.head? = some l
        · have hcount := count_giveBack hhead m
          by_cases hml : m = l
          · subst hml
            rw [if_pos rfl] at hcount
            rw [Function.update_self]
            omega
          · rw [if_neg hml] at hcount
            rw [Function.update_of_ne hml]
            omega
        · have hne : m ≠ l := by
            rintro rfl
            exact absurd (hpost.resolve_left hhead) (by simp [hm])
          rw [Function.update_of_ne hne, giveBack, if_neg hhead]
  | @init l c =>
      obtain ⟨hl, rfl⟩ := held_init.mp hheld
      refine ⟨_, rfl, fun m => ?_, fun m hm => ?_⟩
      · by_cases hml : m = l
        · exact .inl (by simp [hml])
        · rw [Function.update_of_ne hml]
          exact hcov m
      · have hne : m ≠ l := by
          rintro rfl
          rw [hl] at hm
          cases hm
        rw [Function.update_of_ne hne]
  | seq hp hq ihp ihq =>
      obtain ⟨a, ha, hb⟩ := held_seq.mp hheld
      obtain ⟨c', hc, hcov', hkept⟩ := ihp ha hcov
      cases hc
      obtain ⟨c'', rfl, hcov'', hkept'⟩ := ihq hb hcov'
      exact ⟨c'', rfl, hcov'', fun l hl => (hkept' l hl).trans (hkept l hl)⟩
  | seqBlocked hp ihp =>
      obtain ⟨a, ha, -⟩ := held_seq.mp hheld
      obtain ⟨c', hc, -⟩ := ihp ha hcov
      cases hc
  | altLeft hp ih => exact ih (held_alt.mp hheld).1 hcov
  | altRight hq ih => exact ih (held_alt.mp hheld).2 hcov
  | leave =>
      obtain ⟨-, rfl⟩ := held_loop.mp hheld
      exact ⟨_, rfl, hcov, fun _ _ => rfl⟩
  | again hp hrest ihp ihrest =>
      obtain ⟨hturn, rfl⟩ := held_loop.mp hheld
      obtain ⟨c', hc, hcov', hkept⟩ := ihp hturn hcov
      cases hc
      obtain ⟨c'', rfl, hcov'', hkept'⟩ := ihrest hheld hcov'
      exact ⟨c'', rfl, hcov'', fun l hl => (hkept' l hl).trans (hkept l hl)⟩
  | againBlocked hp ihp =>
      obtain ⟨hturn, rfl⟩ := held_loop.mp hheld
      obtain ⟨c', hc, -⟩ := ihp hturn hcov
      cases hc

end Alone

-- ---------------------------------------------------------------------------
-- Programs side by side
-- ---------------------------------------------------------------------------

/-- What a step of a thread does. -/
inductive Act (L : Type u) where
  | silent
  | wait (l : L)
  | post (l : L)
  | init (l : L)
  | exit

namespace Act

/-- A lock at zero is not taken. -/
def Ready : Act L → (L → Nat) → Prop
  | .wait l, c => 0 < c l
  | _, _ => True

/-- The counts after it. -/
def count [DecidableEq L] : Act L → (L → Nat) → L → Nat
  | .wait l, c => Function.update c l (c l - 1)
  | .post l, c => Function.update c l (c l + 1)
  | .init l, c => Function.update c l 1
  | _, c => c

/-- The locks its thread holds after it. -/
def held [DecidableEq L] : Act L → List L → List L
  | .wait l, h => l :: h
  | .post l, h => giveBack l h
  | _, h => h

end Act

/-- A step of a thread, by what it has still to do. -/
inductive Moves : List (Prog L) → Act L → List (Prog L) → Prop
  | skip {k : List (Prog L)} : Moves (.skip :: k) .silent k
  | wait {l : L} {k : List (Prog L)} : Moves (.wait l :: k) (.wait l) k
  | post {l : L} {k : List (Prog L)} : Moves (.post l :: k) (.post l) k
  | init {l : L} {k : List (Prog L)} : Moves (.init l :: k) (.init l) k
  | exit {k : List (Prog L)} : Moves (.exit :: k) .exit k
  | seq {p q : Prog L} {k : List (Prog L)} : Moves (.seq p q :: k) .silent (p :: q :: k)
  | left {p q : Prog L} {k : List (Prog L)} : Moves (.alt p q :: k) .silent (p :: k)
  | right {p q : Prog L} {k : List (Prog L)} : Moves (.alt p q :: k) .silent (q :: k)
  | again {p : Prog L} {k : List (Prog L)} : Moves (.loop p :: k) .silent (p :: .loop p :: k)
  | leave {p : Prog L} {k : List (Prog L)} : Moves (.loop p :: k) .silent k

/-- Threads that share their locks. `held` is a history: the locks each thread has taken
and not given back. -/
structure Config (ι : Type v) (L : Type u) where
  threads : ι → List (Prog L)
  held : ι → List L
  count : L → Nat
  ended : Bool

section Threads

variable [DecidableEq L] [DecidableEq ι]

/-- A step of one thread. -/
inductive Config.Step (s : Config ι L) (i : ι) : Config ι L → Prop
  | intro {a : Act L} {k : List (Prog L)} {ended : Bool} (hlive : s.ended = false)
      (hmove : Moves (s.threads i) a k) (hready : a.Ready s.count)
      (hended : ended = true ↔ a = .exit) :
      Step s i
        { threads := Function.update s.threads i k
          held := Function.update s.held i (a.held (s.held i))
          count := a.count s.count
          ended := ended }

/-- What the threads lead to, in any order of their steps. -/
def Config.Reaches : Config ι L → Config ι L → Prop :=
  Relation.ReflTransGen fun s t => ∃ i, s.Step i t

variable [Preorder L] [DecidableLT L]

/-- As long as the process runs, each thread keeps the order in what it has still to do and
gives all its locks back, and a lock at zero is held. -/
structure Config.Safe (loose : L → Bool) (s : Config ι L) : Prop where
  ordered : ∀ i, heldAll loose (s.threads i) (s.held i) = some []
  covered : ∀ l, 0 < s.count l ∨ ∃ i, l ∈ s.held i

variable {loose : L → Bool} {s t : Config ι L} {i j : ι}

/-- Threads that are about to start, with no lock held. -/
def Config.start (progs : ι → Prog L) (count : L → Nat) : Config ι L where
  threads i := [progs i]
  held _ := []
  count := count
  ended := false

/-- What a move leaves a thread to do keeps the order. -/
theorem Moves.ordered {k k' : List (Prog L)} {a : Act L} {h : List L} (hmove : Moves k a k')
    (hord : heldAll loose k h = some []) : heldAll loose k' (a.held h) = some [] := by
  cases hmove with
  | skip | exit =>
      obtain ⟨b, hb, hrest⟩ := heldAll_cons.mp hord
      cases hb
      exact hrest
  | wait =>
      obtain ⟨b, hb, hrest⟩ := heldAll_cons.mp hord
      obtain ⟨-, rfl⟩ := held_wait.mp hb
      exact hrest
  | post =>
      obtain ⟨b, hb, hrest⟩ := heldAll_cons.mp hord
      obtain ⟨-, rfl⟩ := held_post.mp hb
      exact hrest
  | init =>
      obtain ⟨b, hb, hrest⟩ := heldAll_cons.mp hord
      obtain ⟨-, rfl⟩ := held_init.mp hb
      exact hrest
  | seq =>
      obtain ⟨b, hb, hrest⟩ := heldAll_cons.mp hord
      obtain ⟨b', hp, hq⟩ := held_seq.mp hb
      exact heldAll_cons.mpr ⟨b', hp, heldAll_cons.mpr ⟨b, hq, hrest⟩⟩
  | left =>
      obtain ⟨b, hb, hrest⟩ := heldAll_cons.mp hord
      exact heldAll_cons.mpr ⟨b, (held_alt.mp hb).1, hrest⟩
  | right =>
      obtain ⟨b, hb, hrest⟩ := heldAll_cons.mp hord
      exact heldAll_cons.mpr ⟨b, (held_alt.mp hb).2, hrest⟩
  | again =>
      obtain ⟨b, hb, hrest⟩ := heldAll_cons.mp hord
      obtain ⟨hturn, rfl⟩ := held_loop.mp hb
      exact heldAll_cons.mpr ⟨h, hturn, hord⟩
  | leave =>
      obtain ⟨b, hb, hrest⟩ := heldAll_cons.mp hord
      obtain ⟨-, rfl⟩ := held_loop.mp hb
      exact hrest

omit [DecidableEq ι] [DecidableLT L] [Preorder L] in
/-- A lock whose count an action brings to zero is held by its thread. -/
theorem Act.covered {a : Act L} {c : L → Nat} {h : List L} {l : L}
    (hcov : 0 < c l ∨ l ∈ h) : 0 < a.count c l ∨ l ∈ a.held h := by
  cases a with
  | silent | exit => exact hcov
  | wait m =>
      by_cases hlm : l = m
      · exact .inr (by simp [Act.held, hlm])
      · rw [Act.count, Function.update_of_ne hlm]
        exact hcov.imp_right (List.mem_cons_of_mem m)
  | post m =>
      by_cases hlm : l = m
      · exact .inl (by simp [Act.count, hlm])
      · rw [Act.count, Function.update_of_ne hlm]
        exact hcov.imp_right fun hmem => mem_giveBack hmem hlm
  | init m =>
      by_cases hlm : l = m
      · exact .inl (by simp [Act.count, hlm])
      · rw [Act.count, Function.update_of_ne hlm]
        exact hcov

theorem Config.Step.safe (hs : s.Safe loose) (hstep : s.Step i t) : t.Safe loose := by
  obtain ⟨hlive, hmove, hready, hended⟩ := hstep
  rename_i a k ended
  constructor
  · intro j
    dsimp only
    by_cases hj : j = i
    · subst hj
      rw [Function.update_self, Function.update_self]
      exact hmove.ordered (hs.ordered j)
    · rw [Function.update_of_ne hj, Function.update_of_ne hj]
      exact hs.ordered j
  · intro l
    dsimp only
    have hself (hcov : 0 < s.count l ∨ l ∈ s.held i) : 0 < a.count s.count l ∨
        ∃ j, l ∈ Function.update s.held i (a.held (s.held i)) j :=
      (Act.covered hcov).imp_right fun hmem => ⟨i, by rwa [Function.update_self]⟩
    rcases hs.covered l with hpos | ⟨j, hj⟩
    · exact hself (.inl hpos)
    · by_cases hji : j = i
      · subst hji
        exact hself (.inr hj)
      · exact .inr ⟨j, by rwa [Function.update_of_ne hji]⟩

/-- Whatever the threads do, in whatever order, they keep the order of the locks. -/
theorem Config.Reaches.safe (hs : s.Safe loose) (hreach : s.Reaches t) : t.Safe loose := by
  induction hreach with
  | refl => exact hs
  | tail _ hstep ih =>
      obtain ⟨i, hstep⟩ := hstep
      exact hstep.safe ih

-- ---------------------------------------------------------------------------
-- No deadlock
-- ---------------------------------------------------------------------------

end Threads

-- ---------------------------------------------------------------------------
-- Functions that follow a program
-- ---------------------------------------------------------------------------

section Follows

variable [DecidableEq L] {τ : Type w} {α β : Type x} {hang : τ → Option L} {p q : Prog L}
  {c : L → Nat} {view : α → L → Nat} {view' : β → L → Nat}

/-- A result is one of the program's: its counts are some the program leaves, and if it hangs
on a lock, the program waits for that lock in vain. -/
structure Follows (hang : τ → Option L) (p : Prog L) (c : L → Nat) (view : α → L → Nat)
    (x : Except τ α) : Prop where
  ok : ∀ a, x = .ok a → Runs p c (.ok (view a))
  error : ∀ e l, x = .error e → hang e = some l → Runs p c (.error l)

namespace Follows

theorem skip {a : α} (ha : view a = c) : Follows hang .skip c view (.ok a) where
  ok := by
    intro b hb
    cases hb
    rw [ha]
    exact .skip
  error := by
    intro e l he
    cases he

/-- A stop for a reason of its own follows any program. -/
theorem stop {e : τ} (he : hang e = none) : Follows hang p c view (.error e) where
  ok := by
    intro a ha
    cases ha
  error := by
    intro e' l he' hl
    cases he'
    rw [he] at hl
    cases hl

theorem left {x : Except τ α} (h : Follows hang p c view x) :
    Follows hang (.alt p q) c view x where
  ok a ha := .altLeft (h.ok a ha)
  error e l he hl := .altLeft (h.error e l he hl)

theorem right {x : Except τ α} (h : Follows hang q c view x) :
    Follows hang (.alt p q) c view x where
  ok a ha := .altRight (h.ok a ha)
  error e l he hl := .altRight (h.error e l he hl)

theorem alts {ps : List (Prog L)} {x : Except τ α} (hp : p ∈ ps) (h : Follows hang p c view x) :
    Follows hang (Prog.alts ps) c view x := by
  induction ps with
  | nil => cases hp
  | cons q ps ih =>
      cases ps with
      | nil =>
          rw [List.mem_singleton] at hp
          exact hp ▸ h
      | cons q' ps =>
          rcases List.mem_cons.mp hp with rfl | hp
          · exact left h
          · exact right (ih hp)

/-- A stage after it that touches no lock. -/
theorem andSilent {x : Except τ α} {f : α → Except τ β} (h : Follows hang p c view x)
    (hok : ∀ a b, x = .ok a → f a = .ok b → view' b = view a)
    (herror : ∀ a e, x = .ok a → f a = .error e → hang e = none) :
    Follows hang p c view' (x >>= f) where
  ok := by
    intro b hb
    obtain ⟨a, ha, hb⟩ := Except.bind_eq_ok.mp hb
    rw [hok a b ha hb]
    exact h.ok a ha
  error := by
    intro e l he hl
    rcases Except.bind_eq_error.mp he with he | ⟨a, ha, he⟩
    · exact h.error e l he hl
    · rw [herror a e ha he] at hl
      cases hl

theorem bind {x : Except τ α} {f : α → Except τ β} (h : Follows hang p c view x)
    (hf : ∀ a, x = .ok a → Follows hang q (view a) view' (f a)) :
    Follows hang (.seq p q) c view' (x >>= f) where
  ok := by
    intro b hb
    obtain ⟨a, ha, hb⟩ := Except.bind_eq_ok.mp hb
    exact .seq (h.ok a ha) ((hf a ha).ok b hb)
  error := by
    intro e l he hl
    rcases Except.bind_eq_error.mp he with he | ⟨a, ha, he⟩
    · exact .seqBlocked (h.error e l he hl)
    · exact .seq (h.ok a ha) ((hf a ha).error e l he hl)

/-- A stage that touches no lock. -/
theorem silent {x : Except τ α} {f : α → Except τ β} (hx : ∀ e, x = .error e → hang e = none)
    (hf : ∀ a, x = .ok a → Follows hang p c view' (f a)) :
    Follows hang p c view' (x >>= f) where
  ok := by
    intro b hb
    obtain ⟨a, ha, hb⟩ := Except.bind_eq_ok.mp hb
    exact (hf a ha).ok b hb
  error := by
    intro e l he hl
    rcases Except.bind_eq_error.mp he with he | ⟨a, ha, he⟩
    · rw [hx e he] at hl
      cases hl
    · exact (hf a ha).error e l he hl

theorem leave {a : α} (ha : view a = c) : Follows hang (.loop p) c view (.ok a) where
  ok := by
    intro b hb
    cases hb
    rw [ha]
    exact .leave
  error := by
    intro e l he
    cases he

/-- One more turn of a loop. -/
theorem again {x : Except τ α} {f : α → Except τ β} (h : Follows hang p c view x)
    (hf : ∀ a, x = .ok a → Follows hang (.loop p) (view a) view' (f a)) :
    Follows hang (.loop p) c view' (x >>= f) where
  ok := by
    intro b hb
    obtain ⟨a, ha, hb⟩ := Except.bind_eq_ok.mp hb
    exact .again (h.ok a ha) ((hf a ha).ok b hb)
  error := by
    intro e l he hl
    rcases Except.bind_eq_error.mp he with he | ⟨a, ha, he⟩
    · exact .againBlocked (h.error e l he hl)
    · exact .again (h.ok a ha) ((hf a ha).error e l he hl)

/-- One more turn of a loop before what follows it. -/
theorem loopAgain {x : Except τ α} {f : α → Except τ β} (h : Follows hang p c view x)
    (hf : ∀ a, x = .ok a → Follows hang (.seq (.loop p) q) (view a) view' (f a)) :
    Follows hang (.seq (.loop p) q) c view' (x >>= f) where
  ok := by
    intro b hb
    obtain ⟨a, ha, hb⟩ := Except.bind_eq_ok.mp hb
    exact ((h.ok a ha).loopAgain ((hf a ha).ok b hb))
  error := by
    intro e l he hl
    rcases Except.bind_eq_error.mp he with he | ⟨a, ha, he⟩
    · exact .seqBlocked (.againBlocked (h.error e l he hl))
    · exact (h.ok a ha).loopAgain ((hf a ha).error e l he hl)

/-- No more turn of it. -/
theorem loopLeave {x : Except τ α} (h : Follows hang q c view x) :
    Follows hang (.seq (.loop p) q) c view x where
  ok a ha := .seq .leave (h.ok a ha)
  error e l he hl := .seq .leave (h.error e l he hl)

/-- A fold whose body follows a program follows the loop of it. -/
theorem foldlM {γ : Type*} {body : α → γ → Except τ α}
    (hbody : ∀ a x, Follows hang p (view a) view (body a x)) (a : α) (xs : List γ) :
    Follows hang (.loop p) (view a) view (xs.foldlM body a) := by
  induction xs generalizing a with
  | nil => exact leave rfl
  | cons x xs ih =>
      rw [List.foldlM_cons]
      exact again (hbody a x) fun a' _ => ih a'

variable [Preorder L] [DecidableLT L] {loose : L → Bool}

/-- A function that follows an ordered program, on locks that are free, hangs on none, and
leaves them free; one that is not loose has its count again. -/
theorem ordered {x : Except τ α} (h : Follows hang p c view x)
    (hp : p.held loose [] = some []) (hfree : ∀ l, 0 < c l) :
    (∀ a, x = .ok a → (∀ l, 0 < view a l) ∧ ∀ l, loose l = false → view a l = c l) ∧
      ∀ e, x = .error e → hang e = none := by
  constructor
  · intro a ha
    obtain ⟨c', hc, hcov, hkept⟩ := (h.ok a ha).held hp fun l => .inl (hfree l)
    cases hc
    refine ⟨fun l => (hcov l).resolve_right (by simp), fun l hl => ?_⟩
    simpa using hkept l hl
  · intro e he
    cases hl : hang e with
    | none => rfl
    | some l =>
        obtain ⟨c', hc, -⟩ := (h.error e l he hl).held hp fun l => .inl (hfree l)
        cases hc

end Follows

end Follows

end LockOrder
