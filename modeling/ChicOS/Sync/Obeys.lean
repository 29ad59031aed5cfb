-- SUMMARY: The functions of the model follow their lock programs: the memory, the files and the process table.
import ChicOS.Process.Loading
import ChicOS.Process.Malformed
import ChicOS.Sync.Programs

/-!
# The functions and their locks

`Obeys` says that a function of the model follows its lock program: the counts it
leaves are counts the program leaves, and where it hangs, the program waits in vain.
The functions write nothing to a log, so the program takes none of its turns
through `c_log`.

This module goes up to the loading of a program; `ChicOS.Sync.Machine` goes on to
the turns of the loops.
-/

namespace ChicOS

open LockOrder

-- ---------------------------------------------------------------------------
-- LockCounts
-- ---------------------------------------------------------------------------

/-- The counts of the simulator's locks. -/
structure LockCounts where
  memoryS : Nat
  pcbS : Nat
  cpuS : Nat
  mutex : Nat
  diskS : Nat
  printerS : Nat

namespace LockCounts

/-- The lock of the renderer is free: no log is written. -/
def get (k : LockCounts) : Sem → Nat
  | .lock .memoryS => k.memoryS
  | .lock .pcbS => k.pcbS
  | .lock .cpuS => k.cpuS
  | .lock .mutex => k.mutex
  | .lock .diskS => k.diskS
  | .lock .printerS => k.printerS
  | .rendererS => 1

def put (k : LockCounts) (n : Nat) : Lock → LockCounts
  | .memoryS => { k with memoryS := n }
  | .pcbS => { k with pcbS := n }
  | .cpuS => { k with cpuS := n }
  | .mutex => { k with mutex := n }
  | .diskS => { k with diskS := n }
  | .printerS => { k with printerS := n }

theorem update_get (k : LockCounts) (l : Lock) (n : Nat) :
    Function.update k.get (.lock l) n = (k.put n l).get := by
  funext m
  by_cases hm : m = .lock l
  · subst hm
    rw [Function.update_self]
    cases l <;> rfl
  · rw [Function.update_of_ne hm]
    cases m with
    | rendererS => cases l <;> rfl
    | lock m => cases l <;> cases m <;> first | rfl | exact absurd rfl hm

/-- A lock that is taken and given back. -/
theorem put_back {k : LockCounts} {l : Lock} {n : Nat} (h : k.get (.lock l) = n + 1) :
    k = (k.put n l).put ((k.put n l).get (.lock l) + 1) l := by
  cases k
  cases l <;> simp_all [get, put]

/-- The counts when the memory is at `m`. -/
def mem (k : LockCounts) (m : Memory) : LockCounts := { k with memoryS := m.memoryS }

/-- The counts when the part of the state that loading touches is at `st`. -/
def store (k : LockCounts) (st : Store) : LockCounts :=
  { k with memoryS := st.mem.memoryS, mutex := st.semaphores.mutex }

end LockCounts

def App.lockCounts (app : App) : LockCounts where
  memoryS := app.mem.memoryS
  pcbS := app.pcb.pcbS
  cpuS := app.cpu.cpuS
  mutex := app.semaphores.mutex
  diskS := app.disk.diskS
  printerS := app.printer.printerS

/-- The lock a stopped function hangs on. -/
def Stop.hangs : Stop → Option Sem
  | .hang l => some (.lock l)
  | _ => none

/-- A computation that hangs on no lock. -/
def Quiet {α : Type} (x : Except Stop α) : Prop := ∀ e, x = .error e → e.hangs = none

namespace Quiet

variable {α β : Type}

theorem ok {a : α} : Quiet (.ok a) := fun e he => by cases he

theorem stop {e : Stop} (he : e.hangs = none) : Quiet (.error e : Except Stop α) :=
  fun e' he' => by cases he'; exact he

theorem bind {x : Except Stop α} {f : α → Except Stop β} (hx : Quiet x) (hf : ∀ a, Quiet (f a)) :
    Quiet (x >>= f) := fun e he => by
  rcases Except.bind_eq_error.mp he with he | ⟨a, -, he⟩
  · exact hx e he
  · exact hf a e he

theorem foldlM {body : α → β → Except Stop α} (hbody : ∀ a b, Quiet (body a b)) (a : α)
    (bs : List β) : Quiet (bs.foldlM body a) := by
  induction bs generalizing a with
  | nil => exact ok
  | cons b bs ih =>
      rw [List.foldlM_cons]
      exact bind (hbody a b) ih

end Quiet

-- ---------------------------------------------------------------------------
-- Following a program
-- ---------------------------------------------------------------------------

/-- The result follows a program from the counts `k`. -/
def Obeys {α : Type} (p : Prog Sem) (k : LockCounts) (view : α → LockCounts) (x : Except Stop α) :
    Prop :=
  Follows Stop.hangs p k.get (fun a => (view a).get) x

namespace Obeys

variable {α β : Type} {p q : Prog Sem} {ps : List (Prog Sem)} {k : LockCounts} {v : α → LockCounts}
  {w : β → LockCounts}

theorem skip {a : α} (ha : v a = k) : Obeys .skip k v (.ok a) := Follows.skip (by rw [ha])

theorem stop {e : Stop} (he : e.hangs = none) : Obeys p k v (.error e) := Follows.stop he

theorem left {x : Except Stop α} (h : Obeys p k v x) : Obeys (.alt p q) k v x :=
  Follows.left h

theorem right {x : Except Stop α} (h : Obeys q k v x) : Obeys (.alt p q) k v x :=
  Follows.right h

theorem alts {x : Except Stop α} (hp : p ∈ ps) (h : Obeys p k v x) :
    Obeys (.alts ps) k v x := Follows.alts hp h

theorem bind {x : Except Stop α} {f : α → Except Stop β} (h : Obeys p k v x)
    (hf : ∀ a, x = .ok a → Obeys q (v a) w (f a)) :
    Obeys (.seq p q) k w (x >>= f) := Follows.bind h hf

/-- A stage that touches no lock. -/
theorem silent {x : Except Stop α} {f : α → Except Stop β} (hx : Quiet x)
    (hf : ∀ a, x = .ok a → Obeys p k w (f a)) :
    Obeys p k w (x >>= f) := Follows.silent hx hf

/-- The first program is left out. -/
theorem drop {x : Except Stop α} (hp : Obeys p k (fun _ : Unit => k) (.ok ()))
    (h : Obeys q k v x) : Obeys (.seq p q) k v x := Follows.bind hp fun _ _ => h

/-- A stage after it that touches no lock. -/
theorem andSilent {x : Except Stop α} {f : α → Except Stop β} (h : Obeys p k v x)
    (hok : ∀ a b, x = .ok a → f a = .ok b → w b = v a) (hquiet : ∀ a, Quiet (f a)) :
    Obeys p k w (x >>= f) :=
  Follows.andSilent h (fun a b ha hb => by rw [hok a b ha hb]) fun a e _ he => hquiet a e he

/-- A result that is only wrapped up after it. -/
theorem last {x : Except Stop α} {f : α → β} (h : Obeys p k v x)
    (hf : ∀ a, x = .ok a → w (f a) = v a) : Obeys p k w (x >>= fun a => .ok (f a)) :=
  h.andSilent (fun a b ha hb => by cases hb; exact hf a ha) fun _ => .ok

/-- A log that is not written. -/
theorem cLog {a : α} (ha : v a = k) : Obeys Locks.cLog k v (.ok a) := left (skip ha)

theorem log {x : Except Stop α} (h : Obeys q k v x) : Obeys (.seq Locks.cLog q) k v x :=
  drop (cLog rfl) h

theorem andLog {x : Except Stop α} (h : Obeys p k v x) :
    Obeys (.seq p Locks.cLog) k v x where
  ok a ha := .seq (h.ok a ha) (.altLeft .skip)
  error e l he hl := .seqBlocked (h.error e l he hl)

theorem wait (l : Lock) :
    Obeys (.wait (.lock l)) k (fun n => k.put n l) (semWait l (k.get (.lock l))) where
  ok n hn := by
    rw [← LockCounts.update_get]
    exact .wait (semWait_eq_ok.mp hn)
  error e m he hm := by
    obtain ⟨hzero, rfl⟩ := semWait_eq_error.mp he
    cases hm
    exact .blocked hzero

theorem post {l : Lock} {a : α} (ha : v a = k.put (k.get (.lock l) + 1) l) :
    Obeys (.post (.lock l)) k v (.ok a) where
  ok b hb := by
    cases hb
    rw [ha, ← LockCounts.update_get]
    exact .post
  error e m he := by cases he

theorem postThen {l : Lock} {x : Except Stop α} (h : Obeys q (k.put (k.get (.lock l) + 1) l) v x) :
    Obeys (.seq (.post (.lock l)) q) k v x :=
  bind (post (a := ()) rfl) fun _ _ => h

/-- A section under a lock. -/
theorem under {l : Lock} {f : Nat → Except Stop β}
    (hf : ∀ n, k.get (.lock l) = n + 1 → Obeys (.seq p (.post (.lock l))) (k.put n l) w (f n)) :
    Obeys (.under (.lock l) p) k w (semWait l (k.get (.lock l)) >>= f) :=
  bind (wait l) fun n hn => hf n (semWait_eq_ok.mp hn)

theorem leave {a : α} (ha : v a = k) : Obeys (.loop p) k v (.ok a) :=
  Follows.leave (by rw [ha])

theorem again {x : Except Stop α} {f : α → Except Stop β} (h : Obeys p k v x)
    (hf : ∀ a, x = .ok a → Obeys (.loop p) (v a) w (f a)) :
    Obeys (.loop p) k w (x >>= f) := Follows.again h hf

theorem loopAgain {x : Except Stop α} {f : α → Except Stop β} (h : Obeys p k v x)
    (hf : ∀ a, x = .ok a → Obeys (.seq (.loop p) q) (v a) w (f a)) :
    Obeys (.seq (.loop p) q) k w (x >>= f) := Follows.loopAgain h hf

theorem foldlM {γ : Type} {body : α → γ → Except Stop α}
    (hbody : ∀ a x, Obeys p (v a) v (body a x)) (a : α) (xs : List γ) :
    Obeys (.loop p) (v a) v (xs.foldlM body a) := Follows.foldlM hbody a xs

theorem loopLeave {x : Except Stop α} (h : Obeys q k v x) :
    Obeys (.seq (.loop p) q) k v x := Follows.loopLeave h

end Obeys

-- ---------------------------------------------------------------------------
-- The memory
-- ---------------------------------------------------------------------------

section Memory

variable {k : LockCounts}

theorem wait_obeys (m : Memory) : Obeys (.wait Locks.memoryS) (k.mem m) k.mem m.wait :=
  (Obeys.wait .memoryS).last fun _ _ => rfl

theorem secondChanceLoop_obeys (i fuel curr : Nat) (m : Memory) :
    Obeys (.seq (.loop Locks.cLog) (.post Locks.memoryS)) (k.mem m) (fun r => k.mem r.2)
      (secondChanceLoop i fuel curr m) := by
  induction fuel generalizing curr m with
  | zero => exact .stop rfl
  | succ fuel ih =>
      rw [secondChanceLoop]
      split
      · exact .stop rfl
      · dsimp only
        split
        · exact .loopLeave (.post rfl)
        · split
          · exact ih _
              { m with pt.pages := m.pt.pages.modify curr fun p => { p with used := false } }
          · exact .loopLeave (.post rfl)

theorem secondChance_obeys (m : Memory) :
    Obeys Locks.secondChance (k.mem m) (fun r => k.mem r.2) (secondChance m) :=
  (wait_obeys m).bind fun _ _ => secondChanceLoop_obeys _ _ _ _

theorem freePage_obeys (m : Memory) (page : Nat) :
    Obeys (.under Locks.memoryS .skip) (k.mem m) k.mem (m.freePage page) := by
  refine (wait_obeys m).bind fun m _ => ?_
  refine .drop (.skip rfl) ?_
  split
  · exact .post rfl
  · exact .stop rfl

/-- The end of `c_alloc`: it takes a run of pages, or ends the process. -/
def takeFirst (num : Nat) (bytes : UInt32) (m : Memory) : Except Stop (Addr × Memory) := do
  let m ← m.wait
  match m.pt.findRegion num with
  | none => .error .exit
  | some i => .ok (i * PAGE_SIZE + sizeofAllocHeader, (m.takeRegion i num bytes).post)

theorem takeFirst_obeys (num : Nat) (bytes : UInt32) (m : Memory) :
    Obeys Locks.findRegion (k.mem m) (fun r => k.mem r.2) (takeFirst num bytes m) := by
  refine (wait_obeys m).bind fun m _ => .log ?_
  split
  · exact .stop rfl
  · exact .right (.postThen (.cLog rfl))

/-- `c_alloc` from its replacement loop on. -/
theorem replacePages_obeys (num : Nat) (bytes : UInt32) (fuel : Nat) (m : Memory) :
    Obeys (.seq (.loop Locks.freePage) (.alt Locks.memoryFull Locks.findRegion)) (k.mem m)
      (fun r => k.mem r.2)
      (replacePages num fuel m >>= fun r =>
        if r.1 = false then .ok (0, r.2) else takeFirst num bytes r.2) := by
  induction fuel generalizing m with
  | zero => exact .stop rfl
  | succ fuel ih =>
      rw [replacePages]
      split
      · exact .loopLeave (.right (takeFirst_obeys num bytes m))
      rw [bind_assoc]
      -- the last turn of the loop is another than those that find a page
      by_cases hfull : ∃ m', secondChance m = .ok (-1, m')
      · obtain ⟨m', hm'⟩ := hfull
        refine .loopLeave (.left ((secondChance_obeys m).bind fun r hr => .log (.log ?_)))
        cases hm'.symm.trans hr
        exact .post rfl
      · have hturn : (secondChance m >>= fun r =>
            (if r.1 = -1 then Except.ok (false, r.2.post)
              else r.2.freePage r.1.toNat >>= fun m => replacePages num fuel m) >>= fun r =>
                if r.1 = false then .ok (0, r.2) else takeFirst num bytes r.2)
            = (secondChance m >>= fun r => r.2.freePage r.1.toNat) >>= fun m =>
                replacePages num fuel m >>= fun r =>
                  if r.1 = false then .ok (0, r.2) else takeFirst num bytes r.2 := by
          cases hchance : secondChance m with
          | error e => rfl
          | ok r =>
              have hpage : r.1 ≠ -1 := fun h => hfull ⟨r.2, by rw [hchance, ← h]⟩
              simp only [Except.ok_bind_run]
              rw [if_neg hpage, bind_assoc]
        exact hturn ▸ .loopAgain
          ((secondChance_obeys m).bind fun r _ => .log (freePage_obeys r.2 r.1.toNat))
          fun m _ => ih m

theorem cAlloc_obeys (m : Memory) (bytes : UInt32) :
    Obeys Locks.cAlloc (k.mem m) (fun r => k.mem r.2) (cAlloc m bytes) := by
  refine .log ?_
  unfold cAlloc
  split
  · exact .left (.skip rfl)
  refine .right ?_
  split
  · exact .left (.cLog rfl)
  · exact .right (.log (.log (replacePages_obeys _ bytes _ m)))

theorem cDealloc_obeys (m : Memory) (mem : Addr) :
    Obeys Locks.cDealloc (k.mem m) k.mem (cDealloc m mem) := by
  refine (wait_obeys m).bind fun m _ => .log ?_
  split
  · exact .post rfl
  · dsimp only
    split
    · exact .stop rfl
    · exact .post rfl

end Memory

-- ---------------------------------------------------------------------------
-- Files
-- ---------------------------------------------------------------------------

section Files

variable {k : LockCounts}

theorem alloc_obeys (app : App) (bytes : UInt32) :
    Obeys Locks.cAlloc app.lockCounts (fun r => r.2.lockCounts) (app.alloc bytes) :=
  (cAlloc_obeys (k := app.lockCounts) app.mem bytes).last fun _ _ => rfl

theorem dealloc_obeys (app : App) (p : Addr) :
    Obeys Locks.cDealloc app.lockCounts App.lockCounts (app.dealloc p) :=
  (cDealloc_obeys (k := app.lockCounts) app.mem p).last fun _ _ => rfl

theorem initSemaphore_obeys (st : Store) (name : UInt8) (value : UInt32) :
    Obeys Locks.initSemaphore (k.store st) (fun r => k.store r.2)
      (initSemaphore st name value) := by
  unfold initSemaphore
  split
  · exact .left (.cLog rfl)
  split
  · refine .right ((cAlloc_obeys (k := k.store st) st.mem _).bind fun r _ => ?_)
    dsimp only
    split
    · exact .stop rfl
    · exact (cAlloc_obeys (k := k.store st) r.2 _).last fun _ _ => rfl
  · exact .left (.cLog rfl)

theorem readSemaphores_obeys (st : Store) (names input : List UInt8) :
    Obeys (.loop Locks.initSemaphore) (k.store st) (fun r => k.store r.2.2)
      (readSemaphores st names input) := by
  induction input generalizing st names with
  | nil => exact .again (initSemaphore_obeys st _ _) fun _ _ => .stop rfl
  | cons c input ih =>
      rw [readSemaphores]
      split
      · split
        · exact .leave rfl
        · exact .stop rfl
      split
      · exact ih st names
      split
      · exact .again (initSemaphore_obeys st _ _) fun _ _ => ih _ _
      · exact .stop rfl

theorem scanHeader_quiet (fp : File) : Quiet (scanHeader fp) := by
  unfold scanHeader
  split
  · exact .stop rfl
  · split
    · exact .stop rfl
    · exact .ok

theorem readHeader_obeys (st : Store) (fb : Addr) :
    Obeys Locks.readHeader (k.store st) k.store (readHeader st fb) := by
  refine (cAlloc_obeys (k := k.store st) st.mem _).bind fun r _ => ?_
  dsimp only
  split
  · exact .stop rfl
  refine .silent (scanHeader_quiet _) ?_
  rintro ⟨text, fp⟩ -
  dsimp only
  split
  · exact .stop rfl
  · exact (readSemaphores_obeys { st with mem := r.2 } _ _).last fun _ _ => rfl

theorem readHeader_obeys_app (app : App) (fb : Addr) :
    Obeys Locks.readHeader app.lockCounts (fun st => { app with toStore := st }.lockCounts)
      (readHeader app.toStore fb) := readHeader_obeys (k := app.lockCounts) app.toStore fb

theorem openFile_obeys (st : Store) (fs : List UInt8 → Option (List UInt8)) (address : List UInt8) :
    Obeys Locks.openFile (k.store st) (fun r => k.store r.2) (openFile st fs address) := by
  refine (cAlloc_obeys (k := k.store st) st.mem _).bind fun r _ => ?_
  dsimp only
  split
  · exact .left (.cLog rfl)
  split
  · exact .stop rfl
  split
  · exact .left (.cLog rfl)
  · refine .right ?_
    exact (readHeader_obeys
      { st with
        mem := r.2
        heap.syntBuffers := Function.update st.heap.syntBuffers r.1
          { st.heap.syntBuffers r.1 with
            address := address, fp := (fs address).map File.start } } r.1).last fun _ _ => rfl

end Files

-- ---------------------------------------------------------------------------
-- Processes
-- ---------------------------------------------------------------------------

section Processes

/-- A section under the lock of the table. -/
theorem inPcb_obeys (app : App) (i : Fin MAX_PCB) (f : Process → Process) :
    Obeys (.under Locks.pcbS .skip) app.lockCounts App.lockCounts
      (app.inPcb fun pcb => pcb.modify i f) :=
  .under fun _ _ => .drop (.skip rfl) (.post rfl)

theorem pUpdate_obeys (app : App) (pid : UInt32) (f : Process → Process) :
    Obeys Locks.pUpdate app.lockCounts App.lockCounts (pUpdate app pid f) := by
  refine .log ?_
  unfold pUpdate
  split
  · exact .under fun _ _ => .stop rfl
  · exact inPcb_obeys app _ f

theorem release_obeys (app : App) (space : Addr) :
    Obeys Locks.cDealloc app.lockCounts App.lockCounts (app.release space) :=
  dealloc_obeys (app.note _) space

theorem pKill_obeys (app : App) (pid : UInt32) :
    Obeys Locks.pKill app.lockCounts App.lockCounts (pKill app pid) := by
  refine .log ?_
  unfold pKill
  split
  · exact .left (.cLog rfl)
  · refine .right (.under fun n _ => ?_)
    dsimp only
    refine .bind (v := App.lockCounts) ?_ fun app _ => .post rfl
    split
    · exact .right (release_obeys { app with pcb.pcbS := n } _)
    · exact .left (.skip rfl)

theorem readEntry_quiet (app : App) (it : Addr) (i : Nat) : Quiet (app.readEntry it i) := by
  unfold App.readEntry
  split
  · exact .stop rfl
  · exact .ok

theorem writeEntry_quiet (app : App) (it : Addr) (i : Nat) (c : Instruction) :
    Quiet (app.writeEntry it i c) := by
  unfold App.writeEntry
  split
  · exact .stop rfl
  · exact .ok

theorem rewindFile_quiet (app : App) (fb : Addr) : Quiet (app.rewindFile fb) := by
  unfold App.rewindFile
  split
  · exact .stop rfl
  · dsimp only
    split
    · exact .stop rfl
    · exact .ok

theorem codeLoop_quiet (size : UInt32) (it : Addr) (room fuel : Nat) (fp : File)
    (instrs : Addr → Instruction) (i : Nat) :
    Quiet (codeLoop size it room fuel fp instrs i) := by
  induction fuel generalizing fp instrs i with
  | zero => exact .stop rfl
  | succ fuel ih =>
      rw [codeLoop]
      split
      · exact .ok
      split
      · exact .ok
      split
      · exact .ok
      split
      · exact .stop rfl
      split
      · exact .stop rfl
      · refine .bind (fun e he => ?_) fun cmd => ih _ _ _
        obtain ⟨rfl, -⟩ := parseLine_eq_error_iff.mp he
        rfl

theorem loadCode_quiet (st : Store) (fb : Addr) (fp : File) (space : Addr) (c : CodeSection) :
    Quiet (loadCode st fb fp space c) :=
  .bind (codeLoop_quiet _ _ _ _ _ _ _) fun _ => .ok

/-- A file that has not ended is loaded without a system call. -/
theorem initCodeSection_obeys (app : App) (pid : UInt32) (fb space : Addr) (c : CodeSection)
    (hfile : fb ≠ 0 → ∀ fp, (app.heap.syntBuffers fb).fp = some fp → fp.eof = false) :
    Obeys Locks.initCodeSection app.lockCounts (fun r => r.1.lockCounts)
      (initCodeSection app pid fb space c) := by
  unfold initCodeSection
  split
  · exact .stop rfl
  rename_i hfb
  split
  · exact .cLog rfl
  rename_i fp hfp
  rw [if_neg (by simp [hfile hfb fp hfp])]
  refine .silent (loadCode_quiet _ _ _ _ _) fun r hr => ?_
  obtain ⟨complete, fp', instrs, i, -, hst, -⟩ := loadCode_eq_ok hr
  exact .cLog (by rw [hst]; rfl)

theorem createName_quiet (address : List UInt8) : Quiet (createName address) := by
  unfold createName
  dsimp only
  split
  · exact .stop rfl
  · split
    · exact .stop rfl
    · exact .ok

theorem enterTable_obeys (app : App) (p : Process) :
    Obeys (.under Locks.pcbS .skip) app.lockCounts App.lockCounts (enterTable app p) := by
  refine .under fun n _ => .drop (.skip rfl) ?_
  split
  · exact .post rfl
  · exact .stop rfl

end Processes

end ChicOS
