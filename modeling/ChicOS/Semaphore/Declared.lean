-- SUMMARY: The semaphores that program headers declare: when each exists exactly once.
import ChicOS.Fs.Header
import ChicOS.Lib.Registry
import ChicOS.Memory.Ownership
import ChicOS.Semaphore.Lock

/-!
# Declared semaphores

`read_header` passes every character on the line of semaphores to `init_semaphore`, whose
result it ignores. The list of semaphores is a registry of 32 places in which the name 0
marks a free place: `init_semaphore` finds a NUL that a header declares among the entries
that nobody has taken, and turns a 33rd name away. P and V on such a name do nothing, or
take an entry that is no semaphore.

The list and each semaphore are blocks of the pool. `held` records them, and the headers:
they keep what is in them as long as `c_alloc` hands no live block out again and nobody
gives theirs back.
-/

namespace ChicOS

/-! ## Declarations -/

/-- The application, the characters on the headers read so far, and the blocks that the
list, the headers and their semaphores are in. -/
structure Declaring where
  app : App
  declared : List UInt8
  held : List Addr

/-- What happens to the list of semaphores once it is there. -/
inductive DeclaringEvent where
  /-- Something changes, but neither the list nor who has which block. -/
  | elsewhere (other : App)
  /-- A `c_alloc` for something else. -/
  | alloc (bytes : UInt32)
  | dealloc (p : Addr)
  /-- `read_header`, on a file that is open. -/
  | header (fb : Addr)
  | p (name : UInt8) (pid : UInt32)
  | v (name : UInt8)

/-- The names on the line of semaphores of the file that a buffer is at. -/
def App.headerNames (app : App) (fb : Addr) : List UInt8 :=
  match (app.heap.syntBuffers fb).fp with
  | none => []
  | some fp => semaphoreNames (semaphoreLine fp.rest)

namespace Declaring

def start (app : App) : Declaring := { app := app, declared := [], held := app.mem.addrs }

def step (s : Declaring) : DeclaringEvent → Except Stop Declaring
  | .elsewhere other =>
    .ok { s with app := { other with mem := s.app.mem, semaphores := s.app.semaphores } }
  | .alloc bytes => do
    let (_, app) ← s.app.alloc bytes
    .ok { s with app := app }
  | .dealloc p => do
    let app ← s.app.dealloc p
    .ok { s with app := app }
  | .header fb => do
    let st ← readHeader s.app.toStore fb
    .ok
      { app := { s.app with toStore := st }
        declared := s.declared ++ s.app.headerNames fb
        held := s.app.mem.newAddrs st.mem ++ s.held }
  | .p name pid => do
    let app ← semaphoreP s.app (getSemaphoreByName s.app name) pid
    .ok { s with app := app }
  | .v name => do
    let app ← semaphoreV s.app (getSemaphoreByName s.app name)
    .ok { s with app := app }

/-- Nobody else gives a block of the list or of a semaphore back. -/
def LeavesHeld (s : Declaring) : DeclaringEvent → Prop
  | .dealloc p => p ∉ s.held
  | _ => True

instance (s : Declaring) : (e : DeclaringEvent) → Decidable (s.LeavesHeld e)
  | .dealloc _ => inferInstanceAs (Decidable (_ ∉ _))
  | .elsewhere _ | .alloc _ | .header _ | .p _ _ | .v _ => inferInstanceAs (Decidable True)

end Declaring

/-- Every name declared so far has one semaphore, in blocks of its own, and no header will
change it. -/
structure DeclaredOnce (t : Declaring) : Prop where
  resolves : ∀ name ∈ t.declared, ∃ i, getSemaphoreByName t.app name = some i ∧
    i.val < t.app.semaphores.last
  names : ∀ i j : Fin MAX_SIZE_SEMAPHORES, i.val < t.app.semaphores.last →
    j.val < t.app.semaphores.last →
    (t.app.semaphores.entry i).name = (t.app.semaphores.entry j).name → i = j
  ids : ∀ i j : Fin MAX_SIZE_SEMAPHORES, i.val < t.app.semaphores.last →
    j.val < t.app.semaphores.last →
    (t.app.semaphores.entry i).id = (t.app.semaphores.entry j).id → i = j
  counted : t.app.semaphores.last = t.declared.toFinset.card
  own : t.app.mem.Owns t.held
  kept : ∀ (other : App) (fb : Addr) (t' : Declaring),
    Run.run Declaring.step t [.elsewhere other, .header fb] = .ok t' → t'.app.mem.Fresh →
    t'.app.mem.Owns t'.held ∧
    ∀ i : Fin MAX_SIZE_SEMAPHORES, i.val < t.app.semaphores.last →
      t'.app.semaphores.entry i = t.app.semaphores.entry i

/-! ## The list as a registry -/

/-- The name at a place of the list. -/
def SemaphoreList.nameAt (sl : SemaphoreList) (i : Nat) : UInt8 :=
  if h : i < MAX_SIZE_SEMAPHORES then (sl.entry ⟨i, h⟩).name else 0

/-- The names of the entries that are taken. -/
def SemaphoreList.names (sl : SemaphoreList) : List UInt8 := (List.range sl.last).map sl.nameAt

/-- The list has the names that a registry has when some names have come. -/
structure SemaphoreList.Registers (sl : SemaphoreList) (declared : List UInt8) : Prop where
  names : sl.names = Registry.entered MAX_SIZE_SEMAPHORES 0 declared
  unused : ∀ i : Fin MAX_SIZE_SEMAPHORES, sl.last ≤ i.val → (sl.entry i).name = 0
  ids : ∀ i : Fin MAX_SIZE_SEMAPHORES, i.val < sl.last → (sl.entry i).id = UInt16.ofNat (i.val + 1)
  max : sl.max = UInt64.ofNat sl.last

namespace SemaphoreList

variable {sl sl' : SemaphoreList} {declared : List UInt8} {name : UInt8}

theorem length_names (sl : SemaphoreList) : sl.names.length = sl.last := by
  rw [names, List.length_map, List.length_range]

@[simp] theorem nameAt_val (sl : SemaphoreList) (i : Fin MAX_SIZE_SEMAPHORES) :
    sl.nameAt i = (sl.entry i).name := dif_pos i.isLt

/-- Of names that are alike as far as the list goes the lists are alike. -/
theorem names_congr (hlast : sl'.last = sl.last) (h : ∀ i < sl.last, sl'.nameAt i = sl.nameAt i) :
    sl'.names = sl.names := by
  rw [names, names, hlast]
  exact List.map_congr_left fun i hi => h i (List.mem_range.mp hi)

theorem names_succ (hlast : sl'.last = sl.last + 1)
    (h : ∀ i < sl.last, sl'.nameAt i = sl.nameAt i) :
    sl'.names = sl.names ++ [sl'.nameAt sl.last] := by
  rw [names, names, hlast, List.range_succ, List.map_append]
  congr 1
  exact List.map_congr_left fun i hi => h i (List.mem_range.mp hi)

namespace Registers

variable (h : sl.Registers declared)

include h in
theorem last_le : sl.last ≤ MAX_SIZE_SEMAPHORES := by
  rw [← sl.length_names, h.names]
  exact Registry.length_entered_le _ _ _

include h in
theorem mem_names : name ∈ sl.names ↔
    ∃ i : Fin MAX_SIZE_SEMAPHORES, i.val < sl.last ∧ (sl.entry i).name = name := by
  have hle := h.last_le
  simp only [SemaphoreList.names, List.mem_map, List.mem_range]
  constructor
  · rintro ⟨i, hi, rfl⟩
    exact ⟨⟨i, Nat.lt_of_lt_of_le hi hle⟩, hi, (nameAt_val ..).symm⟩
  · rintro ⟨i, hi, rfl⟩
    exact ⟨i, hi, nameAt_val ..⟩

include h in
theorem notMem_names_zero : 0 ∉ sl.names := by
  rw [h.names]
  exact Registry.free_notMem_entered _ _ _

include h in
/-- The names that are found are those in the registry. -/
theorem resolves_iff {app : App} (hsl : app.semaphores = sl) :
    (∃ i, getSemaphoreByName app name = some i ∧ i.val < sl.last) ↔ name ∈ sl.names := by
  subst hsl
  rw [h.mem_names]
  constructor
  · rintro ⟨i, hfound, hi⟩
    exact ⟨i, hi, by simpa using List.find?_some hfound⟩
  · rintro ⟨j, hj, hname⟩
    obtain ⟨i, hfound⟩ : ∃ i, getSemaphoreByName app name = some i :=
      Option.isSome_iff_exists.mp (List.find?_isSome.mpr ⟨j, List.mem_finRange j, by simpa using hname⟩)
    have hi : (app.semaphores.entry i).name = name := by simpa using List.find?_some hfound
    refine ⟨i, hfound, Nat.lt_of_not_le fun hunused => ?_⟩
    -- only the name 0 is found among the free places
    rw [h.unused i hunused] at hi
    exact h.notMem_names_zero (h.mem_names.mpr ⟨j, hj, hname.trans hi.symm⟩)

include h in
theorem names_inj {i j : Fin MAX_SIZE_SEMAPHORES} (hi : i.val < sl.last) (hj : j.val < sl.last)
    (hname : (sl.entry i).name = (sl.entry j).name) : i = j := by
  have hnodup : sl.names.Nodup := by
    rw [h.names]
    exact Registry.nodup_entered _ _ _
  rw [← sl.nameAt_val i, ← sl.nameAt_val j] at hname
  exact Fin.ext (List.inj_on_of_nodup_map hnodup (List.mem_range.mpr hi) (List.mem_range.mpr hj) hname)

include h in
theorem ids_inj {i j : Fin MAX_SIZE_SEMAPHORES} (hi : i.val < sl.last) (hj : j.val < sl.last)
    (hid : (sl.entry i).id = (sl.entry j).id) : i = j := by
  rw [h.ids i hi, h.ids j hj] at hid
  have hnat := congrArg UInt16.toNat hid
  rw [UInt16.toNat_ofNat', UInt16.toNat_ofNat'] at hnat
  have hi32 := i.isLt
  have hj32 := j.isLt
  unfold MAX_SIZE_SEMAPHORES at hi32 hj32
  exact Fin.ext (by omega)

include h in
theorem complete_iff : declared ⊆ sl.names ↔
    0 ∉ declared ∧ declared.toFinset.card ≤ MAX_SIZE_SEMAPHORES := by
  rw [h.names]
  exact Registry.subset_entered_iff

end Registers

/-! ## One name -/

/-- The entries that are taken stay as they are. -/
structure Kept (sl sl' : SemaphoreList) : Prop where
  last : sl.last ≤ sl'.last
  entry : ∀ i : Fin MAX_SIZE_SEMAPHORES, i.val < sl.last → sl'.entry i = sl.entry i

theorem Kept.refl (sl : SemaphoreList) : sl.Kept sl := ⟨Nat.le_refl _, fun _ _ => rfl⟩

theorem Kept.trans {sl'' : SemaphoreList} (h : sl.Kept sl') (h' : sl'.Kept sl'') : sl.Kept sl'' :=
  ⟨Nat.le_trans h.last h'.last, fun i hi =>
    (h'.entry i (Nat.lt_of_lt_of_le hi h.last)).trans (h.entry i hi)⟩

theorem Kept.nameAt (h : sl.Kept sl') {i : Nat} (hi : i < sl.last) : sl'.nameAt i = sl.nameAt i := by
  unfold SemaphoreList.nameAt
  split
  · rename_i hbound
    rw [h.entry ⟨i, hbound⟩ hi]
  · rfl

/-- A name that is turned away. -/
theorem Registers.turn_away (h : sl.Registers declared)
    (haway : (∃ i : Fin MAX_SIZE_SEMAPHORES, (sl.entry i).name = name) ∨
      MAX_SIZE_SEMAPHORES ≤ sl.last) : sl.Registers (declared ++ [name]) where
  names := by
    rw [Registry.entered_concat, ← h.names]
    refine (Registry.enter_turned_away ?_).symm
    rcases haway with ⟨i, rfl⟩ | hfull
    · rcases Nat.lt_or_ge i.val sl.last with hi | hunused
      · exact .inr (.inl (h.mem_names.mpr ⟨i, hi, rfl⟩))
      · exact .inl (h.unused i hunused)
    · exact .inr (.inr (sl.length_names.symm ▸ hfull))
  unused := h.unused
  ids := h.ids
  max := h.max

/-- A name that enters. -/
theorem Registers.add {sem : Semaphore} (h : sl.Registers declared)
    (hlast : sl.last < MAX_SIZE_SEMAPHORES)
    (hnew : ∀ i : Fin MAX_SIZE_SEMAPHORES, (sl.entry i).name ≠ sem.name)
    (hid : sem.id = (sl.max + 1).toUInt16) :
    ({ sl with l := sl.l.set sl.last sem, max := sl.max + 1, last := sl.last + 1 }
      : SemaphoreList).Registers (declared ++ [sem.name]) ∧
    sl.Kept { sl with l := sl.l.set sl.last sem, max := sl.max + 1, last := sl.last + 1 } := by
  generalize hsl' : ({ sl with l := sl.l.set sl.last sem, max := sl.max + 1, last := sl.last + 1 }
    : SemaphoreList) = sl'
  have hlast' : sl'.last = sl.last + 1 := by rw [← hsl']
  have hmax' : sl'.max = sl.max + 1 := by rw [← hsl']
  have hself : sl'.entry ⟨sl.last, hlast⟩ = sem := by
    simp [← hsl', SemaphoreList.entry]
  have hother (i : Fin MAX_SIZE_SEMAPHORES) (hi : sl.last ≠ i.val) : sl'.entry i = sl.entry i := by
    simp [← hsl', SemaphoreList.entry, hi]
  have hkept : sl.Kept sl' := ⟨by omega, fun i hi => hother i (by omega)⟩
  -- the place that it takes was free, so it is not 0
  have hfree : sem.name ≠ 0 := by
    rw [← h.unused ⟨sl.last, hlast⟩ (Nat.le_refl _)]
    exact (hnew _).symm
  have hnotMem : sem.name ∉ sl.names := by
    rw [h.mem_names]
    rintro ⟨i, -, hname⟩
    exact hnew i hname
  refine ⟨⟨?_, ?_, ?_, ?_⟩, hkept⟩
  · have hname : sl'.nameAt sl.last = sem.name := by
      rw [SemaphoreList.nameAt, dif_pos hlast, hself]
    rw [SemaphoreList.names_succ hlast' (fun i hi => hkept.nameAt hi), hname,
      Registry.entered_concat, ← h.names,
      Registry.enter_new hfree hnotMem (sl.length_names.symm ▸ hlast)]
  · intro i hi
    rw [hother i (by omega)]
    exact h.unused i (by omega)
  · intro i hi
    rcases Nat.lt_or_ge i.val sl.last with hold | hge
    · rw [hkept.entry i hold]
      exact h.ids i hold
    · obtain rfl : i = ⟨sl.last, hlast⟩ := Fin.ext (show i.val = sl.last by omega)
      rw [hself, hid, h.max]
      simp
  · rw [hmax', hlast', h.max]
    simp

/-- P and V change neither a name nor an id. -/
theorem Registers.setEntry (h : sl.Registers declared) {i : Fin MAX_SIZE_SEMAPHORES}
    {sem : Semaphore} (hname : sem.name = (sl.entry i).name) (hid : sem.id = (sl.entry i).id) :
    (sl.setEntry i sem).Registers declared := by
  have hnames (j : Fin MAX_SIZE_SEMAPHORES) :
      ((sl.setEntry i sem).entry j).name = (sl.entry j).name := by
    by_cases hij : i = j
    · subst hij
      rw [entry_setEntry_self, hname]
    · rw [entry_setEntry_ne _ _ hij]
  have hids (j : Fin MAX_SIZE_SEMAPHORES) :
      ((sl.setEntry i sem).entry j).id = (sl.entry j).id := by
    by_cases hij : i = j
    · subst hij
      rw [entry_setEntry_self, hid]
    · rw [entry_setEntry_ne _ _ hij]
  refine ⟨?_, fun j hj => (hnames j).trans (h.unused j hj),
    fun j hj => (hids j).trans (h.ids j hj), h.max⟩
  rw [← h.names]
  refine SemaphoreList.names_congr rfl fun j _ => ?_
  unfold SemaphoreList.nameAt
  split
  · exact hnames _
  · rfl

end SemaphoreList

/-! ## One event -/

variable {declared : List UInt8}

theorem initSemaphore_registers {st st' : Store} {name : UInt8} {value : UInt32} {r : Int}
    (h : st.semaphores.Registers declared) (hinit : initSemaphore st name value = .ok (r, st')) :
    st'.semaphores.Registers (declared ++ [name]) ∧ st.semaphores.Kept st'.semaphores := by
  rcases initSemaphore_cases hinit with
    ⟨haway, rfl⟩ | ⟨p, w, mem, mem', sem, hlast, hnew, -, -, rfl, -, -, hid, rfl⟩
  · exact ⟨h.turn_away haway, .refl _⟩
  · exact h.add hlast hnew hid

theorem register_run_registers {st st' : Store} {names : List UInt8}
    (h : st.semaphores.Registers declared) (hrun : Run.run register st names = .ok st') :
    st'.semaphores.Registers (declared ++ names) ∧ st.semaphores.Kept st'.semaphores := by
  induction names generalizing st declared with
  | nil =>
      cases hrun
      exact ⟨by rwa [List.append_nil], .refl _⟩
  | cons name names ih =>
      obtain ⟨st₁, hregister, hrun⟩ := Run.run_cons_eq_ok.mp hrun
      obtain ⟨⟨r, st₂⟩, hinit, hst⟩ := Except.bind_eq_ok.mp hregister
      cases hst
      obtain ⟨hone, hkept⟩ := initSemaphore_registers h hinit
      obtain ⟨hrest, hkept'⟩ := ih hone hrun
      refine ⟨?_, hkept.trans hkept'⟩
      rwa [List.append_assoc, List.singleton_append] at hrest

theorem readHeader_registers {app : App} {st' : Store} {fb : Addr}
    (h : app.semaphores.Registers declared) (hread : readHeader app.toStore fb = .ok st') :
    st'.semaphores.Registers (declared ++ app.headerNames fb) ∧
      app.semaphores.Kept st'.semaphores := by
  obtain ⟨header, mem, fp, fp', text, semaphores, rest, st₁, -, -, hfp, hscan, hsems, rfl⟩ :=
    readHeader_eq_ok hread
  have hnames : app.headerNames fb = semaphoreNames (fp'.rest.drop 1) := by
    rw [App.headerNames, hfp, scanHeader_rest hscan]
  rw [hnames]
  have hopened : ({ app.toStore with mem := mem } : Store).semaphores.Registers declared := h
  obtain ⟨-, -, hrun, -⟩ := readSemaphores_eq_ok_iff.mp hsems
  obtain ⟨hregisters, hkept⟩ := register_run_registers hopened hrun
  exact ⟨hregisters, hkept⟩

theorem semaphoreP_registers {app app' : App} {s : Option (Fin MAX_SIZE_SEMAPHORES)} {pid : UInt32}
    (h : app.semaphores.Registers declared) (hP : semaphoreP app s pid = .ok app') :
    app'.semaphores.Registers declared := by
  cases s with
  | none =>
      cases hP
      exact h
  | some i =>
      rcases semaphoreP_eq_ok hP with ⟨-, rfl⟩ | ⟨-, sem, k, hpush, -, rfl⟩
      · exact h.setEntry rfl rfl
      · obtain ⟨hname, hid⟩ := waiterPush_same hpush
        exact h.setEntry hname hid

theorem semaphoreV_registers {app app' : App} {s : Option (Fin MAX_SIZE_SEMAPHORES)}
    (h : app.semaphores.Registers declared) (hV : semaphoreV app s = .ok app') :
    app'.semaphores.Registers declared := by
  cases s with
  | none =>
      cases hV
      exact h
  | some i =>
      rcases semaphoreV_eq_ok hV with ⟨-, rfl⟩ | ⟨-, pid, sem, k, hpop, -, rfl⟩
      · exact h.setEntry rfl rfl
      · obtain ⟨hname, hid⟩ := waiterPop_same hpop
        exact h.setEntry hname hid

/-- Reading a header takes blocks and gives none back. -/
theorem readHeader_gained {st st' : Store} {fb : Addr} {ps : List Addr}
    (hread : readHeader st fb = .ok st') (h : st.mem.Fresh → st.mem.Owns ps) :
    st.mem.Gained st'.mem ps := by
  obtain ⟨header, mem, fp, fp', text, semaphores, rest, st₁, halloc, -, -, -, hsems, rfl⟩ :=
    readHeader_eq_ok hread
  have hopened : st.mem.Gained mem ps := (Memory.Gained.refl h).alloc halloc
  have hregistered : st.mem.Gained st₁.mem ps :=
    readSemaphores_induct (P := fun s => st.mem.Gained s.mem ps) (fun {s s' name r} hs hinit => by
      rcases initSemaphore_cases hinit with
        ⟨-, rfl⟩ | ⟨p, w, mem, mem', sem, hlast, -, hp, hw, -, -, -, -, rfl⟩
      · exact hs
      · exact (hs.alloc hp).alloc hw) hopened hsems
  exact hregistered

/-! ## Runs -/

namespace Declaring

/-- The list is a registry of the names, and its blocks are its own if none was handed out
twice. -/
structure Inv (s : Declaring) : Prop where
  registers : s.app.semaphores.Registers s.declared
  owns : s.app.mem.Fresh → s.app.mem.Owns s.held

theorem step_inv {s s' : Declaring} {e : DeclaringEvent} (h : s.Inv) (hleaves : s.LeavesHeld e)
    (hstep : s.step e = .ok s') : s'.Inv := by
  cases e with
  | elsewhere other =>
      cases hstep
      exact ⟨h.registers, h.owns⟩
  | alloc bytes =>
      obtain ⟨⟨p, app⟩, hcall, hok⟩ := Except.bind_eq_ok.mp hstep
      cases hok
      obtain ⟨mem, halloc, rfl⟩ := alloc_eq_ok hcall
      refine ⟨h.registers, fun hfresh => ?_⟩
      exact (h.owns (hfresh.of_suffix (cAlloc_calls halloc))).alloc_old hfresh halloc
  | dealloc p =>
      obtain ⟨app, hcall, hok⟩ := Except.bind_eq_ok.mp hstep
      cases hok
      obtain ⟨mem, hfree, rfl⟩ := dealloc_eq_ok hcall
      refine ⟨h.registers, fun hfresh => ?_⟩
      exact (h.owns (hfresh.of_suffix (Memory.cDealloc_suffix hfree))).dealloc_other hleaves hfree
  | header fb =>
      obtain ⟨st, hread, hok⟩ := Except.bind_eq_ok.mp hstep
      cases hok
      exact ⟨(readHeader_registers h.registers hread).1, (readHeader_gained hread h.owns).owns⟩
  | p name pid =>
      obtain ⟨app, hP, hok⟩ := Except.bind_eq_ok.mp hstep
      cases hok
      refine ⟨semaphoreP_registers h.registers hP, ?_⟩
      dsimp only
      rw [semaphoreP_mem hP]
      exact h.owns
  | v name =>
      obtain ⟨app, hV, hok⟩ := Except.bind_eq_ok.mp hstep
      cases hok
      refine ⟨semaphoreV_registers h.registers hV, ?_⟩
      dsimp only
      rw [semaphoreV_mem hV]
      exact h.owns

theorem start_inv {app app' : App} {pool : Bytes.Mem} {memSize : UInt32}
    (h : app.initSemaphores pool memSize = .ok app') : (start app').Inv := by
  obtain ⟨st, hlist, hok⟩ := Except.bind_eq_ok.mp h
  cases hok
  obtain ⟨⟨p, mem⟩, halloc, hst⟩ := Except.bind_eq_ok.mp hlist
  dsimp only at halloc hst
  split at hst
  · cases hst
  cases hst
  refine ⟨⟨rfl, fun i _ => ?_, fun i hi => absurd hi (Nat.not_lt_zero _), rfl⟩, fun hfresh => ?_⟩
  · simp [start, SemaphoreList.entry]
  · have hgained : (initMem pool memSize).Gained mem [] :=
      (Memory.Gained.refl fun _ => .of_calls_nil rfl).alloc halloc
    have howns := hgained.owns hfresh
    have hall : (initMem pool memSize).newAddrs mem = mem.addrs := List.take_length
    rwa [List.append_nil, hall] at howns

/-- A header leaves the entries that are taken as they are, and takes blocks of its own. -/
theorem Inv.header_keeps {s s' : Declaring} {other : App} {fb : Addr} (h : s.Inv)
    (hrun : Run.run step s [.elsewhere other, .header fb] = .ok s') :
    s'.Inv ∧ s.app.semaphores.Kept s'.app.semaphores := by
  obtain ⟨s₁, helsewhere, hrun⟩ := Run.run_cons_eq_ok.mp hrun
  have h₁ := step_inv (e := .elsewhere other) h trivial helsewhere
  cases helsewhere
  obtain ⟨s₂, hheader, hrun⟩ := Run.run_cons_eq_ok.mp hrun
  cases hrun
  have h₂ := step_inv (e := .header fb) h₁ trivial hheader
  obtain ⟨st, hread, hok⟩ := Except.bind_eq_ok.mp hheader
  cases hok
  exact ⟨h₂, (readHeader_registers h₁.registers hread).2⟩

/-- Every name exists once just if the list has a place for each and none is NUL. -/
theorem Inv.declaredOnce_iff {s : Declaring} (h : s.Inv) (hfresh : s.app.mem.Fresh) :
    DeclaredOnce s ↔ 0 ∉ s.declared ∧ s.declared.toFinset.card ≤ MAX_SIZE_SEMAPHORES := by
  have hreg := h.registers
  rw [← hreg.complete_iff]
  constructor
  · intro honce name hname
    exact (hreg.resolves_iff rfl).mp (honce.resolves name hname)
  · intro hall
    refine ⟨fun name hname => (hreg.resolves_iff rfl).mpr (hall hname), fun i j => hreg.names_inj,
      fun i j => hreg.ids_inj, ?_, h.owns hfresh, fun other fb t' hrun hfresh' => ?_⟩
    · rw [← SemaphoreList.length_names, hreg.names]
      rw [hreg.names] at hall
      exact Registry.length_entered hall
    · obtain ⟨h', hkept⟩ := h.header_keeps hrun
      exact ⟨h'.owns hfresh', hkept.entry⟩

end Declaring

/-- From the list that `init_app` makes on, whatever headers are read, whatever P and V are
called and whatever blocks are taken and given back between them: as long as no live block
is handed out again and those of the list and of the semaphores are not given back. -/
theorem declared_once (app : App) (pool : Bytes.Mem) (memSize : UInt32) (es : List DeclaringEvent)
    {app' : App} {t : Declaring} (hinit : app.initSemaphores pool memSize = .ok app')
    (hleaves : Run.Meets Declaring.step Declaring.LeavesHeld (.start app') es)
    (hrun : Run.run Declaring.step (.start app') es = .ok t) (hfresh : t.app.mem.Fresh) :
    DeclaredOnce t ↔ 0 ∉ t.declared ∧ t.declared.toFinset.card ≤ MAX_SIZE_SEMAPHORES := by
  have hinv : t.Inv :=
    Run.run_invariant Declaring.Inv Declaring.step_inv (Declaring.start_inv hinit) hleaves hrun
  exact hinv.declaredOnce_iff hfresh

/-- An application with a file open in every buffer. -/
def App.reading (data : List UInt8) : App :=
  { App.zero Heap.zero fun _ => none with toStore := Store.ofFile data }

/-- A program file is opened: its buffer is at `fb`. -/
def opening (fb : Addr) (data : List UInt8) : List DeclaringEvent :=
  [.alloc sizeofSyntBuffer, .elsewhere (.reading data), .header fb]

/-- Two programs share two semaphores, one of which has been taken in between. -/
theorem declared_once_shared :
    ∃ app t, (App.zero Heap.zero fun _ => none).initSemaphores
        (fun a => if a = 792 then 1 else 0) 24576 = .ok app ∧
      Run.run Declaring.step (.start app)
        (opening 1032 (ascii "a 1 1 1\nst\n") ++ .p 115 0 ::
          opening 11272 (ascii "b 1 1 1\nts\n")) = .ok t ∧
      DeclaredOnce t := by
  have hfacts : (((App.zero Heap.zero fun _ => none).initSemaphores
      (fun a => if a = 792 then 1 else 0) 24576).toOption.bind fun app =>
        (Run.runChecked Declaring.step Declaring.LeavesHeld (.start app)
          (opening 1032 (ascii "a 1 1 1\nst\n") ++ .p 115 0 ::
            opening 11272 (ascii "b 1 1 1\nts\n"))).map
          fun t => (t.declared, decide t.app.mem.Fresh)) = some ([115, 116, 116, 115], true) := by
    decide +kernel
  obtain ⟨app, hinit, hrun⟩ := Option.bind_eq_some_iff.mp hfacts
  obtain ⟨t, hrun, hdeclared⟩ := Option.map_eq_some_iff.mp hrun
  obtain ⟨hdeclared, hfresh⟩ := Prod.mk.inj hdeclared
  obtain ⟨hleaves, hrun⟩ := Run.runChecked_eq_some hrun
  have hinit := Except.toOption_eq_ok.mp hinit
  refine ⟨app, t, hinit, hrun,
    (declared_once _ _ _ _ hinit hleaves hrun (of_decide_eq_true hfresh)).mpr ?_⟩
  rw [hdeclared]
  decide

/-! ## More names than places -/

theorem initSemaphores_fills (app : App) (pool : Bytes.Mem) (memSize : UInt32)
    (hroom : 1 ≤ (initMem pool memSize).pt.len) :
    ∃ app', app.initSemaphores pool memSize = .ok app' ∧
      (initMem pool memSize).Fills app'.mem 0 1 := by
  have hone : numPages sizeofSemaphoreList = 1 := by decide
  obtain ⟨mem, halloc, hmem⟩ := (Memory.initMem_filledTo pool memSize).fills.alloc
    sizeofSemaphoreList (by decide) (by omega)
  rw [hone] at hmem
  unfold App.initSemaphores initSemaphoreList
  rw [halloc]
  exact ⟨_, rfl, hmem⟩

/-- A program file whose header fits is opened and read, if there is room for it. -/
theorem Declaring.Inv.opening {s : Declaring} {m : Memory} {k : Nat} (h : s.Inv)
    (hfills : m.Fills s.app.mem 0 k) (fb : Addr) {data names : List UInt8} (hfits : HeaderFits data)
    (hnames : semaphoreNames (semaphoreLine data) = names)
    (hroom : k + 6 + 2 * names.length ≤ m.pt.len) :
    ∃ s' k', Run.run step s (ChicOS.opening fb data) = .ok s' ∧ s'.Inv ∧ m.Fills s'.app.mem 0 k' ∧
      k' ≤ k + 6 + 2 * names.length ∧ s'.declared = s.declared ++ names := by
  subst hnames
  have hfive : numPages sizeofSyntBuffer = 5 := by decide
  obtain ⟨mem, halloc, hmem⟩ := hfills.alloc sizeofSyntBuffer (by decide) (by omega)
  rw [hfive] at hmem
  have hfirst : s.step (.alloc sizeofSyntBuffer) = .ok { s with app := { s.app with mem := mem } } := by
    simp only [step, App.alloc, halloc, Except.ok_bind_run]
  have h₁ := step_inv (e := .alloc sizeofSyntBuffer) h trivial hfirst
  have h₂ := step_inv (e := .elsewhere (.reading data)) h₁ trivial rfl
  obtain ⟨st, k', hread, hst, hle⟩ :=
    readHeader_fills { (App.reading data).toStore with
      mem := mem, semaphores := s.app.semaphores } fb rfl hfits hmem (by omega)
  have hheader : ∃ s', step { s with app := { App.reading data with
      mem := mem, semaphores := s.app.semaphores } } (.header fb) = .ok s' ∧
      s'.app.mem = st.mem ∧ s'.declared = s.declared ++ semaphoreNames (semaphoreLine data) := by
    simp only [step, hread, Except.ok_bind_run]
    exact ⟨_, rfl, rfl, rfl⟩
  obtain ⟨s', hheader, hmem', hdeclared⟩ := hheader
  have h₃ := step_inv (e := .header fb) h₂ trivial hheader
  refine ⟨s', k', ?_, h₃, hmem' ▸ hst, by omega, hdeclared⟩
  exact Run.run_cons_eq_ok.mpr ⟨_, hfirst, Run.run_cons_eq_ok.mpr ⟨_, rfl,
    Run.run_cons_eq_ok.mpr ⟨s', hheader, rfl⟩⟩⟩

/-- Three programs declare eleven semaphores each, and the last of the 33 does not exist. -/
theorem not_always_declared_once :
    ¬ ∀ (app : App) (pool : Bytes.Mem) (memSize : UInt32) (es : List DeclaringEvent) (app' : App)
      (t : Declaring), app.initSemaphores pool memSize = .ok app' →
      Run.run Declaring.step (.start app') es = .ok t → t.app.mem.Fresh → DeclaredOnce t := by
  intro h
  have hfits₁ : HeaderFits (ascii "a 1 1 1\nABCDEFGHIJK\n") :=
    ⟨⟨ascii "a", by decide +kernel, by decide⟩, by decide +kernel, by decide +kernel⟩
  have hfits₂ : HeaderFits (ascii "b 1 1 1\nLMNOPQRSTUV\n") :=
    ⟨⟨ascii "b", by decide +kernel, by decide⟩, by decide +kernel, by decide +kernel⟩
  have hfits₃ : HeaderFits (ascii "c 1 1 1\nWXYZabcdefg\n") :=
    ⟨⟨ascii "c", by decide +kernel, by decide⟩, by decide +kernel, by decide +kernel⟩
  have hnames₁ : semaphoreNames (semaphoreLine (ascii "a 1 1 1\nABCDEFGHIJK\n"))
      = ascii "ABCDEFGHIJK" := by decide +kernel
  have hnames₂ : semaphoreNames (semaphoreLine (ascii "b 1 1 1\nLMNOPQRSTUV\n"))
      = ascii "LMNOPQRSTUV" := by decide +kernel
  have hnames₃ : semaphoreNames (semaphoreLine (ascii "c 1 1 1\nWXYZabcdefg\n"))
      = ascii "WXYZabcdefg" := by decide +kernel
  have heleven₁ : (ascii "ABCDEFGHIJK").length = 11 := by decide
  have heleven₂ : (ascii "LMNOPQRSTUV").length = 11 := by decide
  have heleven₃ : (ascii "WXYZabcdefg").length = 11 := by decide
  have hlen : (initMem (fun _ => 0) 131072).pt.len = 128 := by decide
  obtain ⟨app, hinit, hfills⟩ :=
    initSemaphores_fills (App.zero Heap.zero fun _ => none) (fun _ => 0) 131072 (by decide)
  obtain ⟨s₁, k₁, hrun₁, hinv₁, hfills₁, hle₁, hdeclared₁⟩ :=
    (Declaring.start_inv hinit).opening hfills 1032 hfits₁ hnames₁ (by omega)
  obtain ⟨s₂, k₂, hrun₂, hinv₂, hfills₂, hle₂, hdeclared₂⟩ :=
    hinv₁.opening hfills₁ 29704 hfits₂ hnames₂ (by omega)
  obtain ⟨t, k₃, hrun₃, hinv₃, hfills₃, -, hdeclared₃⟩ :=
    hinv₂.opening hfills₂ 58376 hfits₃ hnames₃ (by omega)
  have hrun := Run.run_append_eq_ok.mpr ⟨s₁, hrun₁, Run.run_append_eq_ok.mpr ⟨s₂, hrun₂, hrun₃⟩⟩
  have hfresh := hfills₃.filled.fresh
  have honce := h _ _ _ _ _ _ hinit hrun hfresh
  have hcard := ((hinv₃.declaredOnce_iff hfresh).mp honce).2
  have hnone : (Declaring.start app).declared = [] := rfl
  rw [hdeclared₃, hdeclared₂, hdeclared₁, hnone] at hcard
  exact absurd hcard (by decide +kernel)

end ChicOS
