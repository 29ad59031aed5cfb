-- SUMMARY: The program of a process in memory, and what leaves it there: a growth with fresh blocks, and whatever others do.
import ChicOS.Process.Growth

/-!
# The program in memory

From the instruction it is at, the code of a process is the program of its file.
`p_realloc` frees it and loads the program again, into a new block: the instruction is
saved in between, and the later ones are in the file as they were.
-/

namespace ChicOS

/-- From an instruction on, the code of the process in a slot is the program of its
file, the time of this instruction apart, and it is in a live block. -/
structure Holds (app : App) (k : Fin MAX_PCB) (prog : Program) (pc : Nat) : Prop where
  file : ∃ fp, (app.heap.syntBuffers (app.pcb.slot k).fb).fp = some fp ∧
    programOf fp.data = .ok prog
  last : (app.pcb.slot k).c.last = UInt32.ofNat prog.commands.length
  code : ∀ (i : Nat) (hi : i < prog.commands.length), pc ≤ i →
    (app.entry k i).Carries prog.commands[i] (i ≠ pc)
  it : (app.pcb.slot k).c.it = (app.pcb.slot k).addressSpace
  space : ∃ b ∈ app.mem.live, b.ptr = (app.pcb.slot k).addressSpace ∧ b.Fits prog.commands.length

namespace Holds

variable {app app' : App} {k k' : Fin MAX_PCB} {prog : Program} {pc : Nat}

theorem block (h : Holds app k prog pc) :
    ∃ b ∈ app.mem.live, b.ptr = (app.pcb.slot k).addressSpace ∧ 0 < b.pages := by
  obtain ⟨b, hb, hptr, hpages, -⟩ := h.space
  exact ⟨b, hb, hptr, hpages⟩

theorem lt_length (h : Holds app k prog pc) {i : Nat} (hi : i < (app.pcb.slot k).c.last.toNat) :
    i < prog.commands.length := by
  rw [h.last, UInt32.toNat_ofNat'] at hi
  exact Nat.lt_of_lt_of_le hi (Nat.mod_le _ _)

/-- The instructions after it are the same wherever the program is held. -/
theorem later_same (h : Holds app k prog pc) (h' : Holds app' k' prog pc) {i : Nat}
    (hi : pc < i) (hlast : i < (app.pcb.slot k).c.last.toNat) :
    (app.entry k i).Same (app'.entry k' i) := by
  obtain ⟨fp, -, hprog⟩ := h.file
  have hlen := h.lt_length hlast
  have hne : i ≠ pc := Nat.ne_of_gt hi
  exact (h.code i hlen hi.le).same (h'.code i hlen hi.le) hne hne
    (programOf_complete hprog _ (List.getElem_mem hlen))

/-- The time of the instruction may change, and what is not of the process. -/
theorem of_entries (h : Holds app k prog pc)
    (hfile : (app'.heap.syntBuffers (app'.pcb.slot k').fb).fp
      = (app.heap.syntBuffers (app.pcb.slot k).fb).fp)
    (hlast : (app'.pcb.slot k').c.last = (app.pcb.slot k).c.last)
    (hentry : ∀ i, i < prog.commands.length → i ≠ pc → app'.entry k' i = app.entry k i)
    (hcurrent : pc < prog.commands.length →
      ∃ t, app'.entry k' pc = { app.entry k pc with remainingTime := t })
    (hit : (app'.pcb.slot k').c.it = (app.pcb.slot k).c.it)
    (hspace : (app'.pcb.slot k').addressSpace = (app.pcb.slot k).addressSpace)
    (hlive : ∀ b ∈ app.mem.live, b.ptr = (app.pcb.slot k).addressSpace → b ∈ app'.mem.live) :
    Holds app' k' prog pc where
  file := hfile ▸ h.file
  last := hlast.trans h.last
  code i hi hle := by
    have hcarries := h.code i hi hle
    by_cases hpc : i = pc
    · subst hpc
      obtain ⟨t, ht⟩ := hcurrent hi
      rw [ht]
      exact ⟨hcarries.e, hcarries.fpPos, fun hne => absurd rfl hne, hcarries.semName⟩
    · rw [hentry i hi hpc]
      exact hcarries
  it := (hit.trans h.it).trans hspace.symm
  space := by
    obtain ⟨b, hb, hptr, hfits⟩ := h.space
    exact ⟨b, hlive b hb hptr, hptr.trans hspace.symm, hfits⟩

/-- A growth with fresh blocks brings the instruction back, and the program. -/
theorem growth {bytes : UInt32} (h : Holds app k prog (app.pcb.slot k).c.pc.toNat)
    (hfresh : app.mem.FreshSince app'.mem)
    (hok : pRealloc app k (app.pcb.slot k).addressSpace bytes = .ok app') :
    (app'.pcb.slot k).c.pc = (app.pcb.slot k).c.pc ∧
      app'.entry k (app.pcb.slot k).c.pc.toNat = app.entry k (app.pcb.slot k).c.pc.toNat ∧
      Holds app' k prog (app.pcb.slot k).c.pc.toNat := by
  have hregion : (app.pcb.slot k).addressSpace ≠ 0 := by
    obtain ⟨b, -, hptr, -⟩ := h.space
    rw [← hptr]
    exact Memory.ptr_ne_zero b
  obtain ⟨it, buffer, fp, fp₁, m₁, m₂, m₃, m₄, st₁, st₂, c, hgrown, rfl⟩ := pRealloc_eq_ok hok hregion
  have hsaved := hgrown.saved h.block hfresh
  obtain ⟨fp₀, hfp₀, hprog⟩ := h.file
  cases hgrown.file.symm.trans hfp₀
  have hreloaded := hgrown.reloaded hprog
  obtain ⟨fp', hfp', hdata⟩ := hreloaded.file
  obtain ⟨b, hb, hbptr, hbpages, hroom⟩ := hgrown.space_live h.block hfresh
  have hcurrent : (app.grown k (app.pcb.slot k).addressSpace it buffer m₄ st₁ st₂).entry k
      (app.pcb.slot k).c.pc.toNat = app.entry k (app.pcb.slot k).c.pc.toNat := by
    rw [App.grown_entry, if_pos rfl, hsaved]
    rfl
  have hpc : ((app.grown k (app.pcb.slot k).addressSpace it buffer m₄ st₁ st₂).pcb.slot k).c.pc
      = (app.pcb.slot k).c.pc := by
    rw [App.grown_slot]
    rfl
  refine ⟨hpc, hcurrent, ?_⟩
  constructor
  case file =>
    rw [App.grown_slot]
    exact ⟨fp', hfp', hdata ▸ hprog⟩
  case last =>
    rw [App.grown_slot]
    exact h.last
  case code =>
    intro i hi hle
    by_cases hne : i = (app.pcb.slot k).c.pc.toNat
    · have hcarries := h.code i hi hle
      subst hne
      rw [hcurrent]
      exact hcarries
    · rw [App.grown_entry, if_neg hne]
      obtain ⟨d, hd⟩ := hreloaded.code i hi
      rw [hd]
      exact store_carries d _ _ _
  case it =>
    rw [App.grown_slot]
    rfl
  case space =>
    rw [App.grown_slot]
    exact ⟨b, hb, hbptr, .of_header hbpages hroom hreloaded.fits⟩

/-- A change of a process elsewhere leaves its program alone. -/
theorem modify {f : Process → Process} (h : Holds app k prog pc)
    (hf : ∀ p, (f p).c.it = p.c.it ∧ (f p).c.last = p.c.last ∧ (f p).fb = p.fb ∧
      (f p).addressSpace = p.addressSpace) :
    Holds { app with pcb := app.pcb.modify k f } k prog pc := by
  obtain ⟨hit, hlast, hfb, hspace⟩ := hf (app.pcb.slot k)
  have hentry : ∀ i, ({ app with pcb := app.pcb.modify k f } : App).entry k i = app.entry k i := by
    intro i
    rw [App.entry, PCB.slot_modify_self, hit]
    rfl
  refine h.of_entries ?_ ?_ (fun i _ _ => hentry i) (fun _ => ⟨_, hentry pc⟩) ?_ ?_ fun b hb _ => hb
  · rw [PCB.slot_modify_self, hfb]
  · rw [PCB.slot_modify_self, hlast]
  · rw [PCB.slot_modify_self, hit]
  · rw [PCB.slot_modify_self, hspace]

/-- A creation leaves the program in memory. -/
theorem of_created {address : List UInt8} {p : Process} {st : Store} (h : Created app address p st)
    (hst : app'.toStore = st) (hslot : app'.pcb.slot k = p) :
    ∃ data prog, app.fs address = some data ∧ programOf data = .ok prog ∧
      ((∃ b ∈ app'.mem.live, b.ptr = p.addressSpace ∧ b.Fits prog.commands.length) →
        Holds app' k prog 0) := by
  subst hst hslot
  obtain ⟨data, prog, hdata, hprog, hcreated⟩ := h.program
  obtain ⟨fp, hfp, hfpdata⟩ := hcreated.file
  refine ⟨data, prog, hdata, hprog, fun hspace =>
    ⟨⟨fp, hfp, hfpdata ▸ hprog⟩, hcreated.last, fun i hi _ => ?_, hcreated.it, hspace⟩⟩
  obtain ⟨c, hc⟩ := hcreated.code i hi
  rw [App.entry, hcreated.it, hc]
  exact store_carries c _ _ _

theorem of_pCreate {address : List UInt8} {pid : UInt32}
    (h : pCreate app address = .ok (pid, app')) (hroom : app.pcb.curr.toNat < MAX_PCB - 1) :
    ∃ data prog, app.fs address = some data ∧ programOf data = .ok prog ∧
      ((∃ b ∈ app'.mem.live,
          b.ptr = (app'.pcb.slot ⟨app.pcb.curr.toNat, Nat.lt_of_lt_pred hroom⟩).addressSpace ∧
            b.Fits prog.commands.length) →
        Holds app' ⟨app.pcb.curr.toNat, Nat.lt_of_lt_pred hroom⟩ prog 0) := by
  rcases pCreate_eq_ok h with ⟨hfull, -, -⟩ | ⟨hcurr, p, st, hp, -, happ⟩
  · exact absurd hroom (Nat.not_lt.mpr hfull)
  have hst : app'.toStore = st := by rw [happ]
  have hslot : app'.pcb.slot ⟨app.pcb.curr.toNat, Nat.lt_of_lt_pred hroom⟩ = p := by
    rw [happ]
    exact (PCB.slot_enter app.pcb p (Nat.lt_of_lt_pred hcurr) _).trans (if_pos rfl)
  obtain ⟨data, prog, hdata, hprog, hholds⟩ := of_created hp hst hslot
  exact ⟨data, prog, hdata, hprog, fun hspace => hholds (hslot ▸ hspace)⟩

end Holds

/-! ## What others do -/

/-- Others have run: the process is in the slot it was in, or in another, with all that
is its own. -/
structure Apart (length : Nat) (app : App) (k : Fin MAX_PCB) (app' : App) (k' : Fin MAX_PCB) :
    Prop where
  c : (app'.pcb.slot k').c = (app.pcb.slot k).c
  fb : (app'.pcb.slot k').fb = (app.pcb.slot k).fb
  addressSpace : (app'.pcb.slot k').addressSpace = (app.pcb.slot k).addressSpace
  file : (app'.heap.syntBuffers (app.pcb.slot k).fb).fp = (app.heap.syntBuffers (app.pcb.slot k).fb).fp
  entry : ∀ i < length, app'.entry k' i = app.entry k i
  live : ∀ b ∈ app.mem.live, b.ptr = (app.pcb.slot k).addressSpace → b ∈ app'.mem.live

namespace Apart

variable {n : Nat} {app app' app'' : App} {k k' k'' : Fin MAX_PCB}

theorem refl : Apart n app k app k := ⟨rfl, rfl, rfl, rfl, fun _ _ => rfl, fun _ hb _ => hb⟩

theorem trans (h : Apart n app k app' k') (h' : Apart n app' k' app'' k'') :
    Apart n app k app'' k'' where
  c := h'.c.trans h.c
  fb := h'.fb.trans h.fb
  addressSpace := h'.addressSpace.trans h.addressSpace
  file := by
    have hfile := h'.file
    rw [h.fb] at hfile
    exact hfile.trans h.file
  entry i hi := (h'.entry i hi).trans (h.entry i hi)
  live b hb hptr := h'.live b (h.live b hb hptr) (hptr.trans h.addressSpace.symm)

/-- Where the process is may change, with the other processes. -/
theorem of_slot (hheap : app'.heap = app.heap) (hmem : app'.mem = app.mem)
    (hc : (app'.pcb.slot k').c = (app.pcb.slot k).c)
    (hfb : (app'.pcb.slot k').fb = (app.pcb.slot k).fb)
    (hspace : (app'.pcb.slot k').addressSpace = (app.pcb.slot k).addressSpace) :
    Apart n app k app' k' where
  c := hc
  fb := hfb
  addressSpace := hspace
  file := by rw [hheap]
  entry i _ := by rw [App.entry, App.entry, hc, hheap]
  live b hb _ := hmem ▸ hb

end Apart

theorem Holds.apart {app app' : App} {k k' : Fin MAX_PCB} {prog : Program} {pc : Nat}
    (h : Holds app k prog pc) (hapart : Apart prog.commands.length app k app' k') :
    Holds app' k' prog pc := by
  refine h.of_entries ?_ (congrArg CodeSection.last hapart.c) (fun i hi _ => hapart.entry i hi)
    (fun hpc => ⟨_, hapart.entry pc hpc⟩) (congrArg CodeSection.it hapart.c) hapart.addressSpace
    hapart.live
  rw [hapart.fb]
  exact hapart.file

end ChicOS
