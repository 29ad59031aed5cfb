-- SUMMARY: The name p_create takes from a path: for which paths it is safe and the last component.
import ChicOS.Cpu.Marshalling
import ChicOS.Process.Loading

/-!
# Naming

`p_create` copies one component of the path after another into an array of 16 bytes, and
takes the name from the last, up to a dot. Nothing bounds a component, there may be no
component at all, and the second `strtok` skips the dots a component begins with and may
find nothing behind them.
-/

namespace ChicOS

/-! ## Names -/

/-- What stands between the slashes of a path. -/
def components (path : List UInt8) : List (List UInt8) := CString.parts 47 path

/-- The last component up to its first dot. -/
def processName (path : List UInt8) : Option (List UInt8) :=
  (components path).getLast?.map (·.takeWhile (· ≠ 46))

/-- `p_create` copies every component within its array, and the name is that of the path. The
path is the one that `%s` scans from what was typed. -/
def SafelyNamed (typed : List UInt8) : Prop :=
  ∃ path name, scanS typed = .ok path ∧ processName path = some name ∧
    createName path = .ok (some name)

/-- A path whose components are all short, and whose last does not begin with a dot. -/
structure Nameable (path : List UInt8) : Prop where
  component : components path ≠ []
  short : ∀ part ∈ components path, part.length < 16
  dot : ∀ last, (components path).getLast? = some last → last.head? ≠ some 46

/-! ## The last component -/

/-- The second `strtok` takes what stands before the first dot, unless that is nothing. -/
theorem strtok_dot_iff {last : List UInt8} (hne : last ≠ []) :
    (CString.strtok 46 last).map Prod.fst = some (last.takeWhile (· ≠ 46)) ↔
      last.head? ≠ some 46 := by
  obtain ⟨c, rest, rfl⟩ := List.exists_cons_of_ne_nil hne
  by_cases hdot : c = 46
  · subst hdot
    refine iff_of_false (fun h => ?_) (not_not_intro rfl)
    obtain ⟨⟨t, after⟩, hstrtok, ht⟩ := Option.map_eq_some_iff.mp h
    obtain ⟨n, tail, -, hne, -⟩ := CString.strtok_eq_some hstrtok
    exact hne ht
  · refine iff_of_true ?_ fun h => hdot (Option.some.inj h)
    have hskip : (c :: rest).dropWhile (· = 46) = c :: rest := by simp [hdot]
    unfold CString.strtok
    rw [hskip]
    rfl

theorem components_ne_nil {path last : List UInt8} (h : (components path).getLast? = some last) :
    last ≠ [] := by
  have hmem := List.mem_of_getLast? h
  simpa using (List.mem_filter.mp hmem).2

theorem createName_iff {path : List UInt8} (hlen : path.length < MAX_ADDRESS_SIZE) :
    (∃ name, processName path = some name ∧ createName path = .ok (some name)) ↔
      Nameable path := by
  have htokens : CString.tokens 47 path = components path := CString.tokens_eq_parts 47 path
  unfold createName processName
  rw [htokens]
  dsimp only
  by_cases hlong : ∃ part ∈ components path, 16 ≤ part.length
  · rw [if_pos (.inr hlong)]
    refine iff_of_false (fun h => ?_) fun h => ?_
    · obtain ⟨name, -, h⟩ := h
      cases h
    · obtain ⟨part, hpart, hlong⟩ := hlong
      exact Nat.not_le_of_lt (h.short part hpart) hlong
  rw [if_neg (not_or.mpr ⟨Nat.not_le_of_lt hlen, hlong⟩)]
  have hshort : ∀ part ∈ components path, part.length < 16 := fun part hpart =>
    Nat.lt_of_not_le fun h => hlong ⟨part, hpart, h⟩
  cases hlast : (components path).getLast? with
  | none =>
      refine iff_of_false (fun h => ?_) fun h => h.component (List.getLast?_eq_none_iff.mp hlast)
      obtain ⟨name, h, -⟩ := h
      cases h
  | some last =>
      have hdot := strtok_dot_iff (components_ne_nil hlast)
      constructor
      · rintro ⟨name, hname, h⟩
        cases hname
        refine ⟨fun hnil => ?_, hshort, fun last' hlast' => ?_⟩
        · rw [hnil] at hlast
          cases hlast
        · cases hlast.symm.trans hlast'
          exact hdot.mp (Except.ok.inj h)
      · intro h
        exact ⟨_, rfl, congrArg Except.ok (hdot.mpr (h.dot last hlast))⟩

/-- What is scanned from a path fits the arrays that the path fits. -/
theorem length_scanS_le {typed path : List UInt8} (h : scanS typed = .ok path) :
    path.length ≤ typed.length := by
  unfold scanS at h
  split at h
  · cases h
  · rename_i hword
    cases h
    exact CString.length_scanWord_le hword

/-! ## The process -/

/-- The process that a `p_create` puts in the table has this name. -/
theorem pCreate_name {app app' : App} {path : List UInt8} {pid : UInt32}
    (h : pCreate app path = .ok (pid, app')) (hroom : app.pcb.curr.toNat < MAX_PCB - 1) :
    ∃ name, createName path = .ok (some name) ∧
      (app'.pcb.slot ⟨app.pcb.curr.toNat, Nat.lt_of_lt_pred hroom⟩).name = name := by
  obtain ⟨name, hname, h⟩ := Except.bind_eq_ok.mp h
  dsimp only at h
  rw [if_neg (Nat.not_le_of_lt hroom)] at h
  obtain ⟨⟨space, app₁⟩, halloc, h⟩ := Except.bind_eq_ok.mp h
  obtain ⟨mem, -, rfl⟩ := alloc_eq_ok halloc
  cases name with
  | none => cases h
  | some name =>
      obtain ⟨⟨fb, st₁⟩, hopen, h⟩ := Except.bind_eq_ok.mp h
      obtain ⟨⟨app₂, c⟩, hinit, h⟩ := Except.bind_eq_ok.mp h
      obtain ⟨fp, hfp, heof⟩ := openFile_file hopen (initCodeSection_fb_ne hinit)
      obtain ⟨-, st, -, rfl⟩ := initCodeSection_eq_ok fp hinit hfp heof
      obtain ⟨app₃, henter, h⟩ := Except.bind_eq_ok.mp h
      cases h
      obtain ⟨hlt, rfl⟩ := enterTable_eq_ok henter
      refine ⟨name, hname, ?_⟩
      show ((PCB.enter _ _ hlt).slot _).name = name
      rw [PCB.slot_enter]
      exact congrArg Process.name (if_pos rfl)

/-- A path that is typed is named safely just if the word `%s` scans from it is nameable. -/
theorem naming_safe (keys : List Int) {typed : List UInt8}
    (hkeys : readPathKeys [] keys = .entered typed) :
    SafelyNamed typed ↔ ∃ path, scanS typed = .ok path ∧ Nameable path := by
  have hlen : typed.length < MAX_ADDRESS_SIZE := by
    have htyped := (readPathKeys_typed (.nil _) hkeys).length
    unfold MAX_ADDRESS_SIZE at htyped ⊢
    omega
  have hfits {path : List UInt8} (hscan : scanS typed = .ok path) : path.length < MAX_ADDRESS_SIZE :=
    Nat.lt_of_le_of_lt (length_scanS_le hscan) hlen
  constructor
  · rintro ⟨path, name, hscan, hname, hcreate⟩
    exact ⟨path, hscan, (createName_iff (hfits hscan)).mp ⟨name, hname, hcreate⟩⟩
  · rintro ⟨path, hscan, hpath⟩
    obtain ⟨name, hname, hcreate⟩ := (createName_iff (hfits hscan)).mpr hpath
    exact ⟨path, name, hscan, hname, hcreate⟩

/-- The keys that type a path, up to the newline. -/
def typing (path : List UInt8) : List Int := path.map (fun b => (b.toNat : Int)) ++ [10]

theorem naming_safe_sint1 : SafelyNamed (ascii "resources//sint1.txt") := by
  have hkeys : readPathKeys [] (typing (ascii "resources//sint1.txt"))
      = .entered (ascii "resources//sint1.txt") := by
    decide
  have hlast : (components (ascii "resources//sint1.txt")).getLast? = some (ascii "sint1.txt") := by
    decide
  refine (naming_safe _ hkeys).mpr ⟨ascii "resources//sint1.txt", by decide,
    ⟨by decide, by decide, fun last h => ?_⟩⟩
  cases hlast.symm.trans h
  decide

/-- A directory on the way has a name of 17 characters. -/
theorem naming_not_always_safe :
    ¬ ∀ (access : List UInt8 → Bool) (keys : List Int) (typed : List UInt8),
      readPathKeys [] keys = .entered typed → validPath access typed = true → SafelyNamed typed := by
  intro h
  obtain ⟨path, name, hscan, -, hcreate⟩ := h (fun path => path = ascii "operating-systems/sint1")
    (typing (ascii "operating-systems/sint1")) (ascii "operating-systems/sint1") (by decide)
    (by decide)
  have hpath : scanS (ascii "operating-systems/sint1") = .ok (ascii "operating-systems/sint1") := by
    decide
  cases hpath.symm.trans hscan
  have hlong : createName (ascii "operating-systems/sint1") = .error .outOfBounds := by decide
  cases hlong.symm.trans hcreate

end ChicOS
