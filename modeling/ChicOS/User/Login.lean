-- SUMMARY: Registering and then logging in: it works exactly for names that fit a line and have no space at an end.
import ChicOS.User.User
import ChicOS.Memory.Leases

/-!
# Logging in

The name is written behind a keyword of ten characters and read back through an
array of 256 bytes, so 245 characters of it come through, and it is trimmed. What
`read_login_data` finds is such a name, whatever the file (`readFields_name`): a
longer name, or one with a space at an end, is never found again.
-/

namespace ChicOS

/-! ## The fields of a file -/

/-- The name that is found is trimmed, and short. -/
structure FieldName (usr : User) : Prop where
  trimmed : Trimmed usr.username
  length : usr.username.length ≤ 245

theorem readField_name {line : List UInt8} {r : Nat × User} (h : FieldName r.2)
    (hline : line.length ≤ MAX_LINE_LENGTH - 1) : FieldName (readField line r).2 := by
  unfold readField
  dsimp only
  split
  · refine ⟨trimmed_trimWhitespace _, Nat.le_trans (trimWhitespace_length_le _) ?_⟩
    have hcut : (CString.terminate line).length ≤ line.length :=
      (List.takeWhile_prefix _).length_le
    rw [List.length_take, List.length_drop]
    unfold MAX_LINE_LENGTH at hline ⊢
    omega
  · split
    · exact ⟨h.trimmed, h.length⟩
    · exact h

theorem readFields_name {fuel : Nat} {fp : File} {r r' : Nat × User} (h : FieldName r.2)
    (hok : readFields fuel fp r = .ok r') : FieldName r'.2 := by
  induction fuel generalizing fp r with
  | zero => cases hok
  | succ fuel ih =>
      rw [readFields] at hok
      split at hok
      · cases hok
        exact h
      · rename_i line fp' hgets
        exact ih (readField_name h (File.gets_length_le hgets)) hok

/-! ## The file of a user -/

theorem readFields_line {fuel : Nat} {fp fp' : File} {r : Nat × User} {line : List UInt8}
    (hgets : fp.gets (MAX_LINE_LENGTH - 1) = (some line, fp')) :
    readFields (fuel + 1) fp r = readFields fuel fp' (readField line r) := by
  rw [readFields, hgets]

theorem readFields_end {fuel : Nat} {fp : File} {r : Nat × User} (h : fp.rest = []) :
    readFields (fuel + 1) fp r = .ok r := by
  rw [readFields, File.gets_nil (MAX_LINE_LENGTH - 1) h]

section Field

variable {s tail : List UInt8}

/-- The parts of a line with a keyword. -/
theorem field_parts (keyword : List UInt8) (hkeyword : keyword.length = 10) (hk : 0 ∉ keyword)
    (hs : ∀ b ∈ s, CString.isPrint b = true) (htail : CString.LineEnd tail) :
    (CString.terminate (keyword ++ s ++ tail)).take 10 = keyword ∧
      (CString.terminate (keyword ++ s ++ tail)).drop 10 = s ++ tail := by
  have hzero : 0 ∉ keyword ++ s ++ tail := by
    have hs0 : 0 ∉ s := fun hmem => by cases hs 0 hmem
    have htail0 : 0 ∉ tail := htail.not_mem (by decide)
    simp [hk, hs0, htail0]
  rw [CString.terminate_of_not_mem hzero, List.append_assoc]
  exact ⟨List.take_left' hkeyword, List.drop_left' hkeyword⟩

/-- A trimmed field comes through. -/
theorem trim_field {n : Nat} (hs : Trimmed s) (hlen : s.length ≤ n) (htail : CString.LineEnd tail) :
    trimWhitespace ((s ++ tail).take n) = s := by
  rw [List.take_append, List.take_of_length_le hlen]
  apply trimWhitespace_append hs
  intro b hb
  rcases htail with rfl | rfl
  · simp at hb
  · rw [List.mem_singleton.mp (List.mem_of_mem_take hb)]
    rfl

theorem readField_username (hs : Trimmed s) (hprint : ∀ b ∈ s, CString.isPrint b = true)
    (hlen : s.length ≤ MAX_LINE_LENGTH - 1) (htail : CString.LineEnd tail) (r : Nat × User) :
    readField (ascii "USERNAME: " ++ s ++ tail) r = (r.1 + 1, { r.2 with username := s }) := by
  obtain ⟨htake, hdrop⟩ :=
    field_parts (ascii "USERNAME: ") (by decide) (by decide) hprint htail
  unfold readField
  dsimp only
  rw [htake, hdrop, if_pos rfl, trim_field hs hlen htail]

theorem readField_password (hs : Trimmed s) (hprint : ∀ b ∈ s, CString.isPrint b = true)
    (hlen : s.length ≤ PWHASH_STRBYTES - 1) (htail : CString.LineEnd tail) (r : Nat × User) :
    readField (ascii "PASSWORD: " ++ s ++ tail) r = (r.1 + 1, { r.2 with password := s }) := by
  obtain ⟨htake, hdrop⟩ :=
    field_parts (ascii "PASSWORD: ") (by decide) (by decide) hprint htail
  unfold readField
  dsimp only
  rw [htake, hdrop, if_neg (by decide), if_pos rfl, trim_field hs hlen htail]

/-- A line without a keyword. -/
theorem readField_newline (r : Nat × User) : readField [10] r = r := rfl

end Field

/-- The hashes that libsodium makes: short, printable, and accepted exactly for the
password they were made from. -/
structure PasswordHash (crypto : Pwhash) (password hash : List UInt8) : Prop where
  length : hash.length ≤ PWHASH_STRBYTES - 1
  print : ∀ b ∈ hash, CString.isPrint b = true ∧ b ≠ 32
  verify : ∀ q, crypto.verify hash q = true ↔ q = password

theorem not_space {b : UInt8} (h : CString.isPrint b = true) (hb : b ≠ 32) :
    CString.isSpace b = false := by
  rw [CString.isSpace_of_isPrint h]
  exact decide_eq_false hb

theorem PasswordHash.trimmed {crypto : Pwhash} {password hash : List UInt8}
    (h : PasswordHash crypto password hash) : Trimmed hash := by
  constructor
  · intro b hb
    have hmem := h.print b (List.mem_of_head? hb)
    exact not_space hmem.1 hmem.2
  · intro b hb
    have hmem := h.print b (List.mem_of_getLast? hb)
    exact not_space hmem.1 hmem.2

/-- A printable text has no newline. -/
theorem newline_not_mem {keyword s : List UInt8} (hkeyword : 10 ∉ keyword)
    (hs : ∀ b ∈ s, CString.isPrint b = true) : 10 ∉ keyword ++ s := by
  rw [List.mem_append, not_or]
  exact ⟨hkeyword, fun hmem => by cases hs 10 hmem⟩

/-- The line of the password, and the end of the file. -/
theorem readFields_password {crypto : Pwhash} {password hash : List UInt8}
    (h : PasswordHash crypto password hash) {fuel : Nat} {fp : File} (r : Nat × User)
    (hrest : fp.rest = ascii "PASSWORD: " ++ hash ++ [10]) :
    readFields (fuel + 2) fp r = .ok (r.1 + 1, { r.2 with password := hash }) := by
  have hprint : ∀ b ∈ hash, CString.isPrint b = true := fun b hb => (h.print b hb).1
  have hlen : (ascii "PASSWORD: " ++ hash).length < MAX_LINE_LENGTH - 1 := by
    have hhash := h.length
    have hkeyword : (ascii "PASSWORD: ").length = 10 := by decide
    rw [List.length_append, hkeyword]
    unfold PWHASH_STRBYTES at hhash
    unfold MAX_LINE_LENGTH
    omega
  have hgets := File.gets_newline (s := fp) hrest (newline_not_mem (by decide) hprint) hlen
  rw [readFields_line hgets, readFields_end rfl]
  exact congrArg Except.ok (readField_password h.trimmed hprint h.length (.inr rfl) r)

/-- The two fields of a user's file, if the name is trimmed and fits. -/
theorem readFields_loginData {crypto : Pwhash} {username password hash : List UInt8}
    (h : PasswordHash crypto password hash) (hname : Trimmed username)
    (hprint : ∀ b ∈ username, CString.isPrint b = true) (hlen : username.length ≤ 245)
    (fuel : Nat) :
    readFields (fuel + 4) (File.start (loginData username hash)) (0, User.zero)
      = .ok (2, { username := username, password := hash, logged := false }) := by
  have hkeyword : (ascii "USERNAME: ").length = 10 := by decide
  have hmem : 10 ∉ ascii "USERNAME: " ++ username := newline_not_mem (by decide) hprint
  have hfits : username.length ≤ MAX_LINE_LENGTH - 1 := Nat.le_trans hlen (by decide)
  by_cases hfull : username.length = 245
  · -- the name fills the array, and its newline is a line of its own
    have htotal : (ascii "USERNAME: " ++ username).length = 255 := by
      rw [List.length_append, hkeyword, hfull]
    have htake : (File.start (loginData username hash)).rest.take (MAX_LINE_LENGTH - 1)
        = ascii "USERNAME: " ++ username := List.take_left' htotal
    have hdrop : (File.start (loginData username hash)).rest.drop (MAX_LINE_LENGTH - 1)
        = 10 :: (ascii "PASSWORD: " ++ hash ++ [10]) := List.drop_left' htotal
    have hgets := File.gets_cut (s := File.start (loginData username hash))
      (n := MAX_LINE_LENGTH - 1) (by decide) (by rwa [htake]) (by
        show 255 ≤ (loginData username hash).length
        rw [loginData, List.length_append, htotal]
        omega)
    rw [htake, hdrop] at hgets
    have hnewline := File.gets_newline (s := { File.start (loginData username hash) with
      rest := 10 :: (ascii "PASSWORD: " ++ hash ++ [10]) }) (n := MAX_LINE_LENGTH - 1) (l := []) rfl
      List.not_mem_nil (by decide)
    have hfield := readField_username hname hprint hfits (.inl rfl) (0, User.zero)
    rw [List.append_nil] at hfield
    rw [readFields_line hgets, hfield, readFields_line hnewline, List.nil_append, readField_newline]
    exact readFields_password h _ rfl
  · have hroom : (ascii "USERNAME: " ++ username).length < MAX_LINE_LENGTH - 1 := by
      rw [List.length_append, hkeyword]
      unfold MAX_LINE_LENGTH
      omega
    have hgets := File.gets_newline (s := File.start (loginData username hash)) rfl hmem hroom
    rw [readFields_line hgets, readField_username hname hprint hfits (.inr rfl)]
    exact readFields_password h _ rfl

/-! ## A login -/

/-- `c_alloc` has a block for the request. -/
def Memory.Serves (m : Memory) (bytes : UInt32) : Prop :=
  ∃ p m', cAlloc m bytes = .ok (p, m') ∧ p ≠ 0

/-- `read_login_data` returns the user, logged in. -/
def LogsIn (crypto : Pwhash) (app : App) (u : User) : Prop :=
  ∃ p usr app', readLoginData crypto app u = .ok (some (p, usr), app') ∧
    usr.username = u.username ∧ usr.logged = true

/-- `read_login_data` returns `NULL`. -/
def Refused (crypto : Pwhash) (app : App) (u : User) : Prop :=
  ∃ app', readLoginData crypto app u = .ok (none, app')

/-- Once registered, the user is let in, and with another password nobody is. -/
def RegistersAndLogsIn (crypto : Pwhash) (create : List UInt8 → Bool) (app : App) (u : User) :
    Prop :=
  ∃ app', writeLoginData crypto create app u = .ok app' ∧ LogsIn crypto app' u ∧
    ∀ q, q ≠ u.password → Refused crypto app' { u with password := q }

section Login

variable {crypto : Pwhash} {app app' : App} {u usr : User} {p : Addr} {mem : Memory}
  {data : List UInt8} {found : Nat}

theorem readLoginData_eq_some (h : readLoginData crypto app u = .ok (some (p, usr), app')) :
    usr.username = u.username ∧ FieldName usr ∧ app.mem.Serves sizeofUser := by
  unfold readLoginData at h
  split at h
  · cases h
  rename_i data hdata
  obtain ⟨⟨q, app₁⟩, halloc, h⟩ := Except.bind_eq_ok.mp h
  obtain ⟨mem, hmem, -⟩ := alloc_eq_ok halloc
  dsimp only at h
  split at h
  · cases h
  rename_i hq
  obtain ⟨⟨found, usr'⟩, hfields, h⟩ := Except.bind_eq_ok.mp h
  dsimp only at h
  split at h
  · rename_i haccept
    cases h
    have hname : FieldName usr' := readFields_name ⟨trimmed_nil, Nat.zero_le _⟩ hfields
    exact ⟨haccept.2.1, ⟨hname.trimmed, hname.length⟩, p, mem, hmem, hq⟩
  · obtain ⟨app₂, -, h⟩ := Except.bind_eq_ok.mp h
    cases h

/-- Who is let in has a name that a file can hold. -/
theorem LogsIn.fieldName (h : LogsIn crypto app u) : FieldName u := by
  obtain ⟨p, usr, app', hread, -, -⟩ := h
  obtain ⟨hfound, hfield, -⟩ := readLoginData_eq_some hread
  constructor
  · rw [← hfound]
    exact hfield.trimmed
  · rw [← hfound]
    exact hfield.length

theorem LogsIn.serves (h : LogsIn crypto app u) : app.mem.Serves sizeofUser := by
  obtain ⟨p, usr, app', hread, -, -⟩ := h
  exact (readLoginData_eq_some hread).2.2

theorem readLoginData_accept (hdata : app.fs (retrieveAddr u.username) = some data)
    (halloc : cAlloc app.mem sizeofUser = .ok (p, mem)) (hp : p ≠ 0)
    (hfields : readFields (data.length + 1) (File.start data) (0, User.zero) = .ok (2, usr))
    (hname : usr.username = u.username) (hverify : crypto.verify usr.password u.password = true) :
    readLoginData crypto app u
      = .ok (some (p, { usr with logged := true }), { app with mem := mem }) := by
  rw [readLoginData, hdata, App.alloc, halloc]
  refine (if_neg hp).trans ?_
  rw [hfields]
  exact if_pos ⟨rfl, hname, hverify⟩

theorem readLoginData_refuse (hdata : app.fs (retrieveAddr u.username) = some data)
    (halloc : cAlloc app.mem sizeofUser = .ok (p, mem)) (hp : p ≠ 0)
    (hfields : readFields (data.length + 1) (File.start data) (0, User.zero) = .ok (found, usr))
    (hverify : ¬ crypto.verify usr.password u.password = true) : Refused crypto app u := by
  obtain ⟨mem', hfree⟩ := Memory.cDealloc_of_cAlloc halloc hp
  refine ⟨{ app with mem := mem' }, ?_⟩
  rw [readLoginData, hdata, App.alloc, halloc]
  refine (if_neg hp).trans ?_
  rw [hfields]
  refine (if_neg fun haccept => hverify haccept.2.2).trans ?_
  rw [App.dealloc, hfree]
  rfl

end Login

/-! ## Registering first -/

/-- A printable name is trimmed if it has no space at an end. -/
theorem trimmed_iff_space {s : List UInt8} (h : ∀ b ∈ s, CString.isPrint b = true) :
    Trimmed s ↔ s.head? ≠ some 32 ∧ s.getLast? ≠ some 32 := by
  constructor
  · intro htrimmed
    constructor
    · intro hhead
      exact absurd (htrimmed.head 32 hhead) (by decide)
    · intro hlast
      exact absurd (htrimmed.last 32 hlast) (by decide)
  · rintro ⟨hhead, hlast⟩
    constructor
    · intro b hb
      refine not_space (h b (List.mem_of_head? hb)) ?_
      rintro rfl
      exact hhead hb
    · intro b hb
      refine not_space (h b (List.mem_of_getLast? hb)) ?_
      rintro rfl
      exact hlast hb

section Register

variable {crypto : Pwhash} {create : List UInt8 → Bool} {app : App} {u : User}
  {hash : List UInt8}

theorem writeLoginData_eq (hcreate : create (retrieveAddr u.username) = true)
    (hstr : crypto.str u.password = some hash) (app : App) :
    writeLoginData crypto create app u = .ok { app with
      fs := Function.update app.fs (retrieveAddr u.username)
        (some (loginData u.username hash)) } := by
  rw [writeLoginData, hcreate, hstr]
  rfl

/-- Registering and then logging in works exactly for the names that fit behind
their keyword and have no space at an end, if there is a block for the user. -/
theorem register_and_log_in (hcreate : create (retrieveAddr u.username) = true)
    (hstr : crypto.str u.password = some hash) (hhash : PasswordHash crypto u.password hash)
    (hname : Typed (MAX_LINE_LENGTH - 1) u.username) :
    RegistersAndLogsIn crypto create app u ↔
      u.username.length ≤ 245 ∧ u.username.head? ≠ some 32 ∧ u.username.getLast? ≠ some 32 ∧
        app.mem.Serves sizeofUser := by
  have hwrite := writeLoginData_eq hcreate hstr app
  constructor
  · rintro ⟨app', hok, hlogin, -⟩
    rw [hwrite] at hok
    cases hok
    obtain ⟨hhead, hlast⟩ := (trimmed_iff_space hname.print).mp hlogin.fieldName.trimmed
    exact ⟨hlogin.fieldName.length, hhead, hlast, hlogin.serves⟩
  · rintro ⟨hlen, hhead, hlast, p, mem, halloc, hp⟩
    have htrimmed : Trimmed u.username := (trimmed_iff_space hname.print).mpr ⟨hhead, hlast⟩
    have hlong : 4 ≤ (loginData u.username hash).length + 1 := by
      have hkeyword : (ascii "USERNAME: ").length = 10 := by decide
      rw [loginData, List.length_append, List.length_append, hkeyword]
      omega
    obtain ⟨fuel, hfuel⟩ := Nat.exists_eq_add_of_le' hlong
    have hfields := readFields_loginData hhash htrimmed hname.print hlen fuel
    rw [← hfuel] at hfields
    have hdata : Function.update app.fs (retrieveAddr u.username)
        (some (loginData u.username hash)) (retrieveAddr u.username)
          = some (loginData u.username hash) := Function.update_self _ _ _
    refine ⟨_, hwrite, ?_, ?_⟩
    · exact ⟨p, _, _, readLoginData_accept hdata halloc hp hfields rfl ((hhash.verify _).mpr rfl),
        rfl, rfl⟩
    · intro q hq
      exact readLoginData_refuse (u := { u with password := q }) hdata halloc hp hfields
        fun hverify => hq ((hhash.verify q).mp hverify)

end Register

/-- A hashing that hides nothing, for short passwords without a space. -/
def plainPwhash : Pwhash where
  str password := some (ascii "$argon2id$" ++ password)
  verify hash password := decide (hash = ascii "$argon2id$" ++ password)

theorem plainPwhash_hash {password : List UInt8} (h : Typed 117 password) (hspace : 32 ∉ password) :
    PasswordHash plainPwhash password (ascii "$argon2id$" ++ password) := by
  have hkeyword : Typed 10 (ascii "$argon2id$") := by decide
  have hword : 32 ∉ ascii "$argon2id$" := by decide
  constructor
  · rw [List.length_append]
    exact Nat.add_le_add hkeyword.length h.length
  · intro b hb
    rcases List.mem_append.mp hb with hb | hb
    · exact ⟨hkeyword.print b hb, ne_of_mem_of_not_mem hb hword⟩
    · exact ⟨h.print b hb, ne_of_mem_of_not_mem hb hspace⟩
  · intro q
    calc plainPwhash.verify (ascii "$argon2id$" ++ password) q = true
        ↔ ascii "$argon2id$" ++ password = ascii "$argon2id$" ++ q := decide_eq_true_iff
      _ ↔ password = q := List.append_right_inj _
      _ ↔ q = password := eq_comm

/-- No user is registered, and the pool has a few pages. -/
def App.noUsers : App :=
  { App.zero Heap.zero fun _ => none with mem := initMem (fun _ => 0) 4096 }

theorem App.noUsers_serves : App.noUsers.mem.Serves sizeofUser := by
  have hserved : (cAlloc (initMem (fun _ => 0) 4096) sizeofUser).toOption.any
      (fun r => decide (r.1 ≠ 0)) = true := by decide +kernel
  obtain ⟨⟨p, m'⟩, hsome, hp⟩ := (Option.any_eq_true _ _).mp hserved
  exact ⟨p, m', Except.toOption_eq_ok.mp hsome, of_decide_eq_true hp⟩

/-- The longest name that works. -/
def longestUser : User :=
  { username := List.replicate 245 97, password := ascii "secret", logged := false }

theorem register_and_log_in_longest :
    RegistersAndLogsIn plainPwhash (fun _ => true) .noUsers longestUser := by
  refine (register_and_log_in rfl rfl (plainPwhash_hash (by decide) (by decide)) ?_).mpr ?_
  · decide +kernel
  · exact ⟨by decide +kernel, by decide, by decide +kernel, App.noUsers_serves⟩

/-- With a space behind the name the file is written, and nobody gets in. -/
theorem register_and_log_in_space :
    ¬ ∀ (crypto : Pwhash) (create : List UInt8 → Bool) (app : App) (u : User) (hash : List UInt8),
      create (retrieveAddr u.username) = true → crypto.str u.password = some hash →
      PasswordHash crypto u.password hash → Typed (MAX_LINE_LENGTH - 1) u.username →
      Typed (PWHASH_STRBYTES - 1) u.password → app.mem.Serves sizeofUser →
      RegistersAndLogsIn crypto create app u := by
  intro h
  let u : User := { username := ascii "ana ", password := ascii "secret", logged := false }
  obtain ⟨app', -, hlogin, -⟩ := h plainPwhash (fun _ => true) .noUsers u _ rfl rfl
    (plainPwhash_hash (by decide) (by decide)) (by decide) (by decide) App.noUsers_serves
  exact absurd (hlogin.fieldName.trimmed.last 32 rfl) (by decide)

end ChicOS
