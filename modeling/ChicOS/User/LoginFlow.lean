-- SUMMARY: The login loop of render.c: it keeps a table of names and first passwords, and lets in who is in it.
import ChicOS.User.Login
import ChicOS.Memory.FirstFit

/-!
# The login flow

`login_flow` asks for credentials until somebody is let in. A name without a file is
registered with the password that was typed with it, and every other name has to be
typed with the password of its file.

What the flow is for is said without files, hashes and blocks: `Accounts` has the
password of every registered name, and `Accounts.flow` is the loop on it. The loop of
render.c does the same with the files of the users, and a user that is not let in
leaves no block behind.

The drawing is left out, and so are the pauses. Names have no slash: files are known by
their paths here, and what a name with one stands for is the host's to say.
-/

namespace ChicOS

-- ---------------------------------------------------------------------------
-- Accounts
-- ---------------------------------------------------------------------------

/-- The passwords of the names that are registered. -/
abbrev Accounts : Type := List UInt8 → Option (List UInt8)

/-- A name comes back from its file as it was written. -/
def storable (name : List UInt8) : Bool :=
  decide (trimWhitespace name = name) && decide (name.length ≤ 245)

namespace Accounts

/-- One attempt: whether the user is let in, and the accounts after it. -/
def enter (accounts : Accounts) (u : User) : Bool × Accounts :=
  match accounts u.username with
  | none => (storable u.username, Function.update accounts u.username (some u.password))
  | some password => (storable u.username && decide (u.password = password), accounts)

variable {accounts : Accounts} {name password : List UInt8}

end Accounts

-- ---------------------------------------------------------------------------
-- The loop
-- ---------------------------------------------------------------------------

/-- What the host says of files. -/
structure Host where
  /-- Whether `fopen` makes a file for writing. -/
  create : List UInt8 → Bool
  /-- The files that are there and cannot be opened. -/
  unreadable : List UInt8 → Bool

/-- `access`, for `F_OK`. -/
def Host.access (host : Host) (app : App) (addr : List UInt8) : Bool :=
  (app.fs addr).isSome || host.unreadable addr

/-- There is a free page, and the lock is free. -/
structure Memory.Spare (m : Memory) : Prop where
  inv : m.Inv
  lock : 0 < m.memoryS
  size : sizeofUser.toNat < m.size
  room : 0 < m.pt.freePageNum

namespace Memory.Spare

variable {m m' : Memory}

/-- A free page is a run of one. -/
theorem findRegion (h : m.Spare) : ∃ i, m.pt.findRegion 1 = some i := by
  have hcard : 0 < m.freePages.card := by
    rw [← h.inv.count]
    exact h.room
  obtain ⟨j, hj⟩ := Finset.card_pos.mp hcard
  obtain ⟨hlt, hfree⟩ := Memory.mem_freePages.mp hj
  cases hfind : m.pt.findRegion 1 with
  | some i => exact ⟨i, rfl⟩
  | none =>
      have hrun : m.pt.FreeRun 1 j := by
        refine ⟨hlt, fun k hk hk' => ?_⟩
        obtain rfl : k = j := by omega
        exact hfree
      have hnot := List.find?_range_eq_none.mp hfind j hlt
      rw [regionFree_iff.mpr hrun] at hnot
      cases hnot

/-- A user gets a page. -/
theorem alloc (h : m.Spare) :
    ∃ b m', b.pages = 1 ∧ cAlloc m sizeofUser = .ok (b.ptr, m') ∧ m.Leases m' [b] ∧
      m'.memoryS = m.memoryS ∧ m'.size = m.size := by
  obtain ⟨i, hfind⟩ := h.findRegion
  have hbytes : sizeofUser ≠ 0 := by decide
  have halloc := cAlloc_eq h.lock hbytes h.size h.room
  rw [show numPages sizeofUser = 1 from rfl, hfind] at halloc
  have hinv : (m.takeRegion i (numPages sizeofUser) sizeofUser).Inv := takeRegion_inv h.inv hfind
  refine ⟨{ start := i, pages := 1, bytes := sizeofUser.toNat }, _, rfl, halloc,
    ⟨hinv, .refl _, ?_⟩, rfl, rfl⟩
  exact Nat.sub_add_cancel h.room

/-- Giving the page back leaves what there was. -/
theorem dealloc {b : Block} (h : m.Spare) (hleases : m.Leases m' [b])
    (hlock : m'.memoryS = m.memoryS) (hsize : m'.size = m.size) :
    ∃ m'', cDealloc m' b.ptr = .ok m'' ∧ m.Leases m'' [] ∧ m''.Spare := by
  have hb : b ∈ m'.live := hleases.live.mem_iff.mpr List.mem_cons_self
  have hlen := hleases.inv.len_lt
  obtain ⟨st, hok⟩ := cDealloc_intact (hleases.inv.intact b hb) (hlock ▸ h.lock) (by omega)
  have hleft := hleases.dealloc hok
  refine ⟨_, hok, hleft, hleft.inv, ?_, ?_, ?_⟩
  · exact hlock ▸ h.lock
  · exact hsize ▸ h.size
  · have hcount := hleft.count
    rw [List.map_nil, List.sum_nil, Nat.add_zero] at hcount
    rw [hcount]
    exact h.room

end Memory.Spare

-- ---------------------------------------------------------------------------
-- The file of a user
-- ---------------------------------------------------------------------------

/-- Names that fit a line go to different files. -/
theorem retrieveAddr_injective {s t : List UInt8} (hs : s.length ≤ MAX_LINE_LENGTH - 1)
    (ht : t.length ≤ MAX_LINE_LENGTH - 1) (h : retrieveAddr s = retrieveAddr t) : s = t := by
  have hwhole : ∀ {u : List UInt8}, u.length ≤ MAX_LINE_LENGTH - 1 →
      retrieveAddr u = ascii "resources/data/" ++ u ++ ascii ".us" := by
    intro u hu
    refine List.take_of_length_le ?_
    have hfront : (ascii "resources/data/").length = 15 := by decide
    have hback : (ascii ".us").length = 3 := by decide
    rw [List.length_append, List.length_append, hfront, hback]
    unfold MAX_LINE_LENGTH at hu
    unfold MAX_ADDRESS_SIZE
    omega
  rw [hwhole hs, hwhole ht] at h
  exact List.append_cancel_left (List.append_cancel_right h)

section Fields

variable {crypto : Pwhash} {name password hash : List UInt8}

end Fields

-- ---------------------------------------------------------------------------
-- One turn
-- ---------------------------------------------------------------------------

/-- A name that is the name of a file, in the directory of the users. -/
structure FileName (name : List UInt8) : Prop where
  length : name.length ≤ MAX_LINE_LENGTH - 1
  noSlash : 47 ∉ name

/-- The files of the users are those of the accounts. -/
structure Registered (crypto : Pwhash) (host : Host) (accounts : Accounts)
    (fs : List UInt8 → Option (List UInt8)) : Prop where
  absent : ∀ name, FileName name → accounts name = none →
    fs (retrieveAddr name) = none ∧ host.unreadable (retrieveAddr name) = false
  stored : ∀ name password, FileName name → accounts name = some password →
    ∃ hash, fs (retrieveAddr name) = some (loginData name hash) ∧
      PasswordHash crypto password hash

/-- What can be typed, for a host that makes the file and a hashing that works. -/
structure Attempt (crypto : Pwhash) (host : Host) (u : User) : Prop where
  name : Typed (MAX_LINE_LENGTH - 1) u.username
  noSlash : 47 ∉ u.username
  create : host.create (retrieveAddr u.username) = true
  hash : ∃ hash, crypto.str u.password = some hash ∧ PasswordHash crypto u.password hash

/-- What is left of a login: the user that is let in, with a page for it, and nothing when
nobody is. -/
structure LetIn (app app' : App) (entered : Option (List UInt8)) (found : Option (Addr × User)) :
    Prop where
  name : found.map (fun r => r.2.username) = entered
  logged : ∀ r ∈ found, r.2.logged = true
  block : ∃ bs : List Block, (∀ b ∈ bs, b.pages = 1) ∧
    bs.map Block.ptr = (found.map Prod.fst).toList ∧ app.mem.Leases app'.mem bs
  spare : found = none → app'.mem.Spare
  rest : { app' with mem := app.mem, fs := app.fs } = app

theorem Attempt.fileName {crypto : Pwhash} {host : Host} {u : User} (h : Attempt crypto host u) :
    FileName u.username := ⟨h.name.length, h.noSlash⟩

/-- The attempts that were made: the files are those of the new accounts, no file has
changed, and only the names that were typed have got one. -/
structure Attempted (crypto : Pwhash) (host : Host) (accounts : Accounts) (typed : List User)
    (fs fs' : List UInt8 → Option (List UInt8)) : Prop where
  registered : Registered crypto host accounts fs'
  kept : ∀ addr data, fs addr = some data → fs' addr = some data
  others : ∀ name, FileName name → (∀ u ∈ typed, u.username ≠ name) →
    fs' (retrieveAddr name) = fs (retrieveAddr name)

section Turn

variable {crypto : Pwhash} {host : Host} {accounts : Accounts} {app app' : App} {u : User}
  {password hash : List UInt8}

/-- The file of a new name. -/
theorem Registered.register {fs : List UInt8 → Option (List UInt8)}
    (h : Registered crypto host accounts fs) (hu : Attempt crypto host u)
    (hnew : accounts u.username = none) (hhash : PasswordHash crypto u.password hash) :
    Attempted crypto host (Function.update accounts u.username (some u.password)) [u] fs
      (Function.update fs (retrieveAddr u.username) (some (loginData u.username hash))) := by
  have hu := hu.fileName
  obtain ⟨hnone, -⟩ := h.absent u.username hu hnew
  have hfile : ∀ name, FileName name → name ≠ u.username →
      retrieveAddr name ≠ retrieveAddr u.username :=
    fun name hname hne haddr => hne (retrieveAddr_injective hname.length hu.length haddr)
  refine ⟨⟨fun name hname hnone => ?_, fun name password hname hsome => ?_⟩,
    fun addr data hdata => ?_, fun name hname hothers => ?_⟩
  · by_cases hsame : name = u.username
    · rw [hsame, Function.update_self] at hnone
      cases hnone
    · rw [Function.update_of_ne hsame] at hnone
      rw [Function.update_of_ne (hfile name hname hsame)]
      exact h.absent name hname hnone
  · by_cases hsame : name = u.username
    · rw [hsame, Function.update_self] at hsome
      cases hsome
      exact ⟨hash, by rw [hsame, Function.update_self], hhash⟩
    · rw [Function.update_of_ne hsame] at hsome
      rw [Function.update_of_ne (hfile name hname hsame)]
      exact h.stored name password hname hsome
  · have hne : addr ≠ retrieveAddr u.username := by
      rintro rfl
      rw [hdata] at hnone
      cases hnone
    rw [Function.update_of_ne hne, hdata]
  · rw [Function.update_of_ne (hfile name hname (hothers u (List.mem_singleton_self u)).symm)]

end Turn

-- ---------------------------------------------------------------------------
-- The flow
-- ---------------------------------------------------------------------------

section Flow

variable {crypto : Pwhash} {host : Host} {accounts accounts' : Accounts} {app app' app'' : App}
  {typed : List User} {u : User}

theorem LetIn.trans {entered : Option (List UInt8)} {found : Option (Addr × User)}
    (h : LetIn app app' none none) (h' : LetIn app' app'' entered found) :
    LetIn app app'' entered found := by
  obtain ⟨bs, -, hbs, hleases⟩ := h.block
  obtain rfl : bs = [] := List.map_eq_nil_iff.mp hbs
  obtain ⟨bs', hpages, hbs', hleases'⟩ := h'.block
  refine ⟨h'.name, h'.logged, ⟨bs', hpages, hbs', hleases'.inv, ?_, ?_⟩, h'.spare, ?_⟩
  · exact hleases'.live.trans (hleases.live.append_left bs')
  · rw [hleases'.count]
    exact hleases.count
  · calc { app'' with mem := app.mem, fs := app.fs }
        = { { app'' with mem := app'.mem, fs := app'.fs } with mem := app.mem, fs := app.fs } := rfl
      _ = { app' with mem := app.mem, fs := app.fs } := by rw [h'.rest]
      _ = app := h.rest

theorem Attempted.trans {fs fs' fs'' : List UInt8 → Option (List UInt8)}
    (h : Attempted crypto host accounts [u] fs fs')
    (h' : Attempted crypto host accounts' typed fs' fs'') :
    Attempted crypto host accounts' (u :: typed) fs fs'' := by
  refine ⟨h'.registered, fun addr data hdata => h'.kept addr data (h.kept addr data hdata),
    fun name hname hothers => ?_⟩
  rw [h'.others name hname fun v hv => hothers v (List.mem_cons_of_mem u hv)]
  refine h.others name hname fun v hv => hothers v ?_
  rw [List.mem_singleton.mp hv]
  exact List.mem_cons_self

end Flow

end ChicOS
