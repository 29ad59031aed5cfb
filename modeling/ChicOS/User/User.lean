-- SUMMARY: Users of user.c: writing the file of a user, and reading it back to log in.
import ChicOS.Render.Input
import ChicOS.Lib.Trim

/-!
# Users

A user has a file of two lines, with the name and with a hash of the password.
`write_login_data` creates it, and `read_login_data` reads it through an array of
256 bytes, takes the two fields from the lines that start with their keywords, and
compares them with the credentials.

The hashing is libsodium's, and whether a file can be created is the host's to say;
both are parameters. What the log file gets is left out.
-/

namespace ChicOS

def MAX_LINE_LENGTH : Nat := 256

def sizeofUser : UInt32 := 385

/-- libsodium's password hashing. -/
structure Pwhash where
  /-- `crypto_pwhash_str`. There is none when it fails. -/
  str : List UInt8 → Option (List UInt8)
  /-- `crypto_pwhash_str_verify`, for a hash and a password. -/
  verify : List UInt8 → List UInt8 → Bool

structure User where
  username : List UInt8
  password : List UInt8
  logged : Bool
  deriving DecidableEq, Repr

def User.zero : User := { username := [], password := [], logged := false }

/-- The path of `retrieve_addr`. -/
def retrieveAddr (username : List UInt8) : List UInt8 :=
  (ascii "resources/data/" ++ username ++ ascii ".us").take (MAX_ADDRESS_SIZE - 1)

/-- `trim_whitespace`: from the end first, then from the start. -/
def trimWhitespace (str : List UInt8) : List UInt8 :=
  (str.rdropWhile CString.isSpace).dropWhile CString.isSpace

/-! ## Writing -/

/-- What `write_login_data` prints. -/
def loginData (username hash : List UInt8) : List UInt8 :=
  ascii "USERNAME: " ++ username ++ 10 :: (ascii "PASSWORD: " ++ hash ++ [10])

/-- `write_login_data`. It ends the program when there is no file or no hash. -/
def writeLoginData (crypto : Pwhash) (create : List UInt8 → Bool) (app : App) (u : User) :
    Except Stop App :=
  let addr := retrieveAddr u.username
  if create addr = false then .error .exit
  else
    match crypto.str u.password with
    | none => .error .exit
    | some hash =>
      .ok { app with fs := Function.update app.fs addr (some (loginData u.username hash)) }

/-! ## Reading -/

/-- The body of the loop of `read_login_data`, with the fields found so far. -/
def readField (line : List UInt8) (r : Nat × User) : Nat × User :=
  let line := CString.terminate line
  if line.take 10 = ascii "USERNAME: " then
    (r.1 + 1,
      { r.2 with username := trimWhitespace ((line.drop 10).take (MAX_LINE_LENGTH - 1)) })
  else if line.take 10 = ascii "PASSWORD: " then
    (r.1 + 1,
      { r.2 with password := trimWhitespace ((line.drop 10).take (PWHASH_STRBYTES - 1)) })
  else r

/-- The loop of `read_login_data`. Every turn takes a byte. -/
def readFields : Nat → File → Nat × User → Except Stop (Nat × User)
  | 0, _, _ => .error .diverge
  | fuel + 1, fp, r =>
    match fp.gets (MAX_LINE_LENGTH - 1) with
    | (none, _) => .ok r
    | (some line, fp) => readFields fuel fp (readField line r)

/-- `read_login_data`: the user and where it is, or `NULL`. -/
def readLoginData (crypto : Pwhash) (app : App) (u : User) :
    Except Stop (Option (Addr × User) × App) :=
  match app.fs (retrieveAddr u.username) with
  | none => .ok (none, app)
  | some data => do
    let (p, app) ← app.alloc sizeofUser
    if p = 0 then .ok (none, app)
    else do
      let (found, usr) ← readFields (data.length + 1) (File.start data) (0, User.zero)
      if found = 2 ∧ usr.username = u.username ∧ crypto.verify usr.password u.password = true then
        .ok (some (p, { usr with logged := true }), app)
      else do
        let app ← app.dealloc p
        .ok (none, app)

/-! ## Trimming -/

/-- There is no white space at either end. -/
structure Trimmed (s : List UInt8) : Prop where
  head : ∀ b ∈ s.head?, CString.isSpace b = false
  last : ∀ b ∈ s.getLast?, CString.isSpace b = false

theorem trimmed_nil : Trimmed [] := ⟨nofun, nofun⟩

/-- `trimWhitespace` trims by `isSpace`. -/
theorem trims_trimWhitespace (s : List UInt8) : Trim.Trims CString.isSpace s (trimWhitespace s) :=
  Trim.trims_trim CString.isSpace s

theorem trimmed_trimWhitespace (s : List UInt8) : Trimmed (trimWhitespace s) :=
  ⟨(trims_trimWhitespace s).head, (trims_trimWhitespace s).last⟩

theorem trimWhitespace_length_le (s : List UInt8) : (trimWhitespace s).length ≤ s.length :=
  (trims_trimWhitespace s).length_le

/-- White space behind is taken away, and no more. -/
theorem trimWhitespace_append {s tail : List UInt8} (hs : Trimmed s)
    (htail : ∀ b ∈ tail, CString.isSpace b = true) : trimWhitespace (s ++ tail) = s := by
  have htrims : Trim.Trims CString.isSpace (s ++ tail) s :=
    ⟨⟨[], tail, by simp, by simp, htail⟩, hs.head, hs.last⟩
  exact (trims_trimWhitespace (s ++ tail)).unique htrims

end ChicOS
