-- SUMMARY: `trim_whitespace` over the bytes of memory: it trims the string in place, and touches nothing else.
import ChicOS.User.User
import ChicOS.Lib.Buffer
import ChicOS.Lib.Trim

/-!
# Trimming in place

`trim_whitespace` gets the address of a string. It looks for the end of what stays
from behind, writes a terminator after it, looks for the start, and moves what is
between the two to the front.

The run is over a buffer, and is none when a byte outside it would be touched. The
buffers that the results are about are all those that hold the string and its
terminator, so also the one that holds nothing more.
-/

namespace ChicOS

open Bytes Trim

/-- What `isspace` accepts under a locale. The terminator is white space in none. -/
structure Locale where
  isspace : UInt8 → Bool
  isspace_nul : isspace 0 = false

/-- The locale a program starts in. -/
def Locale.c : Locale := ⟨CString.isSpace, rfl⟩

/-- `trim_whitespace`. The length of the move is a difference of addresses, and a
    negative one would be a size that no buffer has. -/
def trimWhitespaceAt (locale : Locale) (b : Buffer) (str : Nat) : Option Buffer :=
  if str = 0 then some b
  else do
    let len ← b.strlen str
    let last ← b.scanBack locale.isspace str (str + len - 1)
    let b ← b.store (last + 1) 0
    let start ← b.scan locale.isspace str
    let n ← ((last : Int) - start + 2).toNat?
    b.memmove str start n

/-! ## What is left in memory -/

/-- The white space before the string that is trimmed at its end. -/
def lead (p : UInt8 → Bool) (s : List UInt8) : List UInt8 := (s.rdropWhile p).takeWhile p

/-- The memory once the terminator is written. -/
def cutMem (p : UInt8 → Bool) (m : Mem) (str : Nat) (s : List UInt8) : Mem :=
  Function.update m (str + (s.rdropWhile p).length) 0

/-- The memory once the bytes are moved. -/
def trimmedMem (p : UInt8 → Bool) (m : Mem) (str : Nat) (s : List UInt8) : Mem :=
  move (cutMem p m str s) str (str + (lead p s).length) ((trim p s).length + 1)

variable {locale : Locale} {p : UInt8 → Bool} {m : Mem} {str : Nat} {s : List UInt8}

theorem lead_append_trim (p : UInt8 → Bool) (s : List UInt8) :
    lead p s ++ trim p s = s.rdropWhile p :=
  List.takeWhile_append_dropWhile

theorem length_lead_add (p : UInt8 → Bool) (s : List UInt8) :
    (lead p s).length + (trim p s).length = (s.rdropWhile p).length := by
  rw [← List.length_append, lead_append_trim]

theorem length_kept_le (p : UInt8 → Bool) (s : List UInt8) :
    (s.rdropWhile p).length ≤ s.length :=
  (List.rdropWhile_prefix p s).length_le

/-- The terminator is written behind the white space at the front and the trimmed bytes. -/
theorem bytesAt_cutMem (h : StringAt m str s) :
    BytesAt (cutMem p m str s) str (lead p s) ∧
      BytesAt (cutMem p m str s) (str + (lead p s).length) (trim p s ++ [0]) := by
  have hbytes : BytesAt m str s := (bytesAt_append.mp h.bytes).1
  rw [← List.rdropWhile_append_rtakeWhile (p := p) (l := s)] at hbytes
  have hcut : BytesAt (cutMem p m str s) str (s.rdropWhile p ++ [0]) :=
    (bytesAt_append.mp hbytes).1.update_end 0
  rw [← lead_append_trim p s, List.append_assoc] at hcut
  exact bytesAt_append.mp hcut

theorem stringAt_trimmedMem (h : StringAt m str s) :
    StringAt (trimmedMem p m str s) str (trim p s) where
  ne := h.ne
  bytes := bytesAt_move (bytesAt_cutMem h).2 (by simp)
  nul := fun hmem => h.nul ((trims_trim p s).mem hmem)

/-- Only the string and its terminator are written. -/
theorem trimmedMem_outside {a : Nat} (ha : a < str ∨ str + s.length < a) :
    trimmedMem p m str s a = m a := by
  have hkept := length_lead_add p s
  have hle := length_kept_le p s
  rw [trimmedMem, move_outside (by omega)]
  exact Function.update_of_ne (by omega) 0 m

/-- A string that is trimmed stays as it is. -/
theorem trimmedMem_of_trims (h : StringAt m str s) (hs : Trims p s s) :
    trimmedMem p m str s = m := by
  have hkept : s.rdropWhile p = s := rdropWhile_eq_self hs.last
  have htrim : trim p s = s := hs.eq_trim.symm
  have hlead : (lead p s).length = 0 := by
    have hlen := length_lead_add p s
    rw [hkept, htrim] at hlen
    omega
  have hterm : m (str + s.length) = 0 := bytesAt_singleton.mp (bytesAt_append.mp h.bytes).2
  rw [trimmedMem, hlead, Nat.add_zero, move_self, cutMem, hkept, ← hterm, Function.update_eq_self]

/-! ## The run -/

/-- The byte at the start is no white space: it is the first one that is trimmed, or the
    terminator. -/
theorem isspace_start (h : StringAt m str s) :
    locale.isspace (cutMem locale.isspace m str s (str + (lead locale.isspace s).length))
      = false := by
  have hstart := (bytesAt_cutMem (p := locale.isspace) h).2
  have hhead := (trims_trim locale.isspace s).head
  cases htrim : trim locale.isspace s with
  | nil =>
      rw [htrim] at hstart
      rw [hstart.1]
      exact locale.isspace_nul
  | cons c t =>
      rw [htrim] at hstart hhead
      rw [hstart.1]
      exact hhead c rfl

/-- `trim_whitespace` over a string, in any buffer that the string and its terminator lie in. -/
theorem trimWhitespaceAt_eq (locale : Locale) {lo hi : Nat} (h : StringAt m str s)
    (hlo : lo ≤ str) (hhi : str + s.length < hi) :
    trimWhitespaceAt locale ⟨m, lo, hi⟩ str
      = some ⟨trimmedMem locale.isspace m str s, lo, hi⟩ := by
  have hkept := length_lead_add locale.isspace s
  have hle := length_kept_le locale.isspace s
  have hpos : 0 < str := Nat.pos_of_ne_zero h.ne
  have hin (m' : Mem) (a n : Nat) (ha : str ≤ a) (hn : a + n ≤ str + s.length + 1) :
      Buffer.Inside ⟨m', lo, hi⟩ a n := ⟨Nat.le_trans hlo ha, Nat.le_trans hn hhi⟩
  -- the end, which is before the string when all of it is white space
  have hlen : Buffer.strlen ⟨m, lo, hi⟩ str = some s.length :=
    Buffer.strlen_of_stringAt h (hin m str _ (Nat.le_refl _) (by omega))
  have hlast := Buffer.scanBack_of_bytesAt (q := locale.isspace) (b := ⟨m, lo, hi⟩) h.ne
    (hin m str _ (Nat.le_refl _) (by omega)) (bytesAt_append.mp h.bytes).1
  have hend : str + (s.rdropWhile locale.isspace).length - 1 + 1
      = str + (s.rdropWhile locale.isspace).length := by omega
  have hstore : Buffer.store ⟨m, lo, hi⟩ (str + (s.rdropWhile locale.isspace).length) 0
      = some ⟨cutMem locale.isspace m str s, lo, hi⟩ :=
    Buffer.store_eq (hin m _ 1 (by omega) (by omega)) 0
  -- the start
  have hfront : ∀ c ∈ lead locale.isspace s, locale.isspace c = true :=
    fun c hc => List.mem_takeWhile_imp hc
  have hscan := Buffer.scan_of_bytesAt (b := ⟨cutMem locale.isspace m str s, lo, hi⟩)
    (hin _ str _ (Nat.le_refl _) (by omega)) (bytesAt_cutMem h).1 hfront (isspace_start h)
  -- the move
  have hn : (((str + (s.rdropWhile locale.isspace).length - 1 : Nat) : Int)
      - (str + (lead locale.isspace s).length : Nat) + 2).toNat?
      = some ((trim locale.isspace s).length + 1) :=
    Int.mem_toNat?.mpr (by omega)
  have hmove := Buffer.memmove_eq (b := ⟨cutMem locale.isspace m str s, lo, hi⟩)
    (hin _ str ((trim locale.isspace s).length + 1) (Nat.le_refl _) (by omega))
    (hin _ (str + (lead locale.isspace s).length) _ (by omega) (by omega))
  simp only [trimWhitespaceAt, if_neg h.ne, Option.bind_eq_bind, hlen, hlast, hend, hstore, hscan,
    hn, Option.bind_some]
  exact hmove

/-- `trim_whitespace` leaves a string without the white space at its ends, for every string
    and in every locale. It touches no byte but those of the string and its terminator, and a
    second run changes nothing. -/
theorem trimWhitespaceAt_trims (locale : Locale) {m : Mem} {str : Nat} {s : List UInt8}
    (h : StringAt m str s) :
    ∃ m' t,
      (∀ lo hi, lo ≤ str → str + s.length < hi →
        trimWhitespaceAt locale ⟨m, lo, hi⟩ str = some ⟨m', lo, hi⟩) ∧
      Trims locale.isspace s t ∧ StringAt m' str t ∧
      (∀ a, a < str ∨ str + s.length < a → m' a = m a) ∧
      ∀ lo hi, lo ≤ str → str + t.length < hi →
        trimWhitespaceAt locale ⟨m', lo, hi⟩ str = some ⟨m', lo, hi⟩ := by
  have htrims := trims_trim locale.isspace s
  have hleft := stringAt_trimmedMem (p := locale.isspace) h
  refine ⟨trimmedMem locale.isspace m str s, trim locale.isspace s, ?_, htrims, hleft, ?_, ?_⟩
  · intro lo hi hlo hhi
    exact trimWhitespaceAt_eq locale h hlo hhi
  · intro a ha
    exact trimmedMem_outside ha
  · intro lo hi hlo hhi
    rw [trimWhitespaceAt_eq locale hleft hlo hhi,
      trimmedMem_of_trims hleft (Trims.refl htrims.head htrims.last)]

/-- A string with white space at both ends and inside, and other bytes around it. -/
def paddedMem : Mem := fun a => (ascii "  a b \n" ++ [0]).getD (a - 16) 7

theorem trimWhitespaceAt_trims_padded :
    ∃ m', trimWhitespaceAt .c ⟨paddedMem, 16, 24⟩ 16 = some ⟨m', 16, 24⟩ ∧
      StringAt m' 16 (ascii "a b") ∧ m' 24 = 7 ∧
      trimWhitespaceAt .c ⟨m', 16, 20⟩ 16 = some ⟨m', 16, 20⟩ := by
  have h : StringAt paddedMem 16 (ascii "  a b \n") := ⟨by decide, by decide, by decide⟩
  obtain ⟨m', t, hrun, htrims, hleft, hframe, hagain⟩ := trimWhitespaceAt_trims .c h
  have ht : t = ascii "a b" := htrims.eq_trim.trans (by decide)
  subst ht
  exact ⟨m', hrun 16 24 (by decide) (by decide), hleft, hframe 24 (by decide),
    hagain 16 20 (by decide) (by decide)⟩

/-- White space alone: the address before the string is compared, and not read. -/
example : (trimWhitespaceAt .c ⟨fun a => (ascii " \t").getD (a - 16) 0, 16, 19⟩ 16).map
    (fun b => b.bytes 16) = some 0 := by decide

/-- A field of `read_login_data` is trimmed inside its array, to what `readField` takes. -/
theorem trimWhitespaceAt_field {size : Nat} {field : List UInt8} (hsize : 0 < size)
    (h : StringAt m str (field.take (size - 1))) :
    ∃ m', trimWhitespaceAt .c ⟨m, str, str + size⟩ str = some ⟨m', str, str + size⟩ ∧
      StringAt m' str (trimWhitespace (field.take (size - 1))) := by
  refine ⟨_, trimWhitespaceAt_eq .c h (Nat.le_refl str) ?_, stringAt_trimmedMem h⟩
  rw [List.length_take]
  omega

end ChicOS
