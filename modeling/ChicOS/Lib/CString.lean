-- SUMMARY: Byte strings as the C library reads and prints them: numbers, words, tokens, and lines.
import Mathlib.Data.List.Basic
import Mathlib.Data.List.TakeWhile
import Mathlib.Tactic.Ring

/-!
# C strings

A string is the list of its bytes, without the terminator. `printUnsigned` is
what the `%u` conversion prints; `scanNumber` and `scanWord` are the `%d`, `%u`
and `%s` conversions of `scanf` on what is left of the input, `atoi` and `strtok`
the library's functions, and `line` the bytes one `fgets` takes.

What a scan returns beside its result is the rest of the input. The main result
is that scanning a printed number gives it back (`scanNumber_printUnsigned`).
-/

namespace CString

def isSpace (b : UInt8) : Bool := b = 32 || (9 ≤ b && b ≤ 13)

def isDigit (b : UInt8) : Bool := 48 ≤ b && b ≤ 57

def isPrint (b : UInt8) : Bool := 32 ≤ b && b ≤ 126

/-! ## Numbers -/

/-- Decimal digits of a number, most significant first, as long as the fuel lasts. -/
def printAux : Nat → Nat → List UInt8
  | 0, _ => []
  | fuel + 1, n => (if n < 10 then [] else printAux fuel (n / 10)) ++ [UInt8.ofNat (48 + n % 10)]

/-- What `%u` prints. -/
def printUnsigned (n : Nat) : List UInt8 := printAux (n + 1) n

/-- The number a list of digits stands for. -/
def value (ds : List UInt8) : Nat := ds.foldl (fun v d => 10 * v + (d.toNat - 48)) 0

/-- An optional sign. -/
def scanSign : List UInt8 → Bool × List UInt8
  | [] => (false, [])
  | b :: s => if b = 45 then (true, s) else if b = 43 then (false, s) else (false, b :: s)

/-- A number after white space: sign, digits. Without digits there is none, and
the sign is used up all the same. -/
def scanNumber (s : List UInt8) : Option Int × List UInt8 :=
  let (neg, s) := scanSign (s.dropWhile isSpace)
  match s.takeWhile isDigit with
  | [] => (none, s)
  | ds => (some (if neg then -(value ds : Int) else value ds), s.dropWhile isDigit)

/-- The limits of `long`, which `strtol` clamps to. -/
def clampLong (v : Int) : Int := max (-2 ^ 63) (min v (2 ^ 63 - 1))

/-- `atoi`, before the conversion to the type of its target. -/
def atoi (s : List UInt8) : Int := clampLong ((scanNumber s).1.getD 0)

/-! ## Words, tokens and lines -/

/-- A word after white space: `%s`. -/
def scanWord (s : List UInt8) : Option (List UInt8) × List UInt8 :=
  let s := s.dropWhile isSpace
  match s.takeWhile fun b => !isSpace b with
  | [] => (none, s)
  | w => (some w, s.dropWhile fun b => !isSpace b)

/-- The string a buffer of bytes holds: up to the first terminator. -/
def terminate (s : List UInt8) : List UInt8 := s.takeWhile (· ≠ 0)

/-- `strtok` with one delimiter: the token, and what the next call goes on with. -/
def strtok (delim : UInt8) (s : List UInt8) : Option (List UInt8 × List UInt8) :=
  match s.dropWhile (· = delim) with
  | [] => none
  | t => some (t.takeWhile (· ≠ delim), (t.dropWhile (· ≠ delim)).drop 1)

/-- What the buffer holds after `strtok` cut its first token off. -/
def strtokCut (delim : UInt8) (s : List UInt8) : List UInt8 :=
  s.takeWhile (· = delim) ++ (s.dropWhile (· = delim)).takeWhile (· ≠ delim)

/-- All tokens of a string, first to last. -/
def tokensAux (delim : UInt8) : Nat → List UInt8 → List (List UInt8)
  | 0, _ => []
  | fuel + 1, s =>
    match strtok delim s with
    | none => []
    | some (t, rest) => t :: tokensAux delim fuel rest

/-- The tokens `strtok` gives until it gives none. Each takes a byte at least. -/
def tokens (delim : UInt8) (s : List UInt8) : List (List UInt8) := tokensAux delim s.length s

/-- The parts of a string between delimiters, the empty ones left out. -/
def parts (delim : UInt8) (s : List UInt8) : List (List UInt8) :=
  (s.splitOn delim).filter (· ≠ [])

/-- The bytes `fgets` takes with room for `n`: up to a newline, which it keeps. -/
def line : Nat → List UInt8 → List UInt8
  | 0, _ => []
  | _, [] => []
  | n + 1, b :: s => if b = 10 then [b] else b :: line n s

def windowsAux (n : Nat) : Nat → List UInt8 → List (List UInt8)
  | 0, _ => []
  | fuel + 1, s =>
    match line n s with
    | [] => []
    | l => l :: windowsAux n fuel (s.drop l.length)

/-- What the calls of `fgets` take from a text, one after the other, until nothing is
left. Each takes a byte at least. -/
def windows (n : Nat) (s : List UInt8) : List (List UInt8) := windowsAux n s.length s

/-! ## Lines -/

/-- A line that fits is taken with its newline. -/
theorem line_newline {n : Nat} {l more : List UInt8} (h : 10 ∉ l) (hlen : l.length < n) :
    line n (l ++ 10 :: more) = l ++ [10] := by
  induction l generalizing n with
  | nil =>
      cases n with
      | zero => cases hlen
      | succ n => simp [line]
  | cons b l ih =>
      cases n with
      | zero => cases hlen
      | succ n =>
          rw [List.mem_cons, not_or] at h
          have hrest := ih h.2 (Nat.lt_of_succ_lt_succ hlen)
          simp [line, Ne.symm h.1, hrest]

/-- Without a newline as many bytes are taken as there is room for. -/
theorem line_take {n : Nat} {l : List UInt8} (h : 10 ∉ l.take n) : line n l = l.take n := by
  induction l generalizing n with
  | nil => cases n <;> rfl
  | cons b l ih =>
      cases n with
      | zero => rfl
      | succ n =>
          rw [List.take_succ_cons, List.mem_cons, not_or] at h
          simp [line, Ne.symm h.1, ih h.2]

/-- What is taken is no longer than the room for it. -/
theorem length_line_le (n : Nat) (s : List UInt8) : (line n s).length ≤ n := by
  induction n generalizing s with
  | zero => cases s <;> simp [line]
  | succ n ih =>
      cases s with
      | nil => simp [line]
      | cons b s =>
          rw [line]
          split
          · exact Nat.succ_le_succ (Nat.zero_le n)
          · exact Nat.succ_le_succ (ih s)

@[simp] theorem windows_nil (n : Nat) : windows n [] = [] := rfl

/-- The lines of a text: each ends with its only newline, which the last may lack. -/
inductive Lines : List (List UInt8) → Prop
  | nil : Lines []
  | last {l : List UInt8} (hne : l ≠ []) (hl : 10 ∉ l) : Lines [l]
  | cons {l : List UInt8} {ls : List (List UInt8)} (hl : 10 ∉ l) (hls : Lines ls) :
      Lines ((l ++ [10]) :: ls)

namespace Lines

variable {l : List UInt8} {ls : List (List UInt8)} {n : Nat}

theorem tail (h : Lines (l :: ls)) : Lines ls := by
  cases h with
  | last hne hl => exact .nil
  | cons hl hls => exact hls

/-- What is left of a line is one. -/
theorem drop (h : Lines (l :: ls)) (hn : n < l.length) : Lines (l.drop n :: ls) := by
  cases h with
  | last hne hl =>
      refine .last ?_ fun hmem => hl (List.mem_of_mem_drop hmem)
      rw [ne_eq, List.drop_eq_nil_iff]
      exact Nat.not_le.mpr hn
  | @cons l _ hl hls =>
      rw [List.length_append, List.length_singleton] at hn
      rw [List.drop_append_of_le_length (Nat.le_of_lt_succ hn)]
      exact .cons (fun hmem => hl (List.mem_of_mem_drop hmem)) hls

/-- The newline of a line is at its end. -/
theorem not_mem_take (h : Lines (l :: ls)) (hn : n < l.length) : 10 ∉ l.take n := by
  cases h with
  | last hne hl => exact fun hmem => hl (List.mem_of_mem_take hmem)
  | @cons l _ hl hls =>
      rw [List.length_append, List.length_singleton] at hn
      rw [List.take_append_of_le_length (Nat.le_of_lt_succ hn)]
      exact fun hmem => hl (List.mem_of_mem_take hmem)

end Lines

/-- What may stand behind the text of a line: the newline, if there is one. -/
def LineEnd (tail : List UInt8) : Prop := tail = [] ∨ tail = [10]

theorem LineEnd.not_mem {tail : List UInt8} {b : UInt8} (h : LineEnd tail) (hb : b ≠ 10) :
    b ∉ tail := by
  rcases h with rfl | rfl
  · exact List.not_mem_nil
  · simpa using hb

/-! ## Printing and scanning -/

theorem value_append_one (ds : List UInt8) (d : UInt8) :
    value (ds ++ [d]) = 10 * value ds + (d.toNat - 48) := by
  simp [value]

theorem toNat_digit (n : Nat) : (UInt8.ofNat (48 + n % 10)).toNat = 48 + n % 10 := by
  rw [UInt8.toNat_ofNat']
  omega

theorem isDigit_digit (n : Nat) : isDigit (UInt8.ofNat (48 + n % 10)) = true := by
  have hlt : n % 10 < 10 := Nat.mod_lt _ (by decide)
  simp only [isDigit, Bool.and_eq_true, decide_eq_true_eq, UInt8.le_iff_toNat_le, toNat_digit]
  exact ⟨Nat.le_add_right 48 _, by show 48 + n % 10 ≤ 57; omega⟩

theorem isDigit_of_mem_printAux {fuel n : Nat} {d : UInt8} (hd : d ∈ printAux fuel n) :
    isDigit d = true := by
  induction fuel generalizing n with
  | zero => cases hd
  | succ fuel ih =>
      rw [printAux] at hd
      rcases List.mem_append.mp hd with hd | hd
      · split at hd
        · cases hd
        · exact ih hd
      · rw [List.mem_singleton.mp hd]
        exact isDigit_digit n

theorem value_printAux {fuel n : Nat} (h : n < fuel) : value (printAux fuel n) = n := by
  induction fuel generalizing n with
  | zero => omega
  | succ fuel ih =>
      rw [printAux, value_append_one, toNat_digit]
      split
      · simp only [value, List.foldl_nil]
        omega
      · rw [ih (by omega)]
        omega

theorem printUnsigned_ne_nil (n : Nat) : printUnsigned n ≠ [] := by
  simp [printUnsigned, printAux]

theorem isDigit_of_mem_printUnsigned {n : Nat} {d : UInt8} (hd : d ∈ printUnsigned n) :
    isDigit d = true := isDigit_of_mem_printAux hd

/-- A digit is no white space and no sign. -/
theorem isDigit_bounds {d : UInt8} (hd : isDigit d = true) : 48 ≤ d.toNat ∧ d.toNat ≤ 57 := by
  simpa [isDigit, UInt8.le_iff_toNat_le] using hd

theorem isSpace_of_isDigit {d : UInt8} (hd : isDigit d = true) : isSpace d = false := by
  obtain ⟨hlo, hhi⟩ := isDigit_bounds hd
  have hne : d ≠ 32 := fun heq => by simp [heq] at hlo
  have hle : ¬ d ≤ 13 := by
    rw [UInt8.le_iff_toNat_le]
    show ¬ d.toNat ≤ 13
    omega
  simp [isSpace, hne, hle]

theorem scanSign_of_isDigit {d : UInt8} (hd : isDigit d = true) (s : List UInt8) :
    scanSign (d :: s) = (false, d :: s) := by
  obtain ⟨hlo, -⟩ := isDigit_bounds hd
  have hminus : d ≠ 45 := fun heq => by simp [heq] at hlo
  have hplus : d ≠ 43 := fun heq => by simp [heq] at hlo
  simp [scanSign, hminus, hplus]

/-- Scanning stops at the first byte that is not a digit. -/
theorem takeWhile_append_stop {p : UInt8 → Bool} {ds rest : List UInt8} (hds : ∀ d ∈ ds, p d = true)
    (hrest : ∀ b ∈ rest.head?, p b = false) :
    (ds ++ rest).takeWhile p = ds ∧ (ds ++ rest).dropWhile p = rest := by
  induction ds with
  | nil =>
      cases rest with
      | nil => exact ⟨rfl, rfl⟩
      | cons b rest =>
          have hb := hrest b rfl
          simp [hb]
  | cons d ds ih =>
      obtain ⟨htake, hdrop⟩ := ih fun e he => hds e (List.mem_cons_of_mem _ he)
      simp [hds d List.mem_cons_self, htake, hdrop]

/-- `%u` reads back what `%u` printed. -/
theorem scanNumber_printUnsigned (n : Nat) (rest : List UInt8)
    (hrest : ∀ b ∈ rest.head?, isDigit b = false) :
    scanNumber (printUnsigned n ++ rest) = (some (n : Int), rest) := by
  obtain ⟨htake, hdrop⟩ :=
    takeWhile_append_stop (fun d hd => isDigit_of_mem_printUnsigned (n := n) hd) hrest
  have hvalue : value (printUnsigned n) = n := value_printAux (Nat.lt_succ_self n)
  cases hp : printUnsigned n with
  | nil => exact absurd hp (printUnsigned_ne_nil n)
  | cons d ds =>
      have hd : isDigit d = true := isDigit_of_mem_printUnsigned (n := n) (by simp [hp])
      rw [hp] at htake hdrop hvalue
      have hskip : (d :: ds ++ rest).dropWhile isSpace = d :: ds ++ rest := by
        simp [isSpace_of_isDigit hd]
      have hsign : scanSign (d :: ds ++ rest) = (false, d :: ds ++ rest) :=
        scanSign_of_isDigit hd _
      simp only [scanNumber, hskip, hsign, htake, hdrop, hvalue]
      rfl

/-- White space before a number is skipped. -/
theorem scanNumber_space (s : List UInt8) : scanNumber (32 :: s) = scanNumber s := by
  simp [scanNumber, isSpace]

/-! ## Words -/

/-- Among the printable characters the space is the only white space. -/
theorem isSpace_of_isPrint {b : UInt8} (h : isPrint b = true) : isSpace b = decide (b = 32) := by
  have hle : ¬ b ≤ 13 := by
    intro hlow
    have hhigh : 32 ≤ b := by
      rw [isPrint, Bool.and_eq_true] at h
      exact of_decide_eq_true h.1
    exact absurd (UInt8.le_trans hhigh hlow) (by decide)
  simp [isSpace, hle]

/-- A word without white space is scanned whole. -/
theorem scanWord_eq_self {s : List UInt8} (hne : s ≠ []) (h : ∀ b ∈ s, isSpace b = false) :
    scanWord s = (some s, []) := by
  have hdrop : s.dropWhile isSpace = s := by
    cases s with
    | nil => rfl
    | cons b s => simp [h b List.mem_cons_self]
  have htake : s.takeWhile (fun b => !isSpace b) = s :=
    List.takeWhile_eq_self_iff.mpr fun b hb => by simp [h b hb]
  have hrest : s.dropWhile (fun b => !isSpace b) = [] :=
    List.dropWhile_eq_nil_iff.mpr fun b hb => by simp [h b hb]
  unfold scanWord
  rw [hdrop]
  dsimp only
  rw [htake, hrest]
  split
  · exact absurd ‹_› hne
  · rfl

/-- A scanned word is no longer than what it is scanned from. -/
theorem length_scanWord_le {s w rest : List UInt8} (h : scanWord s = (some w, rest)) :
    w.length ≤ s.length := by
  unfold scanWord at h
  dsimp only at h
  split at h
  · cases h
  · cases h
    exact Nat.le_trans (List.takeWhile_sublist _).length_le (List.dropWhile_sublist _).length_le

/-- A scanned word has no white space. -/
theorem isSpace_of_scanWord {s w rest : List UInt8} (h : scanWord s = (some w, rest)) :
    ∀ b ∈ w, isSpace b = false := by
  unfold scanWord at h
  dsimp only at h
  split at h
  · cases h
  · cases h
    intro b hb
    simpa using List.mem_takeWhile_imp hb

/-! ## Tokens -/

section Tokens

variable {delim : UInt8} {t rest : List UInt8}

theorem takeWhile_stop (h : delim ∉ t) (hrest : ∀ b ∈ rest.head?, b = delim) :
    (t ++ rest).takeWhile (· ≠ delim) = t ∧ (t ++ rest).dropWhile (· ≠ delim) = rest := by
  apply takeWhile_append_stop
  · intro b hb
    have hne : b ≠ delim := fun heq => h (heq ▸ hb)
    simpa using hne
  · intro b hb
    simpa using hrest b hb

theorem dropWhile_start (h : delim ∉ t) (hne : t ≠ []) :
    (t ++ rest).dropWhile (· = delim) = t ++ rest ∧ (t ++ rest).takeWhile (· = delim) = [] := by
  cases t with
  | nil => exact absurd rfl hne
  | cons b t =>
      have hb : b ≠ delim := fun heq => h (by simp [heq])
      simp [hb]

/-- A token is what stands before the next delimiter. -/
theorem strtok_stop (h : delim ∉ t) (hne : t ≠ []) (hrest : ∀ b ∈ rest.head?, b = delim) :
    strtok delim (t ++ rest) = some (t, rest.drop 1) := by
  have hsome : t ++ rest ≠ [] := by simp [hne]
  unfold strtok
  rw [(dropWhile_start h hne).1]
  split
  · exact absurd ‹_› hsome
  · rw [(takeWhile_stop h hrest).1, (takeWhile_stop h hrest).2]

theorem strtok_end (h : delim ∉ t) (hne : t ≠ []) : strtok delim t = some (t, []) := by
  have htoken : strtok delim (t ++ []) = some (t, []) := strtok_stop h hne (by simp)
  rwa [List.append_nil] at htoken

/-- There is no token in a string of delimiters. -/
theorem strtok_eq_none {s : List UInt8} : strtok delim s = none ↔ ∀ b ∈ s, b = delim := by
  have hall : s.dropWhile (· = delim) = [] ↔ ∀ b ∈ s, b = delim := by
    rw [List.dropWhile_eq_nil_iff]
    exact forall₂_congr fun b _ => decide_eq_true_iff
  rw [← hall]
  unfold strtok
  split
  · rename_i hnil
    exact iff_of_true rfl hnil
  · rename_i hne
    exact iff_of_false nofun hne

/-- A token stands behind delimiters and before one, or the end. -/
theorem strtok_eq_some {s : List UInt8} (h : strtok delim s = some (t, rest)) :
    ∃ n tail, s = List.replicate n delim ++ (t ++ tail) ∧ t ≠ [] ∧ delim ∉ t ∧
      (∀ b ∈ tail.head?, b = delim) ∧ rest = tail.drop 1 := by
  have hstart : s.takeWhile (· = delim)
      = List.replicate (s.takeWhile (· = delim)).length delim :=
    List.eq_replicate_of_mem fun b hb => by simpa using List.mem_takeWhile_imp hb
  unfold strtok at h
  split at h
  · cases h
  rename_i hne
  obtain ⟨rfl, rfl⟩ := Prod.mk.inj (Option.some.inj h)
  refine ⟨(s.takeWhile (· = delim)).length, (s.dropWhile (· = delim)).dropWhile (· ≠ delim), ?_,
    fun hnil => ?_, fun hmem => ?_, fun b hb => ?_, rfl⟩
  · rw [← hstart, List.takeWhile_append_dropWhile, List.takeWhile_append_dropWhile]
  · obtain ⟨b, u, hu⟩ := List.exists_cons_of_ne_nil hne
    have hb := List.head?_dropWhile_not (fun b => decide (b = delim)) s
    rw [hu] at hb hnil
    have hb : b ≠ delim := by simpa using hb
    simp [hb] at hnil
  · have hdelim := List.mem_takeWhile_imp hmem
    simp at hdelim
  · have hstop := List.head?_dropWhile_not (fun b => decide (b ≠ delim)) (s.dropWhile (· = delim))
    rw [Option.mem_def.mp hb] at hstop
    simpa using hstop

/-- Delimiters before the first token are skipped. -/
theorem strtok_replicate (n : Nat) (s : List UInt8) :
    strtok delim (List.replicate n delim ++ s) = strtok delim s := by
  have hskip : (List.replicate n delim ++ s).dropWhile (· = delim) = s.dropWhile (· = delim) :=
    List.dropWhile_append_of_pos fun b hb => decide_eq_true (List.eq_of_mem_replicate hb)
  unfold strtok
  rw [hskip]

theorem strtokCut_stop (h : delim ∉ t) (hne : t ≠ []) (hrest : ∀ b ∈ rest.head?, b = delim) :
    strtokCut delim (t ++ rest) = t := by
  unfold strtokCut
  rw [(dropWhile_start h hne).1, (dropWhile_start h hne).2, (takeWhile_stop h hrest).1]
  rfl

theorem strtokCut_end (h : delim ∉ t) (hne : t ≠ []) : strtokCut delim t = t := by
  have hcut : strtokCut delim (t ++ []) = t := strtokCut_stop h hne (by simp)
  rwa [List.append_nil] at hcut

theorem terminate_of_not_mem (h : 0 ∉ t) : terminate t = t := by
  have hall : (t ++ []).takeWhile (· ≠ 0) = t := (takeWhile_stop h (by simp)).1
  rwa [List.append_nil] at hall

/-- `atoi` reads what `%u` prints. -/
theorem atoi_printUnsigned {n : Nat} (hn : n < 2 ^ 63)
    (hrest : ∀ b ∈ rest.head?, isDigit b = false) : atoi (printUnsigned n ++ rest) = n := by
  rw [atoi, scanNumber_printUnsigned n rest hrest, clampLong, Option.getD_some]
  omega

/-! ## Parts -/

theorem parts_append (s s' : List UInt8) :
    parts delim (s ++ delim :: s') = parts delim s ++ parts delim s' := by
  rw [parts, List.splitOn_append_cons_self, List.filter_append]
  rfl

theorem parts_replicate (n : Nat) (s : List UInt8) :
    parts delim (List.replicate n delim ++ s) = parts delim s := by
  induction n with
  | zero => rfl
  | succ n ih => exact (parts_append [] _).trans ih

theorem parts_single (h : delim ∉ t) (hne : t ≠ []) : parts delim t = [t] := by
  rw [parts, List.splitOn_eq_singleton h]
  exact List.filter_eq_self.mpr fun u hu => by simpa [List.mem_singleton.mp hu] using hne

theorem parts_eq_cons (h : delim ∉ t) (hne : t ≠ []) (hrest : ∀ b ∈ rest.head?, b = delim) :
    parts delim (t ++ rest) = t :: parts delim (rest.drop 1) := by
  cases rest with
  | nil =>
      rw [List.append_nil]
      exact parts_single h hne
  | cons b rest =>
      obtain rfl := hrest b rfl
      rw [parts_append, parts_single h hne]
      rfl

theorem tokensAux_eq_parts {fuel : Nat} {s : List UInt8} (hfuel : s.length ≤ fuel) :
    tokensAux delim fuel s = parts delim s := by
  induction fuel generalizing s with
  | zero =>
      obtain rfl := List.eq_nil_of_length_eq_zero (Nat.le_zero.mp hfuel)
      rfl
  | succ fuel ih =>
      rw [tokensAux]
      split
      · rename_i hnone
        rw [List.eq_replicate_of_mem (strtok_eq_none.mp hnone)]
        exact (List.append_nil _ ▸ parts_replicate s.length []).symm
      · rename_i t rest hsome
        obtain ⟨n, tail, rfl, hne, hmem, htail, rfl⟩ := strtok_eq_some hsome
        have hpos := List.length_pos_iff.mpr hne
        rw [parts_replicate, parts_eq_cons hmem hne htail, ih]
        simp only [List.length_append, List.length_replicate, List.length_drop] at hfuel ⊢
        omega

/-- What `strtok` gives call after call are the parts of the string. -/
theorem tokens_eq_parts (delim : UInt8) (s : List UInt8) : tokens delim s = parts delim s :=
  tokensAux_eq_parts (Nat.le_refl _)

end Tokens

end CString
