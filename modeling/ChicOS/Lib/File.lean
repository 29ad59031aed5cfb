-- SUMMARY: Open files: the unread bytes and the end-of-file indicator, and the stdio calls on them.
import ChicOS.Lib.CString

/-!
# Files

An open `FILE` on a file that does not change while it is open. The position is
the number of bytes read, so it is kept as the bytes still unread. Every call
that looks for a byte past the last one sets the end-of-file indicator.
-/

structure File where
  data : List UInt8
  rest : List UInt8
  eof : Bool
  deriving DecidableEq, Repr

namespace File

/-- `fopen` for reading. -/
def start (data : List UInt8) : File := { data := data, rest := data, eof := false }

/-- `fseek` to the start. -/
def rewind (s : File) : File := { s with rest := s.data, eof := false }

/-- `ftell`. -/
def tell (s : File) : Nat := s.data.length - s.rest.length

/-- `fgets` with room for `n` bytes and the terminator. It gives nothing when no
byte is left. -/
def gets (s : File) (n : Nat) : Option (List UInt8) × File :=
  match CString.line n s.rest with
  | [] => (none, { s with eof := true })
  | l =>
    (some l, { s with
      rest := s.rest.drop l.length
      eof := s.eof || (l.length < n && l.getLast? ≠ some 10) })

/-- `fscanf` with `%s`. -/
def scanWord (s : File) : Option (List UInt8) × File :=
  let (w, rest) := CString.scanWord s.rest
  (w, { s with rest := rest, eof := s.eof || rest = [] })

/-- `fscanf` with `%d`. -/
def scanNumber (s : File) : Option Int × File :=
  let (v, rest) := CString.scanNumber s.rest
  (v, { s with rest := rest, eof := s.eof || rest = [] })

/-! ## The indicator is set at the end only -/

theorem scanWord_eof {s : File} (h : s.scanWord.2.rest ≠ []) : s.scanWord.2.eof = s.eof := by
  simp only [scanWord] at h ⊢
  simp [h]

theorem scanNumber_eof {s : File} (h : s.scanNumber.2.rest ≠ []) :
    s.scanNumber.2.eof = s.eof := by
  simp only [scanNumber] at h ⊢
  simp [h]

/-- A scan at the end stays there. -/
theorem scanNumber_rest_ne {s : File} (h : s.scanNumber.2.rest ≠ []) : s.rest ≠ [] := by
  intro hnil
  simp [scanNumber, CString.scanNumber, CString.scanSign, hnil] at h

@[simp] theorem scanWord_data (s : File) : s.scanWord.2.data = s.data := rfl
@[simp] theorem gets_data (s : File) (n : Nat) : (s.gets n).2.data = s.data := by
  unfold gets
  split
  · rfl
  · rfl

@[simp] theorem scanNumber_data (s : File) : s.scanNumber.2.data = s.data := rfl

/-! ## Lines -/

/-- A line that fits is read with its newline. -/
theorem gets_newline {s : File} {n : Nat} {l more : List UInt8} (hs : s.rest = l ++ 10 :: more)
    (h : 10 ∉ l) (hlen : l.length < n) :
    s.gets n = (some (l ++ [10]), { s with rest := more }) := by
  have hline : CString.line n s.rest = l ++ [10] := by
    rw [hs]
    exact CString.line_newline h hlen
  have hne : l ++ [10] ≠ [] := by simp
  unfold gets
  rw [hline]
  split
  · exact absurd ‹_› hne
  · simp [hs]

/-- A last line without a newline that fits. The end is noticed if there is room left. -/
theorem gets_last {s : File} {n : Nat} (hne : s.rest ≠ []) (h : 10 ∉ s.rest)
    (hlen : s.rest.length ≤ n) :
    s.gets n = (some s.rest, { s with rest := [], eof := s.eof || decide (s.rest.length < n) }) := by
  have htake : s.rest.take n = s.rest := List.take_of_length_le hlen
  have hline : CString.line n s.rest = s.rest := by
    rw [CString.line_take (by rwa [htake]), htake]
  have hlast : s.rest.getLast? ≠ some 10 := fun hc => h (List.mem_of_getLast? hc)
  unfold gets
  rw [hline]
  split
  · exact absurd ‹_› hne
  · simp [hlast]

/-- A line that is too long is cut. -/
theorem gets_cut {s : File} {n : Nat} (hn : 0 < n) (h : 10 ∉ s.rest.take n)
    (hlen : n ≤ s.rest.length) :
    s.gets n = (some (s.rest.take n), { s with rest := s.rest.drop n }) := by
  have htake : (s.rest.take n).length = n := List.length_take_of_le hlen
  have hne : s.rest.take n ≠ [] := by
    intro hnil
    simp [hnil] at htake
    omega
  unfold gets
  rw [CString.line_take h]
  split
  · exact absurd ‹_› hne
  · simp [htake]

section Lines

variable {s : File} {n : Nat} {l : List UInt8} {ls : List (List UInt8)}

/-- The first line of a text is read whole, if there is room for it. -/
theorem gets_line (hls : CString.Lines (l :: ls)) (hs : s.rest = (l :: ls).flatten)
    (hlen : l.length ≤ n) :
    ∃ s', s.gets n = (some l, s') ∧ s'.rest = ls.flatten ∧ (ls ≠ [] → s'.eof = s.eof) := by
  cases hls with
  | last hne hl =>
      have hs : s.rest = l := by simpa using hs
      have hgets := gets_last (hs ▸ hne) (hs ▸ hl) (hs ▸ hlen)
      rw [hs] at hgets
      exact ⟨_, hgets, rfl, fun hnil => absurd rfl hnil⟩
  | @cons l _ hl hls =>
      rw [List.length_append, List.length_singleton] at hlen
      have hs : s.rest = l ++ 10 :: ls.flatten := by simpa using hs
      exact ⟨_, gets_newline hs hl hlen, rfl, fun _ => rfl⟩

/-- If there is not, what is left of it is the next line. -/
theorem gets_part (hls : CString.Lines (l :: ls)) (hs : s.rest = (l :: ls).flatten) (hn : 0 < n)
    (hlen : n < l.length) :
    s.gets n = (some (l.take n), { s with rest := (l.drop n :: ls).flatten }) := by
  have htake : s.rest.take n = l.take n := by
    rw [hs]
    exact List.take_append_of_le_length (Nat.le_of_lt hlen)
  have hdrop : s.rest.drop n = (l.drop n :: ls).flatten := by
    rw [hs]
    exact List.drop_append_of_le_length (Nat.le_of_lt hlen)
  have hroom : n ≤ s.rest.length := by
    rw [hs, List.flatten_cons, List.length_append]
    omega
  rw [gets_cut hn (htake ▸ hls.not_mem_take hlen) hroom, htake, hdrop]

end Lines

/-- What is read is no longer than the room for it. -/
theorem gets_length_le {s s' : File} {n : Nat} {l : List UInt8} (h : s.gets n = (some l, s')) :
    l.length ≤ n := by
  unfold gets at h
  split at h
  · cases h
  · cases h
    exact CString.length_line_le n s.rest

/-- At the end there is nothing to read. -/
theorem gets_nil {s : File} (n : Nat) (hs : s.rest = []) :
    s.gets n = (none, { s with eof := true }) := by
  cases n <;> simp [gets, hs, CString.line]

end File
