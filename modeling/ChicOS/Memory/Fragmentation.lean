-- SUMMARY: When c_alloc finds a place: the pages that replacement makes free, and the runs among them.
import ChicOS.Memory.FirstFit
import ChicOS.Memory.Replacement
import ChicOS.Memory.MemoryLock
import Mathlib.Data.Nat.Count

/-!
# Room for a request

Each turn of the replacement loop frees the page after the next one out of use. So
the pages it frees can be told from the state before: they follow the first so many
places out of use, counted from the hand. The count of free pages then suffices, but
the scan of `c_alloc` wants a run; without one the program ends.
-/

namespace ChicOS

namespace Memory

/-! ## The pages that are freed -/

/-- The page follows one of the first `d` places out of use. -/
def Reclaims (m : Memory) (d j : Nat) : Prop :=
  ∃ o, m.OutOfUse o ∧ Nat.count m.OutOfUse o < d ∧ m.ahead (o + 1) = j

/-- From a full turn on every place is out of use. -/
theorem le_count_outOfUse (m : Memory) (o : Nat) : o ≤ m.pt.len + Nat.count m.OutOfUse o := by
  induction o with
  | zero => exact Nat.zero_le _
  | succ o ih =>
      rw [Nat.count_succ]
      split
      · omega
      · rename_i hused
        have hlt : o < m.pt.len := Nat.not_le.mp fun hle => hused (.inl hle)
        omega

instance decidableReclaims (m : Memory) (d j : Nat) : Decidable (m.Reclaims d j) :=
  decidable_of_iff
    (∃ o < m.pt.len + d, m.OutOfUse o ∧ Nat.count m.OutOfUse o < d ∧ m.ahead (o + 1) = j) <| by
    constructor
    · rintro ⟨o, -, ho⟩
      exact ⟨o, ho⟩
    · rintro ⟨o, hout, hcount, hj⟩
      have hle := m.le_count_outOfUse o
      exact ⟨o, by omega, hout, hcount, hj⟩

section

variable {m m₁ m₂ m' : Memory} {v : Int} {k : Nat}

/-- Where the next scan starts. -/
theorem Stopped.ahead (hstop : m.Stopped k v m₁) (hsame : m₁.SameScan m₂) (o : Nat) :
    m₂.ahead o = m.ahead (k + 1 + o) := by
  have hlen : m₂.pt.len = m.pt.len := by
    rw [hsame.len, hstop.state]
    rfl
  have hhand : m₂.hand = (m.hand + (k + 1)) % m.pt.len := by
    rw [hsame.hand, hstop.state]
    rfl
  rw [Memory.ahead, Clock.place, hlen, hhand, Nat.mod_add_mod, Nat.add_assoc]
  rfl

/-- The next scan finds out of use what this one would have found. -/
theorem Stopped.outOfUse_iff (h : m.HandIn) (hstop : m.Stopped k v m₁) (hsame : m₁.SameScan m₂)
    (o : Nat) : m₂.OutOfUse o ↔ m.OutOfUse (k + 1 + o) := by
  have hlen : m₂.pt.len = m.pt.len := by
    rw [hsame.len, hstop.state]
    rfl
  have hused (j : Nat) : m₂.Used j ↔ (m.clearUsed k).Used j := by
    rw [hsame.used, hstop.state]
    rfl
  have hle := hstop.le
  unfold OutOfUse
  rw [hlen, hstop.ahead hsame, hused]
  rcases Nat.lt_or_ge (k + 1 + o) m.pt.len with hlt | hge
  · -- the page has not been passed
    rw [h.used_clearUsed_ahead hlt (by omega)]
    exact or_congr (iff_of_false (by omega) (by omega)) Iff.rfl
  · refine iff_of_true ?_ (.inl hge)
    rcases Nat.lt_or_ge o m.pt.len with ho | ho
    · -- it has been, or it is the one the scan has stopped at
      right
      obtain ⟨l, hl⟩ := Nat.exists_eq_add_of_le hge
      have hback : m.ahead (k + 1 + o) = m.ahead l := by
        rw [hl, Memory.ahead, Clock.place, ← Nat.add_assoc, Nat.add_right_comm, Nat.add_mod_right]
        rfl
      rw [hback]
      rcases Nat.lt_or_ge l k with hlk | hlk
      · exact h.not_used_clearUsed hle hlk
      · have hlk : l = k := by omega
        rcases Nat.lt_or_ge k m.pt.len with hk | hk
        · rw [hlk, h.used_clearUsed_ahead hk (Nat.le_refl _)]
          exact (outOfUse_iff_of_lt hk).mp hstop.outOfUse
        · have hturn : m.ahead l = m.ahead 0 := by
            have hfull : l = m.pt.len := by omega
            rw [hfull, Memory.ahead, Memory.ahead, Clock.place_self h.hand, Clock.place_zero h.hand]
          rw [hturn]
          have hpos := h.hand
          exact h.not_used_clearUsed hle (by omega)
    · exact .inl ho

/-- One place out of use is behind it. -/
theorem Stopped.count (h : m.HandIn) (hstop : m.Stopped k v m₁) (hsame : m₁.SameScan m₂) (o : Nat) :
    Nat.count m.OutOfUse (k + 1 + o) = Nat.count m₂.OutOfUse o + 1 := by
  have hiff := hstop.outOfUse_iff h hsame
  have hfirst : Nat.count m.OutOfUse (k + 1) = 1 := by
    rw [Nat.count_succ, if_pos hstop.outOfUse, Nat.count_iff_forall_not.mpr hstop.before]
  have hrest : Nat.count (fun i => m.OutOfUse (k + 1 + i)) o = Nat.count m₂.OutOfUse o :=
    Nat.le_antisymm (Nat.count_mono_left fun i _ => (hiff i).mpr)
      (Nat.count_mono_left fun i _ => (hiff i).mp)
  rw [Nat.count_add, hfirst, hrest, Nat.add_comm]

/-- What is freed from here on: the page named, and what is freed from there on. -/
theorem Stopped.reclaims_iff (h : m.HandIn) (hstop : m.Stopped k v m₁) (hsame : m₁.SameScan m₂)
    (d j : Nat) : m.Reclaims (d + 1) j ↔ m.ahead (k + 1) = j ∨ m₂.Reclaims d j := by
  constructor
  · rintro ⟨o, hout, hcount, hj⟩
    rcases Nat.lt_trichotomy o k with hlt | rfl | hgt
    · exact absurd hout (hstop.before o hlt)
    · exact .inl hj
    · obtain ⟨o, rfl⟩ := Nat.exists_eq_add_of_le (Nat.succ_le_of_lt hgt)
      rw [hstop.count h hsame] at hcount
      refine .inr ⟨o, (hstop.outOfUse_iff h hsame o).mpr hout, Nat.lt_of_succ_lt_succ hcount, ?_⟩
      rw [hstop.ahead hsame]
      exact hj
  · rintro (hj | ⟨o, hout, hcount, hj⟩)
    · refine ⟨k, hstop.outOfUse, ?_, hj⟩
      rw [Nat.count_iff_forall_not.mpr hstop.before]
      exact Nat.succ_pos d
    · refine ⟨k + 1 + o, (hstop.outOfUse_iff h hsame o).mp hout, ?_, ?_⟩
      · rw [hstop.count h hsame]
        exact Nat.succ_lt_succ hcount
      · rw [← hj, hstop.ahead hsame]
        rfl

theorem not_reclaims_zero (m : Memory) (j : Nat) : ¬ m.Reclaims 0 j := by
  rintro ⟨o, -, hcount, -⟩
  exact absurd hcount (Nat.not_lt_zero _)

/-- Freeing a page makes it free. -/
theorem freePage_mem_freePages {page : Nat} (hlen : m.pt.pages.length = m.pt.len)
    (h : m.freePage page = .ok m') (j : Nat) : j ∈ m'.freePages ↔ page = j ∨ j ∈ m.freePages := by
  obtain ⟨hpage, st, rfl⟩ := freePage_eq_ok h
  rw [mem_freePages, mem_freePages]
  dsimp only
  by_cases hj : page = j
  · subst hj
    have hget := List.getElem?_eq_getElem (hlen ▸ hpage)
    rw [List.getElem?_modify_eq, hget]
    exact iff_of_true ⟨hpage, rfl⟩ (.inl rfl)
  · rw [List.getElem?_modify_ne _ _ hj, or_iff_right hj]

theorem replacing_len {num : Nat} {enough : Bool} (hturns : Replacing num m enough m') :
    m'.pt.len = m.pt.len := by
  induction hturns with
  | enough => rfl
  | gaveUp hlt hscan => exact (secondChance_sameOwners hscan).len
  | replaced hlt hscan hv hfree hrest ih =>
      obtain ⟨-, st, rfl⟩ := freePage_eq_ok hfree
      exact ih.trans (secondChance_sameOwners hscan).len

/-- The pages that are free when the loop ends with enough of them. -/
theorem replacing_freePages {num : Nat} {enough : Bool} (hturns : Replacing num m enough m')
    (henough : enough = true) (h : m.HandIn) (hnum : num < 2 ^ 32) (j : Nat) :
    j ∈ m'.freePages ↔ j ∈ m.freePages ∨ m.Reclaims (num - m.pt.freePageNum) j := by
  induction hturns with
  | @enough m hle =>
      rw [Nat.sub_eq_zero_of_le hle]
      exact (or_iff_left (m.not_reclaims_zero j)).symm
  | gaveUp => cases henough
  | @replaced m m₁ m₂ m' v enough hlt hscan hv hfree hrest ih =>
      have hchance := (secondChance_eq_ok h.length hscan).2
      obtain ⟨k, hstop⟩ := hchance.stopped hv
      have hsame := freePage_sameScan hfree
      have hin₁ := hchance.handIn h
      have hcount : m₂.pt.freePageNum = m.pt.freePageNum + 1 :=
        hchance.freePageNum_freePage hfree (by omega)
      have hpage : v.toNat = m.ahead (k + 1) := by
        rw [hstop.result]
        rfl
      have hmissing : num - m.pt.freePageNum = num - m₂.pt.freePageNum + 1 := by omega
      rw [ih henough (hsame.handIn hin₁), freePage_mem_freePages hin₁.length hfree,
        (secondChance_sameOwners hscan).freePages_eq, hmissing, hstop.reclaims_iff h hsame, hpage]
      exact or_assoc.trans or_left_comm

/-! ## The ways a request ends -/

/-- A run of pages that are free, or will be freed before the scan. -/
def Room (m : Memory) (num i : Nat) : Prop :=
  i + num ≤ m.pt.len ∧
    ∀ j, i ≤ j → j < i + num → j ∈ m.freePages ∨ m.Reclaims (num - m.pt.freePageNum) j

instance decidableRoom (m : Memory) (num : Nat) : DecidablePred (m.Room num) :=
  fun i => decidable_of_iff
    (i + num ≤ m.pt.len ∧ ∀ j < i + num, i ≤ j →
      j ∈ m.freePages ∨ m.Reclaims (num - m.pt.freePageNum) j)
    (and_congr_right fun _ => forall_congr' fun _ => forall_comm)

theorem replacing_room {num : Nat} (hturns : Replacing num m true m') (h : m.HandIn)
    (hnum : num < 2 ^ 32) (i : Nat) : m'.pt.FreeRun num i ↔ m.Room num i := by
  have hpages := replacing_freePages hturns rfl h hnum
  have hlen : m'.pt.len = m.pt.len := replacing_len hturns
  unfold PageTable.FreeRun Room
  rw [hlen]
  refine and_congr_right fun hin => forall₃_congr fun j hj hj' => ?_
  rw [← hpages j, mem_freePages, hlen]
  exact (and_iff_right (by omega)).symm

variable {bytes : UInt32}

/-- A request that is not refused at once is refused after replacement, or has enough
pages then and takes the first run of them. -/
inductive Attempt (m : Memory) (bytes : UInt32) : Except Stop (Addr × Memory) → Prop
  | gaveUp {m' : Memory} (hgives : m.GivesUp bytes) : Attempt m bytes (.ok (0, m'))
  | served {m₁ : Memory} {i : Nat} (hkeeps : ¬ m.GivesUp bytes)
      (hturns : Replacing (numPages bytes) m true m₁)
      (hfirst : IsLeast {j | m.Room (numPages bytes) j} i) :
      Attempt m bytes
        (.ok (i * PAGE_SIZE + sizeofAllocHeader, m₁.takeRegion i (numPages bytes) bytes))
  | noRoom (hkeeps : ¬ m.GivesUp bytes) (hnone : ∀ i, ¬ m.Room (numPages bytes) i) :
      Attempt m bytes (.error .exit)

theorem cAlloc_attempt (h : m.HandIn) (hlock : 0 < m.memoryS) (hbytes : bytes ≠ 0)
    (hsize : bytes.toNat < m.size) : m.Attempt bytes (cAlloc m bytes) := by
  have hnum := numPages_lt bytes
  obtain ⟨enough, m₁, hloop, -, hlock₁⟩ := replacePages_returns h hlock hnum
  have hrepl := hloop (numPages bytes + 1) (by omega)
  cases enough with
  | false =>
      have hgives : m.GivesUp bytes :=
        ⟨hbytes, hsize, (replacePages_gaveUp h.length hnum hrepl).2.imp
          (fun hc => ⟨hc.1, hc.2.1⟩) fun hc => ⟨hc.1, hc.2.1⟩⟩
      have hnull : cAlloc m bytes = .ok (0, m₁) := by
        unfold cAlloc
        rw [if_neg hbytes, if_neg (Nat.not_le.mpr hsize)]
        dsimp only
        rw [hrepl]
        rfl
      rw [hnull]
      exact .gaveUp hgives
  | true =>
      have hkeeps : ¬ m.GivesUp bytes := by
        intro hgives
        cases replacePages_givesUp h.length hnum hgives.2.2 hrepl
      have hturns := replacePages_eq_ok hrepl
      have hroom := replacing_room hturns h hnum
      rw [cAlloc_eq_of_enough hbytes hsize hrepl hlock₁]
      by_cases hsome : ∃ i, m.Room (numPages bytes) i
      · have hleast : IsLeast {j | m.Room (numPages bytes) j} (Nat.find hsome) :=
          ⟨Nat.find_spec hsome, fun j hj => Nat.find_le hj⟩
        have hfind : m₁.pt.findRegion (numPages bytes) = some (Nat.find hsome) := by
          rw [findRegion_eq_some_iff (numPages_usable bytes).1]
          simpa only [hroom] using hleast
        rw [hfind]
        exact .served hkeeps hturns hleast
      · have hnone : ∀ i, ¬ m.Room (numPages bytes) i := not_exists.mp hsome
        rw [findRegion_eq_none fun i => (hroom i).not.mpr (hnone i)]
        exact .noRoom hkeeps hnone

/-- The request is answered just if replacement gives up, or makes a run free. -/
theorem cAlloc_returns_iff (h : m.HandIn) (hlock : 0 < m.memoryS) (hbytes : bytes ≠ 0)
    (hsize : bytes.toNat < m.size) :
    (∃ p m', cAlloc m bytes = .ok (p, m')) ↔ m.GivesUp bytes ∨ ∃ i, m.Room (numPages bytes) i := by
  have hattempt := cAlloc_attempt h hlock hbytes hsize
  generalize cAlloc m bytes = r at hattempt
  cases hattempt with
  | gaveUp hgives => exact iff_of_true ⟨_, _, rfl⟩ (.inl hgives)
  | served hkeeps hturns hfirst => exact iff_of_true ⟨_, _, rfl⟩ (.inr ⟨_, hfirst.1⟩)
  | noRoom hkeeps hnone =>
      refine iff_of_false ?_ fun hroom => hroom.elim hkeeps fun ⟨i, hi⟩ => hnone i hi
      rintro ⟨p, m', hr⟩
      cases hr

end

/-! ## Between calls -/

/-- The table is as long as before, and the hand still in it. -/
structure KeepsHand (m m' : Memory) : Prop where
  len : m'.pt.len = m.pt.len
  handIn : m.HandIn → m'.HandIn

namespace KeepsHand

variable {m m' m'' : Memory}

theorem refl (m : Memory) : m.KeepsHand m := ⟨rfl, id⟩

theorem trans (h : m.KeepsHand m') (h' : m'.KeepsHand m'') : m.KeepsHand m'' :=
  ⟨h'.len.trans h.len, fun hin => h'.handIn (h.handIn hin)⟩

theorem secondChance {v : Int} (h : ChicOS.secondChance m = .ok (v, m')) : m.KeepsHand m' :=
  ⟨(secondChance_sameOwners h).len, fun hin => (secondChance_eq_ok hin.length h).2.handIn hin⟩

theorem replacing {num : Nat} {enough : Bool} (hturns : Replacing num m enough m') :
    m.KeepsHand m' := by
  refine ⟨replacing_len hturns, fun hin => ?_⟩
  induction hturns with
  | enough => exact hin
  | gaveUp hlt hscan =>
      have hin₁ := (KeepsHand.secondChance hscan).handIn hin
      exact ⟨hin₁.length, hin₁.hand⟩
  | replaced hlt hscan hv hfree hrest ih =>
      exact ih ((freePage_sameScan hfree).handIn ((KeepsHand.secondChance hscan).handIn hin))

theorem cAlloc {bytes : UInt32} {p : Addr} (h : ChicOS.cAlloc m bytes = .ok (p, m')) :
    m.KeepsHand m' := by
  cases cAlloc_eq_ok h with
  | refused => exact refl m
  | exhausted hbytes hsize hrepl => exact .replacing (replacePages_eq_ok hrepl)
  | served hbytes hsize hrepl hlock hfind =>
      refine (KeepsHand.replacing (replacePages_eq_ok hrepl)).trans ⟨rfl, fun hin => ⟨?_, hin.hand⟩⟩
      exact (mapRange_length _ _ _ _).trans hin.length

theorem cDealloc {p : Addr} (h : ChicOS.cDealloc m p = .ok m') : m.KeepsHand m' := by
  obtain ⟨m₁, hwait, hrest⟩ := Except.bind_eq_ok.mp h
  obtain ⟨n, -, rfl⟩ := wait_eq_ok.mp hwait
  have hsame : m'.pt.len = m.pt.len ∧ m'.hand = m.hand := by
    dsimp only at hrest
    split at hrest
    · cases hrest
      exact ⟨rfl, rfl⟩
    split at hrest
    · cases hrest
    · cases hrest
      refine ⟨?_, rfl⟩
      show (List.foldl PageTable.pushFreeStack _ _).len = _
      obtain ⟨st, hst⟩ := foldl_pushFreeStack_eq _ _
      rw [hst]
  refine ⟨hsame.1, fun hin => ⟨(cDealloc_lock h).2 hin.length, ?_⟩⟩
  rw [hsame.1, hsame.2]
  exact hin.hand

theorem call {c : MemCall} (h : m.call c = .ok m') : m.KeepsHand m' := by
  cases c with
  | cAlloc bytes =>
      obtain ⟨⟨p, m₁⟩, halloc, h⟩ := Except.bind_eq_ok.mp h
      cases h
      exact .cAlloc halloc
  | cRealloc currRegion bytes =>
      obtain ⟨⟨p, m₁⟩, hrealloc, h⟩ := Except.bind_eq_ok.mp h
      cases h
      unfold ChicOS.cRealloc at hrealloc
      split at hrealloc
      · cases hrealloc
        exact refl m
      obtain ⟨⟨buffer, m₁⟩, halloc, hrealloc⟩ := Except.bind_eq_ok.mp hrealloc
      dsimp only at hrealloc
      split at hrealloc
      · cases hrealloc
        exact .cAlloc halloc
      obtain ⟨m₂, hcopy, hrealloc⟩ := Except.bind_eq_ok.mp hrealloc
      obtain ⟨m₃, hdealloc, hrealloc⟩ := Except.bind_eq_ok.mp hrealloc
      cases hrealloc
      have hcopied : m₁.KeepsHand m₂ := by
        unfold memcpy at hcopy
        split at hcopy
        · cases hcopy
          exact ⟨rfl, fun hin => ⟨hin.length, hin.hand⟩⟩
        · cases hcopy
      exact (KeepsHand.cAlloc halloc).trans (hcopied.trans (.cDealloc hdealloc))
  | cDealloc mem => exact .cDealloc h
  | secondChance =>
      obtain ⟨⟨v, m₁⟩, hsc, h⟩ := Except.bind_eq_ok.mp h
      cases h
      exact .secondChance hsc

end KeepsHand

/-- What every state between calls has, whatever the calls were. -/
structure Ready (m : Memory) : Prop where
  length : m.pt.pages.length = m.pt.len
  handIn : 0 < m.pt.len → m.HandIn
  lock : 0 < m.memoryS

theorem Ready.call {m m' : Memory} {c : MemCall} (hready : m.Ready) (h : m.call c = .ok m') :
    m'.Ready := by
  have hcalled := call_called hready.length h
  have hkeeps := KeepsHand.call h
  refine ⟨hcalled.length, fun hlen => hkeeps.handIn (hready.handIn (hkeeps.len ▸ hlen)), ?_⟩
  by_cases hfull : m.FindsFull c
  · rw [hcalled.extra hfull]
    exact Nat.succ_pos _
  · rw [hcalled.balanced hfull]
    exact hready.lock

end Memory

theorem initMem_ready (pool : Bytes.Mem) (memSize : UInt32) : (initMem pool memSize).Ready :=
  ⟨initMem_length pool memSize, initMem_handIn, Nat.one_pos⟩

/-- In a pool with no page no request that is not refused at once is answered. -/
theorem not_cAlloc_of_no_page {m : Memory} {bytes : UInt32} (hlength : m.pt.pages.length = m.pt.len)
    (hlen : m.pt.len = 0) (hbytes : bytes ≠ 0) (hsize : bytes.toNat < m.size) :
    ¬ ∃ p m', cAlloc m bytes = .ok (p, m') := by
  have hscan : ∀ {v m₁}, secondChance m ≠ .ok (v, m₁) := by
    intro v m₁ h
    have hhand := (Memory.secondChance_eq_ok hlength h).1.hand
    omega
  have hgives : ∀ {num fuel m₁}, replacePages num fuel m ≠ .ok (false, m₁) := by
    intro num fuel m₁ h
    cases replacePages_eq_ok h with
    | gaveUp hlt hsc => exact hscan hsc
    | replaced hlt hsc => exact hscan hsc
  rintro ⟨p, m', h⟩
  rcases Memory.cAlloc_replacing h with ⟨hrefused, -⟩ | ⟨-, -, enough, m₁, hrepl, hend⟩
  · exact Memory.not_gives_up hrefused ⟨hbytes, hsize⟩
  rcases hend with ⟨rfl, -⟩ | ⟨-, hp, -⟩
  · exact hgives hrepl
  cases cAlloc_eq_ok h with
  | refused | exhausted => exact hp rfl
  | served hbytes hsize hrepl hlock hfind =>
      have hin := (findRegion_eq_some hfind).1
      have hpos := (numPages_usable bytes).1
      rw [Memory.replacing_len (replacePages_eq_ok hrepl)] at hin
      omega

/-- In every state that calls of the allocator lead to, a request below the size of the
pool is answered just if replacement gives up, or the pages that are free or made free
have a run in them that is long enough. -/
theorem request_answered (pool : Bytes.Mem) (memSize : UInt32) (cs : List MemCall) {m : Memory}
    {bytes : UInt32} (hrun : Run.run Memory.call (initMem pool memSize) cs = .ok m)
    (hbytes : bytes ≠ 0) (hsize : bytes.toNat < m.size) :
    (∃ p m', cAlloc m bytes = .ok (p, m')) ↔
      0 < m.pt.len ∧ (m.GivesUp bytes ∨ ∃ i, m.Room (numPages bytes) i) := by
  have hready := Run.run_preserves Memory.Ready Memory.Ready.call (initMem_ready pool memSize) hrun
  by_cases hlen : 0 < m.pt.len
  · rw [and_iff_right hlen]
    exact Memory.cAlloc_returns_iff (hready.handIn hlen) hready.lock hbytes hsize
  · refine iff_of_false ?_ fun hroom => hlen hroom.1
    exact not_cAlloc_of_no_page hready.length (by omega) hbytes hsize

/-- Four blocks of a page each are handed out, and the first and the third given back. -/
def fragmented : List MemCall :=
  [.cAlloc 100, .cAlloc 100, .cAlloc 100, .cAlloc 100, .cDealloc 8, .cDealloc 2056]

/-- There is room for a page. -/
theorem request_answered_fragmented :
    ∃ m p m', Run.run Memory.call (initMem (fun _ => 0) 4096) fragmented = .ok m ∧
      cAlloc m 100 = .ok (p, m') := by
  have hstate : ((Run.run Memory.call (initMem (fun _ => 0) 4096) fragmented).toOption.map fun m =>
      decide (100 < m.size ∧ 0 < m.pt.len ∧ m.Room (numPages 100) 0)) = some true := by
    decide +kernel
  obtain ⟨m, hm, hroom⟩ := Option.map_eq_some_iff.mp hstate
  obtain ⟨hsize, hlen, hroom⟩ := of_decide_eq_true hroom
  have hrun := Except.toOption_eq_ok.mp hm
  obtain ⟨p, m', halloc⟩ := (request_answered (fun _ => 0) 4096 fragmented hrun
    (show (100 : UInt32) ≠ 0 by decide) hsize).mpr ⟨hlen, .inr ⟨0, hroom⟩⟩
  exact ⟨m, p, m', hrun, halloc⟩

/-- Two pages are free, and a request of two ends the program. -/
theorem request_not_always_answered :
    ¬ ∀ (pool : Bytes.Mem) (memSize : UInt32) (cs : List MemCall) (m : Memory) (bytes : UInt32),
      1 ≤ (initMem pool memSize).pt.len →
      Run.run Memory.call (initMem pool memSize) cs = .ok m → bytes ≠ 0 → bytes.toNat < m.size →
      cAlloc m bytes ≠ .error .exit := by
  intro h
  have hstate : ((Run.run Memory.call (initMem (fun _ => 0) 4096) fragmented).toOption.map fun m =>
      decide (1500 < m.size ∧ m.pt.len = 4 ∧ ¬ m.GivesUp 1500 ∧ ∀ i : Nat, i < 4 → ¬ m.Room 2 i))
        = some true := by
    decide +kernel
  obtain ⟨m, hm, hnone⟩ := Option.map_eq_some_iff.mp hstate
  obtain ⟨hsize, hlen, hkeeps, hnone⟩ := of_decide_eq_true hnone
  have hrun := Except.toOption_eq_ok.mp hm
  have hready := Run.run_preserves Memory.Ready Memory.Ready.call (initMem_ready _ _) hrun
  have hexit : cAlloc m 1500 = .error .exit := by
    have hattempt := Memory.cAlloc_attempt (hready.handIn (by omega)) hready.lock
      (show (1500 : UInt32) ≠ 0 by decide) hsize
    generalize cAlloc m 1500 = r at hattempt
    cases hattempt with
    | gaveUp hgives => exact absurd hgives hkeeps
    | @served m₁ i _ _ hfirst =>
        have hin := hfirst.1.1
        rw [hlen] at hin
        exact absurd hfirst.1 (hnone i (Nat.lt_of_lt_of_le (Nat.lt_add_of_pos_right (by decide)) hin))
    | noRoom => rfl
  exact h (fun _ => 0) 4096 fragmented m 1500 (by decide) hrun (by decide) hsize hexit

end ChicOS
