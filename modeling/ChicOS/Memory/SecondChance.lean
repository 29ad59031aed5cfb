-- SUMMARY: What one call of second_chance does: the page it names, the bits it clears, and where it leaves the hand.
import ChicOS.Lib.Clock
import ChicOS.Memory.Mem

/-!
# Second chance

`second_chance` clears used bits from the hand on until it comes to a page whose bit
is clear, and names the page after that one. It gives up before the page behind the
hand, except with the hand at zero: then it goes on to the page it started from,
whose bit it has cleared.
-/

namespace ChicOS

namespace Memory

theorem wait_eq_ok {m m' : Memory} :
    m.wait = .ok m' ↔ ∃ n, m.memoryS = n + 1 ∧ m' = { m with memoryS := n } := by
  unfold wait
  rw [Except.bind_eq_ok]
  constructor
  · rintro ⟨n, hn, h⟩
    cases h
    exact ⟨n, semWait_eq_ok.mp hn, rfl⟩
  · rintro ⟨n, hn, rfl⟩
    exact ⟨n, semWait_eq_ok.mpr hn, rfl⟩

/-- The page's used bit is set. -/
def Used (m : Memory) (j : Nat) : Prop := m.pt.pages[j]?.any Page.used = true

instance (m : Memory) (j : Nat) : Decidable (m.Used j) := inferInstanceAs (Decidable (_ = true))

/-- The page `k` places after the hand. -/
def ahead (m : Memory) (k : Nat) : Nat := Clock.place m.pt.len m.hand k

/-- Clear the used bits of the first `t` pages from the hand on. -/
def clearUsed (m : Memory) (t : Nat) : Memory :=
  { m with
    pt.pages := Clock.clear (fun p => { p with used := false }) m.pt.len m.hand 0 t m.pt.pages }

/-- The hand stands in the table, which is as long as its `len` says. -/
structure HandIn (m : Memory) : Prop where
  length : m.pt.pages.length = m.pt.len
  hand : m.hand < m.pt.len

section

variable {m : Memory} {k t : Nat}

theorem HandIn.ahead_lt (h : m.HandIn) (k : Nat) : m.ahead k < m.pt.len :=
  Clock.place_lt h.hand k

theorem HandIn.exists_page (h : m.HandIn) (k : Nat) : ∃ p, m.pt.pages[m.ahead k]? = some p :=
  ⟨_, List.getElem?_eq_getElem (h.length ▸ h.ahead_lt k)⟩

/-- A page that is passed is not used any more. -/
theorem HandIn.not_used_clearUsed (h : m.HandIn) (hle : t ≤ m.pt.len) (hk : k < t) :
    ¬ (m.clearUsed t).Used (m.ahead k) := by
  have hget := Clock.getElem?_clear (f := fun p : Page => { p with used := false })
    (s := m.pt.pages) h.hand (k := 0) (t := t) (by omega) (Nat.zero_le k) (by omega)
  obtain ⟨p, hp⟩ := h.exists_page k
  show ¬ Option.any Page.used (Clock.clear _ _ _ _ _ _)[m.ahead k]? = true
  rw [ahead] at hp ⊢
  rw [hget, hp]
  exact Bool.false_ne_true

/-- A page that is not passed is as it was. -/
theorem used_clearUsed_of_ne {j : Nat} (h : ∀ l < t, m.ahead l ≠ j) :
    (m.clearUsed t).Used j ↔ m.Used j := by
  have hget := Clock.getElem?_clear_of_ne (f := fun p : Page => { p with used := false })
    (s := m.pt.pages) (n := m.pt.len) (i := m.hand) (k := 0) (t := t) (j := j)
    fun l _ hl => h l (by omega)
  unfold Used clearUsed
  dsimp only
  rw [hget]

theorem HandIn.ahead_inj (h : m.HandIn) {l : Nat} (hk : k < m.pt.len) (hl : l < m.pt.len) :
    m.ahead k = m.ahead l ↔ k = l := Clock.place_inj h.hand hk hl

theorem HandIn.used_clearUsed_ahead (h : m.HandIn) (hk : k < m.pt.len) (ht : t ≤ k) :
    (m.clearUsed t).Used (m.ahead k) ↔ m.Used (m.ahead k) := by
  refine used_clearUsed_of_ne fun l hl => ?_
  rw [ne_eq, h.ahead_inj (by omega) hk]
  omega

theorem ahead_succ (m : Memory) (k : Nat) : m.ahead (k + 1) = (m.ahead k + 1) % m.pt.len :=
  (Clock.place_succ m.pt.len m.hand k).symm

end

/-! ## The loop -/

/-- Pages in use are passed, and their bits cleared. -/
theorem secondChanceLoop_pass {i fuel k t : Nat} {m : Memory} (hlen : m.pt.pages.length = m.pt.len)
    (hi : i < m.pt.len) (hle : k + t ≤ m.pt.len) (hgo : i = 0 ∨ k + t + 1 < m.pt.len)
    (hused : ∀ l, k ≤ l → l < k + t → m.Used (Clock.place m.pt.len i l)) :
    secondChanceLoop i (fuel + t) (Clock.place m.pt.len i k) m
      = secondChanceLoop i fuel (Clock.place m.pt.len i (k + t))
          { m with
            pt.pages := Clock.clear (fun p => { p with used := false }) m.pt.len i k t m.pt.pages } := by
  induction t generalizing k m with
  | zero => rfl
  | succ t ih =>
      have hcurr : m.Used (Clock.place m.pt.len i k) := hused k (Nat.le_refl k) (by omega)
      have hplace : Clock.place m.pt.len i k < m.pt.pages.length := hlen ▸ Clock.place_lt hi k
      have hget := List.getElem?_eq_getElem hplace
      have hbit : m.pt.pages[Clock.place m.pt.len i k].used = true := by
        rw [Used, hget] at hcurr
        exact hcurr
      -- the page after it is not the one before the hand
      have hnext : ((Clock.place m.pt.len i k + 1) % m.pt.len : Nat) ≠ (i : Int) - 1 := by
        rw [Clock.place_succ]
        rcases hgo with rfl | hgo
        · omega
        · intro heq
          have hpos : 0 < i := by omega
          have hlast := (Clock.place_add_one_eq_iff (k := k + 1) hi (by omega) hpos).mp (by omega)
          omega
      have hindex : fuel + (t + 1) = fuel + t + 1 := rfl
      rw [hindex, secondChanceLoop, hget]
      dsimp only
      rw [if_neg (by rw [hbit]; exact Bool.true_eq_false_eq_False), if_pos hnext, Clock.place_succ]
      have hrest := ih (k := k + 1)
        (m := { m with
          pt.pages := m.pt.pages.modify (Clock.place m.pt.len i k)
            fun p => { p with used := false } })
        (by simpa using hlen) hi (by show k + 1 + t ≤ m.pt.len; omega)
        (by show i = 0 ∨ k + 1 + t + 1 < m.pt.len; omega) (fun l hl hl' => by
          have hne : Clock.place m.pt.len i k ≠ Clock.place m.pt.len i l := by
            rw [ne_eq, Clock.place_inj hi (by omega) (by omega)]
            omega
          show Option.any Page.used (m.pt.pages.modify _ _)[Clock.place m.pt.len i l]? = true
          rw [List.getElem?_modify_ne _ _ hne]
          exact hused l (by omega) (by omega))
      have hsum : k + (t + 1) = k + 1 + t := by omega
      rw [hsum]
      exact hrest

/-! ## The ways it returns -/

/-- A page out of use is found within reach; or the hand is at zero, all are in use,
and the scan comes back to a page it has cleared; or it gives up. -/
inductive Chance (m : Memory) : Int → Memory → Prop
  | found {k : Nat} (hk : k < m.pt.len) (hreach : m.hand = 0 ∨ k + 1 < m.pt.len)
      (hunused : ¬ m.Used (m.ahead k)) (hpassed : ∀ l < k, m.Used (m.ahead l)) :
      Chance m (m.ahead (k + 1)) { m.clearUsed k with hand := m.ahead (k + 1) }
  | around (hzero : m.hand = 0) (hused : ∀ l < m.pt.len, m.Used (m.ahead l)) :
      Chance m (m.ahead (m.pt.len + 1))
        { m.clearUsed m.pt.len with hand := m.ahead (m.pt.len + 1) }
  | failed (hpos : 0 < m.hand) (hused : ∀ l, l + 1 < m.pt.len → m.Used (m.ahead l)) :
      Chance m (-1) (m.clearUsed (m.pt.len - 1))

section

variable {m : Memory}

/-- The start of `second_chance`: the lock, and the pages in use. -/
theorem secondChance_pass (h : m.HandIn) {n t : Nat} (hlock : m.memoryS = n + 1) (hle : t ≤ m.pt.len)
    (hgo : m.hand = 0 ∨ t + 1 < m.pt.len) (hused : ∀ l < t, m.Used (m.ahead l)) :
    secondChance m = secondChanceLoop m.hand (m.pt.len - t + 1) (m.ahead t)
      { m.clearUsed t with memoryS := n } := by
  have hwait : m.wait = .ok { m with memoryS := n } := wait_eq_ok.mpr ⟨n, hlock, rfl⟩
  have hpass := @secondChanceLoop_pass m.hand (m.pt.len - t + 1) 0 t
    { m with memoryS := n } h.length h.hand (by show 0 + t ≤ m.pt.len; omega)
    (by show m.hand = 0 ∨ 0 + t + 1 < m.pt.len; omega) (fun l _ hl => hused l (by omega))
  have hfuel : m.pt.len - t + 1 + t = m.pt.len + 1 := by omega
  rw [hfuel, Clock.place_zero h.hand, Nat.zero_add] at hpass
  unfold secondChance
  rw [hwait, Except.ok_bind_run]
  exact hpass

/-- A page out of use ends the scan. -/
theorem secondChanceLoop_stop (h : m.HandIn) {n t fuel : Nat} (hlock : m.memoryS = n + 1)
    (hunused : ¬ (m.clearUsed t).Used (m.ahead t)) :
    secondChanceLoop m.hand (fuel + 1) (m.ahead t) { m.clearUsed t with memoryS := n }
      = .ok (m.ahead (t + 1), { m.clearUsed t with hand := m.ahead (t + 1) }) := by
  have hplace : m.ahead t < (m.clearUsed t).pt.pages.length := by
    show _ < (Clock.clear _ _ _ _ _ _).length
    rw [Clock.length_clear, h.length]
    exact h.ahead_lt t
  have hget := List.getElem?_eq_getElem hplace
  have hbit : (m.clearUsed t).pt.pages[m.ahead t].used = false := by
    rw [Used, hget] at hunused
    exact Bool.eq_false_iff.mpr hunused
  have hlocked : ({ m.clearUsed t with memoryS := n } : Memory).pt.pages[m.ahead t]?
      = some (m.clearUsed t).pt.pages[m.ahead t] := hget
  rw [secondChanceLoop, hlocked]
  dsimp only
  rw [if_pos hbit]
  have hnext : (m.ahead t + 1) % m.pt.len = m.ahead (t + 1) := (m.ahead_succ t).symm
  simp only [post, clearUsed, hlock, hnext]

/-- The page before the hand is next: the scan gives up. -/
theorem secondChanceLoop_giveUp (h : m.HandIn) {n t fuel : Nat} (hlock : m.memoryS = n + 1)
    (hlen : t + 2 = m.pt.len) (hpos : 0 < m.hand) (hused : (m.clearUsed t).Used (m.ahead t)) :
    secondChanceLoop m.hand (fuel + 1) (m.ahead t) { m.clearUsed t with memoryS := n }
      = .ok (-1, m.clearUsed (t + 1)) := by
  obtain ⟨p, hp, hbit⟩ : ∃ p, (m.clearUsed t).pt.pages[m.ahead t]? = some p ∧ p.used = true := by
    cases hget : (m.clearUsed t).pt.pages[m.ahead t]? with
    | none => rw [Used, hget] at hused; cases hused
    | some p => rw [Used, hget] at hused; exact ⟨p, rfl, hused⟩
  have hnext : (m.ahead t + 1) % m.pt.len = m.ahead (t + 1) := (m.ahead_succ t).symm
  have hlast : m.ahead (t + 1) + 1 = m.hand :=
    (Clock.place_add_one_eq_iff h.hand (by omega) hpos).mpr (by omega)
  have hhand : (m.ahead (t + 1) + 1) % m.pt.len = m.hand := by
    rw [hlast, Nat.mod_eq_of_lt h.hand]
  have hclear := Clock.modify_clear (f := fun p : Page => { p with used := false })
    (s := m.pt.pages) (n := m.pt.len) (i := m.hand) (k := 0) (t := t)
  rw [Nat.zero_add] at hclear
  have hlocked : ({ m.clearUsed t with memoryS := n } : Memory).pt.pages[m.ahead t]? = some p := hp
  rw [secondChanceLoop, hlocked]
  dsimp only
  rw [if_neg (by rw [hbit]; exact Bool.true_eq_false_eq_False)]
  have htest : ¬ (((m.ahead t + 1) % m.pt.len : Nat) : Int) ≠ (m.hand : Int) - 1 := by
    rw [hnext]
    omega
  show (if (((m.ahead t + 1) % m.pt.len : Nat) : Int) ≠ (m.hand : Int) - 1 then _ else _) = _
  rw [if_neg htest]
  show Except.ok (-1, { (({ m.clearUsed t with memoryS := n } : Memory)) with
    memoryS := n + 1
    hand := ((m.ahead t + 1) % m.pt.len + 1) % m.pt.len
    pt.pages := (m.clearUsed t).pt.pages.modify (m.ahead t) fun p => { p with used := false } }) = _
  rw [hnext, hhand, ← hlock]
  exact congrArg (fun pages => Except.ok (-1, { m with pt.pages := pages })) hclear

theorem secondChance_chance (h : m.HandIn) (hlock : 0 < m.memoryS) :
    ∃ v m', secondChance m = .ok (v, m') ∧ m.Chance v m' := by
  obtain ⟨n, hn⟩ := Nat.exists_eq_succ_of_ne_zero (Nat.ne_of_gt hlock)
  have hpos : 0 < m.pt.len := Nat.zero_lt_of_lt h.hand
  by_cases hfound : ∃ k, k < m.pt.len ∧ (m.hand = 0 ∨ k + 1 < m.pt.len) ∧ ¬ m.Used (m.ahead k)
  · obtain ⟨hk, hreach, hunused⟩ := Nat.find_spec hfound
    have hpassed : ∀ l < Nat.find hfound, m.Used (m.ahead l) := by
      intro l hl
      by_contra hnot
      exact Nat.find_min hfound hl ⟨by omega, by omega, hnot⟩
    have hsame : ¬ (m.clearUsed (Nat.find hfound)).Used (m.ahead (Nat.find hfound)) := by
      rwa [h.used_clearUsed_ahead hk (Nat.le_refl _)]
    refine ⟨_, _, ?_, .found hk hreach hunused hpassed⟩
    rw [secondChance_pass h hn (Nat.le_of_lt hk) hreach hpassed, secondChanceLoop_stop h hn hsame]
  · have hall : ∀ k, k < m.pt.len → (m.hand = 0 ∨ k + 1 < m.pt.len) → m.Used (m.ahead k) := by
      intro k hk hreach
      by_contra hnot
      exact hfound ⟨k, hk, hreach, hnot⟩
    by_cases hzero : m.hand = 0
    · -- the scan comes back to the page it started from
      have hused : ∀ l < m.pt.len, m.Used (m.ahead l) := fun l hl => hall l hl (.inl hzero)
      have hback : m.ahead m.pt.len = m.ahead 0 := by
        rw [ahead, ahead, Clock.place_self h.hand, Clock.place_zero h.hand]
      have hcleared : ¬ (m.clearUsed m.pt.len).Used (m.ahead m.pt.len) := by
        rw [hback]
        exact h.not_used_clearUsed (Nat.le_refl _) hpos
      refine ⟨_, _, ?_, .around hzero hused⟩
      rw [secondChance_pass h hn (Nat.le_refl _) (.inl hzero) hused, secondChanceLoop_stop h hn hcleared]
    · have hused : ∀ l, l + 1 < m.pt.len → m.Used (m.ahead l) :=
        fun l hl => hall l (by omega) (.inr hl)
      have hhand := h.hand
      obtain ⟨t, ht⟩ : ∃ t, t + 2 = m.pt.len := ⟨m.pt.len - 2, by omega⟩
      have hsame : (m.clearUsed t).Used (m.ahead t) := by
        rw [h.used_clearUsed_ahead (by omega) (Nat.le_refl _)]
        exact hused t (by omega)
      have hlast : m.pt.len - 1 = t + 1 := by omega
      refine ⟨_, _, ?_, .failed (Nat.pos_of_ne_zero hzero) hused⟩
      rw [secondChance_pass h hn (t := t) (by omega) (.inr (by omega)) fun l hl => hused l (by omega),
        secondChanceLoop_giveUp h hn ht (Nat.pos_of_ne_zero hzero) hsame, hlast]

/-- Every return is one of these, and leaves the lock alone. -/
theorem secondChance_eq_ok {m' : Memory} {v : Int} (hlen : m.pt.pages.length = m.pt.len)
    (hok : secondChance m = .ok (v, m')) : m.HandIn ∧ m.Chance v m' := by
  have hhand : m.hand < m.pt.len := by
    obtain ⟨m₁, hwait, hloop⟩ := Except.bind_eq_ok.mp hok
    obtain ⟨n, -, rfl⟩ := wait_eq_ok.mp hwait
    by_contra hge
    have hnone : m.pt.pages[m.hand]? = none := List.getElem?_eq_none (by omega)
    simp [secondChanceLoop, hnone] at hloop
  have hlock : 0 < m.memoryS := by
    obtain ⟨m₁, hwait, -⟩ := Except.bind_eq_ok.mp hok
    obtain ⟨n, hn, -⟩ := wait_eq_ok.mp hwait
    omega
  obtain ⟨v₁, m₁, hok₁, hchance⟩ := secondChance_chance ⟨hlen, hhand⟩ hlock
  cases hok.symm.trans hok₁
  exact ⟨⟨hlen, hhand⟩, hchance⟩

end

end Memory

end ChicOS
