-- SUMMARY: What semaphore.c does to the bytes of the pool is what it does to the values in them.
import ChicOS.Semaphore.Pooled

/-!
# The functions on the values

As long as the blocks of the list and of the rings lie apart, a store of `semaphore.c` in
the pool changes one entry of the list that stands there, as a value, and no other. So each
function on the bytes is the function on the values, seen through `Pooled.app`.
-/

namespace ChicOS

open Memory (semEntry)

namespace Pooled

variable {m m' : Memory} {list : Nat} {i : Fin MAX_SIZE_SEMAPHORES} {s s' : Pooled} {pid : UInt32}

theorem waiter_eq_ok {sem cell : Nat} {k : UInt8} (h : m.waiter sem k = .ok cell) :
    m.semWaiters sem ≠ 0 ∧ cell = m.semWaiters sem + 4 * k.toNat := by
  unfold Memory.waiter at h
  split at h
  · cases h
  · rename_i hne
    split at h
    · cases h
    · exact ⟨hne, (Except.ok.inj h).symm⟩

/-- The ring after a store in one of its words. -/
theorem semaphoreAt_setWaiter (h : m.Apart list) (hne : m.semWaiters (semEntry list i) ≠ 0)
    {k : Nat} (hk : k < DEFAULT_WAITERS_NUM) (pid : UInt32) :
    (m.setWord (m.semWaiters (semEntry list i) + 4 * k) pid.toNat 4).semaphoreAt (semEntry list i)
      = { m.semaphoreAt (semEntry list i) with
          waiters := some
            (Function.update (m.ringAt (m.semWaiters (semEntry list i))) k pid) } := by
  have hsame := (h.setWord hne hk pid).2
  have hfields := (hsame.mono (Nat.le_refl _) (by omega : _ + 16 ≤ _)).fields
  refine Semaphore.eq_of hfields.id hfields.name ?_
    (hsame (semEntry list i + 16) (by omega) (by omega))
    (hsame (semEntry list i + 17) (by omega) (by omega))
    (congrArg UInt8.toInt8 (hsame (semEntry list i + 18) (by omega) (by omega)))
  rw [Memory.semaphoreAt_waiters_some (by rw [hfields.waiters]; exact hne), hfields.waiters,
    Memory.ringAt_setWord hk]

theorem waiterPush_view (h : m.Apart list) (hring : (m.semaphoreAt (semEntry list i)).InRing)
    (hok : waiterPush m (semEntry list i) pid = .ok m') :
    m.OnlyEntry m' list i ∧ ChicOS.waiterPush (m.semaphoreAt (semEntry list i)) pid
      = .ok (m'.semaphoreAt (semEntry list i)) := by
  unfold waiterPush at hok
  unfold ChicOS.waiterPush
  rw [Memory.semaphoreAt_tail, Memory.semaphoreAt_head]
  split at hok
  · rename_i hfull
    cases hok
    exact ⟨.refl h i, if_pos hfull⟩
  · rename_i hfull
    obtain ⟨cell, hcell, hok⟩ := Except.bind_eq_ok.mp hok
    obtain ⟨hne, rfl⟩ := waiter_eq_ok hcell
    cases hok
    have hstored := (h.setWord hne hring.tail pid).1
    have hpid := semaphoreAt_setWaiter h hne hring.tail pid
    rw [Memory.semaphoreAt_tail] at hstored hpid
    have htail := congrArg Semaphore.tail hpid
    rw [Memory.semaphoreAt_tail] at htail
    refine ⟨hstored.trans (hstored.apart.setByte i (by omega) (by omega) _), ?_⟩
    rw [if_neg hfull, Memory.semaphoreAt_waiters_some hne, hstored.apart.semaphoreAt_setTail, htail,
      hpid]
    rfl

theorem waiterPop_view (h : m.Apart list) (hring : (m.semaphoreAt (semEntry list i)).InRing)
    (hok : waiterPop m (semEntry list i) = .ok (pid, m')) :
    m.OnlyEntry m' list i ∧ ChicOS.waiterPop (m.semaphoreAt (semEntry list i))
      = .ok (pid, m'.semaphoreAt (semEntry list i)) := by
  unfold waiterPop at hok
  unfold ChicOS.waiterPop
  rw [Memory.semaphoreAt_tail, Memory.semaphoreAt_head]
  split at hok
  · rename_i hempty
    cases hok
    exact ⟨.refl h i, if_pos hempty⟩
  · rename_i hempty
    obtain ⟨cell, hcell, hok⟩ := Except.bind_eq_ok.mp hok
    obtain ⟨hne, rfl⟩ := waiter_eq_ok hcell
    cases hok
    have hhead : (m.semHead (semEntry list i)).toNat < DEFAULT_WAITERS_NUM := hring.head
    refine ⟨h.setByte i (by omega) (by omega) _, ?_⟩
    rw [if_neg hempty, Memory.semaphoreAt_waiters_some hne, h.semaphoreAt_setHead]
    dsimp only
    rw [Memory.ringAt, if_pos hhead, Memory.semaphoreAt_waiters_some hne]
    rfl

-- What stands in the bytes is not computed from here on.
attribute [local irreducible] Memory.listAt Memory.semaphoreAt

/-- The semaphores and the table, as values. -/
def app (s : Pooled) : App :=
  { App.zero Heap.zero fun _ => none with pcb := s.pcb, semaphores := s.mem.listAt s.semaphores }

@[simp] theorem app_entry :
    s.app.semaphores.entry i = s.mem.semaphoreAt (semEntry s.semaphores i) :=
  Memory.listAt_entry

theorem semValue_entry :
    s.mem.semValue (semEntry s.semaphores i) = (s.app.semaphores.entry i).value := by
  rw [app_entry, Memory.semaphoreAt_value]

theorem getWaitersSize_view {sem : Nat} {v : Semaphore} (h : m.semaphoreAt sem = v) :
    getWaitersSize m sem = ChicOS.getWaitersSize v := by
  unfold getWaitersSize ChicOS.getWaitersSize
  rw [← h, Memory.semaphoreAt_tail, Memory.semaphoreAt_head]

/-- Between two states an entry of the list is all that has changed in the pool. -/
structure Does (i : Fin MAX_SIZE_SEMAPHORES) (s s' : Pooled) : Prop where
  semaphores : s'.semaphores = s.semaphores
  mem : s.mem.OnlyEntry s'.mem s.semaphores i

theorem Does.app (h : s.Does i s') : s'.app =
    { s.app.setSem i (s'.mem.semaphoreAt (semEntry s.semaphores i)) with pcb := s'.pcb } := by
  unfold Pooled.app
  rw [h.semaphores, h.mem.list]
  rfl

theorem Does.pUpdate {s'' : Pooled} {f : Process → Process} (h : s.Does i s')
    (hok : s'.pUpdate pid f = .ok s'') :
    s.Does i s'' ∧ ChicOS.pUpdate s'.app pid f = .ok s''.app := by
  unfold Pooled.pUpdate at hok
  cases hfind : s'.pcb.find pid with
  | none =>
      rw [hfind] at hok
      obtain ⟨n, -, hok⟩ := Except.bind_eq_ok.mp hok
      cases hok
  | some k =>
      rw [hfind] at hok
      obtain ⟨n, hn, hok⟩ := Except.bind_eq_ok.mp hok
      cases hok
      have hfound : pFind s'.app pid = some k := hfind
      refine ⟨⟨h.semaphores, h.mem⟩, ?_⟩
      unfold ChicOS.pUpdate
      rw [hfound]
      exact Except.bind_eq_ok.mpr ⟨n, hn, rfl⟩

theorem app_setMutex {n : Nat} (h : s.mem.Apart s.semaphores) (hn : n < 2 ^ 32) :
    app { s with mem := s.mem.setWord (s.semaphores + 784) n 4 }
      = { s.app with semaphores.mutex := n } := by
  unfold app
  dsimp only
  rw [(h.setMutex hn).2]

theorem inMutex_view {f : Pooled → Except Stop Pooled} {g : App → Except Stop App}
    (h : s.mem.Apart s.semaphores)
    (hf : ∀ n (s₁ s₂ : Pooled), s₁.semaphores = s.semaphores → s₁.mem.Apart s.semaphores →
      s₁.app = { s.app with semaphores.mutex := n } → f s₁ = .ok s₂ →
      s₁.Does i s₂ ∧ g s₁.app = .ok s₂.app)
    (hok : s.inMutex f = .ok s') :
    s'.semaphores = s.semaphores ∧ s'.mem.Apart s.semaphores ∧ s.app.inMutex g = .ok s'.app := by
  obtain ⟨n, hn, hok⟩ := Except.bind_eq_ok.mp hok
  obtain ⟨s₂, hs₂, hok⟩ := Except.bind_eq_ok.mp hok
  cases hok
  have hcount : s.mem.semMutex s.semaphores = n + 1 := semWait_eq_ok.mp hn
  have hlt : n + 1 < 2 ^ 32 := by
    rw [← hcount]
    exact Memory.semMutex_lt ..
  have hlower := app_setMutex h (Nat.lt_of_succ_lt hlt)
  obtain ⟨hdoes, hg⟩ := hf n { s with mem := s.mem.setWord (s.semaphores + 784) n 4 } s₂ rfl
    (h.setMutex (Nat.lt_of_succ_lt hlt)).1 hlower hs₂
  have hlist : s₂.semaphores = s.semaphores := hdoes.semaphores
  have hmutex : s₂.mem.semMutex s₂.semaphores = n := by
    rw [hlist]
    exact hdoes.mem.semMutex.trans (Memory.setWord_load (Nat.lt_of_succ_lt hlt))
  have hapart : s₂.mem.Apart s₂.semaphores := by
    rw [hlist]
    exact hdoes.mem.apart
  have hmutex' : s₂.app.semaphores.mutex = n := Memory.listAt_mutex.trans hmutex
  dsimp only
  rw [hmutex]
  refine ⟨hlist, ?_, ?_⟩
  · rw [← hlist]
    exact (hapart.setMutex hlt).1
  · rw [app_setMutex hapart hlt]
    have hwait : semWait .mutex s.app.semaphores.mutex = .ok n := by
      rw [← hn]
      exact congrArg (semWait .mutex) Memory.listAt_mutex
    refine Except.bind_eq_ok.mpr ⟨n, hwait, Except.bind_eq_ok.mpr ⟨s₂.app, ?_, ?_⟩⟩
    · rw [← hg, hlower]
    · rw [hmutex']

/-- The value of an entry is stored. -/
theorem Does.setValue (h : s.mem.Apart s.semaphores) (i : Fin MAX_SIZE_SEMAPHORES) (v : Int8) :
    s.Does i { s with mem := s.mem.setByte (semEntry s.semaphores i + 18) v.toUInt8 } ∧
      (s.mem.setByte (semEntry s.semaphores i + 18) v.toUInt8).semaphoreAt (semEntry s.semaphores i)
        = { s.app.semaphores.entry i with value := v } := by
  refine ⟨⟨rfl, h.setByte i (by omega) (by omega) _⟩, ?_⟩
  rw [app_entry]
  exact h.semaphoreAt_setValue i v

theorem semEntry_ne (h : m.Apart list) (i : Fin MAX_SIZE_SEMAPHORES) : semEntry list i ≠ 0 := by
  have hle := (Memory.semEntry_le list i).1
  have hne := h.ne
  omega

/-- A push, behind a store of the value. -/
theorem Does.push {m₁ m₂ : Memory} (h : s.Does i { s with mem := m₁ })
    (hring : (s.app.semaphores.entry i).InRing) {v : Int8}
    (hvalue : m₁.semaphoreAt (semEntry s.semaphores i)
      = { s.app.semaphores.entry i with value := v })
    (hpush : waiterPush m₁ (semEntry s.semaphores i) pid = .ok m₂) :
    s.Does i { s with mem := m₂ } ∧
      ChicOS.waiterPush { s.app.semaphores.entry i with value := v } pid
        = .ok (m₂.semaphoreAt (semEntry s.semaphores i)) := by
  have hring' : (m₁.semaphoreAt (semEntry s.semaphores i)).InRing := by
    rw [hvalue]
    exact ⟨hring.head, hring.tail⟩
  obtain ⟨honly, hpush⟩ := waiterPush_view h.mem.apart hring' hpush
  rw [hvalue] at hpush
  exact ⟨⟨rfl, h.mem.trans honly⟩, hpush⟩

theorem Does.pop {m₁ m₂ : Memory} (h : s.Does i { s with mem := m₁ })
    (hring : (s.app.semaphores.entry i).InRing) {v : Int8}
    (hvalue : m₁.semaphoreAt (semEntry s.semaphores i)
      = { s.app.semaphores.entry i with value := v })
    (hpop : waiterPop m₁ (semEntry s.semaphores i) = .ok (pid, m₂)) :
    s.Does i { s with mem := m₂ } ∧
      ChicOS.waiterPop { s.app.semaphores.entry i with value := v }
        = .ok (pid, m₂.semaphoreAt (semEntry s.semaphores i)) := by
  have hring' : (m₁.semaphoreAt (semEntry s.semaphores i)).InRing := by
    rw [hvalue]
    exact ⟨hring.head, hring.tail⟩
  obtain ⟨honly, hpop⟩ := waiterPop_view h.mem.apart hring' hpop
  rw [hvalue] at hpop
  exact ⟨⟨rfl, h.mem.trans honly⟩, hpop⟩

theorem semaphoreP_view (h : s.mem.Apart s.semaphores)
    (hring : (s.app.semaphores.entry i).InRing)
    (hok : s.semaphoreP (semEntry s.semaphores i) pid = .ok s') :
    s'.semaphores = s.semaphores ∧ s'.mem.Apart s.semaphores ∧
      ChicOS.semaphoreP s.app (some i) pid = .ok s'.app := by
  unfold semaphoreP at hok
  rw [if_neg (semEntry_ne h i)] at hok
  unfold ChicOS.semaphoreP
  dsimp only
  refine inMutex_view (i := i) h ?_ hok
  intro n s₁ s₂ hlist hapart happ hf
  have hring₁ : (s₁.app.semaphores.entry i).InRing := by
    rw [happ]
    exact hring
  rw [← hlist] at hapart hf
  obtain ⟨hdoes, hvalue⟩ := Does.setValue hapart i ((s₁.app.semaphores.entry i).value - 1)
  have hcount := congrArg Semaphore.value hvalue
  rw [Memory.semaphoreAt_value] at hcount
  dsimp only at hf hcount ⊢
  rw [semValue_entry, hcount] at hf
  split at hf
  · rename_i hneg
    obtain ⟨m, hpush, hf⟩ := Except.bind_eq_ok.mp hf
    obtain ⟨hdoes, hpush⟩ := hdoes.push hring₁ hvalue hpush
    obtain ⟨hdoes', hupdate⟩ := hdoes.pUpdate hf
    refine ⟨hdoes', ?_⟩
    rw [if_pos hneg]
    refine Except.bind_eq_ok.mpr ⟨_, hpush, ?_⟩
    rw [← hupdate, hdoes.app]
    rfl
  · rename_i hneg
    cases hf
    refine ⟨hdoes, ?_⟩
    rw [if_neg hneg, ← hvalue, hdoes.app]
    rfl

theorem semaphoreV_view (h : s.mem.Apart s.semaphores)
    (hring : (s.app.semaphores.entry i).InRing)
    (hok : s.semaphoreV (semEntry s.semaphores i) = .ok s') :
    s'.semaphores = s.semaphores ∧ s'.mem.Apart s.semaphores ∧
      ChicOS.semaphoreV s.app (some i) = .ok s'.app := by
  unfold semaphoreV at hok
  rw [if_neg (semEntry_ne h i)] at hok
  unfold ChicOS.semaphoreV
  dsimp only
  refine inMutex_view (i := i) h ?_ hok
  intro n s₁ s₂ hlist hapart happ hf
  have hring₁ : (s₁.app.semaphores.entry i).InRing := by
    rw [happ]
    exact hring
  rw [← hlist] at hapart hf
  obtain ⟨hdoes, hvalue⟩ := Does.setValue hapart i ((s₁.app.semaphores.entry i).value + 1)
  have hsize := getWaitersSize_view hvalue
  dsimp only at hf ⊢
  rw [semValue_entry, hsize] at hf
  split at hf
  · rename_i hpos
    obtain ⟨⟨waking, m⟩, hpop, hf⟩ := Except.bind_eq_ok.mp hf
    obtain ⟨hdoes, hpop⟩ := hdoes.pop hring₁ hvalue hpop
    obtain ⟨hdoes', hupdate⟩ := hdoes.pUpdate hf
    refine ⟨hdoes', ?_⟩
    rw [if_pos hpos]
    refine Except.bind_eq_ok.mpr ⟨_, hpop, ?_⟩
    dsimp only
    rw [← hupdate, hdoes.app]
    rfl
  · rename_i hpos
    cases hf
    refine ⟨hdoes, ?_⟩
    rw [if_neg hpos, ← hvalue, hdoes.app]
    rfl

end Pooled

end ChicOS
