-- SUMMARY: Owning blocks: addresses that are live and distinct, and what the allocator's calls do to them.
import ChicOS.Memory.Leases

/-!
# Owners

`Owns m ps` says that the blocks at `ps` are live, and that no two entries of `ps`
stand for one block. An allocation that is apart from what is live adds an owner,
an owner may give its block back, and nothing else ends its ownership.
-/

namespace ChicOS

namespace Memory

variable {m m' : Memory} {ps qs : List Addr} {p : Addr}

/-! ## Runs that hand out fresh blocks -/

/-- Every block handed out was apart from the blocks then live. -/
def Fresh (m : Memory) : Prop := ∀ calls ∈ m.calls.tails, FreshCall [] calls

instance (m : Memory) : Decidable m.Fresh :=
  inferInstanceAs (Decidable (∀ calls ∈ m.calls.tails, FreshCall [] calls))

theorem Fresh.of_suffix (h : m'.Fresh) (hsuffix : m.calls <:+ m'.calls) : m.Fresh := by
  intro calls hcalls
  have hmem := (List.mem_tails _ _).mp hcalls
  exact h calls ((List.mem_tails _ _).mpr (hmem.trans hsuffix))

/-- The newest block is apart from the others. -/
theorem Fresh.apart (h : m.Fresh) {b : Block} {before : List Call}
    (hcalls : m.calls = .alloc b :: before) {c : Block} (hc : c ∈ liveBlocks before) :
    Disjoint b.range c.range := by
  have hmem : Call.alloc b :: before ∈ m.calls.tails := by
    rw [List.mem_tails, hcalls]
  exact h _ hmem List.nil_suffix c hc

/-! ## Owners -/

structure Owns (m : Memory) (ps : List Addr) : Prop where
  pos : ∀ b ∈ m.live, 0 < b.pages
  distinct : m.addrs.Nodup
  owned : ps.Subperm m.addrs

namespace Owns

theorem subperm (h : m.Owns ps) (hs : qs.Subperm ps) : m.Owns qs :=
  ⟨h.pos, h.distinct, hs.trans h.owned⟩

theorem perm (h : m.Owns ps) (hp : qs.Perm ps) : m.Owns qs := h.subperm hp.subperm

theorem isLive (h : m.Owns ps) (hp : p ∈ ps) : m.IsLive p := isLive_iff.mpr (h.owned.subset hp)

theorem ne_zero (h : m.Owns ps) (hp : p ∈ ps) : p ≠ 0 := by
  obtain ⟨b, -, rfl⟩ := h.isLive hp
  exact ptr_ne_zero b

theorem nodup (h : m.Owns ps) : ps.Nodup := by
  obtain ⟨qs, hperm, hsub⟩ := h.owned
  exact hperm.nodup_iff.mp (h.distinct.sublist hsub)

theorem of_calls_nil (h : m.calls = []) : m.Owns [] := by
  have hlive : m.live = [] := by
    rw [live, h]
    rfl
  refine ⟨?_, ?_, List.nil_subperm⟩
  · rw [hlive]
    intro b hb
    cases hb
  · rw [addrs, hlive]
    exact List.nodup_nil

/-- A fresh allocation has a new owner, if it does not refuse. -/
theorem alloc {bytes : UInt32} (h : m.Owns ps) (hfresh : m'.Fresh)
    (hok : cAlloc m bytes = .ok (p, m')) :
    (p = 0 ∧ m'.Owns ps) ∨ (p ≠ 0 ∧ m'.Owns (p :: ps)) := by
  rcases cAlloc_blocks hok with ⟨hp, hlive⟩ | ⟨b, before, rfl, hpos, hcalls, -, hlive, -⟩
  · refine .inl ⟨hp, ?_, ?_, ?_⟩
    · rw [hlive]
      exact h.pos
    · rw [addrs, hlive]
      exact h.distinct
    · rw [addrs, hlive]
      exact h.owned
  · have hlive' : m'.live = b :: m.live := by
      rw [live, hcalls, ← hlive]
      rfl
    have haddrs : m'.addrs = b.ptr :: m.addrs := by
      rw [addrs, hlive']
      rfl
    have hnew : b.ptr ∉ m.addrs := by
      intro hmem
      obtain ⟨c, hc, hptr⟩ := List.mem_map.mp hmem
      have hdisjoint := hfresh.apart hcalls (hlive ▸ hc)
      exact ptr_ne_of_disjoint hpos (h.pos c hc) hdisjoint hptr.symm
    refine .inr ⟨ptr_ne_zero b, ?_, ?_, ?_⟩
    · rw [hlive']
      exact List.forall_mem_cons.mpr ⟨hpos, h.pos⟩
    · rw [haddrs]
      exact List.nodup_cons.mpr ⟨hnew, h.distinct⟩
    · rw [haddrs]
      exact (List.subperm_cons b.ptr).mpr h.owned

/-- An allocation leaves the owners there were. -/
theorem alloc_old {bytes : UInt32} (h : m.Owns ps) (hfresh : m'.Fresh)
    (hok : cAlloc m bytes = .ok (p, m')) : m'.Owns ps := by
  rcases h.alloc hfresh hok with ⟨-, h⟩ | ⟨-, h⟩
  · exact h
  · exact h.subperm (List.sublist_cons_self p ps).subperm

/-- An owner gives its block back. -/
theorem dealloc (h : m.Owns (p :: ps)) (hok : cDealloc m p = .ok m') : m'.Owns ps := by
  have hlive := h.isLive List.mem_cons_self
  obtain ⟨b, hptr, hperm⟩ := cDealloc_live (h.ne_zero List.mem_cons_self) hlive hok
  have haddrs : m.addrs.Perm (p :: m'.addrs) := by
    rw [← hptr]
    exact hperm.map Block.ptr
  refine ⟨?_, ?_, ?_⟩
  · intro c hc
    exact h.pos c (hperm.mem_iff.mpr (List.mem_cons_of_mem b hc))
  · exact (List.nodup_cons.mp (haddrs.nodup_iff.mp h.distinct)).2
  · exact (List.subperm_cons p).mp (h.owned.trans haddrs.subperm)

/-- Somebody else gives a block back. -/
theorem dealloc_other (h : m.Owns ps) (hp : p ∉ ps) (hok : cDealloc m p = .ok m') : m'.Owns ps := by
  have hsub : m'.live.Sublist m.live := by
    rcases cDealloc_calls hok with ⟨-, hcalls⟩ | ⟨-, hcalls⟩
    · rw [live, hcalls]
      exact .refl _
    · rw [live, hcalls]
      exact List.eraseP_sublist
  refine ⟨fun b hb => h.pos b (hsub.subset hb), h.distinct.sublist (hsub.map _), ?_⟩
  refine List.subperm_of_subset h.nodup fun q hq => ?_
  obtain ⟨b, hb, rfl⟩ := h.isLive hq
  have hne : b.ptr ≠ p := fun heq => hp (heq ▸ hq)
  exact List.mem_map_of_mem (cDealloc_live_of_ne hok hb hne)

end Owns

/-! ## The owner of all that is handed out -/

/-- Between two states some blocks were handed out and none given back, and whoever has the
new ones owns them beside those at `ps`. -/
def Gained (m m' : Memory) (ps : List Addr) : Prop :=
  ∃ new, m'.addrs = new ++ m.addrs ∧ (m'.Fresh → m'.Owns (new ++ ps))

/-- The blocks handed out since, if none was given back. -/
def newAddrs (m m' : Memory) : List Addr := m'.addrs.take (m'.addrs.length - m.addrs.length)

namespace Gained

theorem refl (h : m.Fresh → m.Owns ps) : m.Gained m ps := ⟨[], rfl, h⟩

theorem alloc {m'' : Memory} {bytes : UInt32} (h : m.Gained m' ps)
    (hok : cAlloc m' bytes = .ok (p, m'')) : m.Gained m'' ps := by
  obtain ⟨new, haddrs, howns⟩ := h
  have hold : m''.Fresh → m'.Owns (new ++ ps) := fun hfresh =>
    howns (hfresh.of_suffix (cAlloc_calls hok))
  rcases cAlloc_blocks hok with ⟨hp, hlive⟩ | ⟨b, before, rfl, -, hcalls, -, hlive, -⟩
  · refine ⟨new, by rw [addrs, hlive]; exact haddrs, fun hfresh => ?_⟩
    exact (hold hfresh).alloc_old hfresh hok
  · refine ⟨b.ptr :: new, ?_, fun hfresh => ?_⟩
    · rw [List.cons_append, ← haddrs, addrs, live, hcalls, addrs, ← hlive]
      rfl
    · rcases (hold hfresh).alloc hfresh hok with ⟨hzero, -⟩ | ⟨-, howns⟩
      · exact absurd hzero (ptr_ne_zero b)
      · exact howns

theorem owns (h : m.Gained m' ps) (hfresh : m'.Fresh) : m'.Owns (m.newAddrs m' ++ ps) := by
  obtain ⟨new, haddrs, howns⟩ := h
  have hnew : m.newAddrs m' = new := by
    rw [newAddrs, haddrs, List.length_append, Nat.add_sub_cancel, List.take_left]
  rw [hnew]
  exact howns hfresh

end Gained

end Memory

end ChicOS
