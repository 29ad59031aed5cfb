-- SUMMARY: Abstract allocators: live blocks with disjoint footprints, apart from a set of free resources.
import Mathlib.Data.Finset.Card
import Mathlib.Data.List.Perm.Basic

/-!
# Packings

What an allocator is for, without saying how it searches or what it stores: some
resources are free, and every live block owns a footprint of resources that it
shares neither with the free ones nor with any other live block. `take` hands
out a block made of free resources, `release` gives one back; both keep the
packing, and both move exactly the block's footprint.
-/

/-- The live blocks own disjoint footprints, none of which is free. -/
structure Packing {α β : Type*} [DecidableEq α] (foot : β → Finset α)
    (free : Finset α) (live : List β) : Prop where
  disjoint : live.Pairwise fun b c => Disjoint (foot b) (foot c)
  apart : ∀ b ∈ live, Disjoint (foot b) free

namespace Packing

variable {α β : Type*} [DecidableEq α] {foot : β → Finset α} {free : Finset α} {live : List β}

theorem empty (free : Finset α) : Packing foot free [] where
  disjoint := .nil
  apart := by simp

/-- Handing out a block made of free resources. -/
theorem take (h : Packing foot free live) {b : β} (hb : foot b ⊆ free) :
    Packing foot (free \ foot b) (b :: live) where
  disjoint := by
    refine List.pairwise_cons.mpr ⟨fun c hc => ?_, h.disjoint⟩
    exact ((h.apart c hc).mono_right hb).symm
  apart := by
    intro c hc
    rcases List.mem_cons.mp hc with rfl | hc
    · exact Finset.disjoint_sdiff
    · exact (h.apart c hc).mono_right Finset.sdiff_subset

/-- Giving back a live block. -/
theorem release (h : Packing foot free live) {b : β} {rest : List β}
    (hperm : live.Perm (b :: rest)) : Packing foot (free ∪ foot b) rest := by
  have hpair : (b :: rest).Pairwise fun b c => Disjoint (foot b) (foot c) :=
    (hperm.pairwise_iff fun hxy => hxy.symm).mp h.disjoint
  obtain ⟨hb, hrest⟩ := List.pairwise_cons.mp hpair
  refine ⟨hrest, fun c hc => Finset.disjoint_union_right.mpr ⟨?_, (hb c hc).symm⟩⟩
  exact h.apart c (hperm.mem_iff.mpr (List.mem_cons_of_mem _ hc))

theorem card_take {b : β} (hb : foot b ⊆ free) :
    (free \ foot b).card + (foot b).card = free.card :=
  Finset.card_sdiff_add_card_eq_card hb

theorem card_release (h : Packing foot free live) {b : β} (hb : b ∈ live) :
    (free ∪ foot b).card = free.card + (foot b).card :=
  Finset.card_union_of_disjoint (h.apart b hb).symm

/-- The free resources and the footprints of the live blocks make up a whole. -/
def Covers (foot : β → Finset α) (free : Finset α) (live : List β) (whole : Finset α) : Prop :=
  ∀ a, a ∈ whole ↔ a ∈ free ∨ ∃ b ∈ live, a ∈ foot b

variable {whole : Finset α}

omit [DecidableEq α] in
theorem Covers.empty (free : Finset α) : Covers foot free [] free :=
  fun a => (or_iff_left (by simp)).symm

theorem Covers.take (h : Covers foot free live whole) {b : β} (hb : foot b ⊆ free) :
    Covers foot (free \ foot b) (b :: live) whole := by
  intro a
  rw [h a, Finset.mem_sdiff]
  simp only [List.mem_cons, exists_eq_or_imp]
  rw [← or_assoc]
  refine or_congr_left ⟨fun hfree => ?_, ?_⟩
  · by_cases hfoot : a ∈ foot b
    · exact .inr hfoot
    · exact .inl ⟨hfree, hfoot⟩
  · rintro (⟨hfree, -⟩ | hfoot)
    · exact hfree
    · exact hb hfoot

theorem Covers.release (h : Covers foot free live whole) {b : β} {rest : List β}
    (hperm : live.Perm (b :: rest)) : Covers foot (free ∪ foot b) rest whole := by
  intro a
  have hlive : (∃ c ∈ live, a ∈ foot c) ↔ ∃ c ∈ b :: rest, a ∈ foot c :=
    exists_congr fun c => and_congr_left fun _ => hperm.mem_iff
  rw [h a, hlive, Finset.mem_union, or_assoc]
  simp only [List.mem_cons, exists_eq_or_imp]

/-- What is not free was not free before, or belongs to a live block. -/
theorem not_mem_free_iff (h : Packing foot free live) (hcovers : Covers foot free live whole)
    (a : α) : a ∉ free ↔ a ∉ whole ∨ ∃ b ∈ live, a ∈ foot b := by
  rw [hcovers a, not_or]
  constructor
  · intro hfree
    by_cases hlive : ∃ b ∈ live, a ∈ foot b
    · exact .inr hlive
    · exact .inl ⟨hfree, hlive⟩
  · rintro (⟨hfree, -⟩ | ⟨b, hb, hfoot⟩) hmem
    · exact hfree hmem
    · exact Finset.disjoint_left.mp (h.apart b hb) hfoot hmem

end Packing
