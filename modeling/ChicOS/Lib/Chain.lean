-- SUMMARY: Singly linked lists in memory: the nodes reached from a head, and appending one.
import Mathlib.Data.List.Basic

/-!
# Linked lists

A linked list in memory is a head and a field `next` of each node, with a null
address at the end. `Chain next nil head nodes` says which nodes it runs through.
-/

universe u

/-- From `head`, `next` runs through the nodes and ends at `nil`. -/
inductive Chain {α : Type u} (next : α → α) (nil : α) : α → List α → Prop
  | nil : Chain next nil nil []
  | cons {a : α} {as : List α} (hne : a ≠ nil) (hrest : Chain next nil (next a) as) :
      Chain next nil a (a :: as)

namespace Chain

variable {α : Type u} {next next' : α → α} {nil head : α} {nodes : List α}

theorem head_eq_nil (h : Chain next nil head nodes) : head = nil ↔ nodes = [] := by
  cases h with
  | nil => exact ⟨fun _ => rfl, fun _ => rfl⟩
  | cons hne _ => exact ⟨fun heq => absurd heq hne, fun heq => by cases heq⟩

/-- A chain that is not empty starts with its head. -/
theorem eq_cons (h : Chain next nil head nodes) (hne : head ≠ nil) :
    ∃ rest, nodes = head :: rest ∧ Chain next nil (next head) rest := by
  cases h with
  | nil => exact absurd rfl hne
  | cons _ hrest => exact ⟨_, rfl, hrest⟩

/-- What lies outside a chain does not matter to it. -/
theorem congr (h : Chain next nil head nodes) (hnext : ∀ a ∈ nodes, next' a = next a) :
    Chain next' nil head nodes := by
  induction h with
  | nil => exact .nil
  | @cons a as hne _ ih =>
      refine .cons hne ?_
      rw [hnext a List.mem_cons_self]
      exact ih fun b hb => hnext b (List.mem_cons_of_mem a hb)

/-- Linking a new node behind the last one appends it. -/
theorem append {last new : α} (h : Chain next nil head (nodes ++ [last]))
    (hnext : ∀ a ∈ nodes, next' a = next a) (hlast : next' last = new) (hne : new ≠ nil)
    (hnew : next' new = nil) : Chain next' nil head (nodes ++ [last, new]) := by
  induction nodes generalizing head with
  | nil =>
      cases h with
      | cons hhead _ =>
          refine .cons hhead ?_
          rw [hlast]
          refine .cons hne ?_
          rw [hnew]
          exact .nil
  | cons a nodes ih =>
      cases h with
      | cons hhead hrest =>
          refine .cons hhead ?_
          rw [hnext a List.mem_cons_self]
          exact ih hrest fun b hb => hnext b (List.mem_cons_of_mem a hb)

end Chain
