import Mathlib.Data.List.Nodup

/-!
# Linked lists in memory

A chain of cells: every cell holds the address of the next one, and the last
one holds zero.
-/

set_option autoImplicit false

/-- From `head` on, `next` leads through the cells of the list and then to
zero. -/
inductive Chain (next : Nat → Nat) : Nat → List Nat → Prop where
  | nil : Chain next 0 []
  | cons {cell : Nat} {rest : List Nat} (nonzero : cell ≠ 0) (tail : Chain next (next cell) rest) :
      Chain next cell (cell :: rest)

namespace Chain

variable {next next' : Nat → Nat} {head : Nat} {cells : List Nat}

/-- Only the links of its own cells matter. -/
theorem congr (chain : Chain next head cells) (same : ∀ cell ∈ cells, next' cell = next cell) :
    Chain next' head cells := by
  induction chain with
  | nil => exact Chain.nil
  | cons nonzero tail ih =>
      apply Chain.cons nonzero
      rw [same _ List.mem_cons_self]
      exact ih fun cell member => same cell (List.mem_cons_of_mem _ member)

theorem head_eq_zero (chain : Chain next head cells) : head = 0 ↔ cells = [] := by
  cases chain with
  | nil => exact ⟨fun _ => rfl, fun _ => rfl⟩
  | cons nonzero tail =>
      exact ⟨fun zero => absurd zero nonzero, fun empty => absurd empty (List.cons_ne_nil _ _)⟩

theorem uncons {cell : Nat} {rest : List Nat} (chain : Chain next head (cell :: rest)) :
    head = cell ∧ cell ≠ 0 ∧ Chain next (next cell) rest := by
  cases chain with
  | cons nonzero tail => exact ⟨rfl, nonzero, tail⟩

/-- There is one chain from an address. -/
theorem unique (chain : Chain next head cells) {others : List Nat}
    (other : Chain next head others) : others = cells := by
  induction chain generalizing others with
  | nil => exact other.head_eq_zero.mp rfl
  | cons nonzero tail ih =>
      cases other with
      | nil => exact absurd rfl nonzero
      | cons _ otherTail => rw [ih otherTail]

end Chain
