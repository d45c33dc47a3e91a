import Mathlib.Order.Interval.Finset.Nat

/-!
# Placing things at distinct numbers

A placement puts every member of a set at a number of its own between a first
and a next number. Handing out the next number for a new member extends it, and
with as many members as numbers there is none left over.
-/

set_option autoImplicit false

/-- The members of `used` sit at distinct places from `first` to below
`next`. -/
structure Placement {ι : Type} (used : ι → Prop) (place : ι → Nat) (first next : Nat) : Prop where
  inside : ∀ i, used i → first ≤ place i ∧ place i < next
  apart : ∀ i j, used i → used j → place i = place j → i = j

namespace Placement

variable {ι : Type} {used used' : ι → Prop} {place place' : ι → Nat} {first next : Nat}

/-- The same members at the same places. -/
theorem congr (placed : Placement used place first next) (same : ∀ i, used' i → used i)
    (kept : ∀ i, used' i → place' i = place i) : Placement used' place' first next := by
  constructor
  · intro i member
    rw [kept i member]
    exact placed.inside i (same i member)
  · intro i j left right equal
    rw [kept i left, kept j right] at equal
    exact placed.apart i j (same i left) (same j right) equal

/-- One new member at the next place. -/
theorem extend (placed : Placement used place first next) (order : first ≤ next) (new : ι)
    (grows : ∀ i, used' i → used i ∨ i = new) (kept : ∀ i, used i → place' i = place i)
    (fresh : place' new = next) : Placement used' place' first (next + 1) := by
  have bound : ∀ i, used i → first ≤ place' i ∧ place' i < next := by
    intro i member
    rw [kept i member]
    exact placed.inside i member
  constructor
  · intro i member
    rcases grows i member with old | rfl
    · have := bound i old
      omega
    · omega
  · intro i j left right equal
    rcases grows i left with oldI | rfl
    · rcases grows j right with oldJ | rfl
      · rw [kept i oldI, kept j oldJ] at equal
        exact placed.apart i j oldI oldJ equal
      · have := bound i oldI
        omega
    · rcases grows j right with oldJ | rfl
      · have := bound j oldJ
        omega
      · rfl

/-- With a member for every number, every number is somebody's place. -/
theorem onto (placed : Placement used place first next) (members : Finset ι)
    (used_of_mem : ∀ i ∈ members, used i) (count : next ≤ first + members.card) {b : Nat}
    (lower : first ≤ b) (upper : b < next) : ∃ i, used i ∧ place i = b := by
  have inside : members.image place ⊆ Finset.Ico first next := by
    intro c hit
    obtain ⟨i, member, rfl⟩ := Finset.mem_image.mp hit
    exact Finset.mem_Ico.mpr (placed.inside i (used_of_mem i member))
  have size : (members.image place).card = members.card := by
    apply Finset.card_image_of_injOn
    intro i left j right equal
    exact placed.apart i j (used_of_mem i left) (used_of_mem j right) equal
  have all : members.image place = Finset.Ico first next := by
    apply Finset.eq_of_subset_of_card_le inside
    rw [Nat.card_Ico, size]
    omega
  have hit : b ∈ members.image place := by
    rw [all]
    exact Finset.mem_Ico.mpr ⟨lower, upper⟩
  obtain ⟨i, member, here⟩ := Finset.mem_image.mp hit
  exact ⟨i, used_of_mem i member, here⟩

end Placement
