import Mathlib.Data.Option.Basic
import Mathlib.Data.List.Basic

/-!
# Tables that lead to tables

A table has slots, and a slot may lead to another table. A path is a list of
slots, the last one taken first in the list. As long as no table is reached on
two paths, filling an unused slot with a new table adds one path and changes
no other.
-/

set_option autoImplicit false

namespace Radix

variable {Table Slot : Type}

/-- The table at the end of a path from the root. -/
def descend (child : Table → Slot → Option Table) (root : Table) : List Slot → Option Table
  | [] => some root
  | slot :: path => (descend child root path).bind fun table => child table slot

/-- No table is reached on two paths of at most `depth` slots. -/
def Apart (child : Table → Slot → Option Table) (root : Table) (depth : Nat) : Prop :=
  ∀ p q t, p.length ≤ depth → q.length ≤ depth → descend child root p = some t →
    descend child root q = some t → p = q

variable {child child' : Table → Slot → Option Table} {root : Table} {depth : Nat}

@[simp] theorem descend_nil : descend child root [] = some root := rfl

theorem descend_cons {path : List Slot} {t : Table} (slot : Slot)
    (there : descend child root path = some t) :
    descend child root (slot :: path) = child t slot := by
  rw [descend, there]
  rfl

theorem descend_cons_none {path : List Slot} (slot : Slot)
    (missing : descend child root path = none) :
    descend child root (slot :: path) = none := by
  rw [descend, missing]
  rfl

/-- The table before the last slot of a path. -/
theorem descend_parent {slot : Slot} {path : List Slot} {t : Table}
    (there : descend child root (slot :: path) = some t) :
    ∃ u, descend child root path = some u ∧ child u slot = some t := by
  cases before : descend child root path with
  | none =>
      rw [descend_cons_none slot before] at there
      cases there
  | some u =>
      rw [descend_cons slot before] at there
      exact ⟨u, rfl, there⟩

/-- Only the tables that a path goes through matter. -/
theorem descend_congr
    (same : ∀ p t, p.length < depth → descend child root p = some t →
      ∀ slot, child' t slot = child t slot) (q : List Slot) (short : q.length ≤ depth) :
    descend child' root q = descend child root q := by
  induction q with
  | nil => rfl
  | cons slot path ih =>
      rw [List.length_cons] at short
      have before := ih (by omega)
      cases there : descend child root path with
      | none => rw [descend_cons_none slot (before.trans there), descend_cons_none slot there]
      | some t =>
          rw [descend_cons slot (before.trans there), descend_cons slot there]
          exact same path t (by omega) there slot

theorem Apart.congr
    (same : ∀ p t, p.length < depth → descend child root p = some t →
      ∀ slot, child' t slot = child t slot) (apart : Apart child root depth) :
    Apart child' root depth := by
  intro p q t shortP shortQ left right
  rw [descend_congr same p shortP] at left
  rw [descend_congr same q shortQ] at right
  exact apart p q t shortP shortQ left right

/-- `child'` is `child` with the slot `i` of `t` leading to the empty table
`new`, as far as the tables of this root go. -/
structure Grown (child child' : Table → Slot → Option Table) (root : Table) (depth : Nat)
    (t : Table) (i : Slot) (new : Table) : Prop where
  unused : child t i = none
  fresh : ∀ q, q.length ≤ depth → descend child root q ≠ some new
  link : child' t i = some new
  blank : ∀ slot, child' new slot = none
  same : ∀ q u slot, q.length ≤ depth → descend child root q = some u → u ≠ t ∨ slot ≠ i →
    child' u slot = child u slot

section

variable {p : List Slot} {t new : Table} {i : Slot}

/-- The other paths are as they were. -/
theorem descend_grown (apart : Apart child root depth) (grown : Grown child child' root depth t i new)
    (short : p.length < depth) (there : descend child root p = some t) (q : List Slot)
    (bound : q.length ≤ depth) :
    (q = i :: p → descend child' root q = some new) ∧
      (q ≠ i :: p → descend child' root q = descend child root q) := by
  induction q with
  | nil => exact ⟨fun same => absurd same (List.cons_ne_nil i p).symm, fun _ => rfl⟩
  | cons slot path ih =>
      rw [List.length_cons] at bound
      have before := ih (by omega)
      by_cases through : path = i :: p
      · have here := before.1 through
        have longer : slot :: path ≠ i :: p := by
          intro same
          have lengths := congrArg List.length same
          rw [through] at lengths
          simp at lengths
        have dead : descend child root path = none := by
          rw [through, descend_cons i there]
          exact grown.unused
        refine ⟨fun same => absurd same longer, fun _ => ?_⟩
        rw [descend_cons slot here, grown.blank, descend_cons_none slot dead]
      · have kept := before.2 through
        cases reached : descend child root path with
        | none =>
            have other : slot :: path ≠ i :: p := by
              intro same
              cases same
              rw [there] at reached
              cases reached
            refine ⟨fun same => absurd same other, fun _ => ?_⟩
            rw [descend_cons_none slot (kept.trans reached), descend_cons_none slot reached]
        | some u =>
            rw [descend_cons slot (kept.trans reached), descend_cons slot reached]
            constructor
            · intro same
              cases same
              rw [there] at reached
              cases reached
              exact grown.link
            · intro other
              apply grown.same path u slot (by omega) reached
              by_cases table : u = t
              · right
                intro same
                subst table
                subst same
                exact other (congrArg (slot :: ·)
                  (apart path p u (by omega) (by omega) reached there))
              · exact Or.inl table

/-- Every table after the step was there before, or is the new one. -/
theorem descend_grown_cases (apart : Apart child root depth) (grown : Grown child child' root depth t i new)
    (short : p.length < depth) (there : descend child root p = some t) {q : List Slot} {u : Table}
    (bound : q.length ≤ depth) (reached : descend child' root q = some u) :
    (q = i :: p ∧ u = new) ∨ (q ≠ i :: p ∧ descend child root q = some u) := by
  have both := descend_grown apart grown short there q bound
  by_cases same : q = i :: p
  · rw [both.1 same] at reached
    cases reached
    exact Or.inl ⟨same, rfl⟩
  · rw [both.2 same] at reached
    exact Or.inr ⟨same, reached⟩

theorem Apart.grown (apart : Apart child root depth) (grown : Grown child child' root depth t i new)
    (short : p.length < depth) (there : descend child root p = some t) :
    Apart child' root depth := by
  intro q r u boundQ boundR left right
  have caseQ := descend_grown_cases apart grown short there boundQ left
  have caseR := descend_grown_cases apart grown short there boundR right
  rcases caseQ with ⟨sameQ, isNew⟩ | ⟨-, oldQ⟩
  · rcases caseR with ⟨sameR, -⟩ | ⟨-, oldR⟩
    · exact sameQ.trans sameR.symm
    · rw [isNew] at oldR
      exact absurd oldR (grown.fresh r boundR)
  · rcases caseR with ⟨-, isNew⟩ | ⟨-, oldR⟩
    · rw [isNew] at oldQ
      exact absurd oldQ (grown.fresh q boundQ)
    · exact apart q r u boundQ boundR oldQ oldR

end

end Radix
