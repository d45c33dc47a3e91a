import Mathlib.Logic.Function.Basic

/-!
# A ledger of things that are owned, free or set aside

Each thing has at most one owner, what is owned is neither free nor set aside,
and what is set aside is not free. The rules say which changes of ownership keep
the ledger sound; the owners and the things are arbitrary types.
-/

set_option autoImplicit false

structure Ledger {ω α : Type} (owns : ω → α → Prop) (free aside : α → Bool) : Prop where
  owned : ∀ o x, owns o x → free x = false ∧ aside x = false
  single : ∀ o o' x, owns o x → owns o' x → o = o'
  aside : ∀ x, aside x = true → free x = false

namespace Ledger

variable {ω α : Type} [DecidableEq α] {owns owns' : ω → α → Prop} {free aside : α → Bool}

omit [DecidableEq α] in
/-- Owners may change their names as long as they stay apart, and drop things. -/
theorem rename (ledger : Ledger owns free aside) (name : ω → ω)
    (kept : ∀ o x, owns' o x → owns (name o) x)
    (apart : ∀ o o' x, owns' o x → owns' o' x → name o = name o' → o = o') :
    Ledger owns' free aside where
  owned o x own := ledger.owned _ _ (kept o x own)
  single o o' x own own' :=
    apart o o' x own own' (ledger.single _ _ x (kept o x own) (kept o' x own'))
  aside := ledger.aside

omit [DecidableEq α] in
theorem shrink (ledger : Ledger owns free aside) (kept : ∀ o x, owns' o x → owns o x) :
    Ledger owns' free aside :=
  ledger.rename id kept fun _ _ _ _ _ same => same

/-- An owner gives a thing back. -/
theorem release (ledger : Ledger owns free aside) {o : ω} {x : α} (own : owns o x)
    (kept : ∀ o' x', owns' o' x' → owns o' x' ∧ o' ≠ o) :
    Ledger owns' (Function.update free x true) aside := by
  constructor
  case owned =>
    intro o' x' own'
    obtain ⟨before, other⟩ := kept o' x' own'
    have different : x' ≠ x := by
      rintro rfl
      exact other (ledger.single _ _ _ before own)
    rw [Function.update_of_ne different]
    exact ledger.owned o' x' before
  case single =>
    intro o' o'' x' left right
    exact ledger.single _ _ _ (kept _ _ left).1 (kept _ _ right).1
  case aside =>
    intro x' set
    have different : x' ≠ x := by
      rintro rfl
      rw [(ledger.owned o x' own).2] at set
      cases set
    rw [Function.update_of_ne different]
    exact ledger.aside x' set

/-- A thing set aside becomes free. -/
theorem discard (ledger : Ledger owns free aside) {x : α} (set : aside x = true) :
    Ledger owns (Function.update free x true) (Function.update aside x false) := by
  have unowned : ∀ o x', owns o x' → x' ≠ x := by
    rintro o x' own rfl
    rw [(ledger.owned o x' own).2] at set
    cases set
  constructor
  case owned =>
    intro o x' own
    rw [Function.update_of_ne (unowned o x' own), Function.update_of_ne (unowned o x' own)]
    exact ledger.owned o x' own
  case single => exact ledger.single
  case aside =>
    intro x' set'
    by_cases same : x' = x
    · subst same
      rw [Function.update_self] at set'
      cases set'
    · rw [Function.update_of_ne same] at set' ⊢
      exact ledger.aside x' set'

/-- A free thing is taken, by an owner or by nobody. -/
theorem take (ledger : Ledger owns free aside) {x : α} (isFree : free x = true)
    (kept : ∀ o x', owns' o x' → owns o x' ∨ x' = x)
    (apart : ∀ o o', owns' o x → owns' o' x → o = o') :
    Ledger owns' (Function.update free x false) aside := by
  have unowned : ∀ o, ¬owns o x := by
    intro o own
    rw [(ledger.owned o x own).1] at isFree
    cases isFree
  have unset : aside x = false := by
    by_contra set
    rw [ledger.aside x (by simpa using set)] at isFree
    cases isFree
  constructor
  case owned =>
    intro o x' own
    by_cases same : x' = x
    · subst same
      rw [Function.update_self]
      exact ⟨rfl, unset⟩
    · rw [Function.update_of_ne same]
      exact ledger.owned o x' ((kept o x' own).resolve_right same)
  case single =>
    intro o o' x' left right
    by_cases same : x' = x
    · subst same
      exact apart o o' left right
    · exact ledger.single _ _ _ ((kept _ _ left).resolve_right same)
        ((kept _ _ right).resolve_right same)
  case aside =>
    intro x' set
    by_cases same : x' = x
    · subst same
      rw [unset] at set
      cases set
    · rw [Function.update_of_ne same]
      exact ledger.aside x' set

end Ledger
