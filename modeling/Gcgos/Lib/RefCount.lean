import Mathlib.Data.Finset.Card
import Mathlib.Data.Fintype.Basic
import Mathlib.Logic.Function.Basic

/-!
# Reference counts

Holders with one pointer each, and things with a counter. The invariant is that
a thing is live exactly while somebody holds it, and that the counter of a live
thing is the number of its holders. The rules say how a first holder, the last
holder and a set of further holders keep it. Holders and things are arbitrary
types; there are finitely many holders.
-/

set_option autoImplicit false

section

variable {η α : Type} [Fintype η] [DecidableEq η] [DecidableEq α]

/-- The holders of a thing. -/
def holders (slot : η → Option α) (x : α) : Finset η := Finset.univ.filter fun h => slot h = some x

structure RefCounted (slot : η → Option α) (live : α → Prop) (count : α → Int) : Prop where
  count : ∀ x, live x → count x = (holders slot x).card
  live : ∀ x, live x ↔ ∃ h, slot h = some x

variable {slot slot' : η → Option α} {live live' : α → Prop} {count count' : α → Int}

omit [DecidableEq η] in
@[simp] theorem mem_holders {h : η} {x : α} : h ∈ holders slot x ↔ slot h = some x := by
  simp [holders]

theorem holders_attach {h : η} {x : α} (empty : slot h = none) (y : α) :
    holders (Function.update slot h (some x)) y =
      if y = x then insert h (holders slot y) else holders slot y := by
  ext h'
  by_cases here : h' = h
  · subst here
    by_cases same : y = x
    · simp [same]
    · simp [same, empty, Ne.symm same]
  · by_cases same : y = x <;> simp [here, same]

theorem holders_detach {h : η} {x : α} (held : slot h = some x) (y : α) :
    holders (Function.update slot h none) y =
      if y = x then (holders slot y).erase h else holders slot y := by
  ext h'
  by_cases here : h' = h
  · subst here
    by_cases same : y = x
    · simp [same]
    · simp [same, held, Ne.symm same]
  · by_cases same : y = x <;> simp [here, same]

namespace RefCounted

omit [DecidableEq η] in
/-- The only holder of a thing that is counted once. -/
theorem only (counted : RefCounted slot live count) {x : α} (once : count x = 1) {h h' : η}
    (held : slot h = some x) (held' : slot h' = some x) : h' = h := by
  have one : (holders slot x).card = 1 := by
    have total := counted.count x ((counted.live x).mpr ⟨h, held⟩)
    omega
  exact Finset.card_le_one.mp one.le h' (mem_holders.mpr held') h (mem_holders.mpr held)

/-- A thing that is not live gets its first holder. -/
theorem attach (counted : RefCounted slot live count) {h : η} {x : α} (empty : slot h = none)
    (fresh : ¬live x) (slots : slot' = Function.update slot h (some x)) (now : live' x)
    (once : count' x = 1) (others : ∀ y, y ≠ x → (live' y ↔ live y) ∧ count' y = count y) :
    RefCounted slot' live' count' := by
  subst slots
  have none : holders slot x = ∅ := by
    apply Finset.eq_empty_of_forall_notMem
    intro h' held
    exact fresh ((counted.live x).mpr ⟨h', mem_holders.mp held⟩)
  constructor
  case count =>
    intro y alive
    rw [holders_attach empty]
    by_cases same : y = x
    · subst same
      simp [none, once]
    · rw [if_neg same, (others y same).2]
      exact counted.count y ((others y same).1.mp alive)
  case live =>
    intro y
    by_cases same : y = x
    · subst same
      exact iff_of_true now ⟨h, Function.update_self _ _ _⟩
    · rw [(others y same).1, counted.live]
      apply exists_congr
      intro h'
      by_cases here : h' = h
      · subst here
        simp [empty, Ne.symm same]
      · simp [here]

/-- The only holder of a thing lets it go. -/
theorem detach (counted : RefCounted slot live count) {h : η} {x : α} (held : slot h = some x)
    (once : count x = 1) (slots : slot' = Function.update slot h none) (gone : ¬live' x)
    (others : ∀ y, y ≠ x → (live' y ↔ live y) ∧ count' y = count y) :
    RefCounted slot' live' count' := by
  subst slots
  constructor
  case count =>
    intro y alive
    have different : y ≠ x := by
      rintro rfl
      exact gone alive
    rw [holders_detach held, if_neg different, (others y different).2]
    exact counted.count y ((others y different).1.mp alive)
  case live =>
    intro y
    by_cases same : y = x
    · subst same
      apply iff_of_false gone
      rintro ⟨h', held'⟩
      by_cases here : h' = h
      · subst here
        simp at held'
      · rw [Function.update_of_ne here] at held'
        exact here (counted.only once held held')
    · rw [(others y same).1, counted.live]
      apply exists_congr
      intro h'
      by_cases here : h' = h
      · subst here
        simp [held, Ne.symm same]
      · simp [here]

omit [DecidableEq η] in
/-- The same things are live and have the same holders. -/
theorem congr (counted : RefCounted slot live count) (slots : slot' = slot)
    (lives : ∀ x, live' x ↔ live x) (counts : ∀ x, count' x = count x) :
    RefCounted slot' live' count' := by
  subst slots
  refine ⟨fun x alive => ?_, fun x => (lives x).trans (counted.live x)⟩
  rw [counts]
  exact counted.count x ((lives x).mp alive)

/-- Holders without a pointer get copies of pointers that exist. -/
theorem share (counted : RefCounted slot live count) {d : Finset η}
    (empty : ∀ h ∈ d, slot h = none) (kept : ∀ h, h ∉ d → slot' h = slot h)
    (copies : ∀ h ∈ d, ∀ x, slot' h = some x → ∃ h', slot h' = some x)
    (lives : ∀ x, live' x ↔ live x)
    (counts : ∀ x, count' x = count x + (d.filter fun h => slot' h = some x).card) :
    RefCounted slot' live' count' := by
  have split : ∀ x, holders slot' x = holders slot x ∪ d.filter fun h => slot' h = some x := by
    intro x
    ext h
    by_cases member : h ∈ d
    · simp [member, empty h member]
    · simp [member, kept h member]
  constructor
  case count =>
    intro x alive
    have apart : Disjoint (holders slot x) (d.filter fun h => slot' h = some x) := by
      apply Finset.disjoint_left.mpr
      intro h held fresh
      rw [mem_holders, empty h (Finset.mem_filter.mp fresh).1] at held
      cases held
    rw [split, Finset.card_union_of_disjoint apart, counts, counted.count x ((lives x).mp alive)]
    push_cast
    rfl
  case live =>
    intro x
    rw [lives, counted.live]
    constructor
    · rintro ⟨h, held⟩
      refine ⟨h, ?_⟩
      rw [kept h, held]
      intro member
      rw [empty h member] at held
      cases held
    · rintro ⟨h, held⟩
      by_cases member : h ∈ d
      · exact copies h member x held
      · rw [kept h member] at held
        exact ⟨h, held⟩

end RefCounted

end
