import Mathlib.Data.Fintype.Card
import Mathlib.Data.Multiset.Filter

/-!
# What the places of a table hold

A table has finitely many places, each empty or with a value. The values it
holds, each as often as it is there, are a multiset, and a change of one place
changes one member.
-/

set_option autoImplicit false

namespace Places

variable {α β : Type} [Fintype α]

/-- The values in the places of a table. It is never to be computed by the way. -/
@[irreducible] def tally (f : α → Option β) : Multiset β := (Finset.univ : Finset α).val.filterMap f

/-- There are as many values as places that are not empty. -/
theorem card_tally (f : α → Option β) :
    (tally f).card = ((Finset.univ : Finset α).filter fun a => (f a).isSome = true).card := by
  have counted : ∀ m : Multiset α,
      (m.filterMap f).card = (m.filter fun a => (f a).isSome = true).card := by
    intro m
    induction m using Multiset.induction with
    | empty => rfl
    | cons x m ih =>
        cases there : f x with
        | none =>
            rw [Multiset.filterMap_cons_none x m there, ih, Multiset.filter_cons_of_neg]
            simp [there]
        | some y =>
            rw [Multiset.filterMap_cons_some _ x m there, Multiset.card_cons, ih,
              Multiset.filter_cons_of_pos, Multiset.card_cons]
            simp [there]
  rw [tally]
  exact counted _

/-- Places that are not empty, as many as there are in another type, need as
many values. -/
theorem card_le_tally {γ : Type} [Fintype γ] {f : α → Option β} (place : γ → α) (apart : Function.Injective place)
    (full : ∀ c, (f (place c)).isSome = true) : Fintype.card γ ≤ (tally f).card := by
  rw [card_tally, ← Finset.card_univ]
  refine Finset.card_le_card_of_injOn place (fun c _ => ?_) apart.injOn
  exact Finset.mem_filter.mpr ⟨Finset.mem_univ _, full c⟩

variable [DecidableEq α]

/-- The values in the other places. -/
def tallyRest (f : α → Option β) (a : α) : Multiset β :=
  ((Finset.univ : Finset α).erase a).val.filterMap f

section

variable {f : α → Option β} {a : α} {b : β}

theorem univ_val_cons (a : α) :
    (Finset.univ : Finset α).val = a ::ₘ ((Finset.univ : Finset α).erase a).val := by
  rw [Finset.erase_val]
  exact (Multiset.cons_erase (Finset.mem_univ a)).symm

theorem tally_some (there : f a = some b) : tally f = b ::ₘ tallyRest f a := by
  rw [tally, univ_val_cons a, Multiset.filterMap_cons_some f a _ there]
  rfl

theorem tally_none (empty : f a = none) : tally f = tallyRest f a := by
  rw [tally, univ_val_cons a, Multiset.filterMap_cons_none a _ empty]
  rfl

theorem tallyRest_update (f : α → Option β) (a : α) (value : Option β) :
    tallyRest (Function.update f a value) a = tallyRest f a := by
  unfold tallyRest
  have same : ∀ m : Multiset α, a ∉ m →
      m.filterMap (Function.update f a value) = m.filterMap f := by
    intro m
    induction m using Multiset.induction with
    | empty => exact fun _ => rfl
    | cons x m ih =>
        intro away
        rw [Multiset.mem_cons, not_or] at away
        have kept : Function.update f a value x = f x := Function.update_of_ne (Ne.symm away.1) _ _
        cases there : f x with
        | none =>
            rw [Multiset.filterMap_cons_none x m (kept.trans there),
              Multiset.filterMap_cons_none x m there, ih away.2]
        | some y =>
            rw [Multiset.filterMap_cons_some _ x m (kept.trans there),
              Multiset.filterMap_cons_some _ x m there, ih away.2]
  exact same _ (Finset.notMem_erase a Finset.univ)

theorem tally_fill (empty : f a = none) (b : β) :
    tally (Function.update f a (some b)) = b ::ₘ tally f := by
  rw [tally_some (Function.update_self a (some b) f), tallyRest_update, tally_none empty]

theorem tally_clear [DecidableEq β] (there : f a = some b) :
    tally (Function.update f a none) = (tally f).erase b := by
  rw [tally_none (Function.update_self a none f), tallyRest_update, tally_some there,
    Multiset.erase_cons_head]

theorem mem_tally (there : f a = some b) : b ∈ tally f := by
  rw [tally_some there]
  exact Multiset.mem_cons_self _ _

end

end Places
