import Gcgos.Lib.Act

/-!
# Two runs side by side

Two actions are run from two states. `Mirrors` says that they stop alike or
return one value, in states that a relation connects; it has one rule for each
way of building an action. Nothing here is about a particular program.
-/

set_option autoImplicit false

namespace Act

variable {ε σ τ α β : Type}

/-- Both runs stop with one error, or both return one value and `post` relates
the states they end in. -/
def Mirrors (first second : Act ε σ α) (s s' : σ) (post : α → σ → σ → Prop) : Prop :=
  match first s, second s' with
  | .ok (value, t), .ok (value', t') => value' = value ∧ post value t t'
  | .error stop, .error stop' => stop' = stop
  | _, _ => False

namespace Mirrors

variable {s s' : σ} {post : α → σ → σ → Prop}

theorem same_end {first second : Act ε σ α} (mirrors : Mirrors first second s s' post)
    {value value' : α} {t t' : σ} (left : first s = .ok (value, t))
    (right : second s' = .ok (value', t')) : value' = value ∧ post value t t' := by
  unfold Mirrors at mirrors
  rw [left, right] at mirrors
  exact mirrors

theorem mono {first second : Act ε σ α} {weaker : α → σ → σ → Prop}
    (mirrors : Mirrors first second s s' post)
    (imply : ∀ value t t', post value t t' → weaker value t t') :
    Mirrors first second s s' weaker := by
  unfold Mirrors at mirrors ⊢
  cases left : first s with
  | error stop =>
      cases right : second s' with
      | error stop' =>
          rw [left, right] at mirrors
          exact mirrors
      | ok pair =>
          rw [left, right] at mirrors
          exact mirrors
  | ok pair =>
      cases right : second s' with
      | error stop' =>
          rw [left, right] at mirrors
          exact mirrors
      | ok pair' =>
          rw [left, right] at mirrors
          exact ⟨mirrors.1, imply _ _ _ mirrors.2⟩

theorem pure {value : α} (met : post value s s') :
    Mirrors (Pure.pure value : Act ε σ α) (Pure.pure value) s s' post := ⟨rfl, met⟩

theorem fail {stop : ε} : Mirrors (Act.fail stop : Act ε σ α) (Act.fail stop) s s' post := rfl

theorem seq {first second : Act ε σ α} {next after : α → Act ε σ β} {m : α → σ → σ → Prop}
    {last : β → σ → σ → Prop} (head : Mirrors first second s s' m)
    (rest : ∀ value t t', m value t t' → Mirrors (next value) (after value) t t' last) :
    Mirrors (first >>= next) (second >>= after) s s' last := by
  unfold Mirrors at head ⊢
  rw [bind_run, bind_run]
  cases left : first s with
  | error stop =>
      cases right : second s' with
      | error stop' =>
          rw [left, right] at head
          exact head
      | ok pair =>
          rw [left, right] at head
          exact head.elim
  | ok pair =>
      cases right : second s' with
      | error stop' =>
          rw [left, right] at head
          exact head.elim
      | ok pair' =>
          rw [left, right] at head
          obtain ⟨same, met⟩ := head
          obtain ⟨value, t⟩ := pair
          obtain ⟨value', t'⟩ := pair'
          cases same
          exact rest value t t' met

theorem look {field : σ → β} {next after : β → Act ε σ α}
    (rest : Mirrors (next (field s)) (after (field s')) s s' post) :
    Mirrors (Act.reads field >>= next) (Act.reads field >>= after) s s' post := rest

theorem change {left right : σ → σ} {next after : Unit → Act ε σ α}
    (rest : Mirrors (next ()) (after ()) (left s) (right s') post) :
    Mirrors (Act.modify left >>= next) (Act.modify right >>= after) s s' post := rest

theorem modify {left right : σ → σ} {met : Unit → σ → σ → Prop} (holds : met () (left s) (right s')) :
    Mirrors (Act.modify left : Act ε σ Unit) (Act.modify right) s s' met := ⟨rfl, holds⟩

theorem guard {choice : Prop} [Decidable choice] {stop : ε} {next after : Unit → Act ε σ α}
    (rest : ¬choice → Mirrors (next ()) (after ()) s s' post) :
    Mirrors (Act.stopIf choice stop >>= next) (Act.stopIf choice stop >>= after) s s' post := by
  by_cases holds : choice
  · unfold Mirrors
    rw [bind_of_error (stopIf_of stop s holds), bind_of_error (stopIf_of stop s' holds)]
  · unfold Mirrors
    rw [bind_of_ok (stopIf_of_not stop s holds), bind_of_ok (stopIf_of_not stop s' holds)]
    exact rest holds

theorem ite {choice : Prop} [Decidable choice] {left right left' right' : Act ε σ α}
    (onTrue : choice → Mirrors left left' s s' post)
    (onFalse : ¬choice → Mirrors right right' s s' post) :
    Mirrors (if choice then left else right) (if choice then left' else right') s s' post := by
  by_cases holds : choice
  · rw [if_pos holds, if_pos holds]
    exact onTrue holds
  · rw [if_neg holds, if_neg holds]
    exact onFalse holds

theorem zoom {view : σ → τ} {put : τ → σ → σ} {inner inner' : Act ε τ α}
    (met : Mirrors inner inner' (view s) (view s') fun value t t' =>
      post value (put t s) (put t' s')) :
    Mirrors (Act.zoom view put inner) (Act.zoom view put inner') s s' post := by
  unfold Mirrors at met ⊢
  unfold Act.zoom
  cases left : inner (view s) with
  | error stop =>
      cases right : inner' (view s') with
      | error stop' =>
          rw [left, right] at met
          exact met
      | ok pair =>
          rw [left, right] at met
          exact met.elim
  | ok pair =>
      cases right : inner' (view s') with
      | error stop' =>
          rw [left, right] at met
          exact met.elim
      | ok pair' =>
          rw [left, right] at met
          exact met

end Mirrors

end Act
