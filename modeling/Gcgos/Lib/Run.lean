import Mathlib.Order.Basic

/-!
# Runs of a step relation

The states reached from an initial state in a number of steps, and the
induction rule by which an invariant of one step is an invariant of every run.
-/

set_option autoImplicit false

/-- `ReachIn initial step n s`: the state `s` is reached in `n` steps. -/
inductive ReachIn {σ : Type} (initial : σ → Prop) (step : σ → σ → Prop) : Nat → σ → Prop where
  | start {s : σ} (first : initial s) : ReachIn initial step 0 s
  | next {n : Nat} {s t : σ} (before : ReachIn initial step n s) (taken : step s t) :
      ReachIn initial step (n + 1) t

namespace ReachIn

variable {σ : Type} {initial : σ → Prop} {step : σ → σ → Prop}

/-- What holds at the start and survives every step holds in every state that
is reached. -/
theorem invariant {h : σ → Prop} (base : ∀ s, initial s → h s)
    (preserved : ∀ s t, h s → step s t → h t) {n : Nat} {s : σ}
    (run : ReachIn initial step n s) : h s := by
  induction run with
  | start first => exact base _ first
  | next before taken ih => exact preserved _ _ ih taken

/-- The same for an invariant that may grow with the number of steps. -/
theorem invariant_at {h : Nat → σ → Prop} (base : ∀ s, initial s → h 0 s)
    (preserved : ∀ n s t, h n s → step s t → h (n + 1) t) {n : Nat} {s : σ}
    (run : ReachIn initial step n s) : h n s := by
  induction run with
  | start first => exact base _ first
  | next before taken ih => exact preserved _ _ _ ih taken

/-- A run of some steps is a run of more. -/
theorem mono {step' : σ → σ → Prop} (weaker : ∀ s t, step s t → step' s t) {n : Nat} {s : σ}
    (run : ReachIn initial step n s) : ReachIn initial step' n s := by
  induction run with
  | start first => exact ReachIn.start first
  | next _ taken ih => exact ReachIn.next ih (weaker _ _ taken)

end ReachIn
