import Mathlib.Data.Set.Insert

/-!
# A pool of things that are taken and given back

The pool is described by the set of what is taken. A run is the list of its
events; a thing that is taken twice was given back in between.
-/

set_option autoImplicit false

namespace Pool

variable {α : Type}

inductive Event (α : Type) where
  | took (a : α)
  | freed (a : α)

inductive Step : Set α → Event α → Set α → Prop where
  | took {taken : Set α} {a : α} (free : a ∉ taken) : Step taken (.took a) (insert a taken)
  | freed {taken : Set α} {a : α} (held : a ∈ taken) : Step taken (.freed a) (taken \ {a})

inductive Run : Set α → List (Event α) → Set α → Prop where
  | nil (taken : Set α) : Run taken [] taken
  | cons {before mid after : Set α} {e : Event α} {events : List (Event α)}
      (first : Step before e mid) (rest : Run mid events after) : Run before (e :: events) after

theorem Run.split {before after : Set α} {first second : List (Event α)}
    (run : Run before (first ++ second) after) :
    ∃ mid, Run before first mid ∧ Run mid second after := by
  induction first generalizing before with
  | nil => exact ⟨before, Run.nil before, run⟩
  | cons e events ih =>
      cases run with
      | cons step rest =>
          obtain ⟨mid, left, right⟩ := ih rest
          exact ⟨mid, Run.cons step left, right⟩

/-- What is taken stays taken until it is given back. -/
theorem Run.held {before after : Set α} {events : List (Event α)} (run : Run before events after)
    {a : α} (taken : a ∈ before) (kept : Event.freed a ∉ events) : a ∈ after := by
  induction run with
  | nil => exact taken
  | cons step _ ih =>
      apply ih
      · cases step with
        | took _ => exact Or.inr taken
        | freed _ =>
            refine ⟨taken, ?_⟩
            rintro rfl
            exact kept List.mem_cons_self
      · exact fun later => kept (List.mem_cons_of_mem _ later)

/-- Nothing is taken twice without being given back in between. -/
theorem Run.freed_between {before after : Set α} {a : α} {first mid last : List (Event α)}
    (run : Run before (first ++ .took a :: (mid ++ .took a :: last)) after) :
    Event.freed a ∈ mid := by
  obtain ⟨_, -, second⟩ := run.split
  cases second with
  | cons step rest =>
      cases step
      obtain ⟨held, between, third⟩ := rest.split
      by_contra never
      have still := between.held (Set.mem_insert _ _) never
      cases third with
      | cons step' _ =>
          cases step' with
          | took free => exact free still

end Pool
