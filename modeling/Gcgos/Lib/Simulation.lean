import Gcgos.Lib.Act

/-!
# Calls and what they are for

An object answers calls by actions over its state. A second object, which says
what the first one is for, answers the same calls by a partial function: where
it gives no answer nothing is promised. When every answer of the second is an
answer of the first, for states that belong together, then so it is for any
number of calls in a row.
-/

set_option autoImplicit false

namespace Act

variable {ε σ α κ β : Type}

/-- A run that is known to return meets whatever its returning runs meet. -/
theorem Yields.both {γ : Type} {action : Act ε σ γ} {s : σ} {post other : γ → σ → Prop}
    (yields : Yields action s post) (ensures : Ensures action s other) :
    Yields action s fun value t => post value t ∧ other value t := by
  obtain ⟨value, t, returned, met⟩ := yields
  exact ⟨value, t, returned, met, ensures value t returned⟩

/-- The calls in order and what they return. -/
def each (call : κ → Act ε σ β) : (calls : List κ) → Act ε σ (List β)
  | [] => pure []
  | c :: rest => do
      let result ← call c
      let results ← each call rest
      pure (result :: results)

/-- The calls in order on the object that says what they are for. -/
def specEach (spec : κ → α → Option (β × α)) : (calls : List κ) → α → Option (List β × α)
  | [], a => some ([], a)
  | c :: rest, a =>
      (spec c a).bind fun (result, b) =>
        (specEach spec rest b).map fun (results, last) => (result :: results, last)

/-- What `spec` answers in a state that belongs to `s`, the action answers from
`s`, and the states still belong together. -/
def Simulates (call : κ → Act ε σ β) (spec : κ → α → Option (β × α)) (shows : σ → α → Prop) :
    Prop :=
  ∀ c s a result b, shows s a → spec c a = some (result, b) →
    Yields (call c) s fun value t => value = result ∧ shows t b

theorem Simulates.each {call : κ → Act ε σ β} {spec : κ → α → Option (β × α)}
    {shows : σ → α → Prop} (simulates : Simulates call spec shows) (calls : List κ) {s : σ}
    {a b : α} {results : List β} (shown : shows s a)
    (answers : specEach spec calls a = some (results, b)) :
    Yields (each call calls) s fun values t => values = results ∧ shows t b := by
  induction calls generalizing s a results with
  | nil =>
      cases answers
      exact ⟨[], s, rfl, rfl, shown⟩
  | cons c rest ih =>
      obtain ⟨⟨result, mid⟩, first, others⟩ := Option.bind_eq_some_iff.mp answers
      obtain ⟨⟨later, last⟩, second, same⟩ := Option.map_eq_some_iff.mp others
      cases same
      refine Yields.seq (simulates c s a result mid shown first) ?_
      rintro value t ⟨rfl, shownT⟩
      refine Yields.seq (ih shownT second) ?_
      rintro values u ⟨rfl, shownU⟩
      exact ⟨_, u, rfl, rfl, shownU⟩

end Act
