import Mathlib.Logic.Function.Basic
import Mathlib.Logic.Relation

/-!
# State-passing actions that may stop

An action reads and replaces a state and either returns a value or stops with
an error. Nothing here is about a particular program: the state, the error and
the value are arbitrary types. `Ensures` is the condition a returning run
meets; `Yields` in addition says that the run returns. Both have one rule for
each way of building an action, so that a proof about a composite action cites
the rules and never unfolds its parts.
-/

set_option autoImplicit false

/-- A computation over a state `σ` that returns a value and the next state, or
stops with an error `ε`. -/
def Act (ε σ α : Type) : Type := σ → Except ε (α × σ)

namespace Act

variable {ε σ τ α β : Type}

instance : Monad (Act ε σ) where
  pure value := fun s => .ok (value, s)
  bind first next := fun s =>
    match first s with
    | .ok (value, t) => next value t
    | .error stop => .error stop

def fail (stop : ε) : Act ε σ α := fun _ => .error stop

/-- Stop when `choice` holds, and go on otherwise. -/
def stopIf (choice : Prop) [Decidable choice] (stop : ε) : Act ε σ Unit :=
  if choice then fail stop else pure ()

def reads (field : σ → α) : Act ε σ α := fun s => .ok (field s, s)

def modify (change : σ → σ) : Act ε σ Unit := fun s => .ok ((), change s)

/-- Run an action on one component of a larger state. -/
def zoom (view : σ → τ) (put : τ → σ → σ) (inner : Act ε τ α) : Act ε σ α :=
  fun s =>
    match inner (view s) with
    | .ok (value, t) => .ok (value, put t s)
    | .error stop => .error stop

@[simp] theorem pure_run (value : α) (s : σ) :
    (pure value : Act ε σ α) s = .ok (value, s) := rfl

theorem bind_run (first : Act ε σ α) (next : α → Act ε σ β) (s : σ) :
    (first >>= next) s =
      match first s with
      | .ok (value, t) => next value t
      | .error stop => .error stop := rfl

@[simp] theorem fail_run (stop : ε) (s : σ) :
    (fail stop : Act ε σ α) s = .error stop := rfl

@[simp] theorem reads_run (field : σ → α) (s : σ) :
    (reads field : Act ε σ α) s = .ok (field s, s) := rfl

@[simp] theorem modify_run (change : σ → σ) (s : σ) :
    (modify change : Act ε σ Unit) s = .ok ((), change s) := rfl

@[simp] theorem ite_run (choice : Prop) [Decidable choice] (left right : Act ε σ α)
    (s : σ) :
    (if choice then left else right) s = if choice then left s else right s := by
  split <;> rfl

theorem stopIf_of_not {choice : Prop} [Decidable choice] (stop : ε) (s : σ)
    (passes : ¬choice) : stopIf choice stop s = .ok ((), s) := by
  simp [stopIf, passes]

theorem stopIf_of {choice : Prop} [Decidable choice] (stop : ε) (s : σ)
    (holds : choice) : (stopIf choice stop : Act ε σ Unit) s = .error stop := by
  simp [stopIf, holds]

/-- A step that returns hands its value and state to the rest of the action. -/
theorem bind_of_ok {f : Act ε σ α} {next : α → Act ε σ β} {s t : σ} {a : α}
    (returned : f s = .ok (a, t)) :
    (f >>= next) s = next a t := by
  rw [bind_run, returned]

theorem bind_of_error {first : Act ε σ α} {next : α → Act ε σ β} {s : σ} {stop : ε}
    (stopped : first s = .error stop) :
    (first >>= next) s = .error stop := by
  rw [bind_run, stopped]

theorem pure_bind (value : α) (next : α → Act ε σ β) : pure value >>= next = next value := rfl

theorem bind_pure (first : Act ε σ α) : first >>= pure = first := by
  funext s
  rw [bind_run]
  cases first s with
  | error stop => rfl
  | ok pair => rfl

theorem bind_assoc {γ : Type} (first : Act ε σ α) (next : α → Act ε σ β)
    (last : β → Act ε σ γ) :
    (first >>= next) >>= last = first >>= fun value => next value >>= last := by
  funext s
  rw [bind_run, bind_run, bind_run]
  cases first s with
  | error stop => rfl
  | ok pair => rfl

/-- A sequence returns exactly when both of its halves do. -/
theorem bind_eq_ok {first : Act ε σ α} {next : α → Act ε σ β} {s u : σ} {result : β} :
    (first >>= next) s = .ok (result, u) ↔
      ∃ value t, first s = .ok (value, t) ∧ next value t = .ok (result, u) := by
  rw [bind_run]
  constructor
  · intro returned
    cases outcome : first s with
    | error stop => simp [outcome] at returned
    | ok pair =>
        obtain ⟨value, t⟩ := pair
        rw [outcome] at returned
        exact ⟨value, t, rfl, returned⟩
  · rintro ⟨value, t, head, rest⟩
    rw [head]
    exact rest

theorem zoom_eq_error {view : σ → τ} {put : τ → σ → σ} {inner : Act ε τ α} {s : σ} {stop : ε} :
    zoom view put inner s = .error stop ↔ inner (view s) = .error stop := by
  unfold zoom
  cases outcome : inner (view s) with
  | error stop' => simp
  | ok pair => simp

theorem zoom_of_ok {view : σ → τ} {put : τ → σ → σ} {inner : Act ε τ α} {s : σ} {t : τ}
    {value : α} (returned : inner (view s) = .ok (value, t)) :
    zoom view put inner s = .ok (value, put t s) := by
  simp [zoom, returned]

theorem zoom_eq_ok {view : σ → τ} {put : τ → σ → σ} {inner : Act ε τ α} {s u : σ}
    {value : α} :
    zoom view put inner s = .ok (value, u) ↔
      ∃ t, inner (view s) = .ok (value, t) ∧ u = put t s := by
  unfold zoom
  cases outcome : inner (view s) with
  | error stop => simp
  | ok pair =>
      obtain ⟨result, t⟩ := pair
      constructor
      · intro same
        cases same
        exact ⟨t, rfl, rfl⟩
      · rintro ⟨t', same, rfl⟩
        cases same
        rfl

theorem zoom_map {view : σ → τ} {put : τ → σ → σ} (inner : Act ε τ α) (f : α → β) :
    (zoom view put (inner >>= fun value => pure (f value)) : Act ε σ β) =
      zoom view put inner >>= fun value => pure (f value) := by
  funext s
  cases outcome : inner (view s) with
  | error stop =>
      rw [bind_of_error (zoom_eq_error.mpr outcome)]
      exact zoom_eq_error.mpr (bind_of_error outcome)
  | ok pair =>
      rw [bind_of_ok (zoom_of_ok outcome)]
      exact zoom_of_ok (bind_of_ok outcome)

/-- Whether the run from `s` returns. -/
def returns (action : Act ε σ α) (s : σ) : Bool :=
  match action s with
  | .ok _ => true
  | .error _ => false

/-- The state a returning run from `s` leaves. -/
def after (action : Act ε σ α) (s : σ) : σ :=
  match action s with
  | .ok (_, t) => t
  | .error _ => s

theorem returns_after (action : Act ε σ α) (s : σ) (returned : action.returns s = true) :
    ∃ value, action s = .ok (value, action.after s) := by
  unfold returns at returned
  unfold after
  cases outcome : action s with
  | error stop => simp [outcome] at returned
  | ok pair => exact ⟨pair.1, rfl⟩

/-- Every returning run from `s` meets `post`. -/
def Ensures (action : Act ε σ α) (s : σ) (post : α → σ → Prop) : Prop :=
  ∀ value t, action s = .ok (value, t) → post value t

/-- The run from `s` returns, and it meets `post`. -/
def Yields (action : Act ε σ α) (s : σ) (post : α → σ → Prop) : Prop :=
  ∃ value t, action s = .ok (value, t) ∧ post value t

theorem Yields.ensures {action : Act ε σ α} {s : σ} {post : α → σ → Prop}
    (total : Yields action s post) : Ensures action s post := by
  obtain ⟨value, t, returned, met⟩ := total
  intro value' t' same
  rw [returned] at same
  cases same
  exact met

theorem Ensures.mono {action : Act ε σ α} {s : σ} {post weaker : α → σ → Prop}
    (strong : Ensures action s post)
    (imply : ∀ value t, post value t → weaker value t) :
    Ensures action s weaker :=
  fun value t returned => imply value t (strong value t returned)

theorem Yields.mono {action : Act ε σ α} {s : σ} {post weaker : α → σ → Prop}
    (strong : Yields action s post)
    (imply : ∀ value t, post value t → weaker value t) :
    Yields action s weaker := by
  obtain ⟨value, t, returned, met⟩ := strong
  exact ⟨value, t, returned, imply value t met⟩

theorem Ensures.pure {value : α} {s : σ} {post : α → σ → Prop} (met : post value s) :
    Ensures (Pure.pure value : Act ε σ α) s post := by
  intro value' t same
  cases same
  exact met

theorem Ensures.fail {stop : ε} {s : σ} {post : α → σ → Prop} :
    Ensures (fail stop : Act ε σ α) s post := by
  intro value t same
  cases same

theorem Ensures.reads {field : σ → α} {s : σ} {post : α → σ → Prop}
    (met : post (field s) s) :
    Ensures (Act.reads field : Act ε σ α) s post := by
  intro value t same
  cases same
  exact met

theorem Ensures.modify {change : σ → σ} {s : σ} {post : Unit → σ → Prop}
    (met : post () (change s)) :
    Ensures (Act.modify change : Act ε σ Unit) s post := by
  intro value t same
  cases same
  exact met

/-- Sequencing: what the first half establishes is what the second half may
assume. -/
theorem Ensures.seq {first : Act ε σ α} {next : α → Act ε σ β} {s : σ}
    {m : α → σ → Prop} {post : β → σ → Prop} (head : Ensures first s m)
    (rest : ∀ value t, m value t → Ensures (next value) t post) :
    Ensures (first >>= next) s post := by
  intro result u returned
  obtain ⟨value, t, headRun, restRun⟩ := bind_eq_ok.mp returned
  exact rest value t (head value t headRun) result u restRun

theorem Yields.seq {first : Act ε σ α} {next : α → Act ε σ β} {s : σ}
    {m : α → σ → Prop} {post : β → σ → Prop} (head : Yields first s m)
    (rest : ∀ value t, m value t → Yields (next value) t post) :
    Yields (first >>= next) s post := by
  obtain ⟨value, t, headRun, met⟩ := head
  obtain ⟨result, u, restRun, done⟩ := rest value t met
  exact ⟨result, u, (bind_of_ok headRun).trans restRun, done⟩

/-- Sequencing after a step whose outcome is known. -/
theorem Yields.step {first : Act ε σ α} {next : α → Act ε σ β} {s t : σ} {a : α}
    {post : β → σ → Prop} (returned : first s = .ok (a, t))
    (rest : Yields (next a) t post) : Yields (first >>= next) s post := by
  obtain ⟨result, u, restRun, done⟩ := rest
  exact ⟨result, u, (bind_of_ok returned).trans restRun, done⟩

theorem Ensures.step {first : Act ε σ α} {next : α → Act ε σ β} {s t : σ} {a : α}
    {post : β → σ → Prop} (returned : first s = .ok (a, t))
    (rest : Ensures (next a) t post) : Ensures (first >>= next) s post := by
  intro result u run
  rw [bind_of_ok returned] at run
  exact rest result u run

/-- A result that is not looked at. -/
theorem Ensures.of_map {action : Act ε σ α} {f : α → β} {s : σ} {post : β → σ → Prop}
    (met : Ensures (action >>= fun value => Pure.pure (f value)) s post) :
    Ensures action s fun value t => post (f value) t :=
  fun value t returned => met (f value) t (bind_of_ok returned)

theorem Ensures.stopIf {choice : Prop} [Decidable choice] {stop : ε} {s : σ}
    {post : Unit → σ → Prop} (met : ¬choice → post () s) :
    Ensures (Act.stopIf choice stop : Act ε σ Unit) s post := by
  intro value t returned
  by_cases holds : choice
  · rw [stopIf_of stop s holds] at returned
    cases returned
  · rw [stopIf_of_not stop s holds] at returned
    cases returned
    exact met holds

/-- What follows a guard may assume that it passed. -/
theorem Ensures.guard {choice : Prop} [Decidable choice] {stop : ε} {next : Unit → Act ε σ α}
    {s : σ} {post : α → σ → Prop} (rest : ¬choice → Ensures (next ()) s post) :
    Ensures (Act.stopIf choice stop >>= next) s post := by
  by_cases holds : choice
  · intro value t returned
    rw [bind_of_error (stopIf_of stop s holds)] at returned
    cases returned
  · exact Ensures.step (stopIf_of_not stop s holds) (rest holds)

theorem Ensures.ite {choice : Prop} [Decidable choice] {left right : Act ε σ α} {s : σ}
    {post : α → σ → Prop}
    (onTrue : choice → Ensures left s post)
    (onFalse : ¬choice → Ensures right s post) :
    Ensures (if choice then left else right) s post := by
  split
  · exact onTrue ‹_›
  · exact onFalse ‹_›

theorem Ensures.zoom {view : σ → τ} {put : τ → σ → σ} {inner : Act ε τ α} {s : σ}
    {post : α → σ → Prop}
    (met : Ensures inner (view s) fun value t => post value (put t s)) :
    Ensures (Act.zoom view put inner) s post := by
  intro value u returned
  obtain ⟨t, innerRun, rfl⟩ := zoom_eq_ok.mp returned
  exact met value t innerRun

theorem Yields.congr {action other : Act ε σ α} {s t : σ} {post : α → σ → Prop}
    (same : action s = other t) (met : Yields other t post) : Yields action s post := by
  obtain ⟨value, u, returned, holds⟩ := met
  exact ⟨value, u, same.trans returned, holds⟩

theorem Yields.zoom {view : σ → τ} {put : τ → σ → σ} {inner : Act ε τ α} {s : σ}
    {post : α → σ → Prop}
    (met : Yields inner (view s) fun value t => post value (put t s)) :
    Yields (Act.zoom view put inner) s post := by
  obtain ⟨value, t, innerRun, holds⟩ := met
  exact ⟨value, put t s, zoom_of_ok innerRun, holds⟩

/-- Every returning run keeps an invariant of the state. -/
def Keeps (action : Act ε σ α) (inv : σ → Prop) : Prop :=
  ∀ s, inv s → Ensures action s fun _ t => inv t

section

variable {inv : σ → Prop}

theorem Keeps.seq {first : Act ε σ α} {next : α → Act ε σ β} (head : Keeps first inv)
    (rest : ∀ value, Keeps (next value) inv) : Keeps (first >>= next) inv :=
  fun s holds => Ensures.seq (head s holds) fun value t kept => rest value t kept

theorem Keeps.pure {value : α} : Keeps (Pure.pure value : Act ε σ α) inv :=
  fun _ holds => Ensures.pure holds

theorem Keeps.fail {stop : ε} : Keeps (Act.fail stop : Act ε σ α) inv :=
  fun _ _ => Ensures.fail

theorem Keeps.reads {field : σ → α} : Keeps (Act.reads field : Act ε σ α) inv :=
  fun _ holds => Ensures.reads holds

theorem Keeps.modify {change : σ → σ} (kept : ∀ s, inv s → inv (change s)) :
    Keeps (Act.modify change : Act ε σ Unit) inv :=
  fun s holds => Ensures.modify (kept s holds)

theorem Keeps.stopIf {choice : Prop} [Decidable choice] {stop : ε} :
    Keeps (Act.stopIf choice stop : Act ε σ Unit) inv :=
  fun _ holds => Ensures.stopIf fun _ => holds

theorem Keeps.ite {choice : Prop} [Decidable choice] {left right : Act ε σ α}
    (onTrue : Keeps left inv) (onFalse : Keeps right inv) :
    Keeps (if choice then left else right) inv :=
  fun s holds => Ensures.ite (fun _ => onTrue s holds) fun _ => onFalse s holds

end

/-- A returning run from `s` meets `post`, and one that stops does so with an
error that meets `stops`. -/
def Ends (action : Act ε σ α) (s : σ) (post : α → σ → Prop) (stops : ε → Prop) : Prop :=
  match action s with
  | .ok (value, t) => post value t
  | .error stop => stops stop

section

variable {s : σ} {post : α → σ → Prop} {stops : ε → Prop}

theorem Ends.ensures {action : Act ε σ α} (ends : Ends action s post stops) :
    Ensures action s post := by
  intro value t returned
  unfold Ends at ends
  rw [returned] at ends
  exact ends

theorem Ends.stopped {action : Act ε σ α} (ends : Ends action s post stops) {stop : ε}
    (stopped : action s = .error stop) : stops stop := by
  unfold Ends at ends
  rw [stopped] at ends
  exact ends

theorem Ends.mono {action : Act ε σ α} {weaker : α → σ → Prop} (ends : Ends action s post stops)
    (imply : ∀ value t, post value t → weaker value t) : Ends action s weaker stops := by
  unfold Ends at ends ⊢
  split
  · next value t returned =>
      rw [returned] at ends
      exact imply value t ends
  · next stop stopped =>
      rw [stopped] at ends
      exact ends

theorem Ends.weaken {action : Act ε σ α} {wider : ε → Prop} (ends : Ends action s post stops)
    (imply : ∀ stop, stops stop → wider stop) : Ends action s post wider := by
  unfold Ends at ends ⊢
  split
  · next value t returned =>
      rw [returned] at ends
      exact ends
  · next stop stopped =>
      rw [stopped] at ends
      exact imply stop ends

/-- Two runs that come out the same. -/
theorem Ends.congr {action other : Act ε σ α} {u : σ} (same : action s = other u)
    (ends : Ends other u post stops) : Ends action s post stops := by
  unfold Ends at ends ⊢
  rw [same]
  exact ends

theorem Yields.ends {action : Act ε σ α} (yields : Yields action s post) :
    Ends action s post stops := by
  obtain ⟨value, t, returned, met⟩ := yields
  unfold Ends
  rw [returned]
  exact met

/-- An action that has no way to stop returns. -/
theorem Ends.yields {action : Act ε σ α} (ends : Ends action s post stops)
    (never : ∀ stop, ¬stops stop) : Yields action s post := by
  cases outcome : action s with
  | error stop => exact absurd (ends.stopped outcome) (never stop)
  | ok pair => exact ⟨pair.1, pair.2, outcome, ends.ensures _ _ outcome⟩

theorem Ends.pure {value : α} (met : post value s) :
    Ends (Pure.pure value : Act ε σ α) s post stops := met

theorem Ends.fail {stop : ε} (met : stops stop) :
    Ends (Act.fail stop : Act ε σ α) s post stops := met

theorem Ends.of_returned {action : Act ε σ α} {value : α} {t : σ}
    (returned : action s = .ok (value, t)) (met : post value t) : Ends action s post stops := by
  unfold Ends
  rw [returned]
  exact met

theorem Ends.seq {first : Act ε σ α} {next : α → Act ε σ β} {m : α → σ → Prop}
    {last : β → σ → Prop} (head : Ends first s m stops)
    (rest : ∀ value t, m value t → Ends (next value) t last stops) :
    Ends (first >>= next) s last stops := by
  unfold Ends at head ⊢
  rw [bind_run]
  cases outcome : first s with
  | error stop =>
      rw [outcome] at head
      exact head
  | ok pair =>
      obtain ⟨value, t⟩ := pair
      rw [outcome] at head
      exact rest value t head

theorem Ends.step {first : Act ε σ α} {next : α → Act ε σ β} {value : α} {t : σ}
    {last : β → σ → Prop} (returned : first s = .ok (value, t))
    (rest : Ends (next value) t last stops) : Ends (first >>= next) s last stops :=
  Ends.congr (bind_of_ok returned) rest

/-- Reading the state changes nothing. -/
theorem Ends.look {field : σ → β} {next : β → Act ε σ α}
    (rest : Ends (next (field s)) s post stops) : Ends (Act.reads field >>= next) s post stops := rest

theorem Ends.change {change : σ → σ} {next : Unit → Act ε σ α}
    (rest : Ends (next ()) (change s) post stops) :
    Ends (Act.modify change >>= next) s post stops := rest

theorem Ends.guard {choice : Prop} [Decidable choice] {stop : ε} {next : Unit → Act ε σ α}
    (met : choice → stops stop) (rest : ¬choice → Ends (next ()) s post stops) :
    Ends (Act.stopIf choice stop >>= next) s post stops := by
  by_cases holds : choice
  · unfold Ends
    rw [bind_of_error (stopIf_of stop s holds)]
    exact met holds
  · unfold Ends
    rw [bind_of_ok (stopIf_of_not stop s holds)]
    exact rest holds

theorem Ends.ite {choice : Prop} [Decidable choice] {left right : Act ε σ α}
    (onTrue : choice → Ends left s post stops) (onFalse : ¬choice → Ends right s post stops) :
    Ends (if choice then left else right) s post stops := by
  split
  · exact onTrue ‹_›
  · exact onFalse ‹_›

theorem Ends.zoom {view : σ → τ} {put : τ → σ → σ} {inner : Act ε τ α}
    (met : Ends inner (view s) (fun value t => post value (put t s)) stops) :
    Ends (Act.zoom view put inner) s post stops := by
  unfold Ends at met ⊢
  unfold Act.zoom
  cases outcome : inner (view s) with
  | error stop =>
      rw [outcome] at met
      exact met
  | ok pair =>
      obtain ⟨value, t⟩ := pair
      rw [outcome] at met
      exact met

/-- A run whose outcome is known beforehand: a value, or the one error. -/
theorem Ends.outcome {action : Act ε σ α} {answer : Option α} {inv : σ → Prop} {error : ε}
    (ends : Ends action s (fun value t => answer = some value ∧ inv t)
      fun stop => stop = error ∧ answer = none) :
    (∀ value, answer = some value → Yields action s fun result t => result = value ∧ inv t) ∧
      (answer = none → action s = .error error) := by
  constructor
  · rintro value rfl
    refine (ends.yields ?_).mono ?_
    · rintro stop ⟨-, impossible⟩
      cases impossible
    · rintro result t ⟨same, kept⟩
      exact ⟨(Option.some_inj.mp same).symm, kept⟩
  · rintro rfl
    cases outcome : action s with
    | error stop => rw [(ends.stopped outcome).1]
    | ok pair => exact absurd (ends.ensures _ _ outcome).1 (by simp)

end

/-- A run that was computed. -/
theorem ok_of_toOption {action : Act ε σ α} {s t : σ} {value : α}
    (computed : (action s).toOption = some (value, t)) : action s = .ok (value, t) := by
  cases outcome : action s with
  | error stop => simp [outcome, Except.toOption] at computed
  | ok pair => simpa [outcome, Except.toOption] using computed

/-- A run with a value that was computed. -/
theorem ok_after {action : Act ε σ α} {s : σ} {value : α}
    (computed : (action s).toOption.map Prod.fst = some value) :
    action s = .ok (value, action.after s) := by
  unfold after
  cases outcome : action s with
  | error stop => simp [outcome, Except.toOption] at computed
  | ok pair =>
      rw [outcome] at computed
      cases computed
      rfl

/-- A run that leaves the state, with a value that was computed. -/
theorem ok_of_value {action : Act ε σ α} {s : σ} {value : α}
    (look : Ensures action s fun _ t => t = s)
    (computed : (action s).toOption.map Prod.fst = some value) : action s = .ok (value, s) := by
  cases outcome : action s with
  | error stop => simp [outcome, Except.toOption] at computed
  | ok pair =>
      obtain ⟨value', t⟩ := pair
      obtain rfl : t = s := look value' t outcome
      simpa [outcome, Except.toOption] using computed

/-- What a run stops with. -/
def stopOf (action : Act ε σ α) (s : σ) : Option ε :=
  match action s with
  | .ok _ => none
  | .error stop => some stop

theorem error_of_stopOf {action : Act ε σ α} {s : σ} {stop : ε}
    (computed : action.stopOf s = some stop) : action s = .error stop := by
  unfold stopOf at computed
  split at computed
  · cases computed
  · next outcome =>
      cases computed
      exact outcome

end Act
