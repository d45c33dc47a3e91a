import Gcgos.Lib.Ledger
import Gcgos.Smp.Machine

/-!
# Reaping a slot while its process still runs

`proc_exit` writes ZOMBIE while the process is still on its CPU, and `proc_wait`
looks at the state without taking the lock. When the parent's test finds a zombie
only after the child has left its CPU, no slot is given up or allocated again,
and neither of its two pages is freed, under a CPU that has entered it. The
parties are a parent `w` that waits, a third process `f` that forks, and any
number of others that exit.
-/

set_option autoImplicit false

namespace Gcgos.Smp

open Kernel (ProcState)

/-- What a process may be doing: only `w` waits, only `f` forks, only the others
exit. Wakeups reach `w` alone. -/
def Task.Fits (w f p : Fin NPROC) : Task → Prop
  | .user | .yieldState | .execState => True
  | .sched next => next.Fits w f p
  | .sleepChan _ next | .sleepState next | .sleepDone next => p = w ∧ next.Fits w f p
  | .wake _ _ next => next.Fits w f p
  | .wakeWrite _ q _ next => q = w ∧ next.Fits w f p
  | .kill _ _ | .killSleeping _ | .killWrite _ => False
  | .exitZombie | .exitClose | .exitWake _ | .exitAbandon _ => p ≠ w ∧ p ≠ f
  | .waitScan _ | .waitFreeTf _ | .waitFreeTable _ | .waitUnused _ => p = w
  | .forkScan _ | .forkPid _ | .forkTable _ | .forkTf _ _ | .forkInstall _ _ | .forkParent _
  | .forkCopy _ | .forkRunnable _ => p = f

/-- What a place in the code says about slots and pages: the slot that is being
reaped and which of its pages have been freed, and the slot that is being
allocated and which pages have been taken for it. -/
structure Footprint where
  reaps : Option (Fin NPROC) := none
  tfFreed : Bool := false
  tableFreed : Bool := false
  allocs : Option (Fin NPROC) := none
  fresh : Option Nat := none
  tfTaken : Bool := false
  tableTaken : Bool := false
deriving DecidableEq

def Task.footprint : Task → Footprint
  | .sched next | .sleepChan _ next | .sleepState next | .sleepDone next | .wake _ _ next
  | .wakeWrite _ _ _ next => next.footprint
  | .waitFreeTf q => { reaps := some q }
  | .waitFreeTable q => { reaps := some q, tfFreed := true }
  | .waitUnused q => { reaps := some q, tfFreed := true, tableFreed := true }
  | .forkPid q | .forkTable q => { allocs := some q }
  | .forkTf q table => { allocs := some q, fresh := some table }
  | .forkInstall q table => { allocs := some q, fresh := some table, tfTaken := true }
  | .forkParent q | .forkCopy q | .forkRunnable q =>
      { allocs := some q, tfTaken := true, tableTaken := true }
  | _ => {}

section

-- The equations are made here, once for all the lemmas below.
attribute [local simp] Task.footprint

end

/-- The calls the parties make. -/
def Choice.Fits (w f p : Fin NPROC) : Choice → Prop
  | .go | .yield | .exec | .page _ => True
  | .exit => p ≠ w ∧ p ≠ f
  | .wait => p = w
  | .fork => p = f
  | .sleep _ | .wakeup _ | .kill _ => False

instance (w f p : Fin NPROC) (choice : Choice) : Decidable (choice.Fits w f p) :=
  match choice with
  | .go | .yield | .exec | .page _ => isTrue trivial
  | .exit => inferInstanceAs (Decidable (p ≠ w ∧ p ≠ f))
  | .wait => inferInstanceAs (Decidable (p = w))
  | .fork => inferInstanceAs (Decidable (p = f))
  | .sleep _ | .wakeup _ | .kill _ => isFalse id

/-- All that a step of a process can do to states, pages and footprints. -/
inductive Effect (w f p : Fin NPROC) (k t : Shared) : Prop where
  /-- Only the place in the code, pids and channels change. -/
  | plain (state : ∀ q, (t.slot q).state = (k.slot q).state)
      (tf : ∀ q, (t.slot q).tf = (k.slot q).tf)
      (table : ∀ q, (t.slot q).pagetable = (k.slot q).pagetable)
      (free : t.free = k.free) (pipes : t.pipes = k.pipes)
      (task : ∃ now, t.task = Function.update k.task p now ∧ now.Fits w f p ∧
        now.footprint = (k.task p).footprint)
  /-- A state is written: its own, or that of the sleeping parent. -/
  | state (q : Fin NPROC) (st : ProcState) (slot : t.slot = (k.setState q st).slot)
      (whose : (q = p ∧ (st = .RUNNABLE ∨ st = .SLEEPING ∧ p = w ∨
          st = .ZOMBIE ∧ p ≠ w ∧ p ≠ f)) ∨ q = w ∧ st = .RUNNABLE)
      (free : t.free = k.free) (pipes : t.pipes = k.pipes)
      (task : ∃ now, t.task = Function.update k.task p now ∧ now.Fits w f p ∧
        now.footprint = (k.task p).footprint)
  | close (pg : Nat) (open' : k.pipes pg = true)
      (now : t = { k.kfree pg with pipes := Function.update k.pipes pg false })
  | reap (q : Fin NPROC) (rest : List (Fin NPROC)) (at' : k.task p = .waitScan (q :: rest))
      (dead : (k.slot q).state = .ZOMBIE) (child : (k.slot q).ppid = (k.slot p).pid)
      (now : t = k.setTask p (.waitFreeTf q))
  | freeTf (q : Fin NPROC) (at' : k.task p = .waitFreeTf q)
      (now : t = (k.kfree (k.slot q).tf).setTask p (.waitFreeTable q))
  | freeTable (q : Fin NPROC) (at' : k.task p = .waitFreeTable q)
      (now : t = (k.kfree (k.slot q).pagetable).setTask p (.waitUnused q))
  | unused (q : Fin NPROC) (at' : k.task p = .waitUnused q)
      (now : t = (k.setState q .UNUSED).setTask p .user)
  | claim (q : Fin NPROC) (rest : List (Fin NPROC)) (at' : k.task p = .forkScan (q :: rest))
      (unused : (k.slot q).state = .UNUSED) (now : t = k.setTask p (.forkPid q))
  | takeTable (q : Fin NPROC) (pg : Nat) (at' : k.task p = .forkTable q)
      (free : k.free pg = true) (now : t = (k.kalloc pg).setTask p (.forkTf q pg))
  | takeTf (q : Fin NPROC) (table pg : Nat) (at' : k.task p = .forkTf q table)
      (free : k.free pg = true)
      (now : t = ((k.kalloc pg).setSlot q fun slot => { slot with tf := pg }).setTask p
        (.forkInstall q table))
  | install (q : Fin NPROC) (table : Nat) (at' : k.task p = .forkInstall q table)
      (now : t = (k.setSlot q fun slot => { slot with pagetable := table }).setTask p
        (.forkParent q))
  | takeMore (q : Fin NPROC) (pg : Nat) (at' : k.task p = .forkCopy q) (free : k.free pg = true)
      (now : t = k.kalloc pg)
  | ready (q : Fin NPROC) (at' : k.task p = .forkCopy q)
      (now : t = (k.setTask q .user).setTask p (.forkRunnable q))
  | run (q : Fin NPROC) (at' : k.task p = .forkRunnable q)
      (now : t = (k.setState q .RUNNABLE).setTask p .user)

theorem Effect.moved {w f p : Fin NPROC} {k : Shared} (now : Task) (fits : now.Fits w f p)
    (same : now.footprint = (k.task p).footprint) : Effect w f p k (k.setTask p now) :=
  .plain (fun _ => rfl) (fun _ => rfl) (fun _ => rfl) rfl rfl ⟨now, rfl, fits, same⟩

/-- A change of a slot that leaves its state and its pages. -/
theorem Effect.edited {w f p q : Fin NPROC} {k : Shared} (now : Task) (fits : now.Fits w f p)
    (same : now.footprint = (k.task p).footprint) {change : Slot → Slot}
    (state : (change (k.slot q)).state = (k.slot q).state)
    (tf : (change (k.slot q)).tf = (k.slot q).tf)
    (table : (change (k.slot q)).pagetable = (k.slot q).pagetable) :
    Effect w f p k ((k.setSlot q change).setTask p now) := by
  refine .plain ?_ ?_ ?_ rfl rfl ⟨now, rfl, fits, same⟩
  all_goals
    intro x
    by_cases here : x = q
    · subst here
      simpa [Shared.setTask, Shared.setSlot]
    · simp [Shared.setTask, Shared.setSlot, here]

theorem Effect.stated {w f p q : Fin NPROC} {k : Shared} {st : ProcState} (now : Task)
    (fits : now.Fits w f p) (same : now.footprint = (k.task p).footprint)
    (whose : (q = p ∧ (st = .RUNNABLE ∨ st = .SLEEPING ∧ p = w ∨
      st = .ZOMBIE ∧ p ≠ w ∧ p ≠ f)) ∨ q = w ∧ st = .RUNNABLE) :
    Effect w f p k ((k.setState q st).setTask p now) :=
  .state q st rfl whose rfl rfl ⟨now, rfl, fits, same⟩

theorem taskStep_effect {w f p : Fin NPROC} {k t : Shared} {choice : Choice}
    (fits : (k.task p).Fits w f p) (chosen : choice.Fits w f p)
    (asleep : ∀ q, (k.slot q).state = .SLEEPING → q = w)
    (step : taskStep k p choice = some t) : Effect w f p k t := by
  unfold taskStep at step
  cases task : k.task p with
  | user =>
      rw [task] at step
      cases choice <;> simp only [Choice.begin, Option.map_some, Option.map_none,
        Option.some.injEq, reduceCtorEq] at step <;> subst step
      case yield => exact .moved _ trivial (by rw [task]; rfl)
      case exec => exact .moved _ trivial (by rw [task]; rfl)
      case exit => exact .moved _ chosen (by rw [task]; rfl)
      case wait => exact .moved _ chosen (by rw [task]; rfl)
      case fork => exact .moved _ chosen (by rw [task]; rfl)
      all_goals exact absurd chosen (by simp [Choice.Fits])
  | sleepChan chan next =>
      rw [task] at step fits
      cases step
      exact .edited (.sleepState next) fits (by rw [task]; rfl) rfl rfl rfl
  | sleepState next =>
      rw [task] at step fits
      cases step
      exact .stated _ fits (by rw [task]; rfl) (Or.inl ⟨rfl, Or.inr (Or.inl ⟨rfl, fits.1⟩)⟩)
  | sleepDone next =>
      rw [task] at step fits
      cases step
      exact .edited _ fits.2 (by rw [task]; rfl) rfl rfl rfl
  | sched next =>
      rw [task] at step
      cases step
  | yieldState =>
      rw [task] at step
      cases step
      exact .stated _ trivial (by rw [task]; rfl) (Or.inl ⟨rfl, Or.inl rfl⟩)
  | execState =>
      rw [task] at step
      cases step
      exact .stated _ trivial (by rw [task]; rfl) (Or.inl ⟨rfl, Or.inl rfl⟩)
  | wake chan rest next =>
      rw [task] at step fits
      cases rest with
      | nil =>
          cases step
          exact .moved _ fits (by rw [task]; rfl)
      | cons q rest =>
          simp only at step
          split at step
          · rename_i hit
            cases step
            exact .moved _ ⟨asleep q hit.1, fits⟩ (by rw [task]; rfl)
          · cases step
            exact .moved _ fits (by rw [task]; rfl)
  | wakeWrite chan q rest next =>
      rw [task] at step fits
      cases step
      exact .stated _ fits.2 (by rw [task]; rfl) (Or.inr ⟨fits.1, rfl⟩)
  | kill pid rest =>
      rw [task] at fits
      exact fits.elim
  | killSleeping q =>
      rw [task] at fits
      exact fits.elim
  | killWrite q =>
      rw [task] at fits
      exact fits.elim
  | exitZombie =>
      rw [task] at step fits
      cases step
      exact .stated _ fits (by rw [task]; rfl) (Or.inl ⟨rfl, Or.inr (Or.inr ⟨rfl, fits⟩)⟩)
  | exitClose =>
      rw [task] at step fits
      cases choice
      case page pg =>
        simp only at step
        split at step
        · rename_i isOpen
          cases step
          exact .close pg isOpen rfl
        · cases step
      all_goals
        cases step
        exact .moved _ fits (by rw [task]; rfl)
  | exitWake rest =>
      rw [task] at step fits
      cases rest with
      | nil =>
          cases step
          exact .moved _ fits (by rw [task]; rfl)
      | cons q rest =>
          simp only at step
          split at step
          · cases step
            exact .moved _ fits (by rw [task]; rfl)
          · cases step
            exact .moved _ fits (by rw [task]; rfl)
  | exitAbandon rest =>
      rw [task] at step fits
      cases rest with
      | nil =>
          cases step
          exact .moved _ trivial (by rw [task]; rfl)
      | cons q rest =>
          simp only at step
          split at step
          · cases step
            exact .edited (.exitAbandon rest) fits (by rw [task]; rfl) rfl rfl rfl
          · cases step
            exact .moved _ fits (by rw [task]; rfl)
  | waitScan rest =>
      rw [task] at step fits
      cases rest with
      | nil =>
          cases step
          exact .moved _ ⟨fits, fits⟩ (by rw [task]; rfl)
      | cons q rest =>
          simp only at step
          split at step
          · rename_i hit
            cases step
            exact .reap q rest task hit.1 hit.2 rfl
          · cases step
            exact .moved _ fits (by rw [task]; rfl)
  | waitFreeTf q =>
      rw [task] at step
      cases step
      exact .freeTf q task rfl
  | waitFreeTable q =>
      rw [task] at step
      cases step
      exact .freeTable q task rfl
  | waitUnused q =>
      rw [task] at step
      cases step
      exact .unused q task rfl
  | forkScan rest =>
      rw [task] at step fits
      cases rest with
      | nil => cases step
      | cons q rest =>
          simp only at step
          split at step
          · rename_i hit
            cases step
            exact .claim q rest task hit rfl
          · cases step
            exact .moved _ fits (by rw [task]; rfl)
  | forkPid q =>
      rw [task] at step fits
      cases step
      refine .plain ?_ ?_ ?_ rfl rfl ⟨_, rfl, fits, by rw [task]; rfl⟩
      all_goals
        intro x
        by_cases here : x = q
        · subst here
          simp [Shared.setTask, Shared.setSlot]
        · simp [Shared.setTask, Shared.setSlot, here]
  | forkTable q =>
      rw [task] at step
      cases choice
      case page pg =>
        simp only at step
        split at step
        · rename_i isFree
          cases step
          exact .takeTable q pg task isFree rfl
        · cases step
      all_goals cases step
  | forkTf q table =>
      rw [task] at step
      cases choice
      case page pg =>
        simp only at step
        split at step
        · rename_i isFree
          cases step
          exact .takeTf q table pg task isFree rfl
        · cases step
      all_goals cases step
  | forkInstall q table =>
      rw [task] at step
      cases step
      exact .install q table task rfl
  | forkParent q =>
      rw [task] at step fits
      cases step
      exact .edited (.forkCopy q) fits (by rw [task]; rfl) rfl rfl rfl
  | forkCopy q =>
      rw [task] at step
      cases choice
      case page pg =>
        simp only at step
        split at step
        · rename_i isFree
          cases step
          exact .takeMore q pg task isFree rfl
        · cases step
      all_goals
        cases step
        exact .ready q task rfl
  | forkRunnable q =>
      rw [task] at step
      cases step
      exact .run q task rfl

theorem Task.Fits.reaps {w f p q : Fin NPROC} {task : Task} (fits : task.Fits w f p)
    (reaps : task.footprint.reaps = some q) : p = w := by
  induction task with
  | sched next ih => exact ih fits reaps
  | sleepChan chan next ih => exact fits.1
  | sleepState next ih => exact fits.1
  | sleepDone next ih => exact fits.1
  | wake chan rest next ih => exact ih fits reaps
  | wakeWrite chan x rest next ih => exact ih fits.2 reaps
  | waitFreeTf x => exact fits
  | waitFreeTable x => exact fits
  | waitUnused x => exact fits
  | _ => cases reaps

theorem Task.Fits.allocs {w f p q : Fin NPROC} {task : Task} (fits : task.Fits w f p)
    (allocs : task.footprint.allocs = some q) : p = f := by
  induction task with
  | sched next ih => exact ih fits allocs
  | sleepChan chan next ih => exact ih fits.2 allocs
  | sleepState next ih => exact ih fits.2 allocs
  | sleepDone next ih => exact ih fits.2 allocs
  | wake chan rest next ih => exact ih fits allocs
  | wakeWrite chan x rest next ih => exact ih fits.2 allocs
  | forkPid x => exact fits
  | forkTable x => exact fits
  | forkTf x table => exact fits
  | forkInstall x table => exact fits
  | forkParent x => exact fits
  | forkCopy x => exact fits
  | forkRunnable x => exact fits
  | _ => cases allocs

/-- The slot a CPU is committed to: found runnable, or entered. -/
def Phase.engaged : Phase → Option (Fin NPROC)
  | .mark p _ | .assign p _ | .enter p _ | .run p _ | .back p _ => some p
  | .scan _ | .acquired _ _ | .test _ _ | .disown _ _ | .unlock _ _ => none

/-- The slot a CPU has found runnable and not yet entered. -/
def Phase.entering : Phase → Option (Fin NPROC)
  | .mark p _ | .assign p _ => some p
  | .enter _ _ | .run _ _ | .back _ _ | .scan _ | .acquired _ _ | .test _ _ | .disown _ _
  | .unlock _ _ => none

theorem Phase.held_of_engaged {phase : Phase} {p : Fin NPROC} (engaged : phase.engaged = some p) :
    phase.held = some p := by
  cases phase <;> simp_all [Phase.engaged, Phase.held]

theorem Phase.engaged_of_current {phase : Phase} {p : Fin NPROC}
    (current : phase.current = some p) : phase.engaged = some p := by
  cases phase <;> simp_all [Phase.engaged, Phase.current]

theorem Phase.entering_or_current {phase : Phase} {p : Fin NPROC}
    (engaged : phase.engaged = some p) : phase.entering = some p ∨ phase.current = some p := by
  cases phase <;> simp_all [Phase.engaged, Phase.entering, Phase.current]

/-- Who owns a page: a slot its trapframe and its root table, and the fork under
way the table it has not stored yet. -/
inductive Owner where
  | tf (q : Fin NPROC)
  | table (q : Fin NPROC)
  | fresh
deriving DecidableEq

/-- A slot owns its pages from the time `fork` has stored them until `proc_wait`
has freed them. -/
def Owns (w f : Fin NPROC) (k : Shared) : Owner → Nat → Prop
  | .tf q, pg => (k.slot q).tf = pg ∧
      ((k.slot q).state ≠ .UNUSED ∧
          ¬((k.task w).footprint.reaps = some q ∧ (k.task w).footprint.tfFreed = true) ∨
        (k.task f).footprint.allocs = some q ∧ (k.task f).footprint.tfTaken = true)
  | .table q, pg => (k.slot q).pagetable = pg ∧
      ((k.slot q).state ≠ .UNUSED ∧
          ¬((k.task w).footprint.reaps = some q ∧ (k.task w).footprint.tableFreed = true) ∨
        (k.task f).footprint.allocs = some q ∧ (k.task f).footprint.tableTaken = true)
  | .fresh, pg => (k.task f).footprint.fresh = some pg

theorem Owns.congr {w f : Fin NPROC} {k t : Shared}
    (state : ∀ q, (t.slot q).state = .UNUSED ↔ (k.slot q).state = .UNUSED)
    (tf : ∀ q, (t.slot q).tf = (k.slot q).tf)
    (table : ∀ q, (t.slot q).pagetable = (k.slot q).pagetable)
    (reaper : (t.task w).footprint = (k.task w).footprint)
    (forker : (t.task f).footprint = (k.task f).footprint) (o : Owner) (pg : Nat)
    (owns : Owns w f t o pg) : Owns w f k o pg := by
  cases o with
  | tf q =>
      simp only [Owns, ne_eq, state, tf, reaper, forker] at owns ⊢
      exact owns
  | table q =>
      simp only [Owns, ne_eq, state, table, reaper, forker] at owns ⊢
      exact owns
  | fresh =>
      simp only [Owns, forker] at owns ⊢
      exact owns

section

variable {κ : Type} {w f : Fin NPROC}

structure Sound (w f : Fin NPROC) (m : Machine κ) : Prop where
  carried : Carried m
  fits : ∀ p, (m.shared.task p).Fits w f p
  reap : ∀ q, (m.shared.task w).footprint.reaps = some q →
    (m.shared.slot q).state = .ZOMBIE ∧ ∀ c, (m.phase c).engaged ≠ some q
  alloc : ∀ q, (m.shared.task f).footprint.allocs = some q → (m.shared.slot q).state = .UNUSED
  engaged : ∀ c p, (m.phase c).engaged = some p → (m.shared.slot p).state ≠ .UNUSED
  entering : ∀ c p, (m.phase c).entering = some p → (m.shared.slot p).state ≠ .ZOMBIE
  parent : (m.shared.slot w).state ≠ .ZOMBIE ∧ (m.shared.slot w).state ≠ .UNUSED
  asleep : ∀ q, (m.shared.slot q).state = .SLEEPING → q = w
  ledger : Ledger (Owns w f m.shared) m.shared.free m.shared.pipes

/-- A CPU moves on in its loop: it may commit itself to a slot that is runnable. -/
theorem Sound.phase {m t : Machine κ} (sound : Sound w f m) (carried : Carried t)
    (shared : t.shared = m.shared)
    (engaged : ∀ c p, (t.phase c).engaged = some p →
      (m.phase c).engaged = some p ∨ (m.shared.slot p).state = .RUNNABLE)
    (entering : ∀ c p, (t.phase c).entering = some p →
      (m.phase c).entering = some p ∨ (m.shared.slot p).state = .RUNNABLE) : Sound w f t := by
  refine ⟨carried, ?_, ?_, ?_, ?_, ?_, ?_, ?_, ?_⟩ <;> rw [shared]
  · exact sound.fits
  · intro q reaps
    obtain ⟨dead, gone⟩ := sound.reap q reaps
    refine ⟨dead, ?_⟩
    intro c now
    rcases engaged c q now with before | runnable
    · exact gone c before
    · rw [dead] at runnable
      cases runnable
  · exact sound.alloc
  · intro c p now
    rcases engaged c p now with before | runnable
    · exact sound.engaged c p before
    · rw [runnable]
      decide
  · intro c p now
    rcases entering c p now with before | runnable
    · exact sound.entering c p before
    · rw [runnable]
      decide
  · exact sound.parent
  · exact sound.asleep
  · exact sound.ledger

/-- A process moves on in its code and pages, states and footprints stay. -/
theorem Sound.plain {m : Machine κ} {k : Shared} (sound : Sound w f m)
    (state : ∀ q, (k.slot q).state = (m.shared.slot q).state)
    (tf : ∀ q, (k.slot q).tf = (m.shared.slot q).tf)
    (table : ∀ q, (k.slot q).pagetable = (m.shared.slot q).pagetable)
    (free : k.free = m.shared.free) (pipes : k.pipes = m.shared.pipes)
    (fits : ∀ p, (k.task p).Fits w f p)
    (footprint : ∀ p, p = w ∨ p = f → (k.task p).footprint = (m.shared.task p).footprint) :
    Sound w f { m with shared := k } := by
  have reaper := footprint w (Or.inl rfl)
  have forker := footprint f (Or.inr rfl)
  refine ⟨sound.carried.shared k, fits, ?_, ?_, ?_, ?_, ?_, ?_, ?_⟩
  · intro q reaps
    simp only [reaper, state] at reaps ⊢
    exact sound.reap q reaps
  · intro q allocs
    simp only [forker, state] at allocs ⊢
    exact sound.alloc q allocs
  · intro c p now
    simp only [state]
    exact sound.engaged c p now
  · intro c p now
    simp only [state]
    exact sound.entering c p now
  · simp only [state]
    exact sound.parent
  · intro q now
    simp only [state] at now
    exact sound.asleep q now
  · simp only [free, pipes]
    apply sound.ledger.shrink
    exact Owns.congr (fun q => by rw [state]) tf table reaper forker

/-- A state is written to a slot that is in use and not being reaped. -/
theorem Sound.state {m : Machine κ} {k : Shared} {q : Fin NPROC} {st : ProcState}
    (sound : Sound w f m) (slot : k.slot = (m.shared.setState q st).slot)
    (free : k.free = m.shared.free) (pipes : k.pipes = m.shared.pipes)
    (fits : ∀ p, (k.task p).Fits w f p)
    (footprint : ∀ p, p = w ∨ p = f → (k.task p).footprint = (m.shared.task p).footprint)
    (used : (m.shared.slot q).state ≠ .UNUSED) (stays : st ≠ .UNUSED)
    (kept : (m.shared.task w).footprint.reaps ≠ some q)
    (dies : st = .ZOMBIE → q ≠ w ∧ ∀ c, (m.phase c).entering ≠ some q)
    (sleeps : st = .SLEEPING → q = w) : Sound w f { m with shared := k } := by
  have reaper := footprint w (Or.inl rfl)
  have forker := footprint f (Or.inr rfl)
  have here : (k.slot q).state = st := by simp [slot, Shared.setState, Shared.setSlot]
  have there : ∀ x, x ≠ q → k.slot x = m.shared.slot x := by
    intro x other
    simp [slot, Shared.setState, Shared.setSlot, other]
  refine ⟨sound.carried.shared k, fits, ?_, ?_, ?_, ?_, ?_, ?_, ?_⟩
  · intro x reaps
    simp only [reaper] at reaps ⊢
    have other : x ≠ q := by
      rintro rfl
      exact kept reaps
    rw [there x other]
    exact sound.reap x reaps
  · intro x allocs
    simp only [forker] at allocs ⊢
    have unused := sound.alloc x allocs
    have other : x ≠ q := by
      rintro rfl
      exact used unused
    rw [there x other]
    exact unused
  · intro c x now
    by_cases other : x = q
    · rw [other, here]
      exact stays
    · simp only [there x other]
      exact sound.engaged c x now
  · intro c x now
    by_cases other : x = q
    · subst other
      rw [here]
      exact fun dead => (dies dead).2 c now
    · simp only [there x other]
      exact sound.entering c x now
  · by_cases other : w = q
    · subst other
      rw [here]
      exact ⟨fun dead => (dies dead).1 rfl, stays⟩
    · simp only [there w other]
      exact sound.parent
  · intro x now
    by_cases other : x = q
    · rw [other, here] at now
      rw [other]
      exact sleeps now
    · simp only [there x other] at now
      exact sound.asleep x now
  · simp only [free, pipes]
    apply sound.ledger.shrink
    refine Owns.congr ?_ ?_ ?_ reaper forker
    · intro x
      by_cases other : x = q
      · rw [other, here]
        exact iff_of_false stays used
      · rw [there x other]
    · intro x
      by_cases other : x = q
      · simp [other, slot, Shared.setState, Shared.setSlot]
      · rw [there x other]
    · intro x
      by_cases other : x = q
      · simp [other, slot, Shared.setState, Shared.setSlot]
      · rw [there x other]

/-- Only the ledger changes: pages and the footprints of `w` and `f`. What is
reaped is a zombie off the CPUs, what is allocated is unused. -/
theorem Sound.pages {m : Machine κ} {k : Shared} (sound : Sound w f m)
    (state : ∀ q, (k.slot q).state = (m.shared.slot q).state)
    (fits : ∀ p, (k.task p).Fits w f p)
    (reap : ∀ q, (k.task w).footprint.reaps = some q →
      (m.shared.task w).footprint.reaps = some q ∨
        (m.shared.slot q).state = .ZOMBIE ∧ ∀ c, (m.phase c).engaged ≠ some q)
    (alloc : ∀ q, (k.task f).footprint.allocs = some q →
      (m.shared.task f).footprint.allocs = some q ∨ (m.shared.slot q).state = .UNUSED)
    (ledger : Ledger (Owns w f k) k.free k.pipes) : Sound w f { m with shared := k } := by
  refine ⟨sound.carried.shared k, fits, ?_, ?_, ?_, ?_, ?_, ?_, ledger⟩
  · intro q reaps
    simp only [state]
    rcases reap q reaps with before | now
    · exact sound.reap q before
    · exact now
  · intro q allocs
    simp only [state]
    rcases alloc q allocs with before | now
    · exact sound.alloc q before
    · exact now
  · intro c p now
    simp only [state]
    exact sound.engaged c p now
  · intro c p now
    simp only [state]
    exact sound.entering c p now
  · simp only [state]
    exact sound.parent
  · intro q now
    simp only [state] at now
    exact sound.asleep q now

theorem fits_update {k : Shared} (fits : ∀ p, (k.task p).Fits w f p) {p : Fin NPROC} {now : Task}
    (fit : now.Fits w f p) (q : Fin NPROC) : (Function.update k.task p now q).Fits w f q := by
  by_cases here : q = p
  · subst here
    rw [Function.update_self]
    exact fit
  · rw [Function.update_of_ne here]
    exact fits q

theorem footprint_update {k : Shared} {p : Fin NPROC} {now : Task}
    (same : now.footprint = (k.task p).footprint) (q : Fin NPROC) :
    (Function.update k.task p now q).footprint = (k.task q).footprint := by
  by_cases here : q = p
  · subst here
    rw [Function.update_self, same]
  · rw [Function.update_of_ne here]

/-- The parent has found a zombie that no CPU has entered. -/
theorem Sound.startReap {m : Machine κ} {q : Fin NPROC} {rest : List (Fin NPROC)}
    (sound : Sound w f m) (different : w ≠ f) (place : m.shared.task w = .waitScan (q :: rest))
    (dead : (m.shared.slot q).state = .ZOMBIE) (left : ∀ d, m.proc d ≠ some q) :
    Sound w f { m with shared := m.shared.setTask w (.waitFreeTf q) } := by
  have forker : (m.shared.setTask w (.waitFreeTf q)).task f = m.shared.task f :=
    Function.update_of_ne (Ne.symm different) _ _
  have reaper : (m.shared.setTask w (.waitFreeTf q)).task w = .waitFreeTf q :=
    Function.update_self _ _ _
  refine sound.pages (fun _ => rfl) (fits_update sound.fits rfl) ?_ ?_ ?_
  · intro x reaps
    rw [reaper] at reaps
    cases reaps
    refine Or.inr ⟨dead, ?_⟩
    intro c engaged
    rcases Phase.entering_or_current engaged with entering | current
    · exact sound.entering c q entering dead
    · rw [← sound.carried.proc] at current
      exact left c current
  · intro x allocs
    rw [forker] at allocs
    exact Or.inl allocs
  · apply sound.ledger.shrink
    intro o pg owns
    cases o with
    | tf x =>
        simp only [Owns, reaper, forker] at owns
        simp only [Owns, place, Task.footprint]
        simpa [Shared.setTask, Task.footprint] using owns
    | table x =>
        simp only [Owns, reaper, forker] at owns
        simp only [Owns, place, Task.footprint]
        simpa [Shared.setTask, Task.footprint] using owns
    | fresh =>
        simp only [Owns, forker] at owns
        exact owns

/-- The trapframe of the zombie is freed. -/
theorem Sound.freeTf {m : Machine κ} {q : Fin NPROC} (sound : Sound w f m) (different : w ≠ f)
    (place : m.shared.task w = .waitFreeTf q) :
    Sound w f { m with
      shared := (m.shared.kfree (m.shared.slot q).tf).setTask w (.waitFreeTable q) } := by
  have forker : ((m.shared.kfree (m.shared.slot q).tf).setTask w (.waitFreeTable q)).task f =
      m.shared.task f := Function.update_of_ne (Ne.symm different) _ _
  have reaper : ((m.shared.kfree (m.shared.slot q).tf).setTask w (.waitFreeTable q)).task w =
      .waitFreeTable q := Function.update_self _ _ _
  have reaps : (m.shared.task w).footprint.reaps = some q := by rw [place]; rfl
  have dead := (sound.reap q reaps).1
  have notAlloc : (m.shared.task f).footprint.allocs ≠ some q := by
    intro allocs
    rw [sound.alloc q allocs] at dead
    cases dead
  refine sound.pages (fun _ => rfl) (fits_update (k := m.shared.kfree _) sound.fits rfl) ?_ ?_ ?_
  · intro x now
    rw [reaper] at now
    cases now
    exact Or.inl reaps
  · intro x allocs
    rw [forker] at allocs
    exact Or.inl allocs
  · refine sound.ledger.release (o := .tf q) (x := (m.shared.slot q).tf) ?_ ?_
    · refine ⟨rfl, Or.inl ⟨?_, ?_⟩⟩
      · rw [dead]
        decide
      · simp [place, Task.footprint]
    · intro o pg owns
      cases o with
      | tf x =>
          simp only [Owns, reaper, forker] at owns
          obtain ⟨page, ⟨used, unfreed⟩ | alloc⟩ := owns
          · have other : x ≠ q := by
              rintro rfl
              exact unfreed ⟨rfl, rfl⟩
            refine ⟨⟨page, Or.inl ⟨used, ?_⟩⟩, by simpa using other⟩
            simp [place, Task.footprint]
          · refine ⟨⟨page, Or.inr alloc⟩, ?_⟩
            intro same
            cases same
            exact notAlloc alloc.1
      | table x =>
          simp only [Owns, reaper, forker] at owns
          refine ⟨⟨owns.1, ?_⟩, by simp⟩
          rcases owns.2 with ⟨used, unfreed⟩ | alloc
          · exact Or.inl ⟨used, by simp [place, Task.footprint]⟩
          · exact Or.inr alloc
      | fresh =>
          simp only [Owns, forker] at owns
          exact ⟨owns, by simp⟩

/-- The root table of the zombie is freed. -/
theorem Sound.freeTable {m : Machine κ} {q : Fin NPROC} (sound : Sound w f m) (different : w ≠ f)
    (place : m.shared.task w = .waitFreeTable q) :
    Sound w f { m with
      shared := (m.shared.kfree (m.shared.slot q).pagetable).setTask w (.waitUnused q) } := by
  have forker : ((m.shared.kfree (m.shared.slot q).pagetable).setTask w (.waitUnused q)).task f =
      m.shared.task f := Function.update_of_ne (Ne.symm different) _ _
  have reaper : ((m.shared.kfree (m.shared.slot q).pagetable).setTask w (.waitUnused q)).task w =
      .waitUnused q := Function.update_self _ _ _
  have reaps : (m.shared.task w).footprint.reaps = some q := by rw [place]; rfl
  have dead := (sound.reap q reaps).1
  have notAlloc : (m.shared.task f).footprint.allocs ≠ some q := by
    intro allocs
    rw [sound.alloc q allocs] at dead
    cases dead
  refine sound.pages (fun _ => rfl) (fits_update (k := m.shared.kfree _) sound.fits rfl) ?_ ?_ ?_
  · intro x now
    rw [reaper] at now
    cases now
    exact Or.inl reaps
  · intro x allocs
    rw [forker] at allocs
    exact Or.inl allocs
  · refine sound.ledger.release (o := .table q) (x := (m.shared.slot q).pagetable) ?_ ?_
    · refine ⟨rfl, Or.inl ⟨?_, ?_⟩⟩
      · rw [dead]
        decide
      · simp [place, Task.footprint]
    · intro o pg owns
      cases o with
      | tf x =>
          simp only [Owns, reaper, forker] at owns
          refine ⟨⟨owns.1, ?_⟩, by simp⟩
          rcases owns.2 with ⟨used, unfreed⟩ | alloc
          · refine Or.inl ⟨used, ?_⟩
            rw [place]
            exact unfreed
          · exact Or.inr alloc
      | table x =>
          simp only [Owns, reaper, forker] at owns
          obtain ⟨page, ⟨used, unfreed⟩ | alloc⟩ := owns
          · have other : x ≠ q := by
              rintro rfl
              exact unfreed ⟨rfl, rfl⟩
            refine ⟨⟨page, Or.inl ⟨used, ?_⟩⟩, by simpa using other⟩
            simp [place, Task.footprint]
          · refine ⟨⟨page, Or.inr alloc⟩, ?_⟩
            intro same
            cases same
            exact notAlloc alloc.1
      | fresh =>
          simp only [Owns, forker] at owns
          exact ⟨owns, by simp⟩

/-- The slot of the zombie is given up. -/
theorem Sound.giveUp {m : Machine κ} {q : Fin NPROC} (sound : Sound w f m) (different : w ≠ f)
    (place : m.shared.task w = .waitUnused q) :
    Sound w f { m with shared := (m.shared.setState q .UNUSED).setTask w .user } := by
  have forker : ((m.shared.setState q .UNUSED).setTask w .user).task f = m.shared.task f :=
    Function.update_of_ne (Ne.symm different) _ _
  have reaper : ((m.shared.setState q .UNUSED).setTask w .user).task w = .user :=
    Function.update_self _ _ _
  have here : (((m.shared.setState q .UNUSED).setTask w .user).slot q).state = .UNUSED := by
    simp [Shared.setTask, Shared.setState, Shared.setSlot]
  have there : ∀ x, x ≠ q →
      ((m.shared.setState q .UNUSED).setTask w .user).slot x = m.shared.slot x := by
    intro x other
    simp [Shared.setTask, Shared.setState, Shared.setSlot, other]
  have reaps : (m.shared.task w).footprint.reaps = some q := by rw [place]; rfl
  obtain ⟨dead, gone⟩ := sound.reap q reaps
  have notParent : w ≠ q := by
    rintro rfl
    exact sound.parent.1 dead
  have notAlloc : (m.shared.task f).footprint.allocs ≠ some q := by
    intro allocs
    rw [sound.alloc q allocs] at dead
    cases dead
  have keeps : ∀ x freed, x ≠ q →
      ¬((m.shared.task w).footprint.reaps = some x ∧ freed = true) := by
    rintro x freed other ⟨now, _⟩
    rw [reaps] at now
    exact other (Option.some.inj now).symm
  refine ⟨sound.carried.shared _, fits_update (k := m.shared.setState q .UNUSED) sound.fits trivial,
    ?_, ?_, ?_, ?_, ?_, ?_, ?_⟩
  · intro x now
    rw [reaper] at now
    cases now
  · intro x allocs
    rw [forker] at allocs
    have other : x ≠ q := fun same => notAlloc (same ▸ allocs)
    simp only [there x other]
    exact sound.alloc x allocs
  · intro c x now
    have other : x ≠ q := fun same => gone c (same ▸ now)
    simp only [there x other]
    exact sound.engaged c x now
  · intro c x now
    by_cases other : x = q
    · rw [other, here]
      decide
    · simp only [there x other]
      exact sound.entering c x now
  · simp only [there w notParent]
    exact sound.parent
  · intro x now
    by_cases other : x = q
    · rw [other, here] at now
      cases now
    · simp only [there x other] at now
      exact sound.asleep x now
  · apply sound.ledger.shrink
    intro o pg owns
    cases o with
    | tf x =>
        obtain ⟨page, ⟨used, _⟩ | alloc⟩ := owns
        · have other : x ≠ q := fun same => used (same ▸ here)
          rw [there x other] at page used
          exact ⟨page, Or.inl ⟨used, keeps x _ other⟩⟩
        · rw [forker] at alloc
          have other : x ≠ q := fun same => notAlloc (same ▸ alloc.1)
          rw [there x other] at page
          exact ⟨page, Or.inr alloc⟩
    | table x =>
        obtain ⟨page, ⟨used, _⟩ | alloc⟩ := owns
        · have other : x ≠ q := fun same => used (same ▸ here)
          rw [there x other] at page used
          exact ⟨page, Or.inl ⟨used, keeps x _ other⟩⟩
        · rw [forker] at alloc
          have other : x ≠ q := fun same => notAlloc (same ▸ alloc.1)
          rw [there x other] at page
          exact ⟨page, Or.inr alloc⟩
    | fresh =>
        simp only [Owns, forker] at owns
        exact owns

/-- A step of the fork that leaves the slots and what `w` does. -/
theorem Sound.forkPages {m : Machine κ} {k : Shared} {q : Fin NPROC} {now : Task}
    (sound : Sound w f m) (different : w ≠ f)
    (state : ∀ x, (k.slot x).state = (m.shared.slot x).state)
    (task : k.task = Function.update m.shared.task f now) (fit : now.Fits w f f)
    (unused : (m.shared.slot q).state = .UNUSED) (allocs : now.footprint.allocs = some q)
    (ledger : Ledger (Owns w f k) k.free k.pipes) : Sound w f { m with shared := k } := by
  have reaper : k.task w = m.shared.task w := by
    rw [task]
    exact Function.update_of_ne different _ _
  have forker : k.task f = now := by
    rw [task]
    exact Function.update_self _ _ _
  refine sound.pages state (by rw [task]; exact fits_update sound.fits fit) ?_ ?_ ledger
  · intro x reaps
    rw [reaper] at reaps
    exact Or.inl reaps
  · intro x now
    rw [forker, allocs] at now
    cases now
    exact Or.inr unused

/-- The fork has found an unused slot. -/
theorem Sound.claim {m : Machine κ} {q : Fin NPROC} {rest : List (Fin NPROC)}
    (sound : Sound w f m) (different : w ≠ f) (place : m.shared.task f = .forkScan (q :: rest))
    (unused : (m.shared.slot q).state = .UNUSED) :
    Sound w f { m with shared := m.shared.setTask f (.forkPid q) } := by
  refine sound.forkPages different (fun _ => rfl) rfl rfl unused rfl ?_
  apply sound.ledger.shrink
  intro o pg owns
  cases o with
  | tf x =>
      simp only [Owns, Shared.setTask, Function.update_self, Function.update_of_ne different] at owns
      simpa [Owns, place, Task.footprint] using owns
  | table x =>
      simp only [Owns, Shared.setTask, Function.update_self, Function.update_of_ne different] at owns
      simpa [Owns, place, Task.footprint] using owns
  | fresh =>
      simp only [Owns, Shared.setTask, Function.update_self] at owns
      cases owns

/-- The page of the root table comes off the free list. -/
theorem Sound.takeTable {m : Machine κ} {q : Fin NPROC} {pg : Nat} (sound : Sound w f m)
    (different : w ≠ f) (place : m.shared.task f = .forkTable q) (free : m.shared.free pg = true) :
    Sound w f { m with shared := (m.shared.kalloc pg).setTask f (.forkTf q pg) } := by
  have unused : (m.shared.slot q).state = .UNUSED := sound.alloc q (by rw [place]; rfl)
  have kept : ∀ o x, Owns w f ((m.shared.kalloc pg).setTask f (.forkTf q pg)) o x →
      o ≠ .fresh → Owns w f m.shared o x := by
    intro o x owns named
    cases o with
    | tf y =>
        simp only [Owns, Shared.setTask, Shared.kalloc, Function.update_self,
          Function.update_of_ne different] at owns
        simpa [Owns, place, Task.footprint] using owns
    | table y =>
        simp only [Owns, Shared.setTask, Shared.kalloc, Function.update_self,
          Function.update_of_ne different] at owns
        simpa [Owns, place, Task.footprint] using owns
    | fresh => exact absurd rfl named
  have taken : ∀ o, Owns w f ((m.shared.kalloc pg).setTask f (.forkTf q pg)) o pg → o = .fresh := by
    intro o owns
    by_contra named
    have before := (sound.ledger.owned o pg (kept o pg owns named)).1
    rw [free] at before
    cases before
  refine sound.forkPages different (fun _ => rfl) rfl rfl unused rfl ?_
  refine sound.ledger.take free ?_ ?_
  · intro o x owns
    by_cases named : o = .fresh
    · subst named
      simp only [Owns, Shared.setTask, Function.update_self, Task.footprint] at owns
      exact Or.inr (Option.some.inj owns).symm
    · exact Or.inl (kept o x owns named)
  · intro o o' owns owns'
    rw [taken o owns, taken o' owns']

/-- The page of the trapframe comes off the free list and goes to its slot. -/
theorem Sound.takeTf {m : Machine κ} {q : Fin NPROC} {table pg : Nat} (sound : Sound w f m)
    (different : w ≠ f) (place : m.shared.task f = .forkTf q table)
    (free : m.shared.free pg = true) :
    Sound w f { m with
      shared := ((m.shared.kalloc pg).setSlot q fun slot => { slot with tf := pg }).setTask f
        (.forkInstall q table) } := by
  have unused : (m.shared.slot q).state = .UNUSED := sound.alloc q (by rw [place]; rfl)
  have kept : ∀ o x, Owns w f (((m.shared.kalloc pg).setSlot q fun slot =>
      { slot with tf := pg }).setTask f (.forkInstall q table)) o x →
      o ≠ .tf q → Owns w f m.shared o x := by
    intro o x owns named
    cases o with
    | tf y =>
        have other : y ≠ q := fun same => named (by rw [same])
        simp only [Owns, Shared.setTask, Shared.setSlot, Shared.kalloc, Function.update_self,
          Function.update_of_ne different, Function.update_of_ne other, Task.footprint] at owns
        simpa [Owns, place, Task.footprint, Ne.symm other] using owns
    | table y =>
        by_cases other : y = q
        · subst other
          simp [Owns, Shared.setTask, Shared.setSlot, Shared.kalloc, Task.footprint, unused] at owns
        · simp only [Owns, Shared.setTask, Shared.setSlot, Shared.kalloc, Function.update_self,
            Function.update_of_ne different, Function.update_of_ne other, Task.footprint] at owns
          simpa [Owns, place, Task.footprint] using owns
    | fresh =>
        simp only [Owns, Shared.setTask, Function.update_self, Task.footprint] at owns
        simpa [Owns, place, Task.footprint] using owns
  have taken : ∀ o, Owns w f (((m.shared.kalloc pg).setSlot q fun slot =>
      { slot with tf := pg }).setTask f (.forkInstall q table)) o pg → o = .tf q := by
    intro o owns
    by_contra named
    have before := (sound.ledger.owned o pg (kept o pg owns named)).1
    rw [free] at before
    cases before
  refine sound.forkPages different ?_ rfl rfl unused rfl ?_
  · intro x
    by_cases other : x = q
    · simp [other, Shared.setTask, Shared.setSlot, Shared.kalloc]
    · simp [other, Shared.setTask, Shared.setSlot, Shared.kalloc]
  refine sound.ledger.take free ?_ ?_
  · intro o x owns
    by_cases named : o = .tf q
    · subst named
      have page := owns.1
      simp [Shared.setTask, Shared.setSlot, Shared.kalloc] at page
      exact Or.inr page.symm
    · exact Or.inl (kept o x owns named)
  · intro o o' owns owns'
    rw [taken o owns, taken o' owns']

/-- The table the fork has built goes to its slot. -/
theorem Sound.install {m : Machine κ} {q : Fin NPROC} {table : Nat} (sound : Sound w f m)
    (different : w ≠ f) (place : m.shared.task f = .forkInstall q table) :
    Sound w f { m with
      shared := (m.shared.setSlot q fun slot => { slot with pagetable := table }).setTask f
        (.forkParent q) } := by
  have unused : (m.shared.slot q).state = .UNUSED := sound.alloc q (by rw [place]; rfl)
  refine sound.forkPages different ?_ rfl rfl unused rfl ?_
  · intro x
    by_cases other : x = q
    · simp [other, Shared.setTask, Shared.setSlot]
    · simp [other, Shared.setTask, Shared.setSlot]
  refine sound.ledger.rename (fun o => if o = .table q then .fresh else o) ?_ ?_
  · intro o x owns
    cases o with
    | tf y =>
        rw [if_neg (by simp)]
        by_cases other : y = q
        · subst other
          simpa [Owns, Shared.setTask, Shared.setSlot, place, Task.footprint, unused] using owns
        · simp only [Owns, Shared.setTask, Shared.setSlot, Function.update_self,
            Function.update_of_ne different, Function.update_of_ne other, Task.footprint] at owns
          simpa [Owns, place, Task.footprint] using owns
    | table y =>
        by_cases other : y = q
        · subst other
          rw [if_pos rfl]
          have page := owns.1
          simp only [Shared.setTask, Shared.setSlot, Function.update_self] at page
          simp [Owns, place, Task.footprint, page]
        · rw [if_neg (by simpa using other)]
          simp only [Owns, Shared.setTask, Shared.setSlot, Function.update_self,
            Function.update_of_ne different, Function.update_of_ne other, Task.footprint] at owns
          simpa [Owns, place, Task.footprint, Ne.symm other] using owns
    | fresh =>
        simp only [Owns, Shared.setTask, Function.update_self, Task.footprint] at owns
        cases owns
  · have built : ∀ o x, Owns w f ((m.shared.setSlot q fun slot =>
        { slot with pagetable := table }).setTask f (.forkParent q)) o x → o ≠ .fresh := by
      rintro o x owns rfl
      simp only [Owns, Shared.setTask, Function.update_self, Task.footprint] at owns
      cases owns
    intro o o' x owns owns' same
    by_cases left : o = .table q <;> by_cases right : o' = .table q
    · rw [left, right]
    · simp only [left, if_true, right, if_false] at same
      exact absurd same.symm (built o' x owns')
    · simp only [left, right, if_true, if_false] at same
      exact absurd same (built o x owns)
    · simpa [left, right] using same

/-- Any other page the fork takes is of no concern here. -/
theorem Sound.takeMore {m : Machine κ} {pg : Nat} (sound : Sound w f m)
    (free : m.shared.free pg = true) : Sound w f { m with shared := m.shared.kalloc pg } := by
  refine sound.pages (fun _ => rfl) sound.fits (fun _ => Or.inl) (fun _ => Or.inl) ?_
  refine sound.ledger.take free (fun o x owns => Or.inl ?_) ?_
  · cases o <;> exact owns
  · intro o o' owns
    have before : Owns w f m.shared o pg := by cases o <;> exact owns
    rw [(sound.ledger.owned o pg before).1] at free
    cases free

/-- A pipe page goes back to the free list. -/
theorem Sound.close {m : Machine κ} {pg : Nat} (sound : Sound w f m)
    (isOpen : m.shared.pipes pg = true) :
    Sound w f { m with
      shared := { m.shared.kfree pg with pipes := Function.update m.shared.pipes pg false } } := by
  refine sound.pages (fun _ => rfl) sound.fits (fun _ => Or.inl) (fun _ => Or.inl) ?_
  refine (sound.ledger.discard isOpen).shrink ?_
  intro o x owns
  cases o <;> exact owns

/-- The child becomes runnable. -/
theorem Sound.run {m : Machine κ} {q : Fin NPROC} (sound : Sound w f m) (different : w ≠ f)
    (place : m.shared.task f = .forkRunnable q) :
    Sound w f { m with shared := (m.shared.setState q .RUNNABLE).setTask f .user } := by
  have reaper : ((m.shared.setState q .RUNNABLE).setTask f .user).task w = m.shared.task w :=
    Function.update_of_ne different _ _
  have forker : ((m.shared.setState q .RUNNABLE).setTask f .user).task f = .user :=
    Function.update_self _ _ _
  have here : (((m.shared.setState q .RUNNABLE).setTask f .user).slot q).state = .RUNNABLE := by
    simp [Shared.setTask, Shared.setState, Shared.setSlot]
  have there : ∀ x, x ≠ q →
      ((m.shared.setState q .RUNNABLE).setTask f .user).slot x = m.shared.slot x := by
    intro x other
    simp [Shared.setTask, Shared.setState, Shared.setSlot, other]
  have unused : (m.shared.slot q).state = .UNUSED := sound.alloc q (by rw [place]; rfl)
  refine ⟨sound.carried.shared _, fits_update (k := m.shared.setState q .RUNNABLE) sound.fits
    trivial, ?_, ?_, ?_, ?_, ?_, ?_, ?_⟩
  · intro x reaps
    rw [reaper] at reaps
    obtain ⟨dead, gone⟩ := sound.reap x reaps
    have other : x ≠ q := by
      rintro rfl
      rw [unused] at dead
      cases dead
    simp only [there x other]
    exact ⟨dead, gone⟩
  · intro x allocs
    rw [forker] at allocs
    cases allocs
  · intro c x now
    by_cases other : x = q
    · rw [other, here]
      decide
    · simp only [there x other]
      exact sound.engaged c x now
  · intro c x now
    by_cases other : x = q
    · rw [other, here]
      decide
    · simp only [there x other]
      exact sound.entering c x now
  · have other : w ≠ q := by
      rintro rfl
      exact sound.parent.2 unused
    simp only [there w other]
    exact sound.parent
  · intro x now
    by_cases other : x = q
    · rw [other, here] at now
      cases now
    · simp only [there x other] at now
      exact sound.asleep x now
  · apply sound.ledger.shrink
    intro o pg owns
    cases o with
    | tf x =>
        by_cases other : x = q
        · subst other
          refine ⟨?_, Or.inr ⟨by rw [place]; rfl, by rw [place]; rfl⟩⟩
          simpa [Shared.setTask, Shared.setState, Shared.setSlot] using owns.1
        · simp only [Owns, reaper, forker, there x other, Task.footprint] at owns
          simpa [Owns, place, Task.footprint, Ne.symm other] using owns
    | table x =>
        by_cases other : x = q
        · subst other
          refine ⟨?_, Or.inr ⟨by rw [place]; rfl, by rw [place]; rfl⟩⟩
          simpa [Shared.setTask, Shared.setState, Shared.setSlot] using owns.1
        · simp only [Owns, reaper, forker, there x other, Task.footprint] at owns
          simpa [Owns, place, Task.footprint, Ne.symm other] using owns
    | fresh =>
        simp only [Owns, forker] at owns
        cases owns

/-- Whatever a process that a CPU has entered does. -/
theorem Sound.effect {m : Machine κ} {k : Shared} {c : κ} {p : Fin NPROC} (sound : Sound w f m)
    (different : w ≠ f) (engaged : (m.phase c).engaged = some p)
    (entered : (m.phase c).entering = none) (effect : Effect w f p m.shared k)
    (late : ∀ q rest, m.shared.task p = .waitScan (q :: rest) → (m.shared.slot q).state = .ZOMBIE →
      (m.shared.slot q).ppid = (m.shared.slot p).pid → ∀ d, m.proc d ≠ some q) :
    Sound w f { m with shared := k } := by
  have used := sound.engaged c p engaged
  have fit := sound.fits p
  cases effect with
  | plain state tf table free pipes task =>
      obtain ⟨now, task, fits, same⟩ := task
      exact sound.plain state tf table free pipes (by rw [task]; exact fits_update sound.fits fits)
        (fun q _ => by rw [task]; exact footprint_update same q)
  | state q st slot whose free pipes task =>
      obtain ⟨now, task, fits, same⟩ := task
      have inUse : (m.shared.slot q).state ≠ .UNUSED := by
        rcases whose with ⟨rfl, _⟩ | ⟨rfl, _⟩
        · exact used
        · exact sound.parent.2
      refine sound.state slot free pipes (by rw [task]; exact fits_update sound.fits fits)
        (fun q _ => by rw [task]; exact footprint_update same q) inUse ?_ ?_ ?_ ?_
      · rintro rfl
        simp at whose
      · intro reaps
        obtain ⟨dead, gone⟩ := sound.reap q reaps
        rcases whose with ⟨rfl, _⟩ | ⟨rfl, _⟩
        · exact gone c engaged
        · exact sound.parent.1 dead
      · rintro rfl
        rcases whose with ⟨rfl, runs | ⟨sleeps, _⟩ | ⟨_, other, _⟩⟩ | ⟨_, runs⟩
        · cases runs
        · cases sleeps
        · refine ⟨other, ?_⟩
          intro d entering
          have held : (m.phase d).held = some q := by
            revert entering
            cases m.phase d <;> simp [Phase.entering, Phase.held]
          have same := sound.carried.unique d c q held (Phase.held_of_engaged engaged)
          rw [same, entered] at entering
          cases entering
        · cases runs
      · rintro rfl
        rcases whose with ⟨rfl, runs | ⟨_, parent⟩ | ⟨dies, _⟩⟩ | ⟨_, runs⟩
        · cases runs
        · exact parent
        · cases dies
        · cases runs
  | close pg isOpen now =>
      subst now
      exact sound.close isOpen
  | reap q rest place dead child now =>
      subst now
      rw [place] at fit
      obtain rfl : p = w := fit
      exact sound.startReap different place dead (late q rest place dead child)
  | freeTf q place now =>
      subst now
      rw [place] at fit
      obtain rfl : p = w := fit
      exact sound.freeTf different place
  | freeTable q place now =>
      subst now
      rw [place] at fit
      obtain rfl : p = w := fit
      exact sound.freeTable different place
  | unused q place now =>
      subst now
      rw [place] at fit
      obtain rfl : p = w := fit
      exact sound.giveUp different place
  | claim q rest place unused now =>
      subst now
      rw [place] at fit
      obtain rfl : p = f := fit
      exact sound.claim different place unused
  | takeTable q pg place free now =>
      subst now
      rw [place] at fit
      obtain rfl : p = f := fit
      exact sound.takeTable different place free
  | takeTf q table pg place free now =>
      subst now
      rw [place] at fit
      obtain rfl : p = f := fit
      exact sound.takeTf different place free
  | install q table place now =>
      subst now
      rw [place] at fit
      obtain rfl : p = f := fit
      exact sound.install different place
  | takeMore q pg place free now =>
      subst now
      exact sound.takeMore free
  | ready q place now =>
      subst now
      rw [place] at fit
      obtain rfl : p = f := fit
      have unused : (m.shared.slot q).state = .UNUSED := sound.alloc q (by rw [place]; rfl)
      have notForker : p ≠ q := by
        rintro rfl
        exact used unused
      have notParent : w ≠ q := by
        rintro rfl
        exact sound.parent.2 unused
      refine sound.plain (fun _ => rfl) (fun _ => rfl) (fun _ => rfl) rfl rfl
        (fits_update (k := m.shared.setTask q .user)
          (fits_update (k := m.shared) sound.fits trivial) rfl) ?_
      rintro x (rfl | rfl)
      · simp [Shared.setTask, Function.update_of_ne different, Function.update_of_ne notParent]
      · simp [Shared.setTask, place, Task.footprint]
  | run q place now =>
      subst now
      rw [place] at fit
      obtain rfl : p = f := fit
      exact sound.run different place

/-- A CPU that moves to another phase commits itself at most to a runnable slot. -/
theorem Sound.turn [DecidableEq κ] {m t : Machine κ} (sound : Sound w f m) (c : κ)
    (phase : Phase) (carried : Carried t) (shared : t.shared = m.shared)
    (now : t.phase = Function.update m.phase c phase)
    (engaged : ∀ p, phase.engaged = some p →
      (m.phase c).engaged = some p ∨ (m.shared.slot p).state = .RUNNABLE)
    (entering : ∀ p, phase.entering = some p →
      (m.phase c).entering = some p ∨ (m.shared.slot p).state = .RUNNABLE) : Sound w f t := by
  refine sound.phase carried shared ?_ ?_
  · intro d p committed
    rw [now] at committed
    by_cases here : d = c
    · subst here
      rw [Function.update_self] at committed
      exact engaged p committed
    · rw [Function.update_of_ne here] at committed
      exact Or.inl committed
  · intro d p committed
    rw [now] at committed
    by_cases here : d = c
    · subst here
      rw [Function.update_self] at committed
      exact entering p committed
    · rw [Function.update_of_ne here] at committed
      exact Or.inl committed

/-- The test of `proc_wait` is about to find the zombie in slot `q`. -/
def FindsZombie (k : Shared) (p q : Fin NPROC) : Prop :=
  ∃ rest, k.task p = .waitScan (q :: rest) ∧ (k.slot q).state = .ZOMBIE ∧
    (k.slot q).ppid = (k.slot p).pid

/-- No CPU has entered a zombie that the process on this CPU is about to find. -/
def FoundLate (m : Machine κ) (c : κ) : Prop :=
  ∀ p rest q, m.phase c = .run p rest → FindsZombie m.shared p q → ∀ d, m.proc d ≠ some q

/-- The process on this CPU makes the calls of its part. -/
def PlaysPart (w f : Fin NPROC) (m : Machine κ) (c : κ) (choice : Choice) : Prop :=
  match m.phase c with
  | .run p _ => choice.Fits w f p
  | _ => True

variable [DecidableEq κ]

theorem Sound.runStep {m t : Machine κ} {c : κ} {p : Fin NPROC} {rest : List (Fin NPROC)}
    {choice : Choice} (sound : Sound w f m) (different : w ≠ f) (phase : m.phase c = .run p rest)
    (fits : choice.Fits w f p) (late : FoundLate m c)
    (step : runStep m c p rest choice = some t) : Sound w f t := by
  have carried := sound.carried.runStep phase step
  unfold Smp.runStep at step
  split at step
  · rename_i next place
    cases step
    have fit := sound.fits p
    rw [place] at fit
    have resumed : Sound w f { m with shared := m.shared.setTask p next } :=
      sound.plain (fun _ => rfl) (fun _ => rfl) (fun _ => rfl) rfl rfl
        (fits_update sound.fits fit) fun q _ => footprint_update (by rw [place]; rfl) q
    refine resumed.turn c (.back p rest) carried rfl rfl ?_ ?_
    · intro x same
      rw [phase]
      exact Or.inl same
    · intro x same
      cases same
  · obtain ⟨k, taken, rfl⟩ := Option.map_eq_some_iff.mp step
    refine sound.effect (c := c) (p := p) different (by rw [phase]; rfl) (by rw [phase]; rfl)
      (taskStep_effect (sound.fits p) fits sound.asleep taken) ?_
    intro q more place dead child
    exact late p rest q phase ⟨more, place, dead, child⟩

theorem Sound.cpuStep {m t : Machine κ} {c : κ} {choice : Choice} (sound : Sound w f m)
    (different : w ≠ f) (part : PlaysPart w f m c choice) (late : FoundLate m c)
    (step : cpuStep m c choice = some t) : Sound w f t := by
  have carried := sound.carried.cpuStep step
  unfold Smp.cpuStep at step
  cases phase : m.phase c with
  | scan rest =>
      rw [phase] at step
      cases rest with
      | nil =>
          cases step
          exact sound.turn c (.scan allSlots) carried rfl rfl
            (fun _ now => by cases now) (fun _ now => by cases now)
      | cons p rest =>
          simp only at step
          split at step
          · cases step
          · cases step
            exact sound.turn c (.acquired p rest) carried rfl rfl
              (fun _ now => by cases now) (fun _ now => by cases now)
  | acquired p rest =>
      rw [phase] at step
      cases step
      exact sound.turn c (.test p rest) carried rfl rfl
        (fun _ now => by cases now) (fun _ now => by cases now)
  | test p rest =>
      rw [phase] at step
      simp only at step
      split at step
      · rename_i runnable
        cases step
        refine sound.turn c (.mark p rest) carried rfl rfl ?_ ?_
        · rintro x now
          cases now
          exact Or.inr runnable
        · rintro x now
          cases now
          exact Or.inr runnable
      · cases step
        exact sound.turn c (.disown p rest) carried rfl rfl
          (fun _ now => by cases now) (fun _ now => by cases now)
  | mark p rest =>
      rw [phase] at step
      cases step
      have engaged : (m.phase c).engaged = some p := by rw [phase]; rfl
      have running : Sound w f { m with shared := m.shared.setState p .RUNNING } :=
        sound.state rfl rfl rfl sound.fits (fun _ _ => rfl) (sound.engaged c p engaged) (by decide)
          (fun reaps => (sound.reap p reaps).2 c engaged) (fun dead => by cases dead)
          (fun sleeps => by cases sleeps)
      refine running.turn c (.assign p rest) carried rfl rfl ?_ ?_
      · intro x now
        rw [phase]
        exact Or.inl now
      · intro x now
        rw [phase]
        exact Or.inl now
  | assign p rest =>
      rw [phase] at step
      cases step
      refine sound.turn c (.enter p rest) carried rfl rfl ?_ ?_
      · intro x now
        rw [phase]
        exact Or.inl now
      · intro x now
        cases now
  | enter p rest =>
      rw [phase] at step
      cases step
      refine sound.turn c (.run p rest) carried rfl rfl ?_ ?_
      · intro x now
        rw [phase]
        exact Or.inl now
      · intro x now
        cases now
  | run p rest =>
      rw [phase] at step
      unfold PlaysPart at part
      rw [phase] at part
      exact sound.runStep different phase part late step
  | back p rest =>
      rw [phase] at step
      cases step
      exact sound.turn c (.disown p rest) carried rfl rfl
        (fun _ now => by cases now) (fun _ now => by cases now)
  | disown p rest =>
      rw [phase] at step
      cases step
      exact sound.turn c (.unlock p rest) carried rfl rfl
        (fun _ now => by cases now) (fun _ now => by cases now)
  | unlock p rest =>
      rw [phase] at step
      cases step
      exact sound.turn c (.scan rest) carried rfl rfl
        (fun _ now => by cases now) (fun _ now => by cases now)

/-- A step of some CPU in which each process plays its part. -/
def ReapStep (w f : Fin NPROC) (allowed : Machine κ → κ → Prop) (m t : Machine κ) : Prop :=
  ∃ c choice, PlaysPart w f m c choice ∧ allowed m c ∧ cpuStep m c choice = some t

omit [DecidableEq κ] in
/-- All processes are in user mode, the parent lives, and the slots in use have
pages of their own. -/
structure ReapBoot (w f : Fin NPROC) (m : Machine κ) : Prop extends AtBoot m where
  task : ∀ p, m.shared.task p = .user
  parent : (m.shared.slot w).state ≠ .ZOMBIE ∧ (m.shared.slot w).state ≠ .UNUSED
  asleep : ∀ q, (m.shared.slot q).state = .SLEEPING → q = w
  ledger : Ledger (Owns w f m.shared) m.shared.free m.shared.pipes

omit [DecidableEq κ] in
theorem ReapBoot.sound {m : Machine κ} (boot : ReapBoot w f m) : Sound w f m := by
  refine ⟨boot.toAtBoot.carried, ?_, ?_, ?_, ?_, ?_, boot.parent, boot.asleep, boot.ledger⟩
  · intro p
    rw [boot.task]
    trivial
  · intro q reaps
    rw [boot.task] at reaps
    cases reaps
  · intro q allocs
    rw [boot.task] at allocs
    cases allocs
  · intro c p now
    rw [boot.phase] at now
    cases now
  · intro c p now
    rw [boot.phase] at now
    cases now

/-- In every run in which `proc_wait` finds a zombie only when no CPU has it
entered any more, a slot that a CPU has entered is neither unused nor being
allocated, and its trapframe and its root table are not free. -/
theorem entered_slot_not_reaped (different : w ≠ f) {n : Nat} {m : Machine κ}
    (run : ReachIn (ReapBoot w f) (ReapStep w f FoundLate) n m) :
    ∀ c p, m.proc c = some p →
      (m.shared.slot p).state ≠ .UNUSED ∧
      (∀ q, (m.shared.task q).footprint.allocs ≠ some p) ∧
      m.shared.free (m.shared.slot p).tf = false ∧
      m.shared.free (m.shared.slot p).pagetable = false := by
  have sound : Sound w f m := by
    apply run.invariant
    · intro m boot
      exact boot.sound
    · rintro m t sound ⟨c, choice, part, late, step⟩
      exact sound.cpuStep different part late step
  intro c p current
  rw [sound.carried.proc] at current
  have engaged := Phase.engaged_of_current current
  have used := sound.engaged c p engaged
  have kept : ∀ freed, ¬((m.shared.task w).footprint.reaps = some p ∧ freed = true) :=
    fun _ reaps => (sound.reap p reaps.1).2 c engaged
  refine ⟨used, ?_, ?_, ?_⟩
  · intro q allocs
    have forker := (sound.fits q).allocs allocs
    rw [forker] at allocs
    exact used (sound.alloc p allocs)
  · exact (sound.ledger.owned (.tf p) _ ⟨rfl, Or.inl ⟨used, kept _⟩⟩).1
  · exact (sound.ledger.owned (.table p) _ ⟨rfl, Or.inl ⟨used, kept _⟩⟩).1

end

theorem threeProcs_used {p : Fin NPROC} (used : (threeProcs.shared.slot p).state ≠ .UNUSED) :
    p.val < 3 := by
  by_contra above
  exact used (by simp [threeProcs, above])

theorem threeProcs_owns {o : Owner} {pg : Nat} (owns : Owns 0 2 threeProcs.shared o pg) :
    ∃ p : Fin NPROC, p.val < 3 ∧
      (o = .tf p ∧ pg = 0x100000 + 0x2000 * p.val ∨ o = .table p ∧ pg = 0x101000 + 0x2000 * p.val) := by
  cases o with
  | tf p =>
      obtain ⟨page, ⟨used, _⟩ | ⟨allocs, _⟩⟩ := owns
      · have low := threeProcs_used used
        refine ⟨p, low, Or.inl ⟨rfl, ?_⟩⟩
        rw [← page]
        simp [threeProcs, low]
      · cases allocs
  | table p =>
      obtain ⟨page, ⟨used, _⟩ | ⟨allocs, _⟩⟩ := owns
      · have low := threeProcs_used used
        refine ⟨p, low, Or.inr ⟨rfl, ?_⟩⟩
        rw [← page]
        simp [threeProcs, low]
      · cases allocs
  | fresh => cases owns

theorem threeProcs_reapBoot : ReapBoot 0 2 threeProcs where
  toAtBoot := threeProcs_boot
  task := fun _ => rfl
  parent := by decide
  asleep := by
    intro q asleep
    by_cases low : q.val < 3 <;> simp [threeProcs, low] at asleep
  ledger := by
    constructor
    case owned =>
      intro o pg owns
      obtain ⟨p, low, ⟨_, rfl⟩ | ⟨_, rfl⟩⟩ := threeProcs_owns owns
      · refine ⟨?_, rfl⟩
        simp only [threeProcs, decide_eq_false_iff_not]
        omega
      · refine ⟨?_, rfl⟩
        simp only [threeProcs, decide_eq_false_iff_not]
        omega
    case single =>
      intro o o' pg owns owns'
      obtain ⟨p, low, mine⟩ := threeProcs_owns owns
      obtain ⟨q, low', yours⟩ := threeProcs_owns owns'
      have same : p = q := by
        apply Fin.ext
        omega
      subst same
      rcases mine with ⟨rfl, page⟩ | ⟨rfl, page⟩ <;> rcases yours with ⟨rfl, page'⟩ | ⟨rfl, page'⟩
      · rfl
      · omega
      · omega
      · rfl
    case aside =>
      intro pg set
      cases set

/-- Each process makes the calls of its part. -/
def partsOnly (w f : Fin NPROC) (m : Machine (Fin 2)) (c : Fin 2) (choice : Choice) : Bool :=
  match m.phase c with
  | .run p _ => decide (choice.Fits w f p)
  | _ => true

theorem partsOnly_plays {w f : Fin NPROC} {m : Machine (Fin 2)} {c : Fin 2} {choice : Choice}
    (passes : partsOnly w f m c choice = true) : PlaysPart w f m c choice := by
  unfold partsOnly at passes
  unfold PlaysPart
  split
  · rename_i phase
    rw [phase] at passes
    exact of_decide_eq_true passes
  · trivial

/-- The zombie that the process on this CPU is about to find is on no CPU. -/
def offCpu (m : Machine (Fin 2)) (c : Fin 2) : Bool :=
  match m.phase c with
  | .run p _ =>
      match m.shared.task p with
      | .waitScan (q :: _) =>
          decide ((m.shared.slot q).state = .ZOMBIE → (m.shared.slot q).ppid = (m.shared.slot p).pid →
            ∀ d, m.proc d ≠ some q)
      | _ => true
  | _ => true

theorem offCpu_late {m : Machine (Fin 2)} {c : Fin 2} (off : offCpu m c = true) :
    FoundLate m c := by
  rintro p rest q phase ⟨more, task, dead, child⟩
  unfold offCpu at off
  rw [phase] at off
  simp only [task] at off
  exact of_decide_eq_true off dead child

/-- The first CPU runs the parent, which yields, and then the child, which exits
and leaves the CPU. The second CPU takes up the parent, which waits. -/
def reapsLater : List (Fin 2 × Choice) :=
  enterFirst 0 ++ (0, .yield) :: List.replicate 11 (0, .go) ++ (0, .exit) ::
    List.replicate 201 (0, .go) ++ enterFirst 1 ++ (1, .wait) :: List.replicate 5 (1, .go)

def reapedLater (w third : Fin NPROC) : Machine (Fin 2) :=
  followed (fun m c choice => partsOnly w third m c choice && offCpu m c) threeProcs reapsLater

/-- The child has been reaped, and the parent that the second CPU has entered is
in use with pages that are not free. -/
theorem entered_slot_not_reaped_three :
    ((reapedLater 0 2).shared.slot 1).state = .UNUSED ∧ (reapedLater 0 2).proc 1 = some 0 ∧
      ((reapedLater 0 2).shared.slot 0).state ≠ .UNUSED ∧
      (reapedLater 0 2).shared.free ((reapedLater 0 2).shared.slot 0).tf = false := by
  have entered : (reapedLater 0 2).proc 1 = some 0 := by decide +kernel
  have run : ReachIn (ReapBoot 0 2) (ReapStep 0 2 FoundLate) (0 + reapsLater.length) (reapedLater 0 2) := by
    refine followed_reach ?_ threeProcs_reapBoot (by decide +kernel)
    intro m c choice t passes taken
    obtain ⟨parts, off⟩ := Bool.and_eq_true_iff.mp passes
    exact ⟨c, choice, partsOnly_plays parts, offCpu_late off, taken⟩
  have kept := entered_slot_not_reaped (by decide) run 1 0 entered
  exact ⟨by decide +kernel, entered, kept.1, kept.2.2.1⟩

/-- The first CPU runs the parent, which yields, and then the child; the second
CPU takes up the parent. The child writes ZOMBIE, and the parent reaps it. -/
def reapsTooEarly : List (Fin 2 × Choice) :=
  enterFirst 0 ++ (0, .yield) :: List.replicate 11 (0, .go) ++ enterFirst 1 ++
    [(0, .exit), (0, .go), (1, .wait)] ++ List.replicate 5 (1, .go)

/-- The slot is unused and its pages are free while the first CPU is still in the
child. -/
theorem child_reaped_on_its_cpu :
    ∃ n m, ReachIn (ReapBoot 0 2) (ReapStep 0 2 fun (_ : Machine (Fin 2)) _ => True) n m ∧
      m.proc 0 = some 1 ∧ (m.shared.slot 1).state = .UNUSED ∧
      m.shared.free (m.shared.slot 1).tf = true ∧
      m.shared.free (m.shared.slot 1).pagetable = true := by
  refine ⟨_, followed (partsOnly 0 2) threeProcs reapsTooEarly,
    followed_reach ?_ threeProcs_reapBoot (by decide +kernel), by decide +kernel, by decide +kernel,
    by decide +kernel, by decide +kernel⟩
  intro m c choice t passes taken
  exact ⟨c, choice, partsOnly_plays passes, trivial, taken⟩

end Gcgos.Smp
