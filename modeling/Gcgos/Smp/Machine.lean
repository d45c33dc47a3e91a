import Gcgos.Kernel.State
import Gcgos.Lib.Run

/-!
# Several CPUs

The scheduler loops of any number of CPUs and the kernel code of the processes
they run, at the granularity of single writes to the process table and single
lock operations: `kernel/proc.c` and `kernel/spinlock.c`. A process has its own
place in the kernel's code, which is what `swtch` saves and resumes; `myproc()`
is the process that the CPU has entered.

The memory of a process is only the two pages whose lifetime matters here, its
trapframe and its root table, and the allocator is the set of its free pages.
The loops over `proc[]` carry the slots still to be visited.
-/

set_option autoImplicit false

namespace Gcgos.Smp

open Kernel (ProcState)

/-- `struct proc` without its lock. -/
structure Slot where
  state : ProcState
  chan : Option Chan
  pid : UInt32
  ppid : UInt32
  tf : Nat
  pagetable : Nat
deriving DecidableEq

/-- Where a process is in the kernel's code: the step it takes next. `user` is
user mode, and kernel code that does not touch the process table. -/
inductive Task where
  | user
  /-- `sleep`: `p->chan = chan`, `p->state = SLEEPING`, and `p->chan = 0` after
  the switch. -/
  | sleepChan (chan : Chan) (next : Task)
  | sleepState (next : Task)
  | sleepDone (next : Task)
  /-- `sched`: the switch to the scheduler. -/
  | sched (next : Task)
  /-- `yield` and `kexec`: `p->state = RUNNABLE`. -/
  | yieldState
  | execState
  /-- `wakeup`: the test of the first slot left, and the write. -/
  | wake (chan : Chan) (rest : List (Fin NPROC)) (next : Task)
  | wakeWrite (chan : Chan) (q : Fin NPROC) (rest : List (Fin NPROC)) (next : Task)
  /-- `proc_kill`: the test of the first slot left, the test for SLEEPING, and
  the write. -/
  | kill (pid : UInt32) (rest : List (Fin NPROC))
  | killSleeping (q : Fin NPROC)
  | killWrite (q : Fin NPROC)
  /-- `proc_exit`. -/
  | exitZombie
  | exitClose
  | exitWake (rest : List (Fin NPROC))
  | exitAbandon (rest : List (Fin NPROC))
  /-- `proc_wait`: the scan, and the release of what it found. -/
  | waitScan (rest : List (Fin NPROC))
  | waitFreeTf (q : Fin NPROC)
  | waitFreeTable (q : Fin NPROC)
  | waitUnused (q : Fin NPROC)
  /-- `allocproc` and the rest of `fork`. -/
  | forkScan (rest : List (Fin NPROC))
  | forkPid (q : Fin NPROC)
  | forkTable (q : Fin NPROC)
  | forkTf (q : Fin NPROC) (table : Nat)
  | forkInstall (q : Fin NPROC) (table : Nat)
  | forkParent (q : Fin NPROC)
  | forkCopy (q : Fin NPROC)
  | forkRunnable (q : Fin NPROC)
deriving DecidableEq

/-- What all CPUs share, apart from the locks. -/
structure Shared where
  slot : Fin NPROC → Slot
  task : Fin NPROC → Task
  free : Nat → Bool
  pipes : Nat → Bool
  nextpid : UInt32

namespace Shared

def setSlot (k : Shared) (q : Fin NPROC) (change : Slot → Slot) : Shared :=
  { k with slot := Function.update k.slot q (change (k.slot q)) }

def setTask (k : Shared) (p : Fin NPROC) (task : Task) : Shared :=
  { k with task := Function.update k.task p task }

def setState (k : Shared) (q : Fin NPROC) (state : ProcState) : Shared :=
  k.setSlot q fun slot => { slot with state := state }

def kfree (k : Shared) (pg : Nat) : Shared := { k with free := Function.update k.free pg true }

def kalloc (k : Shared) (pg : Nat) : Shared := { k with free := Function.update k.free pg false }

end Shared

/-- What a process or a CPU may choose: the kernel call that a process in user
mode makes next, the page that `kalloc` returns or a closed pipe gives back, or
just to go on. -/
inductive Choice where
  | go
  | sleep (chan : Chan)
  | yield
  | wakeup (chan : Chan)
  | kill (pid : UInt32)
  | exit
  | wait
  | fork
  | exec
  | page (pg : Nat)
deriving DecidableEq

def allSlots : List (Fin NPROC) := List.finRange NPROC

/-- The first step of a call. -/
def Choice.begin : Choice → Option Task
  | .sleep chan => some (.sleepChan chan .user)
  | .yield => some .yieldState
  | .wakeup chan => some (.wake chan allSlots .user)
  | .kill pid => some (.kill pid allSlots)
  | .exit => some .exitZombie
  | .wait => some (.waitScan allSlots)
  | .fork => some (.forkScan allSlots)
  | .exec => some .execState
  | .go => none
  | .page _ => none

/-- One step of the kernel code of process `p`. The switch itself is a step of
the CPU. -/
def taskStep (k : Shared) (p : Fin NPROC) (choice : Choice) : Option Shared :=
  match k.task p with
  | .user => choice.begin.map fun task => k.setTask p task
  | .sleepChan chan next =>
      some ((k.setSlot p fun slot => { slot with chan := some chan }).setTask p (.sleepState next))
  | .sleepState next => some ((k.setState p .SLEEPING).setTask p (.sched (.sleepDone next)))
  | .sleepDone next =>
      some ((k.setSlot p fun slot => { slot with chan := none }).setTask p next)
  | .sched _ => none
  | .yieldState => some ((k.setState p .RUNNABLE).setTask p (.sched .user))
  | .execState => some ((k.setState p .RUNNABLE).setTask p .user)
  | .wake _ [] next => some (k.setTask p next)
  | .wake chan (q :: rest) next =>
      if (k.slot q).state = .SLEEPING ∧ (k.slot q).chan = some chan then
        some (k.setTask p (.wakeWrite chan q rest next))
      else some (k.setTask p (.wake chan rest next))
  | .wakeWrite chan q rest next =>
      some ((k.setState q .RUNNABLE).setTask p (.wake chan rest next))
  | .kill _ [] => some (k.setTask p .user)
  | .kill pid (q :: rest) =>
      if (k.slot q).pid = pid ∧ (k.slot q).state ≠ .UNUSED then
        some (k.setTask p (.killSleeping q))
      else some (k.setTask p (.kill pid rest))
  | .killSleeping q =>
      if (k.slot q).state = .SLEEPING then some (k.setTask p (.killWrite q))
      else some (k.setTask p .user)
  | .killWrite q => some ((k.setState q .RUNNABLE).setTask p .user)
  | .exitZombie => some ((k.setState p .ZOMBIE).setTask p .exitClose)
  | .exitClose =>
      match choice with
      | .page pg =>
          -- The last end of a pipe is closed and its page goes back.
          if k.pipes pg = true then
            some { k.kfree pg with pipes := Function.update k.pipes pg false }
          else none
      | _ => some (k.setTask p (.exitWake allSlots))
  | .exitWake [] => some (k.setTask p (.exitAbandon allSlots))
  | .exitWake (q :: rest) =>
      if (k.slot q).pid = (k.slot p).ppid then
        some (k.setTask p (.wake (.proc q) allSlots (.exitWake rest)))
      else some (k.setTask p (.exitWake rest))
  | .exitAbandon [] => some (k.setTask p (.sched .user))
  | .exitAbandon (q :: rest) =>
      if (k.slot q).ppid = (k.slot p).pid then
        some ((k.setSlot q fun slot => { slot with pid := 1 }).setTask p (.exitAbandon rest))
      else some (k.setTask p (.exitAbandon rest))
  | .waitScan [] => some (k.setTask p (.sleepChan (.proc p) (.waitScan allSlots)))
  | .waitScan (q :: rest) =>
      if (k.slot q).state = .ZOMBIE ∧ (k.slot q).ppid = (k.slot p).pid then
        some (k.setTask p (.waitFreeTf q))
      else some (k.setTask p (.waitScan rest))
  | .waitFreeTf q => some ((k.kfree (k.slot q).tf).setTask p (.waitFreeTable q))
  | .waitFreeTable q => some ((k.kfree (k.slot q).pagetable).setTask p (.waitUnused q))
  | .waitUnused q => some ((k.setState q .UNUSED).setTask p .user)
  | .forkScan [] => none
  | .forkScan (q :: rest) =>
      if (k.slot q).state = .UNUSED then some (k.setTask p (.forkPid q))
      else some (k.setTask p (.forkScan rest))
  | .forkPid q =>
      some { (k.setSlot q fun slot => { slot with pid := k.nextpid }).setTask p (.forkTable q) with
        nextpid := k.nextpid + 1 }
  | .forkTable q =>
      match choice with
      | .page pg => if k.free pg = true then some ((k.kalloc pg).setTask p (.forkTf q pg)) else none
      | _ => none
  | .forkTf q table =>
      match choice with
      | .page pg =>
          if k.free pg = true then
            some (((k.kalloc pg).setSlot q fun slot => { slot with tf := pg }).setTask p
              (.forkInstall q table))
          else none
      | _ => none
  | .forkInstall q table =>
      some ((k.setSlot q fun slot => { slot with pagetable := table }).setTask p (.forkParent q))
  | .forkParent q =>
      some ((k.setSlot q fun slot => { slot with ppid := (k.slot p).pid }).setTask p (.forkCopy q))
  | .forkCopy q =>
      match choice with
      -- A lower-level table or a page of the child's memory.
      | .page pg => if k.free pg = true then some (k.kalloc pg) else none
      | _ => some ((k.setTask q .user).setTask p (.forkRunnable q))
  | .forkRunnable q => some ((k.setState q .RUNNABLE).setTask p .user)

/-- Where a CPU is in its scheduler loop: the step it takes next, with the slots
the loop has still to visit. In `run` the process takes the steps. -/
inductive Phase where
  | scan (rest : List (Fin NPROC))
  | acquired (p : Fin NPROC) (rest : List (Fin NPROC))
  | test (p : Fin NPROC) (rest : List (Fin NPROC))
  | mark (p : Fin NPROC) (rest : List (Fin NPROC))
  | assign (p : Fin NPROC) (rest : List (Fin NPROC))
  | enter (p : Fin NPROC) (rest : List (Fin NPROC))
  | run (p : Fin NPROC) (rest : List (Fin NPROC))
  | back (p : Fin NPROC) (rest : List (Fin NPROC))
  | disown (p : Fin NPROC) (rest : List (Fin NPROC))
  | unlock (p : Fin NPROC) (rest : List (Fin NPROC))
deriving DecidableEq

/-- `struct spinlock`: the flag, and the CPU it was taken for. -/
structure Spinlock (κ : Type) where
  locked : Bool
  cpu : Option κ
deriving DecidableEq

/-- The machine: `κ` are the CPUs, `proc c` is `c->proc`. -/
structure Machine (κ : Type) where
  shared : Shared
  lock : Fin NPROC → Spinlock κ
  phase : κ → Phase
  proc : κ → Option (Fin NPROC)

section

variable {κ : Type} [DecidableEq κ]

namespace Machine

def setPhase (m : Machine κ) (c : κ) (phase : Phase) : Machine κ :=
  { m with phase := Function.update m.phase c phase }

def setLock (m : Machine κ) (p : Fin NPROC) (change : Spinlock κ → Spinlock κ) : Machine κ :=
  { m with lock := Function.update m.lock p (change (m.lock p)) }

def setProc (m : Machine κ) (c : κ) (p : Option (Fin NPROC)) : Machine κ :=
  { m with proc := Function.update m.proc c p }

end Machine

/-- The switch back to the scheduler, or a step of the process's own code. -/
def runStep (m : Machine κ) (c : κ) (p : Fin NPROC) (rest : List (Fin NPROC)) (choice : Choice) :
    Option (Machine κ) :=
  match m.shared.task p with
  | .sched next => some ({ m with shared := m.shared.setTask p next }.setPhase c (.back p rest))
  | _ => (taskStep m.shared p choice).map fun k => { m with shared := k }

/-- One step of a CPU. A lock that is taken makes `acquire` spin. -/
def cpuStep (m : Machine κ) (c : κ) (choice : Choice) : Option (Machine κ) :=
  match m.phase c with
  | .scan [] => some (m.setPhase c (.scan allSlots))
  | .scan (p :: rest) =>
      if (m.lock p).locked = true then none
      else some ((m.setLock p fun lk => { lk with locked := true }).setPhase c (.acquired p rest))
  | .acquired p rest =>
      some ((m.setLock p fun lk => { lk with cpu := some c }).setPhase c (.test p rest))
  | .test p rest =>
      if (m.shared.slot p).state = .RUNNABLE then some (m.setPhase c (.mark p rest))
      else some (m.setPhase c (.disown p rest))
  | .mark p rest =>
      some ({ m with shared := m.shared.setState p .RUNNING }.setPhase c (.assign p rest))
  | .assign p rest => some ((m.setProc c (some p)).setPhase c (.enter p rest))
  | .enter p rest => some (m.setPhase c (.run p rest))
  | .run p rest => runStep m c p rest choice
  | .back p rest => some ((m.setProc c none).setPhase c (.disown p rest))
  | .disown p rest =>
      some ((m.setLock p fun lk => { lk with cpu := none }).setPhase c (.unlock p rest))
  | .unlock p rest =>
      some ((m.setLock p fun lk => { lk with locked := false }).setPhase c (.scan rest))

/-- Some CPU takes a step. -/
def Step (m t : Machine κ) : Prop := ∃ c choice, cpuStep m c choice = some t

/-- Every CPU is at the head of its scheduler loop and no process lock is held.
The process table and the places of the processes are arbitrary. -/
structure AtBoot (m : Machine κ) : Prop where
  phase : ∀ c, m.phase c = .scan []
  proc : ∀ c, m.proc c = none
  lock : ∀ p, (m.lock p).locked = false

/-- The slot whose lock the CPU has taken. -/
def Phase.held : Phase → Option (Fin NPROC)
  | .scan _ => none
  | .acquired p _ | .test p _ | .mark p _ | .assign p _ | .enter p _ | .run p _ | .back p _
  | .disown p _ | .unlock p _ => some p

/-- The slot whose lock names the CPU. -/
def Phase.named : Phase → Option (Fin NPROC)
  | .scan _ | .acquired _ _ | .unlock _ _ => none
  | .test p _ | .mark p _ | .assign p _ | .enter p _ | .run p _ | .back p _ | .disown p _ => some p

/-- The process the CPU has entered and not yet left. -/
def Phase.current : Phase → Option (Fin NPROC)
  | .enter p _ | .run p _ | .back p _ => some p
  | .scan _ | .acquired _ _ | .test _ _ | .mark _ _ | .assign _ _ | .disown _ _ | .unlock _ _ => none

/-- The locks are carried by the CPUs. -/
structure Carried (m : Machine κ) : Prop where
  locked : ∀ c p, (m.phase c).held = some p → (m.lock p).locked = true
  unique : ∀ c d p, (m.phase c).held = some p → (m.phase d).held = some p → c = d
  named : ∀ c p, (m.phase c).named = some p → (m.lock p).cpu = some c
  proc : ∀ c, m.proc c = (m.phase c).current

theorem Phase.held_of_named {phase : Phase} {p : Fin NPROC} (named : phase.named = some p) :
    phase.held = some p := by
  cases phase <;> simp_all [Phase.named, Phase.held]

theorem Phase.named_of_current {phase : Phase} {p : Fin NPROC} (current : phase.current = some p) :
    phase.named = some p := by
  cases phase <;> simp_all [Phase.named, Phase.current]

omit [DecidableEq κ] in
theorem AtBoot.carried {m : Machine κ} (boot : AtBoot m) : Carried m := by
  constructor
  case proc =>
    intro c
    rw [boot.phase, boot.proc]
    rfl
  all_goals
    intro c
    rw [boot.phase]
    simp [Phase.held, Phase.named]

omit [DecidableEq κ] in
/-- Processes do not touch locks or CPUs. -/
theorem Carried.shared {m : Machine κ} (carried : Carried m) (k : Shared) :
    Carried { m with shared := k } :=
  ⟨carried.locked, carried.unique, carried.named, carried.proc⟩

/-- The CPU `c` moves to another phase and may change the lock of a slot that no
other CPU holds. -/
theorem Carried.move {m t : Machine κ} (carried : Carried m) (c : κ) (phase : Phase)
    {p : Fin NPROC} (lk : Spinlock κ) (alone : ∀ d, (m.phase d).held = some p → d = c)
    (only : ∀ q, phase.held = some q → q = p) (locked : phase.held = some p → lk.locked = true)
    (named : phase.named = some p → lk.cpu = some c)
    (lockNow : t.lock = Function.update m.lock p lk)
    (phaseNow : t.phase = Function.update m.phase c phase)
    (procNow : t.proc = Function.update m.proc c phase.current) : Carried t := by
  have elsewhere : ∀ d q, d ≠ c → (m.phase d).held = some q → q ≠ p := by
    rintro d q other held rfl
    exact other (alone d held)
  constructor
  case locked =>
    intro d q held
    rw [lockNow]
    rw [phaseNow] at held
    by_cases here : d = c
    · subst here
      rw [Function.update_self] at held
      obtain rfl := only q held
      rw [Function.update_self]
      exact locked held
    · rw [Function.update_of_ne here] at held
      rw [Function.update_of_ne (elsewhere d q here held)]
      exact carried.locked d q held
  case unique =>
    intro d e q heldD heldE
    rw [phaseNow] at heldD heldE
    by_cases hereD : d = c <;> by_cases hereE : e = c
    · rw [hereD, hereE]
    · rw [hereD, Function.update_self] at heldD
      rw [Function.update_of_ne hereE] at heldE
      exact absurd (only q heldD) (elsewhere e q hereE heldE)
    · rw [hereE, Function.update_self] at heldE
      rw [Function.update_of_ne hereD] at heldD
      exact absurd (only q heldE) (elsewhere d q hereD heldD)
    · rw [Function.update_of_ne hereD] at heldD
      rw [Function.update_of_ne hereE] at heldE
      exact carried.unique d e q heldD heldE
  case named =>
    intro d q name
    rw [lockNow]
    rw [phaseNow] at name
    by_cases here : d = c
    · subst here
      rw [Function.update_self] at name
      obtain rfl := only q (Phase.held_of_named name)
      rw [Function.update_self]
      exact named name
    · rw [Function.update_of_ne here] at name
      rw [Function.update_of_ne (elsewhere d q here (Phase.held_of_named name))]
      exact carried.named d q name
  case proc =>
    intro d
    rw [procNow, phaseNow]
    by_cases here : d = c
    · subst here
      rw [Function.update_self, Function.update_self]
    · rw [Function.update_of_ne here, Function.update_of_ne here]
      exact carried.proc d

/-- A phase with the same process needs no write to `c->proc`. -/
theorem Carried.proc_kept {m : Machine κ} (carried : Carried m) {c : κ} {phase : Phase}
    (current : phase.current = (m.phase c).current) :
    m.proc = Function.update m.proc c phase.current := by
  rw [current, ← carried.proc, Function.update_eq_self]

/-- The same without a change of a lock. -/
theorem Carried.advance {m t : Machine κ} (carried : Carried m) (c : κ) (phase : Phase)
    (held : phase.held = (m.phase c).held)
    (named : ∀ p, phase.named = some p → (m.phase c).named = some p)
    (lockNow : t.lock = m.lock) (phaseNow : t.phase = Function.update m.phase c phase)
    (procNow : t.proc = Function.update m.proc c phase.current) : Carried t := by
  cases slot : (m.phase c).held with
  | some p =>
      rw [slot] at held
      refine carried.move c phase (m.lock p) (fun d other => carried.unique d c p other slot)
        ?_ (fun _ => carried.locked c p slot) (fun name => carried.named c p (named p name))
        (by rw [lockNow, Function.update_eq_self]) phaseNow procNow
      intro q other
      exact Option.some.inj (other.symm.trans held)
  | none =>
      rw [slot] at held
      have unnamed : ∀ p, phase.named ≠ some p := by
        intro p name
        rw [Phase.held_of_named name] at held
        cases held
      constructor
      case proc =>
        intro d
        rw [procNow, phaseNow]
        by_cases here : d = c
        · subst here
          rw [Function.update_self, Function.update_self]
        · rw [Function.update_of_ne here, Function.update_of_ne here]
          exact carried.proc d
      case locked =>
        intro d q now
        rw [lockNow]
        rw [phaseNow] at now
        by_cases here : d = c
        · rw [here, Function.update_self, held] at now
          cases now
        · rw [Function.update_of_ne here] at now
          exact carried.locked d q now
      case unique =>
        intro d e q heldD heldE
        rw [phaseNow] at heldD heldE
        by_cases hereD : d = c
        · rw [hereD, Function.update_self, held] at heldD
          cases heldD
        · by_cases hereE : e = c
          · rw [hereE, Function.update_self, held] at heldE
            cases heldE
          · rw [Function.update_of_ne hereD] at heldD
            rw [Function.update_of_ne hereE] at heldE
            exact carried.unique d e q heldD heldE
      case named =>
        intro d q name
        rw [lockNow]
        rw [phaseNow] at name
        by_cases here : d = c
        · rw [here, Function.update_self] at name
          exact absurd name (unnamed q)
        · rw [Function.update_of_ne here] at name
          exact carried.named d q name

theorem Carried.runStep {m t : Machine κ} (carried : Carried m) {c : κ} {p : Fin NPROC}
    {rest : List (Fin NPROC)} {choice : Choice} (phase : m.phase c = .run p rest)
    (step : runStep m c p rest choice = some t) : Carried t := by
  unfold Smp.runStep at step
  split at step
  · cases step
    exact carried.advance c (.back p rest) (by rw [phase]; rfl)
      (fun q name => by rw [phase]; exact name) rfl rfl (carried.proc_kept (by rw [phase]; rfl))
  · obtain ⟨k, _, rfl⟩ := Option.map_eq_some_iff.mp step
    exact carried.shared k

theorem Carried.cpuStep {m t : Machine κ} (carried : Carried m) {c : κ} {choice : Choice}
    (step : cpuStep m c choice = some t) : Carried t := by
  have alone : ∀ {p}, (m.phase c).held = some p → ∀ d, (m.phase d).held = some p → d = c :=
    fun mine d other => carried.unique d c _ other mine
  unfold Smp.cpuStep at step
  cases phase : m.phase c with
  | scan rest =>
      rw [phase] at step
      cases rest with
      | nil =>
          cases step
          exact carried.advance c (.scan allSlots) (by rw [phase]; rfl)
            (fun _ name => by cases name) rfl rfl (carried.proc_kept (by rw [phase]; rfl))
      | cons p rest =>
          simp only at step
          split at step
          · cases step
          · rename_i unlocked
            cases step
            refine carried.move c (.acquired p rest)
              ({ m.lock p with locked := true }) ?_
              (fun q held => (Option.some.inj held).symm) (fun _ => rfl)
              (fun name => by cases name) rfl rfl (carried.proc_kept (by rw [phase]; rfl))
            intro d other
            exact absurd (carried.locked d p other) unlocked
  | acquired p rest =>
      rw [phase] at step
      cases step
      exact carried.move c (.test p rest)
        ({ m.lock p with cpu := some c }) (alone (by rw [phase]; rfl))
        (fun q held => (Option.some.inj held).symm)
        (fun _ => carried.locked c p (by rw [phase]; rfl)) (fun _ => rfl) rfl rfl (carried.proc_kept (by rw [phase]; rfl))
  | test p rest =>
      rw [phase] at step
      simp only at step
      split at step
      · cases step
        exact carried.advance c (.mark p rest) (by rw [phase]; rfl)
          (fun _ name => by rw [phase]; exact name) rfl rfl (carried.proc_kept (by rw [phase]; rfl))
      · cases step
        exact carried.advance c (.disown p rest) (by rw [phase]; rfl)
          (fun _ name => by rw [phase]; exact name) rfl rfl (carried.proc_kept (by rw [phase]; rfl))
  | mark p rest =>
      rw [phase] at step
      cases step
      exact carried.advance c (.assign p rest) (by rw [phase]; rfl)
        (fun _ name => by rw [phase]; exact name) rfl rfl (carried.proc_kept (by rw [phase]; rfl))
  | assign p rest =>
      rw [phase] at step
      cases step
      exact carried.advance c (.enter p rest) (by rw [phase]; rfl)
        (fun _ name => by rw [phase]; exact name) rfl rfl rfl
  | enter p rest =>
      rw [phase] at step
      cases step
      exact carried.advance c (.run p rest) (by rw [phase]; rfl)
        (fun _ name => by rw [phase]; exact name) rfl rfl (carried.proc_kept (by rw [phase]; rfl))
  | run p rest =>
      rw [phase] at step
      exact carried.runStep phase step
  | back p rest =>
      rw [phase] at step
      cases step
      exact carried.advance c (.disown p rest) (by rw [phase]; rfl)
        (fun _ name => by rw [phase]; exact name) rfl rfl rfl
  | disown p rest =>
      rw [phase] at step
      cases step
      exact carried.move c (.unlock p rest)
        ({ m.lock p with cpu := none }) (alone (by rw [phase]; rfl))
        (fun q held => (Option.some.inj held).symm)
        (fun _ => carried.locked c p (by rw [phase]; rfl)) (fun name => by cases name) rfl rfl (carried.proc_kept (by rw [phase]; rfl))
  | unlock p rest =>
      rw [phase] at step
      cases step
      exact carried.move c (.scan rest)
        ({ m.lock p with locked := false }) (alone (by rw [phase]; rfl))
        (fun q held => by cases held) (fun held => by cases held) (fun name => by cases name)
        rfl rfl (carried.proc_kept (by rw [phase]; rfl))

/-- Every state that any interleaving of the CPUs reaches. -/
theorem reached_carried {n : Nat} {m : Machine κ} (run : ReachIn AtBoot Step n m) : Carried m := by
  apply run.invariant
  · intro m boot
    exact boot.carried
  · rintro m t carried ⟨c, choice, step⟩
    exact carried.cpuStep step

/-- For any number of CPUs and every interleaving, no two CPUs have entered the
same process, and the lock of a process that a CPU has entered is held for this
CPU. -/
theorem runs_on_one_cpu {n : Nat} {m : Machine κ} (run : ReachIn AtBoot Step n m) :
    (∀ c d p, m.proc c = some p → m.proc d = some p → c = d) ∧
    ∀ c p, m.proc c = some p → (m.lock p).locked = true ∧ (m.lock p).cpu = some c := by
  have carried := reached_carried run
  have named : ∀ c p, m.proc c = some p → (m.phase c).named = some p := by
    intro c p current
    rw [carried.proc] at current
    exact Phase.named_of_current current
  constructor
  · intro c d p left right
    exact carried.unique c d p (Phase.held_of_named (named c p left))
      (Phase.held_of_named (named d p right))
  · intro c p current
    exact ⟨carried.locked c p (Phase.held_of_named (named c p current)),
      carried.named c p (named c p current)⟩

/-- The state after a list of steps, when each of them can be taken and passes the
check. -/
def follow (check : Machine κ → κ → Choice → Bool) (m : Machine κ) :
    List (κ × Choice) → Option (Machine κ)
  | [] => some m
  | (c, choice) :: rest =>
      if check m c choice = true then (cpuStep m c choice).bind fun t => follow check t rest
      else none

/-- The state after steps that can all be taken. -/
def followed (check : Machine κ → κ → Choice → Bool) (m : Machine κ)
    (moves : List (κ × Choice)) : Machine κ := (follow check m moves).getD m

theorem follow_reach {initial : Machine κ → Prop} {step : Machine κ → Machine κ → Prop}
    {check : Machine κ → κ → Choice → Bool}
    (checked : ∀ m c choice t, check m c choice = true → cpuStep m c choice = some t → step m t)
    {n : Nat} {m t : Machine κ} {moves : List (κ × Choice)} (run : ReachIn initial step n m)
    (steps : follow check m moves = some t) : ReachIn initial step (n + moves.length) t := by
  induction moves generalizing n m with
  | nil =>
      cases steps
      exact run
  | cons move rest ih =>
      simp only [follow] at steps
      split at steps
      · rename_i passes
        obtain ⟨u, taken, steps⟩ := Option.bind_eq_some_iff.mp steps
        have further := ih (ReachIn.next run (checked m move.1 move.2 u passes taken)) steps
        rwa [List.length_cons, Nat.add_comm rest.length, ← Nat.add_assoc]
      · cases steps

theorem followed_reach {initial : Machine κ → Prop} {step : Machine κ → Machine κ → Prop}
    {check : Machine κ → κ → Choice → Bool}
    (checked : ∀ m c choice t, check m c choice = true → cpuStep m c choice = some t → step m t)
    {m : Machine κ} {moves : List (κ × Choice)} (first : initial m)
    (taken : (follow check m moves).isSome = true) :
    ReachIn initial step (0 + moves.length) (followed check m moves) := by
  obtain ⟨t, steps⟩ := Option.isSome_iff_exists.mp taken
  have last : followed check m moves = t := by rw [followed, steps, Option.getD_some]
  rw [last]
  exact follow_reach checked (ReachIn.start first) steps

end

/-- A parent in slot 0, its child in slot 1 and a third process in slot 2, all
runnable, on two CPUs. -/
def threeProcs : Machine (Fin 2) where
  shared :=
    { slot := fun p =>
        if p.val < 3 then
          ⟨.RUNNABLE, none, UInt32.ofNat (p.val + 1), if p.val = 0 then 0 else 1,
            0x100000 + 0x2000 * p.val, 0x101000 + 0x2000 * p.val⟩
        else ⟨.UNUSED, none, 0, 0, 0, 0⟩
      task := fun _ => .user
      free := fun pg => decide (0x110000 ≤ pg ∧ pg % 0x1000 = 0)
      pipes := fun _ => false
      nextpid := 4 }
  lock := fun _ => ⟨false, none⟩
  phase := fun _ => .scan []
  proc := fun _ => none

theorem threeProcs_boot : AtBoot threeProcs := ⟨fun _ => rfl, fun _ => rfl, fun _ => rfl⟩

/-- The steps by which a CPU that is at the head of its loop enters slot 0. -/
def enterFirst (c : Fin 2) : List (Fin 2 × Choice) := List.replicate 7 (c, .go)

/-- The first CPU has entered the parent and holds its lock. -/
theorem runs_on_one_cpu_three :
    (followed (fun _ _ _ => true) threeProcs (enterFirst 0)).proc 0 = some 0 ∧
      ((followed (fun _ _ _ => true) threeProcs (enterFirst 0)).lock 0).locked = true ∧
      ((followed (fun _ _ _ => true) threeProcs (enterFirst 0)).lock 0).cpu = some 0 :=
  ⟨by decide +kernel,
    (runs_on_one_cpu (followed_reach (fun _ c choice _ _ taken => ⟨c, choice, taken⟩)
      threeProcs_boot (by decide +kernel))).2 0 0 (by decide +kernel)⟩

end Gcgos.Smp
