import Gcgos.Kernel.Calls
import Gcgos.Kernel.Pages
import Gcgos.Lib.Run

/-!
# Wakeups between `proc_exit` and `proc_wait`

A parent in `proc_wait` scans the process table and then sleeps on its own slot;
a process in `proc_exit` becomes a zombie and then wakes its parent. Nothing keeps
the four steps of two CPUs apart. A wakeup that falls between the parent's scan
and its sleep is lost, and no other one is.
-/

set_option autoImplicit false

namespace Gcgos.Smp

open Act Kernel

/-- Where the parent is: not in `proc_wait`, about to scan, about to sleep after a
scan that found nothing, or switched away by `sleep`. -/
inductive ParentAt where
  | outside
  | scanning
  | decided
  | asleep
deriving DecidableEq

/-- The kernel, the place of the parent, and which exiting processes have executed
their `wakeup`. -/
structure Race where
  kernel : State
  parent : ParentAt
  woke : Fin NPROC → Bool

/-- The steps of the parent in slot `w`, of the processes that exit, and of
whatever else moves a process among its living states. -/
inductive RaceMove (link : Link) (w : Fin NPROC) : Race → Race → Prop where
  | wait {s : Race} (idle : s.parent = .outside) : RaceMove link w s { s with parent := .scanning }
  | scanFound {s : Race} {pid r : Int} {t : State} (place : s.parent = .scanning)
      (returned : procWait link w pid s.kernel = .ok (r, t)) :
      RaceMove link w s { s with kernel := t, parent := .outside }
  | scanNone {s : Race} (place : s.parent = .scanning) (none : zombieChild s.kernel w = none) :
      RaceMove link w s { s with parent := .decided }
  | sleep {s : Race} (place : s.parent = .decided) :
      RaceMove link w s
        { s with
          kernel := s.kernel.setProc w
            { s.kernel.proc w with chan := some (.proc w), state := .SLEEPING }
          parent := .asleep }
  | resume {s : Race} (place : s.parent = .asleep)
      (runnable : (s.kernel.proc w).state = .RUNNABLE) :
      RaceMove link w s
        { s with
          kernel := s.kernel.setProc w { s.kernel.proc w with chan := none, state := .RUNNING }
          parent := .scanning }
  | zombie {s : Race} {q : Fin NPROC} (other : q ≠ w) (lives : (s.kernel.proc q).Alive) :
      RaceMove link w s
        { s with
          kernel := s.kernel.setProc q { s.kernel.proc q with state := .ZOMBIE }
          woke := Function.update s.woke q false }
  | wakeup {s : Race} {q : Fin NPROC} {t : State} (dead : (s.kernel.proc q).state = .ZOMBIE)
      (early : s.woke q = false)
      (returned : wakeParents (s.kernel.proc q).ppid (List.finRange NPROC) s.kernel = .ok ((), t)) :
      RaceMove link w s { s with kernel := t, woke := Function.update s.woke q true }
  | kill {s : Race} {pid : UInt32} {r : Int} {t : State}
      (returned : procKill pid s.kernel = .ok (r, t)) :
      RaceMove link w s { s with kernel := t }
  | stir {s : Race} {q : Fin NPROC} {st : ProcState} {chan : Option Chan} (other : q ≠ w)
      (lives : (s.kernel.proc q).Alive) (stays : st ≠ .UNUSED ∧ st ≠ .ZOMBIE) :
      RaceMove link w s
        { s with kernel := s.kernel.setProc q { s.kernel.proc q with state := st, chan := chan } }

/-- A child of the process in slot `w`. -/
def IsChild (s : State) (w q : Fin NPROC) : Prop := (s.proc q).ppid = (s.proc w).pid

/-- The parent sleeps on its own slot. -/
def SleepsOnSelf (s : State) (w : Fin NPROC) : Prop :=
  (s.proc w).state = .SLEEPING ∧ (s.proc w).chan = some (.proc w)

/-- A child is a zombie that has executed its `wakeup`. -/
def Spent (w : Fin NPROC) (s : Race) : Prop :=
  ∃ q, (s.kernel.proc q).state = .ZOMBIE ∧ IsChild s.kernel w q ∧ s.woke q = true

/-- The parent sleeps, and a child is a zombie that will not wake it any more. -/
def LostWakeup (w : Fin NPROC) (s : Race) : Prop := SleepsOnSelf s.kernel w ∧ Spent w s

/-- No child executes its `wakeup` between the parent's scan and its sleep. -/
def NotBetween (w : Fin NPROC) (s t : Race) : Prop :=
  ∀ q, IsChild s.kernel w q → s.woke q = false → t.woke q = true → s.parent ≠ .decided

/-- The parent is outside `proc_wait` and awake. -/
def RaceStart (w : Fin NPROC) (s : Race) : Prop :=
  s.parent = .outside ∧ (s.kernel.proc w).state ≠ .SLEEPING

section

variable {w : Fin NPROC}

/-- `wakeup` of its own slot reaches the parent. -/
theorem wakeParents_wakes {ppid : UInt32} (slots : List (Fin NPROC)) {s : State}
    (pid : (s.proc w).pid = ppid) (sleeps : SleepsOnSelf s w) (member : w ∈ slots) :
    Ensures (wakeParents ppid slots) s fun _ t => (t.proc w).state = .RUNNABLE := by
  induction slots generalizing s with
  | nil => cases member
  | cons p rest ih =>
      unfold wakeParents
      by_cases here : p = w
      · subst here
        refine Ensures.seq (m := fun _ t => (t.proc p).state = .RUNNABLE) ?_ ?_
        · unfold wakeParent
          refine Ensures.step rfl ?_
          rw [if_pos pid]
          apply Ensures.modify
          simp [Proc.wake, sleeps.1, sleeps.2]
        · intro _ t awake
          refine (wakeParents_calm ppid rest t).mono ?_
          intro _ u calm
          rcases calm.proc p with same | ⟨asleep, _⟩
          · rw [same]
            exact awake
          · rw [awake] at asleep
            cases asleep
      · refine Ensures.seq (m := fun _ t => t.proc w = s.proc w) ?_ ?_
        · unfold wakeParent
          refine Ensures.step rfl ?_
          apply Ensures.ite
          · intro _
            apply Ensures.modify
            have different : some (Chan.proc w) ≠ some (Chan.proc p) := by
              simpa using Ne.symm here
            simp [Proc.wake, sleeps.2, different]
          · intro _
            exact Ensures.pure rfl
        · intro _ t same
          apply ih
          · rw [same]
            exact pid
          · unfold SleepsOnSelf
            rw [same]
            exact sleeps
          · exact (List.mem_cons.mp member).resolve_left (Ne.symm here)

/-- The parent has decided to sleep, or sleeps. -/
def Committed (w : Fin NPROC) (s : Race) : Prop :=
  s.parent = .decided ∨ SleepsOnSelf s.kernel w

/-- What wakes processes does not put the parent to sleep. -/
theorem SleepsOnSelf.of_calm {s t : State} (calm : Calm s t) (sleeps : SleepsOnSelf t w) :
    SleepsOnSelf s w := by
  rcases calm.proc w with same | ⟨_, woken⟩
  · unfold SleepsOnSelf at sleeps ⊢
    rw [same] at sleeps
    exact sleeps
  · have state := sleeps.1
    rw [woken] at state
    cases state

theorem isChild_of_calm {s t : State} (calm : Calm s t) {q : Fin NPROC} (child : IsChild t w q) :
    IsChild s w q := by
  unfold IsChild at child ⊢
  rw [(calm.proc q).ppid, (calm.proc w).pid] at child
  exact child

/-- A change of one process other than the parent that does not make a zombie. -/
theorem Spent.of_setProc {s : Race} {q : Fin NPROC} {proc : Proc} {place : ParentAt}
    (spent : Spent w ⟨s.kernel.setProc q proc, place, s.woke⟩)
    (ppid : proc.ppid = (s.kernel.proc q).ppid) (pid : proc.pid = (s.kernel.proc q).pid)
    (state : proc.state = .ZOMBIE → (s.kernel.proc q).state = .ZOMBIE) : Spent w s := by
  obtain ⟨x, dead, child, woke⟩ := spent
  refine ⟨x, ?_, ?_, woke⟩
  · by_cases here : x = q
    · subst here
      simp only [State.setProc, Function.update_self] at dead
      exact state dead
    · simpa [State.setProc, here] using dead
  · unfold IsChild at child ⊢
    have samePid : ((s.kernel.setProc q proc).proc w).pid = (s.kernel.proc w).pid := by
      by_cases here : w = q
      · subst here
        simp [State.setProc, pid]
      · simp [State.setProc, here]
    have samePpid : ((s.kernel.setProc q proc).proc x).ppid = (s.kernel.proc x).ppid := by
      by_cases here : x = q
      · subst here
        simp [State.setProc, ppid]
      · simp [State.setProc, here]
    rw [← samePid, ← samePpid]
    exact child

theorem SleepsOnSelf.of_setProc {s : State} {q : Fin NPROC} {proc : Proc} (other : q ≠ w)
    (sleeps : SleepsOnSelf (s.setProc q proc) w) : SleepsOnSelf s w := by
  simpa [SleepsOnSelf, State.setProc, Ne.symm other] using sleeps

theorem zombieChild_none {s : State} (none : zombieChild s w = none) (q : Fin NPROC)
    (dead : (s.proc q).state = .ZOMBIE) : ¬IsChild s w q := by
  intro child
  have miss := List.find?_eq_none.mp none q (List.mem_finRange q)
  simp [dead, IsChild] at miss child
  exact miss child

/-- One step: as long as no child's wakeup falls between the scan and the sleep, a
parent that is committed to sleep has no zombie child whose wakeup is spent. -/
theorem committed_step {link : Link} {s t : Race} (before : Committed w s → ¬Spent w s)
    (between : NotBetween w s t) (move : RaceMove link w s t) : Committed w t → ¬Spent w t := by
  intro committed spent
  cases move with
  | wait idle =>
      rcases committed with decided | sleeps
      · cases decided
      · exact before (Or.inr sleeps) spent
  | @scanFound pid r u place returned =>
      obtain ⟨z, mm, dead, child, rfl⟩ := procWait_ensures w pid s.kernel r u returned
      have notParent : SleepsOnSelf s.kernel w := by
        rcases committed with decided | sleeps
        · cases decided
        · by_cases here : w = z
          · subst here
            have state := sleeps.1
            simp at state
          · simpa [SleepsOnSelf, here] using sleeps
      refine before (Or.inr notParent) ?_
      obtain ⟨x, deadX, childX, woke⟩ := spent
      have other : x ≠ z := by
        rintro rfl
        simp at deadX
      refine ⟨x, by simpa [other] using deadX, ?_, woke⟩
      unfold IsChild at childX ⊢
      have samePid : (Function.update s.kernel.proc z
          { s.kernel.proc z with state := .UNUSED } w).pid = (s.kernel.proc w).pid := by
        by_cases here : w = z
        · subst here
          simp
        · simp [here]
      rw [← samePid]
      simpa [other] using childX
  | scanNone place none =>
      obtain ⟨q, dead, child, _⟩ := spent
      exact zombieChild_none none q dead child
  | sleep place =>
      refine before (Or.inl place) ?_
      exact spent.of_setProc rfl rfl fun dead => by cases dead
  | resume place runnable =>
      rcases committed with decided | sleeps
      · cases decided
      · have state := sleeps.1
        simp [State.setProc] at state
  | @zombie q other lives =>
      have still : Committed w s := by
        rcases committed with decided | sleeps
        · exact Or.inl decided
        · exact Or.inr (sleeps.of_setProc other)
      obtain ⟨x, dead, child, woke⟩ := spent
      have old : x ≠ q := by
        rintro rfl
        simp at woke
      refine before still ⟨x, ?_, ?_, ?_⟩
      · simpa [State.setProc, old] using dead
      · simpa [IsChild, State.setProc, old, Ne.symm other] using child
      · simpa [old] using woke
  | @wakeup q u dead early returned =>
      have calm := wakeParents_calm _ _ s.kernel () u returned
      have still : Committed w s := by
        rcases committed with decided | sleeps
        · exact Or.inl decided
        · exact Or.inr (sleeps.of_calm calm)
      obtain ⟨x, deadNow, child, woke⟩ := spent
      have childBefore := isChild_of_calm calm child
      by_cases here : x = q
      · subst here
        -- The wakeup of this child reaches a sleeping parent.
        have undecided := between x childBefore early woke
        rcases committed with decided | sleeps
        · exact undecided decided
        · have awake : (u.proc w).state = .RUNNABLE := wakeParents_wakes _ childBefore.symm
            (sleeps.of_calm calm) (List.mem_finRange w) () u returned
          have state : (u.proc w).state = .SLEEPING := sleeps.1
          rw [state] at awake
          cases awake
      · refine before still ⟨x, (calm.proc x).zombie.mp deadNow, childBefore, ?_⟩
        simpa [here] using woke
  | @kill pid r u returned =>
      rcases procKill_ensures pid s.kernel r u returned with rfl | ⟨p, rfl⟩
      · exact before committed spent
      · have still : Committed w s := by
          rcases committed with decided | sleeps
          · exact Or.inl decided
          · by_cases here : p = w
            · subst here
              have state := sleeps.1
              simp only [State.setProc, Function.update_self, Proc.kill] at state
              split at state
              · cases state
              · contradiction
            · exact Or.inr (sleeps.of_setProc here)
        refine before still (spent.of_setProc rfl rfl ?_)
        simp only [Proc.kill]
        split
        · intro dead
          cases dead
        · exact id
  | @stir q st chan other lives stays =>
      have still : Committed w s := by
        rcases committed with decided | sleeps
        · exact Or.inl decided
        · exact Or.inr (sleeps.of_setProc other)
      exact before still (spent.of_setProc rfl rfl fun dead => absurd dead stays.2)

end

/-- In every run in which no child executes its wakeup between the parent's scan
and its sleep, the parent never sleeps while a zombie child has executed its
wakeup. -/
theorem no_wakeup_lost {link : Link} {w : Fin NPROC} {n : Nat} {s : Race}
    (run : ReachIn (RaceStart w) (fun s t => RaceMove link w s t ∧ NotBetween w s t) n s) :
    ¬LostWakeup w s := by
  have free : Committed w s → ¬Spent w s := by
    refine run.invariant (h := fun s => Committed w s → ¬Spent w s) ?_ ?_
    · rintro s ⟨outside, awake⟩ (decided | sleeps)
      · rw [outside] at decided
        cases decided
      · exact absurd sleeps.1 awake
    · rintro s t before ⟨move, between⟩
      exact committed_step before between move
  rintro ⟨sleeps, spent⟩
  exact free (Or.inr sleeps) spent

/-- A parent and its child, both running. -/
def parentAndChild (w q : Fin NPROC) : Race where
  kernel :=
    (((State.loaded (Fs.State.loaded fun _ => Fs.Block.zero) ⟨fun _ => 0, 0⟩).setProc w
      { Proc.zero with pid := 1, state := .RUNNING }).setProc q
      { Proc.zero with pid := 2, ppid := 1, state := .RUNNING })
  parent := .outside
  woke := fun _ => false

/-- The child has become a zombie. -/
def childDead (w q : Fin NPROC) : State :=
  (parentAndChild w q).kernel.setProc q
    { (parentAndChild w q).kernel.proc q with state := .ZOMBIE }

/-- The parent has found nothing and sleeps. -/
def parentAsleep (w q : Fin NPROC) : State :=
  (parentAndChild w q).kernel.setProc w
    { (parentAndChild w q).kernel.proc w with chan := some (.proc w), state := .SLEEPING }

/-- Behind the parent's back, the child has become a zombie. -/
def childDeadLater (w q : Fin NPROC) : State :=
  (parentAsleep w q).setProc q { (parentAsleep w q).proc q with state := .ZOMBIE }

def wokenLater (w q : Fin NPROC) : State :=
  (wakeParents ((childDeadLater w q).proc q).ppid (List.finRange NPROC)).after (childDeadLater w q)

/-- A step at which no process executes its `wakeup`. -/
theorem notBetween_quiet {w : Fin NPROC} {s t : Race} (quiet : ∀ q, t.woke q = true → s.woke q = true) :
    NotBetween w s t := by
  intro q _ early later
  rw [quiet q later] at early
  cases early

/-- The parent scans and sleeps, the child becomes a zombie and wakes it, and the
parent goes on to its next scan. -/
theorem no_wakeup_lost_small :
    ∃ s, ReachIn (RaceStart 0)
        (fun s t => RaceMove smallLink 0 s t ∧ NotBetween 0 s t) 6 s ∧
      s.parent = .scanning ∧ (s.kernel.proc 0).state = .RUNNING ∧ s.woke 1 = true ∧
        ¬LostWakeup 0 s := by
  obtain ⟨_, returned⟩ := returns_after
    (wakeParents ((childDeadLater 0 1).proc 1).ppid (List.finRange NPROC)) (childDeadLater 0 1)
    (by decide +kernel)
  have awake : ((wokenLater 0 1).proc 0).state = .RUNNABLE := by decide +kernel
  have asleep : ReachIn (RaceStart 0) (fun s t => RaceMove smallLink 0 s t ∧ NotBetween 0 s t) 3
      ⟨parentAsleep 0 1, .asleep, fun _ => false⟩ :=
    .next (.next (.next (.start (s := parentAndChild 0 1) ⟨rfl, by decide⟩)
      ⟨.wait rfl, notBetween_quiet fun _ woke => woke⟩)
      ⟨.scanNone rfl (by decide +kernel), notBetween_quiet fun _ woke => woke⟩)
      ⟨.sleep rfl, notBetween_quiet fun _ woke => woke⟩
  have dead := asleep.next ⟨.zombie (q := 1) (by decide) (by decide), notBetween_quiet fun q woke => by
    simp at woke⟩
  have woken := dead.next ⟨.wakeup (q := 1) rfl (by simp) returned, fun q _ _ _ => by decide⟩
  have resumed := woken.next ⟨.resume rfl awake, notBetween_quiet fun _ woke => woke⟩
  exact ⟨_, resumed, rfl, by simp [State.setProc], by simp, no_wakeup_lost resumed⟩

/-- A wakeup between the scan and the sleep is lost, whoever else runs. -/
theorem lost_of_between {w q : Fin NPROC} {s : Race} {t : State} (other : q ≠ w)
    (dead : (s.kernel.proc q).state = .ZOMBIE) (child : IsChild s.kernel w q)
    (returned : wakeParents (s.kernel.proc q).ppid (List.finRange NPROC) s.kernel = .ok ((), t)) :
    LostWakeup w
      { kernel := t.setProc w { t.proc w with chan := some (.proc w), state := .SLEEPING }
        parent := .asleep
        woke := Function.update s.woke q true } := by
  have calm := wakeParents_calm _ _ s.kernel () t returned
  refine ⟨⟨by simp [State.setProc], by simp [State.setProc]⟩, q, ?_, ?_, by simp⟩
  · simp only [State.setProc, Function.update_of_ne other]
    exact (calm.proc q).zombie.mpr dead
  · simp only [IsChild, State.setProc, Function.update_of_ne other, Function.update_self]
    rw [(calm.proc q).ppid, (calm.proc w).pid]
    exact child

/-- The parent scans, the child becomes a zombie and executes its wakeup, and the
parent goes to sleep. -/
theorem wakeup_lost_between_scan_and_sleep :
    ∃ s, ReachIn (RaceStart 0) (RaceMove smallLink 0) 5 s ∧ LostWakeup 0 s := by
  obtain ⟨_, returned⟩ := returns_after
    (wakeParents ((childDead 0 1).proc 1).ppid (List.finRange NPROC)) (childDead 0 1) (by decide +kernel)
  have scanned : ReachIn (RaceStart 0) (RaceMove smallLink 0) 2
      ⟨(parentAndChild 0 1).kernel, .decided, fun _ => false⟩ :=
    ReachIn.next (ReachIn.next (ReachIn.start (s := parentAndChild 0 1) ⟨rfl, by decide⟩) (.wait rfl))
      (.scanNone rfl (by decide +kernel))
  have dead := ReachIn.next scanned (.zombie (q := 1) (by decide) (by decide))
  have woken := ReachIn.next dead (.wakeup (q := 1) rfl (by simp) returned)
  exact ⟨_, ReachIn.next woken (.sleep rfl),
    lost_of_between (by decide) (by decide +kernel) rfl returned⟩

end Gcgos.Smp
