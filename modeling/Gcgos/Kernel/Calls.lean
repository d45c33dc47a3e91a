import Gcgos.Kernel.Syscall

/-!
# What the calls do to the process and descriptor tables

One fact for each operation of `kernel/proc.c` and `kernel/fd.c`. Everything
that happens in memory and in the file system is calm: it wakes sleeping
processes and leaves the two tables otherwise alone.
-/

set_option autoImplicit false

namespace Gcgos.Kernel

open Act ByteMap

/-- The process is as before, or was asleep and has been woken. -/
def Proc.Stirred (before after : Proc) : Prop :=
  after = before ∨ (before.state = .SLEEPING ∧ after = { before with state := .RUNNABLE })

/-- Processes may have been woken, and memory and files may have changed. -/
structure Calm (s t : State) : Prop where
  proc : ∀ p, (s.proc p).Stirred (t.proc p)
  nextpid : t.nextpid = s.nextpid
  fds : t.fds = s.fds

theorem Proc.Stirred.trans {first second third : Proc} (left : first.Stirred second)
    (right : second.Stirred third) : first.Stirred third := by
  rcases left with rfl | ⟨asleep, rfl⟩
  · exact right
  · rcases right with rfl | ⟨awake, _⟩
    · exact Or.inr ⟨asleep, rfl⟩
    · cases awake

theorem Calm.refl (s : State) : Calm s s := ⟨fun _ => Or.inl rfl, rfl, rfl⟩

theorem Calm.trans {s t u : State} (left : Calm s t) (right : Calm t u) : Calm s u :=
  ⟨fun p => (left.proc p).trans (right.proc p), right.nextpid.trans left.nextpid,
    right.fds.trans left.fds⟩

theorem Proc.Stirred.pid {before after : Proc} (stirred : before.Stirred after) :
    after.pid = before.pid := by
  rcases stirred with rfl | ⟨_, rfl⟩ <;> rfl

theorem Proc.Stirred.ppid {before after : Proc} (stirred : before.Stirred after) :
    after.ppid = before.ppid := by
  rcases stirred with rfl | ⟨_, rfl⟩ <;> rfl

theorem Proc.Stirred.fds {before after : Proc} (stirred : before.Stirred after) :
    after.fds = before.fds := by
  rcases stirred with rfl | ⟨_, rfl⟩ <;> rfl

theorem Proc.Stirred.unused {before after : Proc} (stirred : before.Stirred after) :
    after.state = .UNUSED ↔ before.state = .UNUSED := by
  rcases stirred with rfl | ⟨asleep, rfl⟩
  · rfl
  · simp [asleep]

theorem Proc.Stirred.zombie {before after : Proc} (stirred : before.Stirred after) :
    after.state = .ZOMBIE ↔ before.state = .ZOMBIE := by
  rcases stirred with rfl | ⟨asleep, rfl⟩
  · rfl
  · simp [asleep]

theorem Proc.wake_stirred (chan : Chan) (p : Proc) : p.Stirred (p.wake chan) := by
  unfold Proc.wake
  split
  · rename_i asleep
    exact Or.inr ⟨asleep.1, rfl⟩
  · exact Or.inl rfl

theorem Proc.wakes_stirred (chans : List Chan) (p : Proc) :
    p.Stirred (chans.foldl (fun proc chan => proc.wake chan) p) := by
  induction chans generalizing p with
  | nil => exact Or.inl rfl
  | cons chan rest ih => exact (p.wake_stirred chan).trans (ih _)

theorem onMm_ensures {α : Type} (inner : Act Fault Mm α) (s : State) :
    Ensures (onMm inner) s fun _ t => ∃ mm, t = { s with mm := mm } := by
  apply Ensures.zoom
  intro value mm _
  exact ⟨mm, rfl⟩

theorem onMm_calm {α : Type} (inner : Act Fault Mm α) (s : State) :
    Ensures (onMm inner) s fun _ t => Calm s t := by
  refine (onMm_ensures inner s).mono ?_
  rintro _ t ⟨mm, rfl⟩
  exact ⟨fun _ => Or.inl rfl, rfl, rfl⟩

theorem wakeup_calm (chan : Chan) (s : State) :
    Ensures (wakeup chan) s fun _ t => Calm s t :=
  Ensures.modify ⟨fun p => (s.proc p).wake_stirred chan, rfl, rfl⟩

/-- What a file-system operation establishes, it establishes for the file
system of the whole; its pending wakeups are then carried out. -/
theorem onFs_ensures {α : Type} {inner : Act Fault Fs.State α} {s : State}
    {p : α → Fs.State → Prop} (met : Ensures inner s.fs p) :
    Ensures (onFs inner) s fun value t => Calm s t ∧ t.mm = s.mm ∧
      ∃ fs, p value fs ∧ t.fs = { fs with wakeups := [] } := by
  unfold onFs
  refine Ensures.seq (m := fun value t => ∃ fs, p value fs ∧ t = { s with fs := fs }) ?_ ?_
  · apply Ensures.zoom
    intro value fs returned
    exact ⟨fs, met value fs returned, rfl⟩
  · rintro value t ⟨fs, held, rfl⟩
    refine Ensures.step rfl ?_
    apply Ensures.pure
    exact ⟨⟨fun q => Proc.wakes_stirred _ _, rfl, rfl⟩, rfl, fs, held, rfl⟩

theorem onFs_run {α : Type} {inner : Act Fault Fs.State α} {s : State} {fs : Fs.State} {value : α}
    (ran : inner s.fs = .ok (value, fs)) : ∃ t, onFs inner s = .ok (value, t) := by
  unfold onFs
  rw [Act.bind_of_ok (Act.zoom_of_ok ran), Act.bind_of_ok (f := drainWakeups) rfl]
  exact ⟨_, rfl⟩

theorem onFs_yields {α : Type} {inner : Act Fault Fs.State α} {s : State}
    {p : α → Fs.State → Prop} (met : Yields inner s.fs p) :
    Yields (onFs inner) s fun value t => Calm s t ∧ t.mm = s.mm ∧
      ∃ fs, p value fs ∧ t.fs = { fs with wakeups := [] } := by
  have ensures := onFs_ensures met.ensures
  obtain ⟨value, fs, run, -⟩ := met
  obtain ⟨t, ran⟩ := onFs_run run
  exact ⟨value, t, ran, ensures value t ran⟩

theorem onFs_calm {α : Type} (inner : Act Fault Fs.State α) (s : State) :
    Ensures (onFs inner) s fun _ t => Calm s t :=
  Ensures.mono (onFs_ensures (p := fun _ _ => True) fun _ _ _ => trivial) fun _ _ done => done.1

section

variable {link : Link}

theorem pipeClose_calm (page : Nat) (writeable : Bool) (s : State) :
    Ensures (pipeClose link page writeable) s fun _ t => Calm s t := by
  unfold pipeClose
  refine Ensures.seq (onMm_calm _ s) ?_
  intro _ t stored
  refine Ensures.seq (wakeup_calm _ t) ?_
  intro _ u woken
  exact (onMm_calm _ u).mono fun _ _ freed => (stored.trans woken).trans freed

theorem fdLast_calm (fd : Fd) (s : State) :
    Ensures (fdLast link fd) s fun _ t => Calm s t := by
  unfold fdLast fdRelease
  apply Ensures.ite
  · intro _
    cases fd.type with
    | FD_PIPE => exact pipeClose_calm _ _ s
    | FD_FILE =>
        cases fd.ip with
        | some ip => exact onFs_calm _ s
        | none => exact Ensures.fail
    | FD_CLOSE => exact Ensures.pure (Calm.refl s)
    | FD_NONE => exact Ensures.pure (Calm.refl s)
  · intro _
    exact Ensures.pure (Calm.refl s)

/-- An entry after `fd_close`. -/
def Fd.closed (fd : Fd) : Fd := { fd with ref := fd.ref - 1, type := .FD_CLOSE }

theorem fdClose_ensures (e : Fin NFD) (s : State) :
    Ensures (fdClose link e) s fun _ t => Calm (s.setFd e (s.fds e).closed) t := by
  unfold fdClose
  refine Ensures.step rfl ?_
  refine Ensures.step rfl ?_
  refine Ensures.seq (fdLast_calm _ _) ?_
  intro _ t released
  apply Ensures.modify
  refine ⟨released.proc, released.nextpid, ?_⟩
  change Function.update t.fds e _ = Function.update s.fds e _
  rw [released.fds]
  simp [State.setFd, Fd.closed]

theorem unusedSlot_some {s : State} {p : Fin NPROC} (found : unusedSlot s = some p) :
    (s.proc p).state = .UNUSED := by
  have hit := List.find?_some found
  simpa using hit

/-- A slot that was unused has a new pid, table and trapframe. -/
structure Allocated (s t : State) (np : Fin NPROC) : Prop where
  unused : (s.proc np).state = .UNUSED
  proc : ∃ pagetable tf, t.proc = Function.update s.proc np
    { s.proc np with pid := s.nextpid, tf := tf, pagetable := pagetable }
  nextpid : t.nextpid = s.nextpid + 1
  fds : t.fds = s.fds
  fs : t.fs = s.fs

theorem allocproc_ensures (s : State) :
    Ensures (allocproc link) s fun np t => Allocated s t np := by
  unfold allocproc
  refine Ensures.step rfl ?_
  cases found : unusedSlot s with
  | none => exact Ensures.fail
  | some np =>
      refine Ensures.step rfl ?_
      refine Ensures.step rfl ?_
      refine Ensures.seq (onMm_ensures _ _) ?_
      rintro ⟨pagetable, tf⟩ _ ⟨mm, rfl⟩
      refine Ensures.step rfl ?_
      apply Ensures.pure
      refine ⟨unusedSlot_some found, ⟨pagetable, tf, ?_⟩, rfl, rfl, rfl⟩
      simp [State.setProc]

/-- The slots of a process that point to an entry. -/
def Proc.pointers (p : Proc) (e : Fin NFD) : Nat :=
  ((List.finRange NOFILE).filter fun i => p.fds i = some e).length

/-- What `copyFds` leaves for the slots of a list. -/
def afterCopyFds (s : State) (p np : Fin NPROC) (slots : List (Fin NOFILE)) : State :=
  { s with
    proc := Function.update s.proc np
      { s.proc np with
        fds := fun i => if i ∈ slots then (s.proc p).fds i else (s.proc np).fds i }
    fds := fun e =>
      { s.fds e with
        ref := (s.fds e).ref + (slots.filter fun i => (s.proc p).fds i = some e).length } }

theorem increfSlot_run (entry : Option (Fin NFD)) (s : State) :
    increfSlot entry s = .ok ((), { s with
      fds := fun e => { s.fds e with ref := (s.fds e).ref + if entry = some e then 1 else 0 } }) := by
  cases entry with
  | none => simp [increfSlot]
  | some target =>
      simp only [increfSlot, fdIncref, modifyFd, Act.modify_run, State.setFd]
      congr 3
      funext e
      by_cases same : e = target
      · subst same
        simp
      · simp [same, Ne.symm same]

theorem copyFds_run {p np : Fin NPROC} (different : np ≠ p) (slots : List (Fin NOFILE))
    (s : State) : copyFds p np slots s = .ok ((), afterCopyFds s p np slots) := by
  induction slots generalizing s with
  | nil =>
      simp only [copyFds, Act.pure_run]
      congr 2
      simp [afterCopyFds]
  | cons i rest ih =>
      unfold copyFds
      rw [Act.bind_of_ok (f := procAt p) rfl, Act.bind_of_ok (f := modifyProc np _) rfl,
        Act.bind_of_ok (increfSlot_run _ _), ih]
      congr 2
      simp only [afterCopyFds, State.setProc, Function.update_self,
        Function.update_of_ne (Ne.symm different), Function.update_idem]
      congr 1
      · congr 1
        congr 1
        funext j
        by_cases same : j = i
        · subst same
          simp
        · simp [same]
      · funext e
        congr 1
        by_cases points : (s.proc p).fds i = some e
        · simp [points]
          omega
        · simp [points]

/-- A slot that was unused is a runnable child with the parent's descriptors,
and each of these has been counted. -/
structure Forked (s t : State) (cp np : Fin NPROC) : Prop where
  unused : (s.proc np).state = .UNUSED
  others : ∀ q, q ≠ np → t.proc q = s.proc q
  pid : (t.proc np).pid = s.nextpid
  ppid : (t.proc np).ppid = (s.proc cp).pid
  state : (t.proc np).state = .RUNNABLE
  slots : (t.proc np).fds = (s.proc cp).fds
  nextpid : t.nextpid = s.nextpid + 1
  fds : ∀ e, t.fds e = { s.fds e with ref := (s.fds e).ref + (s.proc cp).pointers e }
  fs : t.fs = s.fs

theorem copyproc_ensures {p : Fin NPROC} {s : State} (used : (s.proc p).state ≠ .UNUSED) :
    Ensures (copyproc link p) s fun np t =>
      Forked s (t.setProc np { t.proc np with state := .RUNNABLE }) p np := by
  unfold copyproc
  refine Ensures.seq (allocproc_ensures s) ?_
  intro np t allocated
  obtain ⟨pagetable, tf, proc⟩ := allocated.proc
  have different : np ≠ p := by
    rintro rfl
    exact used allocated.unused
  refine Ensures.step rfl ?_
  refine Ensures.step rfl ?_
  refine Ensures.step rfl ?_
  refine Ensures.seq (onMm_ensures _ _) ?_
  rintro _ _ ⟨mm, rfl⟩
  refine Ensures.step (copyFds_run different _ _) ?_
  refine Ensures.seq (onMm_ensures _ _) ?_
  rintro _ _ ⟨mm', rfl⟩
  refine Ensures.step rfl ?_
  refine Ensures.step rfl ?_
  apply Ensures.pure
  constructor
  case unused => exact allocated.unused
  case others =>
    intro q other
    simp [State.setProc, afterCopyFds, other, proc]
  case fds =>
    intro e
    simp [State.setProc, afterCopyFds, proc, allocated.fds, Proc.pointers,
      Function.update_of_ne (Ne.symm different)]
  case nextpid => exact allocated.nextpid
  case fs => exact allocated.fs
  all_goals
    simp [State.setProc, afterCopyFds, proc, Function.update_of_ne (Ne.symm different)]

theorem sysFork_ensures {cp : Fin NPROC} {s : State} (used : (s.proc cp).state ≠ .UNUSED) :
    Ensures (sysFork link cp) s fun _ t => ∃ np, Forked s t cp np := by
  unfold sysFork
  refine Ensures.seq (copyproc_ensures used) ?_
  intro np t forked
  refine Ensures.step rfl ?_
  refine Ensures.step rfl ?_
  exact Ensures.pure ⟨np, forked⟩

theorem zombieChild_some {s : State} {cp p : Fin NPROC} (found : zombieChild s cp = some p) :
    (s.proc p).state = .ZOMBIE ∧ (s.proc p).ppid = (s.proc cp).pid := by
  have hit := List.find?_some found
  simpa using hit

/-- `proc_wait` returns after it has freed the slot of a zombie child. -/
theorem procWait_ensures (cp : Fin NPROC) (pid : Int) (s : State) :
    Ensures (procWait link cp pid) s fun _ t => ∃ p mm,
      (s.proc p).state = .ZOMBIE ∧ (s.proc p).ppid = (s.proc cp).pid ∧
      t = { s with mm := mm, proc := Function.update s.proc p { s.proc p with state := .UNUSED } } := by
  unfold procWait
  refine Ensures.step (a := zombieChild s cp) rfl ?_
  cases found : zombieChild s cp with
  | none => exact Ensures.fail
  | some p =>
      refine Ensures.step rfl ?_
      refine Ensures.seq (onMm_ensures _ _) ?_
      rintro _ _ ⟨mm, rfl⟩
      refine Ensures.step rfl ?_
      apply Ensures.pure
      exact ⟨p, mm, (zombieChild_some found).1, (zombieChild_some found).2, rfl⟩

/-- `proc_kill` marks one process, and wakes it. -/
theorem procKill_ensures (pid : UInt32) (s : State) :
    Ensures (procKill pid) s fun _ t => t = s ∨ ∃ p, t = s.setProc p (s.proc p).kill := by
  unfold procKill
  refine Ensures.step (a := killTarget s pid) rfl ?_
  cases killTarget s pid with
  | none => exact Ensures.pure (Or.inl rfl)
  | some p =>
      refine Ensures.step rfl ?_
      exact Ensures.pure (Or.inr ⟨p, rfl⟩)

theorem wakeParents_calm (ppid : UInt32) (slots : List (Fin NPROC)) (s : State) :
    Ensures (wakeParents ppid slots) s fun _ t => Calm s t := by
  induction slots generalizing s with
  | nil => exact Ensures.pure (Calm.refl s)
  | cons p rest ih =>
      unfold wakeParents
      refine Ensures.seq (m := fun _ t => Calm s t) ?_ ?_
      · unfold wakeParent
        refine Ensures.step rfl ?_
        apply Ensures.ite
        · intro _
          exact wakeup_calm _ s
        · intro _
          exact Ensures.pure (Calm.refl s)
      · intro _ t woken
        exact (ih t).mono fun _ _ more => woken.trans more

@[simp] theorem Proc.abandon_ppid (pid : UInt32) (p : Proc) : (p.abandon pid).ppid = p.ppid := by
  unfold Proc.abandon
  split <;> rfl

@[simp] theorem Proc.abandon_state (pid : UInt32) (p : Proc) :
    (p.abandon pid).state = p.state := by
  unfold Proc.abandon
  split <;> rfl

@[simp] theorem Proc.abandon_fds (pid : UInt32) (p : Proc) : (p.abandon pid).fds = p.fds := by
  unfold Proc.abandon
  split <;> rfl

theorem Proc.abandon_pid (pid : UInt32) (p : Proc) :
    (p.abandon pid).pid = if p.ppid = pid then 1 else p.pid := by
  unfold Proc.abandon
  split <;> rfl

theorem Proc.abandon_twice (pid : UInt32) (p : Proc) :
    (p.abandon pid).abandon pid = p.abandon pid := by
  unfold Proc.abandon
  split <;> simp_all

/-- The loop of "abandon children" for a process that is not its own parent. -/
theorem abandonChildren_run {cp : Fin NPROC} (slots : List (Fin NPROC)) {s : State}
    (apart : (s.proc cp).ppid ≠ (s.proc cp).pid) :
    abandonChildren cp slots s = .ok ((), { s with
      proc := fun q => if q ∈ slots then (s.proc q).abandon (s.proc cp).pid else s.proc q }) := by
  induction slots generalizing s with
  | nil =>
      simp [abandonChildren]
  | cons p rest ih =>
      have same : ((s.setProc p ((s.proc p).abandon (s.proc cp).pid)).proc cp) = s.proc cp := by
        by_cases me : cp = p
        · subst me
          simp [State.setProc, Proc.abandon, apart]
        · simp [State.setProc, me]
      unfold abandonChildren
      rw [Act.bind_of_ok (f := procAt cp) rfl, Act.bind_of_ok (f := modifyProc p _) rfl,
        ih (by rw [same]; exact apart), same]
      congr 2
      simp only [State.setProc]
      congr 1
      funext q
      by_cases here : q = p
      · subst here
        simp [Proc.abandon_twice]
      · simp [here]

/-- Whatever the loop of "abandon children" changes is a pid. -/
theorem abandonChildren_ensures (cp : Fin NPROC) (slots : List (Fin NPROC)) (s : State) :
    Ensures (abandonChildren cp slots) s fun _ t =>
      (∀ q, ∃ pid, t.proc q = { s.proc q with pid := pid }) ∧ t.fds = s.fds ∧ t.fs = s.fs ∧
        t.mm = s.mm := by
  induction slots generalizing s with
  | nil => exact Ensures.pure ⟨fun q => ⟨_, rfl⟩, rfl, rfl, rfl⟩
  | cons p rest ih =>
      unfold abandonChildren
      refine Ensures.step rfl ?_
      refine Ensures.step rfl ?_
      refine (ih _).mono ?_
      rintro _ t ⟨relabelled, fds, fs, mm⟩
      refine ⟨?_, fds, fs, mm⟩
      intro q
      obtain ⟨pid, changed⟩ := relabelled q
      refine ⟨pid, ?_⟩
      rw [changed]
      by_cases here : q = p
      · subst here
        simp only [State.setProc, Function.update_self]
        unfold Proc.abandon
        split <;> rfl
      · simp [State.setProc, here]

end

end Gcgos.Kernel
