import Gcgos.Smp.Machine

/-!
# Sleeping with a spinlock

`iget`, `iput`, `ilock`, `iunlock` and `bread` on any number of CPUs, at the
granularity of single lock operations and single accesses to the tables. The
critical sections of `iget` and `ilock` call `sleep` when they meet a busy
inode, and `sleep` does not give back the spinlock that its caller holds.

Of an inode only what the table's search looks at is kept; the fields that
`iget` loads play no part. The kernel is not preempted: `kerneltrap` never
yields. A process that a CPU runs has its own lock taken by that CPU, so no
other CPU can enter it.
-/

set_option autoImplicit false

namespace Gcgos.Smp

open Kernel (ProcState)
open Fs (NINODE NBUF)

inductive FsLock where
  | inodeTableLock
  | bufTalbeLock
deriving DecidableEq

/-- Who called `bread`: the process itself, or `iget` for the slot it has
claimed. -/
inductive Caller where
  | self
  | iget (nip : Fin NINODE)
deriving DecidableEq

/-- A call that begins with `acquire`. -/
inductive FsOp where
  | iget (dev inum : UInt32)
  | iput (i : Fin NINODE)
  | ilock (i : Fin NINODE)
  | iunlock (i : Fin NINODE)
  | bread (caller : Caller)
deriving DecidableEq

def FsOp.lock : FsOp → FsLock
  | .iget _ _ => .inodeTableLock
  | .iput _ => .inodeTableLock
  | .ilock _ => .inodeTableLock
  | .iunlock _ => .inodeTableLock
  | .bread _ => .bufTalbeLock

/-- What goes on after a `sleep`: other kernel code, which holds neither lock,
the loop of `iget` or that of `ilock`. -/
inductive Sleeper where
  | elsewhere (chan : Chan)
  | iget (i : Fin NINODE) (dev inum : UInt32) (nip : Option (Fin NINODE))
  | ilock (i : Fin NINODE)
deriving DecidableEq

def Sleeper.chan : Sleeper → Chan
  | .elsewhere chan => chan
  | .iget i _ _ _ => .inode i
  | .ilock i => .inode i

/-- What follows a `release`. -/
inductive After where
  | user
  | igetRead (nip : Fin NINODE)
  | sdRead (caller : Caller) (b : Fin NBUF)
deriving DecidableEq

/-- The step a process takes next. `user` is user mode, and kernel code that
touches neither table. -/
inductive Place where
  | user
  /-- The test-and-set, and `lk->p = mycpu()`. -/
  | acquire (op : FsOp)
  | acquired (op : FsOp)
  /-- `iget`: the loop over the table, the hit and the claim. -/
  | igetScan (dev inum : UInt32) (nip : Option (Fin NINODE)) (rest : List (Fin NINODE))
  | igetTake (i : Fin NINODE)
  | igetClaim (dev inum : UInt32) (nip : Fin NINODE)
  | ilockTest (i : Fin NINODE)
  | ilockTake (i : Fin NINODE)
  /-- `iunlock`, and `iput`, which also drops a reference. -/
  | clear (i : Fin NINODE) (drop : Bool)
  | wake (i : Fin NINODE) (rest : List (Fin NPROC))
  | wakeWrite (i : Fin NINODE) (q : Fin NPROC) (rest : List (Fin NPROC))
  | getblkScan (caller : Caller) (rest : List (Fin NBUF))
  | getblkTake (caller : Caller) (b : Fin NBUF)
  /-- `lk->p = 0`, and the store that clears the flag. -/
  | release (lk : FsLock) (after : After)
  | unlock (lk : FsLock) (after : After)
  | sdReadblock (caller : Caller) (b : Fin NBUF)
  | brelse (b : Fin NBUF)
  | sleepChan (sleeper : Sleeper)
  | sleepState (sleeper : Sleeper)
  | sleepSched (sleeper : Sleeper)
  | sleepDone (sleeper : Sleeper)
  | yieldSched
  | panicked
deriving DecidableEq

def FsOp.body : FsOp → Place
  | .iget dev inum => .igetScan dev inum none (List.finRange NINODE)
  | .iput i => .clear i true
  | .ilock i => .ilockTest i
  | .iunlock i => .clear i false
  | .bread caller => .getblkScan caller (List.finRange NBUF)

def After.place : After → Place
  | .user => .user
  | .igetRead nip => .acquire (.bread (.iget nip))
  | .sdRead caller b => .sdReadblock caller b

/-- Where a process goes on when it has slept. `iget` starts its loop again and
keeps the free slot it has seen. -/
def Sleeper.resume : Sleeper → Place
  | .elsewhere _ => .user
  | .iget _ dev inum nip => .igetScan dev inum nip (List.finRange NINODE)
  | .ilock i => .ilockTest i

def Sleeper.holds : Sleeper → Option FsLock
  | .elsewhere _ => none
  | .iget _ _ _ _ => some .inodeTableLock
  | .ilock _ => some .inodeTableLock

/-- The lock a process has taken and not yet given back. -/
def Place.holds : Place → Option FsLock
  | .acquired op => some op.lock
  | .igetScan _ _ _ _ | .igetTake _ | .igetClaim _ _ _ | .ilockTest _ | .ilockTake _
  | .clear _ _ | .wake _ _ | .wakeWrite _ _ _ | .panicked => some .inodeTableLock
  | .getblkScan _ _ | .getblkTake _ _ => some .bufTalbeLock
  | .release lk _ | .unlock lk _ => some lk
  | .sleepChan sleeper | .sleepState sleeper | .sleepSched sleeper | .sleepDone sleeper =>
      sleeper.holds
  | .user | .acquire _ | .sdReadblock _ _ | .brelse _ | .yieldSched => none

/-- What a process in `sleep` goes back to. -/
def Place.sleeper : Place → Option Sleeper
  | .sleepChan sleeper | .sleepState sleeper | .sleepSched sleeper | .sleepDone sleeper =>
      some sleeper
  | _ => none

/-- What the table's search looks at. -/
structure TableSlot where
  dev : UInt32
  inum : UInt32
  count : Nat
  busy : Bool
deriving DecidableEq

structure FsMachine (κ : Type) where
  inode : Fin NINODE → TableSlot
  buf : Fin NBUF → Bool
  lock : FsLock → Spinlock κ
  state : Fin NPROC → ProcState
  chan : Fin NPROC → Option Chan
  place : Fin NPROC → Place
  running : κ → Option (Fin NPROC)

/-- What a process in user mode asks for. -/
inductive Request where
  | go
  | iget (dev inum : UInt32)
  | iput (i : Fin NINODE)
  | ilock (i : Fin NINODE)
  | iunlock (i : Fin NINODE)
  | bread
  | brelse (b : Fin NBUF)
  | sleep (chan : Chan)
  | yield
deriving DecidableEq

section

variable {κ : Type} [DecidableEq κ]

namespace FsMachine

def setPlace (m : FsMachine κ) (p : Fin NPROC) (place : Place) : FsMachine κ :=
  { m with place := Function.update m.place p place }

def setInode (m : FsMachine κ) (i : Fin NINODE) (change : TableSlot → TableSlot) : FsMachine κ :=
  { m with inode := Function.update m.inode i (change (m.inode i)) }

def setBuf (m : FsMachine κ) (b : Fin NBUF) (busy : Bool) : FsMachine κ :=
  { m with buf := Function.update m.buf b busy }

def setLock (m : FsMachine κ) (lk : FsLock) (change : Spinlock κ → Spinlock κ) : FsMachine κ :=
  { m with lock := Function.update m.lock lk (change (m.lock lk)) }

def setState (m : FsMachine κ) (p : Fin NPROC) (state : ProcState) : FsMachine κ :=
  { m with state := Function.update m.state p state }

def setChan (m : FsMachine κ) (p : Fin NPROC) (chan : Option Chan) : FsMachine κ :=
  { m with chan := Function.update m.chan p chan }

def setRunning (m : FsMachine κ) (c : κ) (p : Option (Fin NPROC)) : FsMachine κ :=
  { m with running := Function.update m.running c p }

/-- The slot is the one `iget` looks for. -/
def matched (m : FsMachine κ) (dev inum : UInt32) (i : Fin NINODE) : Prop :=
  0 < (m.inode i).count ∧ (m.inode i).dev = dev ∧ (m.inode i).inum = inum

instance (m : FsMachine κ) (dev inum : UInt32) (i : Fin NINODE) : Decidable (m.matched dev inum i) :=
  inferInstanceAs (Decidable (_ ∧ _))

end FsMachine

open FsMachine

/-- The first step of a request. -/
def beginRequest (m : FsMachine κ) (p : Fin NPROC) : Request → Option (FsMachine κ)
  | .go => none
  | .iget dev inum => some (m.setPlace p (.acquire (.iget dev inum)))
  | .iput i => some (m.setPlace p (.acquire (.iput i)))
  | .ilock i => some (m.setPlace p (.acquire (.ilock i)))
  | .iunlock i => some (m.setPlace p (.acquire (.iunlock i)))
  | .bread => some (m.setPlace p (.acquire (.bread .self)))
  | .brelse b => some (m.setPlace p (.brelse b))
  | .sleep chan => some (m.setPlace p (.sleepChan (.elsewhere chan)))
  | .yield => some ((m.setState p .RUNNABLE).setPlace p .yieldSched)

/-- One step of the code of process `p` on CPU `c`. -/
def codeStep (m : FsMachine κ) (c : κ) (p : Fin NPROC) (request : Request) :
    Option (FsMachine κ) :=
  match m.place p with
  | .user => beginRequest m p request
  | .acquire op =>
      if (m.lock op.lock).locked = true then none
      else
        some ((m.setLock op.lock fun lk => { lk with locked := true }).setPlace p (.acquired op))
  | .acquired op =>
      some ((m.setLock op.lock fun lk => { lk with cpu := some c }).setPlace p op.body)
  | .igetScan _ _ none [] => some (m.setPlace p .panicked)
  | .igetScan dev inum (some nip) [] => some (m.setPlace p (.igetClaim dev inum nip))
  | .igetScan dev inum nip (i :: rest) =>
      if m.matched dev inum i then
        if (m.inode i).busy = true then some (m.setPlace p (.sleepChan (.iget i dev inum nip)))
        else some (m.setPlace p (.igetTake i))
      else if nip = none ∧ (m.inode i).count = 0 then
        some (m.setPlace p (.igetScan dev inum (some i) rest))
      else some (m.setPlace p (.igetScan dev inum nip rest))
  | .igetTake i =>
      some ((m.setInode i fun ip => { ip with count := ip.count + 1, busy := true }).setPlace p
        (.release .inodeTableLock .user))
  | .igetClaim dev inum nip =>
      some ((m.setInode nip fun _ => ⟨dev, inum, 1, true⟩).setPlace p
        (.release .inodeTableLock (.igetRead nip)))
  | .ilockTest i =>
      if (m.inode i).busy = true then some (m.setPlace p (.sleepChan (.ilock i)))
      else some (m.setPlace p (.ilockTake i))
  | .ilockTake i =>
      some ((m.setInode i fun ip => { ip with busy := true }).setPlace p
        (.release .inodeTableLock .user))
  | .clear i drop =>
      some ((m.setInode i fun ip =>
        { ip with count := if drop then ip.count - 1 else ip.count, busy := false }).setPlace p
          (.wake i allSlots))
  | .wake _ [] => some (m.setPlace p (.release .inodeTableLock .user))
  | .wake i (q :: rest) =>
      if m.state q = .SLEEPING ∧ m.chan q = some (.inode i) then
        some (m.setPlace p (.wakeWrite i q rest))
      else some (m.setPlace p (.wake i rest))
  | .wakeWrite i q rest => some ((m.setState q .RUNNABLE).setPlace p (.wake i rest))
  | .getblkScan caller [] => some (m.setPlace p (.getblkScan caller (List.finRange NBUF)))
  | .getblkScan caller (b :: rest) =>
      if m.buf b = false then some (m.setPlace p (.getblkTake caller b))
      else some (m.setPlace p (.getblkScan caller rest))
  | .getblkTake caller b =>
      some ((m.setBuf b true).setPlace p (.release .bufTalbeLock (.sdRead caller b)))
  | .release lk after =>
      some ((m.setLock lk fun lock => { lock with cpu := none }).setPlace p (.unlock lk after))
  | .unlock lk after =>
      some ((m.setLock lk fun lock => { lock with locked := false }).setPlace p after.place)
  | .sdReadblock .self _ => some (m.setPlace p .user)
  | .sdReadblock (.iget _) b => some (m.setPlace p (.brelse b))
  | .brelse b => some ((m.setBuf b false).setPlace p .user)
  | .sleepChan sleeper =>
      some ((m.setChan p (some sleeper.chan)).setPlace p (.sleepState sleeper))
  | .sleepState sleeper => some ((m.setState p .SLEEPING).setPlace p (.sleepSched sleeper))
  | .sleepSched sleeper => some ((m.setRunning c none).setPlace p (.sleepDone sleeper))
  | .sleepDone sleeper => some ((m.setChan p none).setPlace p sleeper.resume)
  | .yieldSched => some ((m.setRunning c none).setPlace p .user)
  | .panicked => none

/-- A step of the code of a process that a CPU runs, which is then named; a CPU
enters a process that is ready; or other kernel code, `wakeup` or `proc_kill`,
makes a sleeping process ready. -/
inductive FsStep : Option (Fin NPROC) → FsMachine κ → FsMachine κ → Prop where
  | code {m t : FsMachine κ} {c : κ} {p : Fin NPROC} {request : Request}
      (runs : m.running c = some p) (stepped : codeStep m c p request = some t) :
      FsStep (some p) m t
  | enter {m : FsMachine κ} {c : κ} {p : Fin NPROC} (idle : m.running c = none)
      (ready : m.state p = .RUNNABLE) (free : ∀ d, m.running d ≠ some p) :
      FsStep none m ((m.setState p .RUNNING).setRunning c (some p))
  | rouse {m : FsMachine κ} {q : Fin NPROC} (asleep : m.state q = .SLEEPING) :
      FsStep none m (m.setState q .RUNNABLE)

/-- The next step of `p` finds an inode busy, in the loop of `iget` or in that of
`ilock`. -/
def MeetsBusy (m : FsMachine κ) (p : Fin NPROC) : Prop :=
  (∃ dev inum nip i rest, m.place p = .igetScan dev inum nip (i :: rest) ∧
    m.matched dev inum i ∧ (m.inode i).busy = true) ∨
  ∃ i, m.place p = .ilockTest i ∧ (m.inode i).busy = true

/-- A step other than the test that finds an inode busy. -/
def CalmStep (m t : FsMachine κ) : Prop :=
  ∃ who, FsStep who m t ∧ ∀ p, who = some p → ¬MeetsBusy m p

/-- Both locks are free, every process is outside the file system and no CPU
runs one; the tables are arbitrary. -/
structure FsStart (m : FsMachine κ) : Prop where
  lock : ∀ lk, (m.lock lk).locked = false
  place : ∀ p, m.place p = .user
  state : ∀ p, m.state p ≠ .SLEEPING
  running : ∀ c, m.running c = none

/-- What a step of a process's code does to the things the locks depend on. -/
inductive CodeEffect (m t : FsMachine κ) (c : κ) (p : Fin NPROC) : Prop where
  /-- Neither a lock nor a CPU changes hands; a process may become ready. -/
  | inside (b : Place) (place : t.place = Function.update m.place p b)
      (flags : ∀ lk, (t.lock lk).locked = (m.lock lk).locked)
      (running : t.running = m.running) (holds : b.holds = (m.place p).holds)
      (state : ∀ q, t.state q = m.state q ∨ t.state q = .RUNNABLE)
      (outside : ∀ sleeper, m.place p ≠ .sleepSched sleeper)
      (sleeper : ∀ sleeper, b.sleeper = some sleeper →
        (m.place p).sleeper = some sleeper ∨ sleeper.holds = none)
  | falls (sleeper : Sleeper) (before : m.place p = .sleepState sleeper)
      (place : t.place = Function.update m.place p (.sleepSched sleeper)) (lock : t.lock = m.lock)
      (running : t.running = m.running) (state : t.state = Function.update m.state p .SLEEPING)
  | sleeps (sleeper : Sleeper) (before : m.place p = .sleepSched sleeper)
      (place : t.place = Function.update m.place p (.sleepDone sleeper)) (lock : t.lock = m.lock)
      (running : t.running = Function.update m.running c none) (state : t.state = m.state)
  | leaves (before : m.place p = .yieldSched)
      (place : t.place = Function.update m.place p .user) (lock : t.lock = m.lock)
      (running : t.running = Function.update m.running c none) (state : t.state = m.state)
  | takes (lk : FsLock) (b : Place) (place : t.place = Function.update m.place p b)
      (free : (m.lock lk).locked = false) (nothing : (m.place p).holds = none)
      (flags : ∀ l, (t.lock l).locked = if l = lk then true else (m.lock l).locked)
      (holds : b.holds = some lk) (sleeper : b.sleeper = none ∧ (m.place p).sleeper = none)
      (running : t.running = m.running) (state : t.state = m.state)
  | gives (lk : FsLock) (b : Place) (place : t.place = Function.update m.place p b)
      (held : (m.place p).holds = some lk) (nothing : b.holds = none)
      (flags : ∀ l, (t.lock l).locked = if l = lk then false else (m.lock l).locked)
      (sleeper : b.sleeper = none ∧ (m.place p).sleeper = none)
      (running : t.running = m.running) (state : t.state = m.state)

omit [DecidableEq κ] in
theorem update_flags (lock : FsLock → Spinlock κ) (lk : FsLock) (new : Spinlock κ) (l : FsLock) :
    (Function.update lock lk new l).locked = if l = lk then new.locked else (lock l).locked := by
  by_cases here : l = lk
  · subst here
    simp
  · simp [here]

omit [DecidableEq κ] in
theorem update_flags_same (lock : FsLock → Spinlock κ) (lk : FsLock) {new : Spinlock κ}
    (keeps : new.locked = (lock lk).locked) (l : FsLock) :
    (Function.update lock lk new l).locked = (lock l).locked := by
  rw [update_flags, keeps]
  split
  · next here => rw [here]
  · rfl

theorem FsOp.body_holds (op : FsOp) : op.body.holds = some op.lock ∧ op.body.sleeper = none := by
  cases op <;> exact ⟨rfl, rfl⟩

theorem After.place_holds (after : After) : after.place.holds = none ∧ after.place.sleeper = none := by
  cases after <;> exact ⟨rfl, rfl⟩

theorem Sleeper.resume_holds (sleeper : Sleeper) :
    sleeper.resume.holds = sleeper.holds ∧ sleeper.resume.sleeper = none := by
  cases sleeper <;> exact ⟨rfl, rfl⟩

/-- A step that changes the place of the process alone. -/
theorem CodeEffect.moves {m t : FsMachine κ} {c : κ} {p : Fin NPROC} {a b : Place}
    (before : m.place p = a) (place : t.place = Function.update m.place p b)
    (lock : t.lock = m.lock) (running : t.running = m.running) (state : t.state = m.state)
    (holds : b.holds = a.holds) (awake : a.sleeper = none)
    (sleeper : ∀ sleeper, b.sleeper = some sleeper → sleeper.holds = none) :
    CodeEffect m t c p := by
  refine .inside b place ?_ running ?_ ?_ ?_ ?_
  · intro lk
    rw [lock]
  · rw [before]
    exact holds
  · intro q
    rw [state]
    exact Or.inl rfl
  · intro sleeper here
    rw [here] at before
    subst before
    cases awake
  · intro asleep same
    exact Or.inr (sleeper asleep same)

theorem beginRequest_effect {m t : FsMachine κ} {p : Fin NPROC} {request : Request}
    (user : m.place p = .user) (c : κ) (begun : beginRequest m p request = some t) :
    CodeEffect m t c p := by
  cases request with
  | go => cases begun
  | yield =>
      cases begun
      refine .inside .yieldSched rfl (fun _ => rfl) rfl (by rw [user]; rfl) ?_ (by simp [user]) ?_
      · intro q
        by_cases here : q = p
        · exact Or.inr (by simp [here, setState, setPlace])
        · exact Or.inl (by simp [here, setState, setPlace])
      · rintro _ ⟨⟩
  | sleep chan =>
      cases begun
      refine .moves user rfl rfl rfl rfl rfl rfl ?_
      rintro _ ⟨⟩
      rfl
  | iget dev inum =>
      cases begun
      exact .moves user rfl rfl rfl rfl rfl rfl (by rintro _ ⟨⟩)
  | iput i =>
      cases begun
      exact .moves user rfl rfl rfl rfl rfl rfl (by rintro _ ⟨⟩)
  | ilock i =>
      cases begun
      exact .moves user rfl rfl rfl rfl rfl rfl (by rintro _ ⟨⟩)
  | iunlock i =>
      cases begun
      exact .moves user rfl rfl rfl rfl rfl rfl (by rintro _ ⟨⟩)
  | bread =>
      cases begun
      exact .moves user rfl rfl rfl rfl rfl rfl (by rintro _ ⟨⟩)
  | brelse b =>
      cases begun
      exact .moves user rfl rfl rfl rfl rfl rfl (by rintro _ ⟨⟩)

theorem codeStep_effect {m t : FsMachine κ} {c : κ} {p : Fin NPROC} {request : Request}
    (calm : ¬MeetsBusy m p) (stepped : codeStep m c p request = some t) : CodeEffect m t c p := by
  unfold codeStep at stepped
  split at stepped
  · next here => exact beginRequest_effect here c stepped
  · next op here =>
      split at stepped
      · cases stepped
      · next free =>
          cases stepped
          have clear : (m.lock op.lock).locked = false := by simpa using free
          refine .takes op.lock (.acquired op) rfl clear (by rw [here]; rfl) ?_ rfl
            ⟨rfl, by rw [here]; rfl⟩ rfl rfl
          exact update_flags m.lock op.lock _
  · next op here =>
      cases stepped
      obtain ⟨holds, awake⟩ := op.body_holds
      refine .inside op.body rfl (update_flags_same m.lock op.lock rfl) rfl ?_ (fun _ => Or.inl rfl)
        (by simp [here]) ?_
      · rw [here, holds]
        rfl
      · intro sleeper same
        rw [awake] at same
        cases same
  · next here =>
      cases stepped
      exact .moves here rfl rfl rfl rfl rfl rfl (by rintro _ ⟨⟩)
  · next here =>
      cases stepped
      exact .moves here rfl rfl rfl rfl rfl rfl (by rintro _ ⟨⟩)
  · next dev inum nip i rest here =>
      split at stepped
      · next found =>
          split at stepped
          · next busy => exact absurd (Or.inl ⟨dev, inum, nip, i, rest, here, found, busy⟩) calm
          · cases stepped
            exact .moves here rfl rfl rfl rfl rfl rfl (by rintro _ ⟨⟩)
      · split at stepped
        · cases stepped
          exact .moves here rfl rfl rfl rfl rfl rfl (by rintro _ ⟨⟩)
        · cases stepped
          exact .moves here rfl rfl rfl rfl rfl rfl (by rintro _ ⟨⟩)
  · next here =>
      cases stepped
      exact .moves here rfl rfl rfl rfl rfl rfl (by rintro _ ⟨⟩)
  · next here =>
      cases stepped
      exact .moves here rfl rfl rfl rfl rfl rfl (by rintro _ ⟨⟩)
  · next i here =>
      split at stepped
      · next busy => exact absurd (Or.inr ⟨i, here, busy⟩) calm
      · cases stepped
        exact .moves here rfl rfl rfl rfl rfl rfl (by rintro _ ⟨⟩)
  · next here =>
      cases stepped
      exact .moves here rfl rfl rfl rfl rfl rfl (by rintro _ ⟨⟩)
  · next here =>
      cases stepped
      exact .moves here rfl rfl rfl rfl rfl rfl (by rintro _ ⟨⟩)
  · next here =>
      cases stepped
      exact .moves here rfl rfl rfl rfl rfl rfl (by rintro _ ⟨⟩)
  · next here =>
      split at stepped
      · cases stepped
        exact .moves here rfl rfl rfl rfl rfl rfl (by rintro _ ⟨⟩)
      · cases stepped
        exact .moves here rfl rfl rfl rfl rfl rfl (by rintro _ ⟨⟩)
  · next i q rest here =>
      cases stepped
      refine .inside (.wake i rest) rfl (fun _ => rfl) rfl (by rw [here]; rfl) ?_ (by simp [here]) ?_
      · intro r
        by_cases same : r = q
        · exact Or.inr (by simp [same, setState, setPlace])
        · exact Or.inl (by simp [same, setState, setPlace])
      · rintro _ ⟨⟩
  · next here =>
      cases stepped
      exact .moves here rfl rfl rfl rfl rfl rfl (by rintro _ ⟨⟩)
  · next here =>
      split at stepped
      · cases stepped
        exact .moves here rfl rfl rfl rfl rfl rfl (by rintro _ ⟨⟩)
      · cases stepped
        exact .moves here rfl rfl rfl rfl rfl rfl (by rintro _ ⟨⟩)
  · next here =>
      cases stepped
      exact .moves here rfl rfl rfl rfl rfl rfl (by rintro _ ⟨⟩)
  · next lk after here =>
      cases stepped
      refine .inside (.unlock lk after) rfl (update_flags_same m.lock lk rfl) rfl (by rw [here]; rfl)
        (fun _ => Or.inl rfl) (by simp [here]) ?_
      rintro _ ⟨⟩
  · next lk after here =>
      cases stepped
      obtain ⟨nothing, awake⟩ := after.place_holds
      exact .gives lk after.place rfl (by rw [here]; rfl) nothing (update_flags m.lock lk _)
        ⟨awake, by rw [here]; rfl⟩ rfl rfl
  · next here =>
      cases stepped
      exact .moves here rfl rfl rfl rfl rfl rfl (by rintro _ ⟨⟩)
  · next here =>
      cases stepped
      exact .moves here rfl rfl rfl rfl rfl rfl (by rintro _ ⟨⟩)
  · next here =>
      cases stepped
      exact .moves here rfl rfl rfl rfl rfl rfl (by rintro _ ⟨⟩)
  · next sleeper here =>
      cases stepped
      refine .inside (.sleepState sleeper) rfl (fun _ => rfl) rfl (by rw [here]; rfl)
        (fun _ => Or.inl rfl) (by simp [here]) ?_
      rintro _ ⟨⟩
      exact Or.inl (by rw [here]; rfl)
  · next sleeper here =>
      cases stepped
      exact .falls sleeper here rfl rfl rfl rfl
  · next sleeper here =>
      cases stepped
      exact .sleeps sleeper here rfl rfl rfl rfl
  · next sleeper here =>
      cases stepped
      obtain ⟨holds, awake⟩ := sleeper.resume_holds
      refine .inside sleeper.resume rfl (fun _ => rfl) rfl (by rw [here, holds]; rfl)
        (fun _ => Or.inl rfl) (by simp [here]) ?_
      intro other same
      rw [awake] at same
      cases same
  · next here =>
      cases stepped
      exact .leaves here rfl rfl rfl rfl
  · cases stepped

/-- The locks are held by processes that run, and nobody sleeps with one. -/
structure Guarded (m : FsMachine κ) : Prop where
  locked : ∀ lk, (m.lock lk).locked = true ↔ ∃ p, (m.place p).holds = some lk
  unique : ∀ lk p q, (m.place p).holds = some lk → (m.place q).holds = some lk → p = q
  alone : ∀ c d p, m.running c = some p → m.running d = some p → c = d
  runs : ∀ p lk, (m.place p).holds = some lk → ∃ c, m.running c = some p
  sleeper : ∀ p sleeper, (m.place p).sleeper = some sleeper → sleeper.holds = none
  asleep : ∀ p, m.state p = .SLEEPING → ∃ sleeper, m.place p = .sleepSched sleeper ∨
    m.place p = .sleepDone sleeper ∧ ∀ c, m.running c ≠ some p

omit [DecidableEq κ] in
theorem FsStart.guarded {m : FsMachine κ} (start : FsStart m) : Guarded m := by
  constructor
  case locked =>
    intro lk
    simp [start.lock, start.place, Place.holds]
  case unique =>
    intro lk p q held
    simp [start.place, Place.holds] at held
  case alone =>
    intro c d p runs
    simp [start.running] at runs
  case runs =>
    intro p lk held
    simp [start.place, Place.holds] at held
  case sleeper =>
    intro p sleeper waits
    simp [start.place, Place.sleeper] at waits
  case asleep => exact fun p sleeps => absurd sleeps (start.state p)

omit [DecidableEq κ] in
/-- A process that runs and is not in `sched` is awake. -/
theorem Guarded.awake {m : FsMachine κ} (guarded : Guarded m) {c : κ} {p : Fin NPROC}
    (runs : m.running c = some p) (outside : ∀ sleeper, m.place p ≠ .sleepSched sleeper) :
    m.state p ≠ .SLEEPING := by
  intro sleeps
  obtain ⟨sleeper, here | ⟨-, nowhere⟩⟩ := guarded.asleep p sleeps
  · exact outside sleeper here
  · exact nowhere c runs

section

variable {m t : FsMachine κ} {c : κ} {p : Fin NPROC} {b : Place}

omit [DecidableEq κ] in
theorem place_update {q : Fin NPROC} (place : t.place = Function.update m.place p b) :
    q = p ∧ t.place q = b ∨ q ≠ p ∧ t.place q = m.place q := by
  rw [place]
  by_cases here : q = p
  · subst here
    exact Or.inl ⟨rfl, Function.update_self ..⟩
  · exact Or.inr ⟨here, Function.update_of_ne here ..⟩

omit [DecidableEq κ] in
theorem holds_update (place : t.place = Function.update m.place p b)
    (same : b.holds = (m.place p).holds) (q : Fin NPROC) :
    (t.place q).holds = (m.place q).holds := by
  rcases place_update (q := q) place with ⟨rfl, here⟩ | ⟨-, here⟩
  · rw [here, same]
  · rw [here]

omit [DecidableEq κ] in
theorem Guarded.sleeper_update (guarded : Guarded m) (place : t.place = Function.update m.place p b)
    (calm : ∀ sleeper, b.sleeper = some sleeper → sleeper.holds = none) (q : Fin NPROC)
    (sleeper : Sleeper) (waits : (t.place q).sleeper = some sleeper) : sleeper.holds = none := by
  rcases place_update (q := q) place with ⟨-, here⟩ | ⟨-, here⟩
  · rw [here] at waits
    exact calm sleeper waits
  · rw [here] at waits
    exact guarded.sleeper q sleeper waits

omit [DecidableEq κ] in
/-- Sleepers stay where they are when an awake process moves. -/
theorem Guarded.asleep_update (guarded : Guarded m) (awake : m.state p ≠ .SLEEPING)
    (place : t.place = Function.update m.place p b) (running : t.running = m.running)
    (state : ∀ q, t.state q = .SLEEPING → m.state q = .SLEEPING) (q : Fin NPROC)
    (sleeps : t.state q = .SLEEPING) :
    ∃ sleeper, t.place q = .sleepSched sleeper ∨
      t.place q = .sleepDone sleeper ∧ ∀ c, t.running c ≠ some q := by
  have before := state q sleeps
  rcases place_update (q := q) place with ⟨rfl, -⟩ | ⟨-, here⟩
  · exact absurd before awake
  · rw [here, running]
    exact guarded.asleep q before

/-- The CPU `c` leaves `p`, which holds nothing. -/
theorem Guarded.leave (guarded : Guarded m) (runs : m.running c = some p)
    (place : t.place = Function.update m.place p b) (lock : t.lock = m.lock)
    (running : t.running = Function.update m.running c none) (state : t.state = m.state)
    (nothing : b.holds = none) (before : (m.place p).holds = none)
    (calm : ∀ sleeper, b.sleeper = some sleeper → sleeper.holds = none)
    (sleeping : m.state p = .SLEEPING → ∃ sleeper, b = .sleepDone sleeper) : Guarded t := by
  have holds := holds_update place (nothing.trans before.symm)
  have still : ∀ {d q}, t.running d = some q → m.running d = some q ∧ q ≠ p := by
    intro d q here
    rw [running] at here
    by_cases same : d = c
    · rw [same, Function.update_self] at here
      cases here
    · rw [Function.update_of_ne same] at here
      refine ⟨here, ?_⟩
      rintro rfl
      exact same (guarded.alone d c q here runs)
  constructor
  case locked =>
    intro lk
    simp only [lock, holds]
    exact guarded.locked lk
  case unique =>
    intro lk q r
    rw [holds, holds]
    exact guarded.unique lk q r
  case alone =>
    intro d e q left right
    exact guarded.alone d e q (still left).1 (still right).1
  case runs =>
    intro q lk held
    rw [holds] at held
    obtain ⟨d, here⟩ := guarded.runs q lk held
    refine ⟨d, ?_⟩
    have other : d ≠ c := by
      rintro rfl
      rw [here] at runs
      cases runs
      rw [before] at held
      cases held
    rw [running, Function.update_of_ne other]
    exact here
  case sleeper => exact guarded.sleeper_update place calm
  case asleep =>
    intro q sleeps
    rw [state] at sleeps
    rcases place_update (q := q) place with ⟨rfl, here⟩ | ⟨-, here⟩
    · obtain ⟨sleeper, done⟩ := sleeping sleeps
      exact ⟨sleeper, Or.inr ⟨here.trans done, fun d stays => (still stays).2 rfl⟩⟩
    · obtain ⟨sleeper, sched | ⟨done, nowhere⟩⟩ := guarded.asleep q sleeps
      · exact ⟨sleeper, Or.inl (here.trans sched)⟩
      · exact ⟨sleeper, Or.inr ⟨here.trans done, fun d stays => nowhere d (still stays).1⟩⟩

omit [DecidableEq κ] in
/-- The process that a CPU runs goes on; who holds the locks is left open. -/
theorem Guarded.move (guarded : Guarded m) (runs : m.running c = some p)
    (place : t.place = Function.update m.place p b) (running : t.running = m.running)
    (calm : ∀ sleeper, b.sleeper = some sleeper → sleeper.holds = none)
    (asleep : ∀ q, t.state q = .SLEEPING → ∃ sleeper, t.place q = .sleepSched sleeper ∨
      t.place q = .sleepDone sleeper ∧ ∀ c, t.running c ≠ some q)
    (locked : ∀ lk, (t.lock lk).locked = true ↔ ∃ q, (t.place q).holds = some lk)
    (unique : ∀ lk q r, (t.place q).holds = some lk → (t.place r).holds = some lk → q = r) :
    Guarded t := by
  refine ⟨locked, unique, ?_, ?_, guarded.sleeper_update place calm, asleep⟩
  · rw [running]
    exact guarded.alone
  · intro q lk held
    rw [running]
    rcases place_update (q := q) place with ⟨rfl, -⟩ | ⟨-, here⟩
    · exact ⟨c, runs⟩
    · rw [here] at held
      exact guarded.runs q lk held

omit [DecidableEq κ] in
/-- The same with the locks held as before. -/
theorem Guarded.stay (guarded : Guarded m) (runs : m.running c = some p)
    (place : t.place = Function.update m.place p b) (running : t.running = m.running)
    (calm : ∀ sleeper, b.sleeper = some sleeper → sleeper.holds = none)
    (asleep : ∀ q, t.state q = .SLEEPING → ∃ sleeper, t.place q = .sleepSched sleeper ∨
      t.place q = .sleepDone sleeper ∧ ∀ c, t.running c ≠ some q)
    (flags : ∀ lk, (t.lock lk).locked = (m.lock lk).locked)
    (holds : b.holds = (m.place p).holds) : Guarded t := by
  have same := holds_update place holds
  refine guarded.move runs place running calm asleep ?_ ?_
  · intro lk
    simp only [flags, same]
    exact guarded.locked lk
  · intro lk q r
    rw [same, same]
    exact guarded.unique lk q r

theorem Guarded.code (guarded : Guarded m) (runs : m.running c = some p)
    (effect : CodeEffect m t c p) : Guarded t := by
  cases effect with
  | inside b place flags running holds state outside sleeper =>
      refine guarded.stay runs place running ?_ ?_ flags holds
      · intro asleep waits
        rcases sleeper asleep waits with before | nothing
        · exact guarded.sleeper p asleep before
        · exact nothing
      · refine guarded.asleep_update (guarded.awake runs outside) place running fun q sleeps => ?_
        rcases state q with kept | ready
        · rw [← kept]
          exact sleeps
        · rw [ready] at sleeps
          cases sleeps
  | falls sleeper before place lock running state =>
      refine guarded.stay runs place running ?_ ?_ (fun _ => by rw [lock]) (by rw [before]; rfl)
      · rintro _ ⟨⟩
        exact guarded.sleeper p sleeper (by rw [before]; rfl)
      · intro q sleeps
        rcases place_update (q := q) place with ⟨-, here⟩ | ⟨other, here⟩
        · exact ⟨sleeper, Or.inl here⟩
        · rw [state, Function.update_of_ne other] at sleeps
          rw [here, running]
          exact guarded.asleep q sleeps
  | sleeps sleeper before place lock running state =>
      have nothing := guarded.sleeper p sleeper (by rw [before]; rfl)
      refine guarded.leave runs place lock running state nothing (by rw [before]; exact nothing) ?_ ?_
      · rintro _ ⟨⟩
        exact nothing
      · exact fun _ => ⟨sleeper, rfl⟩
  | leaves before place lock running state =>
      refine guarded.leave runs place lock running state rfl (by rw [before]; rfl) ?_ ?_
      · rintro _ ⟨⟩
      · intro sleeping
        exact absurd sleeping (guarded.awake runs (by simp [before]))
  | takes lk b place free nothing flags holds sleeper running state =>
      have awake : m.state p ≠ .SLEEPING := by
        refine guarded.awake runs fun asleep here => ?_
        rw [here] at sleeper
        cases sleeper.2
      have nobody : ∀ q, (m.place q).holds ≠ some lk := by
        intro q held
        have taken := (guarded.locked lk).mpr ⟨q, held⟩
        rw [free] at taken
        cases taken
      have held : ∀ l q, (t.place q).holds = some l ↔ l = lk ∧ q = p ∨ (m.place q).holds = some l := by
        intro l q
        rcases place_update (q := q) place with ⟨rfl, here⟩ | ⟨other, here⟩
        · rw [here, holds, nothing]
          simp [eq_comm]
        · rw [here]
          simp [other]
      refine guarded.move runs place running (by simp [sleeper.1])
        (guarded.asleep_update awake place running fun q sleeps => by rw [← state]; exact sleeps)
        ?_ ?_
      · intro l
        simp only [flags, held]
        by_cases same : l = lk
        · simp [same]
        · simp [same, guarded.locked]
      · intro l q r left right
        rcases (held l q).mp left with ⟨rfl, rfl⟩ | left <;>
          rcases (held _ r).mp right with ⟨same, rfl⟩ | right
        · rfl
        · exact absurd right (nobody r)
        · exact absurd (same ▸ left) (nobody q)
        · exact guarded.unique l q r left right
  | gives lk b place held nothing flags sleeper running state =>
      have awake : m.state p ≠ .SLEEPING := by
        refine guarded.awake runs fun asleep here => ?_
        rw [here] at sleeper
        cases sleeper.2
      have holds : ∀ l q, (t.place q).holds = some l ↔ l ≠ lk ∧ (m.place q).holds = some l := by
        intro l q
        rcases place_update (q := q) place with ⟨rfl, here⟩ | ⟨other, here⟩
        · rw [here, nothing, held]
          simp [eq_comm]
        · rw [here]
          constructor
          · intro has
            refine ⟨?_, has⟩
            rintro rfl
            exact other (guarded.unique l q p has held)
          · exact And.right
      refine guarded.move runs place running (by simp [sleeper.1])
        (guarded.asleep_update awake place running fun q sleeps => by rw [← state]; exact sleeps)
        ?_ ?_
      · intro l
        simp only [flags, holds]
        by_cases same : l = lk
        · simp [same]
        · simp [same, guarded.locked]
      · intro l q r left right
        exact guarded.unique l q r ((holds l q).mp left).2 ((holds l r).mp right).2

theorem Guarded.enter (guarded : Guarded m) (idle : m.running c = none)
    (free : ∀ d, m.running d ≠ some p) :
    Guarded ((m.setState p .RUNNING).setRunning c (some p)) := by
  have still : ∀ {d q}, ((m.setState p .RUNNING).setRunning c (some p)).running d = some q →
      d = c ∧ q = p ∨ d ≠ c ∧ q ≠ p ∧ m.running d = some q := by
    intro d q here
    by_cases same : d = c
    · subst same
      simp only [setRunning, Function.update_self, Option.some.injEq] at here
      exact Or.inl ⟨rfl, here.symm⟩
    · simp only [setRunning, Function.update_of_ne same] at here
      refine Or.inr ⟨same, ?_, here⟩
      rintro rfl
      exact free d here
  refine ⟨guarded.locked, guarded.unique, ?_, ?_, guarded.sleeper, ?_⟩
  · intro d e q left right
    rcases still left with ⟨rfl, rfl⟩ | ⟨-, other, left⟩ <;>
      rcases still right with ⟨rfl, same⟩ | ⟨-, other', right⟩
    · rfl
    · exact absurd rfl other'
    · exact absurd same other
    · exact guarded.alone d e q left right
  · intro q lk held
    obtain ⟨d, here⟩ := guarded.runs q lk held
    have other : d ≠ c := by
      rintro rfl
      rw [idle] at here
      cases here
    refine ⟨d, ?_⟩
    simp only [setRunning, Function.update_of_ne other]
    exact here
  · intro q sleeps
    have other : q ≠ p := by
      rintro rfl
      simp [setRunning, setState] at sleeps
    simp only [setRunning, setState, Function.update_of_ne other] at sleeps
    obtain ⟨sleeper, sched | ⟨done, nowhere⟩⟩ := guarded.asleep q sleeps
    · exact ⟨sleeper, Or.inl sched⟩
    · refine ⟨sleeper, Or.inr ⟨done, fun d here => ?_⟩⟩
      rcases still here with ⟨-, same⟩ | ⟨-, -, before⟩
      · exact other same
      · exact nowhere d before

omit [DecidableEq κ] in
theorem Guarded.rouse (guarded : Guarded m) (q : Fin NPROC) : Guarded (m.setState q .RUNNABLE) := by
  refine ⟨guarded.locked, guarded.unique, guarded.alone, guarded.runs, guarded.sleeper, ?_⟩
  intro r sleeps
  have other : r ≠ q := by
    rintro rfl
    simp [setState] at sleeps
  simp only [setState, Function.update_of_ne other] at sleeps
  exact guarded.asleep r sleeps

theorem Guarded.calmStep (guarded : Guarded m) (step : CalmStep m t) : Guarded t := by
  obtain ⟨who, step, calm⟩ := step
  cases step with
  | code runs stepped => exact guarded.code runs (codeStep_effect (calm _ rfl) stepped)
  | enter idle ready free => exact guarded.enter idle free
  | rouse asleep => exact guarded.rouse _

omit [DecidableEq κ] in
theorem Guarded.sleeps_free (guarded : Guarded m) (p : Fin NPROC) (sleeps : m.state p = .SLEEPING) :
    (m.place p).holds = none := by
  obtain ⟨sleeper, here | ⟨here, -⟩⟩ := guarded.asleep p sleeps
  · rw [here]
    exact guarded.sleeper p sleeper (by rw [here]; rfl)
  · rw [here]
    exact guarded.sleeper p sleeper (by rw [here]; rfl)

/-- A process that holds a lock and runs has a step to take. -/
theorem holder_steps (m : FsMachine κ) (c : κ) {p : Fin NPROC} {lk : FsLock}
    (held : (m.place p).holds = some lk) (alive : m.place p ≠ .panicked) :
    ∃ t, codeStep m c p .go = some t := by
  unfold codeStep
  split <;> try exact ⟨_, rfl⟩
  · next here => simp [here, Place.holds] at held
  · next here => simp [here, Place.holds] at held
  · split
    · split <;> exact ⟨_, rfl⟩
    · split <;> exact ⟨_, rfl⟩
  · split <;> exact ⟨_, rfl⟩
  · split <;> exact ⟨_, rfl⟩
  · split <;> exact ⟨_, rfl⟩
  · next here => exact absurd here alive

/-- From the test that finds an inode busy, three steps of the process lead to
sleep with the lock. -/
theorem MeetsBusy.sleeps (runs : m.running c = some p) (meets : MeetsBusy m p) :
    ∃ t u v, FsStep (some p) m t ∧ FsStep (some p) t u ∧ FsStep (some p) u v ∧
      v.state p = .SLEEPING ∧ (v.place p).holds = some .inodeTableLock := by
  have asleep : ∀ sleeper : Sleeper, sleeper.holds = some .inodeTableLock →
      codeStep m c p .go = some (m.setPlace p (.sleepChan sleeper)) →
      ∃ t u v, FsStep (some p) m t ∧ FsStep (some p) t u ∧ FsStep (some p) u v ∧
        v.state p = .SLEEPING ∧ (v.place p).holds = some .inodeTableLock := by
    intro sleeper holds stepped
    let t := m.setPlace p (.sleepChan sleeper)
    let u := (t.setChan p (some sleeper.chan)).setPlace p (.sleepState sleeper)
    let v := (u.setState p .SLEEPING).setPlace p (.sleepSched sleeper)
    have second : codeStep t c p .go = some u := by
      simp [codeStep, t, u, setPlace]
    have third : codeStep u c p .go = some v := by
      simp [codeStep, u, v, setPlace]
    refine ⟨t, u, v, .code runs stepped, .code runs second, .code runs third, ?_, ?_⟩
    · simp [v, setState, setPlace]
    · simp [v, setPlace, Place.holds, holds]
  rcases meets with ⟨dev, inum, nip, i, rest, here, found, busy⟩ | ⟨i, here, busy⟩
  · refine asleep (.iget i dev inum nip) rfl ?_
    unfold codeStep
    rw [here]
    simp [found, busy]
  · refine asleep (.ilock i) rfl ?_
    unfold codeStep
    rw [here]
    simp [busy]

/-- As long as no loop of `iget` or `ilock` finds its inode busy, no process
sleeps with a lock, and a lock that is taken is held by a process that a CPU
runs and that can go on. As soon as one does, its process goes to sleep with
the lock of the table. -/
theorem sleeps_without_locks :
    (∀ n (m : FsMachine κ), ReachIn FsStart CalmStep n m →
      (∀ p, m.state p = .SLEEPING → (m.place p).holds = none) ∧
      ∀ lk, (m.lock lk).locked = true → ∃ p c, (m.place p).holds = some lk ∧
        m.running c = some p ∧ m.state p ≠ .SLEEPING ∧
        (m.place p ≠ .panicked → ∃ t, FsStep (some p) m t)) ∧
    ∀ (m : FsMachine κ) (c : κ) (p : Fin NPROC), m.running c = some p → MeetsBusy m p →
      ∃ t u v, FsStep (some p) m t ∧ FsStep (some p) t u ∧ FsStep (some p) u v ∧
        v.state p = .SLEEPING ∧ (v.place p).holds = some .inodeTableLock := by
  constructor
  · intro n m run
    have guarded : Guarded m :=
      run.invariant (fun _ start => start.guarded) fun _ _ guarded step => guarded.calmStep step
    refine ⟨guarded.sleeps_free, fun lk taken => ?_⟩
    obtain ⟨p, held⟩ := (guarded.locked lk).mp taken
    obtain ⟨c, runs⟩ := guarded.runs p lk held
    refine ⟨p, c, held, runs, ?_, fun alive => ?_⟩
    · intro sleeps
      rw [guarded.sleeps_free p sleeps] at held
      cases held
    · obtain ⟨t, stepped⟩ := holder_steps m c held alive
      exact ⟨t, .code runs stepped⟩
  · exact fun m c p runs meets => meets.sleeps runs

end

/-- A script of steps: a CPU enters a process, or runs its code. -/
inductive FsMove (κ : Type) where
  | enter (c : κ) (p : Fin NPROC)
  | code (c : κ) (p : Fin NPROC) (request : Request)

def FsMove.apply [Fintype κ] (m : FsMachine κ) : FsMove κ → Option (FsMachine κ)
  | .enter c p =>
      if m.running c = none ∧ m.state p = .RUNNABLE ∧ ∀ d, m.running d ≠ some p then
        some ((m.setState p .RUNNING).setRunning c (some p))
      else none
  | .code c p request => if m.running c = some p then codeStep m c p request else none

/-- The process whose code runs. -/
def FsMove.who : FsMove κ → Option (Fin NPROC)
  | .enter _ _ => none
  | .code _ p _ => some p

theorem FsMove.apply_step [Fintype κ] {m t : FsMachine κ} {move : FsMove κ}
    (moved : move.apply m = some t) : FsStep move.who m t := by
  cases move with
  | enter c p =>
      simp only [FsMove.apply] at moved
      split at moved
      · next can =>
          cases moved
          exact .enter can.1 can.2.1 can.2.2
      · cases moved
  | code c p request =>
      simp only [FsMove.apply] at moved
      split at moved
      · next runs => exact .code runs moved
      · cases moved

/-- The script from `m` on, as long as every step passes the check. -/
def replay [Fintype κ] (check : FsMachine κ → FsMove κ → Bool) (m : FsMachine κ) :
    List (FsMove κ) → Option (FsMachine κ)
  | [] => some m
  | move :: rest =>
      if check m move = true then (move.apply m).bind fun t => replay check t rest else none

theorem replay_reaches [Fintype κ] {step : FsMachine κ → FsMachine κ → Prop}
    {check : FsMachine κ → FsMove κ → Bool}
    (checked : ∀ m move t, check m move = true → FsStep move.who m t → step m t)
    {moves : List (FsMove κ)} {n : Nat} {m t : FsMachine κ} (run : ReachIn FsStart step n m)
    (replayed : replay check m moves = some t) : ∃ n, ReachIn FsStart step n t := by
  induction moves generalizing n m with
  | nil =>
      cases replayed
      exact ⟨n, run⟩
  | cons move rest ih =>
      simp only [replay] at replayed
      split at replayed
      · rename_i passes
        obtain ⟨u, moved, replayed⟩ := Option.bind_eq_some_iff.mp replayed
        exact ih (run.next (checked m move u passes (FsMove.apply_step moved))) replayed
      · cases replayed

/-- The move is not the test that finds an inode busy. -/
def FsMove.calm (m : FsMachine κ) (move : FsMove κ) : Bool :=
  match move with
  | .enter _ _ => true
  | .code _ p _ =>
      match m.place p with
      | .igetScan dev inum _ (i :: _) =>
          !decide (m.matched dev inum i ∧ (m.inode i).busy = true)
      | .ilockTest i => !(m.inode i).busy
      | _ => true

theorem FsMove.calm_step {m t : FsMachine κ} {move : FsMove κ} (calm : move.calm m = true)
    (step : FsStep move.who m t) : CalmStep m t := by
  refine ⟨move.who, step, ?_⟩
  rintro p runs (⟨dev, inum, nip, i, rest, place, found, busy⟩ | ⟨i, place, busy⟩)
  · cases move with
    | enter c q => cases runs
    | code c q request =>
        cases runs
        simp [FsMove.calm, place, found, busy] at calm
  · cases move with
    | enter c q => cases runs
    | code c q request =>
        cases runs
        simp [FsMove.calm, place, busy] at calm

end

/-- Two processes and one inode, referenced by both, on one CPU. -/
def twoUsers : FsMachine Unit where
  inode := fun i => if i.val = 0 then ⟨1, 1, 2, false⟩ else ⟨0, 0, 0, false⟩
  buf := fun _ => false
  lock := fun _ => ⟨false, none⟩
  state := fun p => if p.val < 2 then .RUNNABLE else .UNUSED
  chan := fun _ => none
  place := fun _ => .user
  running := fun _ => none

theorem twoUsers_start : FsStart twoUsers where
  lock := fun _ => rfl
  place := fun _ => rfl
  state := by decide +kernel
  running := fun _ => rfl

theorem NPROC_two : 1 < NPROC := by decide

def firstUser : Fin NPROC := ⟨0, Nat.zero_lt_of_lt NPROC_two⟩

def secondUser : Fin NPROC := ⟨1, NPROC_two⟩

def oneInode : Fin NINODE := ⟨0, Fs.NINODE_pos⟩

def oneBuf : Fin NBUF := 0

/-- The first process locks the inode and yields; the second one tries to lock
it; the first one comes back to unlock it. -/
def lockedOutMoves : List (FsMove Unit) :=
  [.enter () firstUser, .code () firstUser (.ilock oneInode)] ++
    List.replicate 6 (.code () firstUser .go) ++
    [.code () firstUser .yield, .code () firstUser .go] ++
    [.enter () secondUser, .code () secondUser (.ilock oneInode)] ++
    List.replicate 6 (.code () secondUser .go) ++
    [.enter () firstUser, .code () firstUser (.iunlock oneInode)]

theorem lockedOut_replays : (replay (fun _ _ => true) twoUsers lockedOutMoves).isSome = true := by
  decide +kernel

def lockedOut : FsMachine Unit :=
  (replay (fun _ _ => true) twoUsers lockedOutMoves).get lockedOut_replays

/-- The second process sleeps with the lock of the table, and the first one, which
has to clear `busy`, cannot take a step any more. -/
theorem ilock_sleeps_with_lock :
    ∃ n, ReachIn FsStart (fun m t => ∃ who, FsStep who m t) n lockedOut ∧
      lockedOut.state secondUser = .SLEEPING ∧
      (lockedOut.place secondUser).holds = some .inodeTableLock ∧
      (lockedOut.inode oneInode).busy = true ∧
      lockedOut.place firstUser = .acquire (.iunlock oneInode) ∧
      ∀ c request, codeStep lockedOut c firstUser request = none := by
  obtain ⟨n, run⟩ : ∃ n, ReachIn FsStart (fun m t => ∃ who, FsStep who m t) n lockedOut :=
    replay_reaches (fun _ _ _ _ taken => ⟨_, taken⟩) (ReachIn.start twoUsers_start)
      (Option.some_get lockedOut_replays).symm
  have facts : lockedOut.state secondUser = .SLEEPING ∧
      (lockedOut.place secondUser).holds = some .inodeTableLock ∧
      (lockedOut.inode oneInode).busy = true ∧
      lockedOut.place firstUser = .acquire (.iunlock oneInode) ∧
      (lockedOut.lock .inodeTableLock).locked = true := by
    decide +kernel
  obtain ⟨sleeps, holds, busy, place, locked⟩ := facts
  refine ⟨n, run, sleeps, holds, busy, place, ?_⟩
  intro c request
  unfold codeStep
  rw [place]
  exact if_pos locked

/-- The first process locks the inode and unlocks it, reads a block and gives it
back, and then waits for the console. -/
def consoleMoves : List (FsMove Unit) :=
  [.enter () firstUser, .code () firstUser (.ilock oneInode)] ++
    List.replicate 6 (.code () firstUser .go) ++
    .code () firstUser (.iunlock oneInode) :: List.replicate 70 (.code () firstUser .go) ++
    .code () firstUser .bread :: List.replicate 7 (.code () firstUser .go) ++
    [.code () firstUser (.brelse oneBuf), .code () firstUser .go] ++
    .code () firstUser (.sleep .consR) :: List.replicate 2 (.code () firstUser .go)

theorem console_replays : (replay FsMove.calm twoUsers consoleMoves).isSome = true := by
  decide +kernel

def atConsole : FsMachine Unit := (replay FsMove.calm twoUsers consoleMoves).get console_replays

/-- It sleeps with neither lock, and both are free. -/
theorem sleeps_without_locks_console :
    atConsole.state firstUser = .SLEEPING ∧ (atConsole.inode oneInode).busy = false ∧
      (atConsole.place firstUser).holds = none ∧
      ∀ lk, (atConsole.lock lk).locked = true → ∃ p, (atConsole.place p).holds = some lk := by
  have replayed : replay FsMove.calm twoUsers consoleMoves = some atConsole := by
    unfold atConsole
    exact (Option.some_get console_replays).symm
  have checked : ∀ (m : FsMachine Unit) move t, FsMove.calm m move = true →
      FsStep move.who m t → CalmStep m t := fun _ _ _ => FsMove.calm_step
  obtain ⟨n, run⟩ := replay_reaches checked (ReachIn.start twoUsers_start) replayed
  have asleep : atConsole.state firstUser = .SLEEPING ∧ (atConsole.inode oneInode).busy = false := by
    decide +kernel
  have quiet := sleeps_without_locks.1 n atConsole run
  refine ⟨asleep.1, asleep.2, quiet.1 firstUser asleep.1, fun lk taken => ?_⟩
  obtain ⟨p, _, holds, -⟩ := quiet.2 lk taken
  exact ⟨p, holds⟩

end Gcgos.Smp
