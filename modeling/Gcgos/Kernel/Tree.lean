import Gcgos.Kernel.Calls
import Gcgos.Kernel.Pages
import Gcgos.Lib.Run

/-!
# The process tree

Pids, parents and the slots in use, along every run of `fork`, `proc_exit`,
`proc_wait` and `proc_kill` by any processes. `proc_exit` writes 1 to the pid of
each child of the process that exits, where their ppid was meant. As long as no
process exits before its children have been reaped the tree is sound, and
exactly such an exit changes a pid.
-/

set_option autoImplicit false

namespace Gcgos.Kernel

open Act

/-- The slot `init` runs in: the first one that `userinit` allocates. -/
abbrev initSlot : Fin NPROC := 0

/-- Nothing of the tree has changed: scheduling, sleeping, memory, files and
descriptors are free. -/
structure Quiet (s t : State) : Prop where
  pid : ∀ p, (t.proc p).pid = (s.proc p).pid
  ppid : ∀ p, (t.proc p).ppid = (s.proc p).ppid
  unused : ∀ p, (t.proc p).state = .UNUSED ↔ (s.proc p).state = .UNUSED
  zombie : ∀ p, (t.proc p).state = .ZOMBIE ↔ (s.proc p).state = .ZOMBIE
  nextpid : t.nextpid = s.nextpid

theorem Quiet.refl (s : State) : Quiet s s :=
  ⟨fun _ => rfl, fun _ => rfl, fun _ => Iff.rfl, fun _ => Iff.rfl, rfl⟩

theorem Quiet.trans {s t u : State} (left : Quiet s t) (right : Quiet t u) : Quiet s u where
  pid p := (right.pid p).trans (left.pid p)
  ppid p := (right.ppid p).trans (left.ppid p)
  unused p := (right.unused p).trans (left.unused p)
  zombie p := (right.zombie p).trans (left.zombie p)
  nextpid := right.nextpid.trans left.nextpid

theorem Calm.quiet {s t : State} (calm : Calm s t) : Quiet s t where
  pid p := (calm.proc p).pid
  ppid p := (calm.proc p).ppid
  unused p := (calm.proc p).unused
  zombie p := (calm.proc p).zombie
  nextpid := calm.nextpid

theorem Quiet.used {s t : State} (quiet : Quiet s t) (p : Fin NPROC) :
    (t.proc p).Used ↔ (s.proc p).Used :=
  not_congr (quiet.unused p)

/-- A change of a process that touches neither the tree nor its state. -/
theorem quiet_setProc (s : State) (p : Fin NPROC) {proc : Proc}
    (pid : proc.pid = (s.proc p).pid) (ppid : proc.ppid = (s.proc p).ppid)
    (unused : proc.state = .UNUSED ↔ (s.proc p).state = .UNUSED)
    (zombie : proc.state = .ZOMBIE ↔ (s.proc p).state = .ZOMBIE) :
    Quiet s (s.setProc p proc) := by
  constructor
  case nextpid => rfl
  all_goals
    intro q
    by_cases here : q = p
    · subst here
      simp only [State.setProc, Function.update_self]
      assumption
    · simp only [State.setProc, Function.update_of_ne here]

section

variable {link : Link}

theorem exitSlots_quiet (cp : Fin NPROC) (slots : List (Fin NOFILE)) (s : State) :
    Ensures (exitSlots link cp slots) s fun _ t => Quiet s t := by
  induction slots generalizing s with
  | nil => exact Ensures.pure (Quiet.refl s)
  | cons i rest ih =>
      unfold exitSlots
      refine Ensures.seq (m := fun _ t => Quiet s t) ?_ ?_
      · unfold exitSlot
        refine Ensures.step (a := s.proc cp) rfl ?_
        cases (s.proc cp).fds i with
        | none => exact Ensures.pure (Quiet.refl s)
        | some e =>
            refine Ensures.seq (fdClose_ensures e s) ?_
            intro _ t closed
            apply Ensures.modify
            have changed : Quiet s t := ⟨closed.quiet.pid, closed.quiet.ppid,
              closed.quiet.unused, closed.quiet.zombie, closed.nextpid⟩
            exact changed.trans (quiet_setProc t cp rfl rfl Iff.rfl Iff.rfl)
      · intro _ t before
        exact (ih t).mono fun _ _ after => before.trans after

/-- What `proc_exit` does to the tree. -/
structure Exited (s t : State) (cp : Fin NPROC) : Prop where
  pid : ∀ q, (t.proc q).pid =
    if (s.proc q).ppid = (s.proc cp).pid then 1 else (s.proc q).pid
  ppid : ∀ q, (t.proc q).ppid = (s.proc q).ppid
  unused : ∀ q, q ≠ cp → ((t.proc q).state = .UNUSED ↔ (s.proc q).state = .UNUSED)
  zombie : ∀ q, (t.proc q).state = .ZOMBIE ↔ q = cp ∨ (s.proc q).state = .ZOMBIE
  nextpid : t.nextpid = s.nextpid

theorem procExit_ensures {cp : Fin NPROC} (start : Nat) {s : State}
    (apart : (s.proc cp).ppid ≠ (s.proc cp).pid) :
    Ensures (procExit link cp start) s fun _ t => Exited s t cp := by
  unfold procExit
  refine Ensures.step rfl ?_
  refine Ensures.seq (exitSlots_quiet cp _ _) ?_
  intro _ t closed
  refine Ensures.step rfl ?_
  refine Ensures.seq (wakeParents_calm _ _ t) ?_
  intro _ u woken
  have quiet := closed.trans woken.quiet
  have pid : ∀ q, (u.proc q).pid = (s.proc q).pid := by
    intro q
    rw [quiet.pid]
    by_cases here : q = cp
    · subst here
      simp [State.setProc]
    · simp [State.setProc, here]
  have ppid : ∀ q, (u.proc q).ppid = (s.proc q).ppid := by
    intro q
    rw [quiet.ppid]
    by_cases here : q = cp
    · subst here
      simp [State.setProc]
    · simp [State.setProc, here]
  intro _ v returned
  rw [abandonChildren_run _ (by rw [pid, ppid]; exact apart)] at returned
  cases returned
  constructor
  case pid =>
    intro q
    simp [Proc.abandon_pid, pid, ppid]
  case ppid =>
    intro q
    simp [ppid]
  case unused =>
    intro q other
    simp only [List.mem_finRange, if_true, Proc.abandon_state]
    rw [quiet.unused]
    simp [State.setProc, other]
  case zombie =>
    intro q
    simp only [List.mem_finRange, if_true, Proc.abandon_state]
    rw [quiet.zombie]
    by_cases here : q = cp
    · subst here
      simp [State.setProc]
    · simp [State.setProc, here]
  case nextpid => exact quiet.nextpid

/-- The tree after at most `n` operations. -/
structure Tree (n : Nat) (s : State) : Prop where
  count : 2 ≤ s.nextpid.toNat ∧ s.nextpid.toNat ≤ n + 2
  init : (s.proc initSlot).Used ∧ (s.proc initSlot).pid = 1 ∧ (s.proc initSlot).ppid = 0
  bound : ∀ p, (s.proc p).Used →
    (s.proc p).ppid.toNat < (s.proc p).pid.toNat ∧ (s.proc p).pid.toNat < s.nextpid.toNat
  distinct : ∀ p q, (s.proc p).Used → (s.proc q).Used → (s.proc p).pid = (s.proc q).pid → p = q
  parent : ∀ p, (s.proc p).Used → p ≠ initSlot →
    ∃ q, (s.proc q).Used ∧ (s.proc q).pid = (s.proc p).ppid
  childless : ∀ q, (s.proc q).state = .ZOMBIE → ∀ p, (s.proc p).Used →
    (s.proc p).ppid ≠ (s.proc q).pid

theorem Tree.quiet {n : Nat} {s t : State} (tree : Tree n s) (quiet : Quiet s t) : Tree n t := by
  constructor
  case count =>
    rw [quiet.nextpid]
    exact tree.count
  case init =>
    rw [quiet.used, quiet.pid, quiet.ppid]
    exact tree.init
  case bound =>
    intro p used
    rw [quiet.pid, quiet.ppid, quiet.nextpid]
    exact tree.bound p ((quiet.used p).mp used)
  case distinct =>
    intro p q usedP usedQ same
    rw [quiet.pid, quiet.pid] at same
    exact tree.distinct p q ((quiet.used p).mp usedP) ((quiet.used q).mp usedQ) same
  case parent =>
    intro p used other
    obtain ⟨q, usedQ, same⟩ := tree.parent p ((quiet.used p).mp used) other
    refine ⟨q, (quiet.used q).mpr usedQ, ?_⟩
    rw [quiet.pid, quiet.ppid]
    exact same
  case childless =>
    intro q dead p used
    rw [quiet.pid, quiet.ppid]
    exact tree.childless q ((quiet.zombie q).mp dead) p ((quiet.used p).mp used)

theorem Tree.mono {n m : Nat} {s : State} (tree : Tree n s) (fewer : n ≤ m) : Tree m s :=
  { tree with count := ⟨tree.count.1, tree.count.2.trans (by omega)⟩ }

/-- No process is its own parent. -/
theorem Tree.apart {n : Nat} {s : State} (tree : Tree n s) {p : Fin NPROC}
    (used : (s.proc p).Used) : (s.proc p).ppid ≠ (s.proc p).pid := by
  intro same
  have older := (tree.bound p used).1
  rw [same] at older
  exact Nat.lt_irrefl _ older

theorem Tree.fork {n : Nat} {s t : State} {cp np : Fin NPROC} (tree : Tree n s)
    (few : n < 2 ^ 31) (alive : (s.proc cp).Alive) (forked : Forked s t cp np) :
    Tree (n + 1) t := by
  have room : s.nextpid.toNat + 1 < 2 ^ 32 := by
    have := tree.count.2
    omega
  have next : t.nextpid.toNat = s.nextpid.toNat + 1 := by
    rw [forked.nextpid, UInt32.toNat_add]
    exact Nat.mod_eq_of_lt room
  have born : (t.proc np).Used := by
    rw [Proc.Used, forked.state]
    decide
  have old : ∀ p, p ≠ np → t.proc p = s.proc p := forked.others
  have parentLives : (t.proc cp).Used ∧ (t.proc cp).pid = (s.proc cp).pid := by
    rw [old cp (fun same => alive.1 (by rw [same]; exact forked.unused))]
    exact ⟨alive.1, rfl⟩
  have initOld : initSlot ≠ np := by
    rintro rfl
    exact tree.init.1 forked.unused
  have fresh : ∀ p, (s.proc p).Used → (s.proc p).pid ≠ s.nextpid := by
    intro p used same
    have := (tree.bound p used).2
    rw [same] at this
    exact Nat.lt_irrefl _ this
  constructor
  case count =>
    have := tree.count
    omega
  case init =>
    rw [old _ initOld]
    exact tree.init
  case bound =>
    intro p used
    rw [next]
    by_cases new : p = np
    · subst new
      rw [forked.pid, forked.ppid]
      have := (tree.bound cp alive.1).2
      omega
    · rw [old p new] at used ⊢
      have := tree.bound p used
      omega
  case distinct =>
    intro p q usedP usedQ same
    by_cases newP : p = np <;> by_cases newQ : q = np
    · rw [newP, newQ]
    · rw [newP, forked.pid, old q newQ] at same
      rw [old q newQ] at usedQ
      exact absurd same.symm (fresh q usedQ)
    · rw [newQ, forked.pid, old p newP] at same
      rw [old p newP] at usedP
      exact absurd same (fresh p usedP)
    · rw [old p newP, old q newQ] at same
      rw [old p newP] at usedP
      rw [old q newQ] at usedQ
      exact tree.distinct p q usedP usedQ same
  case parent =>
    intro p used other
    by_cases new : p = np
    · rw [new, forked.ppid]
      exact ⟨cp, parentLives⟩
    · rw [old p new] at used ⊢
      obtain ⟨q, usedQ, same⟩ := tree.parent p used other
      have oldQ : q ≠ np := by
        rintro rfl
        exact usedQ forked.unused
      refine ⟨q, ?_⟩
      rw [old q oldQ]
      exact ⟨usedQ, same⟩
  case childless =>
    intro q dead p used
    have oldQ : q ≠ np := by
      rintro rfl
      rw [forked.state] at dead
      cases dead
    rw [old q oldQ] at dead ⊢
    have usedQ : (s.proc q).Used := by
      rw [Proc.Used, dead]
      decide
    by_cases new : p = np
    · rw [new, forked.ppid]
      intro same
      have self := tree.distinct cp q alive.1 usedQ same
      rw [self] at alive
      exact alive.2 dead
    · rw [old p new] at used ⊢
      exact tree.childless q dead p used

/-- A zombie is reaped: nobody has it as a parent. -/
theorem Tree.reap {n : Nat} {s : State} {cp z : Fin NPROC} (tree : Tree n s)
    (alive : (s.proc cp).Alive) (dead : (s.proc z).state = .ZOMBIE)
    (child : (s.proc z).ppid = (s.proc cp).pid) (mm : Mm) :
    Tree n { s with
      mm := mm, proc := Function.update s.proc z { s.proc z with state := .UNUSED } } := by
  have usedZ : (s.proc z).Used := by
    rw [Proc.Used, dead]
    decide
  have notInit : z ≠ initSlot := by
    rintro rfl
    rw [tree.init.2.2] at child
    have := (tree.bound cp alive.1).1
    rw [← child] at this
    exact Nat.not_lt_zero _ this
  have still : ∀ p, (Function.update s.proc z { s.proc z with state := .UNUSED } p).Used →
      p ≠ z ∧ (s.proc p).Used := by
    intro p used
    by_cases here : p = z
    · subst here
      simp [Proc.Used] at used
    · rw [Function.update_of_ne here] at used
      exact ⟨here, used⟩
  constructor
  case count => exact tree.count
  case init =>
    simp only [Function.update_of_ne (Ne.symm notInit)]
    exact tree.init
  case bound =>
    intro p used
    obtain ⟨other, used⟩ := still p used
    simp only [Function.update_of_ne other]
    exact tree.bound p used
  case distinct =>
    intro p q usedP usedQ same
    obtain ⟨otherP, usedP⟩ := still p usedP
    obtain ⟨otherQ, usedQ⟩ := still q usedQ
    simp only [Function.update_of_ne otherP, Function.update_of_ne otherQ] at same
    exact tree.distinct p q usedP usedQ same
  case parent =>
    intro p used notFirst
    obtain ⟨other, before⟩ := still p used
    simp only [Function.update_of_ne other]
    obtain ⟨q, usedQ, same⟩ := tree.parent p before notFirst
    have otherQ : q ≠ z := by
      rintro rfl
      exact tree.childless q dead p before same.symm
    refine ⟨q, ?_⟩
    simp only [Function.update_of_ne otherQ]
    exact ⟨usedQ, same⟩
  case childless =>
    intro q deadQ p used
    obtain ⟨other, used⟩ := still p used
    have otherQ : q ≠ z := by
      rintro rfl
      simp at deadQ
    simp only [Function.update_of_ne other, Function.update_of_ne otherQ] at deadQ ⊢
    exact tree.childless q deadQ p used

theorem quiet_kill (s : State) (p : Fin NPROC) : Quiet s (s.setProc p (s.proc p).kill) := by
  apply quiet_setProc
  · rfl
  · rfl
  · unfold Proc.kill
    cases (s.proc p).state <;> simp
  · unfold Proc.kill
    cases (s.proc p).state <;> simp

/-- A child of the process, reaped or not yet. -/
def HasChild (s : State) (cp : Fin NPROC) : Prop :=
  ∃ p, (s.proc p).Used ∧ (s.proc p).ppid = (s.proc cp).pid

theorem Tree.exit {n : Nat} {s t : State} {cp : Fin NPROC} (tree : Tree n s)
    (alive : (s.proc cp).Alive) (alone : ¬HasChild s cp) (exited : Exited s t cp) :
    Tree n t := by
  have used_iff : ∀ p, (t.proc p).Used ↔ (s.proc p).Used := by
    intro p
    by_cases here : p = cp
    · subst here
      have dead := (exited.zombie p).mpr (Or.inl rfl)
      simp only [Proc.Used, dead]
      exact iff_of_true (by decide) alive.1
    · exact not_congr (exited.unused p here)
  have pid : ∀ p, (s.proc p).Used → (t.proc p).pid = (s.proc p).pid := by
    intro p used
    rw [exited.pid, if_neg fun child => alone ⟨p, used, child⟩]
  constructor
  case count =>
    rw [exited.nextpid]
    exact tree.count
  case init =>
    rw [used_iff, pid _ tree.init.1, exited.ppid]
    exact tree.init
  case bound =>
    intro p used
    rw [used_iff] at used
    rw [pid p used, exited.ppid, exited.nextpid]
    exact tree.bound p used
  case distinct =>
    intro p q usedP usedQ same
    rw [used_iff] at usedP usedQ
    rw [pid p usedP, pid q usedQ] at same
    exact tree.distinct p q usedP usedQ same
  case parent =>
    intro p used other
    rw [used_iff] at used
    obtain ⟨q, usedQ, same⟩ := tree.parent p used other
    refine ⟨q, (used_iff q).mpr usedQ, ?_⟩
    rw [pid q usedQ, exited.ppid]
    exact same
  case childless =>
    intro q dead p used
    rw [used_iff] at used
    rw [exited.ppid]
    rcases (exited.zombie q).mp dead with rfl | before
    · rw [pid q alive.1]
      exact fun child => alone ⟨p, used, child⟩
    · have usedQ : (s.proc q).Used := by
        rw [Proc.Used, before]
        decide
      rw [pid q usedQ]
      exact tree.childless q before p used

/-- The operations on the tree. The arguments of `exit` and `wait` are the values
of the variables the source leaves uninitialised. -/
inductive TreeOp where
  | fork
  | exit (start : Nat)
  | wait (pid : Int)
  | kill (pid : UInt32)

/-- The operation, called by `cp`, returns in the state `t`; `proc_exit` returns
to the scheduler. -/
def TreeOp.Runs (link : Link) (cp : Fin NPROC) (s t : State) : TreeOp → Prop
  | .fork => ∃ r, sysFork link cp s = .ok (r, t)
  | .exit start => procExit link cp start s = .ok ((), t)
  | .wait pid => ∃ r, procWait link cp pid s = .ok (r, t)
  | .kill pid => ∃ r, procKill pid s = .ok (r, t)

/-- The operation is an exit of a process that still has a child. -/
def TreeOp.Orphans (s : State) (cp : Fin NPROC) : TreeOp → Prop
  | .exit _ => HasChild s cp
  | _ => False

/-- An operation by some process, with anything that leaves the tree alone
before and after it. -/
def TreeMove (link : Link) (allowed : State → Fin NPROC → TreeOp → Prop) (s t : State) : Prop :=
  ∃ cp op u v, Quiet s u ∧ (u.proc cp).Alive ∧ allowed u cp op ∧ op.Runs link cp u v ∧ Quiet v t

/-- A state that `userinit` leaves when it finds no process and zeroed fields. -/
def Started (link : Link) (s : State) : Prop :=
  ∃ u v, (∀ p, (u.proc p).state = .UNUSED ∧ (u.proc p).ppid = 0) ∧ u.nextpid = 1 ∧
    userinit link u = .ok ((), v) ∧ Quiet v s

theorem unusedSlot_first {s : State} (unused : ∀ p, (s.proc p).state = .UNUSED) :
    unusedSlot s = some initSlot := by
  unfold unusedSlot
  rw [List.finRange_succ, List.find?_cons_of_pos]
  simp [unused]

theorem allocproc_first {s : State} (unused : ∀ p, (s.proc p).state = .UNUSED) :
    Ensures (allocproc link) s fun np t => np = initSlot ∧ Allocated s t np := by
  intro np t returned
  refine ⟨?_, allocproc_ensures s np t returned⟩
  unfold allocproc at returned
  rw [Act.bind_of_ok (f := Act.reads unusedSlot) rfl, unusedSlot_first unused] at returned
  obtain ⟨_, _, _, returned⟩ := Act.bind_eq_ok.mp returned
  obtain ⟨_, _, _, returned⟩ := Act.bind_eq_ok.mp returned
  obtain ⟨_, _, _, returned⟩ := Act.bind_eq_ok.mp returned
  obtain ⟨_, _, _, returned⟩ := Act.bind_eq_ok.mp returned
  cases returned
  rfl

theorem Started.tree {s : State} (started : Started link s) : Tree 0 s := by
  obtain ⟨u, v, blank, first, returned, quiet⟩ := started
  refine Tree.quiet ?_ quiet
  unfold userinit at returned
  obtain ⟨np, w, allocated, finished⟩ := Act.bind_eq_ok.mp returned
  obtain ⟨rfl, allocated⟩ := allocproc_first (fun p => (blank p).1) np w allocated
  obtain ⟨pagetable, tf, proc⟩ := allocated.proc
  cases finished
  have only : ∀ p, p ≠ initSlot → ¬(w.proc p).Used := by
    intro p other used
    rw [proc, Function.update_of_ne other] at used
    exact used (blank p).1
  have next : w.nextpid = 2 := by
    rw [allocated.nextpid, first]
    rfl
  constructor
  case count =>
    change 2 ≤ w.nextpid.toNat ∧ w.nextpid.toNat ≤ 0 + 2
    rw [next]
    decide
  case init => simp [State.setProc, proc, Proc.Used, first, (blank initSlot).2]
  case bound =>
    intro p used
    change _ ∧ _ < w.nextpid.toNat
    by_cases here : p = initSlot
    · subst here
      simp [State.setProc, proc, first, (blank initSlot).2, next]
    · simp only [State.setProc, Function.update_of_ne here] at used
      exact absurd used (only p here)
  case distinct =>
    intro p q usedP usedQ _
    by_cases hereP : p = initSlot <;> by_cases hereQ : q = initSlot
    · rw [hereP, hereQ]
    · simp only [State.setProc, Function.update_of_ne hereQ] at usedQ
      exact absurd usedQ (only q hereQ)
    · simp only [State.setProc, Function.update_of_ne hereP] at usedP
      exact absurd usedP (only p hereP)
    · simp only [State.setProc, Function.update_of_ne hereP] at usedP
      exact absurd usedP (only p hereP)
  case parent =>
    intro p used other
    simp only [State.setProc, Function.update_of_ne other] at used
    exact absurd used (only p other)
  case childless =>
    intro q dead
    by_cases here : q = initSlot
    · subst here
      simp [State.setProc] at dead
    · simp only [State.setProc, Function.update_of_ne here] at dead
      exact absurd (by rw [Proc.Used, dead]; decide) (only q here)

theorem Tree.op {n : Nat} {s t : State} {cp : Fin NPROC} {op : TreeOp} (tree : Tree n s)
    (few : n < 2 ^ 31) (alive : (s.proc cp).Alive) (allowed : ¬op.Orphans s cp)
    (runs : op.Runs link cp s t) : Tree (n + 1) t := by
  cases op with
  | fork =>
      obtain ⟨r, returned⟩ := runs
      obtain ⟨np, forked⟩ := sysFork_ensures alive.1 r t returned
      exact tree.fork few alive forked
  | exit start =>
      have exited := procExit_ensures start (tree.apart alive.1) () t runs
      exact (tree.exit alive allowed exited).mono (Nat.le_succ n)
  | wait pid =>
      obtain ⟨r, returned⟩ := runs
      obtain ⟨z, mm, dead, child, rfl⟩ := procWait_ensures cp pid s r t returned
      exact (tree.reap alive dead child mm).mono (Nat.le_succ n)
  | kill pid =>
      obtain ⟨r, returned⟩ := runs
      refine Tree.mono ?_ (Nat.le_succ n)
      rcases procKill_ensures pid s r t returned with rfl | ⟨p, rfl⟩
      · exact tree
      · exact tree.quiet (quiet_kill s p)

/-- Every slot that is in use before and after keeps its pid. -/
def KeepsPids (s t : State) : Prop :=
  ∀ p, (s.proc p).Used → (t.proc p).Used → (t.proc p).pid = (s.proc p).pid

theorem Exited.keepsPids_iff {n : Nat} {s t : State} {cp : Fin NPROC} (tree : Tree n s)
    (alive : (s.proc cp).Alive) (exited : Exited s t cp) : KeepsPids s t ↔ ¬HasChild s cp := by
  constructor
  · rintro keeps ⟨p, used, child⟩
    have other : p ≠ cp := by
      rintro rfl
      exact tree.apart used child
    have after : (t.proc p).Used := (not_congr (exited.unused p other)).mpr used
    have one := keeps p used after
    rw [exited.pid, if_pos child] at one
    have first : p = initSlot :=
      tree.distinct p initSlot used tree.init.1 (one.symm.trans tree.init.2.1.symm)
    rw [first, tree.init.2.2] at child
    have := (tree.bound cp alive.1).1
    rw [← child] at this
    exact Nat.not_lt_zero _ this
  · intro alone p used _
    rw [exited.pid, if_neg fun child => alone ⟨p, used, child⟩]

theorem Tree.keepsPids_iff {n : Nat} {s t : State} {cp : Fin NPROC} {op : TreeOp}
    (tree : Tree n s) (alive : (s.proc cp).Alive) (runs : op.Runs link cp s t) :
    KeepsPids s t ↔ ¬op.Orphans s cp := by
  cases op with
  | fork =>
      obtain ⟨r, returned⟩ := runs
      obtain ⟨np, forked⟩ := sysFork_ensures alive.1 r t returned
      refine iff_of_true ?_ not_false
      intro p used _
      rw [forked.others p]
      rintro rfl
      exact used forked.unused
  | exit start =>
      exact (procExit_ensures start (tree.apart alive.1) () t runs).keepsPids_iff tree alive
  | wait pid =>
      obtain ⟨r, returned⟩ := runs
      obtain ⟨z, mm, dead, child, rfl⟩ := procWait_ensures cp pid s r t returned
      refine iff_of_true ?_ not_false
      intro p _ _
      by_cases here : p = z
      · subst here
        simp
      · simp [here]
  | kill pid =>
      obtain ⟨r, returned⟩ := runs
      refine iff_of_true ?_ not_false
      rcases procKill_ensures pid s r t returned with rfl | ⟨p, rfl⟩
      · intro _ _ _
        rfl
      · intro q _ _
        exact (quiet_kill s p).pid q

/-- In every run of fewer than 2^31 operations in which no process exits before
its children have been reaped, the pids of the slots in use differ and the parent
of each, other than `init`, is in use; and the next operation keeps every pid
exactly when it is not the exit of a process with a child. -/
theorem process_tree_sound {n : Nat} {s : State} (few : n < 2 ^ 31)
    (run : ReachIn (Started link) (TreeMove link fun u cp op => ¬op.Orphans u cp) n s) :
    (∀ p q, (s.proc p).Used → (s.proc q).Used → (s.proc p).pid = (s.proc q).pid → p = q) ∧
    (∀ p, (s.proc p).Used → p ≠ initSlot →
      ∃ q, (s.proc q).Used ∧ (s.proc q).pid = (s.proc p).ppid) ∧
    ∀ cp op t, (s.proc cp).Alive → TreeOp.Runs link cp s t op →
      (KeepsPids s t ↔ ¬op.Orphans s cp) := by
  have tree : n < 2 ^ 31 → Tree n s := by
    refine ReachIn.invariant_at (h := fun n s => n < 2 ^ 31 → Tree n s) ?_ ?_ run
    · intro s started _
      exact started.tree
    · rintro n s t ih ⟨cp, op, u, v, before, alive, allowed, runs, after⟩ few
      have here := (ih (by omega)).quiet before
      exact (here.op (by omega) alive allowed runs).quiet after
  have tree := tree few
  exact ⟨tree.distinct, tree.parent, fun cp op t alive runs => tree.keepsPids_iff alive runs⟩

end

/-- The small memory under an empty card, before `userinit`. -/
def smallBoot : State := State.loaded (Fs.State.loaded fun _ => Fs.Block.zero) (smallMm 12)

/-- After `userinit`. -/
def smallStarted : State := (userinit smallLink).after smallBoot

/-- `init` has forked, and then its child. -/
def smallFamily : State :=
  (sysFork smallLink 1).after ((sysFork smallLink initSlot).after smallStarted)

theorem smallStarted_started : Started smallLink smallStarted := by
  obtain ⟨value, returned⟩ := returns_after (userinit smallLink) smallBoot
    (by decide +kernel)
  exact ⟨smallBoot, _, fun _ => ⟨rfl, rfl⟩, rfl, returned, Quiet.refl _⟩

theorem smallFamily_reached (allowed : State → Fin NPROC → TreeOp → Prop)
    (forks : ∀ s cp, allowed s cp .fork) :
    ReachIn (Started smallLink) (TreeMove smallLink allowed) 2 smallFamily := by
  obtain ⟨first, forked⟩ := returns_after (sysFork smallLink initSlot) smallStarted
    (by decide +kernel)
  obtain ⟨second, again⟩ := returns_after (sysFork smallLink 1)
    ((sysFork smallLink initSlot).after smallStarted) (by decide +kernel)
  have one : ReachIn (Started smallLink) (TreeMove smallLink allowed) 1
      ((sysFork smallLink initSlot).after smallStarted) :=
    ReachIn.next (ReachIn.start smallStarted_started)
      ⟨initSlot, .fork, _, _, Quiet.refl _, by decide +kernel, forks _ _, ⟨first, forked⟩,
        Quiet.refl _⟩
  exact ReachIn.next one
    ⟨1, .fork, _, _, Quiet.refl _, by decide +kernel, forks _ _, ⟨second, again⟩, Quiet.refl _⟩

/-- Three generations, no exit yet: the pids are those of `allocpid`. -/
theorem process_tree_sound_small :
    ((smallFamily.proc 1).pid = 2 ∧ (smallFamily.proc 2).pid = 3) ∧
    ∃ q, (smallFamily.proc q).Used ∧ (smallFamily.proc q).pid = (smallFamily.proc 2).ppid :=
  ⟨by decide +kernel,
    (process_tree_sound (n := 2) (by decide)
      (smallFamily_reached (fun u cp op => ¬op.Orphans u cp) fun _ _ => not_false)).2.1 2
      (by decide +kernel) (by decide)⟩

/-- When the middle one exits, its child gets the pid of `init`. -/
theorem exit_gives_child_pid_of_init :
    ∃ s, ReachIn (Started smallLink) (TreeMove smallLink fun _ _ _ => True) 3 s ∧
      ∃ p q, p ≠ q ∧ (s.proc p).Used ∧ (s.proc q).Used ∧ (s.proc p).pid = (s.proc q).pid := by
  obtain ⟨value, exited⟩ := returns_after (procExit smallLink 1 0) smallFamily
    (by decide +kernel)
  refine ⟨(procExit smallLink 1 0).after smallFamily, ?_, initSlot, 2, by decide, by decide +kernel,
    by decide +kernel, by decide +kernel⟩
  refine ReachIn.next (smallFamily_reached (fun _ _ _ => True) fun _ _ => trivial) ?_
  exact ⟨1, .exit 0, _, _, Quiet.refl _, by decide +kernel, trivial, exited, Quiet.refl _⟩

end Gcgos.Kernel
