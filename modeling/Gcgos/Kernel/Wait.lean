import Gcgos.Kernel.Reclaim

/-!
# Waiting for a child

`proc_wait` is to reap a zombie child and return its pid, to return -1 to a
process without children, and to sleep otherwise. The pid is never assigned,
and every slot that the loop passes over counts as a child.
-/

set_option autoImplicit false

namespace Gcgos.Kernel

open Act

section

variable {link : Link}

/-- Exactly the pages of the allocator can be freed. -/
theorem kfree_guard_iff {pa : Nat} :
    ¬(pa % PGSIZE ≠ 0 ∨ pa < link.kend ∨ PHYSTOP ≤ pa) ↔ IsPage link pa := by
  have image := link.image
  have round : link.base = (link.kend + 4095) / 4096 * 4096 := by
    unfold Link.base PGROUNDUP
    rw [Nat.mod_eq_of_lt]
    · rfl
    · simp only [KERNBASE, PHYSTOP, PGSIZE] at *
      omega
  constructor
  · intro passed
    refine ⟨?_, ?_, ?_⟩ <;> simp only [KERNBASE, PHYSTOP, PGSIZE] at * <;> omega
  · rintro ⟨aligned, lower, upper⟩
    simp only [KERNBASE, PHYSTOP, PGSIZE] at *
    omega

theorem kfree_run {pa : Nat} (page : IsPage link pa) (m : Mm) :
    ∃ t, kfree link pa m = .ok ((), t) := by
  unfold kfree
  rw [Act.bind_of_ok (Act.stopIf_of_not _ m (kfree_guard_iff.mpr page))]
  have inside : InRam link pa 8 := by
    obtain ⟨aligned, lower, upper⟩ := page
    right
    simp only [PGSIZE] at upper
    omega
  exact ⟨_, (Act.bind_of_ok (store64_run inside _ m)).trans rfl⟩

theorem kfree_ensures (pa : Nat) (m : Mm) :
    Ensures (kfree link pa) m fun _ _ => IsPage link pa := by
  unfold kfree
  refine Ensures.guard fun passed => ?_
  intro _ _ _
  exact kfree_guard_iff.mp passed

/-! ## The contract -/

/-- A child, in any state but unused. -/
def Child (s : State) (cp p : Fin NPROC) : Prop :=
  (s.proc p).Used ∧ (s.proc p).ppid = (s.proc cp).pid

/-- A child that has exited. -/
def Zombie (s : State) (cp p : Fin NPROC) : Prop :=
  (s.proc p).state = .ZOMBIE ∧ (s.proc p).ppid = (s.proc cp).pid

instance (s : State) (cp p : Fin NPROC) : Decidable (Child s cp p) :=
  inferInstanceAs (Decidable (_ ∧ _))

instance (s : State) (cp p : Fin NPROC) : Decidable (Zombie s cp p) :=
  inferInstanceAs (Decidable (_ ∧ _))

theorem Zombie.child {s : State} {cp p : Fin NPROC} (zombie : Zombie s cp p) : Child s cp p := by
  refine ⟨?_, zombie.2⟩
  unfold Proc.Used
  rw [zombie.1]
  decide

/-- A pid as the `int` that `proc_wait` returns. -/
def pidInt (p : Proc) : Int := Fs.asInt p.pid.toNat

/-- What `proc_wait` is for. -/
structure WaitContract (link : Link) (cp : Fin NPROC) (pid : Int) (s : State) : Prop where
  reaps : (∃ p, Zombie s cp p) → ∃ p t, Zombie s cp p ∧
    procWait link cp pid s = .ok (pidInt (s.proc p), t) ∧
    t.proc = Function.update s.proc p { s.proc p with state := .UNUSED }
  childless : (¬∃ p, Child s cp p) → ∃ t, procWait link cp pid s = .ok (-1, t) ∧ t.proc = s.proc
  sleeps : ∀ chan, procWait link cp pid s = .error (.sleep chan) →
    (∃ p, Child s cp p) ∧ ¬∃ p, Zombie s cp p

/-! ## What the code does -/

theorem zombieChild_none {s : State} {cp : Fin NPROC} :
    zombieChild s cp = none ↔ ¬∃ p, Zombie s cp p := by
  unfold zombieChild
  rw [List.find?_eq_none]
  constructor
  · rintro nobody ⟨p, dead, child⟩
    exact nobody p (List.mem_finRange p) (by simp [dead, child])
  · intro nobody p _ found
    exact nobody ⟨p, by simpa [Zombie] using found⟩

theorem procWait_sleeps {s : State} {cp : Fin NPROC} (nobody : ¬∃ p, Zombie s cp p) (pid : Int) :
    procWait link cp pid s = .error (.sleep (.proc cp)) := by
  unfold procWait
  refine (Act.bind_of_ok (a := zombieChild s cp) rfl).trans ?_
  rw [zombieChild_none.mpr nobody]
  rfl

theorem procWait_reaps {s : State} {cp p : Fin NPROC} (found : zombieChild s cp = some p)
    (frame : IsPage link (s.proc p).tf) (table : IsPage link (s.proc p).pagetable) (pid : Int) :
    ∃ t, procWait link cp pid s = .ok (pid, t) ∧
      t.proc = Function.update s.proc p { s.proc p with state := .UNUSED } := by
  obtain ⟨u, first⟩ := kfree_run frame s.mm
  obtain ⟨v, second⟩ := kfree_run table u
  have freed : onMm (do
      kfree link (s.proc p).tf
      kfree link (s.proc p).pagetable) s = .ok ((), { s with mm := v }) :=
    Act.zoom_of_ok ((Act.bind_of_ok first).trans second)
  refine ⟨{ s with mm := v }.setProc p { s.proc p with state := .UNUSED }, ?_, rfl⟩
  unfold procWait
  refine (Act.bind_of_ok (a := zombieChild s cp) rfl).trans ?_
  rw [found]
  exact (Act.bind_of_ok (rfl : procAt p s = .ok (s.proc p, s))).trans (Act.bind_of_ok freed)

/-- A call that returns has freed both pages of the first zombie child. -/
theorem procWait_returned {cp : Fin NPROC} (pid : Int) (s : State) :
    Ensures (procWait link cp pid) s fun result t => ∃ p, zombieChild s cp = some p ∧
      IsPage link (s.proc p).tf ∧ IsPage link (s.proc p).pagetable ∧ result = pid ∧
      t.proc = Function.update s.proc p { s.proc p with state := .UNUSED } := by
  unfold procWait
  refine Ensures.step (a := zombieChild s cp) rfl ?_
  cases found : zombieChild s cp with
  | none => exact Ensures.fail
  | some p =>
      refine Ensures.step rfl ?_
      refine Ensures.seq (m := fun _ t => (IsPage link (s.proc p).tf ∧
        IsPage link (s.proc p).pagetable) ∧ t.proc = s.proc) ?_ ?_
      · apply Ensures.zoom
        refine Ensures.seq (kfree_ensures _ _) ?_
        intro _ u frame
        exact (kfree_ensures _ _).mono fun _ _ table => ⟨⟨frame, table⟩, rfl⟩
      · rintro _ t ⟨⟨frame, table⟩, same⟩
        refine Ensures.step rfl ?_
        apply Ensures.pure
        refine ⟨p, rfl, frame, table, rfl, ?_⟩
        simp only [State.setProc, same]

/-- The contract is met exactly when the uninitialised value happens to be the
pid of the first zombie child, or there are children and none is a zombie. -/
theorem procWait_contract_iff (cp : Fin NPROC) (pid : Int) (s : State) :
    WaitContract link cp pid s ↔
      (∃ p, zombieChild s cp = some p ∧ IsPage link (s.proc p).tf ∧
        IsPage link (s.proc p).pagetable ∧ pid = pidInt (s.proc p)) ∨
      ((∃ p, Child s cp p) ∧ ¬∃ p, Zombie s cp p) := by
  constructor
  · intro contract
    by_cases dead : ∃ p, Zombie s cp p
    · left
      obtain ⟨p, t, zombie, run, marked⟩ := contract.reaps dead
      obtain ⟨q, found, frame, table, same, marked'⟩ := procWait_returned pid s _ _ run
      -- only the slot that the loop found is marked
      have slot : p = q := by
        by_contra other
        have unmarked := congrFun marked' p
        rw [Function.update_of_ne other, marked, Function.update_self] at unmarked
        have state := congrArg Proc.state unmarked
        rw [zombie.1] at state
        cases state
      subst slot
      exact ⟨p, found, frame, table, same.symm⟩
    · right
      refine ⟨?_, dead⟩
      exact (contract.sleeps _ (procWait_sleeps dead pid)).1
  · rintro (⟨p, found, frame, table, rfl⟩ | ⟨child, nobody⟩)
    · have zombie : Zombie s cp p := zombieChild_some found
      obtain ⟨t, run, marked⟩ := procWait_reaps found frame table (pidInt (s.proc p))
      refine ⟨fun _ => ⟨p, t, zombie, run, marked⟩, fun none => absurd ⟨p, zombie.child⟩ none, ?_⟩
      intro chan slept
      rw [run] at slept
      cases slept
    · exact ⟨fun dead => absurd dead nobody, fun none => absurd child none,
        fun _ _ => ⟨child, nobody⟩⟩

end

/-- The kernel after `init` has forked and the child has exited. -/
def smallExited : State :=
  (procExit smallLink ⟨1, by decide⟩ 0).after ((sysFork smallLink initSlot).after smallStarted)

/-- `init` alone waits, and sleeps instead of getting -1; with a zombie child
it gets whatever its stack held. -/
theorem wait_contract_fails :
    ¬WaitContract smallLink initSlot 0 smallStarted ∧
      ¬WaitContract smallLink initSlot 0 smallExited := by
  have facts : (∀ p, ¬Child smallStarted initSlot p) ∧ (∃ p, Zombie smallExited initSlot p) ∧
      ∀ p, Zombie smallExited initSlot p → pidInt (smallExited.proc p) = 2 := by
    decide +kernel
  obtain ⟨childless, dead, pids⟩ := facts
  constructor
  · intro contract
    have nobody : ¬∃ p, Child smallStarted initSlot p := fun ⟨p, child⟩ => childless p child
    obtain ⟨t, run, -⟩ := contract.childless nobody
    have slept : procWait smallLink initSlot 0 smallStarted = .error (.sleep (.proc initSlot)) :=
      procWait_sleeps (fun ⟨p, zombie⟩ => childless p zombie.child) 0
    rw [slept] at run
    cases run
  · intro contract
    obtain ⟨p, t, zombie, run, -⟩ := contract.reaps dead
    obtain ⟨q, -, -, -, stale, -⟩ := procWait_returned 0 smallExited _ _ run
    rw [pids p zombie] at stale
    exact absurd stale (by decide)

end Gcgos.Kernel
