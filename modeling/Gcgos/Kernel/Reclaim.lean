import Gcgos.Kernel.Fork
import Gcgos.Kernel.Tree

/-!
# What comes back from a process

`proc_wait` frees the trapframe and the root table of a zombie. The tables
below the root and the user's pages have no other owner, and stay where they
are.
-/

set_option autoImplicit false

namespace Gcgos.Kernel

open Act ByteMap Radix

section

variable {link : Link}

/-- Memory and the address spaces are the same. -/
structure SameSpaces (s t : State) : Prop where
  mm : t.mm = s.mm
  pagetable : ∀ q, (t.proc q).pagetable = (s.proc q).pagetable
  tf : ∀ q, (t.proc q).tf = (s.proc q).tf

theorem SameSpaces.refl (s : State) : SameSpaces s s := ⟨rfl, fun _ => rfl, fun _ => rfl⟩

theorem SameSpaces.trans {s t u : State} (left : SameSpaces s t) (right : SameSpaces t u) :
    SameSpaces s u :=
  ⟨right.mm.trans left.mm, fun q => (right.pagetable q).trans (left.pagetable q),
    fun q => (right.tf q).trans (left.tf q)⟩

theorem Calm.sameSpaces {s t : State} (calm : Calm s t) (memory : t.mm = s.mm) :
    SameSpaces s t := by
  refine ⟨memory, ?_, ?_⟩
  · intro q
    rcases calm.proc q with same | ⟨_, same⟩ <;> rw [same]
  · intro q
    rcases calm.proc q with same | ⟨_, same⟩ <;> rw [same]

theorem sameSpaces_setProc (s : State) (p : Fin NPROC) {proc : Proc}
    (pagetable : proc.pagetable = (s.proc p).pagetable) (tf : proc.tf = (s.proc p).tf) :
    SameSpaces s (s.setProc p proc) := by
  refine ⟨rfl, ?_, ?_⟩
  · intro q
    by_cases same : q = p
    · rw [same]
      simpa [State.setProc] using pagetable
    · simp [State.setProc, same]
  · intro q
    by_cases same : q = p
    · rw [same]
      simpa [State.setProc] using tf
    · simp [State.setProc, same]

/-- Only the last reference to a pipe touches memory. -/
theorem fdLast_memory (fd : Fd) (s : State) (shared : fd.type = .FD_PIPE → fd.ref ≠ 0) :
    Ensures (fdLast link fd) s fun _ t => t.mm = s.mm := by
  unfold fdLast fdRelease
  apply Ensures.ite
  · intro last
    cases type : fd.type with
    | FD_PIPE => exact absurd last (shared type)
    | FD_FILE =>
        cases fd.ip with
        | some ip =>
            exact Ensures.mono (onFs_ensures (p := fun _ _ => True) fun _ _ _ => trivial)
              fun _ _ done => done.2.1
        | none => exact Ensures.fail
    | FD_CLOSE => exact Ensures.pure rfl
    | FD_NONE => exact Ensures.pure rfl
  · exact fun _ => Ensures.pure rfl

/-- No descriptor of the process is the only reference to a pipe end. -/
def SharedPipes (s : State) (cp : Fin NPROC) : Prop :=
  ∀ i e, (s.proc cp).fds i = some e → (s.fds e).type = .FD_PIPE → (s.fds e).ref ≠ 1

theorem fdClose_memory {s : State} {e : Fin NFD}
    (shared : (s.fds e).type = .FD_PIPE → (s.fds e).ref ≠ 1) :
    Ensures (fdClose link e) s fun _ t => t.mm = s.mm := by
  unfold fdClose
  refine Ensures.step rfl ?_
  refine Ensures.step rfl ?_
  refine Ensures.seq (fdLast_memory _ _ ?_) ?_
  · simp only [State.setFd, Function.update_self]
    intro pipe
    have several := shared pipe
    omega
  · intro _ t same
    exact Ensures.modify same

theorem exitSlot_memory {cp : Fin NPROC} (i : Fin NOFILE) {s : State} (shared : SharedPipes s cp) :
    Ensures (exitSlot link cp i) s fun _ t => SameSpaces s t ∧ SharedPipes t cp := by
  unfold exitSlot
  refine Ensures.step (a := s.proc cp) rfl ?_
  cases entry : (s.proc cp).fds i with
  | none => exact Ensures.pure ⟨SameSpaces.refl s, shared⟩
  | some e =>
      refine Ensures.seq (m := fun _ t => t.mm = s.mm ∧
        Calm (s.setFd e (s.fds e).closed) t) ?_ ?_
      · intro _ t returned
        exact ⟨fdClose_memory (shared i e entry) _ t returned, fdClose_ensures e s _ t returned⟩
      · rintro _ t ⟨memory, calm⟩
        apply Ensures.modify
        have closed : SameSpaces s t := by
          have same := calm.sameSpaces memory
          exact ⟨same.mm, same.pagetable, same.tf⟩
        refine ⟨closed.trans (sameSpaces_setProc t cp rfl rfl), ?_⟩
        intro j e' held pipe
        have slots := (calm.proc cp).fds
        have entries := calm.fds
        simp only [State.setProc, State.setFd, Function.update_self] at held pipe slots entries ⊢
        rw [entries] at pipe ⊢
        by_cases same : e' = e
        · rw [same, Function.update_self] at pipe
          cases pipe
        · rw [Function.update_of_ne same] at pipe ⊢
          by_cases here : j = i
          · rw [here, Function.update_self] at held
            cases held
          · rw [Function.update_of_ne here, slots] at held
            exact shared j e' held pipe

theorem exitSlots_memory (cp : Fin NPROC) (slots : List (Fin NOFILE)) {s : State}
    (shared : SharedPipes s cp) :
    Ensures (exitSlots link cp slots) s fun _ t => SameSpaces s t := by
  induction slots generalizing s with
  | nil => exact Ensures.pure (SameSpaces.refl s)
  | cons i rest ih =>
      unfold exitSlots
      refine Ensures.seq (exitSlot_memory i shared) ?_
      rintro _ t ⟨same, shared'⟩
      exact (ih shared').mono fun _ _ more => same.trans more

theorem wakeParents_memory (ppid : UInt32) (slots : List (Fin NPROC)) (s : State) :
    Ensures (wakeParents ppid slots) s fun _ t => t.mm = s.mm := by
  induction slots generalizing s with
  | nil => exact Ensures.pure rfl
  | cons p rest ih =>
      unfold wakeParents
      refine Ensures.seq (m := fun _ t => t.mm = s.mm) ?_ ?_
      · unfold wakeParent
        refine Ensures.step rfl ?_
        apply Ensures.ite
        · exact fun _ => Ensures.modify rfl
        · exact fun _ => Ensures.pure rfl
      · intro _ t same
        exact (ih t).mono fun _ _ more => more.trans same

/-- A process that shares its pipes exits without touching memory. -/
theorem procExit_memory {cp : Fin NPROC} (start : Nat) {s : State} (shared : SharedPipes s cp) :
    Ensures (procExit link cp start) s fun _ t => SameSpaces s t := by
  unfold procExit
  refine Ensures.step rfl ?_
  have zombie : SharedPipes (s.setProc cp { s.proc cp with state := .ZOMBIE }) cp := by
    intro i e held
    simp only [State.setProc, Function.update_self] at held
    exact shared i e held
  have marked := sameSpaces_setProc s cp
    (rfl : ({ s.proc cp with state := .ZOMBIE } : Proc).pagetable = _) rfl
  refine Ensures.seq (exitSlots_memory cp _ zombie) ?_
  intro _ t same
  refine Ensures.step rfl ?_
  refine Ensures.seq (m := fun _ u => SameSpaces t u) ?_ ?_
  · intro _ u returned
    exact (wakeParents_calm _ _ t _ u returned).sameSpaces (wakeParents_memory _ _ t _ u returned)
  · intro _ u same'
    refine (abandonChildren_ensures cp _ u).mono ?_
    rintro _ w ⟨relabelled, _, _, memory⟩
    refine ((marked.trans same).trans same').trans ⟨memory, ?_, ?_⟩
    · intro q
      obtain ⟨pid, changed⟩ := relabelled q
      rw [changed]
    · intro q
      obtain ⟨pid, changed⟩ := relabelled q
      rw [changed]

/-- What `proc_wait` frees. -/
theorem procWait_memory {cp p : Fin NPROC} {s : State} (pid : Int)
    (reaped : zombieChild s cp = some p) {free : List Nat} (list : Listed link s.mm free)
    (frame : IsPage link (s.proc p).tf) (table : IsPage link (s.proc p).pagetable)
    (taken : (s.proc p).tf ∉ free) (taken' : (s.proc p).pagetable ∉ free)
    (apart : (s.proc p).pagetable ≠ (s.proc p).tf) :
    Ensures (procWait link cp pid) s fun _ t =>
      Listed link t.mm ((s.proc p).pagetable :: (s.proc p).tf :: free) := by
  unfold procWait
  refine Ensures.step (a := zombieChild s cp) rfl ?_
  rw [reaped]
  refine Ensures.step rfl ?_
  refine Ensures.seq (m := fun _ t =>
    Listed link t.mm ((s.proc p).pagetable :: (s.proc p).tf :: free)) ?_ ?_
  · apply Ensures.zoom
    refine Ensures.seq (list.kfree_yields frame taken).ensures ?_
    rintro _ u ⟨first, _⟩
    refine (first.kfree_yields table ?_).ensures.mono fun _ _ second => second.1
    intro member
    rcases List.mem_cons.mp member with same | member
    · exact apart same
    · exact taken' member
  · intro _ t listed
    refine Ensures.step rfl ?_
    exact Ensures.pure listed

/-- The last-level table of the trampoline. -/
theorem NewTable.leaf {m v : Mm} {free rest : List Nat} {root tf : Nat}
    (table : NewTable link m v free rest root tf) (left : rest ≠ []) :
    ∃ leaf, IsTable v.mem root leaf ∧ leaf ≠ root := by
  have maps := (table.maps.resolve_left left) TRAMPOLINE (by decide)
  cases path : descend (child v.mem) root (leafPath TRAMPOLINE) with
  | none =>
      unfold translate at maps
      rw [path, Option.bind_none] at maps
      unfold kernelEntry at maps
      rw [if_pos le_rfl] at maps
      cases maps
  | some leaf =>
      refine ⟨leaf, ⟨leafPath TRAMPOLINE, (leafPath_length _).le, path⟩, ?_⟩
      rintro rfl
      have same := table.space.apart (leafPath TRAMPOLINE) [] leaf (leafPath_length _).le
        (by decide) path descend_nil
      cases same

/-- A run of fork, exit and wait in which memory does not run out. `p` forks
the process in slot `np`, which exits at once and is reaped by `p`. -/
structure Lifetime (link : Link) (s t1 t2 t3 : State) (p np : Fin NPROC) : Prop where
  running : (s.proc p).state ≠ .UNUSED
  counted : ∀ i e, (s.proc p).fds i = some e → (s.fds e).type = .FD_PIPE → 1 ≤ (s.fds e).ref
  fork : ∃ pid, sysFork link p s = .ok (pid, t1)
  new : (s.proc np).state = .UNUSED ∧ (t1.proc np).state ≠ .UNUSED
  memory : t1.mm.freelist ≠ 0
  exit : procExit link np 0 t1 = .ok ((), t2)
  reaped : zombieChild t2 p = some np
  wait : ∃ pid result, procWait link p pid t2 = .ok (result, t3)

theorem pointers_pos {p : Proc} {i : Fin NOFILE} {e : Fin NFD} (held : p.fds i = some e) :
    0 < p.pointers e := by
  unfold Proc.pointers
  apply List.length_pos_of_mem (a := i)
  simp [held]

/-- The fork of a lifetime, seen in memory. -/
theorem Lifetime.forked {s t1 t2 t3 : State} {p np : Fin NPROC}
    (life : Lifetime link s t1 t2 t3 p np) :
    Forked s t1 p np ∧ ∃ v u, ForkMemory link s t1 p np v u := by
  obtain ⟨pid, fork⟩ := life.fork
  unfold sysFork at fork
  obtain ⟨child, t, copied, rest⟩ := Act.bind_eq_ok.mp fork
  obtain ⟨v, u, memory⟩ := copyproc_memory life.running child t copied
  have final : t1 = t.setProc child { t.proc child with state := .RUNNABLE } := by
    cases rest
    rfl
  have forked : Forked s t1 p child := by
    rw [final]
    exact copyproc_ensures life.running child t copied
  obtain rfl : child = np := by
    by_contra different
    have kept := forked.others np (Ne.symm different)
    exact life.new.2 (by rw [kept]; exact life.new.1)
  refine ⟨forked, v, u, ?_, ?_, ?_⟩
  · rw [memory.table, final]
    simp [State.setProc]
  · rw [← memory.copied]
    apply congrFun
    apply copyMemory_congr <;> simp [final, State.setProc]
  · have cleared := memory.cleared
    simpa [final, State.setProc] using cleared

/-- A page of the child's table is lost. -/
theorem Lifetime.leaks {s t1 t2 t3 : State} {p np : Fin NPROC} {free : List Nat}
    (life : Lifetime link s t1 t2 t3 p np) (list : FreeList link s.mm free) :
    ∃ leaf ∈ free, ∀ after, Listed link t3.mm after → leaf ∉ after := by
  obtain ⟨forked, v, u, memory⟩ := life.forked
  obtain ⟨w, rest0, rest, child⟩ := memory.childSpace list
  have left : rest ≠ [] := by
    rintro rfl
    exact life.memory (child.space.list.chain.head_eq_zero.mpr rfl)
  have left0 : rest0 ≠ [] := by
    rintro rfl
    exact left (List.suffix_nil.mp child.grew.taken)
  obtain ⟨leaf, table, notRoot⟩ := child.table.leaf left0
  have still := (child.isTable leaf).mpr (child.grew.kept leaf table)
  refine ⟨leaf, child.table.owned leaf table, ?_⟩
  intro after listed
  have shared : SharedPipes t1 np := by
    intro i e held pipe
    rw [forked.slots] at held
    rw [forked.fds] at pipe ⊢
    have once := life.counted i e held pipe
    have more := pointers_pos held
    simp only
    omega
  have exited := procExit_memory 0 shared _ _ life.exit
  obtain ⟨pid, result, wait⟩ := life.wait
  have root : IsTable t1.mm.mem (t1.proc np).pagetable (t1.proc np).pagetable :=
    ⟨[], by decide, descend_nil⟩
  have left' : Listed link t2.mm rest := by
    rw [exited.mm]
    exact child.space.list.toListed
  have freed := procWait_memory pid life.reaped left'
    (by rw [exited.tf]; exact child.frame)
    (by rw [exited.pagetable]; exact child.space.page _ root)
    (by rw [exited.tf]; exact child.out)
    (by rw [exited.pagetable]; exact child.space.held _ root)
    (by
      rw [exited.tf, exited.pagetable]
      intro same
      exact child.apart (same ▸ root)) _ _ wait
  rw [freed.unique listed, exited.tf, exited.pagetable, List.mem_cons, List.mem_cons]
  rintro (same | same | member)
  · exact notRoot same
  · exact child.apart (same ▸ still)
  · exact child.space.held leaf still member

/-- Fork, exit and wait never leave the free list as it was. -/
theorem lifetime_not_conserved {link : Link} {s t1 t2 t3 : State} {p np : Fin NPROC}
    {free : List Nat} (list : FreeList link s.mm free) (life : Lifetime link s t1 t2 t3 p np) :
    ¬∃ after, Listed link t3.mm after ∧ ∀ pg, pg ∈ after ↔ pg ∈ free := by
  rintro ⟨after, listed, same⟩
  obtain ⟨leaf, before, lost⟩ := life.leaks list
  exact lost after listed ((same leaf).mpr before)

theorem userinit_memory (s : State) :
    Ensures (userinit link) s fun _ t => ∃ result, procPagetable link s.mm = .ok (result, t.mm) := by
  unfold userinit
  refine Ensures.seq (allocproc_memory s) ?_
  rintro p t ⟨_, _, table⟩
  exact Ensures.modify ⟨_, table⟩

theorem smallStarted_freeList : ∃ free, FreeList smallLink smallStarted.mm free := by
  obtain ⟨_, returned⟩ := returns_after (userinit smallLink) smallBoot (by decide +kernel)
  obtain ⟨_, table⟩ := userinit_memory smallBoot _ _ returned
  obtain ⟨rest, new⟩ := procPagetable_ensures
    (smallMm_freeList (by decide : 12 ≠ 0) (by decide)) _ _ table
  exact ⟨rest, new.space.list⟩

/-- `init` forks, the child exits and is reaped. -/
theorem smallLifetime : ∃ t1 t2 t3, Lifetime smallLink smallStarted t1 t2 t3 initSlot 1 := by
  obtain ⟨pid, forked⟩ := returns_after (sysFork smallLink initSlot) smallStarted
    (by decide +kernel)
  obtain ⟨_, exited⟩ := returns_after (procExit smallLink 1 0)
    ((sysFork smallLink initSlot).after smallStarted) (by decide +kernel)
  obtain ⟨result, waited⟩ := returns_after (procWait smallLink initSlot 0)
    ((procExit smallLink 1 0).after ((sysFork smallLink initSlot).after smallStarted))
    (by decide +kernel)
  refine ⟨_, _, _, by decide +kernel, ?_, ⟨pid, forked⟩, by decide +kernel, by decide +kernel,
    exited, by decide +kernel, 0, result, waited⟩
  intro i e held
  have none : ∀ i, (smallStarted.proc initSlot).fds i = none := by decide +kernel
  rw [none i] at held
  cases held

theorem lifetime_not_conserved_small : ∃ (free : List Nat) (t3 : State),
    FreeList smallLink smallStarted.mm free ∧
    ¬∃ after, Listed smallLink t3.mm after ∧ ∀ pg, pg ∈ after ↔ pg ∈ free := by
  obtain ⟨free, list⟩ := smallStarted_freeList
  obtain ⟨t1, t2, t3, life⟩ := smallLifetime
  exact ⟨free, t3, list, lifetime_not_conserved list life⟩

/-- The trampoline's last-level table does not come back. -/
theorem first_child_leaks : ∃ (free : List Nat) (t1 t2 t3 : State),
    FreeList smallLink smallStarted.mm free ∧
    Lifetime smallLink smallStarted t1 t2 t3 initSlot 1 ∧
    ∃ pg ∈ free, ∀ after, Listed smallLink t3.mm after → pg ∉ after := by
  obtain ⟨free, list⟩ := smallStarted_freeList
  obtain ⟨t1, t2, t3, life⟩ := smallLifetime
  exact ⟨free, t1, t2, t3, list, life, life.leaks list⟩

end

end Gcgos.Kernel
