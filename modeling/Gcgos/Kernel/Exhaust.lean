import Gcgos.Kernel.Reopen

/-!
# Running out of descriptors and processes

`fd_alloc`, `fd_ualloc`, `pipe_alloc` and `allocproc` report that nothing is
left; `sys_open`, `sys_pipe` and `sys_fork` go on without looking. What each of
the three calls would owe its caller is stated first, and then that it keeps to
it exactly as long as nothing runs out.
-/

set_option autoImplicit false

namespace Gcgos.Kernel

open Act Fs

/-- The tables that a refused call is to leave alone. -/
structure Untouched (s t : State) : Prop where
  proc : t.proc = s.proc
  fds : t.fds = s.fds
  inode : ∀ i, (t.fs.inode i).count = (s.fs.inode i).count ∧
    (t.fs.inode i).busy = (s.fs.inode i).busy

/-- The number of entries of `fds[]` that are closed. -/
def freeEntries (s : State) : Nat :=
  (Finset.univ.filter fun e : Fin NFD => (s.fds e).type = .FD_CLOSE).card

/-- `sys_open` needs an entry of `fds[]` and a descriptor. -/
def OpenShort (s : State) (cp : Fin NPROC) : Prop :=
  (s.proc cp).freeSlot = none ∨ freeEntries s < 1

/-- `sys_pipe` needs two entries of `fds[]`. -/
def PipeShort (s : State) (cp : Fin NPROC) : Prop :=
  (s.proc cp).freeSlot = none ∨ freeEntries s < 2

def ForkShort (s : State) : Prop := ∀ p, (s.proc p).state ≠ .UNUSED

section

variable (link : Link) (cp : Fin NPROC) (s : State)

/-- The arguments of `sys_open` name an inode, and `namei` returns it. -/
def Existing (ip : Fin NINODE) (arg1 : Int) (u : State) : Prop :=
  ∃ file_name s1 s2, argaddr link cp 0 DIRSIZ s = .ok (file_name, s1) ∧
    argraw link cp 1 s1 = .ok (arg1, s2) ∧ onFs (namei file_name) s2 = .ok (some ip, u)

/-- `sys_open` of a file that exists. -/
def OpenSound : Prop :=
  ∀ ip arg1 u, Existing link cp s ip arg1 u →
    (OpenShort s cp → ∃ t, sysOpen link cp s = .ok (-1, t) ∧ Untouched s t) ∧
    (¬OpenShort s cp → ∃ (slot : Fin NOFILE) (t : State),
      sysOpen link cp s = .ok ((slot.val : Int), t) ∧ (s.proc cp).fds slot = none)

def PipeSound : Prop :=
  PipeShort s cp → ∃ t, sysPipe link cp s = .ok (-1, t) ∧ Untouched s t

def ForkSound : Prop := ForkShort s → ∃ t, sysFork link cp s = .ok (-1, t) ∧ Untouched s t

end

section

variable {link : Link} {cp : Fin NPROC} {s : State}

theorem freeEntry_none_iff : freeEntry s = none ↔ freeEntries s < 1 := by
  unfold freeEntry freeEntries
  rw [List.find?_eq_none, Nat.lt_one_iff, Finset.card_eq_zero, Finset.filter_eq_empty_iff]
  simp

/-- `fork` with a full process table goes through a null pointer. -/
theorem sysFork_short (short : ForkShort s) : sysFork link cp s = .error .abort := by
  have none : unusedSlot s = none := by
    unfold unusedSlot
    rw [List.find?_eq_none]
    intro p _ unused
    exact short p (by simpa using unused)
  have alloc : allocproc link s = .error .abort := by
    unfold allocproc
    refine (Act.bind_of_ok (a := unusedSlot s) rfl).trans ?_
    rw [none]
    rfl
  unfold sysFork copyproc
  exact Act.bind_of_error (Act.bind_of_error alloc)

/-- `sys_pipe` has no way to report a failure. -/
theorem sysPipe_zero : Ensures (sysPipe link cp) s fun result _ => result = 0 := by
  unfold sysPipe
  refine Ensures.seq (m := fun _ _ => True) (fun _ _ _ => trivial) fun ends t _ => ?_
  refine Ensures.seq (m := fun _ _ => True) (fun _ _ _ => trivial) fun _ _ _ => ?_
  refine Ensures.seq (m := fun _ _ => True) (fun _ _ _ => trivial) fun _ _ _ => ?_
  refine Ensures.seq (m := fun _ _ => True) (fun _ _ _ => trivial) fun _ _ _ => ?_
  refine Ensures.seq (m := fun _ _ => True) (fun _ _ _ => trivial) fun _ _ _ => ?_
  refine Ensures.seq (m := fun _ _ => True) (fun _ _ _ => trivial) fun _ _ _ => ?_
  refine Ensures.seq (m := fun _ _ => True) (fun _ _ _ => trivial) fun _ _ _ => ?_
  refine Ensures.seq (m := fun _ _ => True) (fun _ _ _ => trivial) fun _ _ _ => ?_
  refine Ensures.seq (m := fun _ _ => True) (fun _ _ _ => trivial) fun _ _ _ => ?_
  exact Ensures.pure rfl

/-- After `namei` has found the inode, `sys_open` is its last part. -/
theorem Existing.sysOpen_eq {ip : Fin NINODE} {arg1 : Int} {u : State}
    (existing : Existing link cp s ip arg1 u) :
    sysOpen link cp s = openInstall link cp ip arg1 u := by
  obtain ⟨file_name, s1, s2, name, flags, found⟩ := existing
  have opened : onFs (openInode file_name arg1) s2 = .ok (some ip, u) := by
    obtain ⟨result, s3, walked, drained⟩ := Act.bind_eq_ok.mp found
    obtain ⟨fs, inner, rfl⟩ := Act.zoom_eq_ok.mp walked
    obtain ⟨_, _, drain, last⟩ := Act.bind_eq_ok.mp drained
    cases last
    have same : openInode file_name arg1 s2.fs = .ok (some ip, fs) := by
      unfold openInode
      exact Act.bind_of_ok inner
    unfold onFs
    rw [Act.bind_of_ok (Act.zoom_of_ok same), Act.bind_of_ok drain]
    rfl
  unfold sysOpen
  rw [Act.bind_of_ok name, Act.bind_of_ok flags, Act.bind_of_ok opened]

theorem Existing.calm {ip : Fin NINODE} {arg1 : Int} {u : State}
    (existing : Existing link cp s ip arg1 u) : Calm s u := by
  obtain ⟨file_name, s1, s2, name, flags, found⟩ := existing
  obtain ⟨-, rfl⟩ := argraw_ensures cp 1 s1 _ _ flags
  exact (argaddr_calm cp 0 DIRSIZ s _ _ name).trans (onFs_calm _ _ _ _ found)

theorem Calm.freeSlot_eq {u : State} (calm : Calm s u) :
    (u.proc cp).freeSlot = (s.proc cp).freeSlot := by
  rcases calm.proc cp with same | ⟨_, same⟩ <;> rw [same]
  rfl

theorem Calm.freeEntry_eq {u : State} (calm : Calm s u) : freeEntry u = freeEntry s := by
  unfold freeEntry
  rw [calm.fds]

/-- Without an entry of `fds[]` the call goes through a null pointer. -/
theorem openInstall_noEntry (ip : Fin NINODE) (arg1 : Int) (entry : freeEntry s = none) :
    openInstall link cp ip arg1 s = .error .abort := by
  obtain ⟨_, t, unlocked, -⟩ := onFs_iunlock ip s
  unfold openInstall
  rw [Act.bind_of_ok (fdAlloc_eq s), entry]
  refine (Act.bind_of_ok (f := fdUalloc cp) rfl).trans ?_
  exact (Act.bind_of_ok unlocked).trans rfl

/-- Without a descriptor it returns -1 and has taken an entry. -/
theorem openInstall_noSlot (ip : Fin NINODE) (arg1 : Int) {e : Fin NFD}
    (entry : freeEntry s = some e) (full : (s.proc cp).freeSlot = none) :
    Ensures (openInstall link cp ip arg1) s fun _ t => t.fds ≠ s.fds := by
  have closed : (s.fds e).type = .FD_CLOSE := by
    have hit := List.find?_some entry
    simpa using hit
  unfold openInstall
  refine Ensures.step (fdAlloc_eq s) ?_
  rw [entry]
  refine Ensures.step (a := none) (by rw [← full]; rfl) ?_
  refine Ensures.seq (onFs_calm _ _) fun _ t _ => ?_
  refine Ensures.step rfl ?_
  refine Ensures.step rfl ?_
  apply Ensures.pure
  intro same
  have taken := congrArg Fd.type (congrFun same e)
  rw [closed] at taken
  simp [Fd.opened, State.setProc, State.setFd] at taken

theorem openInstall_slot (ip : Fin NINODE) (arg1 : Int) {e : Fin NFD} {slot : Fin NOFILE}
    (entry : freeEntry s = some e) (free : (s.proc cp).freeSlot = some slot) :
    Yields (openInstall link cp ip arg1) s fun r _ => r = slot.val := by
  unfold openInstall
  refine Yields.step (fdAlloc_eq s) ?_
  rw [entry]
  refine Yields.step (a := some slot) (by rw [← free]; rfl) ?_
  refine Yields.seq (onFs_iunlock ip _) ?_
  intro _ t _
  refine Yields.step rfl ?_
  refine Yields.step rfl ?_
  exact ⟨_, _, rfl, rfl⟩

/-- In a shortage `sys_open` never fails as it should. -/
theorem sysOpen_short {ip : Fin NINODE} {arg1 : Int} {u : State}
    (existing : Existing link cp s ip arg1 u) (short : OpenShort s cp) :
    ¬∃ t, sysOpen link cp s = .ok (-1, t) ∧ Untouched s t := by
  have calm := existing.calm
  rintro ⟨t, run, untouched⟩
  rw [existing.sysOpen_eq] at run
  cases entry : freeEntry u with
  | none =>
      rw [openInstall_noEntry ip arg1 entry] at run
      cases run
  | some e =>
      have slots : (u.proc cp).freeSlot = none := by
        rw [calm.freeSlot_eq]
        refine short.resolve_right fun none_left => ?_
        rw [calm.freeEntry_eq, freeEntry_none_iff.mpr none_left] at entry
        cases entry
      refine openInstall_noSlot ip arg1 entry slots _ _ run ?_
      rw [untouched.fds, calm.fds]

theorem sysOpen_enough {ip : Fin NINODE} {arg1 : Int} {u : State}
    (existing : Existing link cp s ip arg1 u) (enough : ¬OpenShort s cp) :
    ∃ (slot : Fin NOFILE) (t : State),
      sysOpen link cp s = .ok ((slot.val : Int), t) ∧ (s.proc cp).fds slot = none := by
  have calm := existing.calm
  obtain ⟨slot, free⟩ := Option.ne_none_iff_exists'.mp fun none => enough (Or.inl none)
  obtain ⟨e, entry⟩ := Option.ne_none_iff_exists'.mp fun none =>
    enough (Or.inr (freeEntry_none_iff.mp none))
  rw [← calm.freeEntry_eq] at entry
  obtain ⟨r, t, run, rfl⟩ : Yields (openInstall link cp ip arg1) u fun r _ => r = slot.val :=
    openInstall_slot ip arg1 entry (calm.freeSlot_eq.trans free)
  refine ⟨slot, t, existing.sysOpen_eq.trans run, ?_⟩
  have hit := List.find?_some free
  simpa using hit

end

/-- Each of the three calls is sound exactly when it is not short of anything;
for `sys_open` a shortage shows only when the file exists. -/
theorem exhaustion_sound_iff (link : Link) (cp : Fin NPROC) (s : State) :
    (OpenSound link cp s ↔
      ¬(OpenShort s cp ∧ ∃ ip arg1 u, Existing link cp s ip arg1 u)) ∧
    (PipeSound link cp s ↔ ¬PipeShort s cp) ∧
    (ForkSound link cp s ↔ ¬ForkShort s) := by
  refine ⟨⟨?_, ?_⟩, ⟨?_, fun enough short => absurd short enough⟩,
    ⟨?_, fun enough short => absurd short enough⟩⟩
  · rintro sound ⟨short, ip, arg1, u, existing⟩
    exact sysOpen_short existing short ((sound ip arg1 u existing).1 short)
  · intro enough ip arg1 u existing
    have plenty : ¬OpenShort s cp := fun short => enough ⟨short, ip, arg1, u, existing⟩
    exact ⟨fun short => absurd short plenty, sysOpen_enough existing⟩
  · intro sound short
    obtain ⟨t, run, -⟩ := sound short
    have zero : (-1 : Int) = 0 := sysPipe_zero _ _ run
    exact absurd zero (by decide)
  · intro sound short
    obtain ⟨t, run, -⟩ := sound short
    rw [sysFork_short short] at run
    cases run

/-- A process that opens the root directory when every entry of `fds[]` and
every process slot is taken. -/
def fullTables : State :=
  { creator [] with
    fds := fun _ => { Fd.zero with type := .FD_NONE }
    proc := fun p => { (creator []).proc p with state := .RUNNABLE } }

theorem fullTables_facts :
    (argaddr smallLink initSlot 0 DIRSIZ fullTables).toOption.map Prod.fst =
      some (List.replicate DIRSIZ 0) ∧
    (argraw smallLink initSlot 1 fullTables).toOption.map Prod.fst = some 0x200 ∧
    (onFs (namei (List.replicate DIRSIZ 0)) fullTables).toOption.map Prod.fst =
      some (some ⟨0, by decide⟩) := by
  decide +kernel

theorem fullTables_existing : ∃ ip arg1 u, Existing smallLink initSlot fullTables ip arg1 u := by
  obtain ⟨named, flags, found⟩ := fullTables_facts
  refine ⟨⟨0, by decide⟩, 0x200, _, List.replicate DIRSIZ 0, fullTables, fullTables, ?_, ?_,
    Act.ok_after found⟩
  · exact Act.ok_of_value (argaddr_look initSlot 0 _ _) named
  · exact Act.ok_of_value ((argraw_ensures initSlot 1 _).mono fun _ _ done => done.2) flags

/-- None of the three calls fails as it should. -/
theorem exhaustion_not_atomic :
    ¬OpenSound smallLink initSlot fullTables ∧ ¬PipeSound smallLink initSlot fullTables ∧
      ¬ForkSound smallLink initSlot fullTables := by
  have none_left : freeEntries fullTables = 0 := by
    unfold freeEntries
    rw [Finset.card_eq_zero, Finset.filter_eq_empty_iff]
    intro e _ closed
    cases closed
  refine ⟨?_, ?_, ?_⟩
  · intro sound
    obtain ⟨ip, arg1, u, existing⟩ := fullTables_existing
    have short : OpenShort fullTables initSlot := Or.inr (by omega)
    exact sysOpen_short existing short ((sound ip arg1 u existing).1 short)
  · intro sound
    obtain ⟨t, run, -⟩ := sound (Or.inr (by omega))
    have zero : (-1 : Int) = 0 := sysPipe_zero _ _ run
    exact absurd zero (by decide)
  · intro sound
    have short : ForkShort fullTables := by
      intro p unused
      cases unused
    obtain ⟨t, run, -⟩ := sound short
    rw [sysFork_short short] at run
    cases run

end Gcgos.Kernel
