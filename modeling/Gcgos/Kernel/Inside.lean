import Gcgos.Kernel.Passing

/-!
# What a user can make the kernel do to its arrays

Eight calls of `kernel/syscall.c` take a length, a string or a descriptor from
the user, and each stays inside its arrays exactly when what it is given fits.
The strings of `exec` are copied to pages without their NULs: what ends one
there is a zero that the page has had behind it, and the copy must not run into
itself.
-/

set_option autoImplicit false

namespace Gcgos.Kernel

open Act ByteMap Fs

/-! ## Strings in pages -/

/-- The string at `source` has this length. -/
structure EndsAt (mem : Nat → UInt8) (source length : Nat) : Prop where
  text : ∀ k < length, mem (source + k) ≠ 0
  nul : mem (source + length) = 0

/-- A string that is copied to `size` bytes at `d` ends there: the copy does not
come to its NUL before it is read, and one of the bytes that are left behind it
is zero. -/
structure CopyEnds (mem : Nat → UInt8) (size d source length : Nat) : Prop extends
    EndsAt mem source length where
  ahead : d ≤ source ∨ source + length < d
  zero : ∃ k < size, length ≤ k ∧ mem (d + k) = 0

/-- The string at an argument ends in its page. -/
def Arg.Ends (mem : Nat → UInt8) : Arg → Prop
  | .text _ => True
  | .page pg => ∃ k < PGSIZE, mem (pg + k) = 0

section

variable {mem : Nat → UInt8} {size d source length : Nat} {byte : UInt8}

theorem EndsAt.pos (ends : EndsAt mem source length) (some_byte : mem source ≠ 0) :
    ∃ rest, length = rest + 1 := by
  refine Nat.exists_eq_succ_of_ne_zero fun none => some_byte ?_
  have nul := ends.nul
  rw [none] at nul
  exact nul

/-- The first byte has been copied. -/
theorem CopyEnds.next (ends : CopyEnds mem (size + 1) d source (length + 1)) :
    CopyEnds (putBytes mem d [byte]) size (d + 1) (source + 1) length := by
  obtain ⟨⟨text, nul⟩, ahead, k, bound, above, zero⟩ := ends
  have other : ∀ a, a ≠ d → putBytes mem d [byte] a = mem a := by
    intro a different
    exact putBytes_outside (by rw [List.length_singleton]; omega)
  refine ⟨⟨fun j below => ?_, ?_⟩, by omega, k - 1, by omega, by omega, ?_⟩
  · rw [other _ (by omega), Nat.add_assoc, Nat.add_comm 1 j]
    exact text (j + 1) (by omega)
  · rw [other _ (by omega), Nat.add_assoc, Nat.add_comm 1 length]
    exact nul
  · rw [other _ (by omega), Nat.add_assoc, Nat.add_sub_cancel' (by omega)]
    exact zero

end

section

variable (link : Link)

/-- Memory after the loop of `fetchaddr`, when it stays in the pages. -/
def copyString : (size d source : Nat) → (Nat → UInt8) → Option (Nat → UInt8)
  | 0, _, source, mem => if InRam link source 1 then some mem else none
  | size + 1, d, source, mem =>
      if InRam link source 1 then
        if mem source = 0 then some mem
        else if InRam link d 1 then
          copyString size (d + 1) (source + 1) (putBytes mem d [mem source])
        else none
      else none

/-- The pointers that `sys_exec` has copied, with the free pages for their
strings: the loop comes to a null pointer before the end of `argv`, with `held`
and every string ended in its page, or it is stopped before it. Without a page
the string goes to address 0 and `argv` ends. -/
def ArgsFit (target : Nat → Option Nat) :
    (held : Prop) → (Nat → UInt8) → (words free : List Nat) → Prop
  | _, _, [], _ => False
  | held, mem, word :: words, free =>
      if word = 0 then held
      else ∀ source after, target word = some source →
        copyString link PGSIZE (free.headD 0) source mem = some after →
          ArgsFit target
            (held ∧ (free = [] ∨ ∃ n, CopyEnds mem PGSIZE (free.headD 0) source n))
            after words free.tail

end

section

variable {link : Link}

end

/-! ## The calls -/

/-- The calls that take a length, a string or a descriptor from the user. -/
inductive UserCall where
  | write
  | read
  | close
  | consPuts
  | exec
  | openPath
  | mknod
  | unlink

/-- `sys_exec` in front of `kexec`: the name and the vector that it hands on. -/
def execPassed (link : Link) (cp : Fin NPROC) : Act Fault State (List UInt8 × List Arg) := do
  let exe_name ← argaddr link cp 0 DIRSIZ
  let args ← execVector link cp
  pure (exe_name, args)

theorem sysExec_passed (link : Link) (cp : Fin NPROC) :
    sysExec link cp = (do
      let passed ← execPassed link cp
      let _ ← kexec link cp passed.1 passed.2
      pure 0) := by
  rw [sysExec_vector]
  unfold execPassed
  simp only [Act.bind_assoc, Act.pure_bind]

/-- The physical address of a user address, as the kernel finds it. -/
def State.target (s : State) (cp : Fin NPROC) (uva : Nat) : Option Nat :=
  if MAXVA ≤ uva then none else s.source cp uva

section

variable (link : Link) (s : State) (cp : Fin NPROC)

/-- What a call promises about its arrays. -/
def UserCall.Inside (stack : Nat → UInt8) : UserCall → Prop
  | .write =>
      CopyInside link s cp 1 (s.register cp 2) 512 ∧ FdInside s cp (sysWrite link cp stack)
  | .read => FdInside s cp (sysRead link cp)
  | .close => FdInside s cp (sysClose link cp)
  | .consPuts =>
      CopyInside link s cp 0 (s.register cp 1) 256 ∧
        Ensures (argaddr link cp 0 (s.register cp 1)) s fun copied _ =>
          0 ∈ (putsBuf copied).take 256
  | .exec =>
      CopyInside link s cp 0 DIRSIZ DIRSIZ ∧ CopyInside link s cp 1 512 512 ∧
        Ends (execPassed link cp) s
          (fun passed t => 0 ∈ passed.1 ∧ ∀ arg ∈ passed.2, arg.Ends t.mm.mem) (· ≠ .bounds)
  | .openPath =>
      CopyInside link s cp 0 DIRSIZ DIRSIZ ∧ NameInside link s cp ∧ SlotInside link s cp
  | .mknod => CopyInside link s cp 0 DIRSIZ DIRSIZ
  | .unlink => CopyInside link s cp 0 DIRSIZ DIRSIZ ∧ NameInside link s cp

/-- The name ends, and so does every string that the pointers lead to. -/
def ExecFits (free : List Nat) : Prop :=
  ∀ exe_name args, s.userBytes link cp (s.pointer cp 0) DIRSIZ = some exe_name →
    s.userBytes link cp (s.pointer cp 1) 512 = some args →
      ArgsFit link (s.target cp) (0 ∈ exe_name) s.mm.mem (argWords args) free

/-- What the user's registers, memory and descriptors have to be. -/
def UserCall.Fits (free : List Nat) : UserCall → Prop
  | .write => CopyFits link s cp 1 (s.register cp 2) 512 ∧ OpenFd s cp (s.register cp 0)
  | .read => OpenFd s cp (s.register cp 0)
  | .close => OpenFd s cp (s.register cp 0)
  | .consPuts => CopyFits link s cp 0 (s.register cp 1) 256 ∧ TextFits link s cp
  | .exec => ExecFits link s cp free
  | .openPath => NameFits link s cp ∧ SlotFits link s cp
  | .mknod => True
  | .unlink => NameFits link s cp

end

section

variable {link : Link} {s : State} {cp : Fin NPROC} {free : List Nat}

/-- User addresses lead where they led. -/
theorem Apart.target {t : State} (apart : Apart link s cp free) (proc : t.proc cp = s.proc cp)
    (same : ∀ other, IsPage link other → other ∉ free.head? → SameOn s.mm.mem t.mm.mem other) :
    t.target cp = s.target cp := by
  funext uva
  unfold State.target State.source
  rw [proc, lastEntry_congr (apart.kept same).tables]

/-- A path that leads to an inode has a NUL: the walk returns there. -/
theorem nameiWalk_found (fuel : Nat) (dp : Fin NINODE) (path : List UInt8) (u : Fs.State) :
    Ensures (nameiWalk fuel dp path) u fun ip _ => ip.isSome → 0 ∈ path := by
  induction fuel generalizing dp path u with
  | zero => exact Ensures.fail
  | succ fuel ih =>
      cases path with
      | nil => exact Ensures.fail
      | cons c rest =>
          unfold nameiWalk
          apply Ensures.ite
          · rintro rfl
            exact Ensures.pure fun _ => List.mem_cons_self
          · intro _
            refine Ensures.seq (m := fun _ _ => True) (fun _ _ _ => trivial) fun ip v _ => ?_
            apply Ensures.ite
            · intro _
              refine Ensures.seq (m := fun _ _ => True) (fun _ _ _ => trivial) fun _ w _ => ?_
              exact Ensures.pure fun found => absurd found (by simp)
            · intro _
              refine Ensures.seq (m := fun _ _ => True) (fun _ _ _ => trivial) fun hit w _ => ?_
              refine Ensures.seq (m := fun _ _ => True) (fun _ _ _ => trivial) fun _ w' _ => ?_
              rcases hit with _ | ⟨ninum, i⟩
              · exact Ensures.pure fun found => absurd found (by simp)
              · refine Ensures.seq (m := fun _ _ => True) (fun _ _ _ => trivial) fun next w'' _ => ?_
                refine (ih next _ w'').mono fun ip _ nul found => ?_
                exact List.mem_of_mem_drop ((List.dropWhile_suffix _).mem (nul found))

theorem unlinkInode_found (file_name : List UInt8) (u : Fs.State) :
    Ensures (unlinkInode file_name) u fun _ _ => 0 ∈ file_name := by
  unfold unlinkInode namei
  simp only [Act.bind_assoc]
  refine Ensures.seq (m := fun _ _ => True) (fun _ _ _ => trivial) fun dp v _ => ?_
  refine Ensures.seq (nameiWalk_found _ _ _ v) ?_
  rintro (_ | ip) w nul
  · exact Ensures.fail
  · exact fun _ _ _ => (List.dropWhile_suffix _).mem (nul rfl)

theorem consPuts_fits (i : Int) (copied : List UInt8) (u : State) :
    Ensures (consPuts i copied) u fun _ _ => i ≤ 256 ∧ 0 ∈ putsBuf copied := by
  unfold consPuts
  apply Ensures.guard
  intro short
  apply Ensures.guard
  intro ended
  exact fun _ _ _ => ⟨by omega, not_not.mp ended⟩

/-- `sys_cons_puts` returns only where it has stayed in its array. -/
theorem sysConsPuts_inside (caller : Caller link s cp) (stack : Nat → UInt8) :
    Ensures (sysConsPuts link cp) s fun _ _ => UserCall.consPuts.Inside link s cp stack := by
  unfold sysConsPuts
  refine Ensures.step (argraw_run caller (by omega)) ?_
  refine Ensures.seq (m := fun copied t => t = s ∧
    s.userBytes link cp (s.pointer cp 0) (s.register cp 1).toNat = some copied)
    ((argaddr_ensures_iff caller (by omega) _).mpr fun copied there => ⟨rfl, there⟩) ?_
  rintro copied _ ⟨rfl, there⟩
  refine Ensures.seq (consPuts_fits _ copied _) ?_
  rintro _ u ⟨short, nul⟩
  refine Ensures.pure ⟨(copyInside_iff caller (by omega) _ _).mpr (Or.inl short), ?_⟩
  refine (argaddr_ensures_iff caller (by omega) _).mpr fun copied' there' => ?_
  cases there.symm.trans there'
  have length := userBytes_length there
  rw [List.take_of_length_le]
  · exact nul
  · rw [putsBuf, List.length_append, List.length_replicate]
    omega

/-- And `sys_unlink` where the name has led it to an inode. -/
theorem sysUnlink_inside (caller : Caller link s cp) (stack : Nat → UInt8) :
    Ensures (sysUnlink link cp) s fun _ _ => UserCall.unlink.Inside link s cp stack := by
  unfold sysUnlink
  refine Ensures.seq (m := fun name t => t = s ∧
    s.userBytes link cp (s.pointer cp 0) DIRSIZ = some name)
    ((argaddr_ensures_iff caller (by omega) _).mpr fun name there => ⟨rfl, there⟩) ?_
  rintro file_name _ ⟨rfl, there⟩
  refine Ensures.seq (onFs_ensures (unlinkInode_found file_name _)) ?_
  rintro _ u ⟨-, -, fs, nul, -⟩
  refine Ensures.pure ⟨copyInside_fixed caller (by omega) DIRSIZ, ?_⟩
  refine (argaddr_ensures_iff caller (by omega) _).mpr fun name there' => ?_
  cases there.symm.trans there'
  exact nul

end

end Gcgos.Kernel
