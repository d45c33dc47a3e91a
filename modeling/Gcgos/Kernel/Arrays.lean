import Gcgos.Kernel.Calls
import Gcgos.Kernel.UserMemory

/-!
# Arrays on the kernel stack

Calls of `kernel/syscall.c` copy user memory into a local array, hand a string
of it on, or use a register as an index of `p->fds`. Nothing in the source
stands between the register and the array: a copy stays inside when its length
does, or when user memory ends first.
-/

set_option autoImplicit false

namespace Gcgos.Kernel

open Act ByteMap Fs

/-- `p->fds[fd]` is an open descriptor. -/
def OpenFd (s : State) (cp : Fin NPROC) (fd : Int) : Prop :=
  ∃ slot : Fin NOFILE, (slot.val : Int) = fd ∧ ((s.proc cp).fds slot).isSome

section

variable (link : Link) (s : State) (cp : Fin NPROC)

/-- The address in register `n`. -/
def State.pointer (n : Nat) : Nat := sext64 (s.register cp n)

/-- The loop of `argaddr(n, ip, max)` comes to store `count` bytes. -/
def Copies (n : Nat) (max : Int) (count : Nat) : Prop :=
  (count : Int) ≤ max ∧ ∃ bytes, argaddr link cp n count s = .ok (bytes, s)

def CopyInside (n : Nat) (max : Int) (capacity : Nat) : Prop :=
  ∀ count, Copies link s cp n max count → count ≤ capacity

/-- The name in the local array ends there. -/
def NameInside : Prop := Ensures (argaddr link cp 0 DIRSIZ) s fun name _ => 0 ∈ name

/-- The call indexes `p->fds` at an open descriptor, or refuses the index. -/
def FdInside (call : Act Fault State Int) : Prop :=
  OpenFd s cp (s.register cp 0) ∨ call s = .ok (-1, s)

/-- `sys_open` stores to a slot of `p->fds` for every inode it opens. -/
def SlotInside : Prop :=
  ∀ name ip t, argaddr link cp 0 DIRSIZ s = .ok (name, s) →
    onFs (openInode name (s.register cp 1)) s = .ok (some ip, t) → (t.proc cp).freeSlot.isSome

/-- The length fits the array, or user memory ends before the array does. -/
def CopyFits (n : Nat) (max : Int) (capacity : Nat) : Prop :=
  max ≤ capacity ∨ s.userBytes link cp (s.pointer cp n) (capacity + 1) = none

def NameFits : Prop :=
  ∀ name, s.userBytes link cp (s.pointer cp 0) DIRSIZ = some name → 0 ∈ name

/-- The string of `sys_cons_puts` leaves room for the NUL or has one. -/
def TextFits : Prop :=
  s.register cp 1 < 256 ∨
    ∀ text, s.userBytes link cp (s.pointer cp 0) (s.register cp 1).toNat = some text →
      0 ∈ text.take 256

/-- A slot is free, or the name opens nothing. -/
def SlotFits : Prop :=
  (∃ slot, (s.proc cp).fds slot = none) ∨
    ∀ name, s.userBytes link cp (s.pointer cp 0) DIRSIZ = some name →
      Ensures (onFs (openInode name (s.register cp 1))) s fun ip _ => ip = none

end

section

variable {link : Link} {s : State} {cp : Fin NPROC}

/-- A shorter copy from the same address is possible too. -/
theorem userBytes_shorter {uva count fewer : Nat} {bytes : List UInt8}
    (there : s.userBytes link cp uva count = some bytes) (le : fewer ≤ count) :
    ∃ prior, s.userBytes link cp uva fewer = some prior := by
  unfold State.userBytes at *
  split at there
  · cases there
  · obtain ⟨pa, found, rest⟩ := Option.bind_eq_some_iff.mp there
    split at rest
    · rename_i inside
      have shorter : InRam link pa fewer := by
        rcases inside with zero | ⟨lower, upper⟩
        · exact Or.inl (by omega)
        · exact Or.inr ⟨lower, by omega⟩
      refine ⟨getBytes s.mm.mem pa fewer, ?_⟩
      rw [if_neg ‹_›, found, Option.bind_some, if_pos shorter]
    · cases rest

theorem copies_iff (caller : Caller link s cp) {n : Nat} (bound : n < 8) (max : Int)
    (count : Nat) :
    Copies link s cp n max count ↔
      (count : Int) ≤ max ∧ ∃ bytes, s.userBytes link cp (s.pointer cp n) count = some bytes := by
  apply and_congr_right
  intro _
  constructor
  · rintro ⟨bytes, returned⟩
    exact ⟨bytes, (argaddr_returned caller bound returned).1⟩
  · rintro ⟨bytes, there⟩
    exact ⟨bytes, argaddr_run caller bound count there⟩

/-- A copy stays inside its array when its length does. -/
theorem copyInside_iff (caller : Caller link s cp) {n : Nat} (bound : n < 8) (max : Int)
    (capacity : Nat) :
    CopyInside link s cp n max capacity ↔ CopyFits link s cp n max capacity := by
  constructor
  · intro inside
    by_cases fits : max ≤ capacity
    · exact Or.inl fits
    · refine Or.inr ?_
      cases there : s.userBytes link cp (s.pointer cp n) (capacity + 1) with
      | none => rfl
      | some bytes =>
          have stored : Copies link s cp n max (capacity + 1) :=
            (copies_iff caller bound max _).mpr ⟨by push_cast; omega, bytes, there⟩
          have le := inside _ stored
          omega
  · intro fits count copies
    obtain ⟨le, bytes, there⟩ := (copies_iff caller bound max count).mp copies
    by_contra past
    rcases fits with short | missing
    · omega
    · obtain ⟨prior, found⟩ := userBytes_shorter there (by omega : capacity + 1 ≤ count)
      rw [missing] at found
      cases found

theorem copyInside_fixed (caller : Caller link s cp) {n : Nat} (bound : n < 8) (capacity : Nat) :
    CopyInside link s cp n capacity capacity :=
  (copyInside_iff caller bound capacity capacity).mpr (Or.inl le_rfl)

theorem userBytes_length {uva count : Nat} {bytes : List UInt8}
    (there : s.userBytes link cp uva count = some bytes) : bytes.length = count := by
  unfold State.userBytes at there
  split at there
  · cases there
  · obtain ⟨pa, _, rest⟩ := Option.bind_eq_some_iff.mp there
    split at rest
    · cases rest
      simp [getBytes]
    · cases rest

/-- The loop that returns has stored the pointers before the first null one. -/
theorem execArgs_length (words : List Nat) (s : State) :
    Ensures (execArgs link cp words) s fun pages _ =>
      pages.length = (words.takeWhile fun word => word ≠ 0).length := by
  induction words generalizing s with
  | nil => exact Ensures.fail
  | cons word rest ih =>
      unfold execArgs
      apply Ensures.ite
      · intro null
        apply Ensures.pure
        simp [null]
      · intro present
        refine Ensures.seq (m := fun _ _ => True) (fun _ _ _ => trivial) ?_
        intro page t _
        refine Ensures.seq (m := fun _ _ => True) (fun _ _ _ => trivial) ?_
        intro _ u _
        refine Ensures.seq (ih u) ?_
        intro pages v stored
        apply Ensures.pure
        rw [List.takeWhile_cons_of_pos (by simpa using present), List.length_cons,
          List.length_cons, stored]

end

end Gcgos.Kernel
