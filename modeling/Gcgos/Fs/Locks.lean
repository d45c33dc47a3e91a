import Gcgos.Fs.Namei

/-!
# The lock of an inode

`busy` is set by `iget` and cleared by `iput` and `iunlock`. `namei` hands out
at most the inode it returns, `mknod` the new one, and the operations that
read and write files leave all the locks as they are. None of this depends on
what is on the disk.
-/

set_option autoImplicit false

namespace Gcgos.Fs

open Act Bio

/-- Every locked inode is one of these. -/
def LockedOnly (held : Fin NINODE → Prop) (s : State) : Prop :=
  ∀ i, (s.inode i).busy = true → held i

variable {held : Fin NINODE → Prop}

theorem LockedOnly.mono {held' : Fin NINODE → Prop} {s : State} (only : LockedOnly held s)
    (wider : ∀ i, held i → held' i) : LockedOnly held' s :=
  fun i locked => wider i (only i locked)

theorem LockedOnly.congr {s t : State} (only : LockedOnly held s) (same : t.inode = s.inode) :
    LockedOnly held t := by
  intro i locked
  rw [same] at locked
  exact only i locked

end Gcgos.Fs
