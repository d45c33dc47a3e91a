import Gcgos.Fs.Layout

/-!
# Parameters, sleep channels and the ways a kernel call can stop

`include/param.h`, the channels the kernel sleeps on, and what ends a call
other than a return: a `panic`, a spin that never ends, a sleep, an access to
an address the kernel does not map, and an index outside a C array.
-/

set_option autoImplicit false

namespace Gcgos

abbrev NPROC : Nat := 64
abbrev NFD : Nat := 100
abbrev NOFILE : Nat := 16
abbrev NDEV : Nat := 10

/-- What a process can sleep on: an inode slot, a process slot, the console
cursor, or one of the two cursors of the pipe in a page. -/
inductive Chan where
  | inode (slot : Fin Fs.NINODE)
  | proc (slot : Fin NPROC)
  | consR
  | pipeReadp (page : Nat)
  | pipeWritep (page : Nat)
deriving DecidableEq

inductive Fault where
  | panic (message : String)
  /-- `getblk` loops for ever: every buffer is busy. -/
  | spin
  /-- The call sleeps and another process has to run. -/
  | sleep (chan : Chan)
  /-- An access to an address outside the memory the kernel maps; a null
  pointer is one. -/
  | abort
  /-- An index outside a C array. -/
  | bounds
deriving DecidableEq

end Gcgos
