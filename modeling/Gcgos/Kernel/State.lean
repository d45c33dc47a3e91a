import Gcgos.Kernel.Memory
import Gcgos.Fs.File

/-!
# The kernel's state

The process table of `kernel/proc.c`, the descriptor table of `kernel/fd.c`,
the file system and the memory, and how an operation on one of them is an
operation on the whole. `myproc()` is an argument: the slot of the process
that runs. The locks, which a single CPU never waits for, and what is printed
are left out.
-/

set_option autoImplicit false

namespace Gcgos.Kernel

open Act ByteMap

inductive ProcState where
  | UNUSED
  | RUNNABLE
  | SLEEPING
  | ZOMBIE
  | RUNNING
deriving DecidableEq

/-- `struct context`: `sp`, `x18` and so on up to `x30`. -/
abbrev Context : Type := Fin 14 → Nat

/-- The field `ctx.x30`. It is the word in front of `fds`. -/
abbrev ctxX30 : Fin 14 := 13

abbrev ctxSp : Fin 14 := 0

/-- `struct proc`. -/
structure Proc where
  pid : UInt32
  ppid : UInt32
  state : ProcState
  chan : Option Chan
  killed : Bool
  pagetable : Nat
  sz : Nat
  ctx : Context
  fds : Fin NOFILE → Option (Fin NFD)
  kstack : Nat
  tf : Nat

/-- The slot is in use. -/
def Proc.Used (p : Proc) : Prop := p.state ≠ .UNUSED

/-- The process can make calls. -/
def Proc.Alive (p : Proc) : Prop := p.state ≠ .UNUSED ∧ p.state ≠ .ZOMBIE

instance (p : Proc) : Decidable p.Used := inferInstanceAs (Decidable (_ ≠ _))

instance (p : Proc) : Decidable p.Alive := inferInstanceAs (Decidable (_ ∧ _))

inductive FdType where
  | FD_CLOSE
  | FD_NONE
  | FD_PIPE
  | FD_FILE
deriving DecidableEq

/-- `struct fd`. -/
structure Fd where
  type : FdType
  ref : Int
  readable : Bool
  writeable : Bool
  pipe : Nat
  ip : Option (Fin Fs.NINODE)
  off : Nat
deriving DecidableEq

structure State where
  fs : Fs.State
  mm : Mm
  proc : Fin NPROC → Proc
  nextpid : UInt32
  fds : Fin NFD → Fd

namespace State

def setProc (s : State) (p : Fin NPROC) (proc : Proc) : State :=
  { s with proc := Function.update s.proc p proc }

def setFd (s : State) (e : Fin NFD) (fd : Fd) : State :=
  { s with fds := Function.update s.fds e fd }

end State

/-- An entry of `proc[]` before the kernel has written to it. -/
def Proc.zero : Proc where
  pid := 0
  ppid := 0
  state := .UNUSED
  chan := none
  killed := false
  pagetable := 0
  sz := 0
  ctx := fun _ => 0
  fds := fun _ => none
  kstack := 0
  tf := 0

/-- An entry of `fds[]` before the kernel has written to it. -/
def Fd.zero : Fd where
  type := .FD_CLOSE
  ref := 0
  readable := false
  writeable := false
  pipe := 0
  ip := none
  off := 0

/-- The globals as the loader leaves them, over a file system and a memory. -/
def State.loaded (fs : Fs.State) (mm : Mm) : State where
  fs := fs
  mm := mm
  proc := fun _ => Proc.zero
  nextpid := 1
  fds := fun _ => Fd.zero

/-- `*p`. -/
def procAt (p : Fin NPROC) : Act Fault State Proc := Act.reads fun s => s.proc p

def modifyProc (p : Fin NPROC) (change : Proc → Proc) : Act Fault State Unit :=
  Act.modify fun s => s.setProc p (change (s.proc p))

def fdAt (e : Fin NFD) : Act Fault State Fd := Act.reads fun s => s.fds e

def modifyFd (e : Fin NFD) (change : Fd → Fd) : Act Fault State Unit :=
  Act.modify fun s => s.setFd e (change (s.fds e))

/-- One slot of the loop of `wakeup`. -/
def Proc.wake (chan : Chan) (p : Proc) : Proc :=
  if p.state = .SLEEPING ∧ p.chan = some chan then { p with state := .RUNNABLE } else p

def wakeup (chan : Chan) : Act Fault State Unit :=
  Act.modify fun s => { s with proc := fun p => (s.proc p).wake chan }

/-- An operation on memory. -/
def onMm {α : Type} (inner : Act Fault Mm α) : Act Fault State α :=
  Act.zoom State.mm (fun mm s => { s with mm := mm }) inner

/-- Carry out the `wakeup` calls that a file-system operation has made. -/
def drainWakeups : Act Fault State Unit :=
  Act.modify fun s =>
    { s with
      proc := fun p => s.fs.wakeups.foldl (fun proc chan => proc.wake chan) (s.proc p)
      fs := { s.fs with wakeups := [] } }

/-- An operation on the file system. -/
def onFs {α : Type} (inner : Act Fault Fs.State α) : Act Fault State α := do
  let result ← Act.zoom State.fs (fun fs s => { s with fs := fs }) inner
  drainWakeups
  pure result

/-- An operation on the buffers. -/
def onBio {α : Type} (inner : Act Fault Fs.Bio α) : Act Fault State α := onFs (Fs.onBio inner)

/-- The low half of a word as an `int`. -/
def asInt32 (value : Nat) : Int := Fs.asInt (value % 2 ^ 32)

/-- An `int` as a 64-bit unsigned number. -/
def sext64 (value : Int) : Nat := (value % 2 ^ 64).toNat

end Gcgos.Kernel
