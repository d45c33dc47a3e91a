import Gcgos.Fs.Locks
import Gcgos.Kernel.References

/-!
# No inode stays locked

Every system call but `exec` gives back the inodes it has locked before it
returns to user mode, and so no later lookup has to sleep. `kexec` keeps the
inode of the program.
-/

set_option autoImplicit false

namespace Gcgos.Kernel

open Act ByteMap Fs

section

variable {link : Link}

/-- The calls that use inodes, and `fork` and `exit`. The arguments are what lies
on the kernel stack and the start of the loop in `proc_exit`. -/
inductive InodeCall where
  | opens
  | reads
  | writes (stack : Nat → UInt8)
  | closes
  | mknods
  | execs
  | forks
  | exits (start : Nat)

/-- The call, made by `cp`, returns in the state `t`. -/
def InodeCall.Runs (link : Link) (cp : Fin NPROC) (s t : State) : InodeCall → Prop
  | .opens => ∃ r, sysOpen link cp s = .ok (r, t)
  | .reads => ∃ r, sysRead link cp s = .ok (r, t)
  | .writes stack => ∃ r, sysWrite link cp stack s = .ok (r, t)
  | .closes => ∃ r, sysClose link cp s = .ok (r, t)
  | .mknods => ∃ r, sysMknod link cp s = .ok (r, t)
  | .execs => ∃ r, sysExec link cp s = .ok (r, t)
  | .forks => ∃ r, sysFork link cp s = .ok (r, t)
  | .exits start => procExit link cp start s = .ok ((), t)

/-- The call is no `exec`. -/
def InodeCall.Plain : InodeCall → Prop
  | .execs => False
  | _ => True

end

/-- A card with the file `a` in its root directory: an ELF header without program
headers. -/
def smallCard (sector : Nat) : Block :=
  if sector = 2 then
    Block.zero.put dinodeSize ((⟨T_DIR, 0, 0, 1, 16, fun k => if k.val = 0 then 5 else 0⟩ : Dinode).bytes
      ++ (⟨T_FILE, 0, 0, 1, 64, fun k => if k.val = 0 then 6 else 0⟩ : Dinode).bytes)
  else if sector = 5 then Block.zero.put 0 [2, 0, 97]
  else if sector = 6 then Block.zero.putU32 0 ELF_MAGIC
  else Block.zero

/-- `init` on that card, with the path, a vector of one argument and the two
pointers to them. -/
def smallExecUser (cp : Fin NPROC) : Act Fault State Unit := do
  let p ← procAt cp
  onMm do
    let page ← kalloc smallLink
    let _ ← mappages smallLink p.pagetable PGSIZE page PGSIZE PTE_AP_RW
    storeBytes smallLink page (97 :: List.replicate 15 0 ++ leBytes 8 PGSIZE ++ leBytes 8 0)
    storeBytes smallLink p.tf (leBytes 8 PGSIZE ++ leBytes 8 (PGSIZE + 16))
  modifyProc cp fun p => { p with sz := PGSIZE }

def smallExecStart : State :=
  (userinit smallLink).after (State.loaded (Fs.State.loaded smallCard) (smallMm 20))

def smallExecReady : State := (smallExecUser initSlot).after smallExecStart

end Gcgos.Kernel
