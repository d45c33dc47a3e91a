import Gcgos.Kernel.Descriptor

/-!
# Processes

`kernel/proc.c`: allocation, `fork`, `exit`, `wait` and `kill`, and the start
of the first process. The local variables the source leaves uninitialised, the
result of `proc_wait` and the first index of the loop in `proc_exit`, are
arguments.
-/

set_option autoImplicit false

namespace Gcgos.Kernel

open Act ByteMap

/-- `sizeof(struct trapframe)`. -/
abbrev trapframeSize : Nat := 288

section

variable (link : Link)

/-- `proc_pagetable`: the table, and the page it has put into `p->tf`. -/
def procPagetable : Act Fault Mm (Nat × Nat) := do
  let pagetable ← uvmcreat link
  let _ ← mappages link pagetable TRAMPOLINE link.trampoline (2 * PGSIZE)
    (PTE_NORMAL ||| PTE_AP_RW_EL1)
  let tf ← kalloc link
  let _ ← mappages link pagetable TRAPFRAME tf PGSIZE (PTE_NORMAL ||| PTE_AP_RW_EL1)
  pure (pagetable, tf)

def allocpid : Act Fault State UInt32 := fun s =>
  .ok (s.nextpid, { s with nextpid := s.nextpid + 1 })

/-- The slot that `allocproc` takes. -/
def unusedSlot (s : State) : Option (Fin NPROC) :=
  (List.finRange NPROC).find? fun p => (s.proc p).state = .UNUSED

/-- `allocproc` for a process table with an unused slot; a null pointer is
used at once by every caller. -/
def allocproc : Act Fault State (Fin NPROC) := do
  let slot ← Act.reads unusedSlot
  match slot with
  | none => Act.fail .abort
  | some p => do
      let pid ← allocpid
      modifyProc p fun proc => { proc with pid := pid }
      let (pagetable, tf) ← onMm (procPagetable link)
      modifyProc p fun proc => { proc with tf := tf, pagetable := pagetable }
      pure p

def userinit : Act Fault State Unit := do
  let p ← allocproc link
  modifyProc p fun proc =>
    { proc with
      ctx := Function.update (Function.update proc.ctx ctxSp (proc.kstack + PGSIZE)) ctxX30
        link.forkret
      state := .RUNNABLE }

def procinit : Act Fault State Unit :=
  Act.modify fun s =>
    { s with proc := fun p => { s.proc p with state := .UNUSED, kstack := KSTACK p.val } }

/-- `kernel_main` up to the scheduler, as far as memory and processes go. -/
def boot : Act Fault State Unit := do
  onMm (kinit link)
  let _ ← onMm (kvmmake link)
  procinit
  userinit link

/-- The part of a turn of `copyproc` behind its two `continue`s. -/
def copyEntry (npagetable i entry : Nat) : Act Fault Mm Unit := do
  let npa ← kalloc link
  copyMem link npa (PTE2PA entry) PGSIZE
  let _ ← mappages link npagetable i npa PGSIZE (PTE_FLAGS entry)
  pure ()

/-- One turn of the loop of `copyproc` over the parent's addresses. -/
def copyPage (pagetable npagetable i : Nat) : Act Fault Mm Unit := do
  let pte ← walk link pagetable i false
  match pte with
  | none => pure ()
  | some pte => do
      let entry ← load64 link pte
      if entry &&& PTE_V = 0 then pure () else copyEntry link npagetable i entry

def copyPages (pagetable npagetable : Nat) : (count i : Nat) → Act Fault Mm Unit
  | 0, _ => pure ()
  | count + 1, i => do
      copyPage link pagetable npagetable i
      copyPages pagetable npagetable count (i + PGSIZE)

/-- The turns of the loop for a process of this size. The `int` counter wraps
at 2^31 to a negative number, which is above the bound as an unsigned one. -/
def copyCount (sz : Nat) : Nat := min ((PGROUNDUP sz + PGSIZE) / PGSIZE) (2 ^ 31 / PGSIZE)

/-- The memory part of `copyproc`. -/
def copyMemory (p np : Proc) : Act Fault Mm Unit := do
  copyPages link p.pagetable np.pagetable (copyCount p.sz) 0
  copyMem link np.tf p.tf trapframeSize

/-- `if (np->fds[i]) fd_incref(np->fds[i]);`. -/
def increfSlot (entry : Option (Fin NFD)) : Act Fault State Unit :=
  match entry with
  | none => pure ()
  | some e => fdIncref e

/-- The loop of `copyproc` over the descriptors. -/
def copyFds (p np : Fin NPROC) : (slots : List (Fin NOFILE)) → Act Fault State Unit
  | [] => pure ()
  | i :: rest => do
      let parent ← procAt p
      modifyProc np fun proc => { proc with fds := Function.update proc.fds i (parent.fds i) }
      increfSlot (parent.fds i)
      copyFds p np rest

def copyproc (p : Fin NPROC) : Act Fault State (Fin NPROC) := do
  let np ← allocproc link
  let parent ← procAt p
  modifyProc np fun proc => { proc with ppid := parent.pid, sz := parent.sz }
  let child ← procAt np
  onMm (copyMemory link parent child)
  copyFds p np (List.finRange NOFILE)
  onMm (store64 link child.tf 0)
  let parent ← procAt p
  modifyProc np fun proc =>
    { proc with
      ctx := Function.update (Function.update parent.ctx ctxSp (proc.kstack + PGSIZE)) ctxX30
        link.forkret }
  pure np

def sysFork (cp : Fin NPROC) : Act Fault State UInt32 := do
  let np ← copyproc link cp
  modifyProc np fun proc => { proc with state := .RUNNABLE }
  let child ← procAt np
  pure child.pid

/-- The slot that `proc_wait` reaps. -/
def zombieChild (s : State) (cp : Fin NPROC) : Option (Fin NPROC) :=
  (List.finRange NPROC).find? fun p =>
    (s.proc p).state = .ZOMBIE ∧ (s.proc p).ppid = (s.proc cp).pid

/-- `havekids` is set by every slot that is passed over, so the loop sleeps
when it finds no zombie. -/
def procWait (cp : Fin NPROC) (pid : Int) : Act Fault State Int := do
  let slot ← Act.reads fun s => zombieChild s cp
  match slot with
  | none => Act.fail (.sleep (.proc cp))
  | some p => do
      let zombie ← procAt p
      onMm do
        kfree link zombie.tf
        kfree link zombie.pagetable
      modifyProc p fun proc => { proc with state := .UNUSED }
      pure pid

/-- One turn of the loop of `proc_exit` over the descriptors. -/
def exitSlot (cp : Fin NPROC) (i : Fin NOFILE) : Act Fault State Unit := do
  let p ← procAt cp
  match p.fds i with
  | none => pure ()
  | some e => do
      fdClose link e
      modifyProc cp fun proc => { proc with fds := Function.update proc.fds i none }

def exitSlots (cp : Fin NPROC) : (slots : List (Fin NOFILE)) → Act Fault State Unit
  | [] => pure ()
  | i :: rest => do
      exitSlot link cp i
      exitSlots cp rest

/-- `if (p->pid == cp->ppid) wakeup(p);`. -/
def wakeParent (ppid : UInt32) (p : Fin NPROC) : Act Fault State Unit := do
  let proc ← procAt p
  if proc.pid = ppid then wakeup (.proc p) else pure ()

def wakeParents (ppid : UInt32) : (slots : List (Fin NPROC)) → Act Fault State Unit
  | [] => pure ()
  | p :: rest => do
      wakeParent ppid p
      wakeParents ppid rest

/-- One slot of the loop under "abandon children". -/
def Proc.abandon (pid : UInt32) (p : Proc) : Proc :=
  if p.ppid = pid then { p with pid := 1 } else p

/-- The loop of "abandon children" reads `cp->pid` in every turn, and may
change it. -/
def abandonChildren (cp : Fin NPROC) : (slots : List (Fin NPROC)) → Act Fault State Unit
  | [] => pure ()
  | p :: rest => do
      let me ← procAt cp
      modifyProc p (Proc.abandon me.pid)
      abandonChildren cp rest

/-- `start` is the first index of the descriptor loop. -/
def procExit (cp : Fin NPROC) (start : Nat) : Act Fault State Unit := do
  modifyProc cp fun proc => { proc with state := .ZOMBIE }
  exitSlots link cp ((List.finRange NOFILE).drop start)
  let me ← procAt cp
  wakeParents me.ppid (List.finRange NPROC)
  abandonChildren cp (List.finRange NPROC)

/-- The slot that `proc_kill` finds. -/
def killTarget (s : State) (pid : UInt32) : Option (Fin NPROC) :=
  (List.finRange NPROC).find? fun p => (s.proc p).pid = pid ∧ (s.proc p).state ≠ .UNUSED

def Proc.kill (p : Proc) : Proc :=
  { p with killed := true, state := if p.state = .SLEEPING then .RUNNABLE else p.state }

def procKill (pid : UInt32) : Act Fault State Int := do
  let slot ← Act.reads fun s => killTarget s pid
  match slot with
  | none => pure (-1)
  | some p => do
      modifyProc p Proc.kill
      pure 0

end

end Gcgos.Kernel
