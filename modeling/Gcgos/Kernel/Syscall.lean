import Gcgos.Fs.Namei
import Gcgos.Kernel.Exec
import Gcgos.Kernel.Process

/-!
# System calls

`kernel/syscall.c`. The arguments of a call are words of the caller's
trapframe, cut to `int`; an address argument is translated by the caller's
page table for its first byte only. A local array of the source is a list of
its length, and a copy past its end stops the call.
-/

set_option autoImplicit false

namespace Gcgos.Kernel

open Act ByteMap Fs

abbrev O_CREATE : Nat := 0x200
abbrev O_WRONLY : Nat := 0x001
abbrev O_RDWR : Nat := 0x002

/-- `arg & mask` is not zero. -/
def hasFlag (arg : Int) (mask : Nat) : Prop := (arg % 2 ^ 32).toNat &&& mask ≠ 0

instance (arg : Int) (mask : Nat) : Decidable (hasFlag arg mask) :=
  inferInstanceAs (Decidable (_ ≠ _))

/-- An `int` passed on as a `short`. -/
def asShort (value : Int) : UInt16 := UInt16.ofNat (value % 2 ^ 16).toNat

section

variable (link : Link)

/-- `argraw(n)` for the registers `x0` to `x7`. -/
def argraw (cp : Fin NPROC) (n : Nat) : Act Fault State Int := do
  let p ← procAt cp
  let value ← onMm (load64 link (p.tf + 8 * n))
  pure (asInt32 value)

/-- `walkaddr` of the page of a user address, and the offset added again. -/
def userAddr (cp : Fin NPROC) (uva : Nat) : Act Fault State Nat := do
  let p ← procAt cp
  let pa ← onMm (walkaddr link p.pagetable (PGROUNDDOWN uva))
  pure (pa + uva - PGROUNDDOWN uva)

/-- `argaddr(n, ip, max)`: the bytes it stores to `ip`. -/
def argaddr (cp : Fin NPROC) (n : Nat) (max : Int) : Act Fault State (List UInt8) := do
  let uva ← argraw link cp n
  let source ← userAddr link cp (sext64 uva)
  onMm (loadBytes link source max.toNat)

/-- `while (*s && size-- > 0) *d++ = *s++;`. -/
def fetchLoop : (size d s : Nat) → Act Fault Mm Unit
  | 0, _, s => do
      let _ ← loadBytes link s 1
      pure ()
  | size + 1, d, s => do
      let byte ← loadBytes link s 1
      if byte = [0] then pure ()
      else do
        storeBytes link d byte
        fetchLoop size (d + 1) (s + 1)

def fetchaddr (cp : Fin NPROC) (uva ip size : Nat) : Act Fault State Unit := do
  let source ← userAddr link cp uva
  onMm (fetchLoop link size ip source)

/-- `p->fds[fd]`. An index outside the array reads another field. -/
def fdSlot (fd : Int) : Act Fault State (Fin NOFILE) :=
  if inside : 0 ≤ fd ∧ fd < NOFILE then pure ⟨fd.toNat, by omega⟩ else Act.fail .bounds

/-- The entry behind `p->fds[fd]`, for a callee that reads through it. -/
def fdEntry (cp : Fin NPROC) (slot : Fin NOFILE) : Act Fault State (Fin NFD) := do
  let p ← procAt cp
  match p.fds slot with
  | some e => pure e
  | none => Act.fail .abort

def sysPipe (cp : Fin NPROC) : Act Fault State Int := do
  let (rfd, wfd) ← pipeAlloc link
  let f1 ← fdUalloc cp
  modifyProc cp fun p => p.install link f1 rfd
  let f2 ← fdUalloc cp
  modifyProc cp fun p => p.install link f2 wfd
  let uva ← argraw link cp 0
  let fdp ← userAddr link cp (sext64 uva)
  onMm (store32 link fdp 0)
  onMm (store32 link (fdp + 4) 1)
  pure 0

/-- `stack` is what lies on the kernel stack behind the argument of
`pipe_write`. -/
def sysWrite (cp : Fin NPROC) (stack : Nat → UInt8) : Act Fault State Int := do
  let fd ← argraw link cp 0
  let n ← argraw link cp 2
  let buf ← argaddr link cp 1 n
  Act.stopIf (512 < n) .bounds
  let slot ← fdSlot fd
  let e ← fdEntry cp slot
  fdWrite link e buf stack n

def sysRead (cp : Fin NPROC) : Act Fault State Int := do
  let fd ← argraw link cp 0
  let n ← argraw link cp 2
  let uva ← argraw link cp 1
  let buf ← userAddr link cp (sext64 uva)
  let slot ← fdSlot fd
  let e ← fdEntry cp slot
  fdRead link e buf n

def sysClose (cp : Fin NPROC) : Act Fault State Int := do
  let fd ← argraw link cp 0
  let slot ← fdSlot fd
  let e ← fdEntry cp slot
  fdClose link e
  modifyProc cp fun p => { p with fds := Function.update p.fds slot none }
  pure 0

abbrev MAXARG : Nat := 32

/-- What the console device has sent. -/
def sendChars (chars : List UInt8) : Act Fault Fs.State Unit :=
  Act.modify fun s => { s with cons := { s.cons with out := s.cons.out ++ chars } }

/-- The local array of `sys_cons_puts` after the copy: what does not come from
the user is zero. -/
def putsBuf (copied : List UInt8) : List UInt8 :=
  copied ++ List.replicate (256 - copied.length) 0

/-- `sys_cons_puts` on `i` bytes of the user, with what it sends: `printf` of
`%s` goes on to the NUL. -/
def consPuts (i : Int) (copied : List UInt8) : Act Fault State (List UInt8) := do
  Act.stopIf (256 < i) .bounds
  Act.stopIf (0 ∉ putsBuf copied) .bounds
  let sent := (putsBuf copied).takeWhile fun c => c ≠ 0
  onFs (sendChars sent)
  pure sent

def sysConsPuts (cp : Fin NPROC) : Act Fault State Int := do
  let i ← argraw link cp 1
  let copied ← argaddr link cp 0 i
  let _ ← consPuts i copied
  pure 0

/-- The loop of `sys_exec` over the pointers it has copied: the pages it has put
into `argv`. Without a null pointer before the end of `argv` it stores, or
`kexec` reads, behind the array. -/
def execArgs (cp : Fin NPROC) : (arg : List Nat) → Act Fault State (List Nat)
  | [] => Act.fail .bounds
  | uva :: rest =>
      if uva = 0 then pure []
      else do
        let page ← onMm (kalloc link)
        fetchaddr link cp uva page PGSIZE
        let pages ← execArgs cp rest
        pure (page :: pages)

/-- The words of the bytes that `sys_exec` has copied, up to the end of
`argv`. -/
def argWords (args : List UInt8) : List Nat :=
  (List.range MAXARG).map fun i => leNat (fun a => args.getD a 0) (8 * i) 8

/-- `kexec` counts the arguments up to the first null pointer of `argv`. -/
def sysExec (cp : Fin NPROC) : Act Fault State Int := do
  let exe_name ← argaddr link cp 0 DIRSIZ
  let args ← argaddr link cp 1 512
  let pages ← execArgs link cp (argWords args)
  let _ ← kexec link cp exe_name ((pages.takeWhile fun page => page ≠ 0).map Arg.page)
  pure 0

/-- The part of `sys_open` under `O_CREATE`. The first `return -1` leaves the
root directory as `iget` has handed it out. -/
def openCreate (file_name : List UInt8) : Act Fault Fs.State (Option (Fin NINODE)) := do
  let dp ← iget rootdev 1
  let dir ← inodeAt dp
  if dir.type ≠ T_DIR then pure none
  else do
    let ip ← mknod dp file_name T_FILE 0 0
    iput dp
    pure (some ip)

/-- The inode that `sys_open` opens. -/
def openInode (file_name : List UInt8) (arg1 : Int) :
    Act Fault Fs.State (Option (Fin NINODE)) := do
  let ip ← namei file_name
  match ip with
  | some ip => pure (some ip)
  | none => if hasFlag arg1 O_CREATE then openCreate file_name else pure none

/-- The fields of an entry that `sys_open` has allocated. -/
def Fd.opened (fd : Fd) (ip : Fin NINODE) (arg1 : Int) : Fd :=
  { fd with
    type := .FD_FILE
    ip := some ip
    off := 0
    readable := decide (hasFlag arg1 O_RDWR ∨ ¬hasFlag arg1 O_WRONLY)
    writeable := decide (hasFlag arg1 O_RDWR ∨ hasFlag arg1 O_WRONLY) }

/-- The part of `sys_open` from `fd_alloc` on. -/
def openInstall (cp : Fin NPROC) (ip : Fin NINODE) (arg1 : Int) : Act Fault State Int := do
  let fd_file ← fdAlloc
  let ufd ← fdUalloc cp
  onFs (iunlock ip)
  match fd_file with
  | none => Act.fail .abort
  | some e => do
      modifyFd e fun fd => fd.opened ip arg1
      modifyProc cp fun p => p.install link ufd (some e)
      pure (match ufd with
        | some slot => (slot.val : Int)
        | none => -1)

def sysOpen (cp : Fin NPROC) : Act Fault State Int := do
  let file_name ← argaddr link cp 0 DIRSIZ
  let arg1 ← argraw link cp 1
  let ip ← onFs (openInode file_name arg1)
  match ip with
  | none => pure (-1)
  | some ip => openInstall link cp ip arg1

/-- The file-system part of `sys_mknod`. -/
def mknodDev (dev_name : List UInt8) (major minor : UInt16) : Act Fault Fs.State Unit := do
  let dp ← iget rootdev 1
  let nip ← mknod dp dev_name T_DEV major minor
  iput dp
  iput nip

def sysMknod (cp : Fin NPROC) : Act Fault State Int := do
  let dev_name ← argaddr link cp 0 DIRSIZ
  let _ ← argraw link cp 1
  let major ← argraw link cp 2
  let minor ← argraw link cp 3
  onFs (mknodDev dev_name (asShort major) (asShort minor))
  pure 0

/-- The file-system part of `sys_unlink`. The link count is a `short`. -/
def unlinkInode (file_name : List UInt8) : Act Fault Fs.State Unit := do
  let ip ← namei file_name
  match ip with
  | none => Act.fail .abort
  | some ip => do
      modifyInode ip fun inode => { inode with nlink := inode.nlink - 1 }
      let inode ← inodeAt ip
      Act.stopIf (inode.nlink = 0 ∨ 2 ^ 15 ≤ inode.nlink.toNat)
        (.panic "sys_unlink: unimplement")
      iupdateSlot ip
      iput ip

def sysUnlink (cp : Fin NPROC) : Act Fault State Int := do
  let file_name ← argaddr link cp 0 DIRSIZ
  onFs (unlinkInode file_name)
  pure 0

end

end Gcgos.Kernel
