import Gcgos.Kernel.State

/-!
# Descriptors and pipes

`kernel/fd.c` and `kernel/pipe.c`. A pointer into `fds[]` is its index and a
null pointer is `none`. A pipe is the first bytes of a page: the two open
flags, the two cursors and the data.
-/

set_option autoImplicit false

namespace Gcgos.Kernel

open Act ByteMap

/-- The slot that `fd_ualloc` returns; none is -1. -/
def Proc.freeSlot (p : Proc) : Option (Fin NOFILE) :=
  (List.finRange NOFILE).find? fun fd => (p.fds fd).isNone

def fdUalloc (cp : Fin NPROC) : Act Fault State (Option (Fin NOFILE)) := do
  let p ← procAt cp
  pure p.freeSlot

/-- `p->fds[fd] = entry`. The slot -1 is the word in front of the array. -/
def Proc.install (link : Link) (p : Proc) (fd : Option (Fin NOFILE)) (entry : Option (Fin NFD)) :
    Proc :=
  match fd with
  | some fd => { p with fds := Function.update p.fds fd entry }
  | none =>
      { p with
        ctx := Function.update p.ctx ctxX30
          (match entry with
            | some e => link.fds + 40 * e.val
            | none => 0) }

/-- The entry that `fd_alloc` takes. -/
def freeEntry (s : State) : Option (Fin NFD) :=
  (List.finRange NFD).find? fun e => (s.fds e).type = .FD_CLOSE

def fdAlloc : Act Fault State (Option (Fin NFD)) := do
  let entry ← Act.reads freeEntry
  match entry with
  | none => pure none
  | some e => do
      modifyFd e fun fd => { fd with type := .FD_NONE, ref := 1 }
      pure (some e)

abbrev PIPESIZE : Nat := 512

section

variable (link : Link)

/-- Read an `int` of memory. -/
def load32 (addr : Nat) : Act Fault Mm Int := do
  let bytes ← loadBytes link addr 4
  pure (Fs.asInt (leNat (fun i => bytes.getD i 0) 0 4))

def store32 (addr value : Nat) : Act Fault Mm Unit := storeBytes link addr (leBytes 4 value)

/-- The fields of both ends of a new pipe. -/
def Fd.pipeEnd (fd : Fd) (page : Nat) (writeable : Bool) : Fd :=
  { fd with type := .FD_PIPE, readable := !writeable, writeable := writeable, pipe := page }

/-- `pipe_alloc`: the two entries as it leaves them in its result arguments. -/
def pipeAlloc : Act Fault State (Option (Fin NFD) × Option (Fin NFD)) := do
  let fd1 ← fdAlloc
  match fd1 with
  | none => pure (none, none)
  | some e1 => do
      let fd2 ← fdAlloc
      match fd2 with
      | none => pure (some e1, none)
      | some e2 => do
          let page ← onMm do
            let p ← kalloc link
            store32 link p 1
            store32 link (p + 4) 1
            pure p
          modifyFd e1 fun fd => fd.pipeEnd page false
          modifyFd e2 fun fd => fd.pipeEnd page true
          pure (some e1, some e2)

/-- The loop of `pipe_write`. The bytes come from `&addr`, the argument's own
place on the kernel stack. -/
def pipeWriteLoop (page : Nat) : (source : List UInt8) → Act Fault Mm Unit
  | [] => pure ()
  | byte :: rest => do
      let writep ← load32 link (page + 12)
      let target := (page : Int) + 16 + writep
      Act.stopIf (target < 0) .abort
      storeBytes link target.toNat [byte]
      store32 link (page + 12) ((writep + 1) % 2 ^ 32).toNat
      pipeWriteLoop page rest

/-- `stack` is what lies on the kernel stack from `&addr` on. -/
def pipeWrite (page : Nat) (stack : Nat → UInt8) (n : Int) : Act Fault Mm Int := do
  pipeWriteLoop link page ((List.range n.toNat).map stack)
  pure 0

def pipeReadLoop (page buf : Nat) : (count i : Nat) → Act Fault Mm Unit
  | 0, _ => pure ()
  | count + 1, i => do
      let readp ← load32 link (page + 8)
      let source := (page : Int) + 16 + readp
      Act.stopIf (source < 0) .abort
      let byte ← loadBytes link source.toNat 1
      storeBytes link (buf + i) byte
      store32 link (page + 8) ((readp + 1) % 2 ^ 32).toNat
      pipeReadLoop page buf count (i + 1)

def pipeRead (page buf : Nat) (n : Int) : Act Fault Mm Int := do
  pipeReadLoop link page buf n.toNat 0
  pure (-1)

/-- The end of `pipe_close`: the page goes back when both flags are clear. -/
def pipeFree (page : Nat) : Act Fault Mm Unit := do
  let readopen ← load32 link page
  let writeopen ← load32 link (page + 4)
  if readopen = 0 ∧ writeopen = 0 then kfree link page else pure ()

def pipeClose (page : Nat) (writeable : Bool) : Act Fault State Unit := do
  onMm (store32 link (if writeable then page + 4 else page) 0)
  wakeup (if writeable then .pipeReadp page else .pipeWritep page)
  onMm (pipeFree link page)

/-- What `fd_close` does with the last reference. -/
def fdRelease (fd : Fd) : Act Fault State Unit :=
  match fd.type with
  | .FD_PIPE => pipeClose link fd.pipe fd.writeable
  | .FD_FILE =>
      match fd.ip with
      | some ip => onFs (Fs.iput ip)
      | none => Act.fail .abort
  | _ => pure ()

/-- `if (fd->ref == 0) ...`. -/
def fdLast (fd : Fd) : Act Fault State Unit :=
  if fd.ref = 0 then fdRelease link fd else pure ()

def fdClose (e : Fin NFD) : Act Fault State Unit := do
  modifyFd e fun fd => { fd with ref := fd.ref - 1 }
  let fd ← fdAt e
  fdLast link fd
  modifyFd e fun fd => { fd with type := .FD_CLOSE }

def fdIncref (e : Fin NFD) : Act Fault State Unit :=
  modifyFd e fun fd => { fd with ref := fd.ref + 1 }

/-- `writei(fd->ip, buf, fd->off, n)` for a buffer with these bytes. A length
outside the buffer is used up by a device and overruns the buffer in a file. -/
def writeiBuf (ip : Fin Fs.NINODE) (buf : List UInt8) (off : Nat) (n : Int) :
    Act Fault Fs.State Int := do
  let inode ← Fs.inodeAt ip
  if n < 0 ∧ inode.type = Fs.T_DEV ∧ Fs.hasDevice inode.major then pure n
  else if n < 0 ∧ inode.type ≠ Fs.T_DEV then Act.fail .bounds
  else Fs.writei ip (buf.take n.toNat) off

/-- `if (r > 0) fd->off += r;`. -/
def Fd.advance (r : Int) (fd : Fd) : Fd :=
  if 0 < r then { fd with off := (fd.off + r.toNat) % 2 ^ 32 } else fd

def fdWrite (e : Fin NFD) (buf : List UInt8) (stack : Nat → UInt8) (n : Int) :
    Act Fault State Int := do
  let fd ← fdAt e
  if fd.writeable = false then pure (-1)
  else
    match fd.type, fd.ip with
    | .FD_PIPE, _ => onMm (pipeWrite link fd.pipe stack n)
    | .FD_FILE, some ip => do
        let r ← onFs (writeiBuf ip buf fd.off n)
        modifyFd e (Fd.advance r)
        pure r
    | .FD_FILE, none => Act.fail .abort
    | _, _ => Act.fail (.panic "fd_write")

/-- The stores of `readi` through its destination pointer. -/
def storeAll (buf : Nat) : (stores : List (Nat × UInt8)) → Act Fault Mm Unit
  | [] => pure ()
  | (distance, byte) :: rest => do
      storeBytes link (buf + distance) [byte]
      storeAll buf rest

def fdRead (e : Fin NFD) (buf : Nat) (n : Int) : Act Fault State Int := do
  let fd ← fdAt e
  if fd.readable = false then pure (-1)
  else
    match fd.type, fd.ip with
    | .FD_PIPE, _ => onMm (pipeRead link fd.pipe buf n)
    | .FD_FILE, some ip => do
        let (cc, stores) ← onFs (Fs.readi ip fd.off (n % 2 ^ 32).toNat)
        onMm (storeAll link buf stores)
        modifyFd e (Fd.advance cc)
        pure cc
    | .FD_FILE, none => Act.fail .abort
    | _, _ => pure (-1)

end

end Gcgos.Kernel
