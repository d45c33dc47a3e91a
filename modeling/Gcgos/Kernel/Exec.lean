import Gcgos.Kernel.ExecFile
import Gcgos.Kernel.Process

/-!
# `kexec`

`kernel/exec.c`: the program file is opened and its first sector held, every
LOAD segment is copied sector by sector into a page of its own, and the
arguments are laid out in a page above them. The inode that `namei` returned
is never given back.
-/

set_option autoImplicit false

namespace Gcgos.Kernel

open Act ByteMap Fs

/-- An argument string: a constant of the kernel, or the bytes in memory up to
a NUL. -/
inductive Arg where
  | text (bytes : List UInt8)
  | page (addr : Nat)

section

variable (link : Link)

/-- The bytes of a string in memory, before its NUL. -/
def cstring : (fuel addr : Nat) → Act Fault Mm (List UInt8)
  | 0, _ => Act.fail .abort
  | fuel + 1, addr => do
      let byte ← loadBytes link addr 1
      if byte = [0] then pure []
      else do
        let rest ← cstring fuel (addr + 1)
        pure (byte ++ rest)

def Arg.bytes : Arg → Act Fault Mm (List UInt8)
  | .text bytes => pure bytes
  | .page addr => cstring link PHYSTOP addr

/-- `namei`, the sector at `addrs[0]` and the check of the magic number. -/
def kexecOpen (path : List UInt8) : Act Fault State (Fin NINODE × Fin NBUF × Block) := do
  let dp ← onFs (namei path)
  match dp with
  | none => Act.fail (.panic "kexec file not found\n")
  | some dp => do
      let inode ← onFs (inodeAt dp)
      let buf ← onBio (bread inode.dev (inode.addrs (addrSlot 0)).toNat)
      let data ← onBio (bufData buf)
      Act.stopIf ((elfOf data).magic ≠ ELF_MAGIC) (.panic "not an execute file\n")
      pure (dp, buf, data)

/-- The loop over the sectors of a segment, with `count` of them left: sector
`i` goes to `pa + 512 * j`. -/
def loadSectors (dp : Inode) (pa : Nat) : (count i j : Nat) → Act Fault State Unit
  | 0, _, _ => pure ()
  | count + 1, i, j => do
      let data ← onBio (kexecSector dp i)
      onMm (storeBytes link (pa + 512 * j) (getBytes data.byte 0 512))
      loadSectors dp pa count (i + 1) (j + 1)

/-- The number of sectors of a segment: both indices are cut to `int`. A
negative first index is outside `addrs`. -/
def Proghdr.firstSector (ph : Proghdr) : Int := asInt32 (ph.off / 512)

def Proghdr.lastSector (ph : Proghdr) : Int := asInt32 ((ph.off + ph.filesz) % 2 ^ 64 / 512)

def Proghdr.sectors (ph : Proghdr) : Nat := (ph.lastSector + 1 - ph.firstSector).toNat

def loadSegment (dp : Inode) (pagetable : Nat) (ph : Proghdr) : Act Fault State Unit := do
  let pa ← onMm (kalloc link)
  Act.stopIf (ph.firstSector < 0 ∧ 0 < ph.sectors) .bounds
  loadSectors link dp pa ph.sectors ph.firstSector.toNat 0
  let _ ← onMm (mappages link pagetable ph.vaddr pa PGSIZE PTE_AP_RW)
  pure ()

/-- The loop over the program headers from header `i` on; it returns `sz`. -/
def loadSegments (dp : Inode) (pagetable : Nat) (data : Block) :
    (count i sz : Nat) → Act Fault State Nat
  | 0, _, sz => pure sz
  | count + 1, i, sz =>
      match proghdrOf data (elfOf data).phoff i with
      | none => Act.fail .bounds
      | some ph =>
          if ph.type ≠ ELF_PROG_LOAD then loadSegments dp pagetable data count (i + 1) sz
          else do
            loadSegment link dp pagetable ph
            loadSegments dp pagetable data count (i + 1) ph.vaddr

/-- `(x - n) & ~0xF` on 64-bit words. -/
def alignDown (x n : Nat) : Nat := (x + 2 ^ 64 - n % 2 ^ 64) % 2 ^ 64 / 16 * 16

/-- The stack while the arguments are copied: where the next string goes in
memory, its user address, and the entries of `ustack` made so far. -/
structure ArgStack where
  dsp : Nat
  align_sz : Nat
  ustack : List Nat

/-- One turn of the loop over the arguments: the string and its NUL go below
what is there. -/
def pushArg (stack : ArgStack) (arg : Arg) : Act Fault Mm ArgStack := do
  let bytes ← arg.bytes link
  let dsp := alignDown stack.dsp bytes.length
  let align_sz := alignDown stack.align_sz (bytes.length + 1)
  storeBytes link dsp (bytes ++ [0])
  pure ⟨dsp, align_sz, align_sz :: stack.ustack⟩

/-- The arguments are pushed from the last one on. -/
def pushArgs : (stack : ArgStack) → (args : List Arg) → Act Fault Mm ArgStack
  | stack, [] => pure stack
  | stack, arg :: rest => do
      let stack ← pushArgs stack rest
      pushArg link stack arg

/-- `ustack[argc] = 0` and the copy of `argc + 1` words below the strings. The
array has `argc` words: the null pointer is stored behind it, to a spare word of
the frame or over another object. -/
def pushUstack (stack : ArgStack) (argc : Nat) : Act Fault Mm Nat := do
  Act.stopIf (link.spare argc = false) .bounds
  storeBytes link (alignDown stack.dsp (8 * argc))
    ((stack.ustack ++ [0]).flatMap fun entry => leBytes 8 entry)
  pure (alignDown stack.align_sz (8 * argc))

/-- The stack page and the arguments in it: the user address of `argv`. -/
def buildStack (pagetable sz : Nat) (args : List Arg) : Act Fault Mm Nat := do
  let sp ← kalloc link
  let stack ← pushArgs link ⟨sp + PGSIZE, sz + PGSIZE, []⟩ args
  let argv ← pushUstack link stack args.length
  let _ ← mappages link pagetable sz sp PGSIZE PTE_AP_RW
  pure argv

/-- The stores to the new trapframe. -/
def setTrapframe (tf argv argc entry : Nat) : Act Fault Mm Unit := do
  store64 link (tf + 0x118) argv
  store64 link tf argc
  store64 link (tf + 8) argv
  store64 link (tf + 0x110) entry

/-- `kexec` behind its checks. -/
def kexecLoad (cp : Fin NPROC) (dp : Fin NINODE) (buf : Fin NBUF) (data : Block)
    (args : List Arg) : Act Fault State Int := do
  let (pagetable, tf) ← onMm (procPagetable link)
  modifyProc cp fun proc => { proc with tf := tf }
  let inode ← onFs (inodeAt dp)
  let last ← loadSegments link inode pagetable data (elfOf data).phnum 0 0
  let sz := PGROUNDUP last + PGSIZE
  let argv ← onMm (buildStack link pagetable sz args)
  modifyProc cp fun proc => { proc with pagetable := pagetable, sz := sz }
  onMm (setTrapframe link tf argv args.length (elfOf data).entry)
  modifyProc cp fun proc => { proc with state := .RUNNABLE }
  onBio (brelse buf)
  pure 0

def kexec (cp : Fin NPROC) (path : List UInt8) (args : List Arg) : Act Fault State Int := do
  let (dp, buf, data) ← kexecOpen path
  kexecLoad link cp dp buf data args

end

end Gcgos.Kernel
