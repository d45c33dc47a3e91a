import Gcgos.Fs.Table

/-!
# The program file as `kexec` reads it

The part of `kernel/exec.c` that works on buffers: the views it has of the ELF
header and the program headers in the first sector of the file, its own lookup
of the block behind a sector index, and the copy of one segment.
-/

set_option autoImplicit false

namespace Gcgos.Kernel

open Fs Act Bio ByteMap

abbrev ELF_MAGIC : UInt32 := 0x464c457f
abbrev ELF_PROG_LOAD : UInt32 := 1

/-- `sizeof(struct proghdr)`. -/
abbrev proghdrSize : Nat := 56

/-- The fields of `struct elf` that `kexec` uses. -/
structure Elf where
  magic : UInt32
  entry : Nat
  phoff : Nat
  phnum : Nat

def elfOf (data : Block) : Elf where
  magic := data.u32 0
  entry := leNat data.byte 24 8
  phoff := leNat data.byte 32 8
  phnum := leNat data.byte 56 2

/-- The fields of `struct proghdr` that `kexec` uses. -/
structure Proghdr where
  type : UInt32
  off : Nat
  vaddr : Nat
  filesz : Nat
deriving DecidableEq

/-- Program header `i` behind `phoff`; none when it leaves the buffer. -/
def proghdrOf (data : Block) (phoff i : Nat) : Option Proghdr :=
  let base := (phoff + proghdrSize * i) % 2 ^ 64
  if base + proghdrSize ≤ BSIZE then
    some ⟨data.u32 base, leNat data.byte (base + 8) 8, leNat data.byte (base + 16) 8,
      leNat data.byte (base + 32) 8⟩
  else none

/-- The block behind sector index `i`, and the buffer of the indirect block
when the lookup needs it. -/
def kexecBlock (dp : Inode) (i : Nat) : Act Fault Bio (UInt32 × Option (Fin NBUF)) :=
  if i < NDIRECT then pure (dp.addrs (addrSlot i), none)
  else do
    let data_buf ← bread dp.dev (dp.addrs indirectSlot).toNat
    let p ← bufData data_buf
    Act.stopIf (NINDIRECT ≤ i - NDIRECT) .bounds
    Act.stopIf (p.entry (i - NDIRECT) = 0) (.panic "invalid indirect block")
    pure (p.entry (i - NDIRECT), some data_buf)

/-- The bytes of sector index `i`. Both buffers are released after the copy;
for a direct block they are one buffer. -/
def kexecSector (dp : Inode) (i : Nat) : Act Fault Bio Block := do
  let (blk, data_buf) ← kexecBlock dp i
  let sec_buf ← bread dp.dev blk.toNat
  let bytes ← bufData sec_buf
  brelse (data_buf.getD sec_buf)
  brelse sec_buf
  pure bytes

end Gcgos.Kernel
