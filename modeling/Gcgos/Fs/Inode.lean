import Gcgos.Fs.Bitmap

/-!
# The inode table

The in-memory inodes of `kernel/fs.c`: `iget`, `ialloc`, `iupdate`, the lock
and reference operations, and `bmap`. A pointer into `inode[]` is its index.

Operations that only use the disk run over the buffers alone; the others run
over the whole file-system state. The `wakeup` calls of `iput` and `iunlock`
are kept in order in `wakeups`: nothing in `fs.c` looks at the process table,
so they can be carried out when the call returns to its caller.
-/

set_option autoImplicit false

namespace Gcgos.Fs

open Act Bio ByteMap

/-- `struct inode`. -/
structure Inode where
  dev : UInt32
  major : UInt16
  minor : UInt16
  inum : UInt32
  count : Int
  busy : Bool
  type : UInt16
  nlink : UInt16
  size : UInt32
  addrs : Addrs
deriving DecidableEq

/-- The console of `kernel/console.c`: its ring, its cursors, and the bytes
sent to the UART. -/
structure Cons where
  buf : Fin 128 → UInt8
  r : UInt32
  w : UInt32
  out : List UInt8

theorem NINODE_pos : 0 < NINODE := by decide

structure State where
  bio : Bio
  inode : Fin NINODE → Inode
  cons : Cons
  wakeups : List Chan

namespace State

def setInode (s : State) (i : Fin NINODE) (ip : Inode) : State :=
  { s with inode := Function.update s.inode i ip }

/-- The sectors of the card. -/
def disk (s : State) : Nat → Block := s.bio.sd.block

@[simp] theorem setInode_bio (s : State) (i : Fin NINODE) (ip : Inode) :
    (s.setInode i ip).bio = s.bio := rfl

@[simp] theorem setInode_inode (s : State) (i : Fin NINODE) (ip : Inode) :
    (s.setInode i ip).inode = Function.update s.inode i ip := rfl

end State

/-- An entry of `inode[]` before the kernel has written to it. -/
def Inode.zero : Inode where
  dev := 0
  major := 0
  minor := 0
  inum := 0
  count := 0
  busy := false
  type := 0
  nlink := 0
  size := 0
  addrs := fun _ => 0

/-- The file system's globals as the loader leaves them, over a card whose reads
succeed. -/
def State.loaded (disk : Nat → Block) : State where
  bio := ⟨⟨disk, []⟩, fun _ => ⟨false, Block.zero⟩⟩
  inode := fun _ => Inode.zero
  cons := ⟨fun _ => 0, 0, 0, []⟩
  wakeups := []

/-- An operation on the buffers, as an operation on the file system. -/
def onBio {α : Type} (inner : Act Fault Bio α) : Act Fault State α :=
  Act.zoom State.bio (fun bio s => { s with bio := bio }) inner

/-- `*ip`. -/
def inodeAt (i : Fin NINODE) : Act Fault State Inode := Act.reads fun s => s.inode i

def modifyInode (i : Fin NINODE) (change : Inode → Inode) : Act Fault State Unit :=
  Act.modify fun s => s.setInode i (change (s.inode i))

/-- The five stores of `iupdate` into the dinode. -/
def Block.updateDinode (block : Block) (slot : Nat) (ip : Inode) : Block :=
  let base := dinodeSize * slot
  ((((block.putU16 base ip.type).putU16 (base + 2) ip.major).putU16
    (base + 4) ip.minor).putU16 (base + 6) ip.nlink).putU32 (base + 8) ip.size

def iupdate (ip : Inode) : Act Fault Bio Unit := do
  let bp ← bread ip.dev (IBLOCK ip.inum.toNat)
  let data ← bufData bp
  bstore ip.dev bp (data.updateDinode (ip.inum.toNat % IPB) ip) (IBLOCK ip.inum.toNat)

/-- `iupdate(ip)` for a slot of the table. -/
def iupdateSlot (i : Fin NINODE) : Act Fault State Unit := do
  let ip ← inodeAt i
  onBio (iupdate ip)

/-- The second half of `iget`, for a slot that has just been claimed. -/
def igetLoad (i : Fin NINODE) (dev inum : UInt32) : Act Fault State Unit := do
  let din ← onBio do
    let bp ← bread dev (IBLOCK inum.toNat)
    let data ← bufData bp
    brelse bp
    pure (data.dinode (inum.toNat % IPB))
  modifyInode i fun nip =>
    { nip with
      type := din.type
      major := din.major
      minor := din.minor
      nlink := din.nlink
      size := din.size
      addrs := din.addrs }

/-- The slot that holds `(dev, inum)`. -/
def findSlot (s : State) (dev inum : UInt32) : Option (Fin NINODE) :=
  (List.finRange NINODE).find? fun i =>
    decide (0 < (s.inode i).count) && (s.inode i).dev == dev && (s.inode i).inum == inum

/-- The first slot with no references. -/
def freeSlot (s : State) : Option (Fin NINODE) :=
  (List.finRange NINODE).find? fun i => (s.inode i).count == 0

/-- The claim `iget` makes on a slot that already holds the inode. -/
def igetHit (i : Fin NINODE) : Act Fault State (Fin NINODE) := do
  let ip ← inodeAt i
  Act.stopIf (ip.busy = true) (.sleep (.inode i))
  modifyInode i fun ip => { ip with count := ip.count + 1, busy := true }
  pure i

def igetMiss (i : Fin NINODE) (dev inum : UInt32) : Act Fault State (Fin NINODE) := do
  modifyInode i fun nip => { nip with dev := dev, inum := inum, count := 1, busy := true }
  igetLoad i dev inum
  pure i

def iget (dev inum : UInt32) : Act Fault State (Fin NINODE) := do
  let s ← Act.reads id
  match findSlot s dev inum, freeSlot s with
  | some i, _ => igetHit i
  | none, some i => igetMiss i dev inum
  | none, none => Act.fail (.panic "out of inode")

/-- The loop of `ialloc` from `inum` on, with `fuel` numbers left. It ends
with the buffer and the slot `dip` points to: held and free when an unused
dinode was found, and otherwise the last one looked at, already released. -/
def iallocScan (dev : UInt32) :
    (fuel inum : Nat) → (last : Option (Fin NBUF × Nat)) →
      Act Fault Bio (Nat × Option (Fin NBUF × Nat))
  | 0, inum, last => pure (inum, last)
  | fuel + 1, inum, _ => do
      let bp ← bread dev (IBLOCK inum)
      let data ← bufData bp
      if (data.dinode (inum % IPB)).type = 0 then pure (inum, some (bp, inum % IPB))
      else do
        brelse bp
        iallocScan dev fuel (inum + 1) (some (bp, inum % IPB))

/-- The disk part of `ialloc`: it returns the inode number that `iget` then
loads. -/
def iallocDisk (dev : UInt32) (type : UInt16) : Act Fault Bio Nat := do
  let bp ← bread dev 1
  let data ← bufData bp
  let ninodes := data.supperblock.ninodes
  brelse bp
  let (inum, dip) ← iallocScan dev (intBound ninodes - 1) 1 none
  match dip with
  | none => Act.fail .abort
  | some (bp, slot) => do
      let data ← bufData bp
      bstore dev bp (data.putU16 (dinodeSize * slot) type) (IBLOCK inum)
      pure inum

def ialloc (dev : UInt32) (type : UInt16) : Act Fault State (Fin NINODE) := do
  let inum ← onBio (iallocDisk dev type)
  iget dev (UInt32.ofNat inum)

def recordWakeup (chan : Chan) : Act Fault State Unit :=
  Act.modify fun s => { s with wakeups := s.wakeups ++ [chan] }

def ilock (i : Fin NINODE) : Act Fault State Unit := do
  let ip ← inodeAt i
  Act.stopIf (ip.busy = true) (.sleep (.inode i))
  modifyInode i fun ip => { ip with busy := true }

def iunlock (i : Fin NINODE) : Act Fault State Unit := do
  modifyInode i fun ip => { ip with busy := false }
  recordWakeup (.inode i)

def iput (i : Fin NINODE) : Act Fault State Unit := do
  modifyInode i fun ip => { ip with count := ip.count - 1, busy := false }
  recordWakeup (.inode i)

def iincref (i : Fin NINODE) : Act Fault State Unit :=
  modifyInode i fun ip => { ip with count := ip.count + 1 }

/-- Word `k` of a `struct buf` seen as an array of `uint`: the flags come
first and the data follows. -/
def Buf.word (buf : Buf) (k : Nat) : Option UInt32 :=
  if k = 0 then some buf.flags
  else if k ≤ NINDIRECT then some (buf.data.entry (k - 1))
  else none

/-- For an indirect block the source casts the buffer pointer itself to
`uint*` and never releases the buffer. -/
def bmap (ip : Inode) (bn : Nat) : Act Fault Bio UInt32 :=
  if bn < NDIRECT then pure (ip.addrs (addrSlot bn))
  else do
    let b ← bread ip.dev (ip.addrs indirectSlot).toNat
    let buf ← Act.reads fun s => s.buf b
    match buf.word (bn - NDIRECT) with
    | some x => pure x
    | none => Act.fail .bounds

end Gcgos.Fs
