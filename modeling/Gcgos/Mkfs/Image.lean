import Gcgos.Fs.Layout
import Gcgos.Lib.Act

/-!
# The image builder

`mkfs/mkfs.c`. The image file is its sectors: `wsect` may write past the end
and makes the file longer, with zeros in between, and `rsect` fails past the
end. The counters stay below the number of sectors on every path that goes on,
so they are natural numbers. What is printed is left out.
-/

set_option autoImplicit false

namespace Gcgos.Mkfs

open Fs Act ByteMap

abbrev nblocks : Nat := 2011
abbrev ninodes : Nat := 100
abbrev size : Nat := 2048

/-- What ends `mkfs` before its last line: `exit(1)` after a message, a failed
assertion, and a pointer or string copy that leaves its object. -/
inductive Stop where
  | exit (message : String)
  | assertion
  | outside
deriving DecidableEq

/-- The image file and the globals `freeblock`, `usedblocks`, `freeinode`. -/
structure State where
  image : Nat → Block
  sectors : Nat
  freeblock : Nat
  usedblocks : Nat
  freeinode : Nat

def wsect (sec : Nat) (buf : Block) : Act Stop State Unit :=
  Act.modify fun s =>
    { s with image := Function.update s.image sec buf, sectors := max s.sectors (sec + 1) }

def rsect (sec : Nat) : Act Stop State Block := fun s =>
  if sec < s.sectors then .ok (s.image sec, s) else .error (.exit "read error\n")

def i2b (inum : Nat) : Nat := inum / IPB + 2

/-- `*dip = *ip` for the slot of `inum`. -/
def putDinode (block : Block) (inum : Nat) (din : Dinode) : Block :=
  block.put (dinodeSize * (inum % IPB)) din.bytes

def winode (inum : Nat) (din : Dinode) : Act Stop State Unit := do
  let buf ← rsect (i2b inum)
  wsect (i2b inum) (putDinode buf inum din)

def rinode (inum : Nat) : Act Stop State Dinode := do
  let buf ← rsect (i2b inum)
  pure (buf.dinode (inum % IPB))

/-- The dinode `ialloc` writes. -/
def freshDinode (type : UInt16) : Dinode where
  type := type
  major := 0
  minor := 0
  nlink := 1
  size := 0
  addrs := fun _ => 0

def ialloc (type : UInt16) : Act Stop State Nat := do
  let inum ← Act.reads State.freeinode
  Act.modify fun s => { s with freeinode := s.freeinode + 1 }
  winode inum (freshDinode type)
  pure inum

/-- The loop of `balloc` from bit `i` on: `count` more bits of `buf` are set. -/
def setBits : (count i : Nat) → Block → Block
  | 0, _, buf => buf
  | count + 1, i, buf =>
      setBits count (i + 1)
        (buf.put (i / 8) [buf.byte (i / 8) ||| 1 <<< UInt8.ofNat (i % 8)])

/-- `buf` has room for 4096 bits. -/
def balloc (used : Nat) : Act Stop State Unit := do
  Act.stopIf (BPB < used) .outside
  wsect (ninodes / IPB + 3) (setBits used 0 Block.zero)

/-- `freeblock++` and `usedblocks++`. -/
def nextBlock : Act Stop State UInt32 := fun s =>
  .ok (UInt32.ofNat s.freeblock,
    { s with freeblock := s.freeblock + 1, usedblocks := s.usedblocks + 1 })

/-- `if (din.addrs[k] == 0) din.addrs[k] = freeblock++;`. -/
def addrsFill (din : Dinode) (k : Fin (NDIRECT + 1)) : Act Stop State Dinode :=
  if din.addrs k = 0 then do
    let b ← nextBlock
    pure { din with addrs := Function.update din.addrs k b }
  else pure din

/-- `if (inp[k] == 0) inp[k] = freeblock++;`. -/
def entryFill (indirect : Block) (k : Nat) : Act Stop State Block :=
  if indirect.entry k = 0 then do
    let b ← nextBlock
    pure (indirect.putU32 (4 * k) b)
  else pure indirect

/-- The mapping part of `iappend`: the block that file block `fbn` goes to. -/
def iappendMap (din : Dinode) (fbn : Nat) : Act Stop State (UInt32 × Dinode) :=
  if fbn < NDIRECT then do
    let din ← addrsFill din (addrSlot fbn)
    pure (din.addrs (addrSlot fbn), din)
  else do
    Act.stopIf (¬fbn - NDIRECT < NINDIRECT) .assertion
    let din ← addrsFill din indirectSlot
    let indirect ← rsect (din.addrs indirectSlot).toNat
    let indirect ← entryFill indirect (fbn - NDIRECT)
    wsect (din.addrs indirectSlot).toNat indirect
    pure (indirect.entry (fbn - NDIRECT), din)

/-- The loop of `iappend`; `fuel` is at least the number of bytes left. -/
def iappendLoop : (fuel off : Nat) → (p : List UInt8) → Dinode →
    Act Stop State (Nat × Dinode)
  | 0, off, _, din => pure (off, din)
  | fuel + 1, off, p, din =>
      if p = [] then pure (off, din)
      else do
        let (wbn, din) ← iappendMap din (off / 512)
        let n1 := min p.length ((off / 512 + 1) * 512 - off)
        let buf ← rsect wbn.toNat
        wsect wbn.toNat (buf.put (off - off / 512 * 512) (p.take n1))
        iappendLoop fuel (off + n1) (p.drop n1) din

def iappend (inum : Nat) (p : List UInt8) : Act Stop State Unit := do
  let din ← rinode inum
  let (off, din) ← iappendLoop p.length din.size.toNat p din
  winode inum { din with size := UInt32.ofNat off }

/-- `for (i = 0; i < nblocks + usedblocks; i++) wsect(i, zero);`. -/
def zeroSectors : (count : Nat) → Act Stop State Unit
  | 0 => pure ()
  | count + 1 => do
      zeroSectors count
      wsect count Block.zero

abbrev bitblocks : Nat := size / (512 * 8) + 1

/-- The number of the first data block. -/
abbrev firstData : Nat := ninodes / IPB + 3 + bitblocks

/-- The 512 bytes from `&sb` on: the superblock, and whatever follows it in
memory. -/
def superSector (behind : Block) : Block :=
  ((behind.putU32 0 (UInt32.ofNat size)).putU32 4 (UInt32.ofNat nblocks)).putU32 8
    (UInt32.ofNat ninodes)

/-- The first half of `main`: the zeroed image with its superblock. -/
def format (behind : Block) : Act Stop State Unit := do
  Act.modify fun s => { s with freeblock := firstData, usedblocks := firstData }
  Act.stopIf (nblocks + firstData ≠ size) .assertion
  zeroSectors (nblocks + firstData)
  wsect 1 (superSector behind)

/-- `de` with this inode number and name. `strcpy` copies the name and a NUL
into the zeroed entry. -/
def dirent (inum : Nat) (name : List UInt8) : List UInt8 :=
  leBytes 2 inum ++ name ++ List.replicate (DIRSIZ - name.length) 0

/-- Enter a name into the root directory. A name with no room for its NUL
overruns the entry. -/
def enter (rootino inum : Nat) (name : List UInt8) : Act Stop State Unit := do
  Act.stopIf (DIRSIZ ≤ name.length) .outside
  iappend rootino (dirent inum name)

/-- `while ((cc = read(fd, buf, 512)) > 0) iappend(inum, buf, cc);` for a file
with these contents; `fuel` is at least their length. -/
def copyFile (inum : Nat) : (fuel : Nat) → (contents : List UInt8) → Act Stop State Unit
  | 0, _ => pure ()
  | fuel + 1, contents =>
      if contents = [] then pure ()
      else do
        iappend inum (contents.take 512)
        copyFile inum fuel (contents.drop 512)

/-- `strrchr(path, '/') + 1`. -/
def baseName (path : List UInt8) : Option (List UInt8) :=
  if 47 ∈ path then some (path.reverse.takeWhile fun c => c != 47).reverse else none

/-- An argument of `mkfs`: its path without the final NUL, and its contents
when it can be opened. -/
structure Input where
  path : List UInt8
  contents : Option (List UInt8)

/-- One turn of the loop over the arguments. A file that does not open reads
as empty. -/
def addFile (rootino : Nat) (input : Input) : Act Stop State Unit := do
  let inum ← ialloc T_FILE
  match baseName input.path with
  | none => Act.fail .outside
  | some name => do
      enter rootino inum name
      copyFile inum (input.contents.getD []).length (input.contents.getD [])

def addFiles (rootino : Nat) : List Input → Act Stop State Unit
  | [] => pure ()
  | input :: rest => do
      addFile rootino input
      addFiles rootino rest

abbrev dot : UInt8 := 46

def main (behind : Block) (inputs : List Input) : Act Stop State Unit := do
  format behind
  let rootino ← ialloc T_DIR
  Act.stopIf (rootino ≠ 1) .assertion
  enter rootino rootino [dot]
  enter rootino rootino [dot, dot]
  addFiles rootino inputs
  let used ← Act.reads State.usedblocks
  balloc used

/-- The globals before `main`, and the image file as `open` leaves it. -/
def initial : State where
  image := fun _ => Block.zero
  sectors := 0
  freeblock := 0
  usedblocks := 0
  freeinode := 1

end Gcgos.Mkfs
