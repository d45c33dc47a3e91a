import Gcgos.Fs.File

/-!
# Paths and directories

`namei` and `mknod` of `kernel/fs.c`. A path is the bytes of the caller's
buffer from the pointer on; a look past its last byte is an access outside the
buffer. A directory block is 32 entries, looked at in order.
-/

set_option autoImplicit false

namespace Gcgos.Fs

open Act Bio ByteMap

abbrev slash : UInt8 := 47

/-- `while (*cp == '/') cp++;`. -/
def skipSlashes (cp : List UInt8) : List UInt8 := cp.dropWhile fun c => c == slash

/-- `for (i = 0; i < DIRSIZ && cp[i] != '/' && cp[i]; i++) if (cp[i] !=
ep->name[i]) break;` as the value of `i` afterwards, over the name's bytes
from `i` on. -/
def nameScan : (name cp : List UInt8) → Option Nat
  | [], _ => some 0
  | _ :: _, [] => none
  | n :: name, c :: cp =>
      if c = slash ∨ c = 0 then some 0
      else if c ≠ n then some 0
      else (nameScan name cp).map (· + 1)

/-- The test after the loop: the entry matches and `cp` moves on by `i`. -/
def nameMatch (name cp : List UInt8) : Except Fault (Option Nat) :=
  match nameScan name cp with
  | none => .error .bounds
  | some i =>
      match cp[i]? with
      | none => .error .bounds
      | some c =>
          if (c = 0 ∨ c = slash) ∧ (DIRSIZ ≤ i ∨ name.getD i 0 = 0) then .ok (some i)
          else .ok none

abbrev direntsPerBlock : Nat := BSIZE / direntSize

/-- The scan of one directory block from entry `k` on. -/
def direntScan (data : Block) (cp : List UInt8) :
    (fuel k : Nat) → Except Fault (Option (UInt16 × Nat))
  | 0, _ => .ok none
  | fuel + 1, k =>
      if data.direntInum k = 0 then direntScan data cp fuel (k + 1)
      else
        match nameMatch (data.direntName k) cp with
        | .error stop => .error stop
        | .ok (some i) => .ok (some (data.direntInum k, i))
        | .ok none => direntScan data cp fuel (k + 1)

def liftExcept {σ α : Type} (result : Except Fault α) : Act Fault σ α := fun s =>
  match result with
  | .ok value => .ok (value, s)
  | .error stop => .error stop

/-- The loop of `namei` over the blocks of one directory. -/
def dirScan (dp : Inode) (cp : List UInt8) :
    (fuel off : Nat) → Act Fault Bio (Option (UInt16 × Nat))
  | 0, _ => pure none
  | fuel + 1, off =>
      if off < dp.size.toNat then do
        let blk ← bmap dp (off / 512)
        let bp ← bread dp.dev blk.toNat
        let data ← bufData bp
        let found ← liftExcept (direntScan data cp direntsPerBlock 0)
        brelse bp
        match found with
        | some hit => pure (some hit)
        | none => dirScan dp cp fuel (off + 512)
      else pure none

/-- The number of directory blocks below a size, and so a bound on the turns
of the block loops. -/
def dirBlocks (size : UInt32) : Nat := (size.toNat + 511) / 512

/-- The loop of `namei`: `cp` starts at a component or at the end. Every turn
that goes on has consumed a byte, so the length of the path bounds them. -/
def nameiWalk : (fuel : Nat) → (dp : Fin NINODE) → (cp : List UInt8) →
    Act Fault State (Option (Fin NINODE))
  | 0, _, _ => Act.fail .bounds
  | fuel + 1, dp, cp =>
      match cp with
      | [] => Act.fail .bounds
      | c :: _ =>
          if c = 0 then pure (some dp)
          else do
            let ip ← inodeAt dp
            if ip.type ≠ T_DIR then do
              iput dp
              pure none
            else do
              let hit ← onBio (dirScan ip cp (dirBlocks ip.size) 0)
              iput dp
              match hit with
              | none => pure none
              | some (ninum, i) => do
                  let next ← iget ip.dev (UInt32.ofNat ninum.toNat)
                  nameiWalk fuel next (skipSlashes (cp.drop i))

abbrev rootdev : UInt32 := 1

def namei (path : List UInt8) : Act Fault State (Option (Fin NINODE)) := do
  let dp ← iget rootdev 1
  nameiWalk (path.length + 1) dp (skipSlashes path)

/-- The first unused entry of a directory block, from entry `k` on. -/
def direntFree (data : Block) : (fuel k : Nat) → Option Nat
  | 0, _ => none
  | fuel + 1, k => if data.direntInum k = 0 then some k else direntFree data fuel (k + 1)

/-- The search of `mknod` for an unused entry. The block that has one stays
held. -/
def mknodScan (dp : Inode) : (fuel off : Nat) → Act Fault Bio (Option (Nat × Nat × Fin NBUF))
  | 0, _ => pure none
  | fuel + 1, off =>
      if off < dp.size.toNat then do
        let blk ← bmap dp (off / 512)
        let bp ← bread dp.dev blk.toNat
        let data ← bufData bp
        match direntFree data direntsPerBlock 0 with
        | some k => pure (some (off, k, bp))
        | none => do
            brelse bp
            mknodScan dp fuel (off + 512)
      else pure none

/-- The bytes `mknod` copies into `ep->name`: up to the first NUL or `DIRSIZ`
of them. -/
def nameBytes : (fuel : Nat) → (path : List UInt8) → Except Fault (List UInt8)
  | 0, _ => .ok []
  | _ + 1, [] => .error .bounds
  | fuel + 1, c :: path =>
      if c = 0 then .ok []
      else
        match nameBytes fuel path with
        | .ok rest => .ok (c :: rest)
        | .error stop => .error stop

/-- The disk part of `mknod`: enter `inum` under `path` in the directory. -/
def mknodEnter (dp : Inode) (inum : UInt32) (path : List UInt8) : Act Fault Bio Unit := do
  let hit ← mknodScan dp (dirBlocks dp.size) 0
  match hit with
  | none => Act.fail (.panic "mknod:no dir entry free\n")
  | some (off, k, bp) => do
      let data ← bufData bp
      let name ← liftExcept (nameBytes DIRSIZ path)
      setBufData bp ((data.putU16 (direntSize * k) (UInt16.ofNat inum.toNat)).put
        (direntSize * k + 2) name)
      let target ← bmap dp (off / 512)
      bwrite dp.dev bp target.toNat
      brelse bp

def mknod (dp : Fin NINODE) (path : List UInt8) (type major minor : UInt16) :
    Act Fault State (Fin NINODE) := do
  let dir ← inodeAt dp
  let i ← ialloc dir.dev type
  modifyInode i fun ip => { ip with major := major, minor := minor, size := 0, nlink := 0 }
  iupdateSlot i
  let ip ← inodeAt i
  let dir ← inodeAt dp
  onBio (mknodEnter dir ip.inum path)
  modifyInode dp fun dir => { dir with size := dir.size + UInt32.ofNat direntSize }
  iupdateSlot dp
  pure i

end Gcgos.Fs
