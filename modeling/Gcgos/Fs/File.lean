import Gcgos.Fs.Inode

/-!
# Reading and writing files

`readi` and `writei` of `kernel/fs.c` and the console device behind them
(`kernel/console.c`; `consoleinit` installs it as device 1 and it is the only
one). Offsets and lengths are natural numbers: `writei` stops at `MAXFILE`
and `readi` at the size of the file, long before a 32-bit sum could wrap.

A destination in memory is the list of stores made to it, each a distance from
the pointer the caller passed and a byte.
-/

set_option autoImplicit false

namespace Gcgos.Fs

open Act Bio ByteMap

/-- `ip->addrs[k] = balloc(ip->dev)` when the entry is still zero. -/
def addrsAlloc (i : Fin NINODE) (k : Fin (NDIRECT + 1)) : Act Fault State Unit := do
  let ip ← inodeAt i
  if ip.addrs k = 0 then do
    let b ← onBio (balloc ip.dev)
    modifyInode i fun ip => { ip with addrs := Function.update ip.addrs k b }
  else pure ()

/-- `inp[k] = balloc(dev)` when the entry is still zero. -/
def entryAlloc (dev : UInt32) (data : Block) (k : Nat) : Act Fault Bio Block :=
  if data.entry k = 0 then do
    let b ← balloc dev
    pure (data.putU32 (4 * k) b)
  else pure data

/-- The indirect half of `writei`'s allocation. `inp[NINDIRECT]` lies outside
the block. -/
def writeiIndirect (i : Fin NINODE) (k : Nat) : Act Fault State Unit := do
  Act.stopIf (NINDIRECT < k) (.panic "writei:MAXFILE")
  addrsAlloc i indirectSlot
  let ip ← inodeAt i
  onBio do
    let bp ← bread ip.dev (ip.addrs indirectSlot).toNat
    Act.stopIf (NINDIRECT ≤ k) .bounds
    let data ← bufData bp
    let data ← entryAlloc ip.dev data k
    bstore ip.dev bp data (ip.addrs indirectSlot).toNat

/-- `writei` makes sure that file block `lbn` has a disk block. -/
def writeiMap (i : Fin NINODE) (lbn : Nat) : Act Fault State Unit :=
  if lbn < NDIRECT then addrsAlloc i (addrSlot lbn)
  else writeiIndirect i (lbn - NDIRECT)

/-- The copy of one piece; `bmap` is asked once for the read and once for the
write. -/
def writeiStore (ip : Inode) (off : Nat) (piece : List UInt8) : Act Fault Bio Unit := do
  let source ← bmap ip (off / BSIZE)
  let bp ← bread ip.dev source.toNat
  let data ← bufData bp
  setBufData bp (data.put (off % BSIZE) piece)
  let target ← bmap ip (off / BSIZE)
  bwrite ip.dev bp target.toNat
  brelse bp

/-- The loop of `writei`. It returns the offset it has reached; `fuel` is at
least the number of bytes left. -/
def writeiLoop (i : Fin NINODE) : (fuel off : Nat) → (src : List UInt8) → Act Fault State Nat
  | 0, off, _ => pure off
  | fuel + 1, off, src =>
      if src = [] then pure off
      else do
        writeiMap i (off / BSIZE)
        let ip ← inodeAt i
        let m := min (BSIZE - off % BSIZE) src.length
        onBio (writeiStore ip off (src.take m))
        writeiLoop i fuel (off + m) (src.drop m)

/-- `if (r > 0) if (off > ip->size) ip->size = off;`. -/
def writeiGrow (r off : Nat) (ip : Inode) : Inode :=
  if 0 < r ∧ ip.size.toNat < off then { ip with size := UInt32.ofNat off } else ip

def writeiFile (i : Fin NINODE) (src : List UInt8) (off : Nat) : Act Fault State Int := do
  let reached ← writeiLoop i src.length off src
  modifyInode i (writeiGrow src.length reached)
  iupdateSlot i
  pure src.length

abbrev CONSOLE : UInt16 := 1

/-- `devsw[major]` has both functions. A negative `major` is not below `NDEV`
as an unsigned number. -/
def hasDevice (major : UInt16) : Prop := major.toNat < NDEV ∧ major = CONSOLE

instance (major : UInt16) : Decidable (hasDevice major) :=
  inferInstanceAs (Decidable (_ ∧ _))

def consoleWrite (src : List UInt8) : Act Fault State Int := do
  Act.modify fun s => { s with cons := { s.cons with out := s.cons.out ++ src } }
  pure src.length

def writei (i : Fin NINODE) (src : List UInt8) (off : Nat) : Act Fault State Int := do
  let ip ← inodeAt i
  if ip.type = T_DEV then
    if hasDevice ip.major then consoleWrite src else pure (-1)
  else if ip.type = T_FILE then writeiFile i src off
  else Act.fail (.panic "writei: unkown type\n")

abbrev inputBufSize : Nat := 128

/-- The loop of `console_read` from its `i`-th turn on, with `fuel` turns left
at most: the loop condition looks at `cons.buf[i]`, the byte delivered is the
one under the read cursor. -/
def consoleReadLoop : (fuel i : Nat) → Cons → Except Fault (List UInt8 × Cons)
  | 0, _, cons => .ok ([], cons)
  | fuel + 1, i, cons =>
      if bound : i < inputBufSize then
        if cons.buf ⟨i, bound⟩ = 0 then .ok ([], cons)
        else
          let byte := cons.buf ⟨cons.r.toNat % inputBufSize, Nat.mod_lt _ (by decide)⟩
          let r := if inputBufSize < (cons.r + 1).toNat then 0 else cons.r + 1
          match consoleReadLoop fuel (i + 1)
              { cons with r := r, out := cons.out ++ [byte] } with
          | .ok (bytes, cons) => .ok (byte :: bytes, cons)
          | .error stop => .error stop
      else .error .bounds

/-- A 32-bit word as the `int` it is passed on as. -/
def asInt (n : Nat) : Int := if n < 2 ^ 31 then n else (n : Int) - 2 ^ 32

/-- `console_read(minor, dst, n)` returns `n` whatever it has delivered. -/
def consoleRead (n : Nat) : Act Fault State (Int × List (Nat × UInt8)) := fun s =>
  if s.cons.r = s.cons.w then .error (.sleep .consR)
  else
    match consoleReadLoop (asInt n).toNat 0 s.cons with
    | .ok (bytes, cons) =>
        .ok ((asInt n, (List.range bytes.length).zip bytes), { s with cons := cons })
    | .error stop => .error stop

/-- The loop of `readi`, with the destination cursor at distance `dst`. The
cursor moves twice over every piece: once in the copy and once after it. -/
def readiLoop (ip : Inode) :
    (fuel off n dst : Nat) → Act Fault Bio (Nat × List (Nat × UInt8))
  | 0, _, n, _ => pure (n, [])
  | fuel + 1, off, n, dst =>
      if 0 < n ∧ off < ip.size.toNat then do
        let blk ← bmap ip (off / 512)
        let bp ← bread ip.dev blk.toNat
        let n1 := min (min n (ip.size.toNat - off)) (512 - off % 512)
        let data ← bufData bp
        let piece := (List.range n1).map fun k => (dst + k, data.byte (off % 512 + k))
        brelse bp
        let (left, rest) ← readiLoop ip fuel (off + n1) (n - n1) (dst + n1 + n1)
        pure (left, piece ++ rest)
      else pure (n, [])

/-- `readi(ip, dst, off, n)`: the result and the stores to `dst`. -/
def readi (i : Fin NINODE) (off n : Nat) : Act Fault State (Int × List (Nat × UInt8)) := do
  let ip ← inodeAt i
  if ip.type = T_DEV then
    if hasDevice ip.major then consoleRead n else pure (-1, [])
  else do
    let (left, stores) ← onBio (readiLoop ip n off n 0)
    pure (asInt (n - left), stores)

end Gcgos.Fs
