import Gcgos.Lib.Bytes
import Mathlib.Data.Fintype.Basic

/-!
# On-disk layout

The constants and structures of `include/fs.h` over 512-byte blocks. A block
is bytes; the superblock, the inode slots and the directory entries are views
of these bytes at the offsets the C structures have, so that a store through
one view is seen by every other view of the same block. `short` and `uint`
fields are the machine words that hold them.
-/

set_option autoImplicit false

namespace Gcgos.Fs

open ByteMap

abbrev BSIZE : Nat := 512
abbrev NDIRECT : Nat := 31
/-- `512 / sizeof(uint)`. -/
abbrev NINDIRECT : Nat := 128
abbrev MAXFILE : Nat := NDIRECT + NINDIRECT
abbrev DIRSIZ : Nat := 14
/-- `512 / sizeof(struct dinode)`, with a 140-byte `struct dinode`. -/
abbrev IPB : Nat := 3
abbrev BPB : Nat := BSIZE * 8
abbrev NINODE : Nat := 100

abbrev T_DIR : UInt16 := 1
abbrev T_FILE : UInt16 := 2
abbrev T_DEV : UInt16 := 3

/-- `sizeof(struct dinode)`. -/
abbrev dinodeSize : Nat := 140
/-- `sizeof(struct dirent)`. -/
abbrev direntSize : Nat := 16

/-- An `int` as the macros of `fs.h` see it after the conversion to the
64-bit unsigned type of `IPB`. -/
def sext32 (word : UInt32) : Nat :=
  if word.toNat < 2 ^ 31 then word.toNat else word.toNat + (2 ^ 64 - 2 ^ 32)

def IBLOCK (inum : Nat) : Nat := inum / IPB + 2

/-- The result is passed on as a 32-bit sector number. -/
def BBLOCK (b : Nat) (ninodes : UInt32) : Nat :=
  (b / BPB + sext32 ninodes / IPB + 3) % 2 ^ 32

abbrev Block : Type := Fin BSIZE → UInt8

namespace Block

/-- The block's bytes by offset. An offset from `BSIZE` on is outside the
block; no modelled access uses one. -/
def byte (block : Block) (i : Nat) : UInt8 :=
  if bound : i < BSIZE then block ⟨i, bound⟩ else 0

def ofBytes (bytes : Nat → UInt8) : Block := fun i => bytes i

def zero : Block := fun _ => 0

/-- Store a run of bytes at `offset`. -/
def put (block : Block) (offset : Nat) (run : List UInt8) : Block :=
  ofBytes (putBytes block.byte offset run)

def u16 (block : Block) (offset : Nat) : UInt16 :=
  UInt16.ofNat (leNat block.byte offset 2)

def u32 (block : Block) (offset : Nat) : UInt32 :=
  UInt32.ofNat (leNat block.byte offset 4)

def putU16 (block : Block) (offset : Nat) (value : UInt16) : Block :=
  block.put offset (leBytes 2 value.toNat)

def putU32 (block : Block) (offset : Nat) (value : UInt32) : Block :=
  block.put offset (leBytes 4 value.toNat)

@[simp] theorem byte_ofBytes (bytes : Nat → UInt8) {i : Nat} (bound : i < BSIZE) :
    (ofBytes bytes).byte i = bytes i := by
  simp [byte, ofBytes, bound]

theorem byte_put (block : Block) (offset : Nat) (run : List UInt8) {i : Nat}
    (bound : i < BSIZE) :
    (block.put offset run).byte i = putBytes block.byte offset run i :=
  byte_ofBytes _ bound

theorem ext_byte {left right : Block}
    (same : ∀ i, i < BSIZE → left.byte i = right.byte i) : left = right := by
  funext i
  have at_i := same i.val i.isLt
  simpa [byte, i.isLt] using at_i

theorem byte_put_outside {block : Block} {offset : Nat} {run : List UInt8} {i : Nat}
    (outside : i < offset ∨ offset + run.length ≤ i) :
    (block.put offset run).byte i = block.byte i := by
  by_cases bound : i < BSIZE
  · rw [byte_put _ _ _ bound, putBytes_outside outside]
  · simp [byte, bound]

theorem leNat_put_apart {block : Block} {offset : Nat} {run : List UInt8}
    {field width : Nat}
    (apart : field + width ≤ offset ∨ offset + run.length ≤ field) :
    leNat (block.put offset run).byte field width = leNat block.byte field width := by
  apply leNat_congr
  intro i lower upper
  exact byte_put_outside (by omega)

theorem leNat_put_leBytes {block : Block} {offset width value : Nat}
    (fits : offset + width ≤ BSIZE) :
    leNat (block.put offset (leBytes width value)).byte offset width =
      value % 256 ^ width := by
  rw [← leNat_putBytes_leBytes block.byte offset width value]
  apply leNat_congr
  intro i lower upper
  exact byte_put _ _ _ (by omega)

@[simp] theorem u16_putU16 {block : Block} {offset : Nat} {value : UInt16}
    (fits : offset + 2 ≤ BSIZE) : (block.putU16 offset value).u16 offset = value := by
  unfold u16 putU16
  rw [leNat_put_leBytes fits]
  have bound := value.toNat_lt
  rw [Nat.mod_eq_of_lt (by simpa using bound)]
  simp

@[simp] theorem u32_putU32 {block : Block} {offset : Nat} {value : UInt32}
    (fits : offset + 4 ≤ BSIZE) : (block.putU32 offset value).u32 offset = value := by
  unfold u32 putU32
  rw [leNat_put_leBytes fits]
  have bound := value.toNat_lt
  rw [Nat.mod_eq_of_lt (by simpa using bound)]
  simp

theorem u16_put_apart {block : Block} {offset : Nat} {run : List UInt8} {field : Nat}
    (apart : field + 2 ≤ offset ∨ offset + run.length ≤ field) :
    (block.put offset run).u16 field = block.u16 field := by
  unfold u16
  rw [leNat_put_apart apart]

theorem u32_put_apart {block : Block} {offset : Nat} {run : List UInt8} {field : Nat}
    (apart : field + 4 ≤ offset ∨ offset + run.length ≤ field) :
    (block.put offset run).u32 field = block.u32 field := by
  unfold u32
  rw [leNat_put_apart apart]

theorem leNat_zero (addr width : Nat) : leNat zero.byte addr width = 0 := by
  induction width generalizing addr with
  | zero => rfl
  | succ width ih =>
      have head : zero.byte addr = 0 := by
        unfold byte zero
        split <;> rfl
      rw [leNat, ih, head]
      rfl

end Block

/-- `struct supperblock`. -/
structure Supperblock where
  size : UInt32
  nblocks : UInt32
  ninodes : UInt32
deriving DecidableEq

def Block.supperblock (block : Block) : Supperblock where
  size := block.u32 0
  nblocks := block.u32 4
  ninodes := block.u32 8

/-- The block numbers of an inode: `NDIRECT` of data blocks and the one of the
indirect block. -/
abbrev Addrs : Type := Fin (NDIRECT + 1) → UInt32

/-- Index `k` of `addrs`, for `k` up to `NDIRECT`. -/
def addrSlot (k : Nat) : Fin (NDIRECT + 1) := ⟨min k NDIRECT, by simp only [NDIRECT]; omega⟩

/-- The index of the indirect block's number in `addrs`. -/
abbrev indirectSlot : Fin (NDIRECT + 1) := addrSlot NDIRECT

theorem addrSlot_val {k : Nat} (bound : k ≤ NDIRECT) : (addrSlot k).val = k := by
  simp only [addrSlot]
  omega

theorem addrSlot_injective {k l : Nat} (left : k ≤ NDIRECT) (right : l ≤ NDIRECT)
    (same : addrSlot k = addrSlot l) : k = l := by
  have values := congrArg Fin.val same
  rw [addrSlot_val left, addrSlot_val right] at values
  exact values

theorem addrSlot_direct {k : Nat} (direct : k < NDIRECT) : addrSlot k ≠ indirectSlot := by
  intro same
  have equal := addrSlot_injective (by omega) (le_refl _) same
  omega

/-- `struct dinode`. -/
structure Dinode where
  type : UInt16
  major : UInt16
  minor : UInt16
  nlink : UInt16
  size : UInt32
  addrs : Addrs
deriving DecidableEq

/-- The dinode in slot `slot` of an inode block. -/
def Block.dinode (block : Block) (slot : Nat) : Dinode where
  type := block.u16 (dinodeSize * slot)
  major := block.u16 (dinodeSize * slot + 2)
  minor := block.u16 (dinodeSize * slot + 4)
  nlink := block.u16 (dinodeSize * slot + 6)
  size := block.u32 (dinodeSize * slot + 8)
  addrs i := block.u32 (dinodeSize * slot + 12 + 4 * i)

/-- The bytes of a dinode, in the order of its fields. -/
def Dinode.bytes (din : Dinode) : List UInt8 :=
  leBytes 2 din.type.toNat ++ leBytes 2 din.major.toNat ++
    leBytes 2 din.minor.toNat ++ leBytes 2 din.nlink.toNat ++
    leBytes 4 din.size.toNat ++
    (List.finRange (NDIRECT + 1)).flatMap fun i => leBytes 4 (din.addrs i).toNat

theorem Dinode.bytes_length (din : Dinode) : din.bytes.length = dinodeSize := by
  have width : ∀ i : Fin (NDIRECT + 1), (leBytes 4 (din.addrs i).toNat).length = 4 := by simp
  simp only [bytes, List.length_append, leBytes_length, List.length_flatMap, width,
    List.map_const', List.sum_replicate_nat, List.length_finRange, NDIRECT, dinodeSize]

/-- The bytes of the first `k` block numbers, the `k`-th, and the rest. -/
theorem addrs_bytes_split (addrs : Addrs) (k : Fin (NDIRECT + 1)) :
    ∃ front back : List UInt8, front.length = 4 * k ∧
      (List.finRange (NDIRECT + 1)).flatMap (fun i => leBytes 4 (addrs i).toNat) =
        front ++ leBytes 4 (addrs k).toNat ++ back := by
  have split : List.finRange (NDIRECT + 1) =
      (List.finRange (NDIRECT + 1)).take k ++ k :: (List.finRange (NDIRECT + 1)).drop (k + 1) := by
    have bound : k.val < (List.finRange (NDIRECT + 1)).length := by
      rw [List.length_finRange]
      exact k.isLt
    have at_k : (List.finRange (NDIRECT + 1)).get ⟨k.val, bound⟩ = k := by simp
    nth_rewrite 1 [← List.take_append_drop k.val (List.finRange (NDIRECT + 1))]
    rw [List.drop_eq_getElem_cons bound]
    congr 2
  refine ⟨((List.finRange (NDIRECT + 1)).take k).flatMap fun i => leBytes 4 (addrs i).toNat,
    ((List.finRange (NDIRECT + 1)).drop (k + 1)).flatMap fun i => leBytes 4 (addrs i).toNat,
    ?_, ?_⟩
  · have width : ∀ i : Fin (NDIRECT + 1), (leBytes 4 (addrs i).toNat).length = 4 := by simp
    have bound := k.isLt
    simp only [List.length_flatMap, width, List.map_const', List.sum_replicate_nat,
      List.length_take, List.length_finRange, Nat.min_eq_left (Nat.le_of_lt bound)]
    omega
  · conv_lhs => rw [split]
    simp

/-- A dinode stored in a slot is the dinode read from it. -/
theorem Block.dinode_put (block : Block) {slot : Nat} (din : Dinode) (bound : slot < IPB) :
    (block.put (dinodeSize * slot) din.bytes).dinode slot = din := by
  have read (offset width value : Nat) (front back : List UInt8)
      (parts : din.bytes = front ++ leBytes width value ++ back)
      (place : front.length = offset) (fits : offset + width ≤ dinodeSize) :
      leNat (block.put (dinodeSize * slot) din.bytes).byte (dinodeSize * slot + offset) width =
        value % 256 ^ width := by
    rw [← place, ← leNat_putBytes_field block.byte (dinodeSize * slot) width value parts]
    apply leNat_congr
    intro i lower upper
    apply byte_put
    simp only [dinodeSize, IPB, BSIZE] at *
    omega
  have short (value : UInt16) : UInt16.ofNat (value.toNat % 256 ^ 2) = value := by
    rw [Nat.mod_eq_of_lt (by simpa using value.toNat_lt)]
    simp
  have word (value : UInt32) : UInt32.ofNat (value.toNat % 256 ^ 4) = value := by
    rw [Nat.mod_eq_of_lt (by simpa using value.toNat_lt)]
    simp
  have field16 (offset : Nat) (value : UInt16) (front back : List UInt8)
      (parts : din.bytes = front ++ leBytes 2 value.toNat ++ back)
      (place : front.length = offset) (fits : offset + 2 ≤ dinodeSize) :
      (block.put (dinodeSize * slot) din.bytes).u16 (dinodeSize * slot + offset) = value := by
    rw [u16, read offset 2 value.toNat front back parts place fits, short]
  have field32 (offset : Nat) (value : UInt32) (front back : List UInt8)
      (parts : din.bytes = front ++ leBytes 4 value.toNat ++ back)
      (place : front.length = offset) (fits : offset + 4 ≤ dinodeSize) :
      (block.put (dinodeSize * slot) din.bytes).u32 (dinodeSize * slot + offset) = value := by
    rw [u32, read offset 4 value.toNat front back parts place fits, word]
  have entries (k : Fin (NDIRECT + 1)) :
      (block.put (dinodeSize * slot) din.bytes).u32 (dinodeSize * slot + 12 + 4 * k) =
        din.addrs k := by
    obtain ⟨front, back, place, parts⟩ := addrs_bytes_split din.addrs k
    rw [Nat.add_assoc]
    refine field32 _ _ (leBytes 2 din.type.toNat ++ leBytes 2 din.major.toNat ++
      leBytes 2 din.minor.toNat ++ leBytes 2 din.nlink.toNat ++ leBytes 4 din.size.toNat ++
      front) back ?_ ?_ ?_
    · rw [Dinode.bytes, parts]
      simp
    · simp only [List.length_append, leBytes_length, place]
    · have last := k.isLt
      simp only [NDIRECT, dinodeSize] at *
      omega
  cases din with
  | mk type major minor nlink size addrs =>
      simp only [dinode, Dinode.mk.injEq]
      refine ⟨?_, ?_, ?_, ?_, ?_, funext entries⟩
      · exact field16 0 type [] _ (by simp only [Dinode.bytes, List.append_assoc]; rfl) rfl
          (by decide)
      · exact field16 2 major (leBytes 2 type.toNat) _
          (by simp only [Dinode.bytes, List.append_assoc]; rfl) (by simp) (by decide)
      · exact field16 4 minor (leBytes 2 type.toNat ++ leBytes 2 major.toNat) _
          (by simp only [Dinode.bytes, List.append_assoc]; rfl) (by simp) (by decide)
      · exact field16 6 nlink (leBytes 2 type.toNat ++ leBytes 2 major.toNat ++
          leBytes 2 minor.toNat) _
          (by simp only [Dinode.bytes, List.append_assoc]; rfl) (by simp) (by decide)
      · exact field32 8 size (leBytes 2 type.toNat ++ leBytes 2 major.toNat ++
          leBytes 2 minor.toNat ++ leBytes 2 nlink.toNat) _
          (by simp only [Dinode.bytes, List.append_assoc]; rfl) (by simp) (by decide)

/-- Entry `i` of a block of block numbers. -/
def Block.entry (block : Block) (i : Nat) : UInt32 := block.u32 (4 * i)

theorem Block.entry_putU32 (block : Block) {k j : Nat} (value : UInt32) (bound : k < NINDIRECT) :
    (block.putU32 (4 * k) value).entry j = if j = k then value else block.entry j := by
  unfold entry
  split
  · rename_i same
    subst same
    apply u32_putU32
    simp only [NINDIRECT, BSIZE] at *
    omega
  · apply u32_put_apart
    rw [leBytes_length]
    omega

/-- The disk block of file block `k`, read off the block numbers: an entry of
`addrs`, or an entry of the indirect block. -/
def blockOf (disk : Nat → Block) (addrs : Addrs) (k : Nat) : Nat :=
  if k < NDIRECT then (addrs (addrSlot k)).toNat
  else ((disk (addrs indirectSlot).toNat).entry (k - NDIRECT)).toNat

/-- `struct dirent`, the `k`-th of a directory block. -/
def Block.direntInum (block : Block) (k : Nat) : UInt16 := block.u16 (direntSize * k)

def Block.direntName (block : Block) (k : Nat) : List UInt8 :=
  getBytes block.byte (direntSize * k + 2) DIRSIZ

end Gcgos.Fs
