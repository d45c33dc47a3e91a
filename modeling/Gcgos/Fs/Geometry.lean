import Gcgos.Fs.Direct

/-!
# Where things are on the disk

The superblock, the inode blocks, the bitmap and the data area are disjoint
for every superblock whose numbers fit an `int` and whose metadata fits the
size. What `balloc` and `iupdate` write is followed through the views that
other code has of the same blocks.
-/

set_option autoImplicit false

namespace Gcgos.Fs

open ByteMap

namespace Block

theorem u16_putU16_apart {block : Block} {offset field : Nat} {value : UInt16}
    (apart : field + 2 ≤ offset ∨ offset + 2 ≤ field) :
    (block.putU16 offset value).u16 field = block.u16 field :=
  u16_put_apart (by simpa using apart)

theorem u16_putU32_apart {block : Block} {offset field : Nat} {value : UInt32}
    (apart : field + 2 ≤ offset ∨ offset + 4 ≤ field) :
    (block.putU32 offset value).u16 field = block.u16 field :=
  u16_put_apart (by simpa using apart)

theorem u32_putU16_apart {block : Block} {offset field : Nat} {value : UInt16}
    (apart : field + 4 ≤ offset ∨ offset + 2 ≤ field) :
    (block.putU16 offset value).u32 field = block.u32 field :=
  u32_put_apart (by simpa using apart)

theorem u32_putU32_apart {block : Block} {offset field : Nat} {value : UInt32}
    (apart : field + 4 ≤ offset ∨ offset + 4 ≤ field) :
    (block.putU32 offset value).u32 field = block.u32 field :=
  u32_put_apart (by simpa using apart)

/-- A dinode is its 140 bytes. -/
theorem dinode_congr {left right : Block} {slot : Nat}
    (same : ∀ i, dinodeSize * slot ≤ i → i < dinodeSize * slot + dinodeSize →
      left.byte i = right.byte i) :
    left.dinode slot = right.dinode slot := by
  have field (offset width : Nat) (inside : offset + width ≤ dinodeSize) :
      leNat left.byte (dinodeSize * slot + offset) width =
        leNat right.byte (dinodeSize * slot + offset) width := by
    apply leNat_congr
    intro i lower upper
    exact same i (by omega) (by omega)
  have entries : ∀ k : Fin (NDIRECT + 1),
      left.u32 (dinodeSize * slot + 12 + 4 * k) = right.u32 (dinodeSize * slot + 12 + 4 * k) := by
    intro k
    have bound := k.isLt
    simp only [u32, Nat.add_assoc]
    rw [field (12 + 4 * k) 4 (by simp only [NDIRECT, dinodeSize] at *; omega)]
  simp only [dinode, Dinode.mk.injEq]
  refine ⟨?_, ?_, ?_, ?_, ?_, funext entries⟩
  · simp only [u16]
    rw [← Nat.add_zero (dinodeSize * slot), field 0 2 (by decide)]
  · simp only [u16]
    rw [field 2 2 (by decide)]
  · simp only [u16]
    rw [field 4 2 (by decide)]
  · simp only [u16]
    rw [field 6 2 (by decide)]
  · simp only [u32]
    rw [field 8 4 (by decide)]

/-- `iupdate` stores into the first twelve bytes of its slot only. -/
theorem byte_updateDinode_outside {block : Block} {slot : Nat} {ip : Inode} {i : Nat}
    (outside : i < dinodeSize * slot ∨ dinodeSize * slot + 12 ≤ i) :
    (block.updateDinode slot ip).byte i = block.byte i := by
  simp only [updateDinode, putU16, putU32]
  repeat rw [byte_put_outside (by simp; omega)]

/-- What `iget` reads back after `iupdate`: the new head and the old block
numbers. -/
theorem dinode_updateDinode {block : Block} {slot : Nat} {ip : Inode} (bound : slot < IPB) :
    (block.updateDinode slot ip).dinode slot =
      { type := ip.type, major := ip.major, minor := ip.minor, nlink := ip.nlink,
        size := ip.size, addrs := (block.dinode slot).addrs } := by
  have fits : dinodeSize * slot + 12 ≤ BSIZE := by
    simp only [dinodeSize, IPB, BSIZE] at *
    omega
  have entries : ∀ k : Fin (NDIRECT + 1),
      (block.updateDinode slot ip).u32 (dinodeSize * slot + 12 + 4 * k) =
        block.u32 (dinodeSize * slot + 12 + 4 * k) := by
    intro k
    unfold u32
    congr 1
    apply leNat_congr
    intro i lower upper
    exact byte_updateDinode_outside (by omega)
  simp only [dinode, Dinode.mk.injEq]
  refine ⟨?_, ?_, ?_, ?_, ?_, funext entries⟩
  all_goals
    simp (disch := omega) only [updateDinode, u16_putU32_apart, u16_putU16_apart,
      u16_putU16, u32_putU32]

end Block

/-- The dinode of `inum` on the disk. -/
def dinodeAt (disk : Nat → Block) (inum : Nat) : Dinode :=
  (disk (IBLOCK inum)).dinode (inum % IPB)

/-- The first block behind the inode blocks: the bitmap starts here. -/
def inodeEnd (sb : Supperblock) : Nat := sb.ninodes.toNat / IPB + 3

/-- The first block behind the boot block, the superblock, the inodes and the
bitmap: `mkfs` starts to allocate here. -/
def dataStart (sb : Supperblock) : Nat :=
  inodeEnd sb + (sb.size.toNat / BPB + 1)

theorem three_le_inodeEnd (sb : Supperblock) : 3 ≤ inodeEnd sb := Nat.le_add_left 3 _

theorem inodeEnd_lt_dataStart (sb : Supperblock) : inodeEnd sb < dataStart sb :=
  Nat.lt_add_of_pos_right (Nat.succ_pos _)

/-- The numbers of a superblock are non-negative as `int`s, and the metadata
fits the size. -/
structure Geometry (sb : Supperblock) : Prop where
  size : sb.size.toNat < 2 ^ 31
  ninodes : sb.ninodes.toNat < 2 ^ 31
  fits : dataStart sb ≤ sb.size.toNat

/-- Where no `int` overflows, the macro is its formula. -/
theorem BBLOCK_of_int {b : Nat} {ninodes : UInt32} (block : b < 2 ^ 31)
    (inodes : ninodes.toNat < 2 ^ 31) : BBLOCK b ninodes = b / BPB + ninodes.toNat / IPB + 3 := by
  have signed : sext32 ninodes = ninodes.toNat := by
    unfold sext32
    rw [if_pos inodes]
  unfold BBLOCK
  rw [signed, Nat.mod_eq_of_lt]
  simp only [BPB, BSIZE, IPB]
  omega

namespace Geometry

variable {sb : Supperblock}

theorem intBound_size (geometry : Geometry sb) : intBound sb.size = sb.size.toNat := by
  unfold intBound
  rw [if_pos geometry.size]

theorem BBLOCK_eq (geometry : Geometry sb) {b : Nat} (bound : b < sb.size.toNat) :
    BBLOCK b sb.ninodes = b / BPB + sb.ninodes.toNat / IPB + 3 :=
  BBLOCK_of_int (bound.trans geometry.size) geometry.ninodes

/-- The bitmap lies between the inode blocks and the data area. -/
theorem BBLOCK_bounds (geometry : Geometry sb) {b : Nat} (bound : b < sb.size.toNat) :
    inodeEnd sb ≤ BBLOCK b sb.ninodes ∧ BBLOCK b sb.ninodes < dataStart sb := by
  rw [geometry.BBLOCK_eq bound]
  unfold dataStart inodeEnd
  simp only [BPB, BSIZE, IPB] at *
  omega

/-- Two blocks with the same bit are the same block. -/
theorem BBLOCK_injective (geometry : Geometry sb) {b c : Nat} (bBound : b < sb.size.toNat)
    (cBound : c < sb.size.toNat) (sector : BBLOCK b sb.ninodes = BBLOCK c sb.ninodes)
    (bit : b % BPB = c % BPB) : b = c := by
  rw [geometry.BBLOCK_eq bBound, geometry.BBLOCK_eq cBound] at sector
  have quotient : b / BPB = c / BPB := by omega
  rw [← Nat.div_add_mod b BPB, ← Nat.div_add_mod c BPB, quotient, bit]

end Geometry

theorem IBLOCK_bounds {sb : Supperblock} {inum : Nat} (bound : inum < sb.ninodes.toNat) :
    2 ≤ IBLOCK inum ∧ IBLOCK inum < inodeEnd sb := by
  unfold IBLOCK inodeEnd
  simp only [IPB]
  omega

theorem IBLOCK_injective {inum other : Nat} (sector : IBLOCK inum = IBLOCK other)
    (slot : inum % IPB = other % IPB) : inum = other := by
  have quotient : inum / IPB = other / IPB := by
    unfold IBLOCK at sector
    omega
  rw [← Nat.div_add_mod inum IPB, ← Nat.div_add_mod other IPB, quotient, slot]

/-- Marking a block adds that block to the marked ones. -/
theorem marked_mark {disk : Nat → Block} {sb : Supperblock} (geometry : Geometry sb)
    {b c : Nat} (bBound : b < sb.size.toNat) (cBound : c < sb.size.toNat) :
    marked (mark disk sb.ninodes b) sb.ninodes c =
      (decide (c = b) || marked disk sb.ninodes c) := by
  have bitBound : b % BPB < BPB := Nat.mod_lt _ (by decide)
  unfold marked mark
  by_cases sector : BBLOCK c sb.ninodes = BBLOCK b sb.ninodes
  · rw [sector, Function.update_self, Block.bit_setBit _ bitBound]
    have same : (c % BPB = b % BPB) ↔ c = b :=
      ⟨geometry.BBLOCK_injective cBound bBound sector, fun eq => by rw [eq]⟩
    simp only [same]
  · rw [Function.update_of_ne sector]
    have different : c ≠ b := fun eq => sector (by rw [eq])
    simp [different]

/-- `iupdate` leaves the dinodes of the other inodes as they are. -/
theorem dinodeAt_updateOnDisk_other {disk : Nat → Block} {ip : Inode} {inum : Nat}
    (different : inum ≠ ip.inum.toNat) :
    dinodeAt (updateOnDisk disk ip) inum = dinodeAt disk inum := by
  unfold dinodeAt updateOnDisk
  by_cases sector : IBLOCK inum = IBLOCK ip.inum.toNat
  · rw [sector, Function.update_self]
    have slots : inum % IPB ≠ ip.inum.toNat % IPB := fun slot =>
      different (IBLOCK_injective sector slot)
    apply Block.dinode_congr
    intro i lower upper
    apply Block.byte_updateDinode_outside
    simp only [dinodeSize] at *
    omega
  · rw [Function.update_of_ne sector]

theorem dinodeAt_updateOnDisk {disk : Nat → Block} {ip : Inode} :
    dinodeAt (updateOnDisk disk ip) ip.inum.toNat =
      { type := ip.type, major := ip.major, minor := ip.minor, nlink := ip.nlink,
        size := ip.size, addrs := (dinodeAt disk ip.inum.toNat).addrs } := by
  unfold dinodeAt updateOnDisk
  rw [Function.update_self]
  exact Block.dinode_updateDinode (Nat.mod_lt _ (by decide))

theorem updateOnDisk_other {disk : Nat → Block} {ip : Inode} {sector : Nat}
    (different : sector ≠ IBLOCK ip.inum.toNat) :
    updateOnDisk disk ip sector = disk sector :=
  Function.update_of_ne different _ _

def superOf (disk : Nat → Block) : Supperblock := (disk 1).supperblock

/-- A block that a file may be written to: the data area, and block 0, which
is what an entry without a block stands for. -/
def InData (sb : Supperblock) (blk : Nat) : Prop :=
  blk = 0 ∨ dataStart sb ≤ blk

/-- The bitmap marks everything in front of the data area. -/
structure Reserved (disk : Nat → Block) : Prop where
  geometry : Geometry (superOf disk)
  metadata : ∀ b, b < dataStart (superOf disk) →
    marked disk (superOf disk).ninodes b = true

namespace Reserved

variable {disk disk' : Nat → Block}

/-- The block `balloc` would take lies in the data area. -/
theorem firstFree_data (reserved : Reserved disk) {b : Nat} (found : firstFree disk = some b) :
    dataStart (superOf disk) ≤ b ∧ b < (superOf disk).size.toNat ∧
      marked disk (superOf disk).ninodes b = false := by
  obtain ⟨below, clear, -⟩ := firstFree_some found
  refine ⟨?_, ?_, clear⟩
  · by_contra low
    have set := reserved.metadata b (by omega)
    rw [superOf, clear] at set
    exact absurd set (by decide)
  · rw [← reserved.geometry.intBound_size]
    exact below

/-- The number of a block that `balloc` takes fits a word and is not zero. -/
theorem firstFree_word (reserved : Reserved disk) {b : Nat} (found : firstFree disk = some b) :
    (UInt32.ofNat b).toNat = b ∧ UInt32.ofNat b ≠ 0 := by
  obtain ⟨lower, upper, -⟩ := reserved.firstFree_data found
  have number : (UInt32.ofNat b).toNat = b :=
    UInt32.toNat_ofNat_of_lt' (lt_trans upper (lt_trans reserved.geometry.size (by decide)))
  refine ⟨number, ?_⟩
  intro zero
  rw [zero] at number
  have inodes := inodeEnd_lt_dataStart (superOf disk)
  simp at number
  omega

theorem of_agree (reserved : Reserved disk) (first : disk' 1 = disk 1)
    (bits : ∀ b, b < (superOf disk).size.toNat →
      marked disk (superOf disk).ninodes b = true →
        marked disk' (superOf disk).ninodes b = true) : Reserved disk' := by
  have super : superOf disk' = superOf disk := congrArg Block.supperblock first
  have fits := reserved.geometry.fits
  constructor
  · rw [super]
    exact reserved.geometry
  · intro b bound
    rw [super] at bound ⊢
    exact bits b (by omega) (reserved.metadata b bound)

theorem BBLOCK_ne_one (reserved : Reserved disk) {b : Nat}
    (bound : b < (superOf disk).size.toNat) : BBLOCK b (superOf disk).ninodes ≠ 1 := by
  have bitmap := (reserved.geometry.BBLOCK_bounds bound).1
  have inodes := three_le_inodeEnd (superOf disk)
  omega

/-- Taking a block changes the bitmap only. -/
theorem mark_low (reserved : Reserved disk) {b sector : Nat}
    (bound : b < (superOf disk).size.toNat) (low : sector < inodeEnd (superOf disk)) :
    mark disk (superOf disk).ninodes b sector = disk sector := by
  have bitmap := (reserved.geometry.BBLOCK_bounds bound).1
  exact Function.update_of_ne (by omega) _ _

theorem alloc (reserved : Reserved disk) {b : Nat} (bound : b < (superOf disk).size.toNat) :
    Reserved (mark disk (superOf disk).ninodes b) := by
  apply reserved.of_agree
  · exact Function.update_of_ne (Ne.symm (reserved.BBLOCK_ne_one bound)) _ _
  · intro c below set
    rw [marked_mark reserved.geometry bound below, set]
    simp

/-- A change of such a block leaves superblock and bitmap alone. -/
theorem dataBlock (reserved : Reserved disk) {blk : Nat} (data : InData (superOf disk) blk)
    (block : Block) : Reserved (Function.update disk blk block) := by
  have inodes := three_le_inodeEnd (superOf disk)
  have low := inodeEnd_lt_dataStart (superOf disk)
  unfold InData at data
  apply reserved.of_agree
  · exact Function.update_of_ne (by omega) _ _
  · intro b bound set
    have sector := reserved.geometry.BBLOCK_bounds bound
    unfold marked at set ⊢
    rw [Function.update_of_ne (by omega)]
    exact set

/-- So does a change of an inode block. -/
theorem inodeBlock (reserved : Reserved disk) {sector : Nat} (lower : 2 ≤ sector)
    (upper : sector < inodeEnd (superOf disk)) (block : Block) :
    Reserved (Function.update disk sector block) := by
  apply reserved.of_agree
  · exact Function.update_of_ne (by omega) _ _
  · intro b bound set
    have bitmap := (reserved.geometry.BBLOCK_bounds bound).1
    unfold marked at set ⊢
    rw [Function.update_of_ne (by omega)]
    exact set

end Reserved

end Gcgos.Fs
