import Gcgos.Fs.Geometry
import Gcgos.Mkfs.Image
import Mathlib.Data.Set.Defs

/-!
# Positions on a disk of any size

The macros of `include/fs.h` and the sector numbers of `mkfs` for every number
of inodes and every size that fit an `int`: an inode has a slot of its own
inside its block, a block has a bit of its own, both programs look in the same
places, and the superblock, the inode blocks, the bitmap and the blocks that
`mkfs` hands out do not meet.
-/

set_option autoImplicit false

namespace Gcgos.Mkfs

open Fs

/-- `ninodes / IPB + 3`, where `balloc` writes the bitmap. -/
def bitmapSector (ninodes : Nat) : Nat := ninodes / IPB + 3

/-- `freeblock` after the first lines of `main`: `bitblocks` is
`size / (512 * 8) + 1`. -/
def startFreeblock (ninodes size : Nat) : Nat := ninodes / IPB + 3 + (size / (512 * 8) + 1)

/-- The numbers that `main` is compiled with. -/
example : bitmapSector ninodes = 36 ∧ startFreeblock ninodes size = firstData := ⟨rfl, rfl⟩

/-- The parts of the disk behind the boot block. -/
inductive Part where
  | supperblock
  | inodes
  | bitmap
  | data
deriving DecidableEq

/-- The sectors that the kernel and `mkfs` use for a part. -/
def Part.sectors (sb : Supperblock) : Part → Set Nat
  | .supperblock => {1}
  | .inodes => {sector | ∃ inum < sb.ninodes.toNat, IBLOCK inum = sector}
  | .bitmap => {sector | ∃ b < sb.size.toNat, BBLOCK b sb.ninodes = sector}
  | .data => {sector | startFreeblock sb.ninodes.toNat sb.size.toNat ≤ sector}

/-- The first sector of a part. -/
def Part.start (sb : Supperblock) : Part → Nat
  | .supperblock => 1
  | .inodes => 2
  | .bitmap => bitmapSector sb.ninodes.toNat
  | .data => startFreeblock sb.ninodes.toNat sb.size.toNat

/-- Sector, byte and bit of block `b` in the bitmap. -/
def bitPosition (sb : Supperblock) (b : Nat) : Nat × Nat × Nat :=
  (BBLOCK b sb.ninodes, b % BPB / 8, b % BPB % 8)

/-- The positions of inodes and bits that belong to a superblock. -/
structure Consistent (sb : Supperblock) : Prop where
  inode_apart : ∀ n m, n < sb.ninodes.toNat → m < sb.ninodes.toNat →
    (IBLOCK n, n % IPB) = (IBLOCK m, m % IPB) → n = m
  inode_inside : ∀ n, n < sb.ninodes.toNat → dinodeSize * (n % IPB) + dinodeSize ≤ BSIZE
  inode_same : ∀ n, n < sb.ninodes.toNat → i2b n = IBLOCK n
  bitmap_same : bitmapSector sb.ninodes.toNat = BBLOCK 0 sb.ninodes
  bit_apart : ∀ b c, b < sb.size.toNat → c < sb.size.toNat →
    bitPosition sb b = bitPosition sb c → b = c
  bit_inside : ∀ b, b < sb.size.toNat → b % BPB / 8 < BSIZE
  parts : ∀ part other : Part, part ≠ other →
    ∀ sector ∈ part.sectors sb, sector ∉ other.sectors sb

section

variable {sb : Supperblock}

/-- Where the sectors of each part lie: behind its start, and in front of the
parts that start later. -/
theorem Part.within (size : sb.size.toNat < 2 ^ 31) (ninodes : sb.ninodes.toNat < 2 ^ 31)
    (part : Part) {sector : Nat} (member : sector ∈ part.sectors sb) :
    part.start sb ≤ sector ∧
      ∀ other : Part, part.start sb < other.start sb → sector < other.start sb := by
  have order : 2 < bitmapSector sb.ninodes.toNat ∧
      bitmapSector sb.ninodes.toNat < startFreeblock sb.ninodes.toNat sb.size.toNat := by
    unfold bitmapSector startFreeblock
    simp only [IPB]
    omega
  cases part with
  | supperblock =>
      obtain rfl : sector = 1 := member
      exact ⟨le_rfl, fun other later => later⟩
  | inodes =>
      obtain ⟨inum, bound, rfl⟩ := member
      have place := IBLOCK_bounds bound
      change _ ∧ _ < bitmapSector sb.ninodes.toNat at place
      refine ⟨place.1, fun other later => ?_⟩
      cases other <;> simp only [start] at * <;> omega
  | bitmap =>
      obtain ⟨b, bound, here⟩ := member
      rw [BBLOCK_of_int (bound.trans size) ninodes] at here
      have place : bitmapSector sb.ninodes.toNat ≤ sector ∧
          sector < startFreeblock sb.ninodes.toNat sb.size.toNat := by
        unfold bitmapSector startFreeblock
        simp only [BPB, BSIZE, IPB] at *
        omega
      refine ⟨place.1, fun other later => ?_⟩
      cases other <;> simp only [start] at * <;> omega
  | data =>
      have place : startFreeblock sb.ninodes.toNat sb.size.toNat ≤ sector := member
      refine ⟨place, fun other later => ?_⟩
      cases other <;> simp only [start] at * <;> omega

theorem Part.start_injective (sb : Supperblock) : Function.Injective (Part.start sb) := by
  intro part other same
  cases part <;> cases other <;> first
    | rfl
    | simp only [start, bitmapSector, startFreeblock, IPB] at same; omega

/-- The parts come one after the other. -/
theorem parts_disjoint (size : sb.size.toNat < 2 ^ 31) (ninodes : sb.ninodes.toNat < 2 ^ 31) :
    ∀ part other : Part, part ≠ other →
      ∀ sector ∈ part.sectors sb, sector ∉ other.sectors sb := by
  intro part other different sector member member'
  have first := part.within size ninodes member
  have second := other.within size ninodes member'
  rcases lt_trichotomy (part.start sb) (other.start sb) with before | same | behind
  · exact absurd (first.2 other before) (Nat.not_lt.mpr second.1)
  · exact different (Part.start_injective sb same)
  · exact absurd (second.2 part behind) (Nat.not_lt.mpr first.1)

/-- The layout is consistent for every geometry. -/
theorem layout_consistent (size : sb.size.toNat < 2 ^ 31) (ninodes : sb.ninodes.toNat < 2 ^ 31) :
    Consistent sb where
  inode_apart := by
    intro n m _ _ same
    obtain ⟨sector, slot⟩ := Prod.mk.inj same
    exact IBLOCK_injective sector slot
  inode_inside := by
    intro n _
    have slot : n % IPB < 3 := Nat.mod_lt _ (by decide)
    simp only [dinodeSize, BSIZE]
    omega
  inode_same := fun _ _ => rfl
  bitmap_same := by
    rw [BBLOCK_of_int (by decide) ninodes, Nat.zero_div, Nat.zero_add]
    rfl
  bit_apart := by
    intro b c below below' same
    obtain ⟨sector, place⟩ := Prod.mk.inj same
    obtain ⟨byte, bit⟩ := Prod.mk.inj place
    rw [BBLOCK_of_int (below.trans size) ninodes, BBLOCK_of_int (below'.trans size) ninodes] at sector
    simp only [BPB, BSIZE] at *
    omega
  bit_inside := by
    intro b _
    have bit : b % BPB < 4096 := Nat.mod_lt _ (by decide)
    simp only [BSIZE]
    omega
  parts := parts_disjoint size ninodes

end

/-- The geometry of the image that `mkfs` writes. -/
theorem layout_consistent_image : Consistent ⟨2048, 2011, 100⟩ :=
  layout_consistent (by decide) (by decide)

end Gcgos.Mkfs
