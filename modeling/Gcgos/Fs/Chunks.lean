import Gcgos.Fs.Update
import Mathlib.Data.List.Find

/-!
# Cutting a write

A write to direct blocks goes block by block, but the pieces do not matter:
its loop does what one write of a single byte after the other would do. So a
string can be cut anywhere. The only other traces of a call are the size and
the dinode that `iupdate` stores at its end, and the next call stores over
these.
-/

set_option autoImplicit false

namespace Gcgos.Fs

open Act Bio ByteMap

/-- The bytes stored one at a time. -/
def directBytes : (off : Nat) → (src : List UInt8) → (Nat → Block) → Addrs →
    Option ((Nat → Block) × Addrs)
  | _, [], disk, addrs => some (disk, addrs)
  | off, byte :: rest, disk, addrs =>
      (directAlloc disk addrs (addrSlot (off / BSIZE))).bind fun next =>
        directBytes (off + 1) rest
          (directStore next.1 (next.2 (addrSlot (off / BSIZE))).toNat off [byte]) next.2

theorem directBytes_append (off : Nat) (left right : List UInt8) (disk : Nat → Block)
    (addrs : Addrs) :
    directBytes off (left ++ right) disk addrs =
      (directBytes off left disk addrs).bind fun next =>
        directBytes (off + left.length) right next.1 next.2 := by
  induction left generalizing off disk addrs with
  | nil => rfl
  | cons byte rest ih =>
      simp only [List.cons_append, directBytes, Option.bind_assoc, ih, List.length_cons]
      congr 1
      funext next
      rw [show off + (rest.length + 1) = off + 1 + rest.length by omega]

theorem directStore_nil (disk : Nat → Block) (blk off : Nat) :
    directStore disk blk off [] = disk := by
  have same : (disk blk).put (off % BSIZE) [] = disk blk := by
    apply Block.ext_byte
    intro i bound
    exact Block.byte_put_outside (by simp; omega)
  unfold directStore
  rw [same, Function.update_eq_self]

/-- A piece of a block, its first byte and then the others. -/
theorem directStore_cons (disk : Nat → Block) (blk : Nat) {off : Nat} (byte : UInt8)
    (rest : List UInt8) (inside : off % BSIZE + (rest.length + 1) ≤ BSIZE) (some : rest ≠ []) :
    directStore (directStore disk blk off [byte]) blk (off + 1) rest =
      directStore disk blk off (byte :: rest) := by
  have positive : 0 < rest.length := List.length_pos_iff.mpr some
  have place : (off + 1) % BSIZE = off % BSIZE + 1 := by
    simp only [BSIZE] at *
    omega
  unfold directStore
  rw [Function.update_idem, Function.update_self, place]
  congr 1
  apply Block.ext_byte
  intro i bound
  have first : ((disk blk).put (off % BSIZE) [byte]).byte i =
      putBytes (disk blk).byte (off % BSIZE) [byte] i := Block.byte_put _ _ _ bound
  rw [Block.byte_put _ _ _ bound, Block.byte_put _ _ _ bound, ← putBytes_cons]
  simp only [putBytes] at first ⊢
  rw [first]

/-- Once the entry of a block is there, the bytes of a piece are one store. -/
theorem directBytes_piece {off : Nat} (piece : List UInt8) (disk : Nat → Block) {addrs : Addrs}
    (used : addrs (addrSlot (off / BSIZE)) ≠ 0) (inside : off % BSIZE + piece.length ≤ BSIZE) :
    directBytes off piece disk addrs =
      some (directStore disk (addrs (addrSlot (off / BSIZE))).toNat off piece, addrs) := by
  induction piece generalizing off disk with
  | nil =>
      rw [directStore_nil]
      rfl
  | cons byte rest ih =>
      have alloc : directAlloc disk addrs (addrSlot (off / BSIZE)) = some (disk, addrs) :=
        if_neg used
      unfold directBytes
      rw [alloc, Option.bind_some]
      by_cases last : rest = []
      · subst last
        rfl
      · have positive : 0 < rest.length := List.length_pos_iff.mpr last
        rw [List.length_cons] at inside
        have block : (off + 1) / BSIZE = off / BSIZE := by
          simp only [BSIZE] at *
          omega
        have place : (off + 1) % BSIZE + rest.length ≤ BSIZE := by
          simp only [BSIZE] at *
          omega
        rw [ih _ (by rw [block]; exact used) place, block,
          directStore_cons disk _ byte rest inside last]

/-- The first piece as a whole. -/
theorem directBytes_first {off : Nat} {piece : List UInt8} {disk disk₁ : Nat → Block}
    {addrs addrs₁ : Addrs} (some_byte : piece ≠ [])
    (inside : off % BSIZE + piece.length ≤ BSIZE)
    (alloc : directAlloc disk addrs (addrSlot (off / BSIZE)) = some (disk₁, addrs₁))
    (used : addrs₁ (addrSlot (off / BSIZE)) ≠ 0) :
    directBytes off piece disk addrs =
      some (directStore disk₁ (addrs₁ (addrSlot (off / BSIZE))).toNat off piece, addrs₁) := by
  rw [← directBytes_piece piece disk₁ used inside]
  obtain ⟨byte, rest, rfl⟩ := List.exists_cons_of_ne_nil some_byte
  have again : directAlloc disk₁ addrs₁ (addrSlot (off / BSIZE)) = some (disk₁, addrs₁) :=
    if_neg used
  unfold directBytes
  rw [alloc, again]

/-- The loop of `writei` stores the bytes one at a time. -/
theorem directRun_bytes (fuel off : Nat) (src : List UInt8) {disk : Nat → Block} {addrs : Addrs}
    (file : DirectFile disk addrs) (enough : src.length ≤ fuel)
    (direct : off + src.length ≤ NDIRECT * BSIZE) :
    directRun fuel off src disk addrs = directBytes off src disk addrs := by
  induction fuel generalizing off src disk addrs with
  | zero =>
      have empty : src = [] := List.eq_nil_of_length_eq_zero (by omega)
      subst empty
      rfl
  | succ fuel ih =>
      unfold directRun
      by_cases empty : src = []
      · subst empty
        rfl
      · rw [if_neg empty]
        have positive : 0 < src.length := List.length_pos_iff.mpr empty
        have below : off % BSIZE < BSIZE := Nat.mod_lt _ (by decide)
        have low : off / BSIZE < NDIRECT := InDirect.block (Or.inr direct) empty
        cases alloc : directAlloc disk addrs (addrSlot (off / BSIZE)) with
        | none =>
            obtain ⟨byte, rest, rfl⟩ := List.exists_cons_of_ne_nil empty
            unfold directBytes
            rw [alloc]
            rfl
        | some next =>
            obtain ⟨disk₁, addrs₁⟩ := next
            have step := directAlloc_step file low alloc
            have first := firstPiece_filled (f := fun x => src.getD (x - off) 0) file empty direct
              (fun _ _ _ => rfl) alloc
            have length : (src.take (min (BSIZE - off % BSIZE) src.length)).length =
                min (BSIZE - off % BSIZE) src.length := by
              rw [List.length_take]
              omega
            have some_byte : src.take (min (BSIZE - off % BSIZE) src.length) ≠ [] := by
              rw [← List.length_pos_iff, length]
              omega
            rw [Option.bind_some, ih _ _ first.file (by rw [List.length_drop]; omega)
              (by rw [List.length_drop]; omega)]
            conv_rhs =>
              rw [← List.take_append_drop (min (BSIZE - off % BSIZE) src.length) src,
                directBytes_append,
                directBytes_first some_byte (by rw [length]; omega) alloc step.used,
                Option.bind_some, length]

/-- Two blocks that agree outside a run agree everywhere once it is stored. -/
theorem Block.byte_put_congr {block other : Block} {offset i : Nat} {run : List UInt8}
    (bound : i < BSIZE)
    (same : ¬(offset ≤ i ∧ i < offset + run.length) → block.byte i = other.byte i) :
    (block.put offset run).byte i = (other.put offset run).byte i := by
  rw [byte_put _ _ _ bound, byte_put _ _ _ bound]
  by_cases inside : offset ≤ i ∧ i < offset + run.length
  · rw [putBytes_inside inside.1 inside.2, putBytes_inside inside.1 inside.2]
  · rw [putBytes_outside (by omega), putBytes_outside (by omega), same inside]

/-- The bytes that `iupdate` stores do not depend on the block. -/
theorem Block.byte_updateDinode_inside (block other : Block) {slot i : Nat} (ip : Inode)
    (bound : i < BSIZE) (lower : dinodeSize * slot ≤ i) (upper : i < dinodeSize * slot + 12) :
    (block.updateDinode slot ip).byte i = (other.updateDinode slot ip).byte i := by
  refine byte_put_congr bound fun noSize => ?_
  refine byte_put_congr bound fun noNlink => ?_
  refine byte_put_congr bound fun noMinor => ?_
  refine byte_put_congr bound fun noMajor => ?_
  refine byte_put_congr bound fun noType => ?_
  simp only [leBytes_length] at noSize noNlink noMinor noMajor noType
  omega

/-- The later of two updates of one dinode counts. -/
theorem updateOnDisk_again (disk : Nat → Block) {first last : Inode}
    (same : first.inum = last.inum) :
    updateOnDisk (updateOnDisk disk first) last = updateOnDisk disk last := by
  unfold updateOnDisk
  rw [same, Function.update_idem, Function.update_self]
  congr 1
  apply Block.ext_byte
  intro i bound
  by_cases inside : dinodeSize * (last.inum.toNat % IPB) ≤ i ∧
      i < dinodeSize * (last.inum.toNat % IPB) + 12
  · exact Block.byte_updateDinode_inside _ _ _ bound inside.1 inside.2
  · rw [Block.byte_updateDinode_outside (by omega), Block.byte_updateDinode_outside (by omega),
      Block.byte_updateDinode_outside (by omega)]

/-- A store to another sector and `iupdate` commute. -/
theorem updateOnDisk_update (disk : Nat → Block) (ip : Inode) {sector : Nat} (block : Block)
    (other : sector ≠ IBLOCK ip.inum.toNat) :
    updateOnDisk (Function.update disk sector block) ip =
      Function.update (updateOnDisk disk ip) sector block := by
  unfold updateOnDisk
  rw [Function.update_of_ne (Ne.symm other), Function.update_comm (Ne.symm other)]

section

variable {disk : Nat → Block} {addrs : Addrs} {ip : Inode}

/-- The dinode lies in an inode block. -/
def DinodeInArea (disk : Nat → Block) (ip : Inode) : Prop :=
  ip.inum.toNat < (superOf disk).ninodes.toNat

theorem DinodeInArea.super (inArea : DinodeInArea disk ip) : superOf (updateOnDisk disk ip) = superOf disk := by
  have sector := IBLOCK_bounds inArea
  exact congrArg Block.supperblock (updateOnDisk_other (by omega))

theorem DinodeInArea.marked (inArea : DinodeInArea disk ip) (geometry : Geometry (superOf disk)) {b : Nat}
    (bound : b < (superOf disk).size.toNat) :
    marked (updateOnDisk disk ip) (superOf disk).ninodes b =
      marked disk (superOf disk).ninodes b := by
  have sector := IBLOCK_bounds inArea
  have bitmap := geometry.BBLOCK_bounds bound
  unfold Fs.marked
  rw [updateOnDisk_other (by omega)]

theorem DinodeInArea.firstFree (inArea : DinodeInArea disk ip) (geometry : Geometry (superOf disk)) :
    firstFree (updateOnDisk disk ip) = firstFree disk := by
  have super : (updateOnDisk disk ip 1).supperblock = (disk 1).supperblock := inArea.super
  unfold Fs.firstFree
  rw [super]
  apply List.find?_congr
  intro b below
  have bound : b < (superOf disk).size.toNat := by
    rw [← geometry.intBound_size]
    exact List.mem_range.mp below
  rw [← superOf, inArea.marked geometry bound]

/-- `iupdate` changes nothing that the blocks of a file depend on. -/
theorem DinodeInArea.file (inArea : DinodeInArea disk ip) (file : DirectFile disk addrs) :
    DirectFile (updateOnDisk disk ip) addrs := by
  have sector := IBLOCK_bounds inArea
  refine ⟨file.toReserved.inodeBlock sector.1 sector.2 _, ?_, file.distinct⟩
  intro k bound used
  obtain ⟨lower, upper, set⟩ := file.data k bound used
  rw [inArea.super, inArea.marked file.geometry upper]
  exact ⟨lower, upper, set⟩

theorem directAlloc_updateOnDisk (inArea : DinodeInArea disk ip) (file : DirectFile disk addrs)
    (k : Fin (NDIRECT + 1)) :
    directAlloc (updateOnDisk disk ip) addrs k =
      (directAlloc disk addrs k).map fun next => (updateOnDisk next.1 ip, next.2) := by
  unfold directAlloc
  by_cases empty : addrs k = 0
  · rw [if_pos empty, if_pos empty, inArea.firstFree file.geometry]
    cases found : firstFree disk with
    | none => rfl
    | some b =>
        have upper := (file.toReserved.firstFree_data found).2.1
        have sector := IBLOCK_bounds inArea
        have bitmap := file.geometry.BBLOCK_bounds upper
        have super : (updateOnDisk disk ip 1).supperblock = (disk 1).supperblock := inArea.super
        have same : mark (updateOnDisk disk ip) (superOf disk).ninodes b =
            updateOnDisk (mark disk (superOf disk).ninodes b) ip := by
          unfold mark
          rw [updateOnDisk_update _ _ _ (by omega), updateOnDisk_other (by omega)]
        simp only [Option.map_some, super]
        rw [← superOf, same]
  · rw [if_neg empty, if_neg empty]
    rfl

theorem directStore_updateOnDisk {blk : Nat} (off : Nat) (piece : List UInt8)
    (other : blk ≠ IBLOCK ip.inum.toNat) :
    directStore (updateOnDisk disk ip) blk off piece =
      updateOnDisk (directStore disk blk off piece) ip := by
  unfold directStore
  rw [updateOnDisk_update _ _ _ other, updateOnDisk_other other]

/-- What is stored in the dinode makes no difference to the loop. -/
theorem directBytes_updateOnDisk (off : Nat) (src : List UInt8) (inArea : DinodeInArea disk ip)
    (file : DirectFile disk addrs) (direct : off + src.length ≤ NDIRECT * BSIZE) :
    directBytes off src (updateOnDisk disk ip) addrs =
      (directBytes off src disk addrs).map fun next => (updateOnDisk next.1 ip, next.2) := by
  induction src generalizing off disk addrs with
  | nil => rfl
  | cons byte rest ih =>
      unfold directBytes
      rw [List.length_cons] at direct
      have low : off / BSIZE < NDIRECT := by
        simp only [NDIRECT, BSIZE] at direct ⊢
        omega
      rw [directAlloc_updateOnDisk inArea file]
      cases alloc : directAlloc disk addrs (addrSlot (off / BSIZE)) with
      | none => rfl
      | some next =>
          obtain ⟨disk₁, addrs₁⟩ := next
          have step := directAlloc_step file low alloc
          have filled := piece_filled (f := fun _ => byte) [byte] step low (by simp)
            (Nat.succ_le_of_lt (Nat.mod_lt off (by decide)))
            (by
              intro x lower upper
              rw [show x - off = 0 by rw [List.length_singleton] at upper; omega]
              rfl)
          have area₁ : DinodeInArea (directStore disk₁ (addrs₁ (addrSlot (off / BSIZE))).toNat off
              [byte]) ip := by
            unfold DinodeInArea
            rw [filled.super]
            exact inArea
          have sector := IBLOCK_bounds inArea
          have behind := inodeEnd_lt_dataStart (superOf disk)
          have data := (filled.file.data _ low step.used).1
          rw [filled.super] at data
          simp only [Option.map_some, Option.bind_some]
          rw [directStore_updateOnDisk off [byte] (by omega), ih _ area₁ filled.file (by omega)]

/-- Two growths in a row are one. -/
theorem writeiGrow_twice (ip : Inode) (addrs₁ addrs₂ : Addrs) (off n m : Nat)
    (small : off + n + m < 2 ^ 32) :
    writeiGrow m (off + n + m)
        { writeiGrow n (off + n) { ip with addrs := addrs₁ } with addrs := addrs₂ } =
      writeiGrow (n + m) (off + (n + m)) { ip with addrs := addrs₂ } := by
  have sum : (UInt32.ofNat (off + n)).toNat = off + n :=
    UInt32.toNat_ofNat_of_lt' (lt_of_le_of_lt (Nat.le_add_right _ m) small)
  rw [← Nat.add_assoc]
  unfold writeiGrow
  by_cases first : 0 < n ∧ ip.size.toNat < off + n
  · rw [if_pos first]
    simp only
    rw [sum, if_pos (show 0 < n + m ∧ ip.size.toNat < off + n + m by omega)]
    by_cases none : m = 0
    · subst none
      rw [if_neg (by omega), Nat.add_zero]
    · rw [if_pos (by omega)]
  · rw [if_neg first]
    simp only
    by_cases second : 0 < m ∧ ip.size.toNat < off + n + m
    · rw [if_pos second, if_pos (by omega)]
    · rw [if_neg second, if_neg (by omega)]

/-- A call with two strings in a row is two calls. -/
theorem directWrite_append (off : Nat) (left right : List UInt8) (inArea : DinodeInArea disk ip)
    (file : DirectFile disk ip.addrs)
    (direct : off + (left ++ right).length ≤ NDIRECT * BSIZE) :
    directWrite disk ip (left ++ right) off =
      (directWrite disk ip left off).bind fun next =>
        directWrite next.1 next.2 right (off + left.length) := by
  rw [List.length_append] at direct
  have small : off + left.length + right.length < 2 ^ 32 := by
    simp only [NDIRECT, BSIZE] at direct
    omega
  unfold directWrite
  rw [directRun_bytes _ off (left ++ right) file le_rfl (by rw [List.length_append]; omega),
    directRun_bytes _ off left file le_rfl (by omega), directBytes_append]
  cases first : directBytes off left disk ip.addrs with
  | none => rfl
  | some next =>
      obtain ⟨disk₁, addrs₁⟩ := next
      rw [← directRun_bytes _ off left file le_rfl (by omega)] at first
      have filled := directRun_filled (f := fun x => left.getD (x - off) 0) left.length off left
        file le_rfl (by omega) (fun _ _ _ => rfl) first
      have area : ∀ ip', ip'.inum = ip.inum → DinodeInArea disk₁ ip' := by
        intro ip' same
        unfold DinodeInArea
        rw [same, filled.super]
        exact inArea
      have grown := area (writeiGrow left.length (off + left.length) { ip with addrs := addrs₁ })
        (writeiGrow_inum _ _ _)
      simp only [Option.bind_some, Option.map_some, writeiGrow_addrs]
      rw [directRun_bytes _ _ right (grown.file filled.file) le_rfl (by omega),
        directBytes_updateOnDisk _ right grown filled.file (by omega)]
      cases directBytes (off + left.length) right disk₁ addrs₁ with
      | none => rfl
      | some last =>
          simp only [Option.map_some, List.length_append]
          rw [writeiGrow_twice ip addrs₁ last.2 off _ _ small, updateOnDisk_again]
          simp only [writeiGrow_inum]

/-- After a call the next one can be made. -/
theorem directWrite_file {off : Nat} {src : List UInt8} {disk' : Nat → Block} {ip' : Inode}
    (inArea : DinodeInArea disk ip) (file : DirectFile disk ip.addrs)
    (direct : off + src.length ≤ NDIRECT * BSIZE)
    (run : directWrite disk ip src off = some (disk', ip')) :
    DinodeInArea disk' ip' ∧ DirectFile disk' ip'.addrs ∧ ip'.type = ip.type := by
  unfold directWrite at run
  obtain ⟨⟨disk₁, addrs₁⟩, loop, same⟩ := Option.map_eq_some_iff.mp run
  have filled := directRun_filled (f := fun x => src.getD (x - off) 0) src.length off src file
    le_rfl direct (fun _ _ _ => rfl) loop
  cases same
  have area : DinodeInArea disk₁ (writeiGrow src.length (off + src.length) { ip with addrs := addrs₁ }) := by
    unfold DinodeInArea
    rw [writeiGrow_inum, filled.super]
    exact inArea
  refine ⟨?_, ?_, ?_⟩
  · unfold DinodeInArea
    rw [area.super]
    exact area
  · rw [writeiGrow_addrs]
    exact area.file filled.file
  · unfold writeiGrow
    split <;> rfl

end

end Gcgos.Fs
