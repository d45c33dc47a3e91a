import Gcgos.Fs.Delivery
import Gcgos.Fs.Isolation
import Gcgos.Fs.Orderly
import Gcgos.Fs.Update
import Gcgos.Lib.Simulation
import Mathlib.Order.Interval.Finset.Nat

/-!
# A file is a string of bytes

What `readi` and `writei` are for: the file in a slot of the inode table is a
string, a read within a block returns a stretch of it and changes nothing, and
a write puts its bytes in place of what was there. No other file is touched,
and the blocks that a write takes from the disk are those by which the string
has grown.
-/

set_option autoImplicit false

namespace Gcgos.Fs

open Act Bio ByteMap

/-- How many blocks a file of this size has. -/
def blocksOf (size : Nat) : Nat := (size + BSIZE - 1) / BSIZE

/-- The string with `src` in place of what it has from `off` on. -/
def overwrite (bytes : List UInt8) (off : Nat) (src : List UInt8) : List UInt8 :=
  bytes.take off ++ src ++ bytes.drop (off + src.length)

theorem overwrite_length {bytes : List UInt8} {off : Nat} (inside : off ≤ bytes.length)
    (src : List UInt8) : (overwrite bytes off src).length = max bytes.length (off + src.length) := by
  simp only [overwrite, List.length_append, List.length_take, List.length_drop]
  omega

theorem overwrite_getD {bytes : List UInt8} {off : Nat} (inside : off ≤ bytes.length)
    (src : List UInt8) (x : Nat) : (overwrite bytes off src).getD x 0 =
      if off ≤ x ∧ x < off + src.length then src.getD (x - off) 0 else bytes.getD x 0 := by
  have front : (bytes.take off).length = off := by
    rw [List.length_take, Nat.min_eq_left inside]
  unfold overwrite
  by_cases before : x < off
  · rw [if_neg (by omega), List.append_assoc, List.getD_append _ _ _ _ (by rw [front]; exact before)]
    simp only [List.getD_eq_getElem?_getD, List.getElem?_take, if_pos before]
  · by_cases within : x < off + src.length
    · rw [if_pos ⟨by omega, within⟩, List.append_assoc,
        List.getD_append_right _ _ _ _ (by rw [front]; omega), front,
        List.getD_append _ _ _ _ (by omega)]
    · have both : (bytes.take off ++ src).length = off + src.length := by
        rw [List.length_append, front]
      rw [if_neg (by omega), List.getD_append_right _ _ _ _ (by rw [both]; omega), both]
      simp only [List.getD_eq_getElem?_getD, List.getElem?_drop]
      rw [Nat.add_sub_cancel' (by omega : off + src.length ≤ x)]

/-- The file of this inode is this string. Its blocks are direct and no two of
them are the same. -/
structure FileShown (disk : Nat → Block) (ip : Inode) (bytes : List UInt8) : Prop where
  kind : ip.type = T_FILE
  size : ip.size.toNat = bytes.length
  small : bytes.length ≤ NDIRECT * BSIZE
  mapped : ∀ k, k < NDIRECT → (ip.addrs (addrSlot k) ≠ 0 ↔ k < blocksOf bytes.length)
  distinct : ∀ k l, k < NDIRECT → l < NDIRECT → ip.addrs (addrSlot k) ≠ 0 →
    ip.addrs (addrSlot k) = ip.addrs (addrSlot l) → k = l
  noAlias : NoAlias ip.addrs
  reads : ∀ x, x < bytes.length → fileByte disk ip x = bytes.getD x 0

section

variable {disk disk' : Nat → Block} {ip ip' : Inode} {bytes : List UInt8}

/-- The block with a byte of the file. -/
theorem FileShown.block (shown : FileShown disk ip bytes) {x : Nat} (inside : x < bytes.length) :
    x / 512 < NDIRECT ∧ ip.addrs (addrSlot (x / 512)) ≠ 0 := by
  have direct : x / 512 < NDIRECT := by
    have small := shown.small
    simp only [NDIRECT, BSIZE] at small ⊢
    omega
  refine ⟨direct, (shown.mapped _ direct).mpr ?_⟩
  unfold blocksOf
  simp only [BSIZE]
  omega

/-- A file whose inode and whose blocks are as before. -/
theorem FileShown.frame (shown : FileShown disk ip bytes) (type : ip'.type = ip.type)
    (size : ip'.size = ip.size) (addrs : ip'.addrs = ip.addrs)
    (blocks : ∀ k, ip.addrs k ≠ 0 → disk' (ip.addrs k).toNat = disk (ip.addrs k).toNat) :
    FileShown disk' ip' bytes := by
  constructor
  case reads =>
    intro x inside
    rw [← shown.reads x inside]
    unfold fileByte
    rw [addrs, blocks _ (shown.block inside).2]
  case kind => rw [type]; exact shown.kind
  case size => rw [size]; exact shown.size
  case small => exact shown.small
  case mapped => rw [addrs]; exact shown.mapped
  case distinct => rw [addrs]; exact shown.distinct
  case noAlias => rw [addrs]; exact shown.noAlias

/-- The entries behind the end of a file are empty. -/
theorem FileShown.unmapped (shown : FileShown disk ip bytes) {k : Nat} (direct : k < NDIRECT)
    (behind : blocksOf bytes.length ≤ k) : ip.addrs (addrSlot k) = 0 := by
  by_contra used
  have below := (shown.mapped k direct).mp used
  omega

end

section

variable {s t : State} {i : Fin NINODE} {bytes src : List UInt8} {off : Nat}

/-- The blocks of a resident file are those its owner is known to have. -/
theorem Isolated.refers (isolated : Isolated s) (held : 0 < (s.inode i).count)
    (kind : (s.inode i).type = T_FILE) {k : Fin (NDIRECT + 1)} (used : (s.inode i).addrs k ≠ 0) :
    (ownersOf s).live (s.inode i).inum.toNat ∧
      Refers s.disk (addrsOf s (s.inode i).inum.toNat) ((s.inode i).addrs k).toNat := by
  have resident := isolated.residentSlot_eq held
  have own : addrsOf s (s.inode i).inum.toNat = (s.inode i).addrs := by
    simp [addrsOf, resident]
  refine ⟨⟨isolated.inArea i held, ?_⟩, ?_⟩
  · simp only [typeOf, resident, kind]
    decide
  · rw [own]
    exact refers_entry used

theorem FileShown.file (shown : FileShown s.disk (s.inode i) bytes) (isolated : Isolated s)
    (held : 0 < (s.inode i).count) : DirectFile s.disk (s.inode i).addrs := by
  refine ⟨isolated.sound.toReserved, ?_, shown.distinct⟩
  intro k _ used
  obtain ⟨live, refers⟩ := isolated.refers held shown.kind used
  exact isolated.sound.data _ _ live refers

/-- The entries a write has to fill are those by which the string grows. -/
theorem FileShown.missing_card (shown : FileShown s.disk (s.inode i) bytes)
    (inside : off ≤ bytes.length) (src : List UInt8) :
    (missing off (off + src.length) (s.inode i).addrs).card ≤
      blocksOf (overwrite bytes off src).length - blocksOf bytes.length := by
  rw [← Nat.card_Ico]
  apply Finset.card_le_card
  intro k member
  obtain ⟨bound, ⟨x, lower, upper, block⟩, zero⟩ := Finset.mem_filter.mp member
  have behind : ¬k < blocksOf bytes.length := by
    intro below
    exact (shown.mapped k (Finset.mem_range.mp bound)).mpr below zero
  rw [Finset.mem_Ico, overwrite_length inside]
  unfold blocksOf at behind ⊢
  simp only [BSIZE] at *
  omega

/-- The file that was written. -/
theorem FileShown.written (shown : FileShown s.disk (s.inode i) bytes) (isolated : Isolated s)
    (held : 0 < (s.inode i).count) (inside : off ≤ bytes.length)
    (direct : off + src.length ≤ NDIRECT * BSIZE) (wrote : BytesWritten s t i off src)
    (kind : (t.inode i).type = T_FILE) :
    FileShown t.disk (t.inode i) (overwrite bytes off src) := by
  have small := shown.small
  have length : (overwrite bytes off src).length = max bytes.length (off + src.length) :=
    overwrite_length inside src
  constructor
  case kind => exact kind
  case size =>
    rw [wrote.size, shown.size, length]
    split
    · rename_i empty
      rw [empty, List.length_nil]
      omega
    · rfl
  case small =>
    rw [length]
    omega
  case mapped =>
    intro k bound
    by_cases old : (s.inode i).addrs (addrSlot k) = 0
    · have behind : ¬k < blocksOf bytes.length := fun below =>
        (shown.mapped k bound).mpr below old
      have nonempty : src ≠ [] ↔ 0 < src.length := List.length_pos_iff.symm
      rw [wrote.filled k bound old, length, nonempty]
      unfold blocksOf at behind ⊢
      simp only [BSIZE] at *
      omega
    · have below := (shown.mapped k bound).mp old
      rw [wrote.entries _ old, length]
      refine iff_of_true old ?_
      unfold blocksOf at below ⊢
      simp only [BSIZE] at *
      omega
  case distinct => exact wrote.distinct
  case noAlias =>
    intro k different used same
    have table : (t.inode i).addrs indirectSlot = (s.inode i).addrs indirectSlot := wrote.indirect
    have last := k.isLt
    have low : k.val < NDIRECT := by
      have other : k.val ≠ NDIRECT := fun value => different (Fin.ext value)
      omega
    have slot : addrSlot k.val = k := Fin.ext (addrSlot_val low.le)
    by_cases old : (s.inode i).addrs k = 0
    · -- A new block was free, and the indirect block was not.
      have free := wrote.free k.val low (by rw [slot]; exact old) (by rw [slot]; exact used)
      rw [slot, same, table] at free
      rw [same, table] at used
      obtain ⟨live, refers⟩ := isolated.refers held shown.kind used
      rw [(isolated.sound.data _ _ live refers).2.2] at free
      cases free
    · rw [wrote.entries k old, table] at same
      exact shown.noAlias k different old same
  case reads =>
    intro x below
    rw [length] at below
    rw [overwrite_getD inside]
    split
    · rename_i within
      exact wrote.written x within.1 within.2
    · rename_i outside
      have old : x < bytes.length := by omega
      have bound : x / 512 < NDIRECT := by
        simp only [NDIRECT, BSIZE] at small ⊢
        omega
      have used := (shown.mapped (x / 512) bound).mpr (by
        unfold blocksOf
        simp only [BSIZE]
        omega)
      rw [← shown.reads x old]
      unfold fileByte
      rw [wrote.entries _ used]
      refine wrote.kept _ bound used _ (Nat.mod_lt _ (by decide)) ?_
      simp only [BSIZE]
      omega

/-- The free blocks that a write leaves. -/
theorem FileShown.free_card (shown : FileShown s.disk (s.inode i) bytes) (inside : off ≤ bytes.length)
    (wrote : BytesWritten s t i off src) (super : superOf t.disk = superOf s.disk) :
    (freeBlocks s.disk).card ≤ (freeBlocks t.disk).card +
      (blocksOf (overwrite bytes off src).length - blocksOf bytes.length) := by
  have covered : freeBlocks s.disk ⊆ freeBlocks t.disk ∪
      (missing off (off + src.length) (s.inode i).addrs).image
        fun k => ((t.inode i).addrs (addrSlot k)).toNat := by
    intro b member
    obtain ⟨bound, clear⟩ := Finset.mem_filter.mp member
    have within := Finset.mem_range.mp bound
    rw [Finset.mem_union]
    by_cases set : marked t.disk (superOf s.disk).ninodes b = true
    · right
      obtain ⟨k, direct, zero, nonzero, number⟩ := ((wrote.bits b within).mp set).resolve_left
        (by rw [clear]; decide)
      have range := (wrote.filled k direct zero).mp nonzero
      refine Finset.mem_image.mpr ⟨k, Finset.mem_filter.mpr
        ⟨Finset.mem_range.mpr direct, ?_, zero⟩, number⟩
      rw [inRange_iff]
      exact ⟨by have := List.length_pos_iff.mpr range.1; omega, range.2⟩
    · left
      unfold freeBlocks
      rw [super]
      exact Finset.mem_filter.mpr ⟨bound, by simpa using set⟩
  have union := (Finset.card_le_card covered).trans (Finset.card_union_le _ _)
  have image := Finset.card_image_le (s := missing off (off + src.length) (s.inode i).addrs)
    (f := fun k => ((t.inode i).addrs (addrSlot k)).toNat)
  have new := shown.missing_card inside src
  omega

/-- What a write does to the file it writes, to the others and to the disk. -/
structure FileStored (s t : State) (i : Fin NINODE) (bytes : List UInt8) (off : Nat)
    (src : List UInt8) : Prop where
  isolated : Isolated t
  file : FileShown t.disk (t.inode i) (overwrite bytes off src)
  touches : OnlyTouches s t i
  effect : WriteEffect s t i (Touched off src)
  busy : (t.inode i).busy = (s.inode i).busy
  room : (freeBlocks s.disk).card ≤ (freeBlocks t.disk).card +
    (blocksOf (overwrite bytes off src).length - blocksOf bytes.length)
  kept : blocksOf (overwrite bytes off src).length = blocksOf bytes.length →
    (t.inode i).addrs = (s.inode i).addrs

/-- A write that gives a file no new block leaves its block numbers. -/
theorem BytesWritten.same_addrs (wrote : BytesWritten s t i off src) {other : List UInt8}
    (before : FileShown s.disk (s.inode i) bytes) (after : FileShown t.disk (t.inode i) other)
    (same : blocksOf other.length = blocksOf bytes.length) :
    (t.inode i).addrs = (s.inode i).addrs := by
  funext k
  by_cases used : (s.inode i).addrs k = 0
  · by_cases table : k = indirectSlot
    · rw [table]
      exact wrote.indirect
    · have low : k.val < NDIRECT := by
        have last := k.isLt
        have different : k.val ≠ NDIRECT := fun value => table (Fin.ext value)
        omega
      have slot : addrSlot k.val = k := Fin.ext (addrSlot_val low.le)
      have behind : blocksOf bytes.length ≤ k.val := by
        by_contra below
        have mapped := (before.mapped k.val low).mpr (by omega)
        rw [slot] at mapped
        exact mapped used
      have zero := after.unmapped low (by omega)
      rw [slot] at zero
      rw [used, zero]
  · exact wrote.entries k used

theorem writei_stores (shown : FileShown s.disk (s.inode i) bytes) (isolated : Isolated s)
    (orderly : Orderly s) (held : 0 < (s.inode i).count) (inside : off ≤ bytes.length)
    (direct : off + src.length ≤ NDIRECT * BSIZE)
    (enough : blocksOf (overwrite bytes off src).length - blocksOf bytes.length ≤
      (freeBlocks s.disk).card) :
    Yields (writei i src off) s fun r t => r = src.length ∧ FileStored s t i bytes off src := by
  have ready := orderly.ready
  have file := shown.file isolated held
  have blocks := (shown.missing_card inside src).trans enough
  obtain ⟨disk', addrs', run⟩ := directRun_some src.length off src file le_rfl direct blocks
  have write := congrArg (Option.map fun next : (Nat → Block) × Addrs =>
    let ip := writeiGrow src.length (off + src.length) { s.inode i with addrs := next.2 }
    (updateOnDisk next.1 ip, ip)) run
  have updates := (writei_updates_bytes i off src ready shown.kind (isolated.inArea i held)
    file direct blocks).ensures
  have effects := writei_effect i src off orderly held shown.kind (Or.inr direct)
  refine (((writei_direct_yields i src off shown.kind ready (Or.inr direct) write).both
    updates).both effects).mono ?_
  rintro r t ⟨⟨⟨rfl, wrote⟩, -, bytesWritten⟩, effect⟩
  obtain ⟨kept, touches⟩ := directWrite_isolated isolated held shown.kind (Or.inr direct)
    shown.noAlias write wrote
  have slot : t.inode i = _ := wrote.at_slot
  have final := shown.written isolated held inside direct bytesWritten
    (effect.type.trans shown.kind)
  refine ⟨rfl, kept, final, touches, effect, ?_, ?_, ?_⟩
  · rw [slot, directWrite_fields write]
  · exact shown.free_card inside bytesWritten (congrArg Block.supperblock touches.superblock)
  · exact bytesWritten.same_addrs shown final

/-- The stretch of a string that a read of `n` bytes returns. -/
def stretch (bytes : List UInt8) (off n : Nat) : List UInt8 := (bytes.drop off).take n

theorem stretch_length (bytes : List UInt8) (off n : Nat) :
    (stretch bytes off n).length = available bytes.length off n := by
  simp only [stretch, available, List.length_take, List.length_drop]

/-- What a read within a block of the file returns. -/
theorem readi_stretch (shown : FileShown s.disk (s.inode i) bytes) (ready : s.bio.Ready 1) {n : Nat}
    (inside : off % 512 + available bytes.length off n ≤ 512) :
    Yields (readi i off n) s fun result t =>
      result = ((available bytes.length off n : Int),
        (List.range (available bytes.length off n)).map fun k =>
          (k, (stretch bytes off n).getD k 0)) ∧
      Settled s.bio t.bio s.disk ∧ t.inode = s.inode := by
  have kind : (s.inode i).type ≠ T_DEV := by
    rw [shown.kind]
    decide
  have reads := readi_yields i (n := n) ready kind (by rw [shown.size]; exact shown.small)
    (by rw [shown.size]; exact inside)
  rw [shown.size] at reads
  refine reads.mono ?_
  rintro result t ⟨settled, inode, rfl⟩
  refine ⟨?_, settled, inode⟩
  congr 1
  apply List.map_congr_left
  intro k member
  have short := List.mem_range.mp member
  unfold available at short
  have within : k < n ∧ off + k < bytes.length := by omega
  have byte : (stretch bytes off n).getD k 0 = bytes.getD (off + k) 0 := by
    simp only [stretch, List.getD_eq_getElem?_getD, List.getElem?_take, if_pos within.1,
      List.getElem?_drop]
  rw [byte, shown.reads _ within.2]

end

end Gcgos.Fs
