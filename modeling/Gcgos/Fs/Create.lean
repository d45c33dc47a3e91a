import Gcgos.Fs.Cache
import Gcgos.Fs.Resolve

/-!
# Creating a file and finding it again

`mknod` enters the string it is given, as it is, in the first unused entry of
the directory; `namei` takes its string apart at the slashes. The two agree on
the strings without a slash, if the entry that is filled has no old bytes behind
the new name.
-/

set_option autoImplicit false

namespace Gcgos.Fs

open Act Bio ByteMap

/-! ## The block that `mknod` writes -/

/-- Entry `k` filled with a number and a name; the bytes behind the name stay. -/
def Block.enter (data : Block) (k : Nat) (inum : UInt16) (name : List UInt8) : Block :=
  (data.putU16 (direntSize * k) inum).put (direntSize * k + 2) name

section

variable {data : Block} {k : Nat} {inum : UInt16} {name : List UInt8}

theorem Block.direntInum_enter (bound : k < direntsPerBlock) :
    (data.enter k inum name).direntInum k = inum := by
  unfold Block.enter Block.direntInum
  rw [Block.u16_put_apart (Or.inl le_rfl), Block.u16_putU16]
  simp only [direntsPerBlock, direntSize, BSIZE] at *
  omega

theorem Block.byte_enter_other {j : Nat} (different : j ≠ k) (short : name.length ≤ DIRSIZ) {i : Nat}
    (lower : direntSize * j ≤ i) (upper : i < direntSize * j + direntSize) :
    (data.enter k inum name).byte i = data.byte i := by
  unfold Block.enter Block.putU16
  simp only [direntSize, DIRSIZ] at *
  rw [Block.byte_put_outside (by omega), Block.byte_put_outside (by simp only [leBytes_length]; omega)]

/-- The other entries are as they were. -/
theorem Block.dirent_enter_other {j : Nat} (different : j ≠ k) (short : name.length ≤ DIRSIZ) :
    (data.enter k inum name).direntInum j = data.direntInum j ∧
      (data.enter k inum name).direntName j = data.direntName j := by
  constructor
  · unfold Block.direntInum Block.u16
    congr 1
    apply leNat_congr
    intro i lower upper
    apply Block.byte_enter_other different short lower
    simp only [direntSize] at *
    omega
  · unfold Block.direntName getBytes
    apply List.map_congr_left
    intro i member
    have below := List.mem_range.mp member
    apply Block.byte_enter_other different short
    · simp only [direntSize] at *
      omega
    · simp only [direntSize, DIRSIZ] at *
      omega

/-- The name in front, and what is left of the old one behind it. -/
theorem Block.direntName_enter (bound : k < direntsPerBlock) (short : name.length ≤ DIRSIZ) :
    (data.enter k inum name).direntName k = name ++ (data.direntName k).drop name.length := by
  have length : ∀ block : Block, (block.direntName k).length = DIRSIZ := by
    intro block
    simp [Block.direntName, getBytes]
  apply List.ext_getElem
  · simp only [List.length_append, List.length_drop, length]
    omega
  · intro i left right
    rw [length] at left
    have inside : direntSize * k + 2 + i < BSIZE := by
      simp only [direntsPerBlock, direntSize, BSIZE, DIRSIZ] at *
      omega
    have here : ∀ block : Block, ∀ h : i < (block.direntName k).length,
        (block.direntName k)[i] = block.byte (direntSize * k + 2 + i) := by
      intro block h
      simp [Block.direntName, getBytes]
    rw [here]
    by_cases covered : i < name.length
    · rw [List.getElem_append_left covered, Block.enter, Block.byte_put _ _ _ inside]
      unfold putBytes
      rw [if_pos (by omega)]
      simp [covered]
    · rw [List.getElem_append_right (by omega), List.getElem_drop]
      have place : name.length + (i - name.length) = i := by omega
      simp only [place]
      rw [here data (by rw [length]; omega), Block.enter, Block.byte_put_outside (by omega),
        Block.putU16, Block.byte_put_outside (by simp only [leBytes_length]; omega)]

/-- The entry bears the name alone exactly when the byte behind it was clear. -/
theorem Block.entryName_enter_iff (bound : k < direntsPerBlock) (short : name.length < DIRSIZ)
    (noNul : 0 ∉ name) :
    entryName ((data.enter k inum name).direntName k) = name ↔
      (data.direntName k).getD name.length 0 = 0 := by
  have length : (data.direntName k).length = DIRSIZ := by
    simp [Block.direntName, getBytes]
  have some : (data.direntName k).drop name.length ≠ [] := by
    rw [ne_eq, List.drop_eq_nil_iff]
    omega
  rw [Block.direntName_enter bound short.le, entryName_append _ noNul, List.append_right_eq_self,
    entryName_eq_nil, or_iff_right some]
  simp [List.getD_eq_getElem?_getD]

end

/-! ## The first unused entry -/

theorem direntFree_some {data : Block} {fuel k j : Nat} (found : direntFree data fuel k = some j) :
    k ≤ j ∧ j < k + fuel ∧ data.direntInum j = 0 ∧ ∀ i, k ≤ i → i < j → data.direntInum i ≠ 0 := by
  induction fuel generalizing k with
  | zero => cases found
  | succ fuel ih =>
      unfold direntFree at found
      split at found
      · next free =>
          cases found
          exact ⟨le_rfl, by omega, free, fun i lower upper => by omega⟩
      · next used =>
          obtain ⟨lower, upper, free, before⟩ := ih found
          refine ⟨by omega, by omega, free, fun i least most => ?_⟩
          by_cases first : i = k
          · subst first
            exact used
          · exact before i (by omega) most

/-- Entry `k` of block `b` is the first unused one of the directory. -/
structure FirstUnused (disk : Nat → Block) (dp : Inode) (b k : Nat) : Prop where
  block : b < dirBlocks dp.size
  entry : direntFree (disk (dp.addrs (addrSlot b)).toNat) direntsPerBlock 0 = some k
  before : ∀ j, j < b →
    direntFree (disk (dp.addrs (addrSlot j)).toNat) direntsPerBlock 0 = none

theorem FirstUnused.bound {disk : Nat → Block} {dp : Inode} {b k : Nat}
    (first : FirstUnused disk dp b k) : k < direntsPerBlock := by
  have found := (direntFree_some first.entry).2.1
  omega

/-- The blocks in front of it are other ones. -/
theorem FirstUnused.apart {disk : Nat → Block} {dp : Inode} {b k j : Nat}
    (first : FirstUnused disk dp b k) (earlier : j < b) :
    (dp.addrs (addrSlot j)).toNat ≠ (dp.addrs (addrSlot b)).toNat := by
  intro same
  have none := first.before j earlier
  rw [same, first.entry] at none
  cases none

theorem mknodScan_first {s : Bio} (ready : s.Ready 1) (dp : Inode)
    (direct : dp.size.toNat ≤ NDIRECT * BSIZE) (fuel b : Nat) {u : Bio}
    (settled : Settled s u s.sd.block) (turns : b + fuel = dirBlocks dp.size)
    (before : ∀ j, j < b →
      direntFree (s.sd.block (dp.addrs (addrSlot j)).toNat) direntsPerBlock 0 = none) :
    Ensures (mknodScan dp fuel (512 * b)) u fun result t =>
      ∀ place k bp, result = some (place, k, bp) → ∃ b, place = 512 * b ∧ b < NDIRECT ∧
        FirstUnused s.sd.block dp b k ∧ Held s t bp (s.sd.block (dp.addrs (addrSlot b)).toNat) := by
  induction fuel generalizing b u with
  | zero =>
      apply Ensures.pure
      rintro _ _ _ ⟨⟩
  | succ fuel ih =>
      have inside : 512 * b < dp.size.toNat := by
        unfold dirBlocks at turns
        omega
      have bound : b < NDIRECT := by
        simp only [NDIRECT, BSIZE] at *
        omega
      have blockNumber : 512 * b / 512 = b := Nat.mul_div_cancel_left b (by decide)
      unfold mknodScan
      rw [if_pos inside, blockNumber]
      refine Ensures.step (bmap_direct dp bound u) ?_
      refine Ensures.seq (bread_yields dp.dev _ (settled.ready ready)).ensures ?_
      intro bp t heldHere
      have held := settled.held heldHere
      rw [settled.disk] at held
      refine Ensures.seq (bufData_yields held).ensures ?_
      rintro data _ ⟨rfl, rfl⟩
      cases found : direntFree (s.sd.block (dp.addrs (addrSlot b)).toNat) direntsPerBlock 0 with
      | some k =>
          apply Ensures.pure
          rintro _ _ _ ⟨⟩
          exact ⟨b, rfl, bound, ⟨by omega, found, before⟩, held⟩
      | none =>
          refine Ensures.seq held.release.ensures fun _ v released => ?_
          refine ih (b + 1) released (by omega) fun j earlier => ?_
          by_cases last : j = b
          · subst last
            exact found
          · exact before j (by omega)

theorem nameBytes_path {path : List UInt8} (behind : List UInt8) (noNul : 0 ∉ path) {fuel : Nat}
    (short : path.length < fuel) : nameBytes fuel (path ++ 0 :: behind) = .ok path := by
  induction path generalizing fuel with
  | nil =>
      obtain ⟨n, rfl⟩ := Nat.exists_eq_succ_of_ne_zero (by omega : fuel ≠ 0)
      rfl
  | cons c path ih =>
      obtain ⟨n, rfl⟩ := Nat.exists_eq_succ_of_ne_zero (by omega : fuel ≠ 0)
      have head : c ≠ 0 := fun zero => noNul (by simp [zero])
      have rest : nameBytes n (path ++ 0 :: behind) = .ok path := by
        refine ih (fun member => noNul (List.mem_cons_of_mem c member)) ?_
        simp only [List.length_cons] at short
        omega
      simp [nameBytes, head, rest]

/-- `mknod` fills the first unused entry of the directory. -/
theorem mknodEnter_first {s : Bio} (ready : s.Ready 1) (dp : Inode) (inum : UInt32)
    {path : List UInt8} (behind : List UInt8) (noNul : 0 ∉ path) (short : path.length < DIRSIZ)
    (direct : dp.size.toNat ≤ NDIRECT * BSIZE) :
    Ensures (mknodEnter dp inum (path ++ 0 :: behind)) s fun _ t =>
      ∃ b k, b < NDIRECT ∧ FirstUnused s.sd.block dp b k ∧
        Settled s t (Function.update s.sd.block (dp.addrs (addrSlot b)).toNat
          ((s.sd.block (dp.addrs (addrSlot b)).toNat).enter k (UInt16.ofNat inum.toNat) path)) := by
  unfold mknodEnter
  refine Ensures.seq (mknodScan_first ready dp direct _ 0 (Settled.refl s) (Nat.zero_add _)
    (by omega)) ?_
  intro hit t found
  match hit with
  | none => exact Ensures.fail
  | some (off, k, bp) =>
      obtain ⟨b, rfl, bound, first, held⟩ := found off k bp rfl
      have blockNumber : 512 * b / 512 = b := Nat.mul_div_cancel_left b (by decide)
      refine Ensures.seq (bufData_yields held).ensures ?_
      rintro data t ⟨rfl, rfl⟩
      refine Ensures.step (by simp only [liftExcept, nameBytes_path behind noNul short]; rfl) ?_
      refine Ensures.seq (setBufData_yields held _).ensures ?_
      intro _ v heldNew
      rw [blockNumber]
      refine Ensures.step (bmap_direct dp bound v) ?_
      refine (bwrite_brelse_yields heldNew dp.dev _).ensures.mono ?_
      intro _ w settled
      exact ⟨b, k, bound, first, settled⟩

/-! ## The disk after `mknod` -/

/-- The blocks that files and directories may have are as they were. -/
def SameData (s t : State) : Prop :=
  superOf t.disk = superOf s.disk ∧ ∀ blk, InData (superOf s.disk) blk → t.disk blk = s.disk blk

theorem SameData.trans {s t u : State} (left : SameData s t) (right : SameData t u) :
    SameData s u := by
  refine ⟨right.1.trans left.1, fun blk data => ?_⟩
  rw [right.2 blk (by rw [left.1]; exact data), left.2 blk data]

theorem IBLOCK_ne_data {sb : Supperblock} {inum blk : Nat} (inArea : inum < sb.ninodes.toNat)
    (data : InData sb blk) : blk ≠ IBLOCK inum := by
  have sector := IBLOCK_bounds inArea
  have behind := inodeEnd_lt_dataStart sb
  unfold InData at data
  omega

theorem iallocScan_from (dev : UInt32) (fuel inum : Nat) (last : Option (Fin NBUF × Nat)) (s : Bio) :
    Ensures (iallocScan dev fuel inum last) s fun result _ => inum ≤ result.1 := by
  induction fuel generalizing inum last s with
  | zero => exact Ensures.pure le_rfl
  | succ fuel ih =>
      unfold iallocScan
      refine Ensures.seq (m := fun _ _ => True) (fun _ _ _ => trivial) fun bp t _ => ?_
      refine Ensures.seq (m := fun _ _ => True) (fun _ _ _ => trivial) fun data u _ => ?_
      apply Ensures.ite
      · exact fun _ => Ensures.pure le_rfl
      · intro _
        refine Ensures.seq (m := fun _ _ => True) (fun _ _ _ => trivial) fun _ v _ => ?_
        exact (ih (inum + 1) _ v).mono fun _ _ above => Nat.le_of_succ_le above

/-- `ialloc` never takes inode 0. -/
theorem iallocDisk_positive (dev : UInt32) (type : UInt16) (s : Bio) :
    Ensures (iallocDisk dev type) s fun n _ => 1 ≤ n := by
  unfold iallocDisk
  refine Ensures.seq (m := fun _ _ => True) (fun _ _ _ => trivial) fun bp t _ => ?_
  refine Ensures.seq (m := fun _ _ => True) (fun _ _ _ => trivial) fun data u _ => ?_
  refine Ensures.seq (m := fun _ _ => True) (fun _ _ _ => trivial) fun _ v _ => ?_
  refine Ensures.seq (iallocScan_from dev _ 1 none v) ?_
  rintro ⟨inum, dip⟩ w positive
  cases dip with
  | none => exact Ensures.fail
  | some pair =>
      refine Ensures.seq (m := fun _ _ => True) (fun _ _ _ => trivial) fun data x _ => ?_
      refine Ensures.seq (m := fun _ _ => True) (fun _ _ _ => trivial) fun _ y _ => ?_
      exact Ensures.pure positive

theorem ialloc_sameData {s : State} (type : UInt16) (orderly : Orderly s)
    (unused : ∃ m, 1 ≤ m ∧ m < (superOf s.disk).ninodes.toNat ∧
      (dinodeAt s.disk m).type = 0) :
    Ensures (ialloc rootdev type) s fun i t => SameData s t ∧ (t.inode i).inum ≠ 0 := by
  obtain ⟨m, lower, upper, free⟩ := unused
  have bound : intBound (s.bio.sd.block 1).supperblock.ninodes =
      (superOf s.disk).ninodes.toNat := by
    unfold intBound
    rw [if_pos]
    · rfl
    · exact orderly.reserved.geometry.ninodes
  unfold ialloc
  have taken : Ensures (iallocDisk rootdev type) s.bio fun n b =>
      1 ≤ n ∧ n ≤ m ∧ Settled s.bio b (allocOnDisk s.bio.sd.block n type) := by
    intro n b run
    obtain ⟨below, -, settled⟩ := (iallocDisk_yields rootdev type orderly.ready lower
      (by rw [bound]; exact upper) free).ensures n b run
    exact ⟨iallocDisk_positive rootdev type s.bio n b run, below, settled⟩
  refine Ensures.seq (onBio_ensures taken) ?_
  rintro n t ⟨⟨positive, below, settled⟩, inode⟩
  have inArea : n < (superOf s.disk).ninodes.toNat := by omega
  have allocated : SameData s t := by
    have disk : t.disk = allocOnDisk s.disk n type := settled.disk
    have step := MetaStep.alloc orderly.reserved type inArea
    refine ⟨?_, fun blk data => ?_⟩
    · rw [disk]
      exact step.super
    · rw [disk]
      exact Function.update_of_ne (IBLOCK_ne_data inArea data) _ _
  have ready := settled.ready orderly.ready
  refine (iget_ensures rootdev (UInt32.ofNat n) ready).mono ?_
  rintro i u ⟨ip, slot, wrote⟩
  refine ⟨?_, ?_⟩
  · rw [SameData, wrote.disk_eq]
    exact allocated
  · have number : ip.inum = UInt32.ofNat n := by
      rcases slot with ⟨found, -, rfl⟩ | ⟨-, -, rfl⟩
      · exact (findSlot_some found).2.2
      · rfl
    have word : (UInt32.ofNat n).toNat = n :=
      UInt32.toNat_ofNat_of_lt' (lt_trans inArea
        (lt_trans orderly.reserved.geometry.ninodes (by decide)))
    rw [wrote.at_slot, number]
    intro zero
    rw [zero] at word
    simp only [UInt32.toNat_zero] at word
    omega

/-- New head fields and `iupdate`, with the slot and the other blocks. -/
theorem headUpdate_sameData {s : State} (orderly : Orderly s) (i : Fin NINODE)
    (held : 0 < (s.inode i).count) (change : Inode → Inode)
    (keeps : ∀ ip, (change ip).dev = ip.dev ∧ (change ip).inum = ip.inum ∧
      (change ip).count = ip.count ∧ (change ip).addrs = ip.addrs) :
    Ensures (modifyInode i change >>= fun _ => iupdateSlot i) s fun _ t =>
      Orderly t ∧ t.inode = Function.update s.inode i (change (s.inode i)) ∧ SameData s t := by
  intro value t run
  obtain ⟨step, inodes, -⟩ := orderly.headUpdate i held change keeps value t run
  refine ⟨step.orderly, inodes, step.disk.super, fun blk data => ?_⟩
  obtain ⟨-, inum, -, -⟩ := keeps (s.inode i)
  have written : Ensures (modifyInode i change >>= fun _ => iupdateSlot i) s fun _ t =>
      Wrote s t i (updateOnDisk s.disk (change (s.inode i))) (change (s.inode i)) :=
    Ensures.seq (modifyInode_wrote change (Wrote.refl s i)).ensures fun _ u changed =>
      (iupdateSlot_wrote orderly.ready changed).ensures
  rw [(written value t run).disk_eq]
  refine updateOnDisk_other ?_
  rw [inum]
  exact IBLOCK_ne_data (orderly.seated i held).inArea data

/-- What `mknod` does to the blocks of files and directories: it fills the first
unused entry of the directory. -/
structure Entered (s t : State) (dp : Inode) (inum : UInt32) (path : List UInt8) (b k : Nat) :
    Prop where
  direct : b < NDIRECT
  first : FirstUnused s.disk dp b k
  super : superOf t.disk = superOf s.disk
  data : ∀ blk, InData (superOf s.disk) blk → t.disk blk =
    if blk = (dp.addrs (addrSlot b)).toNat then
      (s.disk blk).enter k (UInt16.ofNat inum.toNat) path
    else s.disk blk

theorem mknod_enters {s : State} (dp : Fin NINODE) {path : List UInt8} (behind : List UInt8)
    (type major minor : UInt16) (noNul : 0 ∉ path) (short : path.length < DIRSIZ)
    (orderly : Orderly s) (used : Used s) (ready : MknodReady s dp) :
    Ensures (mknod dp (path ++ 0 :: behind) type major minor) s fun i t =>
      (t.inode i).inum ≠ 0 ∧ ∃ b k, Entered s t (s.inode dp) (t.inode i).inum path b k := by
  unfold mknod
  refine Ensures.step (t := s) (a := s.inode dp) rfl ?_
  rw [(orderly.seated dp ready.held).dev]
  refine Ensures.seq (fun i t run => And.intro (ialloc_effect type orderly used ready.unused i t run)
    (ialloc_sameData type orderly ready.unused i t run)) ?_
  rintro i t ⟨alloc, sameT, nonzero⟩
  have apart : i ≠ dp := by
    intro same
    subst same
    have held := ready.held
    have free := alloc.free
    omega
  have dirT : t.inode dp = s.inode dp := alloc.handed.others dp (Ne.symm apart)
  rw [← Act.bind_assoc]
  refine Ensures.seq (headUpdate_sameData alloc.step.orderly i alloc.handed.held
    (fun ip => { ip with major := major, minor := minor, size := 0, nlink := 0 })
    fun ip => ⟨rfl, rfl, rfl, rfl⟩) ?_
  rintro _ u ⟨orderlyU, inodesU, sameU⟩
  have dirU : u.inode dp = s.inode dp := by
    rw [inodesU, Function.update_of_ne (Ne.symm apart), dirT]
  have heldU : 0 < (u.inode dp).count := by
    rw [dirU]
    exact ready.held
  refine Ensures.step (t := u) (a := u.inode i) rfl ?_
  refine Ensures.step (t := u) (a := u.inode dp) rfl ?_
  refine Ensures.seq (onBio_ensures (mknodEnter_first orderlyU.ready (u.inode dp) _ behind
    noNul short (by rw [dirU]; exact ready.direct))) ?_
  rintro _ v ⟨⟨b, k, direct, first, settled⟩, inodesV⟩
  have place := (orderlyU.seated dp heldU).placed _ (addrSlot_direct direct)
  have step := MetaStep.dataBlock orderlyU.reserved place
    ((u.bio.sd.block ((u.inode dp).addrs (addrSlot b)).toNat).enter k
      (UInt16.ofNat (u.inode i).inum.toNat) path)
  have entered := orderlyU.diskOnly settled inodesV step
  rw [← Act.bind_assoc]
  refine Ensures.seq (headUpdate_sameData entered.orderly dp (by rw [inodesV]; exact heldU)
    (fun dir => { dir with size := dir.size + UInt32.ofNat direntSize })
    fun dir => ⟨rfl, rfl, rfl, rfl⟩) ?_
  rintro _ w ⟨-, inodesW, sameW⟩
  apply Ensures.pure
  have sameU' : SameData s u := sameT.trans sameU
  have number : (w.inode i).inum = (u.inode i).inum := by
    rw [inodesW, inodesV, Function.update_of_ne apart]
  have superV : superOf v.disk = superOf s.disk := entered.disk.super.trans sameU'.1
  have dirPlace : InData (superOf s.disk) ((s.inode dp).addrs (addrSlot b)).toNat := by
    rw [dirU, sameU'.1] at place
    exact place
  have blocks : ∀ j, j ≤ b → u.disk ((s.inode dp).addrs (addrSlot j)).toNat =
      s.disk ((s.inode dp).addrs (addrSlot j)).toNat := by
    intro j upto
    apply sameU'.2
    exact (orderly.seated dp ready.held).placed _ (addrSlot_direct (by omega))
  refine ⟨?_, b, k, direct, ⟨?_, ?_, ?_⟩, sameW.1.trans superV, fun blk data => ?_⟩
  · rw [number, inodesU, Function.update_self]
    exact nonzero
  · rw [← dirU]
    exact first.block
  · rw [← blocks b le_rfl, ← dirU]
    exact first.entry
  · intro j earlier
    rw [← blocks j (by omega), ← dirU]
    exact first.before j earlier
  · rw [sameW.2 blk (by rw [superV]; exact data), number]
    have disk : v.disk = Function.update u.disk ((u.inode dp).addrs (addrSlot b)).toNat
        ((u.disk ((u.inode dp).addrs (addrSlot b)).toNat).enter k
          (UInt16.ofNat (u.inode i).inum.toNat) path) := settled.disk
    rw [disk, dirU]
    by_cases here : blk = ((s.inode dp).addrs (addrSlot b)).toNat
    · subst here
      rw [Function.update_self, if_pos rfl, blocks b le_rfl]
    · rw [Function.update_of_ne here, if_neg here, sameU'.2 blk data]

/-! ## The inodes after a creation -/

/-- Two inodes of one kind, with the same bytes. -/
structure SameFile (ip jp : Inode) : Prop where
  type : ip.type = jp.type
  size : ip.size = jp.size
  addrs : ip.addrs = jp.addrs

/-- A file system such as `mkfs` and the kernel leave it between two calls: what
is resident agrees with the disk, no inode is locked, inode numbers fit an entry,
directories have room in their direct blocks (the hundred inodes of `mkfs` need
no more), and every entry, up to the block that one more entry brings in, names
an inode in use. -/
structure Tidy (s : State) : Prop where
  orderly : Orderly s
  current : ∀ i, 0 < (s.inode i).count → Current s i
  idle : ∀ i, (s.inode i).busy = false
  narrow : (superOf s.disk).ninodes.toNat ≤ 2 ^ 16
  small : ∀ d, d.toNat < (superOf s.disk).ninodes.toNat → (inodeOf s d).type = T_DIR →
    (inodeOf s d).size.toNat + direntSize ≤ NDIRECT * BSIZE
  linked : ∀ d, d.toNat < (superOf s.disk).ninodes.toNat → (inodeOf s d).type = T_DIR →
    ∀ entry ∈ dirEntriesFrom s.disk (inodeOf s d) 0
        (dirBlocks ((inodeOf s d).size + UInt32.ofNat direntSize)),
      entry.1 ≠ 0 → entry.1.toNat < (superOf s.disk).ninodes.toNat ∧
        (dinodeAt s.disk entry.1.toNat).type ≠ 0

theorem Orderly.findSlot_iff {s : State} (orderly : Orderly s) (inum : UInt32) (i : Fin NINODE) :
    findSlot s rootdev inum = some i ↔ 0 < (s.inode i).count ∧ (s.inode i).inum = inum := by
  constructor
  · intro found
    obtain ⟨held, -, number⟩ := findSlot_some found
    exact ⟨held, number⟩
  · rintro ⟨held, number⟩
    cases found : findSlot s rootdev inum with
    | none => exact absurd number (findSlot_none found held (orderly.seated i held).dev)
    | some j =>
        obtain ⟨heldJ, -, numberJ⟩ := findSlot_some found
        rw [orderly.unique j i heldJ held (numberJ.trans number.symm)]

/-- The dinode of an inode in use, resident or not, has its type. -/
theorem Tidy.dinode_type {s : State} (tidy : Tidy s) (inum : UInt32) :
    (dinodeAt s.disk inum.toNat).type = (inodeOf s inum).type := by
  unfold inodeOf
  cases found : findSlot s rootdev inum with
  | none => rfl
  | some i =>
      obtain ⟨held, -, number⟩ := findSlot_some found
      obtain ⟨⟨addrs, copy⟩, -⟩ := tidy.current i held
      unfold DiskCopy at copy
      rw [number] at copy
      rw [copy]
      rfl

theorem Tidy.used {s : State} (tidy : Tidy s) : Used s := by
  intro j held
  obtain ⟨⟨addrs, copy⟩, inUse⟩ := tidy.current j held
  unfold DiskCopy at copy
  rw [copy]
  exact inUse

/-- The walk of `namei` keeps a file system tidy. -/
theorem Tidy.sameTable {s t : State} (tidy : Tidy s) (same : SameTable s t) : Tidy t := by
  have disk := same.disk_eq
  have resident : ∀ i, 0 < (t.inode i).count → 0 < (s.inode i).count ∧ t.inode i = s.inode i := by
    intro i held
    rw [same.count] at held
    exact ⟨held, same.resident i held⟩
  have orderly : Orderly t := by
    refine ⟨same.bio.ready tidy.orderly.ready, by rw [disk]; exact tidy.orderly.reserved, ?_, ?_, ?_⟩
    · intro i held
      obtain ⟨before, slot⟩ := resident i held
      rw [slot, disk]
      exact tidy.orderly.seated i before
    · intro i j heldI heldJ number
      obtain ⟨beforeI, slotI⟩ := resident i heldI
      obtain ⟨beforeJ, slotJ⟩ := resident j heldJ
      rw [slotI, slotJ] at number
      exact tidy.orderly.unique i j beforeI beforeJ number
    · rw [disk]
      exact tidy.orderly.dinodes
  refine ⟨orderly, ?_, ?_, ?_, ?_, ?_⟩
  · intro i held
    obtain ⟨before, slot⟩ := resident i held
    obtain ⟨⟨addrs, copy⟩, inUse⟩ := tidy.current i before
    refine ⟨⟨addrs, ?_⟩, by rw [slot]; exact inUse⟩
    unfold DiskCopy at copy ⊢
    rw [slot, disk]
    exact copy
  · intro i
    rw [same.busy]
    exact tidy.idle i
  · rw [disk]
    exact tidy.narrow
  · intro d
    rw [disk, same.inodeOf_eq]
    exact tidy.small d
  · intro d
    rw [disk, same.inodeOf_eq]
    exact tidy.linked d

/-- After a file was made in the root directory: its inode is resident in slot
`i`, and the other inodes are what they were but for the size of the root. -/
structure Created (s t : State) (i : Fin NINODE) (path : List UInt8) : Prop where
  orderly : Orderly t
  idle : ∀ j, (t.inode j).busy = false
  held : 0 < (t.inode i).count
  inArea : (t.inode i).inum.toNat < (superOf s.disk).ninodes.toNat
  unused : (dinodeAt s.disk (t.inode i).inum.toNat).type = 0
  file : (t.inode i).type = T_FILE
  notRoot : (t.inode i).inum ≠ 1
  nonzero : (t.inode i).inum ≠ 0
  rootDir : (inodeOf s 1).type = T_DIR
  root : SameFile (inodeOf t 1)
    { inodeOf s 1 with size := (inodeOf s 1).size + UInt32.ofNat direntSize }
  others : ∀ d, d.toNat < (superOf s.disk).ninodes.toNat → d ≠ 1 → d ≠ (t.inode i).inum →
    SameFile (inodeOf t d) (inodeOf s d)
  entered : ∃ b k, Entered s t (inodeOf s 1) (t.inode i).inum path b k
  room : findSlot t rootdev 1 ≠ none ∨ ∃ j, (t.inode j).count = 0

section

variable {s u v t : State} {dp i : Fin NINODE} {ip : Inode} {path : List UInt8}

/-- The slots after `iput` of the directory and `iunlock` of the new file. -/
structure Settles (v t : State) (dp i : Fin NINODE) : Prop where
  bio : t.bio = v.bio
  dir : t.inode dp = { v.inode dp with count := (v.inode dp).count - 1, busy := false }
  new : t.inode i = { v.inode i with busy := false }
  others : ∀ j, j ≠ dp → j ≠ i → t.inode j = v.inode j

theorem Settles.orderly (settles : Settles v t dp i) (orderly : Orderly v) (apart : i ≠ dp) :
    Orderly t := by
  let w := v.setInode dp { v.inode dp with count := (v.inode dp).count - 1, busy := false }
  have put : Orderly w :=
    (orderly.relock (i := dp) (t := w) ((v.inode dp).count - 1) false rfl rfl (by omega)).orderly
  have here : w.inode i = v.inode i := by
    simp [w, apart]
  refine (put.relock (i := i) (t := t) (v.inode i).count false settles.bio ?_ ?_).orderly
  · funext j
    by_cases new : j = i
    · subst new
      rw [Function.update_self, settles.new, here]
    · rw [Function.update_of_ne new]
      by_cases dir : j = dp
      · subst dir
        simp [w, settles.dir]
      · simp [w, dir, settles.others j dir new]
  · rw [here]
    exact id

/-- What the four steps of a creation say together: `iget` of the root directory
from `s` to `u`, `mknod` from `u` to `v`, `iput` and `iunlock` from `v` to `t`. -/
structure Creation (s u v t : State) (dp i : Fin NINODE) (ip : Inode) : Prop where
  tidy : Tidy s
  slot : IgetSlot s rootdev 1 dp ip
  wrote : Wrote s u dp s.disk ip
  dir : (u.inode dp).type = T_DIR
  effect : MknodEffect u v dp T_FILE i
  settles : Settles v t dp i

namespace Creation

theorem root (creation : Creation s u v t dp i ip) :
    (u.inode dp).inum = 1 ∧ (u.inode dp).count = (s.inode dp).count + 1 ∧
      SameFile (u.inode dp) (inodeOf s 1) := by
  rw [creation.wrote.at_slot]
  rcases creation.slot with ⟨found, -, rfl⟩ | ⟨missing, unused, rfl⟩
  · obtain ⟨-, -, number⟩ := findSlot_some found
    refine ⟨number, rfl, ?_⟩
    unfold inodeOf
    rw [found]
    exact ⟨rfl, rfl, rfl⟩
  · refine ⟨rfl, ?_, ?_⟩
    · rw [unused]
      rfl
    · unfold inodeOf
      rw [missing]
      exact ⟨rfl, rfl, rfl⟩

theorem disk (creation : Creation s u v t dp i ip) : u.disk = s.disk ∧ t.disk = v.disk :=
  ⟨creation.wrote.disk_eq, congrArg (fun bio => bio.sd.block) creation.settles.bio⟩

/-- The directory is as before but for its size and, as long as it stays
resident, its lock. -/
theorem dirSlot (creation : Creation s u v t dp i ip) :
    (t.inode dp).inum = 1 ∧ (t.inode dp).count = (s.inode dp).count ∧
      SameFile (t.inode dp)
        { inodeOf s 1 with size := (inodeOf s 1).size + UInt32.ofNat direntSize } := by
  obtain ⟨number, count, file⟩ := creation.root
  rw [creation.settles.dir, creation.effect.dir]
  refine ⟨number, ?_, file.type, ?_, file.addrs⟩
  · simp only [count]
    omega
  · simp only [file.size]

theorem free (creation : Creation s u v t dp i ip) : (s.inode i).count = 0 := by
  have unused := creation.effect.free
  rw [creation.wrote.other creation.effect.apart] at unused
  exact unused

theorem newSlot (creation : Creation s u v t dp i ip) :
    (t.inode i).inum = (v.inode i).inum ∧ (t.inode i).count = 1 ∧ (t.inode i).type = T_FILE := by
  rw [creation.settles.new]
  exact ⟨rfl, creation.effect.count, creation.effect.type⟩

theorem otherSlot (creation : Creation s u v t dp i ip) {j : Fin NINODE} (dir : j ≠ dp)
    (new : j ≠ i) : t.inode j = s.inode j := by
  rw [creation.settles.others j dir new, creation.effect.others j new dir,
    creation.wrote.other dir]

theorem orderly (creation : Creation s u v t dp i ip) : Orderly t :=
  creation.settles.orderly creation.effect.step.orderly creation.effect.apart

theorem unused (creation : Creation s u v t dp i ip) :
    (dinodeAt s.disk (t.inode i).inum.toNat).type = 0 := by
  have unused := creation.effect.unused
  rw [creation.disk.1] at unused
  rw [creation.newSlot.1]
  exact unused

theorem rootDir (creation : Creation s u v t dp i ip) : (inodeOf s 1).type = T_DIR := by
  rw [← creation.root.2.2.type]
  exact creation.dir

theorem notRoot (creation : Creation s u v t dp i ip) : (t.inode i).inum ≠ 1 := by
  intro same
  have unused := creation.unused
  rw [same, creation.tidy.dinode_type, creation.rootDir] at unused
  exact absurd unused (by decide)

/-- An inode other than the two is resident after the creation as before. -/
theorem resident_iff (creation : Creation s u v t dp i ip) {d : UInt32} (root : d ≠ 1)
    (new : d ≠ (t.inode i).inum) (j : Fin NINODE) :
    findSlot t rootdev d = some j ↔ findSlot s rootdev d = some j := by
  rw [creation.orderly.findSlot_iff, creation.tidy.orderly.findSlot_iff]
  by_cases isDir : j = dp
  · subst isDir
    obtain ⟨number, count, -⟩ := creation.dirSlot
    constructor
    · rintro ⟨-, same⟩
      exact absurd (same.symm.trans number) root
    · rintro ⟨held, same⟩
      -- the slot of the root directory holds no other inode before
      rcases creation.slot with ⟨found, -, -⟩ | ⟨-, unused, -⟩
      · exact absurd (same.symm.trans (findSlot_some found).2.2) root
      · omega
  · by_cases isNew : j = i
    · subst isNew
      constructor
      · rintro ⟨-, same⟩
        exact absurd same.symm new
      · rintro ⟨held, -⟩
        rw [creation.free] at held
        exact absurd held (by decide)
    · rw [creation.otherSlot isDir isNew]

theorem other (creation : Creation s u v t dp i ip) {d : UInt32}
    (inArea : d.toNat < (superOf s.disk).ninodes.toNat) (root : d ≠ 1)
    (new : d ≠ (t.inode i).inum) : SameFile (inodeOf t d) (inodeOf s d) := by
  unfold inodeOf
  cases found : findSlot t rootdev d with
  | some j =>
      rw [(creation.resident_iff root new j).mp found]
      have isDir : j ≠ dp := by
        rintro rfl
        exact root ((findSlot_some found).2.2.symm.trans creation.dirSlot.1)
      have isNew : j ≠ i := by
        rintro rfl
        exact new (findSlot_some found).2.2.symm
      simp only
      rw [creation.otherSlot isDir isNew]
      exact ⟨rfl, rfl, rfl⟩
  | none =>
      have missing : findSlot s rootdev d = none := by
        cases before : findSlot s rootdev d with
        | none => rfl
        | some j =>
            rw [(creation.resident_iff root new j).mpr before] at found
            cases found
      have same : dinodeAt t.disk d.toNat = dinodeAt s.disk d.toNat := by
        rw [creation.disk.2, ← creation.disk.1]
        refine creation.effect.step.disk.other _ (by rw [creation.disk.1]; exact inArea) ?_
        rw [creation.root.1, ← creation.newSlot.1]
        rintro (hit | hit)
        · exact new (UInt32.toNat_inj.mp hit)
        · exact root (UInt32.toNat_inj.mp hit)
      rw [missing]
      simp only
      rw [same]
      exact ⟨rfl, rfl, rfl⟩

theorem grownRoot (creation : Creation s u v t dp i ip) : SameFile (inodeOf t 1)
    { inodeOf s 1 with size := (inodeOf s 1).size + UInt32.ofNat direntSize } := by
  obtain ⟨number, count, file⟩ := creation.dirSlot
  have resident := creation.orderly.findSlot_iff 1
  rcases creation.slot with ⟨found, -, -⟩ | ⟨missing, unused, -⟩
  · have here : findSlot t rootdev 1 = some dp := by
      rw [resident, count]
      exact ⟨(findSlot_some found).1, number⟩
    rw [show inodeOf t 1 = t.inode dp by simp only [inodeOf, here]]
    exact file
  · have gone : findSlot t rootdev 1 = none := by
      cases found : findSlot t rootdev 1 with
      | none => rfl
      | some j =>
          obtain ⟨held, same⟩ := (resident j).mp found
          have isDir : j ≠ dp := by
            rintro rfl
            omega
          have isNew : j ≠ i := by
            rintro rfl
            exact creation.notRoot same
          rw [creation.otherSlot isDir isNew] at held same
          rw [(creation.tidy.orderly.findSlot_iff 1 j).mpr ⟨held, same⟩] at missing
          cases missing
    -- the directory was given back, so its dinode on the disk counts
    have copy := creation.effect.dirCopy
    unfold DiskCopy at copy
    obtain ⟨first, -, here⟩ := creation.root
    have dirInum : (v.inode dp).inum = 1 := by
      rw [creation.effect.dir]
      exact first
    rw [dirInum, first, creation.disk.1, ← creation.disk.2] at copy
    have load : inodeOf s 1 = (dinodeAt s.disk (1 : UInt32).toNat).load rootdev 1 := by
      simp only [inodeOf, missing]
    rw [show inodeOf t 1 = (dinodeAt t.disk (1 : UInt32).toNat).load rootdev 1 by
      simp only [inodeOf, gone], copy]
    refine ⟨?_, ?_, ?_⟩
    · show (v.inode dp).type = _
      rw [creation.effect.dir]
      exact here.type
    · show (v.inode dp).size = _
      rw [creation.effect.dir]
      simp only [here.size]
    · show (dinodeAt s.disk (1 : UInt32).toNat).addrs = (inodeOf s 1).addrs
      rw [load]
      rfl

theorem created (creation : Creation s u v t dp i ip) {b k : Nat} (nonzero : (v.inode i).inum ≠ 0)
    (entered : Entered u v (u.inode dp) (v.inode i).inum path b k) : Created s t i path where
  orderly := creation.orderly
  idle := by
    intro j
    by_cases isDir : j = dp
    · rw [isDir, creation.settles.dir]
    · by_cases isNew : j = i
      · rw [isNew, creation.settles.new]
      · rw [creation.otherSlot isDir isNew]
        exact creation.tidy.idle j
  held := by
    rw [creation.newSlot.2.1]
    exact Int.one_pos
  inArea := by
    have held : 0 < (t.inode i).count := by
      rw [creation.newSlot.2.1]
      exact Int.one_pos
    have inArea := (creation.orderly.seated i held).inArea
    rw [creation.disk.2, creation.effect.step.disk.super, creation.disk.1] at inArea
    exact inArea
  unused := creation.unused
  file := creation.newSlot.2.2
  notRoot := creation.notRoot
  nonzero := by
    rw [creation.newSlot.1]
    exact nonzero
  rootDir := creation.rootDir
  root := creation.grownRoot
  others d inArea root new := creation.other inArea root new
  entered := by
    obtain ⟨-, -, file⟩ := creation.root
    have first := entered.first
    have data := entered.data
    have super := entered.super
    rw [creation.disk.1] at first data super
    rw [← creation.disk.2] at data super
    refine ⟨b, k, entered.direct, ⟨?_, ?_, ?_⟩, super, ?_⟩
    · rw [← file.size]
      exact first.block
    · rw [← file.addrs]
      exact first.entry
    · rw [← file.addrs]
      exact first.before
    · rw [← file.addrs, creation.newSlot.1]
      exact data
  room := by
    obtain ⟨number, count, -⟩ := creation.dirSlot
    rcases creation.slot with ⟨found, -, -⟩ | ⟨-, unused, -⟩
    · have here : findSlot t rootdev 1 = some dp := by
        rw [creation.orderly.findSlot_iff, count]
        exact ⟨(findSlot_some found).1, number⟩
      exact Or.inl (by rw [here]; exact Option.some_ne_none dp)
    · exact Or.inr ⟨dp, count.trans unused⟩

end Creation

end

/-! ## What paths name after a creation -/

theorem mem_blockEntries {data : Block} {entry : UInt16 × List UInt8} :
    entry ∈ blockEntries data ↔
      ∃ j, j < direntsPerBlock ∧ entry = (data.direntInum j, entryName (data.direntName j)) := by
  simp [blockEntries, eq_comm]

theorem mem_dirEntriesFrom {disk : Nat → Block} {dp : Inode} {b n : Nat}
    {entry : UInt16 × List UInt8} :
    entry ∈ dirEntriesFrom disk dp b n ↔
      ∃ j, b ≤ j ∧ j < b + n ∧ entry ∈ blockEntries (disk (dp.addrs (addrSlot j)).toNat) := by
  simp [dirEntriesFrom, List.mem_range'_1, and_assoc]

theorem dirEntriesFrom_append (disk : Nat → Block) (dp : Inode) (b m n : Nat) :
    dirEntriesFrom disk dp b (m + n) =
      dirEntriesFrom disk dp b m ++ dirEntriesFrom disk dp (b + m) n := by
  unfold dirEntriesFrom
  rw [← List.flatMap_append, List.range'_append_1]

theorem dirEntriesFrom_succ (disk : Nat → Block) (dp : Inode) (b n : Nat) :
    dirEntriesFrom disk dp b (n + 1) =
      blockEntries (disk (dp.addrs (addrSlot b)).toNat) ++ dirEntriesFrom disk dp (b + 1) n := by
  unfold dirEntriesFrom
  rw [List.range'_succ, List.flatMap_cons]

theorem findEntry_mem {entries : List (UInt16 × List UInt8)} {name : List UInt8} {next : UInt16}
    (found : findEntry entries name = some next) : (next, name) ∈ entries ∧ next ≠ 0 := by
  unfold findEntry at found
  obtain ⟨entry, hit, rfl⟩ := Option.map_eq_some_iff.mp found
  have matched := List.find?_some hit
  simp only [decide_eq_true_eq] at matched
  obtain ⟨used, rfl⟩ := matched
  exact ⟨List.mem_of_find?_eq_some hit, used⟩

theorem dirBlocks_grow {size : UInt32} (small : size.toNat + direntSize ≤ NDIRECT * BSIZE) :
    (size + UInt32.ofNat direntSize).toNat = size.toNat + direntSize ∧
      dirBlocks size ≤ dirBlocks (size + UInt32.ofNat direntSize) ∧
      dirBlocks (size + UInt32.ofNat direntSize) ≤ NDIRECT := by
  have word := UInt32.toNat_add size (UInt32.ofNat direntSize)
  have sixteen : (UInt32.ofNat direntSize).toNat = 16 := by decide
  rw [sixteen] at word
  unfold dirBlocks
  simp only [direntSize, NDIRECT, BSIZE] at *
  omega

/-- The blocks of an inode in the inode area lie where data may be. -/
theorem Orderly.inodeOf_placed {s : State} (orderly : Orderly s) {d : UInt32}
    (inArea : d.toNat < (superOf s.disk).ninodes.toNat) :
    Placed (superOf s.disk) (inodeOf s d).addrs := by
  unfold inodeOf
  cases found : findSlot s rootdev d with
  | none => exact orderly.dinodes _ inArea
  | some i => exact (orderly.seated i (findSlot_some found).1).placed

/-- The entries of a filled block: the new one, and those it had. -/
theorem mem_blockEntries_enter {data : Block} {k : Nat} {inum : UInt16} {path : List UInt8}
    (bound : k < direntsPerBlock) (short : path.length ≤ DIRSIZ) {entry : UInt16 × List UInt8}
    (member : entry ∈ blockEntries (data.enter k inum path)) :
    entry ∈ blockEntries data ∨
      entry = (inum, entryName ((data.enter k inum path).direntName k)) := by
  obtain ⟨j, below, rfl⟩ := mem_blockEntries.mp member
  by_cases here : j = k
  · subst here
    rw [Block.direntInum_enter bound]
    exact Or.inr rfl
  · obtain ⟨number, name⟩ : (data.enter k inum path).direntInum j = data.direntInum j ∧
        (data.enter k inum path).direntName j = data.direntName j :=
      Block.dirent_enter_other here short
    rw [number, name]
    exact Or.inl (mem_blockEntries.mpr ⟨j, below, rfl⟩)

/-- A name that a block did not have is found once it is entered. -/
theorem findEntry_enter {data : Block} {k : Nat} {inum : UInt16} {path : List UInt8}
    (bound : k < direntsPerBlock) (short : path.length ≤ DIRSIZ) (used : inum ≠ 0)
    (alone : entryName ((data.enter k inum path).direntName k) = path)
    (missing : findEntry (blockEntries data) path = none) :
    findEntry (blockEntries (data.enter k inum path)) path = some inum := by
  have split : List.range direntsPerBlock =
      List.range' 0 k ++ k :: List.range' (k + 1) (direntsPerBlock - k - 1) := by
    rw [List.range_eq_range', ← List.range'_succ]
    have sum : direntsPerBlock = k + (direntsPerBlock - k - 1 + 1) := by omega
    conv_lhs => rw [sum]
    rw [← List.range'_append_1]
    simp
  have front : findEntry ((List.range' 0 k).map fun j =>
      ((data.enter k inum path).direntInum j,
        entryName ((data.enter k inum path).direntName j))) path = none := by
    have same : ((List.range' 0 k).map fun j => ((data.enter k inum path).direntInum j,
        entryName ((data.enter k inum path).direntName j))) =
        (List.range' 0 k).map fun j => (data.direntInum j, entryName (data.direntName j)) := by
      apply List.map_congr_left
      intro j member
      have below := (List.mem_range'_1.mp member).2
      obtain ⟨number, name⟩ : (data.enter k inum path).direntInum j = data.direntInum j ∧
          (data.enter k inum path).direntName j = data.direntName j :=
        Block.dirent_enter_other (by omega) short
      rw [number, name]
    rw [same]
    unfold blockEntries at missing
    rw [split, List.map_append, findEntry_append] at missing
    exact (Option.or_eq_none_iff.mp missing).1
  unfold blockEntries
  rw [split, List.map_append, findEntry_append, front, List.map_cons]
  simp [findEntry, Block.direntInum_enter bound, alone, used]

/-- An inode number of the inode area. -/
def InArea (s : State) (d : UInt32) : Prop := d.toNat < (superOf s.disk).ninodes.toNat

/-- An entry's number, as `iget` is given it. -/
theorem ofNat_entry (next : UInt16) : (UInt32.ofNat next.toNat).toNat = next.toNat := by
  have bound := next.toNat_lt
  exact UInt32.toNat_ofNat_of_lt' (by simp only [UInt32.size]; omega)

theorem Tidy.closed {s : State} (tidy : Tidy s) : ClosedDirs s (InArea s) := by
  constructor
  · intro d inArea isDir
    have small := tidy.small d inArea isDir
    omega
  · intro d name next inArea isDir found
    obtain ⟨member, used⟩ := findEntry_mem found
    obtain ⟨j, lower, upper, here⟩ := mem_dirEntriesFrom.mp member
    have grow := (dirBlocks_grow (tidy.small d inArea isDir)).2.1
    have named := tidy.linked d inArea isDir _
      (mem_dirEntriesFrom.mpr ⟨j, lower, by omega, here⟩) used
    unfold InArea
    rw [ofNat_entry]
    exact named.1

namespace Created

variable {s t : State} {i : Fin NINODE} {path : List UInt8}

/-- The name under which the new entry is found: the string, and what old bytes
of the entry stand behind it. -/
def newName (s : State) (b k : Nat) (path : List UInt8) : List UInt8 :=
  entryName (path ++ ((s.disk ((inodeOf s 1).addrs (addrSlot b)).toNat).direntName k).drop path.length)

theorem narrow (tidy : Tidy s) (created : Created s t i path) :
    (UInt16.ofNat (t.inode i).inum.toNat).toNat = (t.inode i).inum.toNat := by
  have inArea := created.inArea
  have bound := tidy.narrow
  exact UInt16.toNat_ofNat_of_lt' (by simp only [UInt16.size]; omega)

theorem resident (created : Created s t i path) :
    findSlot t rootdev (t.inode i).inum = some i :=
  (created.orderly.findSlot_iff _ i).mpr ⟨created.held, rfl⟩

theorem newFile (created : Created s t i path) : (inodeOf t (t.inode i).inum).type = T_FILE := by
  unfold inodeOf
  rw [created.resident]
  exact created.file

/-- A directory after the creation is a directory from before, with the same
blocks, and at most one entry longer. -/
theorem directory (tidy : Tidy s) (created : Created s t i path) {d : UInt32}
    (inArea : InArea s d) (isDir : (inodeOf t d).type = T_DIR) :
    (inodeOf s d).type = T_DIR ∧ (inodeOf t d).addrs = (inodeOf s d).addrs ∧
      (inodeOf t d).size.toNat ≤ (inodeOf s d).size.toNat + direntSize ∧
      dirBlocks (inodeOf t d).size ≤ dirBlocks ((inodeOf s d).size + UInt32.ofNat direntSize) := by
  by_cases root : d = 1
  · subst root
    have file := created.root
    have grow := dirBlocks_grow (tidy.small 1 inArea created.rootDir)
    refine ⟨created.rootDir, file.addrs, ?_, ?_⟩
    · rw [file.size]
      exact grow.1.le
    · rw [file.size]
  · have new : d ≠ (t.inode i).inum := by
      rintro rfl
      rw [created.newFile] at isDir
      exact absurd isDir (by decide)
    have file := created.others d inArea root new
    have before : (inodeOf s d).type = T_DIR := by
      rw [← file.type]
      exact isDir
    refine ⟨before, file.addrs, ?_, ?_⟩
    · rw [file.size]
      omega
    · rw [file.size]
      exact (dirBlocks_grow (tidy.small d inArea before)).2.1

/-- Its entries are those it had, and the new one. -/
theorem mem_entries (tidy : Tidy s) (created : Created s t i path) (short : path.length < DIRSIZ)
    {b k : Nat} (entered : Entered s t (inodeOf s 1) (t.inode i).inum path b k) {d : UInt32}
    (inArea : InArea s d) (isDir : (inodeOf t d).type = T_DIR) {entry : UInt16 × List UInt8}
    (member : entry ∈ dirEntries t.disk (inodeOf t d)) :
    entry ∈ dirEntriesFrom s.disk (inodeOf s d) 0
        (dirBlocks ((inodeOf s d).size + UInt32.ofNat direntSize)) ∨
      entry = (UInt16.ofNat (t.inode i).inum.toNat, newName s b k path) := by
  obtain ⟨before, addrs, -, blocks⟩ := created.directory tidy inArea isDir
  obtain ⟨j, lower, upper, here⟩ := mem_dirEntriesFrom.mp member
  have few := (dirBlocks_grow (tidy.small d inArea before)).2.2
  have place := tidy.orderly.inodeOf_placed inArea _ (addrSlot_direct (by omega : j < NDIRECT))
  rw [addrs, entered.data _ place] at here
  split at here
  · next same =>
      rcases mem_blockEntries_enter entered.first.bound short.le here with old | new
      · exact Or.inl (mem_dirEntriesFrom.mpr ⟨j, lower, by omega, old⟩)
      · right
        rw [new, Block.direntName_enter entered.first.bound short.le, same]
        rfl
  · exact Or.inl (mem_dirEntriesFrom.mpr ⟨j, lower, by omega, here⟩)

/-- An entry of a directory names an inode in use, or it is the new one. -/
theorem entry_cases (tidy : Tidy s) (created : Created s t i path) (short : path.length < DIRSIZ)
    {b k : Nat} (entered : Entered s t (inodeOf s 1) (t.inode i).inum path b k) {d : UInt32}
    (inArea : InArea s d) (isDir : (inodeOf t d).type = T_DIR) {name : List UInt8} {next : UInt16}
    (found : findEntry (dirEntries t.disk (inodeOf t d)) name = some next) :
    InArea s (UInt32.ofNat next.toNat) ∧ (UInt32.ofNat next.toNat ≠ (t.inode i).inum ∨
      name = newName s b k path) := by
  obtain ⟨member, used⟩ := findEntry_mem found
  unfold InArea
  rw [ofNat_entry]
  rcases created.mem_entries tidy short entered inArea isDir member with old | new
  · obtain ⟨inside, inUse⟩ := tidy.linked d inArea (created.directory tidy inArea isDir).1 _ old used
    refine ⟨inside, Or.inl ?_⟩
    intro same
    have unused := created.unused
    rw [← same, ofNat_entry] at unused
    exact inUse unused
  · obtain ⟨rfl, rfl⟩ := Prod.mk.injEq .. ▸ new
    rw [created.narrow tidy]
    exact ⟨created.inArea, Or.inr rfl⟩

theorem closed (tidy : Tidy s) (created : Created s t i path) (short : path.length < DIRSIZ) :
    ClosedDirs t (InArea s) := by
  obtain ⟨b, k, entered⟩ := created.entered
  constructor
  · intro d inArea isDir
    obtain ⟨before, -, size, -⟩ := created.directory tidy inArea isDir
    have small := tidy.small d inArea before
    omega
  · intro d name next inArea isDir found
    exact (created.entry_cases tidy short entered inArea isDir found).1

/-- Only a path with the new entry's name as a component leads to the new
inode. -/
theorem resolve_new (tidy : Tidy s) (created : Created s t i path) (short : path.length < DIRSIZ)
    {b k : Nat} (entered : Entered s t (inodeOf s 1) (t.inode i).inum path b k)
    {names : List (List UInt8)} {d : UInt32} (inArea : InArea s d) (other : d ≠ (t.inode i).inum)
    (resolved : resolve t d names = some (t.inode i).inum) : newName s b k path ∈ names := by
  induction names generalizing d with
  | nil =>
      cases resolved
      exact absurd rfl other
  | cons name names ih =>
      unfold resolve at resolved
      split at resolved
      · cases resolved
      · next isDir =>
          split at resolved
          · cases resolved
          · next next found =>
              obtain ⟨inside, apart | rfl⟩ := created.entry_cases tidy short entered inArea
                (not_not.mp isDir) found
              · exact List.mem_cons_of_mem name (ih inside apart resolved)
              · exact List.mem_cons_self ..

/-- A name that the root directory did not have is found there afterwards. -/
theorem findEntry_new (tidy : Tidy s) (created : Created s t i path) (short : path.length < DIRSIZ)
    {b k : Nat} (entered : Entered s t (inodeOf s 1) (t.inode i).inum path b k)
    (inArea : InArea s 1) (alone : newName s b k path = path)
    (missing : findEntry (dirEntries s.disk (inodeOf s 1)) path = none) :
    findEntry (dirEntries t.disk (inodeOf t 1)) path =
      some (UInt16.ofNat (t.inode i).inum.toNat) := by
  have first := entered.first
  have inside := first.block
  obtain ⟨-, grow, few⟩ := dirBlocks_grow (tidy.small 1 inArea created.rootDir)
  have placed : ∀ j, j < NDIRECT →
      InData (superOf s.disk) ((inodeOf s 1).addrs (addrSlot j)).toNat := fun j bound =>
    tidy.orderly.inodeOf_placed inArea _ (addrSlot_direct bound)
  -- the entries in front of the block with the unused one, that block, and the rest
  obtain ⟨n, before⟩ : ∃ n, dirBlocks (inodeOf s 1).size = b + (n + 1) :=
    ⟨dirBlocks (inodeOf s 1).size - b - 1, by omega⟩
  have grown : (inodeOf t 1).size = (inodeOf s 1).size + UInt32.ofNat direntSize := created.root.size
  obtain ⟨m, after⟩ : ∃ m, dirBlocks (inodeOf t 1).size = b + (m + 1) :=
    ⟨dirBlocks (inodeOf t 1).size - b - 1, by rw [grown]; omega⟩
  unfold dirEntries at missing ⊢
  rw [before, dirEntriesFrom_append, dirEntriesFrom_succ, findEntry_append, findEntry_append,
    Option.or_eq_none_iff, Option.or_eq_none_iff, Nat.zero_add] at missing
  obtain ⟨front, here, -⟩ := missing
  have frontNow : dirEntriesFrom t.disk (inodeOf t 1) 0 b = dirEntriesFrom s.disk (inodeOf s 1) 0 b := by
    unfold dirEntriesFrom
    rw [created.root.addrs]
    apply List.flatMap_congr
    intro j member
    have below := (List.mem_range'_1.mp member).2
    rw [entered.data _ (placed j (by omega)), if_neg (first.apart (by omega))]
  have blockNow : t.disk ((inodeOf t 1).addrs (addrSlot b)).toNat =
      (s.disk ((inodeOf s 1).addrs (addrSlot b)).toNat).enter k
        (UInt16.ofNat (t.inode i).inum.toNat) path := by
    rw [created.root.addrs, entered.data _ (placed b entered.direct), if_pos rfl]
  have nonzero : UInt16.ofNat (t.inode i).inum.toNat ≠ 0 := by
    intro zero
    have number := created.narrow tidy
    rw [zero] at number
    exact created.nonzero (UInt32.toNat_inj.mp number.symm)
  rw [after, dirEntriesFrom_append, dirEntriesFrom_succ, findEntry_append, findEntry_append,
    frontNow, front, Nat.zero_add, blockNow,
    findEntry_enter first.bound short.le nonzero
      (by rw [Block.direntName_enter first.bound short.le]; exact alone) here]
  rfl

end Created

/-! ## The string of `mknod` as a path -/

theorem components_noSlash {path name : List UInt8} (member : name ∈ components path) :
    slash ∉ name := by
  induction length : path.length using Nat.strong_induction_on generalizing path with
  | _ n ih =>
      rw [← components_skipSlashes] at member
      have shorter := (skipSlashes_suffix path).length_le
      rcases exists_component (skipSlashes_head path) with empty |
        ⟨first, rest, split, nonempty, noSlash, ends⟩
      · rw [empty, components_nil] at member
        cases member
      · rw [split, components_append noSlash nonempty ends] at member
        rcases List.mem_cons.mp member with rfl | behind
        · exact noSlash
        · have positive := List.length_pos_iff.mpr nonempty
          rw [split, List.length_append] at shorter
          exact ih rest.length (by omega) behind rfl

theorem components_single {path : List UInt8} (noSlash : slash ∉ path) (nonempty : path ≠ []) :
    components path = [path] := by
  have single := components_append noSlash nonempty (Or.inl rfl)
  rwa [List.append_nil, components_nil] at single

/-- A single component that names nothing has no entry. -/
theorem findEntry_none_of_resolve {s : State} {d : UInt32} {name : List UInt8}
    (isDir : (inodeOf s d).type = T_DIR) (missing : resolve s d [name] = none) :
    findEntry (dirEntries s.disk (inodeOf s d)) name = none := by
  unfold resolve at missing
  rw [if_neg (not_not.mpr isDir)] at missing
  cases found : findEntry (dirEntries s.disk (inodeOf s d)) name with
  | none => rfl
  | some next =>
      rw [found] at missing
      cases missing

/-- The entry that is filled next has no old byte right behind a name of this
length. -/
def CleanEntry (s : State) (path : List UInt8) : Prop :=
  ∀ b k, FirstUnused s.disk (inodeOf s 1) b k →
    ((s.disk ((inodeOf s 1).addrs (addrSlot b)).toNat).direntName k).getD path.length 0 = 0

theorem FirstUnused.unique {disk : Nat → Block} {dp : Inode} {b k b' k' : Nat}
    (first : FirstUnused disk dp b k) (second : FirstUnused disk dp b' k') : b = b' ∧ k = k' := by
  have block : b = b' := by
    rcases Nat.lt_trichotomy b b' with less | same | more
    · have none := second.before b less
      rw [first.entry] at none
      cases none
    · exact same
    · have none := first.before b' more
      rw [second.entry] at none
      cases none
  subst block
  have entry := first.entry
  rw [second.entry] at entry
  cases entry
  exact ⟨rfl, rfl⟩

section

variable {s : State} {b k : Nat} {path : List UInt8}
  (first : FirstUnused s.disk (inodeOf s 1) b k) (noNul : 0 ∉ path) (short : path.length < DIRSIZ)

include first noNul short

theorem cleanEntry_iff : CleanEntry s path ↔ Created.newName s b k path = path := by
  have filled : entryName (((s.disk ((inodeOf s 1).addrs (addrSlot b)).toNat).enter k 0
      path).direntName k) = path ↔ _ := Block.entryName_enter_iff first.bound short noNul
  rw [Block.direntName_enter first.bound short.le] at filled
  rw [show Created.newName s b k path = path ↔ _ from filled]
  constructor
  · intro clean
    exact clean b k first
  · intro here b' k' other
    obtain ⟨rfl, rfl⟩ := first.unique other
    exact here

/-- The new entry's name is a component of the string only if it is all of it. -/
theorem newName_mem_iff (nonempty : path ≠ []) :
    Created.newName s b k path ∈ components path ↔ slash ∉ path ∧ CleanEntry s path := by
  have front : Created.newName s b k path = path ++
      entryName (((s.disk ((inodeOf s 1).addrs (addrSlot b)).toNat).direntName k).drop path.length) :=
    entryName_append _ noNul
  rw [cleanEntry_iff first noNul short]
  constructor
  · intro member
    have noSlash : slash ∉ path := by
      intro inside
      apply components_noSlash member
      rw [front]
      exact List.mem_append_left _ inside
    rw [components_single noSlash nonempty, List.mem_singleton] at member
    exact ⟨noSlash, member⟩
  · rintro ⟨noSlash, alone⟩
    rw [components_single noSlash nonempty, alone]
    exact List.mem_singleton_self path

end

namespace Created

variable {s t : State} {i : Fin NINODE} {path : List UInt8}

theorem rootSlot (created : Created s t i path) :
    Yields (iget rootdev 1) t fun dp u => Holding t u dp 1 := by
  refine (iget_ends 1 created.orderly.ready created.idle).yields ?_
  rintro _ ⟨missing, full⟩
  rcases created.room with resident | ⟨j, unused⟩
  · exact resident missing
  · exact full j unused

/-- `iget` of the new inode, on the way of `namei`. -/
theorem newSlot (created : Created s t i path) {v : State} (same : SameTable t v) :
    Yields (iget rootdev (t.inode i).inum) v fun j u => j = i ∧ Holding v u i (t.inode i).inum := by
  have resident : findSlot v rootdev (t.inode i).inum = some i := by
    rw [same.findSlot_eq]
    exact created.resident
  have idle : ∀ j, (v.inode j).busy = false := fun j => (same.busy j).trans (created.idle j)
  have ready := same.bio.ready created.orderly.ready
  have taken := (iget_ends (t.inode i).inum ready idle).yields (by
    rintro _ ⟨missing, -⟩
    rw [resident] at missing
    cases missing)
  obtain ⟨j, u, run, holding⟩ := taken
  refine ⟨j, u, run, ?_⟩
  obtain ⟨ip, slot, -⟩ := iget_ensures rootdev (t.inode i).inum ready j u run
  rcases slot with ⟨found, -, -⟩ | ⟨missing, -, -⟩
  · rw [resident] at found
    cases found
    exact ⟨rfl, holding⟩
  · rw [resident] at missing
    cases missing

/-- `namei` of a string without a slash finds the inode that was entered under
it. -/
theorem namei_new (tidy : Tidy s) (created : Created s t i path) (short : path.length < DIRSIZ)
    (nonempty : path ≠ []) (noNul : 0 ∉ path) (noSlash : slash ∉ path) (behind : List UInt8)
    (inArea : InArea s 1) (found : findEntry (dirEntries t.disk (inodeOf t 1)) path =
      some (UInt16.ofNat (t.inode i).inum.toNat)) :
    Yields (namei (path ++ 0 :: behind)) t fun result u =>
      result = some i ∧ Holding t u i (t.inode i).inum := by
  have rootDir : (inodeOf t 1).type = T_DIR := created.root.type.trans created.rootDir
  have direct := (created.closed tidy short).direct 1 inArea rootDir
  have ok : IsName path := ⟨noSlash, noNul⟩
  unfold namei
  refine Yields.seq created.rootSlot ?_
  intro dp u holding
  have skip : skipSlashes (path ++ 0 :: behind) = path ++ 0 :: behind := by
    obtain ⟨c, rest, rfl⟩ := List.exists_cons_of_ne_nil nonempty
    have head : c ≠ slash := fun same => noSlash (by simp [same])
    simp [skipSlashes, head]
  rw [skip]
  obtain ⟨v, same, turn⟩ := nameiWalk_lookup behind (Or.inl rfl) ok nonempty created.orderly.ready
    created.idle rootDir direct holding (path ++ 0 :: behind).length
  refine Yields.congr turn ?_
  rw [found]
  have number : UInt32.ofNat (UInt16.ofNat (t.inode i).inum.toNat).toNat = (t.inode i).inum := by
    rw [created.narrow tidy]
    exact UInt32.ofNat_toNat
  simp only [number]
  refine Yields.seq (created.newSlot same) ?_
  rintro _ w ⟨rfl, held⟩
  have stop : skipSlashes (0 :: behind) = 0 :: behind := rfl
  rw [stop, List.length_append, List.length_cons, ← Nat.add_assoc]
  exact ⟨_, w, nameiWalk_end _ _ behind w, rfl, same.holding held⟩

end Created

end Gcgos.Fs
