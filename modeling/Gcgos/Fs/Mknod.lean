import Gcgos.Fs.Ialloc

/-!
# One more entry in a directory

`mknod` on a directory whose entries stand in a row from its start: it takes an
unused inode, writes it, fills the first unused entry and counts it in the size
of the directory. The entry keeps the low sixteen bits of the inode number.
-/

set_option autoImplicit false

namespace Gcgos.Fs

open Act Bio ByteMap

/-! ## A packed directory -/

/-- Entry `j` of a directory, counted over all its blocks. -/
def direntAt (disk : Nat → Block) (dp : Inode) (j : Nat) : UInt16 × List UInt8 :=
  ((disk (dp.addrs (addrSlot (j / direntsPerBlock))).toNat).direntInum (j % direntsPerBlock),
    (disk (dp.addrs (addrSlot (j / direntsPerBlock))).toNat).direntName (j % direntsPerBlock))

/-- The first `live` entries are in use, they make up the size, and the others
of the directory's blocks are zero. -/
structure Packed (disk : Nat → Block) (dp : Inode) (live : Nat) : Prop where
  direct : dp.size.toNat ≤ NDIRECT * BSIZE
  size : dp.size.toNat = direntSize * live
  used : ∀ j, j < live → (direntAt disk dp j).1 ≠ 0
  blank : ∀ j, live ≤ j → j < direntsPerBlock * dirBlocks dp.size →
    direntAt disk dp j = (0, List.replicate DIRSIZ 0)

theorem direntFree_eq_some {data : Block} {fuel k j : Nat} (lower : k ≤ j) (upper : j < k + fuel)
    (free : data.direntInum j = 0) (before : ∀ i, k ≤ i → i < j → data.direntInum i ≠ 0) :
    direntFree data fuel k = some j := by
  induction fuel generalizing k with
  | zero => omega
  | succ fuel ih =>
      unfold direntFree
      by_cases here : k = j
      · subst here
        rw [if_pos free]
      · rw [if_neg (before k le_rfl (by omega))]
        exact ih (by omega) (by omega) fun i least most => before i (by omega) most

theorem direntFree_eq_none {data : Block} {fuel k : Nat}
    (used : ∀ i, k ≤ i → i < k + fuel → data.direntInum i ≠ 0) : direntFree data fuel k = none := by
  induction fuel generalizing k with
  | zero => rfl
  | succ fuel ih =>
      unfold direntFree
      rw [if_neg (used k le_rfl (by omega))]
      exact ih fun i least most => used i (by omega) (by omega)

/-- The entry behind the last one in use is the first that is unused. -/
theorem Packed.firstUnused {disk : Nat → Block} {dp : Inode} {live : Nat}
    (packed : Packed disk dp live) (room : live < direntsPerBlock * dirBlocks dp.size) :
    FirstUnused disk dp (live / direntsPerBlock) (live % direntsPerBlock) := by
  have place : ∀ b k, k < direntsPerBlock →
      (direntsPerBlock * b + k) / direntsPerBlock = b ∧
        (direntsPerBlock * b + k) % direntsPerBlock = k := by
    intro b k bound
    simp only [direntsPerBlock, BSIZE, direntSize] at *
    omega
  have inUse : ∀ b k, k < direntsPerBlock → direntsPerBlock * b + k < live →
      (disk (dp.addrs (addrSlot b)).toNat).direntInum k ≠ 0 := by
    intro b k bound below
    have used := packed.used _ below
    unfold direntAt at used
    rw [(place b k bound).1, (place b k bound).2] at used
    exact used
  refine ⟨?_, ?_, ?_⟩
  · simp only [direntsPerBlock, BSIZE, direntSize] at *
    omega
  · refine direntFree_eq_some (Nat.zero_le _) ?_ ?_ ?_
    · rw [Nat.zero_add]
      exact Nat.mod_lt _ (by decide)
    · exact congrArg Prod.fst (packed.blank live le_rfl room)
    · intro i _ below
      apply inUse
      · exact below.trans (Nat.mod_lt _ (by decide))
      · simp only [direntsPerBlock, BSIZE, direntSize] at *
        omega
  · intro b earlier
    apply direntFree_eq_none
    intro i _ below
    rw [Nat.zero_add] at below
    apply inUse b i below
    simp only [direntsPerBlock, BSIZE, direntSize] at *
    omega

theorem FirstUnused.congr {disk disk' : Nat → Block} {dp : Inode} {b k : Nat}
    (first : FirstUnused disk dp b k)
    (same : ∀ j, j < dirBlocks dp.size →
      disk' (dp.addrs (addrSlot j)).toNat = disk (dp.addrs (addrSlot j)).toNat) :
    FirstUnused disk' dp b k := by
  have last := first.block
  refine ⟨last, ?_, fun j earlier => ?_⟩
  · rw [same b last]
    exact first.entry
  · rw [same j (by omega)]
    exact first.before j earlier

/-! ## The disk part of `mknod` -/

/-- The bytes of a name that fits the field, with or without its NUL. -/
theorem nameBytes_fits {path : List UInt8} (behind : List UInt8) (noNul : 0 ∉ path) {fuel : Nat}
    (fits : path.length ≤ fuel) : nameBytes fuel (path ++ 0 :: behind) = .ok path := by
  rcases Nat.lt_or_eq_of_le fits with short | rfl
  · exact nameBytes_path behind noNul short
  · induction path with
    | nil => rfl
    | cons c path ih =>
        have head : c ≠ 0 := fun zero => noNul (by simp [zero])
        have rest := ih (fun member => noNul (List.mem_cons_of_mem c member)) le_rfl
        simp [nameBytes, head, rest]

theorem mknodScan_yields {s : Bio} (ready : s.Ready 1) (dp : Inode)
    (direct : dp.size.toNat ≤ NDIRECT * BSIZE) {b k : Nat} (first : FirstUnused s.sd.block dp b k)
    (fuel c : Nat) {u : Bio} (settled : Settled s u s.sd.block) (lower : c ≤ b)
    (turns : c + fuel = dirBlocks dp.size) :
    Yields (mknodScan dp fuel (512 * c)) u fun result t =>
      ∃ bp, result = some (512 * b, k, bp) ∧ Held s t bp (s.sd.block (dp.addrs (addrSlot b)).toNat) := by
  have last := first.block
  induction fuel generalizing c u with
  | zero => omega
  | succ fuel ih =>
      have inside : 512 * c < dp.size.toNat := by
        unfold dirBlocks at turns
        omega
      have bound : c < NDIRECT := by
        simp only [NDIRECT, BSIZE] at *
        omega
      have blockNumber : 512 * c / 512 = c := Nat.mul_div_cancel_left c (by decide)
      unfold mknodScan
      rw [if_pos inside, blockNumber]
      refine Yields.step (bmap_direct dp bound u) ?_
      refine Yields.seq (bread_yields dp.dev _ (settled.ready ready)) ?_
      intro bp t heldHere
      have held := settled.held heldHere
      rw [settled.disk] at held
      refine Yields.seq (bufData_yields held) ?_
      rintro data t ⟨rfl, rfl⟩
      by_cases here : c = b
      · subst here
        rw [first.entry]
        exact ⟨_, t, rfl, bp, rfl, held⟩
      · rw [first.before c (by omega)]
        refine Yields.seq held.release ?_
        intro _ v released
        exact ih (c + 1) released (by omega) (by omega)

theorem mknodEnter_yields {s : Bio} (ready : s.Ready 1) (dp : Inode) (inum : UInt32)
    {path : List UInt8} (behind : List UInt8) (noNul : 0 ∉ path) (fits : path.length ≤ DIRSIZ)
    (direct : dp.size.toNat ≤ NDIRECT * BSIZE) {b k : Nat} (first : FirstUnused s.sd.block dp b k) :
    Yields (mknodEnter dp inum (path ++ 0 :: behind)) s fun _ t =>
      Settled s t (Function.update s.sd.block (dp.addrs (addrSlot b)).toNat
        ((s.sd.block (dp.addrs (addrSlot b)).toNat).enter k (UInt16.ofNat inum.toNat) path)) := by
  have bound : b < NDIRECT := by
    have last := first.block
    unfold dirBlocks at last
    simp only [NDIRECT, BSIZE] at *
    omega
  have blockNumber : 512 * b / 512 = b := Nat.mul_div_cancel_left b (by decide)
  unfold mknodEnter
  refine Yields.seq (mknodScan_yields ready dp direct first _ 0 (Settled.refl s) (Nat.zero_le _)
    (Nat.zero_add _)) ?_
  rintro _ t ⟨bp, rfl, held⟩
  refine Yields.seq (bufData_yields held) ?_
  rintro data t ⟨rfl, rfl⟩
  refine Yields.step (by simp only [liftExcept, nameBytes_fits behind noNul fits]; rfl) ?_
  refine Yields.seq (setBufData_yields held _) ?_
  intro _ v heldNew
  rw [blockNumber]
  refine Yields.step (bmap_direct dp bound v) ?_
  exact bwrite_brelse_yields heldNew dp.dev _

/-! ## Looking names up in a filled block -/

theorem findEntry_map_congr {l : List Nat} {f g : Nat → UInt16 × List UInt8} {name : List UInt8}
    (same : ∀ j ∈ l, f j = g j ∨
      (¬((f j).1 ≠ 0 ∧ (f j).2 = name) ∧ ¬((g j).1 ≠ 0 ∧ (g j).2 = name))) :
    findEntry (l.map f) name = findEntry (l.map g) name := by
  induction l with
  | nil => rfl
  | cons j l ih =>
      have rest := ih fun i member => same i (List.mem_cons_of_mem j member)
      have split : ∀ h : Nat → UInt16 × List UInt8, findEntry ((j :: l).map h) name =
          (findEntry [h j] name).or (findEntry (l.map h) name) :=
        fun h => findEntry_append [h j] (l.map h) name
      rw [split f, split g, rest]
      rcases same j List.mem_cons_self with equal | ⟨missF, missG⟩
      · rw [equal]
      · simp only [findEntry, List.find?_cons, List.find?_nil, missF, missG, decide_false]

/-- The other names are found as before. -/
theorem findEntry_enter_other {data : Block} {k : Nat} {inum : UInt16} {path name : List UInt8}
    (fits : path.length ≤ DIRSIZ) (unused : data.direntInum k = 0)
    (alone : entryName ((data.enter k inum path).direntName k) = path) (other : name ≠ path) :
    findEntry (blockEntries (data.enter k inum path)) name =
      findEntry (blockEntries data) name := by
  apply findEntry_map_congr
  intro j _
  by_cases here : j = k
  · subst here
    right
    refine ⟨?_, fun hit => hit.1 unused⟩
    rintro ⟨-, same⟩
    exact other (same.symm.trans alone)
  · left
    obtain ⟨number, field⟩ : (data.enter k inum path).direntInum j = data.direntInum j ∧
        (data.enter k inum path).direntName j = data.direntName j :=
      Block.dirent_enter_other here fits
    rw [number, field]

/-- A blank entry bears the name that is entered, of up to `DIRSIZ` bytes. -/
theorem entryName_enter_blank {data : Block} {k : Nat} {inum : UInt16} {path : List UInt8}
    (bound : k < direntsPerBlock) (fits : path.length ≤ DIRSIZ) (noNul : 0 ∉ path)
    (blank : data.direntName k = List.replicate DIRSIZ 0) :
    entryName ((data.enter k inum path).direntName k) = path := by
  rw [Block.direntName_enter bound fits, entryName_append _ noNul, blank, List.drop_replicate]
  have nothing : ∀ n, entryName (List.replicate n 0) = [] := by
    intro n
    cases n <;> rfl
  rw [nothing, List.append_nil]

/-! ## The call -/

/-- `ialloc` loads a free slot with the inode it takes. -/
theorem ialloc_loads {s : State} {n : Nat} (dev : UInt32) (type : UInt16) (ready : s.bio.Ready 1)
    (least : LeastFree s.disk n) (absent : findSlot s dev (UInt32.ofNat n) = none)
    (room : freeSlot s ≠ none) :
    Yields (ialloc dev type) s fun i t => (s.inode i).count = 0 ∧
      Wrote s t i (allocOnDisk s.disk n type)
        ({ dinodeAt s.disk n with type := type }.load dev (UInt32.ofNat n)) := by
  obtain ⟨taken, b, run, same, settled⟩ := iallocDisk_takes dev type ready least
  subst same
  have bound := (least.free.2.1).trans (inodeCount_lt s.disk)
  have word : (UInt32.ofNat taken).toNat = taken :=
    UInt32.toNat_ofNat_of_lt' (bound.trans (by decide))
  rw [Yields, ialloc_iget run]
  rcases iget_outcome (s := { s with bio := b }) dev (UInt32.ofNat taken) (settled.ready ready) with
    yields | ⟨i, found, -⟩ | ⟨-, full, -⟩
  · obtain ⟨i, t, returned, ip, slot, wrote⟩ := yields
    rcases slot with ⟨found, -⟩ | ⟨-, free, rfl⟩
    · exact absurd (absent.symm.trans found) (by simp)
    · have disk : ({ s with bio := b } : State).disk = allocOnDisk s.disk taken type :=
        settled.disk
      rw [disk, word, dinodeAt_allocOnDisk] at wrote
      exact ⟨i, t, returned, free, settled.trans wrote.bio, wrote.inode, wrote.cons, wrote.wakeups⟩
  · exact absurd (absent.symm.trans found) (by simp)
  · exact absurd full room

/-- What a call of `mknod` for a directory entry can rely on: the directory is
an inode in use that the caller holds, its blocks lie behind the inodes, and
there is a free inode, a free slot of the table and a free entry. -/
structure DirReady (s : State) (dp : Fin NINODE) (live : Nat) : Prop where
  ready : s.bio.Ready 1
  held : 0 < (s.inode dp).count
  inArea : (s.inode dp).inum.toNat < inodeCount s.disk
  used : Used s
  packed : Packed s.disk (s.inode dp) live
  placed : ∀ b, b < dirBlocks (s.inode dp).size →
    inodeEnd (superOf s.disk) ≤ ((s.inode dp).addrs (addrSlot b)).toNat
  inode : ∃ n, FreeInum s.disk n
  slot : freeSlot s ≠ none
  room : live < direntsPerBlock * dirBlocks (s.inode dp).size

/-- The inode that `mknod` makes. -/
def newInode (disk : Nat → Block) (dev : UInt32) (n : Nat) (type major minor : UInt16) : Inode :=
  { (dinodeAt disk n).load dev (UInt32.ofNat n) with
    type := type, major := major, minor := minor, size := 0, nlink := 0 }

/-- The directory with one more entry in its size. -/
def grownDir (dir : Inode) : Inode := { dir with size := dir.size + UInt32.ofNat direntSize }

/-- The sectors after `mknod` has written the inode it makes. -/
def madeDisk (disk : Nat → Block) (dev : UInt32) (n : Nat) (type major minor : UInt16) :
    Nat → Block :=
  updateOnDisk (allocOnDisk disk n type) (newInode disk dev n type major minor)

/-- The sectors after `mknod` has taken inode `n` and filled entry `k` of block
`b`. -/
def mknodDisk (disk : Nat → Block) (dir : Inode) (n b k : Nat) (path : List UInt8)
    (type major minor : UInt16) : Nat → Block :=
  updateOnDisk (Function.update (madeDisk disk dir.dev n type major minor)
    (dir.addrs (addrSlot b)).toNat ((madeDisk disk dir.dev n type major minor
      (dir.addrs (addrSlot b)).toNat).enter k (UInt16.ofNat n) path)) (grownDir dir)

theorem DirReady.inodes {s : State} {dp : Fin NINODE} {live : Nat} (dir : DirReady s dp live) :
    inodeCount s.disk = (superOf s.disk).ninodes.toNat := by
  obtain ⟨n, positive, below, -⟩ := dir.inode
  unfold inodeCount intBound at *
  split
  · rfl
  · next negative =>
      rw [if_neg negative] at below
      omega

/-- No block of the directory holds inodes. -/
theorem DirReady.apart {s : State} {dp : Fin NINODE} {live : Nat} (dir : DirReady s dp live)
    {b m : Nat} (inside : b < dirBlocks (s.inode dp).size) (inArea : m < inodeCount s.disk) :
    ((s.inode dp).addrs (addrSlot b)).toNat ≠ IBLOCK m := by
  rw [dir.inodes] at inArea
  have sector := (IBLOCK_bounds inArea).2
  have behind := dir.placed b inside
  omega

theorem newInode_number {disk : Nat → Block} {n : Nat} (least : LeastFree disk n) (dev : UInt32)
    (type major minor : UInt16) : (newInode disk dev n type major minor).inum.toNat = n := by
  have bound := (least.free.2.1).trans (inodeCount_lt disk)
  exact UInt32.toNat_ofNat_of_lt' (bound.trans (by decide))

theorem DirReady.madeDisk_block {s : State} {dp : Fin NINODE} {live n : Nat}
    (dir : DirReady s dp live) (least : LeastFree s.disk n) {type major minor : UInt16} {b : Nat}
    (inside : b < dirBlocks (s.inode dp).size) :
    madeDisk s.disk (s.inode dp).dev n type major minor ((s.inode dp).addrs (addrSlot b)).toNat =
      s.disk ((s.inode dp).addrs (addrSlot b)).toNat := by
  have sector := dir.apart inside least.free.2.1
  unfold madeDisk
  rw [updateOnDisk_other (by rw [newInode_number least]; exact sector)]
  exact Function.update_of_ne sector _ _

/-- From `s` to `t` inode `n` was made, in slot `i`, and entered. -/
structure Made (s t : State) (dp i : Fin NINODE) (live n : Nat) (path : List UInt8)
    (type major minor : UInt16) : Prop where
  apart : i ≠ dp
  table : t.inode = Function.update (Function.update s.inode i
    (newInode s.disk (s.inode dp).dev n type major minor)) dp (grownDir (s.inode dp))
  settled : Settled s.bio t.bio (mknodDisk s.disk (s.inode dp) n (live / direntsPerBlock)
    (live % direntsPerBlock) path type major minor)

theorem mknod_yields {s : State} {dp : Fin NINODE} {live n : Nat} (dir : DirReady s dp live)
    (least : LeastFree s.disk n) {path : List UInt8} (behind : List UInt8) (noNul : 0 ∉ path)
    (fits : path.length ≤ DIRSIZ) (type major minor : UInt16) :
    Yields (mknod dp (path ++ 0 :: behind) type major minor) s fun i t =>
      Made s t dp i live n path type major minor := by
  have word : (UInt32.ofNat n).toNat = n :=
    newInode_number least (s.inode dp).dev type major minor
  have absent : findSlot s (s.inode dp).dev (UInt32.ofNat n) = none := by
    cases found : findSlot s (s.inode dp).dev (UInt32.ofNat n) with
    | none => rfl
    | some j =>
        obtain ⟨heldJ, -, same⟩ := findSlot_some found
        have inUse := dir.used j heldJ
        rw [same, word] at inUse
        exact absurd least.free.2.2 inUse
  have first := dir.packed.firstUnused dir.room
  have inside := first.block
  unfold mknod
  refine Yields.step (t := s) rfl ?_
  refine Yields.seq (ialloc_loads _ type dir.ready least absent dir.slot) ?_
  rintro i t ⟨free, taken⟩
  have apart : i ≠ dp := by
    rintro rfl
    exact absurd dir.held (by rw [free]; decide)
  refine Yields.seq (modifyInode_wrote _ taken) ?_
  intro _ u filled
  refine Yields.seq (iupdateSlot_wrote dir.ready filled) ?_
  intro _ v written
  refine Yields.step (t := v) (a := v.inode i) rfl ?_
  refine Yields.step (t := v) (a := v.inode dp) rfl ?_
  have dirSlot : v.inode dp = s.inode dp := written.other apart.symm
  have number : (v.inode i).inum.toNat = n := by
    rw [written.at_slot]
    exact word
  have disk : v.bio.sd.block = madeDisk s.disk (s.inode dp).dev n type major minor :=
    written.disk_eq
  have blocks : ∀ j, j < dirBlocks (s.inode dp).size →
      v.bio.sd.block ((s.inode dp).addrs (addrSlot j)).toNat =
        s.disk ((s.inode dp).addrs (addrSlot j)).toNat := by
    intro j below
    rw [disk]
    exact dir.madeDisk_block least below
  rw [dirSlot]
  refine Yields.seq (onBio_wrote dp (p := fun _ => True)
    ((mknodEnter_yields (written.bio.ready dir.ready) (s.inode dp) (v.inode i).inum behind noNul fits
      dir.packed.direct (first.congr blocks)).mono fun _ _ settled => ⟨trivial, settled⟩)) ?_
  rintro _ w ⟨-, entered⟩
  refine Yields.seq (modifyInode_wrote _ entered) ?_
  intro _ x sized
  refine Yields.seq (iupdateSlot_wrote (written.bio.ready dir.ready) sized) ?_
  intro _ y final
  rw [dirSlot, number, disk] at final
  refine ⟨i, y, rfl, apart, ?_, written.bio.trans final.bio⟩
  rw [final.inode, written.inode]
  rfl

/-! ## What the disk holds then -/

section

variable {s : State} {dp : Fin NINODE} {live n : Nat} {path : List UInt8} {type major minor : UInt16}

/-- The directory ends in the block of the new entry. -/
theorem DirReady.blocks (dir : DirReady s dp live) :
    dirBlocks (s.inode dp).size = live / direntsPerBlock + 1 ∧
      live / direntsPerBlock < NDIRECT := by
  have room := dir.room
  have size := dir.packed.size
  have direct := dir.packed.direct
  unfold dirBlocks at *
  simp only [direntsPerBlock, BSIZE, direntSize, NDIRECT] at *
  omega

theorem DirReady.grown (dir : DirReady s dp live) :
    (grownDir (s.inode dp)).size.toNat = direntSize * (live + 1) ∧
      (grownDir (s.inode dp)).size.toNat ≤ NDIRECT * BSIZE ∧
      dirBlocks (grownDir (s.inode dp)).size = dirBlocks (s.inode dp).size := by
  have size := dir.packed.size
  have blocks := dir.blocks
  have small : (s.inode dp).size.toNat + direntSize ≤ NDIRECT * BSIZE := by
    simp only [direntsPerBlock, BSIZE, direntSize, NDIRECT] at *
    omega
  have sum : (grownDir (s.inode dp)).size.toNat = (s.inode dp).size.toNat + direntSize :=
    (dirBlocks_grow small).1
  unfold dirBlocks at *
  simp only [direntsPerBlock, BSIZE, direntSize, NDIRECT] at *
  omega

/-- Before the directory's own inode is written. -/
theorem DirReady.entered_dinode (dir : DirReady s dp live) {m : Nat} (inArea : m < inodeCount s.disk)
    (disk : Nat → Block) (data : Block) :
    dinodeAt (Function.update disk ((s.inode dp).addrs (addrSlot (live / direntsPerBlock))).toNat data)
      m = dinodeAt disk m := by
  unfold dinodeAt
  rw [Function.update_of_ne (dir.apart (by rw [dir.blocks.1]; omega) inArea).symm]

theorem mknodDisk_dinode_other (dir : DirReady s dp live) (least : LeastFree s.disk n) {m : Nat}
    (inArea : m < inodeCount s.disk) (notNew : m ≠ n) (notDir : m ≠ (s.inode dp).inum.toNat) :
    dinodeAt (mknodDisk s.disk (s.inode dp) n (live / direntsPerBlock) (live % direntsPerBlock) path
      type major minor) m = dinodeAt s.disk m := by
  unfold mknodDisk
  rw [dinodeAt_updateOnDisk_other (show m ≠ (grownDir (s.inode dp)).inum.toNat from notDir),
    dir.entered_dinode inArea]
  unfold madeDisk
  rw [dinodeAt_updateOnDisk_other (by rw [newInode_number least]; exact notNew),
    dinodeAt_allocOnDisk_other notNew]

theorem mknodDisk_size (dir : DirReady s dp live) :
    (dinodeAt (mknodDisk s.disk (s.inode dp) n (live / direntsPerBlock) (live % direntsPerBlock) path
      type major minor) (s.inode dp).inum.toNat).size.toNat = direntSize * (live + 1) := by
  unfold mknodDisk
  rw [show (s.inode dp).inum.toNat = (grownDir (s.inode dp)).inum.toNat from rfl,
    dinodeAt_updateOnDisk]
  exact dir.grown.1

/-- The blocks of the directory: the last one has the entry, and the others are
as they were. -/
theorem mknodDisk_block (dir : DirReady s dp live) (least : LeastFree s.disk n) {b : Nat}
    (inside : b < dirBlocks (s.inode dp).size) :
    mknodDisk s.disk (s.inode dp) n (live / direntsPerBlock) (live % direntsPerBlock) path
      type major minor ((s.inode dp).addrs (addrSlot b)).toNat =
      if b = live / direntsPerBlock then
        (s.disk ((s.inode dp).addrs (addrSlot b)).toNat).enter (live % direntsPerBlock)
          (UInt16.ofNat n) path
      else s.disk ((s.inode dp).addrs (addrSlot b)).toNat := by
  have first := dir.packed.firstUnused dir.room
  unfold mknodDisk
  rw [updateOnDisk_other (show _ ≠ IBLOCK (grownDir (s.inode dp)).inum.toNat from
    dir.apart inside dir.inArea)]
  split
  · next here =>
      subst here
      rw [Function.update_self, dir.madeDisk_block least inside]
  · next other =>
      have earlier : b < live / direntsPerBlock := by
        have last := dir.blocks.1
        omega
      rw [Function.update_of_ne (first.apart earlier), dir.madeDisk_block least inside]

/-- The entries of the directory, one by one. -/
theorem mknodDisk_dirent (dir : DirReady s dp live) (least : LeastFree s.disk n)
    (fits : path.length ≤ DIRSIZ) {j : Nat}
    (inside : j < direntsPerBlock * dirBlocks (s.inode dp).size) :
    direntAt (mknodDisk s.disk (s.inode dp) n (live / direntsPerBlock) (live % direntsPerBlock) path
      type major minor) (grownDir (s.inode dp)) j =
      if j = live then (UInt16.ofNat n, path ++ List.replicate (DIRSIZ - path.length) 0)
      else direntAt s.disk (s.inode dp) j := by
  have below : j / direntsPerBlock < dirBlocks (s.inode dp).size :=
    Nat.div_lt_of_lt_mul inside
  have place : (j / direntsPerBlock = live / direntsPerBlock ∧
      j % direntsPerBlock = live % direntsPerBlock) ↔ j = live := by
    simp only [direntsPerBlock, BSIZE, direntSize]
    omega
  have bound : live % direntsPerBlock < direntsPerBlock := Nat.mod_lt _ (by decide)
  unfold direntAt
  rw [show (grownDir (s.inode dp)).addrs = (s.inode dp).addrs from rfl,
    mknodDisk_block dir least below]
  by_cases block : j / direntsPerBlock = live / direntsPerBlock
  · rw [if_pos block, block]
    by_cases here : j % direntsPerBlock = live % direntsPerBlock
    · have blank : direntAt s.disk (s.inode dp) live = (0, List.replicate DIRSIZ 0) :=
        dir.packed.blank live le_rfl dir.room
      have field := congrArg Prod.snd blank
      simp only [direntAt] at field
      rw [if_pos (place.mp ⟨block, here⟩), here, Block.direntInum_enter bound,
        Block.direntName_enter bound fits, field, List.drop_replicate]
    · rw [if_neg fun same => here (place.mpr same).2]
      rw [(Block.dirent_enter_other here fits).1, (Block.dirent_enter_other here fits).2]
  · rw [if_neg block, if_neg fun same => block (place.mpr same).1]

/-! ## Looking names up -/

/-- What `namei` finds for one component in the directory of a slot. -/
def dirLookup (s : State) (dp : Fin NINODE) (cp : List UInt8) :
    Except Fault (Option (UInt16 × Nat)) :=
  (dirScan (s.inode dp) cp (dirBlocks (s.inode dp).size) 0 s.bio).map Prod.fst

theorem dirLookup_eq (ready : s.bio.Ready 1) (direct : (s.inode dp).size.toNat ≤ NDIRECT * BSIZE)
    {target : List UInt8} (ok : IsName target) {stop : UInt8} (ends : stop = 0 ∨ stop = slash)
    (behind : List UInt8) :
    dirLookup s dp (target ++ stop :: behind) =
      .ok ((findEntry (dirEntries s.disk (s.inode dp)) target).map
        fun inum => (inum, target.length)) := by
  obtain ⟨hit, u, run, found, -⟩ := dirScan_finds (s.inode dp) behind ends ok ready direct
    (dirBlocks (s.inode dp).size) 0 (Settled.refl s.bio) (Nat.zero_add _)
  unfold dirLookup
  rw [Nat.mul_zero] at run
  rw [run, found]
  rfl

theorem dirEntries_split (disk : Nat → Block) (dir : Inode) {b : Nat}
    (blocks : dirBlocks dir.size = b + 1) :
    dirEntries disk dir =
      dirEntriesFrom disk dir 0 b ++ blockEntries (disk (dir.addrs (addrSlot b)).toNat) := by
  unfold dirEntries
  rw [blocks, dirEntriesFrom_append, Nat.zero_add, dirEntriesFrom_succ]
  simp [dirEntriesFrom]

/-- The entries after `mknod`: those of the blocks in front, and of the filled
block. -/
theorem mknodDisk_entries (dir : DirReady s dp live) (least : LeastFree s.disk n) :
    dirEntries (mknodDisk s.disk (s.inode dp) n (live / direntsPerBlock) (live % direntsPerBlock) path
        type major minor) (grownDir (s.inode dp)) =
      dirEntriesFrom s.disk (s.inode dp) 0 (live / direntsPerBlock) ++
        blockEntries ((s.disk ((s.inode dp).addrs (addrSlot (live / direntsPerBlock))).toNat).enter
          (live % direntsPerBlock) (UInt16.ofNat n) path) := by
  have blocks := dir.blocks.1
  rw [dirEntries_split _ _ (dir.grown.2.2.trans blocks),
    show (grownDir (s.inode dp)).addrs = (s.inode dp).addrs from rfl,
    mknodDisk_block dir least (by omega), if_pos rfl]
  congr 1
  unfold dirEntriesFrom
  apply List.flatMap_congr
  intro b member
  have earlier : b < live / direntsPerBlock := by
    have := (List.mem_range'_1.mp member).2
    omega
  rw [show (grownDir (s.inode dp)).addrs = (s.inode dp).addrs from rfl,
    mknodDisk_block dir least (by omega), if_neg earlier.ne]

namespace Made

variable {t : State} {i : Fin NINODE}

theorem dirSlot (made : Made s t dp i live n path type major minor) :
    t.inode dp = grownDir (s.inode dp) := by
  rw [made.table, Function.update_self]

theorem newSlot (made : Made s t dp i live n path type major minor) :
    t.inode i = newInode s.disk (s.inode dp).dev n type major minor := by
  rw [made.table, Function.update_of_ne made.apart, Function.update_self]

theorem number (made : Made s t dp i live n path type major minor) (least : LeastFree s.disk n) :
    (t.inode i).inum.toNat = n := by
  rw [made.newSlot]
  exact newInode_number least _ _ _ _

theorem disk_eq (made : Made s t dp i live n path type major minor) :
    t.disk = mknodDisk s.disk (s.inode dp) n (live / direntsPerBlock) (live % direntsPerBlock) path
      type major minor := made.settled.disk

/-- The block in which the entry is. -/
def lastBlock (s : State) (dp : Fin NINODE) (live : Nat) : Block :=
  s.disk ((s.inode dp).addrs (addrSlot (live / direntsPerBlock))).toNat

theorem lookup (made : Made s t dp i live n path type major minor) (dir : DirReady s dp live)
    (least : LeastFree s.disk n) {target : List UInt8} (ok : IsName target) {stop : UInt8}
    (ends : stop = 0 ∨ stop = slash) (behind : List UInt8) :
    dirLookup t dp (target ++ stop :: behind) =
      .ok (((findEntry (dirEntriesFrom s.disk (s.inode dp) 0 (live / direntsPerBlock)) target).or
        (findEntry (blockEntries ((lastBlock s dp live).enter (live % direntsPerBlock)
          (UInt16.ofNat n) path)) target)).map fun inum => (inum, target.length)) := by
  have direct : (t.inode dp).size.toNat ≤ NDIRECT * BSIZE := by
    rw [made.dirSlot]
    exact dir.grown.2.1
  rw [dirLookup_eq (made.settled.ready dir.ready) direct ok ends, made.disk_eq, made.dirSlot,
    mknodDisk_entries dir least, findEntry_append]
  rfl

end Made

theorem DirReady.lookup (dir : DirReady s dp live) {target : List UInt8} (ok : IsName target)
    {stop : UInt8} (ends : stop = 0 ∨ stop = slash) (behind : List UInt8) :
    dirLookup s dp (target ++ stop :: behind) =
      .ok (((findEntry (dirEntriesFrom s.disk (s.inode dp) 0 (live / direntsPerBlock)) target).or
        (findEntry (blockEntries (Made.lastBlock s dp live)) target)).map
          fun inum => (inum, target.length)) := by
  rw [dirLookup_eq dir.ready dir.packed.direct ok ends, dirEntries_split _ _ dir.blocks.1,
    findEntry_append]
  rfl

/-- The entry that is filled bears the name. -/
theorem DirReady.alone (dir : DirReady s dp live) (fits : path.length ≤ DIRSIZ) (noNul : 0 ∉ path)
    (inum : UInt16) : entryName (((Made.lastBlock s dp live).enter (live % direntsPerBlock) inum
      path).direntName (live % direntsPerBlock)) = path :=
  entryName_enter_blank (Nat.mod_lt live (by decide)) fits noNul
    (congrArg Prod.snd (dir.packed.blank live le_rfl dir.room))

namespace Made

variable {t : State} {i : Fin NINODE}

/-- The other names are found as before. -/
theorem lookup_other (made : Made s t dp i live n path type major minor) (dir : DirReady s dp live)
    (least : LeastFree s.disk n) (fits : path.length ≤ DIRSIZ) (noNul : 0 ∉ path)
    {target : List UInt8} (ok : IsName target) (other : target ≠ path) {stop : UInt8}
    (ends : stop = 0 ∨ stop = slash) (behind : List UInt8) :
    dirLookup t dp (target ++ stop :: behind) = dirLookup s dp (target ++ stop :: behind) := by
  have unused : (lastBlock s dp live).direntInum (live % direntsPerBlock) = 0 :=
    congrArg Prod.fst (dir.packed.blank live le_rfl dir.room)
  rw [made.lookup dir least ok ends, dir.lookup ok ends,
    findEntry_enter_other fits unused (dir.alone fits noNul _) other]

/-- The new name, when it was not there and the entry counts as used. -/
theorem lookup_new (made : Made s t dp i live n path type major minor) (dir : DirReady s dp live)
    (least : LeastFree s.disk n) (fits : path.length ≤ DIRSIZ) (ok : IsName path)
    (used : UInt16.ofNat n ≠ 0) {stop : UInt8} (ends : stop = 0 ∨ stop = slash)
    (behind : List UInt8) (missing : dirLookup s dp (path ++ stop :: behind) = .ok none) :
    dirLookup t dp (path ++ stop :: behind) = .ok (some (UInt16.ofNat n, path.length)) := by
  rw [dir.lookup ok ends, Except.ok.injEq, Option.map_eq_none_iff, Option.or_eq_none_iff] at missing
  rw [made.lookup dir least ok ends, missing.1, Option.none_or,
    findEntry_enter (Nat.mod_lt live (by decide)) fits used (dir.alone fits ok.noZero _) missing.2]
  rfl

theorem packed (made : Made s t dp i live n path type major minor) (dir : DirReady s dp live)
    (least : LeastFree s.disk n) (fits : path.length ≤ DIRSIZ) (used : UInt16.ofNat n ≠ 0) :
    Packed t.disk (t.inode dp) (live + 1) := by
  obtain ⟨size, direct, blocks⟩ := dir.grown
  rw [made.disk_eq, made.dirSlot]
  refine ⟨direct, size, ?_, ?_⟩
  · intro j below
    have inside : j < direntsPerBlock * dirBlocks (s.inode dp).size := by
      have room := dir.room
      omega
    rw [mknodDisk_dirent dir least fits inside]
    split
    · exact used
    · exact dir.packed.used j (by omega)
  · intro j above inside
    rw [blocks] at inside
    rw [mknodDisk_dirent dir least fits inside, if_neg (by omega)]
    exact dir.packed.blank j (by omega) inside

end Made

end

/-- What `mknod` is to have done when it returns slot `i`. -/
structure AddedEntry (s t : State) (dp i : Fin NINODE) (live : Nat) (name : List UInt8)
    (type major minor : UInt16) : Prop where
  free : FreeInum s.disk (t.inode i).inum.toNat
  inode : (t.inode i).type = type ∧ (t.inode i).major = major ∧ (t.inode i).minor = minor ∧
    (t.inode i).size = 0
  found : ∀ stop behind, stop = 0 ∨ stop = slash →
    dirLookup s dp (name ++ stop :: behind) = .ok none →
    ∃ entry : UInt16, entry.toNat = (t.inode i).inum.toNat ∧
      dirLookup t dp (name ++ stop :: behind) = .ok (some (entry, name.length))
  others : ∀ other, IsName other → other ≠ name → ∀ stop behind, stop = 0 ∨ stop = slash →
    ∃ hit, dirLookup s dp (other ++ stop :: behind) = .ok hit ∧
      dirLookup t dp (other ++ stop :: behind) = .ok hit
  dinodes : ∀ m, m < inodeCount s.disk → m ≠ (t.inode i).inum.toNat →
    m ≠ (s.inode dp).inum.toNat → dinodeAt t.disk m = dinodeAt s.disk m
  grown : (t.inode dp).size.toNat = (s.inode dp).size.toNat + direntSize ∧
    (dinodeAt t.disk (s.inode dp).inum.toNat).size = (t.inode dp).size
  packed : Packed t.disk (t.inode dp) (live + 1)

/-- `mknod` adds one entry to a directory, when the number of the inode that it
takes fits the entry. -/
theorem mknod_adds_entry {s : State} {dp : Fin NINODE} {live n : Nat} (dir : DirReady s dp live)
    (least : LeastFree s.disk n) (narrow : n < 2 ^ 16) {name : List UInt8} (ok : IsName name)
    (fits : name.length ≤ DIRSIZ) (behind : List UInt8) (type major minor : UInt16) :
    Yields (mknod dp (name ++ 0 :: behind) type major minor) s fun i t =>
      AddedEntry s t dp i live name type major minor := by
  refine (mknod_yields dir least behind ok.noZero fits type major minor).mono ?_
  intro i t made
  have number := made.number least
  have entry : (UInt16.ofNat n).toNat = n := UInt16.toNat_ofNat_of_lt' narrow
  have used : UInt16.ofNat n ≠ 0 := by
    intro zero
    rw [zero, UInt16.toNat_zero] at entry
    have positive := least.free.1
    omega
  constructor
  case free =>
    rw [number]
    exact least.free
  case inode =>
    rw [made.newSlot]
    exact ⟨rfl, rfl, rfl, rfl⟩
  case found =>
    intro stop behind ends missing
    exact ⟨UInt16.ofNat n, entry.trans number.symm,
      made.lookup_new dir least fits ok used ends behind missing⟩
  case others =>
    intro other okOther different stop behind ends
    refine ⟨_, dir.lookup okOther ends behind, ?_⟩
    rw [made.lookup_other dir least fits ok.noZero okOther different ends,
      dir.lookup okOther ends]
  case dinodes =>
    intro m inArea notNew notDir
    rw [number] at notNew
    rw [made.disk_eq]
    exact mknodDisk_dinode_other dir least inArea notNew notDir
  case grown =>
    have size := dir.packed.size
    obtain ⟨sum, -, -⟩ := dir.grown
    rw [made.dirSlot, made.disk_eq]
    refine ⟨by rw [sum, size, Nat.mul_succ], UInt32.toNat_inj.mp ?_⟩
    rw [mknodDisk_size dir, sum]
  case packed => exact made.packed dir least fits used

/-! ## Two cards -/

/-- The type of a dinode on the card below. -/
def cardType (count m : Nat) : UInt16 := if m < count then T_DIR else 0

/-- A directory block with the entry `.` for inode 1. -/
def dotBlock : Block := (Block.zero.putU16 0 1).put 2 [46]

/-- A card on which the inodes below `count` are in use and the next is free. -/
def countCard (count : Nat) : Nat → Block := fun b =>
  if b = 1 then Block.zero.putU32 8 (UInt32.ofNat (count + 1))
  else if b = 2 ^ 20 then dotBlock
  else ((Block.zero.putU16 (dinodeSize * 0) (cardType count (3 * (b - 2)))).putU16 (dinodeSize * 1)
    (cardType count (3 * (b - 2) + 1))).putU16 (dinodeSize * 2) (cardType count (3 * (b - 2) + 2))

def dotInode : Inode :=
  { Inode.zero with
    dev := rootdev, inum := 1, count := 1, busy := true, type := T_DIR, size := 16
    addrs := fun _ => 0x100000 }

/-- Over that card, inode 1 is open in slot 0. -/
def countState (count : Nat) : State :=
  { State.loaded (countCard count) with
    inode := Function.update (fun _ => Inode.zero) ⟨0, by decide⟩ dotInode }

theorem countState_slot (count : Nat) (j : Fin NINODE) :
    (countState count).inode j = if j = ⟨0, by decide⟩ then dotInode else Inode.zero := by
  unfold countState
  exact Function.update_apply (fun _ => Inode.zero) ⟨0, by decide⟩ dotInode j

theorem countCard_type {count m : Nat} (bound : m < 2 ^ 20) :
    (dinodeAt (countCard count) m).type = cardType count m := by
  have sector : IBLOCK m = m / 3 + 2 := rfl
  have super : IBLOCK m ≠ 1 := by omega
  have data : IBLOCK m ≠ 2 ^ 20 := by omega
  unfold dinodeAt countCard
  rw [if_neg super, if_neg data, sector, Nat.add_sub_cancel]
  have cases : m % 3 = 0 ∨ m % 3 = 1 ∨ m % 3 = 2 := by omega
  simp only [Block.dinode, IPB]
  rcases cases with zero | one | two
  · rw [zero, show 3 * (m / 3) = m by omega, Block.u16_putU16_apart (by decide),
      Block.u16_putU16_apart (by decide), Block.u16_putU16 (by decide)]
  · rw [one, show 3 * (m / 3) + 1 = m by omega, Block.u16_putU16_apart (by decide),
      Block.u16_putU16 (by decide)]
  · rw [two, show 3 * (m / 3) + 2 = m by omega, Block.u16_putU16 (by decide)]

section

variable {count : Nat}

theorem countCard_ninodes (small : count ≤ 2 ^ 16) :
    (superOf (countCard count)).ninodes.toNat = count + 1 := by
  unfold superOf countCard
  rw [if_pos rfl]
  simp only [Block.supperblock]
  rw [Block.u32_putU32 (by decide)]
  exact UInt32.toNat_ofNat_of_lt' (lt_of_le_of_lt (Nat.succ_le_succ small) (by decide))

theorem countCard_inodes (small : count ≤ 2 ^ 16) : inodeCount (countCard count) = count + 1 := by
  have number := countCard_ninodes small
  have fits : (superOf (countCard count)).ninodes.toNat < 2 ^ 31 := by omega
  exact (if_pos fits).trans number

theorem countCard_least (some_inode : 1 ≤ count) (small : count ≤ 2 ^ 16) :
    LeastFree (countCard count) count := by
  have below : count < 2 ^ 20 := lt_of_le_of_lt small (by decide)
  refine ⟨⟨some_inode, by rw [countCard_inodes small]; omega, ?_⟩, ?_⟩
  · rw [countCard_type below, cardType, if_neg (lt_irrefl count)]
  · rintro m ⟨-, inside, unused⟩
    by_contra smaller
    rw [countCard_type (by omega), cardType, if_pos (by omega)] at unused
    exact absurd unused (by decide)

theorem countState_dirReady (some_inode : 2 ≤ count) (small : count ≤ 2 ^ 16) :
    DirReady (countState count) ⟨0, by decide⟩ 1 := by
  have least := countCard_least (by omega : 1 ≤ count) small
  have facts : dotBlock.direntInum 0 ≠ 0 ∧ ∀ k, k < direntsPerBlock → 1 ≤ k →
      dotBlock.direntInum k = 0 ∧ dotBlock.direntName k = List.replicate DIRSIZ 0 := by
    decide +kernel
  have slots : ∀ j, 0 < ((countState count).inode j).count → j = ⟨0, by decide⟩ := by
    intro j inUse
    by_contra other
    rw [countState_slot, if_neg other] at inUse
    exact absurd inUse (by decide)
  have open_dir : (countState count).inode ⟨0, by decide⟩ = dotInode := by
    rw [countState_slot, if_pos rfl]
  have entries : ∀ j, j < direntsPerBlock →
      direntAt (countState count).disk dotInode j =
        (dotBlock.direntInum j, dotBlock.direntName j) := by
    intro j bound
    unfold direntAt
    rw [Nat.div_eq_of_lt bound, Nat.mod_eq_of_lt bound]
    rfl
  constructor
  case ready => exact loaded_ready (countCard count)
  case held =>
    rw [open_dir]
    decide
  case inArea =>
    rw [open_dir]
    exact lt_of_lt_of_eq (show 1 < count + 1 by omega) (countCard_inodes small).symm
  case used =>
    intro j inUse
    rw [slots j inUse, open_dir]
    have type : (dinodeAt (countCard count) 1).type = T_DIR := by
      rw [countCard_type (by decide), cardType, if_pos (by omega)]
    exact fun zero => absurd (type.symm.trans zero) (by decide)
  case packed =>
    rw [open_dir]
    refine ⟨by decide, rfl, ?_, ?_⟩
    · intro j below
      obtain rfl : j = 0 := by omega
      rw [entries 0 (by decide)]
      exact facts.1
    · intro j above inside
      have bound : j < direntsPerBlock := lt_of_lt_of_eq inside (by decide)
      rw [entries j bound, (facts.2 j bound above).1, (facts.2 j bound above).2]
  case placed =>
    rw [open_dir]
    intro b _
    have number := countCard_ninodes small
    show (superOf (countCard count)).ninodes.toNat / IPB + 3 ≤ 2 ^ 20
    rw [number]
    simp only [IPB]
    omega
  case inode => exact ⟨count, least.free⟩
  case slot =>
    intro full
    have taken := List.find?_eq_none.mp full ⟨1, by decide⟩ (List.mem_finRange _)
    exact taken rfl
  case room =>
    rw [open_dir]
    decide

end

/-- The name `a` in a directory that has `.`: inode 2 is made. -/
theorem mknod_adds_second : Yields (mknod ⟨0, by decide⟩ ([97] ++ 0 :: []) T_DEV 1 2) (countState 2)
    fun i t => AddedEntry (countState 2) t ⟨0, by decide⟩ i 1 [97] T_DEV 1 2 :=
  mknod_adds_entry (countState_dirReady (by decide) (by decide))
    (countCard_least (by decide) (by decide)) (by decide) ⟨by decide, by decide⟩ (by decide) []
    T_DEV 1 2

/-- The least free inode is number 65536, which an entry cannot hold: the name
is not found. -/
theorem mknod_loses_wide_inode :
    DirReady (countState 65536) ⟨0, by decide⟩ 1 ∧
    ¬Yields (mknod ⟨0, by decide⟩ ([97] ++ 0 :: []) T_DEV 1 2) (countState 65536)
      fun i t => AddedEntry (countState 65536) t ⟨0, by decide⟩ i 1 [97] T_DEV 1 2 := by
  have dir : DirReady (countState 65536) ⟨0, by decide⟩ 1 :=
    countState_dirReady (by decide) (by decide)
  have least : LeastFree (countCard 65536) 65536 := countCard_least (by decide) (by decide)
  refine ⟨dir, ?_⟩
  rintro ⟨i, t, run, new⟩
  have ok : IsName [97] := ⟨by decide, by decide⟩
  have made := (mknod_yields dir least [] ok.noZero (by decide) T_DEV 1 2).ensures
    i t run
  have missing : dirLookup (countState 65536) ⟨0, by decide⟩ ([97] ++ 0 :: []) = .ok none := by
    have nothing : findEntry (blockEntries dotBlock) [97] = none := by decide +kernel
    have last : Made.lastBlock (countState 65536) ⟨0, by decide⟩ 1 = dotBlock := by
      unfold Made.lastBlock
      rw [countState_slot, if_pos rfl]
      rfl
    have front : findEntry (dirEntriesFrom (countState 65536).disk ((countState 65536).inode
        ⟨0, by decide⟩) 0 (1 / direntsPerBlock)) [97] = none := rfl
    rw [dir.lookup ok (Or.inl rfl), last, nothing, front]
    rfl
  obtain ⟨entry, same, -⟩ := new.found 0 [] (Or.inl rfl) missing
  have bound := entry.toNat_lt
  rw [made.number least] at same
  omega

end Gcgos.Fs
