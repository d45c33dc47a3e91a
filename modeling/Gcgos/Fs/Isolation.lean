import Gcgos.Fs.Geometry
import Gcgos.Lib.Run
import Mathlib.Tactic.IntervalCases

/-!
# No write reaches another file

An allocation state says which inodes are in use and which block numbers each
of them has. It is sound when the bitmap marks the metadata and every block an
inode refers to, these blocks lie in the data area, and no block belongs to
two inodes. A write to direct blocks keeps it sound, whatever the disk and the
inodes are, and changes only the blocks of the inode it writes, the bitmap and
the head of that inode's dinode.

The indirect half of `writei` does not: `bmap` takes the number of the first
indirect block from the flags of a buffer, and the data goes to sector 1.
-/

set_option autoImplicit false

namespace Gcgos.Fs

open Act Bio ByteMap

/-- Block `b` is used by an inode with these block numbers: as a data block,
as its indirect block, or as an entry of its indirect block. -/
def Refers (disk : Nat → Block) (addrs : Addrs) (b : Nat) : Prop :=
  b ≠ 0 ∧ ((∃ k, (addrs k).toNat = b) ∨
    (addrs indirectSlot ≠ 0 ∧
      ∃ j, j < NINDIRECT ∧ ((disk (addrs indirectSlot).toNat).entry j).toNat = b))

/-- The inodes in use and their block numbers. -/
structure Owners where
  live : Nat → Prop
  addrs : Nat → Addrs

/-- Inode `n` gets the block numbers `addrs`. -/
def Owners.setAddrs (owners : Owners) (n : Nat) (addrs : Addrs) : Owners :=
  { owners with addrs := Function.update owners.addrs n addrs }

/-- The allocation on `disk` is sound. -/
structure Sound (disk : Nat → Block) (owners : Owners) : Prop extends Reserved disk where
  data : ∀ n b, owners.live n → Refers disk (owners.addrs n) b →
    dataStart (superOf disk) ≤ b ∧ b < (superOf disk).size.toNat ∧
      marked disk (superOf disk).ninodes b = true
  apart : ∀ n m b, owners.live n → owners.live m →
    Refers disk (owners.addrs n) b → Refers disk (owners.addrs m) b → n = m

/-- None of the data blocks is at the same time the indirect block. -/
def NoAlias (addrs : Addrs) : Prop :=
  ∀ k, k ≠ indirectSlot → addrs k ≠ 0 → addrs k ≠ addrs indirectSlot

def IsBitmap (disk : Nat → Block) (sector : Nat) : Prop :=
  ∃ b, b < (superOf disk).size.toNat ∧ sector = BBLOCK b (superOf disk).ninodes

theorem toNat_ne_zero {word : UInt32} (nonzero : word ≠ 0) : word.toNat ≠ 0 := by
  intro zero
  exact nonzero (UInt32.toNat_inj.mp (by simpa using zero))

theorem refers_congr {disk disk' : Nat → Block} {addrs : Addrs} {b : Nat}
    (same : addrs indirectSlot ≠ 0 →
      disk' (addrs indirectSlot).toNat = disk (addrs indirectSlot).toNat) :
    Refers disk' addrs b ↔ Refers disk addrs b := by
  unfold Refers
  by_cases nonzero : addrs indirectSlot = 0
  · simp [nonzero]
  · rw [same nonzero]

/-- A new direct entry refers to one block more. -/
theorem refers_update {disk : Nat → Block} {addrs : Addrs} {k : Fin (NDIRECT + 1)}
    {word : UInt32} {b : Nat} (direct : k ≠ indirectSlot) (empty : addrs k = 0) :
    Refers disk (Function.update addrs k word) b ↔
      Refers disk addrs b ∨ (b ≠ 0 ∧ b = word.toNat) := by
  have indirect : Function.update addrs k word indirectSlot = addrs indirectSlot :=
    Function.update_of_ne (Ne.symm direct) _ _
  unfold Refers
  rw [indirect]
  constructor
  · rintro ⟨nonzero, ⟨j, entry⟩ | table⟩
    · by_cases same : j = k
      · subst same
        rw [Function.update_self] at entry
        exact Or.inr ⟨nonzero, entry.symm⟩
      · rw [Function.update_of_ne same] at entry
        exact Or.inl ⟨nonzero, Or.inl ⟨j, entry⟩⟩
    · exact Or.inl ⟨nonzero, Or.inr table⟩
  · rintro (⟨nonzero, ⟨j, entry⟩ | table⟩ | ⟨nonzero, entry⟩)
    · refine ⟨nonzero, Or.inl ⟨j, ?_⟩⟩
      have different : j ≠ k := by
        intro same
        subst same
        rw [empty] at entry
        exact nonzero (by simpa using entry.symm)
      rw [Function.update_of_ne different]
      exact entry
    · exact ⟨nonzero, Or.inr table⟩
    · exact ⟨nonzero, Or.inl ⟨k, by rw [Function.update_self, entry]⟩⟩

theorem refers_indirect {disk : Nat → Block} {addrs : Addrs}
    (nonzero : addrs indirectSlot ≠ 0) : Refers disk addrs (addrs indirectSlot).toNat :=
  ⟨toNat_ne_zero nonzero, Or.inl ⟨indirectSlot, rfl⟩⟩

theorem refers_entry {disk : Nat → Block} {addrs : Addrs} {k : Fin (NDIRECT + 1)}
    (nonzero : addrs k ≠ 0) : Refers disk addrs (addrs k).toNat :=
  ⟨toNat_ne_zero nonzero, Or.inl ⟨k, rfl⟩⟩

namespace Sound

variable {disk disk' : Nat → Block} {owners : Owners}

/-- Soundness looks at the superblock, the bits and the indirect blocks. -/
theorem of_agree (sound : Sound disk owners) (first : disk' 1 = disk 1)
    (bits : ∀ b, b < (superOf disk).size.toNat →
      marked disk' (superOf disk).ninodes b = marked disk (superOf disk).ninodes b)
    (tables : ∀ n, owners.live n → owners.addrs n indirectSlot ≠ 0 →
      disk' (owners.addrs n indirectSlot).toNat =
        disk (owners.addrs n indirectSlot).toNat) :
    Sound disk' owners := by
  have super : superOf disk' = superOf disk := congrArg Block.supperblock first
  have same : ∀ n b, owners.live n →
      (Refers disk' (owners.addrs n) b ↔ Refers disk (owners.addrs n) b) :=
    fun n b live => refers_congr (tables n live)
  refine ⟨sound.toReserved.of_agree first fun b bound set => ?_, ?_, ?_⟩
  · rw [bits b bound]
    exact set
  · intro n b live refers
    rw [super]
    obtain ⟨lower, upper, mark⟩ := sound.data n b live ((same n b live).mp refers)
    exact ⟨lower, upper, (bits b upper).trans mark⟩
  · intro n m b liveN liveM refersN refersM
    exact sound.apart n m b liveN liveM ((same n b liveN).mp refersN)
      ((same m b liveM).mp refersM)

/-- Soundness looks at live inodes only. -/
theorem of_owners (sound : Sound disk owners) {owners' : Owners}
    (live : ∀ n, owners'.live n ↔ owners.live n)
    (addrs : ∀ n, owners.live n → owners'.addrs n = owners.addrs n) :
    Sound disk owners' := by
  refine ⟨sound.toReserved, ?_, ?_⟩
  · intro n b liveN refers
    have liveN := (live n).mp liveN
    rw [addrs n liveN] at refers
    exact sound.data n b liveN refers
  · intro n m b liveN liveM refersN refersM
    have liveN := (live n).mp liveN
    have liveM := (live m).mp liveM
    rw [addrs n liveN] at refersN
    rw [addrs m liveM] at refersM
    exact sound.apart n m b liveN liveM refersN refersM

/-- The block `balloc` would take lies in the data area and belongs to nobody. -/
theorem firstFree_fresh (sound : Sound disk owners) {b : Nat}
    (found : firstFree disk = some b) :
    dataStart (superOf disk) ≤ b ∧ b < (superOf disk).size.toNat ∧
      marked disk (superOf disk).ninodes b = false ∧
      ∀ n, owners.live n → ¬Refers disk (owners.addrs n) b := by
  obtain ⟨lower, upper, clear⟩ := sound.firstFree_data found
  refine ⟨lower, upper, clear, ?_⟩
  intro n live refers
  obtain ⟨-, -, set⟩ := sound.data n b live refers
  rw [clear] at set
  exact absurd set (by decide)

/-- The indirect block of a live inode is in the data area. -/
theorem table_bound (sound : Sound disk owners) {n : Nat} (live : owners.live n)
    (nonzero : owners.addrs n indirectSlot ≠ 0) :
    dataStart (superOf disk) ≤ (owners.addrs n indirectSlot).toNat :=
  (sound.data n _ live (refers_indirect nonzero)).1

/-- Allocating a block for an empty direct entry keeps the allocation sound. -/
theorem alloc (sound : Sound disk owners) {n b : Nat} {k : Fin (NDIRECT + 1)}
    (live : owners.live n) (direct : k ≠ indirectSlot) (empty : owners.addrs n k = 0)
    (found : firstFree disk = some b) :
    Sound (mark disk (superOf disk).ninodes b)
      (owners.setAddrs n (Function.update (owners.addrs n) k (UInt32.ofNat b))) := by
  obtain ⟨lower, upper, clear, fresh⟩ := sound.firstFree_fresh found
  have number := (sound.firstFree_word found).1
  have sectorBounds := sound.geometry.BBLOCK_bounds upper
  have first : mark disk (superOf disk).ninodes b 1 = disk 1 :=
    Function.update_of_ne (Ne.symm (sound.BBLOCK_ne_one upper)) _ _
  have super : superOf (mark disk (superOf disk).ninodes b) = superOf disk :=
    congrArg Block.supperblock first
  have tables : ∀ m, owners.live m → owners.addrs m indirectSlot ≠ 0 →
      mark disk (superOf disk).ninodes b (owners.addrs m indirectSlot).toNat =
        disk (owners.addrs m indirectSlot).toNat := by
    intro m liveM nonzero
    have bound := sound.table_bound liveM nonzero
    exact Function.update_of_ne (by omega) _ _
  -- the references afterwards are the references before and the new one
  have refers : ∀ m c, owners.live m →
      (Refers (mark disk (superOf disk).ninodes b)
        (Function.update owners.addrs n
          (Function.update (owners.addrs n) k (UInt32.ofNat b)) m) c ↔
        Refers disk (owners.addrs m) c ∨ (m = n ∧ c = b)) := by
    intro m c liveM
    by_cases same : m = n
    · subst same
      rw [Function.update_self, refers_update direct empty,
        refers_congr (tables m liveM), number]
      have nonzero : c = b → c ≠ 0 := by
        intro eq
        have inodes := inodeEnd_lt_dataStart (superOf disk)
        omega
      exact or_congr_right ⟨fun new => ⟨rfl, new.2⟩, fun new => ⟨nonzero new.2, new.2⟩⟩
    · rw [Function.update_of_ne same, refers_congr (tables m liveM)]
      exact ⟨Or.inl, fun used => used.resolve_right fun new => same new.1⟩
  refine ⟨sound.toReserved.alloc upper, ?_, ?_⟩
  · intro m c liveM used
    rw [super]
    rcases (refers m c liveM).mp used with old | ⟨-, rfl⟩
    · obtain ⟨low, high, set⟩ := sound.data m c liveM old
      refine ⟨low, high, ?_⟩
      rw [marked_mark sound.geometry upper high, set]
      simp
    · refine ⟨lower, upper, ?_⟩
      rw [marked_mark sound.geometry upper upper]
      simp
  · intro m m' c liveM liveM' usedM usedM'
    rcases (refers m c liveM).mp usedM with oldM | ⟨rfl, rfl⟩
    · rcases (refers m' c liveM').mp usedM' with oldM' | ⟨rfl, rfl⟩
      · exact sound.apart m m' c liveM liveM' oldM oldM'
      · exact absurd oldM (fresh m liveM)
    · rcases (refers m' c liveM').mp usedM' with oldM' | ⟨rfl, -⟩
      · exact absurd oldM' (fresh m' liveM')
      · rfl

/-- Storing into a data block of a live inode keeps the allocation sound. -/
theorem store (sound : Sound disk owners) {n : Nat} {k : Fin (NDIRECT + 1)}
    (live : owners.live n) (direct : k ≠ indirectSlot) (used : owners.addrs n k ≠ 0)
    (noAlias : NoAlias (owners.addrs n)) (off : Nat) (piece : List UInt8) :
    Sound (directStore disk (owners.addrs n k).toNat off piece) owners := by
  have refers : Refers disk (owners.addrs n) (owners.addrs n k).toNat := refers_entry used
  obtain ⟨lower, upper, -⟩ := sound.data n _ live refers
  apply sound.of_agree
  · have inodes := three_le_inodeEnd (superOf disk)
    have data := inodeEnd_lt_dataStart (superOf disk)
    exact Function.update_of_ne (by omega) _ _
  · intro b bound
    have sector := (sound.geometry.BBLOCK_bounds bound).2
    unfold marked
    rw [directStore, Function.update_of_ne (by omega)]
  · intro m liveM nonzero
    refine Function.update_of_ne ?_ _ _
    intro same
    have refersM : Refers disk (owners.addrs m) (owners.addrs n k).toNat := by
      rw [← same]
      exact refers_indirect nonzero
    have owner := sound.apart m n _ liveM live refersM refers
    subst owner
    exact noAlias k direct used (UInt32.toNat_inj.mp same.symm)

/-- `iupdate` of an inode in the inode area keeps the allocation sound. -/
theorem iupdate (sound : Sound disk owners) {ip : Inode}
    (inArea : ip.inum.toNat < (superOf disk).ninodes.toNat) :
    Sound (updateOnDisk disk ip) owners := by
  have sector := IBLOCK_bounds inArea
  apply sound.of_agree
  · exact updateOnDisk_other (by omega)
  · intro b bound
    have bitmap := (sound.geometry.BBLOCK_bounds bound).1
    unfold marked
    rw [updateOnDisk_other (by omega)]
  · intro m live nonzero
    have bound := sound.table_bound live nonzero
    have data := inodeEnd_lt_dataStart (superOf disk)
    exact updateOnDisk_other (by omega)

end Sound

/-- From the disk `origin` to `disk`, on which inode `n` has the block numbers
`addrs`, only blocks of `n` and the bitmap changed. -/
structure FileFrame (origin : Nat → Block) (owners : Owners) (n : Nat)
    (disk : Nat → Block) (addrs : Addrs) : Prop where
  sound : Sound disk (owners.setAddrs n addrs)
  first : disk 1 = origin 1
  touched : ∀ sector, disk sector = origin sector ∨
    (∃ k, addrs k ≠ 0 ∧ (addrs k).toNat = sector) ∨ IsBitmap origin sector

/-- What the loop of `writei` keeps. -/
structure LoopInv (origin : Nat → Block) (owners : Owners) (n : Nat)
    (disk : Nat → Block) (addrs : Addrs) : Prop
    extends FileFrame origin owners n disk addrs where
  noAlias : NoAlias addrs

namespace FileFrame

variable {origin disk : Nat → Block} {owners : Owners} {n : Nat} {addrs : Addrs}

/-- Metadata outside the bitmap is as it was. -/
theorem metadata (frame : FileFrame origin owners n disk addrs) (isLive : owners.live n)
    {sector : Nat} (below : sector < inodeEnd (superOf origin)) :
    disk sector = origin sector := by
  have super : superOf disk = superOf origin := congrArg Block.supperblock frame.first
  have data := inodeEnd_lt_dataStart (superOf origin)
  rcases frame.touched sector with same | ⟨k, used, place⟩ | ⟨b, bound, bitmap⟩
  · exact same
  · have own : (owners.setAddrs n addrs).addrs n = addrs := by simp [Owners.setAddrs]
    have inData := (frame.sound.data n (addrs k).toNat isLive
      (by rw [own]; exact refers_entry used)).1
    rw [super] at inData
    omega
  · have geometry := frame.sound.geometry
    rw [super] at geometry
    have inBitmap := (geometry.BBLOCK_bounds bound).1
    omega

theorem dinode (frame : FileFrame origin owners n disk addrs) (isLive : owners.live n)
    {inum : Nat} (inArea : inum < (superOf origin).ninodes.toNat) :
    dinodeAt disk inum = dinodeAt origin inum := by
  unfold dinodeAt
  rw [frame.metadata isLive (IBLOCK_bounds inArea).2]

/-- A block of another inode is as it was. -/
theorem other (frame : FileFrame origin owners n disk addrs) (isLive : owners.live n)
    {m b : Nat} (liveM : owners.live m) (different : m ≠ n)
    (refers : Refers disk (owners.addrs m) b) : disk b = origin b := by
  have super : superOf disk = superOf origin := congrArg Block.supperblock frame.first
  have own : (owners.setAddrs n addrs).addrs n = addrs := by simp [Owners.setAddrs]
  have theirs : (owners.setAddrs n addrs).addrs m = owners.addrs m :=
    Function.update_of_ne different _ _
  rw [← theirs] at refers
  rcases frame.touched b with same | ⟨k, used, place⟩ | ⟨c, bound, bitmap⟩
  · exact same
  · have mine : Refers disk ((owners.setAddrs n addrs).addrs n) b := by
      rw [own, ← place]
      exact refers_entry used
    exact absurd (frame.sound.apart m n b liveM isLive refers mine) different
  · have inData := (frame.sound.data m b liveM refers).1
    rw [← super] at bound bitmap
    have inBitmap := (frame.sound.geometry.BBLOCK_bounds bound).2
    omega

/-- Another inode refers to the blocks it referred to. -/
theorem refers_other (frame : FileFrame origin owners n disk addrs) (isLive : owners.live n)
    {m b : Nat} (liveM : owners.live m) (different : m ≠ n) :
    Refers disk (owners.addrs m) b ↔ Refers origin (owners.addrs m) b :=
  refers_congr fun nonzero => frame.other isLive liveM different (refers_indirect nonzero)

end FileFrame

namespace LoopInv

variable {origin disk : Nat → Block} {owners : Owners} {n : Nat} {addrs : Addrs}

theorem live (_inv : LoopInv origin owners n disk addrs) (live : owners.live n) :
    (owners.setAddrs n addrs).live n := live

theorem own (_inv : LoopInv origin owners n disk addrs) :
    (owners.setAddrs n addrs).addrs n = addrs := by
  simp [Owners.setAddrs]

theorem setAddrs_again (next : Addrs) :
    (owners.setAddrs n addrs).setAddrs n next = owners.setAddrs n next := by
  simp [Owners.setAddrs]

theorem alloc (inv : LoopInv origin owners n disk addrs) (isLive : owners.live n)
    {k : Fin (NDIRECT + 1)} (direct : k ≠ indirectSlot) {disk' : Nat → Block}
    {addrs' : Addrs} (run : directAlloc disk addrs k = some (disk', addrs')) :
    LoopInv origin owners n disk' addrs' ∧ addrs' k ≠ 0 := by
  unfold directAlloc at run
  by_cases empty : addrs k = 0
  · rw [if_pos empty] at run
    obtain ⟨b, found, same⟩ := Option.map_eq_some_iff.mp run
    cases same
    have super : superOf disk = superOf origin := congrArg Block.supperblock inv.first
    obtain ⟨lower, upper, -, fresh⟩ := inv.sound.firstFree_fresh found
    obtain ⟨number, nonzero⟩ := inv.sound.firstFree_word found
    have grown := inv.sound.alloc (inv.live isLive) direct (by rw [inv.own]; exact empty) found
    rw [inv.own, setAddrs_again] at grown
    refine ⟨⟨⟨grown, ?_, ?_⟩, ?_⟩, ?_⟩
    · rw [← inv.first]
      exact Function.update_of_ne (Ne.symm (inv.sound.BBLOCK_ne_one upper)) _ _
    · intro sector
      by_cases bitmap : sector = BBLOCK b (superOf disk).ninodes
      · right
        right
        rw [super] at bitmap upper
        exact ⟨b, upper, bitmap⟩
      · have kept : mark disk (disk 1).supperblock.ninodes b sector = disk sector :=
          Function.update_of_ne bitmap _ _
        rw [kept]
        rcases inv.touched sector with same | ⟨j, used, place⟩ | bits
        · exact Or.inl same
        · right
          left
          have different : j ≠ k := by
            intro eq
            rw [eq] at used
            exact used empty
          exact ⟨j, by rw [Function.update_of_ne different]; exact ⟨used, place⟩⟩
        · exact Or.inr (Or.inr bits)
    · intro j other used
      rw [Function.update_of_ne (Ne.symm direct)]
      by_cases same : j = k
      · subst same
        rw [Function.update_self]
        intro clash
        apply fresh n (inv.live isLive)
        rw [inv.own, ← number, clash]
        exact refers_indirect (by rw [← clash]; exact nonzero)
      · rw [Function.update_of_ne same] at used ⊢
        exact inv.noAlias j other used
    · rw [Function.update_self]
      exact nonzero
  · rw [if_neg empty] at run
    cases run
    exact ⟨inv, empty⟩

theorem store (inv : LoopInv origin owners n disk addrs) (isLive : owners.live n)
    {k : Fin (NDIRECT + 1)} (direct : k ≠ indirectSlot) (used : addrs k ≠ 0)
    (off : Nat) (piece : List UInt8) :
    LoopInv origin owners n (directStore disk (addrs k).toNat off piece) addrs := by
  have own := inv.own
  have kept := inv.sound.store (inv.live isLive) direct (by rw [own]; exact used)
    (by rw [own]; exact inv.noAlias) off piece
  rw [own] at kept
  have place := inv.sound.data n (addrs k).toNat (inv.live isLive)
    (by rw [own]; exact refers_entry used)
  have inodes := three_le_inodeEnd (superOf disk)
  have data := inodeEnd_lt_dataStart (superOf disk)
  refine ⟨⟨kept, ?_, ?_⟩, inv.noAlias⟩
  · rw [← inv.first]
    exact Function.update_of_ne (by omega) _ _
  · intro sector
    by_cases here : sector = (addrs k).toNat
    · exact Or.inr (Or.inl ⟨k, used, here.symm⟩)
    · rw [directStore, Function.update_of_ne here]
      exact inv.touched sector

/-- The loop over direct blocks keeps the invariant. -/
theorem run (fuel off : Nat) (src : List UInt8) (isLive : owners.live n)
    (inv : LoopInv origin owners n disk addrs)
    (direct : InDirect off src)
    {disk' : Nat → Block} {addrs' : Addrs}
    (run : directRun fuel off src disk addrs = some (disk', addrs')) :
    LoopInv origin owners n disk' addrs' := by
  induction fuel generalizing off src disk addrs with
  | zero =>
      cases run
      exact inv
  | succ fuel ih =>
      unfold directRun at run
      by_cases empty : src = []
      · rw [if_pos empty] at run
        cases run
        exact inv
      · rw [if_neg empty] at run
        have inDirect := direct.block empty
        have slot := addrSlot_direct inDirect
        obtain ⟨⟨disk₁, addrs₁⟩, alloc, rest⟩ := Option.bind_eq_some_iff.mp run
        obtain ⟨inv₁, used⟩ := inv.alloc isLive slot alloc
        have stored := inv₁.store isLive slot used off
          (src.take (min (BSIZE - off % BSIZE) src.length))
        exact ih _ _ stored direct.rest rest

end LoopInv

/-- The slot of the inode table that holds `inum`. -/
def residentSlot (s : State) (inum : Nat) : Option (Fin NINODE) :=
  (List.finRange NINODE).find? fun i =>
    decide (0 < (s.inode i).count) && (s.inode i).inum.toNat == inum

/-- The block numbers of `inum`: from memory when it is resident and from the
disk otherwise. -/
def addrsOf (s : State) (inum : Nat) : Addrs :=
  match residentSlot s inum with
  | some i => (s.inode i).addrs
  | none => (dinodeAt s.disk inum).addrs

def typeOf (s : State) (inum : Nat) : UInt16 :=
  match residentSlot s inum with
  | some i => (s.inode i).type
  | none => (dinodeAt s.disk inum).type

def ownersOf (s : State) : Owners where
  live n := n < (superOf s.disk).ninodes.toNat ∧ typeOf s n ≠ 0
  addrs := addrsOf s

/-- Disk and inode table are in order: the allocation is sound, no inode is
resident twice, and every resident inode has its dinode in the inode area. -/
structure Isolated (s : State) : Prop where
  sound : Sound s.disk (ownersOf s)
  unique : ∀ i j, 0 < (s.inode i).count → 0 < (s.inode j).count →
    (s.inode i).inum = (s.inode j).inum → i = j
  inArea : ∀ i, 0 < (s.inode i).count →
    (s.inode i).inum.toNat < (superOf s.disk).ninodes.toNat

theorem Isolated.residentSlot_eq {s : State} (isolated : Isolated s) {i : Fin NINODE}
    (held : 0 < (s.inode i).count) :
    residentSlot s (s.inode i).inum.toNat = some i := by
  cases found : residentSlot s (s.inode i).inum.toNat with
  | none =>
      have all := List.find?_eq_none.mp found i (List.mem_finRange i)
      simp [held] at all
  | some j =>
      have hit := List.find?_some found
      simp only [Bool.and_eq_true, decide_eq_true_eq, beq_iff_eq] at hit
      rw [isolated.unique i j held hit.1 (UInt32.toNat_inj.mp hit.2.symm)]

/-- From `s` to `t` only the file in slot `i` was written: its blocks, the
bitmap, and its own slot of its inode block. -/
structure OnlyTouches (s t : State) (i : Fin NINODE) : Prop where
  sectors : ∀ sector, t.disk sector = s.disk sector ∨
    Refers t.disk (addrsOf t (s.inode i).inum.toNat) sector ∨
    IsBitmap s.disk sector ∨ sector = IBLOCK (s.inode i).inum.toNat
  slot : ∀ k, k < dinodeSize * ((s.inode i).inum.toNat % IPB) ∨
      dinodeSize * ((s.inode i).inum.toNat % IPB) + dinodeSize ≤ k →
    (t.disk (IBLOCK (s.inode i).inum.toNat)).byte k =
      (s.disk (IBLOCK (s.inode i).inum.toNat)).byte k
  superblock : t.disk 1 = s.disk 1
  dinodes : ∀ inum, inum < (superOf s.disk).ninodes.toNat → inum ≠ (s.inode i).inum.toNat →
    dinodeAt t.disk inum = dinodeAt s.disk inum
  files : ∀ inum b, (ownersOf s).live inum → inum ≠ (s.inode i).inum.toNat →
    Refers s.disk (addrsOf s inum) b → t.disk b = s.disk b

/-- `directWrite` changes the block numbers and the size of the inode only. -/
theorem directWrite_fields {disk disk' : Nat → Block} {ip ip' : Inode} {src : List UInt8}
    {off : Nat} (run : directWrite disk ip src off = some (disk', ip')) :
    ip' = { ip with size := ip'.size, addrs := ip'.addrs } := by
  obtain ⟨next, -, same⟩ := Option.map_eq_some_iff.mp run
  cases same
  simp only [writeiGrow]
  split <;> rfl

theorem directWrite_split {disk disk' : Nat → Block} {ip ip' : Inode} {src : List UInt8}
    {off : Nat} (run : directWrite disk ip src off = some (disk', ip')) :
    ∃ disk₁, directRun src.length off src disk ip.addrs = some (disk₁, ip'.addrs) ∧
      disk' = updateOnDisk disk₁ ip' := by
  obtain ⟨⟨disk₁, addrs₁⟩, loop, same⟩ := Option.map_eq_some_iff.mp run
  cases same
  refine ⟨disk₁, ?_, rfl⟩
  have entries : (writeiGrow src.length (off + src.length) { ip with addrs := addrs₁ }).addrs =
      addrs₁ := by
    simp only [writeiGrow]
    split <;> rfl
  rw [entries]
  exact loop

/-- The inode table after a write finds every inode where it was. -/
theorem residentSlot_wrote {s t : State} {i : Fin NINODE} {disk : Nat → Block} {ip : Inode}
    (wrote : Wrote s t i disk ip) (count : ip.count = (s.inode i).count)
    (inum : ip.inum = (s.inode i).inum) (n : Nat) :
    residentSlot t n = residentSlot s n := by
  unfold residentSlot
  congr 1
  funext j
  by_cases same : j = i
  · subst same
    rw [wrote.at_slot, count, inum]
  · rw [wrote.other same]

/-- One write to direct blocks: the allocation stays sound and nothing outside
the written file changes. -/
theorem directWrite_isolated {s t : State} {i : Fin NINODE} {disk : Nat → Block}
    {ip : Inode} {src : List UInt8} {off : Nat} (isolated : Isolated s)
    (held : 0 < (s.inode i).count) (file : (s.inode i).type = T_FILE)
    (direct : InDirect off src) (noAlias : NoAlias (s.inode i).addrs)
    (run : directWrite s.disk (s.inode i) src off = some (disk, ip))
    (wrote : Wrote s t i disk ip) : Isolated t ∧ OnlyTouches s t i := by
  obtain ⟨disk₁, loop, rfl⟩ := directWrite_split run
  have fields := directWrite_fields run
  have count : ip.count = (s.inode i).count := by rw [fields]
  have inum : ip.inum = (s.inode i).inum := by rw [fields]
  have type : ip.type = (s.inode i).type := by rw [fields]
  have resident := isolated.residentSlot_eq held
  have inArea := isolated.inArea i held
  have own : addrsOf s (s.inode i).inum.toNat = (s.inode i).addrs := by
    simp [addrsOf, resident]
  have isLive : (ownersOf s).live (s.inode i).inum.toNat := by
    refine ⟨inArea, ?_⟩
    simp only [typeOf, resident, file]
    decide
  have start : (ownersOf s).setAddrs (s.inode i).inum.toNat (s.inode i).addrs = ownersOf s := by
    have same : Function.update (ownersOf s).addrs (s.inode i).inum.toNat (s.inode i).addrs =
        (ownersOf s).addrs := by
      rw [← own]
      exact Function.update_eq_self _ _
    simp [Owners.setAddrs, same]
  have begin : FileFrame s.disk (ownersOf s) (s.inode i).inum.toNat s.disk
      (s.inode i).addrs := by
    refine ⟨?_, rfl, fun sector => Or.inl rfl⟩
    rw [start]
    exact isolated.sound
  have frame : FileFrame s.disk (ownersOf s) (s.inode i).inum.toNat disk₁ ip.addrs :=
    (LoopInv.run src.length off src isLive ⟨begin, noAlias⟩ direct loop).toFileFrame
  have sector := IBLOCK_bounds inArea
  have lowest := three_le_inodeEnd (superOf s.disk)
  have first : t.disk 1 = s.disk 1 := by
    rw [wrote.disk_eq, updateOnDisk_other (by rw [inum]; omega), frame.first]
  have super : superOf t.disk = superOf s.disk := congrArg Block.supperblock first
  have dinodes : ∀ m, m < (superOf s.disk).ninodes.toNat → m ≠ (s.inode i).inum.toNat →
      dinodeAt t.disk m = dinodeAt s.disk m := by
    intro m bound different
    rw [wrote.disk_eq, dinodeAt_updateOnDisk_other (by rw [inum]; exact different)]
    exact frame.dinode isLive bound
  have slots := residentSlot_wrote wrote count inum
  have types : ∀ m, m < (superOf s.disk).ninodes.toNat → typeOf t m = typeOf s m := by
    intro m bound
    unfold typeOf
    rw [slots m]
    cases found : residentSlot s m with
    | none =>
        have different : m ≠ (s.inode i).inum.toNat := by
          intro same
          rw [same, resident] at found
          cases found
        simp only [dinodes m bound different]
    | some j =>
        by_cases same : j = i
        · subst same
          simp only [wrote.at_slot, type]
        · simp only [wrote.other same]
  have owns : addrsOf t (s.inode i).inum.toNat = ip.addrs := by
    unfold addrsOf
    rw [slots, resident]
    simp only [wrote.at_slot]
  have addrs : ∀ m, m < (superOf s.disk).ninodes.toNat → m ≠ (s.inode i).inum.toNat →
      addrsOf t m = addrsOf s m := by
    intro m bound different
    unfold addrsOf
    rw [slots m]
    cases found : residentSlot s m with
    | none => simp only [dinodes m bound different]
    | some j =>
        have hit := List.find?_some found
        simp only [Bool.and_eq_true, decide_eq_true_eq, beq_iff_eq] at hit
        have other : j ≠ i := by
          intro same
          subst same
          exact different hit.2.symm
        simp only [wrote.other other]
  have soundDisk : Sound t.disk ((ownersOf s).setAddrs (s.inode i).inum.toNat ip.addrs) := by
    rw [wrote.disk_eq]
    apply frame.sound.iupdate
    have same : superOf disk₁ = superOf s.disk := congrArg Block.supperblock frame.first
    rw [same, inum]
    exact inArea
  have sound : Sound t.disk (ownersOf t) := by
    apply soundDisk.of_owners
    · intro m
      show m < _ ∧ typeOf t m ≠ 0 ↔ m < _ ∧ typeOf s m ≠ 0
      rw [super]
      exact and_congr_right fun bound => by rw [types m bound]
    · intro m live
      show addrsOf t m = Function.update (addrsOf s) _ ip.addrs m
      by_cases same : m = (s.inode i).inum.toNat
      · rw [same, Function.update_self]
        exact owns
      · rw [Function.update_of_ne same]
        exact addrs m live.1 same
  have slotOf : ∀ j, (t.inode j).count = (s.inode j).count ∧
      (t.inode j).inum = (s.inode j).inum := by
    intro j
    by_cases same : j = i
    · subst same
      rw [wrote.at_slot]
      exact ⟨count, inum⟩
    · rw [wrote.other same]
      exact ⟨rfl, rfl⟩
  refine ⟨⟨sound, ?_, ?_⟩, ⟨?_, ?_, first, dinodes, ?_⟩⟩
  · intro j k heldJ heldK same
    rw [(slotOf j).1] at heldJ
    rw [(slotOf k).1] at heldK
    rw [(slotOf j).2, (slotOf k).2] at same
    exact isolated.unique j k heldJ heldK same
  · intro j heldJ
    rw [(slotOf j).1] at heldJ
    rw [(slotOf j).2, super]
    exact isolated.inArea j heldJ
  · intro x
    by_cases inode : x = IBLOCK (s.inode i).inum.toNat
    · exact Or.inr (Or.inr (Or.inr inode))
    · have kept : t.disk x = disk₁ x := by
        rw [wrote.disk_eq, updateOnDisk_other (by rw [inum]; exact inode)]
      rw [kept]
      rcases frame.touched x with same | ⟨k, used, place⟩ | bitmap
      · exact Or.inl same
      · right
        left
        rw [owns, ← place]
        exact refers_entry used
      · exact Or.inr (Or.inr (Or.inl bitmap))
  · intro k outside
    have here : t.disk (IBLOCK (s.inode i).inum.toNat) =
        (s.disk (IBLOCK (s.inode i).inum.toNat)).updateDinode
          ((s.inode i).inum.toNat % IPB) ip := by
      rw [wrote.disk_eq]
      unfold updateOnDisk
      rw [inum, Function.update_self, frame.metadata isLive sector.2]
    rw [here]
    apply Block.byte_updateDinode_outside
    simp only [dinodeSize] at *
    omega
  · intro m b live different refers
    have place := isolated.sound.data m b live refers
    have data := inodeEnd_lt_dataStart (superOf s.disk)
    have kept : t.disk b = disk₁ b := by
      rw [wrote.disk_eq, updateOnDisk_other (by rw [inum]; omega)]
    rw [kept]
    exact frame.other isLive live different
      ((frame.refers_other isLive live different).mpr refers)

/-- The arguments of a call `writei(ip, src, off, n)`. -/
structure WriteCall where
  slot : Fin NINODE
  src : List UInt8
  off : Nat

namespace WriteCall

def run (call : WriteCall) : Act Fault State Int := writei call.slot call.src call.off

/-- The caller holds a file, and the bytes lie below `MAXFILE` blocks. -/
structure Valid (call : WriteCall) (s : State) : Prop where
  held : 0 < (s.inode call.slot).count
  file : (s.inode call.slot).type = T_FILE
  bound : call.off + call.src.length ≤ MAXFILE * BSIZE

/-- The call stays in the first `NDIRECT` blocks, and none of the inode's data
blocks is its indirect block. -/
structure Direct (call : WriteCall) (s : State) : Prop where
  inDirect : InDirect call.off call.src
  noAlias : NoAlias (s.inode call.slot).addrs

/-- A returning call among the allowed ones. -/
def Step (allowed : WriteCall → State → Prop) (s t : State) : Prop :=
  ∃ (call : WriteCall) (r : Int), call.Valid s ∧ allowed call s ∧ call.run s = .ok (r, t)

/-- What one call does: it returns the number of bytes and keeps everything
apart, or it finds the bitmap full. -/
theorem outcome {call : WriteCall} {s : State} (isolated : Isolated s)
    (ready : s.bio.Ready 1) (valid : call.Valid s) (direct : call.Direct s) :
    call.run s = .error (.panic "balloc: out of blocks\n") ∨
      Yields call.run s fun r t => r = call.src.length ∧ t.bio.Ready 1 ∧
        Isolated t ∧ OnlyTouches s t call.slot := by
  cases run : directWrite s.disk (s.inode call.slot) call.src call.off with
  | none =>
      exact Or.inl (writei_direct_full call.slot call.src call.off valid.file ready
        direct.inDirect run)
  | some next =>
      obtain ⟨disk, ip⟩ := next
      refine Or.inr ((writei_direct_yields call.slot call.src call.off valid.file ready
        direct.inDirect run).mono ?_)
      rintro r t ⟨result, wrote⟩
      obtain ⟨kept, touches⟩ := directWrite_isolated isolated valid.held valid.file
        direct.inDirect direct.noAlias run wrote
      exact ⟨result, wrote.bio.ready ready, kept, touches⟩

theorem step_isolated {s t : State} (before : s.bio.Ready 1 ∧ Isolated s)
    (step : Step Direct s t) : t.bio.Ready 1 ∧ Isolated t := by
  obtain ⟨call, r, valid, direct, returned⟩ := step
  rcases outcome before.2 before.1 valid direct with full | yields
  · rw [returned] at full
    cases full
  · obtain ⟨-, ready, isolated, -⟩ := yields.ensures r t returned
    exact ⟨ready, isolated⟩

end WriteCall

/-- In every run of writes to direct blocks the files stay apart, and the next
such write changes nothing but its own file, or stops in `balloc`. -/
theorem writei_runs_isolated {start t : State} {n : Nat} (isolated : Isolated start)
    (ready : start.bio.Ready 1)
    (run : ReachIn (fun s => s = start) (WriteCall.Step WriteCall.Direct) n t) :
    Isolated t ∧ ∀ call : WriteCall, call.Valid t → call.Direct t →
      call.run t = .error (.panic "balloc: out of blocks\n") ∨
        Yields call.run t fun r u => r = call.src.length ∧
          Isolated u ∧ OnlyTouches t u call.slot := by
  have inv : t.bio.Ready 1 ∧ Isolated t := by
    refine run.invariant ?_ fun s u before step => WriteCall.step_isolated before step
    rintro s rfl
    exact ⟨ready, isolated⟩
  refine ⟨inv.2, fun call valid direct => ?_⟩
  rcases WriteCall.outcome inv.2 inv.1 valid direct with full | yields
  · exact Or.inl full
  · exact Or.inr (yields.mono fun r u post => ⟨post.1, post.2.2⟩)

/-- A disk of sixteen blocks with three inodes: block 1 is the superblock,
block 4 the bitmap, and the data starts at block 5. -/
def smallDisk (sector : Nat) : Block :=
  if sector = 1 then ((Block.zero.putU32 0 16).putU32 4 10).putU32 8 3
  else if sector = 4 then Block.zero.put 0 [0x1f]
  else Block.zero

def emptyInode : Inode :=
  { dev := 1, major := 0, minor := 0, inum := 0, count := 0, busy := false, type := 0,
    nlink := 0, size := 0, addrs := fun _ => 0 }

/-- Inode 1 is an empty file in slot 0 of the table. -/
def smallState : State where
  bio := ⟨⟨smallDisk, []⟩, fun _ => ⟨false, Block.zero⟩⟩
  inode i := if i = 0 then { emptyInode with inum := 1, count := 1, type := T_FILE, nlink := 1 }
    else emptyInode
  cons := ⟨fun _ => 0, 0, 0, []⟩
  wakeups := []

theorem smallState_live {n : Nat} (live : (ownersOf smallState).live n) : n = 1 := by
  obtain ⟨bound, used⟩ := live
  have inodes : (superOf smallState.disk).ninodes.toNat = 3 := by decide +kernel
  have zero : typeOf smallState 0 = 0 := by decide +kernel
  have two : typeOf smallState 2 = 0 := by decide +kernel
  rw [inodes] at bound
  interval_cases n
  · exact absurd zero used
  · rfl
  · exact absurd two used

theorem smallState_refers {n b : Nat} (live : (ownersOf smallState).live n) :
    ¬Refers smallState.disk ((ownersOf smallState).addrs n) b := by
  rw [smallState_live live]
  have addrs : (ownersOf smallState).addrs 1 = fun _ => 0 := by decide +kernel
  rw [addrs]
  rintro ⟨nonzero, ⟨k, entry⟩ | ⟨table, -⟩⟩
  · exact nonzero (by simpa using entry.symm)
  · exact table rfl

theorem smallState_isolated : Isolated smallState where
  sound := by
    refine ⟨⟨⟨by decide +kernel, by decide +kernel, by decide +kernel⟩, ?_⟩, ?_, ?_⟩
    · have start : dataStart (superOf smallState.disk) = 5 := by decide +kernel
      have bits : ∀ b, b < 5 →
          marked smallState.disk (superOf smallState.disk).ninodes b = true := by
        decide +kernel
      rw [start]
      exact bits
    · intro n b live refers
      exact absurd refers (smallState_refers live)
    · intro n m b live _ refers
      exact absurd refers (smallState_refers live)
  unique := by
    have only : ∀ i, 0 < (smallState.inode i).count → i = 0 := by decide +kernel
    intro i j heldI heldJ _
    rw [only i heldI, only j heldJ]
  inArea := by decide +kernel

/-- The first byte written at block `NDIRECT` of an empty file goes to the
superblock: `bmap` returns the busy flag of the buffer as the block number. -/
theorem writei_indirect_reaches_superblock :
    ¬∀ (start t : State) (n : Nat), Isolated start → start.bio.Ready NBUF →
      ReachIn (fun s => s = start) (WriteCall.Step fun _ _ => True) n t →
      ∀ call : WriteCall, call.Valid t → ∀ r u, call.run t = .ok (r, u) →
        OnlyTouches t u call.slot := by
  intro claim
  let call : WriteCall := ⟨0, [7], NDIRECT * BSIZE⟩
  have changed : (match call.run smallState with
      | .ok (_, u) => decide (u.disk 1 0 ≠ smallState.disk 1 0)
      | .error _ => false) = true := by decide +kernel
  cases outcome : call.run smallState with
  | error stop =>
      rw [outcome] at changed
      cases changed
  | ok pair =>
      obtain ⟨r, u⟩ := pair
      rw [outcome] at changed
      have only := claim smallState smallState 0 smallState_isolated
        ⟨rfl, by decide +kernel⟩ (.start rfl) call
        ⟨by decide +kernel, by decide +kernel, by decide +kernel⟩ r u outcome
      exact of_decide_eq_true changed (by rw [only.superblock])

/-- One write of two bytes to the empty file, and any write after it. -/
theorem writei_runs_isolated_small :
    ∃ t, ReachIn (fun s => s = smallState) (WriteCall.Step WriteCall.Direct) 1 t ∧
      Isolated t ∧ ∀ call : WriteCall, call.Valid t → call.Direct t →
        call.run t = .error (.panic "balloc: out of blocks\n") ∨
          Yields call.run t fun r u => r = call.src.length ∧
            Isolated u ∧ OnlyTouches t u call.slot := by
  let call : WriteCall := ⟨0, [7, 8], 510⟩
  have returns : (match call.run smallState with
      | .ok _ => true
      | .error _ => false) = true := by decide +kernel
  cases outcome : call.run smallState with
  | error stop =>
      rw [outcome] at returns
      cases returns
  | ok pair =>
      obtain ⟨r, t⟩ := pair
      have step : WriteCall.Step WriteCall.Direct smallState t :=
        ⟨call, r, ⟨by decide +kernel, by decide +kernel, by decide +kernel⟩,
          ⟨by decide +kernel, by unfold NoAlias; decide +kernel⟩, outcome⟩
      have run : ReachIn (fun s => s = smallState) (WriteCall.Step WriteCall.Direct) 1 t :=
        .next (.start rfl) step
      exact ⟨t, run, writei_runs_isolated smallState_isolated ⟨rfl, by decide +kernel⟩ run⟩

end Gcgos.Fs
