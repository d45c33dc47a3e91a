import Gcgos.Fs.Isolation
import Gcgos.Fs.Table

/-!
# A file system in order

Nothing is resident twice, and no block number in the table or on the disk
points at metadata. Every operation of `kernel/fs.c` that stays below the
indirect blocks keeps this, and changes the dinodes of the inodes it is called
for and no others.
-/

set_option autoImplicit false

namespace Gcgos.Fs

open Act Bio ByteMap

theorem dinodeAt_allocOnDisk_other {disk : Nat → Block} {n inum : Nat} {type : UInt16}
    (different : n ≠ inum) : dinodeAt (allocOnDisk disk inum type) n = dinodeAt disk n := by
  unfold dinodeAt allocOnDisk
  by_cases same : IBLOCK n = IBLOCK inum
  · rw [same, Function.update_self]
    have slots : n % IPB ≠ inum % IPB := fun slot => different (IBLOCK_injective same slot)
    apply Block.dinode_congr
    intro i lower upper
    apply Block.byte_put_outside
    simp only [dinodeSize, leBytes_length] at *
    omega
  · rw [Function.update_of_ne same]

theorem dinodeAt_allocOnDisk {disk : Nat → Block} {inum : Nat} {type : UInt16} :
    dinodeAt (allocOnDisk disk inum type) inum = { dinodeAt disk inum with type := type } := by
  have slot : inum % IPB < IPB := Nat.mod_lt _ (by decide)
  have fits : dinodeSize * (inum % IPB) + 2 ≤ BSIZE := by
    simp only [IPB, BSIZE, dinodeSize] at *
    omega
  unfold dinodeAt allocOnDisk
  rw [Function.update_self]
  simp (disch := omega) only [Block.dinode, Block.u16_putU16 fits, Block.u16_putU16_apart,
    Block.u32_putU16_apart]

/-- From `disk` to `disk'` the superblock is the same, the bitmap still marks
the metadata, every dinode has its block numbers, and only the dinodes in
`changed` have another head. -/
structure MetaStep (changed : Nat → Prop) (disk disk' : Nat → Block) : Prop where
  first : disk' 1 = disk 1
  reserved : Reserved disk'
  addrs : ∀ n, n < (superOf disk).ninodes.toNat →
    (dinodeAt disk' n).addrs = (dinodeAt disk n).addrs
  other : ∀ n, n < (superOf disk).ninodes.toNat → ¬changed n →
    dinodeAt disk' n = dinodeAt disk n

namespace MetaStep

variable {disk disk' disk'' : Nat → Block} {changed changed' : Nat → Prop}

theorem super (step : MetaStep changed disk disk') : superOf disk' = superOf disk :=
  congrArg Block.supperblock step.first

theorem trans (left : MetaStep changed disk disk') (right : MetaStep changed' disk' disk'') :
    MetaStep (fun n => changed n ∨ changed' n) disk disk'' := by
  refine ⟨right.first.trans left.first, right.reserved, ?_, ?_⟩
  · intro n bound
    rw [right.addrs n (by rw [left.super]; exact bound), left.addrs n bound]
  · intro n bound unchanged
    rw [right.other n (by rw [left.super]; exact bound) fun hit => unchanged (Or.inr hit),
      left.other n bound fun hit => unchanged (Or.inl hit)]

theorem weaken (step : MetaStep changed disk disk') (wider : ∀ n, changed n → changed' n) :
    MetaStep changed' disk disk' :=
  ⟨step.first, step.reserved, step.addrs, fun n bound unchanged =>
    step.other n bound fun hit => unchanged (wider n hit)⟩

/-- A change that leaves superblock and inode blocks alone. -/
theorem of_low (reserved : Reserved disk')
    (low : ∀ sector, 0 < sector → sector < inodeEnd (superOf disk) →
      disk' sector = disk sector) : MetaStep (fun _ => False) disk disk' := by
  have same : ∀ n, n < (superOf disk).ninodes.toNat → dinodeAt disk' n = dinodeAt disk n := by
    intro n bound
    have sector := IBLOCK_bounds bound
    unfold dinodeAt
    rw [low _ (by omega) sector.2]
  have lowest := three_le_inodeEnd (superOf disk)
  exact ⟨low 1 (by omega) (by omega), reserved, fun n bound => by rw [same n bound],
    fun n bound _ => same n bound⟩

theorem refl (reserved : Reserved disk) : MetaStep (fun _ => False) disk disk :=
  of_low reserved fun _ _ _ => rfl

theorem iupdate (reserved : Reserved disk) (ip : Inode)
    (inArea : ip.inum.toNat < (superOf disk).ninodes.toNat) :
    MetaStep (fun n => n = ip.inum.toNat) disk (updateOnDisk disk ip) := by
  have sector := IBLOCK_bounds inArea
  refine ⟨updateOnDisk_other (by omega), reserved.inodeBlock sector.1 sector.2 _, ?_, ?_⟩
  · intro n bound
    by_cases same : n = ip.inum.toNat
    · subst same
      rw [dinodeAt_updateOnDisk]
    · rw [dinodeAt_updateOnDisk_other same]
  · intro n bound different
    exact dinodeAt_updateOnDisk_other different

theorem alloc (reserved : Reserved disk) {inum : Nat} (type : UInt16)
    (inArea : inum < (superOf disk).ninodes.toNat) :
    MetaStep (fun n => n = inum) disk (allocOnDisk disk inum type) := by
  have sector := IBLOCK_bounds inArea
  refine ⟨Function.update_of_ne (by omega) _ _,
    reserved.inodeBlock sector.1 sector.2 _, ?_,
    fun n _ different => dinodeAt_allocOnDisk_other different⟩
  intro n bound
  by_cases same : n = inum
  · subst same
    rw [dinodeAt_allocOnDisk]
  · rw [dinodeAt_allocOnDisk_other same]

theorem dataBlock (reserved : Reserved disk) {blk : Nat} (data : InData (superOf disk) blk)
    (block : Block) : MetaStep (fun _ => False) disk (Function.update disk blk block) := by
  refine of_low (reserved.dataBlock data block) ?_
  intro sector positive low
  have behind := inodeEnd_lt_dataStart (superOf disk)
  unfold InData at data
  exact Function.update_of_ne (by omega) _ _

end MetaStep

/-- From `before` to `after` the entries of the blocks in `touched` were
filled, where they were still zero. -/
structure Grown (touched : Nat → Prop) (before after : Addrs) : Prop where
  kept : ∀ k, before k ≠ 0 → after k = before k
  mapped : ∀ lbn, touched lbn → after (addrSlot lbn) ≠ 0
  rest : ∀ k, (∀ lbn, touched lbn → addrSlot lbn ≠ k) → after k = before k

namespace Grown

variable {touched touched' : Nat → Prop} {before middle after : Addrs}

theorem refl (addrs : Addrs) (none : ∀ lbn, ¬touched lbn) : Grown touched addrs addrs :=
  ⟨fun _ _ => rfl, fun lbn hit => absurd hit (none lbn), fun _ _ => rfl⟩

theorem trans (left : Grown touched before middle) (right : Grown touched' middle after) :
    Grown (fun lbn => touched lbn ∨ touched' lbn) before after := by
  refine ⟨?_, ?_, ?_⟩
  · intro k used
    have first := left.kept k used
    rw [right.kept k (by rw [first]; exact used), first]
  · rintro lbn (hit | hit)
    · have first := left.mapped lbn hit
      rw [right.kept _ first]
      exact first
    · exact right.mapped lbn hit
  · intro k away
    rw [right.rest k fun lbn hit => away lbn (Or.inr hit),
      left.rest k fun lbn hit => away lbn (Or.inl hit)]

theorem congr (grown : Grown touched before after) (same : ∀ lbn, touched' lbn ↔ touched lbn) :
    Grown touched' before after :=
  ⟨grown.kept, fun lbn hit => grown.mapped lbn ((same lbn).mp hit),
    fun k away => grown.rest k fun lbn hit => away lbn ((same lbn).mpr hit)⟩

/-- Nothing grew exactly when everything touched was there. -/
theorem eq_iff (grown : Grown touched before after) :
    after = before ↔ ∀ lbn, touched lbn → before (addrSlot lbn) ≠ 0 := by
  constructor
  · intro same lbn hit
    rw [← same]
    exact grown.mapped lbn hit
  · intro present
    funext k
    by_cases away : ∀ lbn, touched lbn → addrSlot lbn ≠ k
    · exact grown.rest k away
    · simp only [not_forall, not_not] at away
      obtain ⟨lbn, hit, same⟩ := away
      subst same
      exact grown.kept _ (present lbn hit)

end Grown

/-- Byte `j` of a write of `src` at `off` goes to file block `lbn`. -/
def Touched (off : Nat) (src : List UInt8) (lbn : Nat) : Prop :=
  ∃ j, j < src.length ∧ (off + j) / BSIZE = lbn

/-- The first piece of a write lies in one block, the rest follows it. -/
theorem touched_piece {off : Nat} {src : List UInt8} (nonempty : src ≠ []) (lbn : Nat) :
    Touched off src lbn ↔ lbn = off / BSIZE ∨
      Touched (off + min (BSIZE - off % BSIZE) src.length)
        (src.drop (min (BSIZE - off % BSIZE) src.length)) lbn := by
  have positive : 0 < src.length := List.length_pos_iff.mpr nonempty
  unfold Touched
  simp only [List.length_drop, BSIZE]
  constructor
  · rintro ⟨j, bound, rfl⟩
    by_cases first : j < min (512 - off % 512) src.length
    · left
      omega
    · exact Or.inr ⟨j - min (512 - off % 512) src.length, by omega, by
        congr 1
        omega⟩
  · rintro (rfl | ⟨j, bound, rfl⟩)
    · exact ⟨0, positive, by simp⟩
    · exact ⟨min (512 - off % 512) src.length + j, by omega, by rw [Nat.add_assoc]⟩

/-- The direct entries of `addrs` are zero or lie in the data area. -/
def Placed (sb : Supperblock) (addrs : Addrs) : Prop :=
  ∀ k, k ≠ indirectSlot → InData sb (addrs k).toNat

/-- What a write to direct blocks does to the disk and to the block numbers. -/
structure DirectEffect (touched : Nat → Prop) (disk disk' : Nat → Block)
    (addrs addrs' : Addrs) : Prop where
  step : MetaStep (fun _ => False) disk disk'
  placed : Placed (superOf disk) addrs'
  grown : Grown touched addrs addrs'

theorem directAlloc_effect {disk disk' : Nat → Block} {addrs addrs' : Addrs} {lbn : Nat}
    (reserved : Reserved disk) (placed : Placed (superOf disk) addrs) (direct : lbn < NDIRECT)
    (run : directAlloc disk addrs (addrSlot lbn) = some (disk', addrs')) :
    DirectEffect (fun k => k = lbn) disk disk' addrs addrs' := by
  unfold directAlloc at run
  by_cases empty : addrs (addrSlot lbn) = 0
  · rw [if_pos empty] at run
    obtain ⟨b, found, same⟩ := Option.map_eq_some_iff.mp run
    cases same
    obtain ⟨lower, upper, -⟩ := reserved.firstFree_data found
    obtain ⟨number, nonzero⟩ := reserved.firstFree_word found
    refine ⟨MetaStep.of_low (reserved.alloc upper) fun sector _ low =>
      reserved.mark_low upper low, ?_, ?_, ?_, ?_⟩
    · intro k entry
      by_cases here : k = addrSlot lbn
      · subst here
        rw [Function.update_self, number]
        exact Or.inr lower
      · rw [Function.update_of_ne here]
        exact placed k entry
    · intro k used
      refine Function.update_of_ne ?_ _ _
      intro same
      subst same
      exact used empty
    · rintro _ rfl
      rw [Function.update_self]
      exact nonzero
    · intro k away
      exact Function.update_of_ne (Ne.symm (away lbn rfl)) _ _
  · rw [if_neg empty] at run
    cases run
    exact ⟨MetaStep.refl reserved, placed, fun _ _ => rfl, fun _ hit => hit ▸ empty,
      fun _ _ => rfl⟩

theorem directRun_effect (fuel off : Nat) (src : List UInt8) {disk disk' : Nat → Block}
    {addrs addrs' : Addrs} (reserved : Reserved disk) (placed : Placed (superOf disk) addrs)
    (enough : src.length ≤ fuel) (direct : InDirect off src)
    (run : directRun fuel off src disk addrs = some (disk', addrs')) :
    DirectEffect (Touched off src) disk disk' addrs addrs' := by
  induction fuel generalizing off src disk addrs with
  | zero =>
      have empty : src = [] := List.eq_nil_of_length_eq_zero (by omega)
      subst empty
      cases run
      exact ⟨MetaStep.refl reserved, placed, Grown.refl _ fun lbn ⟨j, bound, _⟩ => by
        simp at bound⟩
  | succ fuel ih =>
      unfold directRun at run
      by_cases empty : src = []
      · subst empty
        rw [if_pos rfl] at run
        cases run
        exact ⟨MetaStep.refl reserved, placed, Grown.refl _ fun lbn ⟨j, bound, _⟩ => by
          simp at bound⟩
      · rw [if_neg empty] at run
        have inDirect := direct.block empty
        have step : 0 < min (BSIZE - off % BSIZE) src.length := by
          have positive : 0 < src.length := List.length_pos_iff.mpr empty
          have := Nat.mod_lt off (show 0 < BSIZE by decide)
          omega
        obtain ⟨⟨disk₁, addrs₁⟩, alloc, rest⟩ := Option.bind_eq_some_iff.mp run
        have first := directAlloc_effect reserved placed inDirect alloc
        have place : InData (superOf disk₁) (addrs₁ (addrSlot (off / BSIZE))).toNat := by
          rw [first.step.super]
          exact first.placed _ (addrSlot_direct inDirect)
        have stored := MetaStep.dataBlock first.step.reserved place
          ((disk₁ (addrs₁ (addrSlot (off / BSIZE))).toNat).put (off % BSIZE)
            (src.take (min (BSIZE - off % BSIZE) src.length)))
        have last := ih _ _ stored.reserved
          (by rw [stored.super, first.step.super]; exact first.placed)
          (by simp only [List.length_drop]; omega) direct.rest rest
        refine ⟨((first.step.trans stored).trans last.step).weaken ?_, ?_, ?_⟩
        · rintro n ((hit | hit) | hit) <;> exact hit
        · have final := last.placed
          rw [stored.super, first.step.super] at final
          exact final
        · exact (first.grown.trans last.grown).congr (touched_piece empty)

/-- A slot in use: the inode is one of the root device, inside the inode area,
and its direct blocks are where data may be. -/
structure Seated (sb : Supperblock) (ip : Inode) : Prop where
  dev : ip.dev = rootdev
  inArea : ip.inum.toNat < sb.ninodes.toNat
  placed : Placed sb ip.addrs

/-- The file system is in order: nothing is resident twice, and no block number
in the table or on the disk points at metadata. -/
structure Orderly (s : State) : Prop where
  ready : s.bio.Ready 1
  reserved : Reserved s.disk
  seated : ∀ i, 0 < (s.inode i).count → Seated (superOf s.disk) (s.inode i)
  unique : ∀ i j, 0 < (s.inode i).count → 0 < (s.inode j).count →
    (s.inode i).inum = (s.inode j).inum → i = j
  dinodes : ∀ n, n < (superOf s.disk).ninodes.toNat →
    Placed (superOf s.disk) (dinodeAt s.disk n).addrs

/-- `t` is in order too and has the dinodes of `s` outside `changed`. -/
structure OrderlyStep (changed : Nat → Prop) (s t : State) : Prop where
  orderly : Orderly t
  disk : MetaStep changed s.disk t.disk

/-- The dinode with the fields of an inode. -/
def Inode.dinode (ip : Inode) : Dinode where
  type := ip.type
  major := ip.major
  minor := ip.minor
  nlink := ip.nlink
  size := ip.size
  addrs := ip.addrs

/-- The dinode of slot `i` on the disk has the slot's fields, apart from the
block numbers, which are `addrs`. -/
def DiskCopy (s : State) (i : Fin NINODE) (addrs : Addrs) : Prop :=
  dinodeAt s.disk (s.inode i).inum.toNat = { (s.inode i).dinode with addrs := addrs }

/-- The slot's fields are those of its dinode. -/
def Synced (s : State) (i : Fin NINODE) : Prop := DiskCopy s i (s.inode i).addrs

/-- From `s` to `t` one reference to slot `i` is handed out. -/
structure Handed (s t : State) (i : Fin NINODE) : Prop where
  others : ∀ j, j ≠ i → t.inode j = s.inode j
  count : (t.inode i).count = (s.inode i).count + 1
  held : 0 < (t.inode i).count
  kept : 0 < (s.inode i).count →
    t.inode i = { s.inode i with count := (s.inode i).count + 1, busy := true }

namespace Orderly

variable {s t : State} {i : Fin NINODE} {disk : Nat → Block} {ip : Inode}
  {changed : Nat → Prop}

/-- A step that writes one slot and the disk keeps order when the slot is
seated and its inode is nowhere else. -/
theorem write (orderly : Orderly s) (bio : Settled s.bio t.bio disk)
    (inode : t.inode = Function.update s.inode i ip) (step : MetaStep changed s.disk disk)
    (seated : 0 < ip.count → Seated (superOf s.disk) ip)
    (alone : 0 < ip.count → ∀ j, j ≠ i → 0 < (s.inode j).count →
      (s.inode j).inum ≠ ip.inum) : OrderlyStep changed s t := by
  have sectors : t.disk = disk := bio.disk
  have super : superOf t.disk = superOf s.disk := by rw [sectors, step.super]
  have here : t.inode i = ip := by rw [inode, Function.update_self]
  have there : ∀ j, j ≠ i → t.inode j = s.inode j := by
    intro j different
    rw [inode, Function.update_of_ne different]
  refine ⟨⟨bio.ready orderly.ready, by rw [sectors]; exact step.reserved, ?_, ?_, ?_⟩,
    by rw [sectors]; exact step⟩
  · intro j held
    rw [super]
    by_cases same : j = i
    · subst same
      rw [here] at held ⊢
      exact seated held
    · rw [there j same] at held ⊢
      exact orderly.seated j held
  · intro j k heldJ heldK same
    by_cases atJ : j = i
    · by_cases atK : k = i
      · rw [atJ, atK]
      · subst atJ
        rw [here, there k atK] at same
        rw [here] at heldJ
        rw [there k atK] at heldK
        exact absurd same.symm (alone heldJ k atK heldK)
    · by_cases atK : k = i
      · subst atK
        rw [here, there j atJ] at same
        rw [here] at heldK
        rw [there j atJ] at heldJ
        exact absurd same (alone heldK j atJ heldJ)
      · rw [there j atJ, there k atK] at same
        rw [there j atJ] at heldJ
        rw [there k atK] at heldK
        exact orderly.unique j k heldJ heldK same
  · intro n bound
    rw [super] at bound ⊢
    rw [sectors, step.addrs n bound]
    exact orderly.dinodes n bound

/-- The same for a slot that was in use and keeps its inode. -/
theorem rewrite (orderly : Orderly s) (bio : Settled s.bio t.bio disk)
    (inode : t.inode = Function.update s.inode i ip) (step : MetaStep changed s.disk disk)
    (held : 0 < (s.inode i).count) (dev : ip.dev = (s.inode i).dev)
    (inum : ip.inum = (s.inode i).inum) (placed : Placed (superOf s.disk) ip.addrs) :
    OrderlyStep changed s t := by
  have seat := orderly.seated i held
  refine orderly.write bio inode step (fun _ => ⟨dev.trans seat.dev, ?_, placed⟩) ?_
  · rw [inum]
    exact seat.inArea
  · intro _ j different heldJ same
    exact different (orderly.unique j i heldJ held (same.trans inum))

/-- `iget` of an inode inside the inode area. -/
theorem iget (orderly : Orderly s) (inum : UInt32)
    (inArea : inum.toNat < (superOf s.disk).ninodes.toNat) :
    Ensures (iget rootdev inum) s fun i t =>
      OrderlyStep (fun _ => False) s t ∧ Handed s t i ∧ t.disk = s.disk ∧
        (t.inode i).inum = inum ∧
        (findSlot s rootdev inum = none → (s.inode i).count = 0) ∧
        ((s.inode i).count = 0 → Synced t i) := by
  refine (iget_ensures rootdev inum orderly.ready).mono ?_
  rintro i t ⟨ip, slot, wrote⟩
  have step := MetaStep.refl orderly.reserved
  have here := wrote.at_slot
  rcases slot with ⟨found, -, rfl⟩ | ⟨missing, free, rfl⟩
  · obtain ⟨held, -, same⟩ := findSlot_some found
    refine ⟨orderly.rewrite wrote.bio wrote.inode step held rfl rfl
      (orderly.seated i held).placed, ⟨fun j other => wrote.other other, ?_, ?_, fun _ => here⟩,
      wrote.disk_eq, ?_, ?_, ?_⟩
    · rw [here]
    · rw [here]
      simp only
      omega
    · rw [here]
      exact same
    · intro missing
      rw [found] at missing
      cases missing
    · intro free
      omega
  · refine ⟨orderly.write wrote.bio wrote.inode step
      (fun _ => ⟨rfl, inArea, orderly.dinodes _ inArea⟩) ?_,
      ⟨fun j other => wrote.other other, ?_, ?_, ?_⟩, wrote.disk_eq, ?_, fun _ => free, ?_⟩
    · intro _ j _ held
      exact findSlot_none missing held (orderly.seated j held).dev
    · rw [here, free]
      rfl
    · rw [here]
      exact Int.one_pos
    · intro held
      omega
    · rw [here]
      rfl
    · intro _
      unfold Synced DiskCopy
      rw [here, wrote.disk_eq]
      rfl

/-- `iput`, `ilock` and `iunlock` change the count and the lock of a slot. -/
theorem relock (orderly : Orderly s) (count : Int) (busy : Bool) (bio : t.bio = s.bio)
    (inode : t.inode = Function.update s.inode i
      { s.inode i with count := count, busy := busy })
    (was : 0 < count → 0 < (s.inode i).count) : OrderlyStep (fun _ => False) s t := by
  have settled : Settled s.bio t.bio s.disk := by
    rw [bio]
    exact Settled.refl s.bio
  refine orderly.write settled inode (MetaStep.refl orderly.reserved) ?_ ?_
  · intro positive
    have seat := orderly.seated i (was positive)
    exact ⟨seat.dev, seat.inArea, seat.placed⟩
  · intro positive j different held same
    exact different (orderly.unique j i held (was positive) same)

end Orderly

/-- What a write to direct blocks of slot `i` does. -/
structure WriteEffect (s t : State) (i : Fin NINODE) (touched : Nat → Prop) : Prop where
  step : OrderlyStep (fun n => n = (s.inode i).inum.toNat) s t
  others : ∀ j, j ≠ i → t.inode j = s.inode j
  count : (t.inode i).count = (s.inode i).count
  inum : (t.inode i).inum = (s.inode i).inum
  type : (t.inode i).type = (s.inode i).type
  grown : Grown touched (s.inode i).addrs (t.inode i).addrs
  copy : DiskCopy t i (dinodeAt s.disk (s.inode i).inum.toNat).addrs

theorem writei_effect {s : State} (i : Fin NINODE) (src : List UInt8) (off : Nat)
    (orderly : Orderly s) (held : 0 < (s.inode i).count) (file : (s.inode i).type = T_FILE)
    (direct : InDirect off src) :
    Ensures (writei i src off) s fun _ t => WriteEffect s t i (Touched off src) := by
  cases run : directWrite s.disk (s.inode i) src off with
  | none =>
      have full := writei_direct_full i src off file orderly.ready direct run
      intro r t returned
      rw [full] at returned
      cases returned
  | some next =>
      obtain ⟨disk, ip⟩ := next
      refine (writei_direct_yields i src off file orderly.ready direct run).ensures.mono ?_
      rintro r t ⟨-, wrote⟩
      obtain ⟨disk₁, loop, rfl⟩ := directWrite_split run
      have fields := directWrite_fields run
      have seat := orderly.seated i held
      have inum : ip.inum = (s.inode i).inum := by rw [fields]
      have effect := directRun_effect src.length off src orderly.reserved seat.placed
        (le_refl _) direct loop
      have inArea : ip.inum.toNat < (superOf disk₁).ninodes.toNat := by
        rw [effect.step.super, inum]
        exact seat.inArea
      have updated := MetaStep.iupdate effect.step.reserved _ inArea
      have both : MetaStep (fun n => n = (s.inode i).inum.toNat) s.disk
          (updateOnDisk disk₁ ip) := by
        refine (effect.step.trans updated).weaken ?_
        rintro n (never | hit)
        · exact never.elim
        · rw [hit, inum]
      refine ⟨orderly.rewrite wrote.bio wrote.inode both held (by rw [fields]) inum
        effect.placed, fun j other => wrote.other other, ?_, ?_, ?_, ?_, ?_⟩
      · rw [wrote.at_slot, fields]
      · rw [wrote.at_slot, inum]
      · rw [wrote.at_slot, fields]
      · rw [wrote.at_slot]
        exact effect.grown
      · unfold DiskCopy
        rw [wrote.at_slot, wrote.disk_eq, dinodeAt_updateOnDisk, inum,
          effect.step.other _ seat.inArea (fun never => never)]
        rfl

/-- `mknod` may be called: the directory is held and has no indirect blocks,
and there is an unused dinode. -/
structure MknodReady (s : State) (dp : Fin NINODE) : Prop where
  held : 0 < (s.inode dp).count
  direct : (s.inode dp).size.toNat ≤ NDIRECT * BSIZE
  unused : ∃ m, 1 ≤ m ∧ m < (superOf s.disk).ninodes.toNat ∧ (dinodeAt s.disk m).type = 0

theorem onBio_ensures {α : Type} {s : State} {inner : Act Fault Bio α} {post : α → Bio → Prop}
    (met : Ensures inner s.bio post) :
    Ensures (onBio inner) s fun value t => post value t.bio ∧ t.inode = s.inode :=
  Ensures.zoom (met.mono fun _ _ done => ⟨done, rfl⟩)

/-- A step that writes the disk and no slot. -/
theorem Orderly.diskOnly {s t : State} {disk : Nat → Block} {changed : Nat → Prop}
    (orderly : Orderly s) (bio : Settled s.bio t.bio disk) (inode : t.inode = s.inode)
    (step : MetaStep changed s.disk disk) : OrderlyStep changed s t := by
  refine orderly.write (i := 0) bio ?_ step (orderly.seated 0) ?_
  · rw [inode, Function.update_eq_self]
  · intro held j different heldJ same
    exact different (orderly.unique j 0 heldJ held same)

/-- Every slot in use holds an inode that the disk says is in use. -/
def Used (s : State) : Prop :=
  ∀ j, 0 < (s.inode j).count → (dinodeAt s.disk (s.inode j).inum.toNat).type ≠ 0

/-- `ialloc` returns an inode whose dinode was unused, freshly loaded. -/
structure IallocEffect (s t : State) (type : UInt16) (i : Fin NINODE) : Prop where
  step : OrderlyStep (fun n => n = (t.inode i).inum.toNat) s t
  handed : Handed s t i
  free : (s.inode i).count = 0
  unused : (dinodeAt s.disk (t.inode i).inum.toNat).type = 0
  dinode : dinodeAt t.disk (t.inode i).inum.toNat =
    { dinodeAt s.disk (t.inode i).inum.toNat with type := type }
  synced : Synced t i

theorem ialloc_effect {s : State} (type : UInt16) (orderly : Orderly s) (used : Used s)
    (unused : ∃ m, 1 ≤ m ∧ m < (superOf s.disk).ninodes.toNat ∧
      (dinodeAt s.disk m).type = 0) :
    Ensures (ialloc rootdev type) s fun i t => IallocEffect s t type i := by
  obtain ⟨m, lower, upper, free⟩ := unused
  have bound : intBound (s.bio.sd.block 1).supperblock.ninodes =
      (superOf s.disk).ninodes.toNat := by
    unfold intBound
    rw [if_pos]
    · rfl
    · exact orderly.reserved.geometry.ninodes
  unfold ialloc
  refine Ensures.seq (onBio_ensures (iallocDisk_yields rootdev type orderly.ready lower
    (by rw [bound]; exact upper) free).ensures) ?_
  rintro n t ⟨⟨below, zero, settled⟩, inode⟩
  have inArea : n < (superOf s.disk).ninodes.toNat := by omega
  have word : (UInt32.ofNat n).toNat = n :=
    UInt32.toNat_ofNat_of_lt' (lt_trans inArea
      (lt_trans orderly.reserved.geometry.ninodes (by decide)))
  have allocated := orderly.diskOnly settled inode
    (MetaStep.alloc orderly.reserved type inArea)
  refine (allocated.orderly.iget (UInt32.ofNat n)
    (by rw [word, allocated.disk.super]; exact inArea)).mono ?_
  rintro i u ⟨loaded, handed, sectors, inum, fresh, load⟩
  have missing : findSlot t rootdev (UInt32.ofNat n) = none := by
    cases found : findSlot t rootdev (UInt32.ofNat n) with
    | none => rfl
    | some j =>
        obtain ⟨heldJ, -, same⟩ := findSlot_some found
        rw [inode] at heldJ same
        have busy := used j heldJ
        rw [same, word] at busy
        exact absurd zero busy
  have wasFree := fresh missing
  have number : (u.inode i).inum.toNat = n := by rw [inum, word]
  have synced := load wasFree
  rw [inode] at wasFree
  refine ⟨⟨loaded.orderly, (allocated.disk.trans loaded.disk).weaken ?_⟩,
    ⟨fun j other => ?_, ?_, handed.held, fun held => ?_⟩, wasFree, ?_, ?_, synced⟩
  · rintro k (hit | never)
    · rw [number]
      exact hit
    · exact never.elim
  · rw [handed.others j other, inode]
  · rw [handed.count, inode]
  · omega
  · rw [number]
    exact zero
  · rw [number, sectors, show t.disk = _ from settled.disk, dinodeAt_allocOnDisk]
    rfl

/-- New head fields for a held slot, followed by `iupdate`. -/
theorem Orderly.headUpdate {s : State} (orderly : Orderly s) (i : Fin NINODE)
    (held : 0 < (s.inode i).count) (change : Inode → Inode)
    (keeps : ∀ ip, (change ip).dev = ip.dev ∧ (change ip).inum = ip.inum ∧
      (change ip).count = ip.count ∧ (change ip).addrs = ip.addrs) :
    Ensures (modifyInode i change >>= fun _ => iupdateSlot i) s fun _ t =>
      OrderlyStep (fun n => n = (s.inode i).inum.toNat) s t ∧
        t.inode = Function.update s.inode i (change (s.inode i)) ∧
        DiskCopy t i (dinodeAt s.disk (s.inode i).inum.toNat).addrs := by
  obtain ⟨dev, inum, -, addrs⟩ := keeps (s.inode i)
  have seat := orderly.seated i held
  refine Ensures.seq (modifyInode_wrote change (Wrote.refl s i)).ensures ?_
  intro _ t changed
  refine (iupdateSlot_wrote orderly.ready changed).ensures.mono ?_
  intro _ u wrote
  have step := MetaStep.iupdate orderly.reserved (change (s.inode i))
    (by rw [inum]; exact seat.inArea)
  rw [inum] at step
  refine ⟨orderly.rewrite wrote.bio wrote.inode step held dev inum
    (by rw [addrs]; exact seat.placed), wrote.inode, ?_⟩
  unfold DiskCopy
  rw [wrote.at_slot, wrote.disk_eq, dinodeAt_updateOnDisk, inum]
  rfl

/-- `mknod` changes the dinodes of the directory and of the new inode, which
was unused before. -/
structure MknodEffect (s t : State) (dp : Fin NINODE) (type : UInt16) (i : Fin NINODE) :
    Prop where
  step : OrderlyStep (fun n => n = (t.inode i).inum.toNat ∨ n = (s.inode dp).inum.toNat) s t
  apart : i ≠ dp
  free : (s.inode i).count = 0
  count : (t.inode i).count = 1
  unused : (dinodeAt s.disk (t.inode i).inum.toNat).type = 0
  others : ∀ j, j ≠ i → j ≠ dp → t.inode j = s.inode j
  dir : t.inode dp =
    { s.inode dp with size := (s.inode dp).size + UInt32.ofNat direntSize }
  dirCopy : DiskCopy t dp (dinodeAt s.disk (s.inode dp).inum.toNat).addrs
  type : (t.inode i).type = type
  size : (t.inode i).size = 0
  synced : Synced t i

theorem mknod_effect {s : State} (dp : Fin NINODE) (path : List UInt8)
    (type major minor : UInt16) (orderly : Orderly s) (used : Used s)
    (ready : MknodReady s dp) :
    Ensures (mknod dp path type major minor) s fun i t => MknodEffect s t dp type i := by
  unfold mknod
  refine Ensures.step (t := s) (a := s.inode dp) rfl ?_
  rw [(orderly.seated dp ready.held).dev]
  refine Ensures.seq (ialloc_effect type orderly used ready.unused) ?_
  intro i t alloc
  have apart : i ≠ dp := by
    intro same
    subst same
    have held := ready.held
    have free := alloc.free
    omega
  have dirT : t.inode dp = s.inode dp := alloc.handed.others dp (Ne.symm apart)
  rw [← Act.bind_assoc]
  refine Ensures.seq (alloc.step.orderly.headUpdate i alloc.handed.held
    (fun ip => { ip with major := major, minor := minor, size := 0, nlink := 0 })
    fun ip => ⟨rfl, rfl, rfl, rfl⟩) ?_
  rintro _ u ⟨fresh, inodesU, copyU⟩
  have slotU : u.inode i =
      { t.inode i with major := major, minor := minor, size := 0, nlink := 0 } := by
    rw [inodesU, Function.update_self]
  have dirU : u.inode dp = s.inode dp := by
    rw [inodesU, Function.update_of_ne (Ne.symm apart), dirT]
  have heldU : 0 < (u.inode dp).count := by
    rw [dirU]
    exact ready.held
  refine Ensures.step (t := u) (a := u.inode i) rfl ?_
  refine Ensures.step (t := u) (a := u.inode dp) rfl ?_
  refine Ensures.seq (onBio_ensures (mknodEnter_ensures fresh.orderly.ready (u.inode dp) _ path
    (by rw [dirU]; exact ready.direct))) ?_
  rintro _ v ⟨⟨lbn, block, direct, settled⟩, inodesV⟩
  have place := (fresh.orderly.seated dp heldU).placed _ (addrSlot_direct direct)
  have entered := fresh.orderly.diskOnly settled inodesV
    (MetaStep.dataBlock fresh.orderly.reserved place block)
  rw [← Act.bind_assoc]
  refine Ensures.seq (entered.orderly.headUpdate dp (by rw [inodesV]; exact heldU)
    (fun dir => { dir with size := dir.size + UInt32.ofNat direntSize })
    fun dir => ⟨rfl, rfl, rfl, rfl⟩) ?_
  rintro _ w ⟨grown, inodesW, copyW⟩
  apply Ensures.pure
  have slotW : w.inode i = u.inode i := by
    rw [inodesW, inodesV, Function.update_of_ne apart]
  have number : (w.inode i).inum = (t.inode i).inum := by rw [slotW, slotU]
  have dirV : v.inode dp = s.inode dp := by rw [inodesV, dirU]
  have heldHere : 0 < (u.inode i).count := by
    rw [slotU]
    exact alloc.handed.held
  have inArea := (fresh.orderly.seated i heldHere).inArea
  have dirArea := (orderly.seated dp ready.held).inArea
  -- the two inodes are different ones, so neither `iupdate` touches the other
  have different : ¬(u.inode i).inum.toNat = (s.inode dp).inum.toNat := by
    rw [← dirU]
    intro same
    exact apart (fresh.orderly.unique i dp heldHere heldU (UInt32.toNat_inj.mp same))
  have inumU : (u.inode i).inum = (t.inode i).inum := by rw [slotU]
  constructor
  case step =>
    refine ⟨grown.orderly, ?_⟩
    refine (((alloc.step.disk.trans fresh.disk).trans entered.disk).trans grown.disk).weaken ?_
    rw [number, dirV]
    rintro n (((hit | hit) | never) | hit)
    · exact Or.inl hit
    · exact Or.inl hit
    · exact never.elim
    · exact Or.inr hit
  case apart => exact apart
  case free => exact alloc.free
  case count =>
    rw [slotW, slotU]
    show (t.inode i).count = 1
    rw [alloc.handed.count, alloc.free]
    rfl
  case unused =>
    rw [number]
    exact alloc.unused
  case others =>
    intro j new dir
    rw [inodesW, inodesV, Function.update_of_ne dir, inodesU, Function.update_of_ne new,
      alloc.handed.others j new]
  case dir => rw [inodesW, Function.update_self, dirV]
  case dirCopy =>
    rw [dirV] at copyW
    have addrs : (dinodeAt v.disk (s.inode dp).inum.toNat).addrs =
        (dinodeAt s.disk (s.inode dp).inum.toNat).addrs :=
      (((alloc.step.disk.trans fresh.disk).trans entered.disk).addrs _ dirArea)
    rw [addrs] at copyW
    exact copyW
  case type =>
    rw [slotW, slotU]
    show (t.inode i).type = type
    have copy := alloc.synced
    unfold Synced DiskCopy at copy
    rw [alloc.dinode] at copy
    exact (congrArg Dinode.type copy).symm
  case size => rw [slotW, slotU]
  case synced =>
    have blocks : (u.inode i).addrs = (dinodeAt t.disk (t.inode i).inum.toNat).addrs := by
      rw [alloc.synced, slotU]
    unfold Synced DiskCopy
    rw [slotW, grown.disk.other _ (by rw [entered.disk.super]; exact inArea)
      (by rw [dirV]; exact different), entered.disk.other _ inArea fun never => never, copyU,
      blocks]

/-- The small disk with an empty file as inode 1 and nothing resident. -/
def emptyFileState : State where
  bio := ⟨⟨fun sector => if sector = 2 then
    (Block.zero.putU16 dinodeSize T_FILE).putU16 (dinodeSize + 6) 1
    else smallDisk sector, []⟩, fun _ => ⟨false, Block.zero⟩⟩
  inode _ := emptyInode
  cons := ⟨fun _ => 0, 0, 0, []⟩
  wakeups := []

theorem emptyFileState_orderly : Orderly emptyFileState where
  ready := ⟨rfl, by decide +kernel⟩
  reserved := by
    refine ⟨⟨by decide +kernel, by decide +kernel, by decide +kernel⟩, ?_⟩
    have start : dataStart (superOf emptyFileState.disk) = 5 := by decide +kernel
    have bits : ∀ b, b < 5 →
        marked emptyFileState.disk (superOf emptyFileState.disk).ninodes b = true := by
      decide +kernel
    rw [start]
    exact bits
  seated := by
    intro i held
    exact absurd held (by simp [emptyFileState, emptyInode])
  unique := by
    intro i j held
    exact absurd held (by simp [emptyFileState, emptyInode])
  dinodes := by
    have count : (superOf emptyFileState.disk).ninodes.toNat = 3 := by decide +kernel
    have zero : ∀ n, n < 3 → ∀ k, (dinodeAt emptyFileState.disk n).addrs k = 0 := by
      decide +kernel
    intro n bound k _
    rw [count] at bound
    exact Or.inl (by rw [zero n bound k]; rfl)

end Gcgos.Fs
