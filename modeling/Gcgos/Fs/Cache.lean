import Gcgos.Fs.Orderly
import Gcgos.Lib.Run
import Mathlib.Data.Finset.Card

/-!
# The inode table as a cache

The table holds copies of dinodes, with the number of references to each. A run
of `iget`, `iput`, `iincref`, `ialloc`, `mknod` and `writei` keeps the copies
equal to the dinodes in everything but the block numbers, and the counts equal
to the references that are out. `ialloc` writes the disk behind the table: it
does no harm because no unused dinode is ever resident.

A directory may only have direct blocks, as `bmap` is wrong about the others.
No call checks this. It holds because an entry is made for a dinode that was
unused, of which there are not enough to fill the direct blocks.
-/

set_option autoImplicit false

namespace Gcgos.Fs

open Act Bio ByteMap

/-- The numbers of the unused dinodes. -/
def unusedDinodes (disk : Nat → Block) : Finset Nat :=
  (Finset.range (superOf disk).ninodes.toNat).filter fun n => (dinodeAt disk n).type = 0

/-- Whatever is no file could take an entry for every unused dinode and would
still fit in its direct blocks. -/
def Roomy (disk : Nat → Block) : Prop :=
  ∀ n, n < (superOf disk).ninodes.toNat → (dinodeAt disk n).type ≠ T_FILE →
    (dinodeAt disk n).size.toNat + direntSize * (unusedDinodes disk).card ≤ NDIRECT * BSIZE

/-- An image such as `mkfs` makes: the bitmap marks the metadata, block numbers
point behind it, and directories are small. -/
structure WellFormed (disk : Nat → Block) : Prop where
  reserved : Reserved disk
  dinodes : ∀ n, n < (superOf disk).ninodes.toNat →
    Placed (superOf disk) (dinodeAt disk n).addrs
  roomy : Roomy disk

section

variable {disk disk' : Nat → Block} {changed : Nat → Prop}

/-- A step whose changed dinodes are in use afterwards makes none unused. -/
theorem MetaStep.unused_subset (step : MetaStep changed disk disk')
    (inUse : ∀ n, n < (superOf disk).ninodes.toNat → changed n → (dinodeAt disk' n).type ≠ 0) :
    unusedDinodes disk' ⊆ unusedDinodes disk := by
  intro n member
  simp only [unusedDinodes, Finset.mem_filter, Finset.mem_range, step.super] at member ⊢
  obtain ⟨bound, unused⟩ := member
  by_cases hit : changed n
  · exact absurd unused (inUse n bound hit)
  · rw [step.other n bound hit] at unused
    exact ⟨bound, unused⟩

theorem Roomy.step (roomy : Roomy disk) (step : MetaStep changed disk disk')
    (inUse : ∀ n, n < (superOf disk).ninodes.toNat → changed n → (dinodeAt disk' n).type ≠ 0)
    (room : ∀ n, n < (superOf disk).ninodes.toNat → changed n →
      (dinodeAt disk' n).type ≠ T_FILE →
      (dinodeAt disk' n).size.toNat + direntSize * (unusedDinodes disk').card ≤
        NDIRECT * BSIZE) : Roomy disk' := by
  have fewer := Finset.card_le_card (step.unused_subset inUse)
  intro n bound kind
  rw [step.super] at bound
  by_cases hit : changed n
  · exact room n bound hit kind
  · rw [step.other n bound hit] at kind ⊢
    have before := roomy n bound kind
    simp only [direntSize] at *
    omega

end

/-- The slot's fields are on the disk, and it is the inode of something. -/
structure Current (s : State) (i : Fin NINODE) : Prop where
  copy : ∃ addrs, DiskCopy s i addrs
  inUse : (s.inode i).type ≠ 0

structure Coherent (s : State) : Prop where
  orderly : Orderly s
  current : ∀ i, 0 < (s.inode i).count → Current s i
  roomy : Roomy s.disk

namespace Coherent

variable {s t : State} {changed : Nat → Prop}

theorem used (coherent : Coherent s) : Used s := by
  intro j held
  obtain ⟨⟨addrs, copy⟩, inUse⟩ := coherent.current j held
  rw [copy]
  exact inUse

/-- After a step, a slot is in order that has just been copied, and one whose
dinode the step did not change. -/
theorem step (coherent : Coherent s) (step : OrderlyStep changed s t) (roomy : Roomy t.disk)
    (slots : ∀ i, 0 < (t.inode i).count → Current t i ∨
      (0 < (s.inode i).count ∧ ¬changed (s.inode i).inum.toNat ∧
        t.inode i = { s.inode i with count := (t.inode i).count, busy := (t.inode i).busy })) :
    Coherent t := by
  refine ⟨step.orderly, ?_, roomy⟩
  intro i heldNow
  rcases slots i heldNow with now | ⟨held, other, same⟩
  · exact now
  · obtain ⟨⟨addrs, copy⟩, inUse⟩ := coherent.current i held
    refine ⟨⟨addrs, ?_⟩, ?_⟩
    · unfold DiskCopy at copy ⊢
      rw [same]
      show dinodeAt t.disk (s.inode i).inum.toNat = { (s.inode i).dinode with addrs := addrs }
      rw [step.disk.other _ (coherent.orderly.seated i held).inArea other]
      exact copy
    · rw [same]
      exact inUse

theorem iget (coherent : Coherent s) (inum : UInt32)
    (inArea : inum.toNat < (superOf s.disk).ninodes.toNat)
    (allocated : (dinodeAt s.disk inum.toNat).type ≠ 0) :
    Ensures (iget rootdev inum) s fun i t => Coherent t ∧ Handed s t i := by
  refine (coherent.orderly.iget inum inArea).mono ?_
  rintro i t ⟨kept, handed, sectors, number, -, load⟩
  refine ⟨coherent.step kept (by rw [sectors]; exact coherent.roomy) ?_, handed⟩
  intro j held
  by_cases here : j = i
  · subst here
    by_cases was : 0 < (s.inode j).count
    · have now := handed.kept was
      refine Or.inr ⟨was, fun never => never, ?_⟩
      rw [now]
    · have free : (s.inode j).count = 0 := by
        have count := handed.count
        omega
      have synced := load free
      refine Or.inl ⟨⟨_, synced⟩, ?_⟩
      have kind := congrArg Dinode.type synced
      rw [sectors, number] at kind
      rw [show (t.inode j).type = _ from kind.symm]
      exact allocated
  · rw [handed.others j here] at held ⊢
    exact Or.inr ⟨held, fun never => never, rfl⟩

/-- `iput`, `iincref`, `ilock` and `iunlock`. -/
theorem relock (coherent : Coherent s) {i : Fin NINODE} (count : Int) (busy : Bool)
    (bio : t.bio = s.bio)
    (inode : t.inode = Function.update s.inode i { s.inode i with count := count, busy := busy })
    (was : 0 < count → 0 < (s.inode i).count) : Coherent t := by
  have sectors : t.disk = s.disk := congrArg (fun b => b.sd.block) bio
  refine coherent.step (coherent.orderly.relock count busy bio inode was)
    (by rw [sectors]; exact coherent.roomy) ?_
  intro j held
  by_cases here : j = i
  · subst here
    rw [inode, Function.update_self] at held ⊢
    exact Or.inr ⟨was held, fun never => never, rfl⟩
  · rw [inode, Function.update_of_ne here] at held ⊢
    exact Or.inr ⟨held, fun never => never, rfl⟩

theorem ialloc (coherent : Coherent s) {type : UInt16} (kind : type ≠ 0)
    (unused : ∃ m, 1 ≤ m ∧ m < (superOf s.disk).ninodes.toNat ∧ (dinodeAt s.disk m).type = 0) :
    Ensures (ialloc rootdev type) s fun i t => Coherent t ∧ Handed s t i := by
  refine (ialloc_effect type coherent.orderly coherent.used unused).mono ?_
  intro i t effect
  have newKind : (dinodeAt t.disk (t.inode i).inum.toNat).type = type := by rw [effect.dinode]
  have inUse : ∀ n, n < (superOf s.disk).ninodes.toNat → n = (t.inode i).inum.toNat →
      (dinodeAt t.disk n).type ≠ 0 := by
    rintro n - rfl
    rw [newKind]
    exact kind
  refine ⟨coherent.step effect.step (coherent.roomy.step effect.step.disk inUse ?_) ?_,
    effect.handed⟩
  · rintro n bound rfl -
    have fewer := Finset.card_le_card (effect.step.disk.unused_subset inUse)
    have before := coherent.roomy _ bound (by rw [effect.unused]; decide)
    rw [effect.dinode]
    simp only [direntSize] at *
    omega
  · intro j held
    by_cases here : j = i
    · subst here
      refine Or.inl ⟨⟨_, effect.synced⟩, ?_⟩
      rw [show (t.inode j).type = _ from (congrArg Dinode.type effect.synced).symm, newKind]
      exact kind
    · rw [effect.handed.others j here] at held ⊢
      refine Or.inr ⟨held, ?_, rfl⟩
      intro same
      have resident := coherent.used j held
      rw [same] at resident
      exact resident effect.unused

theorem dirRoom (coherent : Coherent s) {dp : Fin NINODE} (held : 0 < (s.inode dp).count)
    (dir : (s.inode dp).type = T_DIR) :
    (s.inode dp).size.toNat + direntSize * (unusedDinodes s.disk).card ≤ NDIRECT * BSIZE := by
  obtain ⟨⟨addrs, copy⟩, -⟩ := coherent.current dp held
  have room := coherent.roomy _ (coherent.orderly.seated dp held).inArea
  rw [copy] at room
  apply room
  show (s.inode dp).type ≠ T_FILE
  rw [dir]
  decide

theorem mknod (coherent : Coherent s) {dp : Fin NINODE} (path : List UInt8)
    {type : UInt16} (major minor : UInt16) (held : 0 < (s.inode dp).count)
    (dir : (s.inode dp).type = T_DIR) (kind : type ≠ 0)
    (unused : ∃ m, 1 ≤ m ∧ m < (superOf s.disk).ninodes.toNat ∧ (dinodeAt s.disk m).type = 0) :
    Ensures (mknod dp path type major minor) s fun i t => Coherent t ∧
      ∀ j, (t.inode j).count = (s.inode j).count + if j = i then 1 else 0 := by
  refine (mknod_effect dp path type major minor coherent.orderly coherent.used
    ⟨held, le_trans (Nat.le_add_right _ _) (coherent.dirRoom held dir), unused⟩).mono ?_
  intro i t effect
  have newSize : (dinodeAt t.disk (t.inode i).inum.toNat).size = 0 := by
    rw [effect.synced]
    exact effect.size
  have newKind : (dinodeAt t.disk (t.inode i).inum.toNat).type = type := by
    rw [effect.synced]
    exact effect.type
  have dirNow : dinodeAt t.disk (s.inode dp).inum.toNat =
      { (t.inode dp).dinode with addrs := (dinodeAt s.disk (s.inode dp).inum.toNat).addrs } := by
    have copy := effect.dirCopy
    unfold DiskCopy at copy
    rw [show (t.inode dp).inum = (s.inode dp).inum by rw [effect.dir]] at copy
    exact copy
  have inUse : ∀ n, n < (superOf s.disk).ninodes.toNat →
      (n = (t.inode i).inum.toNat ∨ n = (s.inode dp).inum.toNat) →
      (dinodeAt t.disk n).type ≠ 0 := by
    rintro n - (rfl | rfl)
    · rw [newKind]
      exact kind
    · rw [dirNow, effect.dir]
      show (s.inode dp).type ≠ 0
      rw [dir]
      decide
  have heldI : 0 < (t.inode i).count := by
    rw [effect.count]
    exact Int.one_pos
  have newArea : (t.inode i).inum.toNat < (superOf s.disk).ninodes.toNat := by
    have seat := (effect.step.orderly.seated i heldI).inArea
    rw [effect.step.disk.super] at seat
    exact seat
  -- the new inode's dinode is one unused dinode less
  have fewer : (unusedDinodes t.disk).card < (unusedDinodes s.disk).card := by
    apply Finset.card_lt_card
    refine Finset.ssubset_iff_subset_ne.mpr ⟨effect.step.disk.unused_subset inUse, ?_⟩
    intro same
    have member : (t.inode i).inum.toNat ∈ unusedDinodes t.disk := by
      rw [same]
      simp only [unusedDinodes, Finset.mem_filter, Finset.mem_range]
      exact ⟨newArea, effect.unused⟩
    simp only [unusedDinodes, Finset.mem_filter] at member
    exact inUse _ newArea (Or.inl rfl) member.2
  have room := coherent.dirRoom held dir
  refine ⟨coherent.step effect.step (coherent.roomy.step effect.step.disk inUse ?_) ?_, ?_⟩
  · rintro n - (rfl | rfl) -
    · rw [newSize]
      simp only [direntSize, UInt32.toNat_zero] at *
      omega
    · rw [dirNow, effect.dir]
      show ((s.inode dp).size + UInt32.ofNat direntSize).toNat + _ ≤ _
      have word := UInt32.toNat_add (s.inode dp).size (UInt32.ofNat direntSize)
      have sixteen : (UInt32.ofNat direntSize).toNat = 16 := by decide
      rw [word, sixteen]
      have wrap := Nat.mod_le ((s.inode dp).size.toNat + 16) (2 ^ 32)
      simp only [direntSize] at *
      omega
  · intro j heldJ
    by_cases new : j = i
    · subst new
      refine Or.inl ⟨⟨_, effect.synced⟩, ?_⟩
      rw [effect.type]
      exact kind
    · by_cases same : j = dp
      · subst same
        refine Or.inl ⟨⟨_, effect.dirCopy⟩, ?_⟩
        rw [effect.dir]
        show (s.inode j).type ≠ 0
        rw [dir]
        decide
      · rw [effect.others j new same] at heldJ ⊢
        refine Or.inr ⟨heldJ, ?_, rfl⟩
        rintro (hit | hit)
        · have resident := coherent.used j heldJ
          rw [hit] at resident
          exact resident effect.unused
        · exact same (coherent.orderly.unique j dp heldJ held (UInt32.toNat_inj.mp hit))
  · intro j
    by_cases new : j = i
    · subst new
      rw [if_pos rfl, effect.count, effect.free]
      rfl
    · rw [if_neg new, Int.add_zero]
      by_cases same : j = dp
      · subst same
        rw [effect.dir]
      · rw [effect.others j new same]

theorem writei (coherent : Coherent s) {i : Fin NINODE} (src : List UInt8) (off : Nat)
    (held : 0 < (s.inode i).count) (file : (s.inode i).type = T_FILE)
    (direct : InDirect off src) :
    Ensures (writei i src off) s fun _ t => Coherent t ∧
      ∀ j, (t.inode j).count = (s.inode j).count := by
  refine (writei_effect i src off coherent.orderly held file direct).mono ?_
  intro _ t effect
  have kind : (dinodeAt t.disk (s.inode i).inum.toNat).type = T_FILE := by
    have copy := effect.copy
    unfold DiskCopy at copy
    rw [effect.inum] at copy
    rw [copy]
    exact effect.type.trans file
  refine ⟨coherent.step effect.step (coherent.roomy.step effect.step.disk ?_ ?_) ?_, ?_⟩
  · rintro n - rfl
    rw [kind]
    decide
  · rintro n - rfl notFile
    exact absurd kind notFile
  · intro j heldJ
    by_cases here : j = i
    · subst here
      refine Or.inl ⟨⟨_, effect.copy⟩, ?_⟩
      rw [effect.type, file]
      decide
    · rw [effect.others j here] at heldJ ⊢
      refine Or.inr ⟨heldJ, ?_, rfl⟩
      intro same
      exact here (coherent.orderly.unique j i heldJ held (UInt32.toNat_inj.mp same))
  · intro j
    by_cases here : j = i
    · rw [here, effect.count]
    · rw [effect.others j here]

end Coherent

/-- The file system with the references that are out, each by its slot. -/
structure Cache where
  fs : State
  out : List (Fin NINODE)

/-- An empty table over a well-formed image. -/
structure CacheStart (c : Cache) : Prop where
  ready : c.fs.bio.Ready 1
  image : WellFormed c.fs.disk
  empty : ∀ i, (c.fs.inode i).count = 0
  none : c.out = []

/-- One completed call. `ialloc` and `mknod` are for a type of inode, as their
callers give it, and find an unused dinode; the others are for a reference that
is out. -/
inductive CacheStep (c : Cache) : Cache → Prop where
  | iget {inum : UInt32} {i : Fin NINODE} {t : State}
      (inArea : inum.toNat < (superOf c.fs.disk).ninodes.toNat)
      (allocated : (dinodeAt c.fs.disk inum.toNat).type ≠ 0)
      (returned : iget rootdev inum c.fs = .ok (i, t)) : CacheStep c ⟨t, i :: c.out⟩
  | iput {i : Fin NINODE} {t : State} (held : i ∈ c.out)
      (returned : iput i c.fs = .ok ((), t)) : CacheStep c ⟨t, c.out.erase i⟩
  | iincref {i : Fin NINODE} {t : State} (held : i ∈ c.out)
      (returned : iincref i c.fs = .ok ((), t)) : CacheStep c ⟨t, i :: c.out⟩
  | ilock {i : Fin NINODE} {t : State} (held : i ∈ c.out)
      (returned : ilock i c.fs = .ok ((), t)) : CacheStep c ⟨t, c.out⟩
  | iunlock {i : Fin NINODE} {t : State} (held : i ∈ c.out)
      (returned : iunlock i c.fs = .ok ((), t)) : CacheStep c ⟨t, c.out⟩
  | ialloc {type : UInt16} {i : Fin NINODE} {t : State} (kind : type ≠ 0)
      (unused : ∃ m, 1 ≤ m ∧ m < (superOf c.fs.disk).ninodes.toNat ∧
        (dinodeAt c.fs.disk m).type = 0)
      (returned : ialloc rootdev type c.fs = .ok (i, t)) : CacheStep c ⟨t, i :: c.out⟩
  | mknod {dp i : Fin NINODE} {path : List UInt8} {type major minor : UInt16} {t : State}
      (held : dp ∈ c.out) (dir : (c.fs.inode dp).type = T_DIR) (kind : type ≠ 0)
      (unused : ∃ m, 1 ≤ m ∧ m < (superOf c.fs.disk).ninodes.toNat ∧
        (dinodeAt c.fs.disk m).type = 0)
      (returned : mknod dp path type major minor c.fs = .ok (i, t)) :
      CacheStep c ⟨t, i :: c.out⟩
  | writei {i : Fin NINODE} {src : List UInt8} {off : Nat} {r : Int} {t : State}
      (held : i ∈ c.out) (file : (c.fs.inode i).type = T_FILE) (direct : InDirect off src)
      (returned : writei i src off c.fs = .ok (r, t)) : CacheStep c ⟨t, c.out⟩

/-- The counts are those of the references that are out. -/
def Counted (c : Cache) : Prop := ∀ i, (c.fs.inode i).count = c.out.count i

theorem Counted.held {c : Cache} (counted : Counted c) {i : Fin NINODE} (out : i ∈ c.out) :
    0 < (c.fs.inode i).count := by
  have one := List.count_pos_iff.mpr out
  rw [counted i]
  omega

/-- One reference more. -/
theorem Counted.cons {c : Cache} (counted : Counted c) {i : Fin NINODE} {t : State}
    (count : ∀ j, (t.inode j).count = (c.fs.inode j).count + if j = i then 1 else 0) :
    Counted ⟨t, i :: c.out⟩ := by
  intro j
  show (t.inode j).count = _
  rw [count j, counted j, List.count_cons]
  by_cases here : j = i
  · subst here
    simp
  · simp [here, Ne.symm here]

theorem Counted.same {c : Cache} (counted : Counted c) {t : State}
    (count : ∀ j, (t.inode j).count = (c.fs.inode j).count) : Counted ⟨t, c.out⟩ := by
  intro j
  show (t.inode j).count = _
  rw [count j]
  exact counted j

theorem Handed.counts {s t : State} {i : Fin NINODE} (handed : Handed s t i) (j : Fin NINODE) :
    (t.inode j).count = (s.inode j).count + if j = i then 1 else 0 := by
  by_cases here : j = i
  · subst here
    rw [if_pos rfl]
    exact handed.count
  · rw [if_neg here, handed.others j here, Int.add_zero]

theorem count_relock {s t : State} {i : Fin NINODE} {count : Int} {busy : Bool}
    (inode : t.inode = Function.update s.inode i { s.inode i with count := count, busy := busy })
    (j : Fin NINODE) : (t.inode j).count = if j = i then count else (s.inode j).count := by
  rw [inode]
  by_cases here : j = i
  · subst here
    rw [Function.update_self, if_pos rfl]
  · rw [Function.update_of_ne here, if_neg here]

theorem CacheStart.coherent {c : Cache} (start : CacheStart c) :
    Coherent c.fs ∧ Counted c := by
  have idle : ∀ i, ¬0 < (c.fs.inode i).count := by
    intro i held
    rw [start.empty i] at held
    exact absurd held (by decide)
  refine ⟨⟨⟨start.ready, start.image.reserved, fun i held => absurd held (idle i),
    fun i _ held => absurd held (idle i), start.image.dinodes⟩,
    fun i held => absurd held (idle i), start.image.roomy⟩, ?_⟩
  intro i
  rw [start.empty i, start.none]
  rfl

/-- Every completed call keeps the table coherent and the references counted. -/
theorem CacheStep.keeps {c d : Cache} (coherent : Coherent c.fs) (counted : Counted c)
    (step : CacheStep c d) : Coherent d.fs ∧ Counted d := by
  cases step with
  | iget inArea allocated returned =>
      obtain ⟨now, handed⟩ := coherent.iget _ inArea allocated _ _ returned
      exact ⟨now, counted.cons handed.counts⟩
  | @iput i t held returned =>
      cases returned
      refine ⟨coherent.relock (i := i) ((c.fs.inode i).count - 1) false rfl rfl
        fun _ => counted.held held, ?_⟩
      intro j
      refine (count_relock (i := i) rfl j).trans ?_
      by_cases here : j = i
      · subst here
        have one := List.count_pos_iff.mpr held
        rw [if_pos rfl, List.count_erase_self, counted j]
        omega
      · rw [if_neg here, List.count_erase_of_ne here]
        exact counted j
  | @iincref i t held returned =>
      cases returned
      refine ⟨coherent.relock (i := i) ((c.fs.inode i).count + 1) (c.fs.inode i).busy rfl rfl
        fun _ => counted.held held, counted.cons ?_⟩
      intro j
      refine (count_relock (i := i) rfl j).trans ?_
      by_cases here : j = i
      · subst here
        rw [if_pos rfl, if_pos rfl]
      · rw [if_neg here, if_neg here, Int.add_zero]
  | @ilock i t held returned =>
      obtain ⟨ip, u, read, rest⟩ := Act.bind_eq_ok.mp returned
      cases read
      obtain ⟨_, u, passed, last⟩ := Act.bind_eq_ok.mp rest
      have stays : Ensures (Act.stopIf ((c.fs.inode i).busy = true)
          (Fault.sleep (.inode i))) c.fs fun _ v => v = c.fs := Ensures.stopIf fun _ => rfl
      have same := stays _ u passed
      subst same
      cases last
      refine ⟨coherent.relock (i := i) (c.fs.inode i).count true rfl rfl id, counted.same ?_⟩
      intro j
      refine (count_relock (i := i) rfl j).trans ?_
      split <;> simp_all
  | @iunlock i t held returned =>
      cases returned
      refine ⟨coherent.relock (i := i) (c.fs.inode i).count false rfl rfl id, counted.same ?_⟩
      intro j
      refine (count_relock (i := i) rfl j).trans ?_
      split <;> simp_all
  | ialloc kind unused returned =>
      obtain ⟨now, handed⟩ := coherent.ialloc kind unused _ _ returned
      exact ⟨now, counted.cons handed.counts⟩
  | mknod held dir kind unused returned =>
      obtain ⟨now, counts⟩ := coherent.mknod _ _ _ (counted.held held) dir kind unused _ _
        returned
      exact ⟨now, counted.cons counts⟩
  | writei held file direct returned =>
      obtain ⟨now, counts⟩ := coherent.writei _ _ (counted.held held) file direct _ _ returned
      exact ⟨now, counted.same counts⟩

/-- After any number of calls, no inode is resident twice, every count is the
number of references that are out, and what is resident is what is on the
disk. -/
theorem inode_table_coherent {n : Nat} {c : Cache} (run : ReachIn CacheStart CacheStep n c) :
    (∀ i j, 0 < (c.fs.inode i).count → 0 < (c.fs.inode j).count →
      (c.fs.inode i).dev = (c.fs.inode j).dev → (c.fs.inode i).inum = (c.fs.inode j).inum →
      i = j) ∧
    (∀ i, (c.fs.inode i).count = c.out.count i) ∧
    ∀ i, 0 < (c.fs.inode i).count →
      (dinodeAt c.fs.disk (c.fs.inode i).inum.toNat).type = (c.fs.inode i).type ∧
      (dinodeAt c.fs.disk (c.fs.inode i).inum.toNat).major = (c.fs.inode i).major ∧
      (dinodeAt c.fs.disk (c.fs.inode i).inum.toNat).minor = (c.fs.inode i).minor ∧
      (dinodeAt c.fs.disk (c.fs.inode i).inum.toNat).nlink = (c.fs.inode i).nlink ∧
      (dinodeAt c.fs.disk (c.fs.inode i).inum.toNat).size = (c.fs.inode i).size := by
  obtain ⟨coherent, counted⟩ := run.invariant (h := fun c => Coherent c.fs ∧ Counted c)
    (fun _ start => start.coherent)
    (fun _ _ before step => step.keeps before.1 before.2)
  refine ⟨fun i j heldI heldJ _ same => coherent.orderly.unique i j heldI heldJ same, counted, ?_⟩
  intro i held
  obtain ⟨⟨addrs, copy⟩, -⟩ := coherent.current i held
  rw [copy]
  exact ⟨rfl, rfl, rfl, rfl, rfl⟩

theorem emptyFileState_wellFormed : WellFormed emptyFileState.disk where
  reserved := emptyFileState_orderly.reserved
  dinodes := emptyFileState_orderly.dinodes
  roomy := by
    have count : (superOf emptyFileState.disk).ninodes.toNat = 3 := by decide +kernel
    have sizes : ∀ n, n < 3 → (dinodeAt emptyFileState.disk n).size = 0 := by decide +kernel
    have few : (unusedDinodes emptyFileState.disk).card ≤ 3 := by
      refine le_trans (Finset.card_filter_le _ _) ?_
      rw [Finset.card_range, count]
    intro n bound _
    rw [count] at bound
    rw [sizes n bound]
    simp only [direntSize, NDIRECT, BSIZE, UInt32.toNat_zero]
    omega

/-- The empty file is opened and a byte is written to it: its size changes on the
disk as well. -/
theorem inode_table_coherent_written :
    ∃ (i : Fin NINODE) (c : Cache), ReachIn CacheStart CacheStep 2 c ∧ c.out = [i] ∧
      (c.fs.inode i).size = 1 ∧
      (dinodeAt c.fs.disk (c.fs.inode i).inum.toNat).size = (c.fs.inode i).size := by
  obtain ⟨i, opened⟩ := Act.returns_after (iget rootdev 1) emptyFileState (by decide +kernel)
  have first : ReachIn CacheStart CacheStep 1 ⟨(iget rootdev 1).after emptyFileState, [i]⟩ := by
    refine ReachIn.next (ReachIn.start (s := ⟨emptyFileState, []⟩) ?_)
      (.iget (by decide +kernel) (by decide +kernel) opened)
    exact ⟨emptyFileState_orderly.ready, emptyFileState_wellFormed, fun _ => rfl, rfl⟩
  have slot : i = 0 := by
    have checked : (match iget rootdev 1 emptyFileState with
        | .ok (i, _) => decide (i = 0)
        | .error _ => false) = true := by decide +kernel
    rw [opened] at checked
    exact of_decide_eq_true checked
  subst slot
  obtain ⟨_, written⟩ := Act.returns_after (writei 0 [7] 0)
    ((iget rootdev 1).after emptyFileState) (by decide +kernel)
  have second := ReachIn.next first (.writei (List.mem_singleton.mpr rfl) (by decide +kernel)
    (by decide) written)
  exact ⟨0, _, second, rfl, by decide +kernel,
    ((inode_table_coherent second).2.2 0 (by decide +kernel)).2.2.2.2⟩

end Gcgos.Fs
