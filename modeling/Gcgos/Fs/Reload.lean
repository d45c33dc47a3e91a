import Gcgos.Fs.Isolation
import Gcgos.Fs.Orderly
import Gcgos.Fs.Resolve

/-!
# Inodes come and go in the table

Between two calls the kernel knows an inode by its slot of the table or, when
no slot has it, by its dinode. `iget`, `iput` and `namei` write nothing to the
disk; what they leave are the same inodes, except that a copy in the table
that had more block numbers than its dinode takes them with it.
-/

set_option autoImplicit false

namespace Gcgos.Fs

open Act Bio ByteMap

section

variable {s t : State} {i : Fin NINODE} {n : UInt32}

/-! ## The inode with a number -/

/-- No two slots hold references to one inode. -/
def Distinct (s : State) : Prop :=
  ∀ i j, 0 < (s.inode i).count → 0 < (s.inode j).count → (s.inode i).dev = (s.inode j).dev →
    (s.inode i).inum = (s.inode j).inum → i = j

theorem Orderly.distinct (orderly : Orderly s) : Distinct s :=
  fun i j heldI heldJ _ same => orderly.unique i j heldI heldJ same

theorem Orderly.findSlot_resident (orderly : Orderly s) (held : 0 < (s.inode i).count) :
    findSlot s rootdev (s.inode i).inum = some i := by
  cases found : findSlot s rootdev (s.inode i).inum with
  | none => exact absurd rfl (findSlot_none found held (orderly.seated i held).dev)
  | some j =>
      obtain ⟨heldJ, -, same⟩ := findSlot_some found
      rw [orderly.unique i j held heldJ same.symm]

theorem Orderly.inodeOf_resident (orderly : Orderly s) (held : 0 < (s.inode i).count) :
    inodeOf s (s.inode i).inum = s.inode i := by
  rw [inodeOf, orderly.findSlot_resident held]

theorem findSlot_absent (absent : ∀ i, 0 < (s.inode i).count → (s.inode i).inum ≠ n) :
    findSlot s rootdev n = none := by
  cases found : findSlot s rootdev n with
  | none => rfl
  | some j =>
      obtain ⟨held, -, same⟩ := findSlot_some found
      exact absurd same (absent j held)

theorem inodeOf_absent (absent : ∀ i, 0 < (s.inode i).count → (s.inode i).inum ≠ n) :
    inodeOf s n = (dinodeAt s.disk n.toNat).load rootdev n := by
  rw [inodeOf, findSlot_absent absent]

/-- An inode is in the table, or its dinode is all there is of it. -/
theorem Orderly.inodeOf_cases (orderly : Orderly s) (n : UInt32) :
    (∃ i, 0 < (s.inode i).count ∧ (s.inode i).inum = n ∧ inodeOf s n = s.inode i) ∨
      (∀ i, 0 < (s.inode i).count → (s.inode i).inum ≠ n) ∧
        inodeOf s n = (dinodeAt s.disk n.toNat).load rootdev n := by
  cases found : findSlot s rootdev n with
  | none =>
      have absent : ∀ i, 0 < (s.inode i).count → (s.inode i).inum ≠ n :=
        fun i held => findSlot_none found held (orderly.seated i held).dev
      exact Or.inr ⟨absent, inodeOf_absent absent⟩
  | some i =>
      obtain ⟨held, -, rfl⟩ := findSlot_some found
      exact Or.inl ⟨i, held, rfl, orderly.inodeOf_resident held⟩

theorem Orderly.residentSlot_eq (orderly : Orderly s) (n : UInt32) :
    residentSlot s n.toNat = findSlot s rootdev n := by
  unfold residentSlot findSlot
  congr 1
  funext i
  by_cases held : 0 < (s.inode i).count
  · have number : ((s.inode i).inum.toNat == n.toNat) = ((s.inode i).inum == n) := by
      rw [Bool.eq_iff_iff, beq_iff_eq, beq_iff_eq, UInt32.toNat_inj]
    simp [held, (orderly.seated i held).dev, number]
  · simp [held]

theorem Orderly.addrsOf_eq (orderly : Orderly s) (n : UInt32) :
    addrsOf s n.toNat = (inodeOf s n).addrs := by
  unfold addrsOf inodeOf
  rw [orderly.residentSlot_eq]
  cases findSlot s rootdev n <;> rfl

theorem Orderly.typeOf_eq (orderly : Orderly s) (n : UInt32) :
    typeOf s n.toNat = (inodeOf s n).type := by
  unfold typeOf inodeOf
  rw [orderly.residentSlot_eq]
  cases findSlot s rootdev n <;> rfl

theorem Orderly.live_iff (orderly : Orderly s) (n : UInt32) :
    (ownersOf s).live n.toNat ↔
      n.toNat < (superOf s.disk).ninodes.toNat ∧ (inodeOf s n).type ≠ 0 := by
  rw [← orderly.typeOf_eq]
  rfl

/-- Every number in the inode area is that of a 32-bit word. -/
theorem exists_inum {m : Nat} (inArea : m < (superOf s.disk).ninodes.toNat) :
    ∃ n : UInt32, n.toNat = m := by
  have bound : m < UInt32.size := lt_trans inArea (superOf s.disk).ninodes.toNat_lt
  exact ⟨UInt32.ofNat m, UInt32.toNat_ofNat_of_lt' bound⟩

/-! ## Steps that write nothing -/

/-- From `s` to `t` nothing was written. The inodes are the same ones, in the
table or on the disk, but those in `lost`, which are files, may have fewer
block numbers. -/
structure Reloaded (s t : State) (lost : UInt32 → Prop) : Prop where
  orderly : Orderly t
  disk : t.disk = s.disk
  same : ∀ n, ¬lost n → (inodeOf t n).dinode = (inodeOf s n).dinode
  fewer : ∀ n, lost n → (inodeOf s n).type = T_FILE ∧ (inodeOf t n).type = T_FILE ∧
    ∀ k, (inodeOf t n).addrs k = 0 ∨ (inodeOf t n).addrs k = (inodeOf s n).addrs k

variable {lost : UInt32 → Prop}

theorem Reloaded.type (reloaded : Reloaded s t lost) (n : UInt32) :
    (inodeOf t n).type = (inodeOf s n).type := by
  by_cases gone : lost n
  · obtain ⟨before, after, -⟩ := reloaded.fewer n gone
    rw [before, after]
  · exact congrArg Dinode.type (reloaded.same n gone)

theorem Reloaded.addrs (reloaded : Reloaded s t lost) (n : UInt32) (k : Fin (NDIRECT + 1)) :
    (inodeOf t n).addrs k = 0 ∨ (inodeOf t n).addrs k = (inodeOf s n).addrs k := by
  by_cases gone : lost n
  · exact (reloaded.fewer n gone).2.2 k
  · exact Or.inr (congrFun (congrArg Dinode.addrs (reloaded.same n gone)) k)

theorem refers_fewer {disk : Nat → Block} {addrs addrs' : Addrs} {b : Nat}
    (fewer : ∀ k, addrs' k = 0 ∨ addrs' k = addrs k) (refers : Refers disk addrs' b) :
    Refers disk addrs b := by
  obtain ⟨nonzero, ⟨k, rfl⟩ | ⟨table, j, bound, entry⟩⟩ := refers
  · rcases fewer k with zero | same
    · rw [zero] at nonzero
      exact absurd rfl nonzero
    · rw [same] at nonzero ⊢
      exact ⟨nonzero, Or.inl ⟨k, rfl⟩⟩
  · rcases fewer indirectSlot with zero | same
    · exact absurd zero table
    · rw [same] at table entry
      exact ⟨nonzero, Or.inr ⟨table, j, bound, entry⟩⟩

/-- Inodes that give up block numbers leave the allocation sound. -/
theorem Sound.of_fewer {disk : Nat → Block} {owners owners' : Owners} (sound : Sound disk owners)
    (live : ∀ n, owners'.live n → owners.live n)
    (fewer : ∀ n, owners'.live n → ∀ k, owners'.addrs n k = 0 ∨ owners'.addrs n k = owners.addrs n k) :
    Sound disk owners' := by
  refine ⟨sound.toReserved, ?_, ?_⟩
  · intro n b liveN refers
    exact sound.data n b (live n liveN) (refers_fewer (fewer n liveN) refers)
  · intro n m b liveN liveM refersN refersM
    exact sound.apart n m b (live n liveN) (live m liveM) (refers_fewer (fewer n liveN) refersN)
      (refers_fewer (fewer m liveM) refersM)

theorem Reloaded.live_iff (reloaded : Reloaded s t lost) (orderly : Orderly s) (n : UInt32) :
    (ownersOf t).live n.toNat ↔ (ownersOf s).live n.toNat := by
  rw [reloaded.orderly.live_iff, orderly.live_iff, reloaded.type, reloaded.disk]

theorem Reloaded.isolated (reloaded : Reloaded s t lost) (orderly : Orderly s)
    (isolated : Isolated s) : Isolated t := by
  constructor
  case sound =>
    rw [reloaded.disk]
    apply isolated.sound.of_fewer
    · intro m live
      obtain ⟨n, rfl⟩ := exists_inum live.1
      exact (reloaded.live_iff orderly n).mp live
    · intro m live k
      obtain ⟨n, rfl⟩ := exists_inum live.1
      change addrsOf t n.toNat k = 0 ∨ addrsOf t n.toNat k = addrsOf s n.toNat k
      rw [reloaded.orderly.addrsOf_eq, orderly.addrsOf_eq]
      exact reloaded.addrs n k
  case unique => exact reloaded.orderly.unique
  case inArea => exact fun i held => (reloaded.orderly.seated i held).inArea

end

/-! ## Names -/

/-- The paths name these inodes, and none leads out of the inodes in use. -/
structure NamesShown (s : State) (tree : List UInt8 → Option UInt32) : Prop where
  root : (ownersOf s).live (1 : UInt32).toNat
  closed : ClosedDirs s fun n => (ownersOf s).live n.toNat
  path : ∀ path, resolve s 1 (components path) = tree path

/-- The directories are as before. -/
structure SameDirs (s t : State) : Prop where
  live : ∀ n : UInt32, (ownersOf t).live n.toNat ↔ (ownersOf s).live n.toNat
  type : ∀ n : UInt32, (ownersOf s).live n.toNat → (inodeOf t n).type = (inodeOf s n).type
  size : ∀ n : UInt32, (ownersOf s).live n.toNat → (inodeOf s n).type = T_DIR →
    (inodeOf t n).size = (inodeOf s n).size
  entries : ∀ n : UInt32, (ownersOf s).live n.toNat → (inodeOf s n).type = T_DIR →
    dirEntries t.disk (inodeOf t n) = dirEntries s.disk (inodeOf s n)

section

variable {s t : State} {tree : List UInt8 → Option UInt32}

theorem SameDirs.resolve_eq (same : SameDirs s t)
    (closed : ClosedDirs s fun n => (ownersOf s).live n.toNat) (names : List (List UInt8))
    {n : UInt32} (live : (ownersOf s).live n.toNat) : resolve t n names = resolve s n names := by
  induction names generalizing n with
  | nil => rfl
  | cons name rest ih =>
      unfold resolve
      rw [same.type n live]
      by_cases isDir : (inodeOf s n).type = T_DIR
      · rw [if_neg (not_not.mpr isDir), if_neg (not_not.mpr isDir), same.entries n live isDir]
        cases found : findEntry (dirEntries s.disk (inodeOf s n)) name with
        | none => rfl
        | some next => exact ih (closed.names n name next live isDir found)
      · rw [if_pos isDir, if_pos isDir]

theorem NamesShown.same (shown : NamesShown s tree) (same : SameDirs s t) : NamesShown t tree := by
  constructor
  case root => exact (same.live 1).mpr shown.root
  case closed =>
    constructor
    · intro n live isDir
      have before := (same.live n).mp live
      rw [same.type n before] at isDir
      rw [same.size n before isDir]
      exact shown.closed.direct n before isDir
    · intro n name next live isDir found
      have before := (same.live n).mp live
      rw [same.type n before] at isDir
      rw [same.entries n before isDir] at found
      exact (same.live _).mpr (shown.closed.names n name next before isDir found)
  case path =>
    intro path
    rw [same.resolve_eq shown.closed _ shown.root]
    exact shown.path path

theorem Reloaded.sameDirs {lost : UInt32 → Prop} (reloaded : Reloaded s t lost)
    (orderly : Orderly s) : SameDirs s t := by
  have kept : ∀ n, (inodeOf s n).type = T_DIR → (inodeOf t n).dinode = (inodeOf s n).dinode := by
    intro n isDir
    apply reloaded.same
    intro gone
    rw [(reloaded.fewer n gone).1] at isDir
    cases isDir
  constructor
  case live => exact reloaded.live_iff orderly
  case type => exact fun n _ => reloaded.type n
  case size => exact fun n _ isDir => congrArg Dinode.size (kept n isDir)
  case entries =>
    intro n _ isDir
    have size := congrArg Dinode.size (kept n isDir)
    have addrs := congrArg Dinode.addrs (kept n isDir)
    simp only [Inode.dinode] at size addrs
    simp only [dirEntries, dirEntriesFrom, size, addrs, reloaded.disk]

end

/-! ## Steps of the table -/

/-- The slots of `t` that are in use hold inodes of `s`, and nothing was written. -/
structure TableStep (s t : State) : Prop where
  ready : t.bio.Ready 1
  disk : t.disk = s.disk
  distinct : Distinct t
  dev : ∀ i, 0 < (t.inode i).count → (t.inode i).dev = rootdev
  inArea : ∀ i, 0 < (t.inode i).count →
    (t.inode i).inum.toNat < (superOf s.disk).ninodes.toNat
  dinode : ∀ i, 0 < (t.inode i).count →
    (t.inode i).dinode = (inodeOf s (t.inode i).inum).dinode

section

variable {s t : State} {lost : UInt32 → Prop}

theorem Orderly.placed (orderly : Orderly s) {n : UInt32}
    (inArea : n.toNat < (superOf s.disk).ninodes.toNat) :
    Placed (superOf s.disk) (inodeOf s n).addrs := by
  rcases orderly.inodeOf_cases n with ⟨i, held, -, same⟩ | ⟨-, same⟩
  · rw [same]
    exact (orderly.seated i held).placed
  · rw [same]
    exact orderly.dinodes _ inArea

theorem TableStep.orderly (step : TableStep s t) (orderly : Orderly s) : Orderly t := by
  constructor
  case ready => exact step.ready
  case reserved => rw [step.disk]; exact orderly.reserved
  case seated =>
    intro i held
    rw [step.disk]
    refine ⟨step.dev i held, step.inArea i held, ?_⟩
    have addrs : (t.inode i).addrs = (inodeOf s (t.inode i).inum).addrs :=
      congrArg Dinode.addrs (step.dinode i held)
    rw [addrs]
    exact orderly.placed (step.inArea i held)
  case unique =>
    intro i j heldI heldJ same
    exact step.distinct i j heldI heldJ ((step.dev i heldI).trans (step.dev j heldJ).symm) same
  case dinodes => rw [step.disk]; exact orderly.dinodes

theorem TableStep.reloaded (step : TableStep s t) (orderly : Orderly s)
    (gone : ∀ i, 0 < (s.inode i).count →
      (∀ j, 0 < (t.inode j).count → (t.inode j).inum ≠ (s.inode i).inum) →
      ¬lost (s.inode i).inum → (s.inode i).dinode = dinodeAt s.disk (s.inode i).inum.toNat)
    (fewer : ∀ n, lost n → (inodeOf s n).type = T_FILE ∧ (inodeOf t n).type = T_FILE ∧
      ∀ k, (inodeOf t n).addrs k = 0 ∨ (inodeOf t n).addrs k = (inodeOf s n).addrs k) :
    Reloaded s t lost := by
  refine ⟨step.orderly orderly, step.disk, ?_, fewer⟩
  intro n kept
  rcases (step.orderly orderly).inodeOf_cases n with ⟨j, held, rfl, same⟩ | ⟨absent, same⟩
  · rw [same]
    exact step.dinode j held
  · rw [same, step.disk]
    rcases orderly.inodeOf_cases n with ⟨i, held, rfl, before⟩ | ⟨-, before⟩
    · rw [before, gone i held absent kept]
      rfl
    · rw [before]

/-- What is in `s` as in `t`, for every slot with a reference. -/
theorem SameTable.tableStep (same : SameTable s t) (orderly : Orderly s) : TableStep s t := by
  have resident : ∀ i, 0 < (t.inode i).count → 0 < (s.inode i).count ∧ t.inode i = s.inode i := by
    intro i held
    rw [same.count i] at held
    exact ⟨held, same.resident i held⟩
  constructor
  case ready => exact same.bio.ready orderly.ready
  case disk => exact same.disk_eq
  case distinct =>
    intro i j heldI heldJ _ number
    obtain ⟨beforeI, rI⟩ := resident i heldI
    obtain ⟨beforeJ, rJ⟩ := resident j heldJ
    rw [rI, rJ] at number
    exact orderly.unique i j beforeI beforeJ number
  all_goals
    intro i held
    obtain ⟨before, r⟩ := resident i held
    rw [r]
  case dev => exact (orderly.seated i before).dev
  case inArea => exact (orderly.seated i before).inArea
  case dinode => rw [orderly.inodeOf_resident before]

theorem SameTable.reloaded (same : SameTable s t) (orderly : Orderly s) :
    Reloaded s t fun _ => False := by
  refine (same.tableStep orderly).reloaded orderly ?_ fun _ never => never.elim
  intro i held absent _
  have still : 0 < (t.inode i).count := by
    rw [same.count]
    exact held
  exact absurd (by rw [same.resident i held]) (absent i still)

/-- A slot that has been handed out and unlocked. -/
structure Acquired (s t : State) (i : Fin NINODE) (n : UInt32) : Prop where
  bio : Settled s.bio t.bio s.disk
  slot : t.inode i = { inodeOf s n with
    dev := rootdev, inum := n, count := (s.inode i).count + 1, busy := false }
  before : 0 < (s.inode i).count → (s.inode i).inum = n
  other : ∀ j, j ≠ i → (t.inode j).count = (s.inode j).count ∧ (t.inode j).busy = (s.inode j).busy ∧
    (0 < (s.inode j).count → t.inode j = s.inode j)
  distinct : Distinct t

theorem Holding.iunlock {i : Fin NINODE} {n : UInt32} (holding : Holding s t i n)
    (distinct : Distinct t) : Yields (iunlock i) t fun _ u => Acquired s u i n := by
  refine ⟨(), _, rfl, ?_⟩
  have slot := holding.slot
  constructor
  case bio => exact holding.bio
  case slot => simp [slot]
  case before =>
    intro held
    have before := congrArg Inode.inum (holding.before held)
    rw [slot] at before
    exact before
  case other =>
    intro j different
    obtain ⟨count, busy, same⟩ := holding.other j different
    simpa [different, count, busy] using same
  case distinct =>
    intro j k heldJ heldK dev number
    apply distinct j k
    all_goals
      by_cases atJ : j = i <;> by_cases atK : k = i <;> simp_all

theorem Acquired.tableStep {i : Fin NINODE} {n : UInt32} (acquired : Acquired s t i n)
    (orderly : Orderly s) (inArea : n.toNat < (superOf s.disk).ninodes.toNat) : TableStep s t := by
  have slots : ∀ j, 0 < (t.inode j).count → (t.inode j).dev = rootdev ∧
      (t.inode j).inum.toNat < (superOf s.disk).ninodes.toNat ∧
      (t.inode j).dinode = (inodeOf s (t.inode j).inum).dinode := by
    intro j held
    by_cases here : j = i
    · rw [here, acquired.slot]
      exact ⟨rfl, inArea, rfl⟩
    · obtain ⟨count, -, same⟩ := acquired.other j here
      rw [count] at held
      rw [same held, orderly.inodeOf_resident held]
      exact ⟨(orderly.seated j held).dev, (orderly.seated j held).inArea, rfl⟩
  constructor
  case ready => exact acquired.bio.ready orderly.ready
  case disk => exact acquired.bio.disk
  case distinct => exact acquired.distinct
  case dev => exact fun j held => (slots j held).1
  case inArea => exact fun j held => (slots j held).2.1
  case dinode => exact fun j held => (slots j held).2.2

theorem Acquired.reloaded {i : Fin NINODE} {n : UInt32} (acquired : Acquired s t i n)
    (orderly : Orderly s) (inArea : n.toNat < (superOf s.disk).ninodes.toNat) :
    Reloaded s t fun _ => False := by
  refine (acquired.tableStep orderly inArea).reloaded orderly ?_ fun _ never => never.elim
  intro j held absent _
  by_cases here : j = i
  · subst here
    have slot := acquired.slot
    refine absurd ?_ (absent j (by rw [slot]; simp only; omega))
    rw [slot, acquired.before held]
  · obtain ⟨count, -, same⟩ := acquired.other j here
    exact absurd (by rw [same held]) (absent j (by rw [count]; exact held))

end

/-! ## One slot for each inode -/

theorem Distinct.of_held {s t : State} (distinct : Distinct s)
    (held : ∀ j, 0 < (t.inode j).count → 0 < (s.inode j).count ∧
      (t.inode j).dev = (s.inode j).dev ∧ (t.inode j).inum = (s.inode j).inum) : Distinct t := by
  intro i j heldI heldJ dev number
  obtain ⟨beforeI, devI, numberI⟩ := held i heldI
  obtain ⟨beforeJ, devJ, numberJ⟩ := held j heldJ
  rw [devI, devJ] at dev
  rw [numberI, numberJ] at number
  exact distinct i j beforeI beforeJ dev number

theorem modifyInode_distinct {s : State} (distinct : Distinct s) (i : Fin NINODE)
    (change : Inode → Inode) (held : 0 < (change (s.inode i)).count → 0 < (s.inode i).count)
    (dev : (change (s.inode i)).dev = (s.inode i).dev)
    (inum : (change (s.inode i)).inum = (s.inode i).inum) :
    Ensures (modifyInode i change) s fun _ t => Distinct t := by
  apply Ensures.modify
  apply distinct.of_held
  intro j heldJ
  by_cases here : j = i
  · subst here
    simp only [State.setInode_inode, Function.update_self] at heldJ ⊢
    exact ⟨held heldJ, dev, inum⟩
  · have same : (s.setInode i (change (s.inode i))).inode j = s.inode j :=
      Function.update_of_ne here _ _
    rw [same] at heldJ ⊢
    exact ⟨heldJ, rfl, rfl⟩

theorem onBio_distinct {α : Type} (inner : Act Fault Bio α) : Keeps (onBio inner) Distinct :=
  fun _ distinct => Ensures.zoom fun _ _ _ => distinct

theorem iget_distinct (dev inum : UInt32) : Keeps (iget dev inum) Distinct := by
  intro s distinct
  unfold iget
  refine Ensures.step (t := s) (a := s) rfl ?_
  cases hit : findSlot s dev inum with
  | some i =>
      have found := findSlot_some hit
      unfold igetHit
      refine Ensures.step (t := s) (a := s.inode i) rfl ?_
      refine Ensures.guard fun _ => ?_
      refine Ensures.seq (modifyInode_distinct distinct i _ (fun _ => found.1) rfl rfl) ?_
      intro _ t kept
      exact Ensures.pure kept
  | none =>
      cases free : freeSlot s with
      | none => exact Ensures.fail
      | some i =>
          unfold igetMiss
          refine Ensures.seq (m := fun _ t => Distinct t) ?_ ?_
          · apply Ensures.modify
            intro j k heldJ heldK sameDev number
            by_cases atJ : j = i <;> by_cases atK : k = i
            · rw [atJ, atK]
            · subst atJ
              simp only [State.setInode_inode, Function.update_self,
                Function.update_of_ne atK] at heldK sameDev number
              exact absurd number.symm (findSlot_none hit heldK sameDev.symm)
            · subst atK
              simp only [State.setInode_inode, Function.update_self,
                Function.update_of_ne atJ] at heldJ sameDev number
              exact absurd number (findSlot_none hit heldJ sameDev)
            · simp only [State.setInode_inode, Function.update_of_ne atJ,
                Function.update_of_ne atK] at heldJ heldK sameDev number
              exact distinct j k heldJ heldK sameDev number
          · intro _ t claimed
            refine Ensures.seq (m := fun _ u => Distinct u) ?_ fun _ _ kept => Ensures.pure kept
            unfold igetLoad
            refine Ensures.seq (onBio_distinct _ t claimed) ?_
            intro din u kept
            exact modifyInode_distinct kept i _ id rfl rfl

theorem iput_distinct (i : Fin NINODE) : Keeps (iput i) Distinct := by
  intro s distinct
  unfold iput
  refine Ensures.seq (modifyInode_distinct distinct i _ (fun held => ?_) rfl rfl) ?_
  · simp only at held
    omega
  · intro _ t kept
    exact Ensures.modify kept

theorem nameiWalk_distinct (fuel : Nat) (dp : Fin NINODE) (cp : List UInt8) :
    Keeps (nameiWalk fuel dp cp) Distinct := by
  induction fuel generalizing dp cp with
  | zero => exact Keeps.fail
  | succ fuel ih =>
      unfold nameiWalk
      cases cp with
      | nil => exact Keeps.fail
      | cons c rest =>
          refine Keeps.ite Keeps.pure (Keeps.seq Keeps.reads fun ip => Keeps.ite ?_ ?_)
          · exact Keeps.seq (iput_distinct dp) fun _ => Keeps.pure
          · refine Keeps.seq (onBio_distinct _) fun hit => Keeps.seq (iput_distinct dp) fun _ => ?_
            cases hit with
            | none => exact Keeps.pure
            | some found =>
                obtain ⟨ninum, i⟩ := found
                exact Keeps.seq (iget_distinct _ _) fun next => ih next _

theorem namei_distinct (path : List UInt8) : Keeps (namei path) Distinct :=
  Keeps.seq (iget_distinct _ _) fun dp => nameiWalk_distinct _ dp _

end Gcgos.Fs
