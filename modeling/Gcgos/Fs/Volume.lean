import Gcgos.Fs.Contents
import Gcgos.Fs.Reload
import Mathlib.Data.Multiset.AddSub

/-!
# A volume of named strings

What the file system is for, between two calls: paths name inodes, some of
these are strings, and callers hold references to some of them. The copy of an
inode in the table may be ahead of its dinode in the block numbers, since
`iupdate` does not write them. A file that has got a block and has lost its
last reference is therefore no longer the string it was.
-/

set_option autoImplicit false

namespace Gcgos.Fs

open Act Bio ByteMap

/-- Strings under inode numbers, which of them have got a block since they were
first opened, the references that are out, and how many blocks are left. -/
structure Volume where
  bytes : UInt32 → Option (List UInt8)
  grown : UInt32 → Bool
  opened : Multiset UInt32
  room : Nat

namespace Volume

/-- One more reference. -/
def hold (a : Volume) (n : UInt32) : Volume := { a with opened := n ::ₘ a.opened }

/-- One reference less. With the last one goes the string of a file that has
grown. -/
def drop (a : Volume) (n : UInt32) : Volume :=
  let rest := a.opened.erase n
  if n ∈ rest then { a with opened := rest }
  else
    { a with
      bytes := if a.grown n then Function.update a.bytes n none else a.bytes
      grown := Function.update a.grown n false
      opened := rest }

/-- The blocks that a string takes when it is overwritten. -/
def cost (bytes : List UInt8) (off : Nat) (src : List UInt8) : Nat :=
  blocksOf (overwrite bytes off src).length - blocksOf bytes.length

/-- The string of inode `n` is overwritten. -/
def store (a : Volume) (n : UInt32) (bytes : List UInt8) (off : Nat) (src : List UInt8) : Volume :=
  { a with
    bytes := Function.update a.bytes n (some (overwrite bytes off src))
    grown := Function.update a.grown n (a.grown n || decide (0 < cost bytes off src))
    room := a.room - cost bytes off src }

end Volume

/-- The counts in the table are those of the references that are out. -/
structure Referenced (s : State) (opened : Multiset UInt32) : Prop where
  nonneg : ∀ i, 0 ≤ (s.inode i).count
  count : ∀ i, 0 < (s.inode i).count → (s.inode i).count = opened.count (s.inode i).inum
  resident : ∀ n ∈ opened, ∃ i, 0 < (s.inode i).count ∧ (s.inode i).inum = n

/-- The dinode of inode `n` lacks at most some of its block numbers, and none
when the file has not grown. -/
structure Behind (s : State) (n : UInt32) (grown : Bool) : Prop where
  copy : dinodeAt s.disk n.toNat =
    { (inodeOf s n).dinode with addrs := (dinodeAt s.disk n.toNat).addrs }
  fewer : ∀ k, (dinodeAt s.disk n.toNat).addrs k = 0 ∨
    (dinodeAt s.disk n.toNat).addrs k = (inodeOf s n).addrs k
  synced : grown = false → dinodeAt s.disk n.toNat = (inodeOf s n).dinode

/-- The file system holds these strings under these paths, and is in order. -/
structure VolumeShown (tree : List UInt8 → Option UInt32) (s : State) (a : Volume) : Prop where
  orderly : Orderly s
  isolated : Isolated s
  idle : ∀ i, (s.inode i).busy = false
  referenced : Referenced s a.opened
  behind : ∀ n : UInt32, n.toNat < (superOf s.disk).ninodes.toNat → Behind s n (a.grown n)
  names : NamesShown s tree
  file : ∀ n bytes, a.bytes n = some bytes →
    n.toNat < (superOf s.disk).ninodes.toNat ∧ FileShown s.disk (inodeOf s n) bytes
  room : a.room ≤ (freeBlocks s.disk).card

section

variable {tree : List UInt8 → Option UInt32} {s t : State} {a b : Volume} {n : UInt32}
  {i : Fin NINODE}

theorem FileShown.of_dinode {disk : Nat → Block} {ip ip' : Inode} {bytes : List UInt8}
    (shown : FileShown disk ip bytes) (same : ip'.dinode = ip.dinode) : FileShown disk ip' bytes :=
  shown.frame (congrArg Dinode.type same) (congrArg Dinode.size same) (congrArg Dinode.addrs same)
    fun _ _ => rfl

theorem Behind.of_absent (absent : ∀ i, 0 < (s.inode i).count → (s.inode i).inum ≠ n)
    (grown : Bool) : Behind s n grown := by
  constructor
  all_goals rw [inodeOf_absent absent]
  case copy => rfl
  case fewer => exact fun k => Or.inr rfl
  case synced => exact fun _ => rfl

/-- A step that writes nothing. -/
theorem VolumeShown.reload {lost : UInt32 → Prop} (shown : VolumeShown tree s a)
    (reloaded : Reloaded s t lost) (idle : ∀ i, (t.inode i).busy = false)
    (referenced : Referenced t b.opened)
    (grown : ∀ m, (b.grown m = a.grown m ∧ ¬lost m) ∨
      ∀ i, 0 < (t.inode i).count → (t.inode i).inum ≠ m)
    (bytes : ∀ m x, b.bytes m = some x → a.bytes m = some x ∧ ¬lost m) (room : b.room ≤ a.room) :
    VolumeShown tree t b := by
  constructor
  case orderly => exact reloaded.orderly
  case isolated => exact reloaded.isolated shown.orderly shown.isolated
  case idle => exact idle
  case referenced => exact referenced
  case behind =>
    intro m inArea
    rcases grown m with ⟨same, kept⟩ | absent
    · have before := shown.behind m (by rw [← reloaded.disk]; exact inArea)
      have dinode := reloaded.same m kept
      have addrs : (inodeOf t m).addrs = (inodeOf s m).addrs := congrArg Dinode.addrs dinode
      rw [same]
      constructor
      all_goals rw [reloaded.disk]
      case copy => rw [dinode]; exact before.copy
      case fewer => rw [addrs]; exact before.fewer
      case synced => rw [dinode]; exact before.synced
    · exact Behind.of_absent absent _
  case names => exact shown.names.same (reloaded.sameDirs shown.orderly)
  case file =>
    intro m x there
    obtain ⟨before, kept⟩ := bytes m x there
    obtain ⟨inArea, file⟩ := shown.file m x before
    rw [reloaded.disk]
    exact ⟨inArea, FileShown.of_dinode file (reloaded.same m kept)⟩
  case room => rw [reloaded.disk]; exact room.trans shown.room

theorem VolumeShown.unresolved (shown : VolumeShown tree s a) (same : SameTable s t) :
    VolumeShown tree t a := by
  refine shown.reload (same.reloaded shown.orderly) ?_ ?_ (fun m => Or.inl ⟨rfl, id⟩)
    (fun m x there => ⟨there, id⟩) le_rfl
  · exact fun i => (same.busy i).trans (shown.idle i)
  · have before := shown.referenced
    constructor
    case nonneg => exact fun i => by rw [same.count]; exact before.nonneg i
    case count =>
      intro i held
      rw [same.count] at held
      rw [same.resident i held]
      exact before.count i held
    case resident =>
      intro m member
      obtain ⟨i, held, number⟩ := before.resident m member
      refine ⟨i, by rw [same.count]; exact held, ?_⟩
      rw [same.resident i held]
      exact number

/-- The references after one has been handed out. -/
theorem Acquired.referenced (acquired : Acquired s t i n) (orderly : Orderly s)
    {opened : Multiset UInt32} (before : Referenced s opened) : Referenced t (n ::ₘ opened) := by
  have slot := acquired.slot
  have number : (t.inode i).inum = n := by rw [slot]
  have dev : (t.inode i).dev = rootdev := by rw [slot]
  have count : (t.inode i).count = (s.inode i).count + 1 := by rw [slot]
  have heldI : 0 < (t.inode i).count := by
    have := before.nonneg i
    omega
  -- The inode is in no other slot.
  have alone : ∀ j, j ≠ i → 0 < (s.inode j).count → (s.inode j).inum ≠ n := by
    intro j different held same
    obtain ⟨countJ, -, kept⟩ := acquired.other j different
    apply different
    apply acquired.distinct j i (by rw [countJ]; exact held) heldI
    · rw [kept held, dev]
      exact (orderly.seated j held).dev
    · rw [kept held, number]
      exact same
  constructor
  case nonneg =>
    intro j
    by_cases here : j = i
    · rw [here]
      exact heldI.le
    · rw [(acquired.other j here).1]
      exact before.nonneg j
  case count =>
    intro j held
    by_cases here : j = i
    · subst here
      rw [count, number, Multiset.count_cons_self]
      by_cases was : 0 < (s.inode j).count
      · have counted := before.count j was
        rw [acquired.before was] at counted
        omega
      · have none : n ∉ opened := by
          intro member
          obtain ⟨k, heldK, same⟩ := before.resident n member
          refine alone k ?_ heldK same
          rintro rfl
          exact was heldK
        have zero := before.nonneg j
        rw [Multiset.count_eq_zero_of_notMem none]
        omega
    · obtain ⟨countJ, -, kept⟩ := acquired.other j here
      rw [countJ] at held
      rw [kept held, Multiset.count_cons_of_ne (alone j here held)]
      exact before.count j held
  case resident =>
    intro m member
    rcases Multiset.mem_cons.mp member with rfl | old
    · exact ⟨i, heldI, number⟩
    · obtain ⟨j, held, rfl⟩ := before.resident m old
      by_cases here : j = i
      · subst here
        exact ⟨j, heldI, number.trans (acquired.before held).symm⟩
      · obtain ⟨countJ, -, kept⟩ := acquired.other j here
        exact ⟨j, by rw [countJ]; exact held, by rw [kept held]⟩

theorem VolumeShown.acquired (shown : VolumeShown tree s a) (acquired : Acquired s t i n)
    (inArea : n.toNat < (superOf s.disk).ninodes.toNat) : VolumeShown tree t (a.hold n) := by
  refine shown.reload (acquired.reloaded shown.orderly inArea) ?_
    (acquired.referenced shown.orderly shown.referenced) (fun m => Or.inl ⟨rfl, id⟩)
    (fun m x there => ⟨there, id⟩) le_rfl
  intro j
  by_cases here : j = i
  · rw [here, acquired.slot]
  · rw [(acquired.other j here).2.1]
    exact shown.idle j

/-- The inodes that have references left are in the slots they were in. -/
def Stays (s t : State) (opened : Multiset UInt32) : Prop :=
  ∀ i, 0 < (s.inode i).count → (s.inode i).inum ∈ opened →
    0 < (t.inode i).count ∧ (t.inode i).inum = (s.inode i).inum

theorem Acquired.stays (acquired : Acquired s t i n) (opened : Multiset UInt32) :
    Stays s t opened := by
  intro j held _
  by_cases here : j = i
  · subst here
    rw [acquired.slot]
    exact ⟨by simp only; omega, (acquired.before held).symm⟩
  · obtain ⟨count, -, same⟩ := acquired.other j here
    rw [same held]
    exact ⟨held, rfl⟩

/-- The slot of a reference that is given back. -/
structure Released (s t : State) (i : Fin NINODE) : Prop where
  bio : t.bio = s.bio
  inode : t.inode =
    Function.update s.inode i { s.inode i with count := (s.inode i).count - 1, busy := false }

theorem iput_releases (s : State) (i : Fin NINODE) :
    Yields (iput i) s fun _ t => Released s t i :=
  ⟨(), _, rfl, rfl, rfl⟩

theorem Released.slot (released : Released s t i) :
    t.inode i = { s.inode i with count := (s.inode i).count - 1, busy := false } := by
  rw [released.inode, Function.update_self]

theorem Released.other (released : Released s t i) {j : Fin NINODE} (different : j ≠ i) :
    t.inode j = s.inode j := by
  rw [released.inode, Function.update_of_ne different]

/-- A slot in use was in use, with the same inode. -/
theorem Released.held (released : Released s t i) {j : Fin NINODE}
    (held : 0 < (t.inode j).count) :
    0 < (s.inode j).count ∧ (t.inode j).dev = (s.inode j).dev ∧
      (t.inode j).inum = (s.inode j).inum ∧ (t.inode j).dinode = (s.inode j).dinode := by
  by_cases here : j = i
  · subst here
    rw [released.slot] at held ⊢
    simp only at held
    exact ⟨by omega, rfl, rfl, rfl⟩
  · rw [released.other here] at held ⊢
    exact ⟨held, rfl, rfl, rfl⟩

theorem Released.tableStep (released : Released s t i) (orderly : Orderly s) : TableStep s t := by
  have disk : t.disk = s.disk := congrArg (fun bio => bio.sd.block) released.bio
  constructor
  case ready => rw [released.bio]; exact orderly.ready
  case disk => exact disk
  case distinct =>
    refine orderly.distinct.of_held fun j held => ?_
    obtain ⟨before, dev, number, -⟩ := released.held held
    exact ⟨before, dev, number⟩
  all_goals
    intro j held
    obtain ⟨before, dev, number, dinode⟩ := released.held held
  case dev => rw [dev]; exact (orderly.seated j before).dev
  case inArea => rw [number]; exact (orderly.seated j before).inArea
  case dinode => rw [dinode, number, orderly.inodeOf_resident before]

/-- When the slot is still in use, or its dinode has its block numbers, nothing
is lost; otherwise the file may lose some. -/
theorem Released.reloaded (released : Released s t i) (orderly : Orderly s)
    (held : 0 < (s.inode i).count) {grown : Bool} (behind : Behind s (s.inode i).inum grown)
    (kind : (s.inode i).type = T_FILE) :
    Reloaded s t fun m => m = (s.inode i).inum ∧ (s.inode i).count = 1 ∧ grown = true := by
  have resident := orderly.inodeOf_resident held
  refine (released.tableStep orderly).reloaded orderly ?_ ?_
  · intro j heldJ absent kept
    by_cases here : j = i
    · subst here
      have last : (s.inode j).count = 1 := by
        by_contra more
        apply absent j
        · rw [released.slot]
          simp only
          omega
        · rw [released.slot]
      have synced : grown = false := by
        by_contra some
        exact kept ⟨rfl, last, by simpa using some⟩
      rw [behind.synced synced, resident]
    · exact absurd (by rw [released.other here])
        (absent j (by rw [released.other here]; exact heldJ))
  · rintro _ ⟨rfl, last, -⟩
    have absent : ∀ j, 0 < (t.inode j).count → (t.inode j).inum ≠ (s.inode i).inum := by
      intro j heldJ same
      obtain ⟨before, -, number, -⟩ := released.held heldJ
      have there := orderly.unique j i before held (number.symm.trans same)
      subst there
      rw [released.slot] at heldJ
      simp only at heldJ
      omega
    have disk := (released.tableStep orderly).disk
    have copy := behind.copy
    have fewer := behind.fewer
    rw [inodeOf_absent absent, resident, disk]
    rw [resident] at copy fewer
    exact ⟨kind, (congrArg Dinode.type copy).trans kind, fewer⟩

theorem Released.referenced (released : Released s t i) (orderly : Orderly s)
    {opened : Multiset UInt32} (before : Referenced s opened) (held : 0 < (s.inode i).count) :
    Referenced t (opened.erase (s.inode i).inum) := by
  have counted := before.count i held
  constructor
  case nonneg =>
    intro j
    by_cases here : j = i
    · subst here
      rw [released.slot]
      simp only
      omega
    · rw [released.other here]
      exact before.nonneg j
  case count =>
    intro j heldJ
    obtain ⟨was, -, number, -⟩ := released.held heldJ
    rw [number]
    by_cases here : j = i
    · subst here
      rw [released.slot, Multiset.count_erase_self]
      simp only
      omega
    · have different : (s.inode j).inum ≠ (s.inode i).inum := fun same =>
        here (orderly.unique j i was held same)
      rw [released.other here, Multiset.count_erase_of_ne different]
      exact before.count j was
  case resident =>
    intro m member
    obtain ⟨j, heldJ, rfl⟩ := before.resident m (Multiset.mem_of_mem_erase member)
    by_cases here : j = i
    · subst here
      have more := Multiset.count_pos.mpr member
      rw [Multiset.count_erase_self] at more
      refine ⟨j, ?_, ?_⟩
      · rw [released.slot]
        simp only
        omega
      · rw [released.slot]
    · exact ⟨j, by rw [released.other here]; exact heldJ, by rw [released.other here]⟩

theorem Released.stays (released : Released s t i) (orderly : Orderly s)
    {opened : Multiset UInt32} (referenced : Referenced t opened) : Stays s t opened := by
  intro j held member
  obtain ⟨k, heldK, number⟩ := referenced.resident _ member
  obtain ⟨was, -, same, -⟩ := released.held heldK
  have slot := orderly.unique k j was held (same.symm.trans number)
  rw [← slot] at number ⊢
  exact ⟨heldK, number⟩

theorem Volume.drop_opened (a : Volume) (n : UInt32) : (a.drop n).opened = a.opened.erase n := by
  dsimp only [Volume.drop]
  split <;> rfl

/-- A file with references left keeps its string. -/
theorem Volume.drop_bytes (a : Volume) {n m : UInt32} (left : n ∈ a.opened.erase m) :
    (a.drop m).bytes n = a.bytes n := by
  dsimp only [Volume.drop]
  split
  · rfl
  · rename_i last
    have other : n ≠ m := by
      rintro rfl
      exact last left
    dsimp only
    split
    · exact Function.update_of_ne other _ _
    · rfl

/-- A reference that is taken and given back. -/
theorem Volume.drop_hold {a : Volume} {n : UInt32} (kept : a.grown n = true → n ∈ a.opened) :
    (a.hold n).drop n = a := by
  unfold Volume.hold Volume.drop
  simp only [Multiset.erase_cons_head]
  by_cases still : n ∈ a.opened
  · rw [if_pos still]
  · have synced : a.grown n = false := Bool.eq_false_iff.mpr fun grown => still (kept grown)
    have same : Function.update a.grown n false = a.grown := by
      rw [← synced, Function.update_eq_self]
    rw [if_neg still, synced, same]
    rfl

/-- `iput` of a file. -/
theorem VolumeShown.iput (shown : VolumeShown tree s a) (held : 0 < (s.inode i).count)
    (kind : (s.inode i).type = T_FILE) :
    Yields (iput i) s fun _ t => VolumeShown tree t (a.drop (s.inode i).inum) ∧
      Stays s t (a.drop (s.inode i).inum).opened := by
  refine (iput_releases s i).mono ?_
  intro _ t released
  suffices final : VolumeShown tree t (a.drop (s.inode i).inum) from
    ⟨final, released.stays shown.orderly final.referenced⟩
  have orderly := shown.orderly
  have behind := shown.behind _ (orderly.seated i held).inArea
  have reloaded := released.reloaded orderly held behind kind
  have referenced := released.referenced orderly shown.referenced held
  have counted := shown.referenced.count i held
  have idle : ∀ j, (t.inode j).busy = false := by
    intro j
    by_cases here : j = i
    · rw [here, released.slot]
    · rw [released.other here]
      exact shown.idle j
  unfold Volume.drop
  by_cases more : (s.inode i).inum ∈ a.opened.erase (s.inode i).inum
  · have left := Multiset.count_pos.mpr more
    rw [Multiset.count_erase_self] at left
    have kept : ∀ m, ¬(m = (s.inode i).inum ∧ (s.inode i).count = 1 ∧
        a.grown (s.inode i).inum = true) := by
      rintro m ⟨-, last, -⟩
      omega
    rw [if_pos more]
    exact shown.reload reloaded idle referenced (fun m => Or.inl ⟨rfl, kept m⟩)
      (fun m x there => ⟨there, kept m⟩) le_rfl
  · rw [if_neg more]
    have absent : ∀ j, 0 < (t.inode j).count → (t.inode j).inum ≠ (s.inode i).inum := by
      intro j heldJ same
      have some := referenced.count j heldJ
      rw [same, Multiset.count_eq_zero_of_notMem more] at some
      omega
    refine shown.reload reloaded idle referenced ?_ ?_ le_rfl
    · intro m
      by_cases here : m = (s.inode i).inum
      · rw [here]
        exact Or.inr absent
      · exact Or.inl ⟨Function.update_of_ne here _ _, fun gone => here gone.1⟩
    · intro m x there
      by_cases here : m = (s.inode i).inum
      · subst here
        by_cases grown : a.grown (s.inode i).inum = true
        · simp [grown] at there
        · simp only [grown] at there
          exact ⟨there, fun gone => grown gone.2.2⟩
      · refine ⟨?_, fun gone => here gone.1⟩
        by_cases grown : a.grown (s.inode i).inum = true
        · simpa [grown, here] using there
        · simpa [grown] using there

/-! ## Finding a file -/

/-- With fewer references than slots some slot is unused. -/
theorem Referenced.unused {opened : Multiset UInt32} (referenced : Referenced s opened)
    (orderly : Orderly s) (few : opened.card < NINODE) : ∃ i, (s.inode i).count = 0 := by
  by_contra full
  have held : ∀ i, 0 < (s.inode i).count := by
    intro i
    have nonneg := referenced.nonneg i
    have used : (s.inode i).count ≠ 0 := fun zero => full ⟨i, zero⟩
    omega
  have members : ∀ i ∈ (Finset.univ : Finset (Fin NINODE)), (s.inode i).inum ∈ opened.toFinset := by
    intro i _
    have counted := referenced.count i (held i)
    have positive := held i
    rw [Multiset.mem_toFinset]
    exact Multiset.count_pos.mp (by omega)
  have apart : Set.InjOn (fun i => (s.inode i).inum) (Finset.univ : Finset (Fin NINODE)) :=
    fun i _ j _ same => orderly.unique i j (held i) (held j) same
  have many := Finset.card_le_card_of_injOn _ members apart
  rw [Finset.card_univ, Fintype.card_fin] at many
  exact absurd (many.trans (Multiset.toFinset_card_le opened)) (by omega)

theorem VolumeShown.namei (shown : VolumeShown tree s a) (path behind : List UInt8)
    (noNul : 0 ∉ path) (few : a.opened.card < NINODE) :
    Yields (namei (path ++ 0 :: behind)) s fun result t =>
      Resolved s t (tree path) result ∧ Distinct t := by
  obtain ⟨i, unused⟩ := shown.referenced.unused shown.orderly few
  have walk := (namei_ends path behind noNul shown.orderly.ready shown.idle shown.names.closed
    shown.names.root).yields fun _ full => full i unused
  rw [shown.names.path path] at walk
  exact walk.both (namei_distinct _ s shown.orderly.distinct)

/-! ## Writing -/

variable {bytes src : List UInt8} {off : Nat}

theorem FileStored.super_eq (stored : FileStored s t i bytes off src) :
    superOf t.disk = superOf s.disk := congrArg Block.supperblock stored.touches.superblock

theorem FileStored.inodeOf_self (stored : FileStored s t i bytes off src)
    (held : 0 < (s.inode i).count) : inodeOf t (s.inode i).inum = t.inode i := by
  rw [← stored.effect.inum]
  exact stored.effect.step.orderly.inodeOf_resident (by rw [stored.effect.count]; exact held)

/-- Another inode after a write. -/
theorem FileStored.inodeOf_other (stored : FileStored s t i bytes off src) (orderly : Orderly s)
    (held : 0 < (s.inode i).count) {m : UInt32} (inArea : m.toNat < (superOf s.disk).ninodes.toNat)
    (different : m ≠ (s.inode i).inum) : inodeOf t m = inodeOf s m := by
  have effect := stored.effect
  rcases orderly.inodeOf_cases m with ⟨j, heldJ, rfl, same⟩ | ⟨absent, same⟩
  · have other : j ≠ i := by
      rintro rfl
      exact different rfl
    have kept := effect.others j other
    rw [same, ← kept]
    exact effect.step.orderly.inodeOf_resident (by rw [kept]; exact heldJ)
  · have still : ∀ j, 0 < (t.inode j).count → (t.inode j).inum ≠ m := by
      intro j heldJ
      by_cases here : j = i
      · rw [here, effect.inum]
        exact Ne.symm different
      · rw [effect.others j here] at heldJ ⊢
        exact absent j heldJ
    rw [same, inodeOf_absent still, stored.touches.dinodes _ inArea]
    exact fun number => different (UInt32.toNat_inj.mp number)

/-- The blocks of another inode after a write. -/
theorem FileStored.block_other (stored : FileStored s t i bytes off src) (orderly : Orderly s)
    {m : UInt32} (live : (ownersOf s).live m.toNat) (different : m ≠ (s.inode i).inum)
    (k : Fin (NDIRECT + 1)) :
    t.disk ((inodeOf s m).addrs k).toNat = s.disk ((inodeOf s m).addrs k).toNat := by
  by_cases used : (inodeOf s m).addrs k = 0
  · -- Block 0 is not of any file, and not metadata that a write changes.
    rw [used]
    rcases stored.touches.sectors 0 with same | ⟨positive, -⟩ | ⟨b, bound, bitmap⟩ | inode
    · exact same
    · exact absurd rfl positive
    · have place := (orderly.reserved.geometry.BBLOCK_bounds bound).1
      have inodes := three_le_inodeEnd (superOf s.disk)
      omega
    · exact absurd inode (Nat.succ_ne_zero _).symm
  · refine stored.touches.files m.toNat _ live
      (fun number => different (UInt32.toNat_inj.mp number)) ?_
    rw [orderly.addrsOf_eq]
    exact refers_entry used

theorem FileStored.type_eq (stored : FileStored s t i bytes off src) (orderly : Orderly s)
    (held : 0 < (s.inode i).count) {m : UInt32}
    (inArea : m.toNat < (superOf s.disk).ninodes.toNat) :
    (inodeOf t m).type = (inodeOf s m).type := by
  by_cases here : m = (s.inode i).inum
  · rw [here, stored.inodeOf_self held, orderly.inodeOf_resident held]
    exact stored.effect.type
  · rw [stored.inodeOf_other orderly held inArea here]

theorem FileStored.sameDirs (stored : FileStored s t i bytes off src) (orderly : Orderly s)
    (held : 0 < (s.inode i).count) (kind : (s.inode i).type = T_FILE) : SameDirs s t := by
  have other : ∀ n : UInt32, (ownersOf s).live n.toNat → (inodeOf s n).type = T_DIR →
      n ≠ (s.inode i).inum := by
    rintro n - isDir rfl
    rw [orderly.inodeOf_resident held, kind] at isDir
    cases isDir
  have area : ∀ n : UInt32, (ownersOf s).live n.toNat →
      n.toNat < (superOf s.disk).ninodes.toNat := fun n live => ((orderly.live_iff n).mp live).1
  constructor
  case live =>
    intro n
    rw [stored.effect.step.orderly.live_iff, orderly.live_iff, stored.super_eq]
    exact and_congr_right fun inArea => by rw [stored.type_eq orderly held inArea]
  case type => exact fun n live => stored.type_eq orderly held (area n live)
  case size =>
    intro n live isDir
    rw [stored.inodeOf_other orderly held (area n live) (other n live isDir)]
  case entries =>
    intro n live isDir
    rw [stored.inodeOf_other orderly held (area n live) (other n live isDir)]
    simp only [dirEntries, dirEntriesFrom,
      stored.block_other orderly live (other n live isDir)]

theorem blocksOf_overwrite (inside : off ≤ bytes.length) (src : List UInt8) :
    blocksOf bytes.length ≤ blocksOf (overwrite bytes off src).length := by
  rw [overwrite_length inside]
  unfold blocksOf
  exact Nat.div_le_div_right (by omega)

theorem FileStored.behind_self (stored : FileStored s t i bytes off src) (orderly : Orderly s)
    (held : 0 < (s.inode i).count) (inside : off ≤ bytes.length) {grown : Bool}
    (before : Behind s (s.inode i).inum grown) :
    Behind t (s.inode i).inum (grown || decide (0 < Volume.cost bytes off src)) := by
  have self := stored.inodeOf_self held
  have copy : dinodeAt t.disk (s.inode i).inum.toNat =
      { (t.inode i).dinode with addrs := (dinodeAt s.disk (s.inode i).inum.toNat).addrs } := by
    have copied := stored.effect.copy
    unfold DiskCopy at copied
    rwa [stored.effect.inum] at copied
  have addrs := congrArg Dinode.addrs copy
  simp only at addrs
  have fewer := before.fewer
  rw [orderly.inodeOf_resident held] at fewer
  constructor
  case copy => rw [self, copy]
  case fewer =>
    intro k
    rw [self, addrs]
    rcases fewer k with zero | same
    · exact Or.inl zero
    · by_cases used : (s.inode i).addrs k = 0
      · exact Or.inl (same.trans used)
      · exact Or.inr (same.trans (stored.effect.grown.kept k used).symm)
  case synced =>
    intro small
    obtain ⟨old, none⟩ := Bool.or_eq_false_iff.mp small
    have equal : blocksOf (overwrite bytes off src).length = blocksOf bytes.length := by
      have free := of_decide_eq_false none
      have more := blocksOf_overwrite inside src
      unfold Volume.cost at free
      omega
    have synced := congrArg Dinode.addrs (before.synced old)
    rw [orderly.inodeOf_resident held] at synced
    rw [self, copy, synced]
    exact congrArg (fun addrs => ({ (t.inode i).dinode with addrs := addrs } : Dinode))
      (stored.kept equal).symm

/-- The volume after a write. -/
theorem FileStored.shown (stored : FileStored s t i bytes off src) (shown : VolumeShown tree s a)
    (held : 0 < (s.inode i).count) (there : a.bytes (s.inode i).inum = some bytes)
    (inside : off ≤ bytes.length) :
    VolumeShown tree t (a.store (s.inode i).inum bytes off src) := by
  have orderly := shown.orderly
  obtain ⟨inArea, file⟩ := shown.file _ _ there
  have kind : (s.inode i).type = T_FILE := by
    rw [← orderly.inodeOf_resident held]
    exact file.kind
  have effect := stored.effect
  constructor
  case orderly => exact effect.step.orderly
  case isolated => exact stored.isolated
  case idle =>
    intro j
    by_cases here : j = i
    · rw [here, stored.busy]
      exact shown.idle i
    · rw [effect.others j here]
      exact shown.idle j
  case referenced =>
    have before := shown.referenced
    have same : ∀ j, (t.inode j).count = (s.inode j).count ∧
        (t.inode j).inum = (s.inode j).inum := by
      intro j
      by_cases here : j = i
      · rw [here]
        exact ⟨effect.count, effect.inum⟩
      · rw [effect.others j here]
        exact ⟨rfl, rfl⟩
    constructor
    case nonneg => exact fun j => by rw [(same j).1]; exact before.nonneg j
    case count =>
      intro j heldJ
      rw [(same j).1] at heldJ ⊢
      rw [(same j).2]
      exact before.count j heldJ
    case resident =>
      intro m member
      obtain ⟨j, heldJ, number⟩ := before.resident m member
      exact ⟨j, by rw [(same j).1]; exact heldJ, (same j).2.trans number⟩
  case behind =>
    intro m area
    rw [stored.super_eq] at area
    by_cases here : m = (s.inode i).inum
    · subst here
      simp only [Volume.store, Function.update_self]
      exact stored.behind_self orderly held inside (shown.behind _ inArea)
    · have before := shown.behind m area
      have dinode := stored.touches.dinodes m.toNat area
        fun number => here (UInt32.toNat_inj.mp number)
      have inode := stored.inodeOf_other orderly held area here
      simp only [Volume.store, Function.update_of_ne here]
      constructor
      all_goals rw [dinode, inode]
      case copy => exact before.copy
      case fewer => exact before.fewer
      case synced => exact before.synced
  case names => exact shown.names.same (stored.sameDirs orderly held kind)
  case file =>
    intro m x found
    rw [stored.super_eq]
    by_cases here : m = (s.inode i).inum
    · subst here
      simp only [Volume.store, Function.update_self] at found
      cases found
      rw [stored.inodeOf_self held]
      exact ⟨inArea, stored.file⟩
    · simp only [Volume.store, Function.update_of_ne here] at found
      obtain ⟨area, old⟩ := shown.file m x found
      refine ⟨area, ?_⟩
      rw [stored.inodeOf_other orderly held area here]
      have live : (ownersOf s).live m.toNat :=
        (orderly.live_iff m).mpr ⟨area, by rw [old.kind]; decide⟩
      exact old.frame rfl rfl rfl fun k _ => stored.block_other orderly live here k
  case room =>
    have before := shown.room
    have left := stored.room
    change a.room - Volume.cost bytes off src ≤ _
    unfold Volume.cost
    omega

/-- `writei` to a file that is held. -/
theorem VolumeShown.writei (shown : VolumeShown tree s a) (held : 0 < (s.inode i).count)
    (there : a.bytes (s.inode i).inum = some bytes) (inside : off ≤ bytes.length) (src : List UInt8)
    (direct : off + src.length ≤ NDIRECT * BSIZE) (enough : Volume.cost bytes off src ≤ a.room) :
    Yields (writei i src off) s fun r t => r = src.length ∧
      VolumeShown tree t (a.store (s.inode i).inum bytes off src) ∧ Stays s t a.opened := by
  obtain ⟨-, file⟩ := shown.file _ _ there
  rw [shown.orderly.inodeOf_resident held] at file
  refine (writei_stores file shown.isolated shown.orderly held inside direct
    (enough.trans shown.room)).mono ?_
  rintro r t ⟨rfl, stored⟩
  refine ⟨rfl, stored.shown shown held there inside, fun j heldJ _ => ?_⟩
  by_cases here : j = i
  · rw [here, stored.effect.count, stored.effect.inum]
    exact ⟨held, rfl⟩
  · rw [stored.effect.others j here]
    exact ⟨heldJ, rfl⟩

/-- `readi` within a block of a file that is held. -/
theorem VolumeShown.readi (shown : VolumeShown tree s a) (held : 0 < (s.inode i).count)
    (there : a.bytes (s.inode i).inum = some bytes) {count : Nat}
    (inside : off % 512 + (stretch bytes off count).length ≤ 512) :
    Yields (readi i off count) s fun result t =>
      result = (((stretch bytes off count).length : Int),
        (List.range (stretch bytes off count).length).map fun k =>
          (k, (stretch bytes off count).getD k 0)) ∧
      VolumeShown tree t a ∧ t.inode = s.inode := by
  obtain ⟨-, file⟩ := shown.file _ _ there
  rw [shown.orderly.inodeOf_resident held] at file
  rw [stretch_length] at inside ⊢
  refine (readi_stretch file shown.orderly.ready inside).mono ?_
  rintro result t ⟨rfl, settled, inode⟩
  refine ⟨rfl, shown.unresolved ⟨settled, ?_, ?_, ?_⟩, inode⟩
  all_goals simp [inode]

/-- The volume and its references with the buffers and the inodes. -/
theorem VolumeShown.congr (shown : VolumeShown tree s a) (bio : t.bio = s.bio)
    (inode : t.inode = s.inode) : VolumeShown tree t a := by
  refine shown.unresolved ⟨?_, ?_, ?_, ?_⟩
  · rw [bio]
    exact Settled.refl s.bio
  all_goals simp [inode]

/-! ## Nothing is open yet -/

/-- The inodes in use on a disk. -/
def diskOwners (disk : Nat → Block) : Owners where
  live n := n < (superOf disk).ninodes.toNat ∧ (dinodeAt disk n).type ≠ 0
  addrs n := (dinodeAt disk n).addrs

theorem inodeOf_empty (empty : EmptyTable s) (n : UInt32) :
    inodeOf s n = (dinodeAt s.disk n.toNat).load rootdev n := by
  refine inodeOf_absent fun i held => ?_
  rw [empty i] at held
  exact absurd held (Int.lt_irrefl 0)

theorem ownersOf_empty (empty : EmptyTable s) : ownersOf s = diskOwners s.disk := by
  have absent : ∀ n, residentSlot s n = none := by
    intro n
    refine List.find?_eq_none.mpr fun i _ => ?_
    simp [empty i]
  unfold ownersOf diskOwners
  congr 1
  · funext n
    rw [typeOf, absent]
  · funext n
    rw [addrsOf, absent]

/-- In an empty table the volume is what is on the disk. -/
theorem VolumeShown.of_disk {bytes : UInt32 → Option (List UInt8)} {room : Nat}
    (empty : EmptyTable s) (idle : ∀ i, (s.inode i).busy = false) (ready : s.bio.Ready 1)
    (sound : Sound s.disk (diskOwners s.disk))
    (dinodes : ∀ n, n < (superOf s.disk).ninodes.toNat →
      Placed (superOf s.disk) (dinodeAt s.disk n).addrs)
    (names : NamesShown s tree)
    (file : ∀ n x, bytes n = some x → n.toNat < (superOf s.disk).ninodes.toNat ∧
      FileShown s.disk ((dinodeAt s.disk n.toNat).load rootdev n) x)
    (enough : room ≤ (freeBlocks s.disk).card) :
    VolumeShown tree s ⟨bytes, fun _ => false, 0, room⟩ := by
  have vacant : ∀ i, ¬0 < (s.inode i).count := by
    intro i
    rw [empty i]
    exact Int.lt_irrefl 0
  constructor
  case orderly =>
    exact ⟨ready, sound.toReserved, fun i held => absurd held (vacant i),
      fun i _ held => absurd held (vacant i), dinodes⟩
  case isolated =>
    exact ⟨by rw [ownersOf_empty empty]; exact sound, fun i _ held => absurd held (vacant i),
      fun i held => absurd held (vacant i)⟩
  case idle => exact idle
  case referenced =>
    exact ⟨fun i => (empty i).ge, fun i held => absurd held (vacant i),
      fun n member => absurd member (Multiset.notMem_zero n)⟩
  case behind => exact fun n _ => Behind.of_absent (fun i held => absurd held (vacant i)) _
  case names => exact names
  case file =>
    intro n x there
    rw [inodeOf_empty empty]
    exact file n x there
  case room => exact enough

end

end Gcgos.Fs
