import Gcgos.Fs.Namei
import Gcgos.Fs.File
import Gcgos.Lib.Mirror

/-!
# What a failed read leaves behind

`sd_readblock` returns 0 when it fails and `bread` does not look at it. On a
card that answers, an operation that rewrites a block leaves a disk that does
not depend on what the buffers held before. A failed read ends that, and no
operation tells its caller.
-/

set_option autoImplicit false

namespace Gcgos.Fs

open Act Bio

/-- Two states of the buffers that agree on the card, on who holds what, and
on the bytes of the `known` buffers. No coming read fails. -/
structure Alike (known : Set (Fin NBUF)) (s s' : Bio) : Prop where
  card : s'.sd = s.sd
  busy : s'.busy = s.busy
  data : ∀ i ∈ known, (s'.buf i).data = (s.buf i).data
  answers : true ∉ s.sd.faults

section

variable {known : Set (Fin NBUF)} {s s' : Bio}

theorem Alike.mono {more : Set (Fin NBUF)} (alike : Alike more s s') (fewer : known ⊆ more) :
    Alike known s s' :=
  ⟨alike.card, alike.busy, fun i member => alike.data i (fewer member), alike.answers⟩

theorem Alike.forget {i : Fin NBUF} (alike : Alike (insert i known) s s') : Alike known s s' :=
  alike.mono (Set.subset_insert i known)

theorem Alike.buf {i : Fin NBUF} (alike : Alike (insert i known) s s') : s'.buf i = s.buf i := by
  have flag : (s'.buf i).busy = (s.buf i).busy := congrFun alike.busy i
  have bytes := alike.data i (Set.mem_insert i known)
  cases left : s.buf i
  cases right : s'.buf i
  simp_all

/-- Both runs put the same thing in one buffer. -/
theorem Alike.setBuf (alike : Alike known s s') (i : Fin NBUF) (buf : Buf) :
    Alike (insert i known) (s.setBuf i buf) (s'.setBuf i buf) := by
  refine ⟨alike.card, ?_, ?_, alike.answers⟩
  · rw [setBuf_busy, setBuf_busy, alike.busy]
  · intro j member
    by_cases here : j = i
    · subst here
      simp
    · simp [here, alike.data j (member.resolve_left here)]

theorem getblk_mirrors (alike : Alike known s s') :
    Mirrors getblk getblk s s' fun _ t t' => Alike known t t' := by
  unfold Mirrors getblk
  have search : (fun i => !(s'.buf i).busy) = fun i => !(s.buf i).busy := by
    funext i
    rw [show (s'.buf i).busy = (s.buf i).busy from congrFun alike.busy i]
  rw [search]
  cases (List.finRange NBUF).find? fun i => !(s.buf i).busy with
  | none => rfl
  | some i =>
      refine ⟨rfl, alike.card, ?_, ?_, alike.answers⟩
      · rw [setBuf_busy, setBuf_busy, alike.busy]
      · intro j member
        have bytes := alike.data j member
        by_cases here : j = i
        · subst here
          simpa using bytes
        · simpa [here] using bytes

/-- A read that is answered fills the buffer, whatever it held. -/
theorem sdReadblock_mirrors (alike : Alike known s s') (sector : Nat) (b : Fin NBUF) :
    Mirrors (sdReadblock sector b) (sdReadblock sector b) s s' fun _ t t' =>
      Alike (insert b known) t t' := by
  refine Mirrors.modify ?_
  have filled : Alike (insert b known) (s.setBuf b ⟨(s.buf b).busy, s.sd.block sector⟩)
      (s'.setBuf b ⟨(s'.buf b).busy, s'.sd.block sector⟩) := by
    rw [show (s'.buf b).busy = (s.buf b).busy from congrFun alike.busy b, alike.card]
    exact alike.setBuf b _
  have answers := alike.answers
  rw [alike.card] at filled ⊢
  cases faults : s.sd.faults with
  | nil => exact filled
  | cons fault rest =>
      rw [faults] at answers
      cases fault with
      | true => exact absurd (List.mem_cons_self ..) answers
      | false => exact ⟨rfl, filled.busy, filled.data, fun member => answers (.tail _ member)⟩

theorem bread_mirrors (alike : Alike known s s') (dev : UInt32) (sector : Nat) :
    Mirrors (bread dev sector) (bread dev sector) s s' fun i t t' =>
      Alike (insert i known) t t' := by
  unfold bread
  refine Mirrors.seq (getblk_mirrors alike) fun i t t' alike => ?_
  exact Mirrors.seq (sdReadblock_mirrors alike sector i) fun _ u u' alike => Mirrors.pure alike

/-- After a buffer has been read, the two runs go on with the same bytes. -/
theorem bufData_mirrors {α : Type} {i : Fin NBUF} (alike : Alike (insert i known) s s')
    {next after : Block → Act Fault Bio α} {post : α → Bio → Bio → Prop}
    (rest : Mirrors (next (s.buf i).data) (after (s.buf i).data) s s' post) :
    Mirrors (bufData i >>= next) (bufData i >>= after) s s' post := by
  refine Mirrors.look ?_
  rw [alike.buf]
  exact rest

theorem brelse_mirrors {i : Fin NBUF} (alike : Alike (insert i known) s s') :
    Mirrors (brelse i) (brelse i) s s' fun _ t t' => Alike (insert i known) t t' := by
  refine Mirrors.modify ?_
  rw [alike.buf]
  exact alike.forget.setBuf i _

theorem setBufData_mirrors {i : Fin NBUF} (alike : Alike (insert i known) s s') (data : Block) :
    Mirrors (setBufData i data) (setBufData i data) s s' fun _ t t' =>
      Alike (insert i known) t t' := by
  refine Mirrors.modify ?_
  rw [alike.buf]
  exact alike.forget.setBuf i _

theorem bwrite_mirrors {i : Fin NBUF} (alike : Alike (insert i known) s s') (dev : UInt32)
    (sector : Nat) :
    Mirrors (bwrite dev i sector) (bwrite dev i sector) s s' fun _ t t' =>
      Alike (insert i known) t t' := by
  refine Mirrors.modify ⟨?_, alike.busy, alike.data, alike.answers⟩
  rw [alike.buf]
  simp [writeSector, alike.card]

theorem bstore_mirrors {i : Fin NBUF} (alike : Alike (insert i known) s s') (dev : UInt32)
    (data : Block) (sector : Nat) :
    Mirrors (bstore dev i data sector) (bstore dev i data sector) s s' fun _ t t' =>
      Alike known t t' := by
  unfold bstore
  refine Mirrors.seq (setBufData_mirrors alike data) fun _ t t' alike => ?_
  refine Mirrors.seq (bwrite_mirrors alike dev sector) fun _ u u' alike => ?_
  exact (brelse_mirrors alike).mono fun _ _ _ alike => alike.forget

/-! ## The bitmap -/

theorem ballocTurn_mirrors {bp : Fin NBUF} (alike : Alike (insert bp known) s s')
    (dev ninodes : UInt32) (b : Nat) :
    Mirrors (ballocTurn dev ninodes b bp) (ballocTurn dev ninodes b bp) s s' fun i t t' =>
      Alike (insert i known) t t' := by
  unfold ballocTurn
  apply Mirrors.ite
  · intro _
    refine Mirrors.seq (brelse_mirrors alike) fun _ t t' alike => ?_
    exact bread_mirrors alike.forget dev _
  · exact fun _ => Mirrors.pure alike

theorem ballocScan_mirrors (dev ninodes : UInt32) (fuel b : Nat) {bp : Fin NBUF}
    (alike : Alike (insert bp known) s s') :
    Mirrors (ballocScan dev ninodes fuel b bp) (ballocScan dev ninodes fuel b bp) s s'
      fun result t t' => Alike (insert result.2 known) t t' := by
  induction fuel generalizing b bp s s' with
  | zero => exact Mirrors.pure alike
  | succ fuel ih =>
      unfold ballocScan
      refine Mirrors.seq (ballocTurn_mirrors alike dev ninodes b) fun bp t t' alike => ?_
      refine bufData_mirrors alike ?_
      apply Mirrors.ite
      · exact fun _ => Mirrors.pure alike
      · exact fun _ => ih (b + 1) alike

theorem balloc_mirrors (alike : Alike known s s') (dev : UInt32) :
    Mirrors (balloc dev) (balloc dev) s s' fun _ t t' => Alike known t t' := by
  unfold balloc
  refine Mirrors.seq (bread_mirrors alike dev 1) fun bp t t' alike => ?_
  refine bufData_mirrors alike ?_
  refine Mirrors.seq (ballocScan_mirrors dev _ _ 0 alike) ?_
  rintro ⟨b, bp⟩ u u' alike
  refine Mirrors.guard fun _ => ?_
  refine bufData_mirrors alike ?_
  exact Mirrors.seq (bstore_mirrors alike dev _ _) fun _ v v' alike => Mirrors.pure alike

theorem bfree_mirrors (alike : Alike known s s') (dev b : UInt32) :
    Mirrors (bfree dev b) (bfree dev b) s s' fun _ t t' => Alike known t t' := by
  unfold bfree
  refine Mirrors.seq (bread_mirrors alike dev 1) fun bp t t' alike => ?_
  refine bufData_mirrors alike ?_
  refine Mirrors.seq (brelse_mirrors alike) fun _ u u' alike => ?_
  refine Mirrors.seq (bread_mirrors alike.forget dev _) fun bp v v' alike => ?_
  refine bufData_mirrors alike ?_
  exact bstore_mirrors alike dev _ _

/-! ## Inodes -/

theorem iupdate_mirrors (alike : Alike known s s') (ip : Inode) :
    Mirrors (iupdate ip) (iupdate ip) s s' fun _ t t' => Alike known t t' := by
  unfold iupdate
  refine Mirrors.seq (bread_mirrors alike ip.dev _) fun bp t t' alike => ?_
  refine bufData_mirrors alike ?_
  exact bstore_mirrors alike ip.dev _ _

/-- The buffer that the scan of `ialloc` points to was read. -/
def ScanRead (known : Set (Fin NBUF)) (last : Option (Fin NBUF × Nat)) (s s' : Bio) : Prop :=
  Alike known s s' ∧ ∀ bp slot, last = some (bp, slot) → Alike (insert bp known) s s'

theorem iallocScan_mirrors (dev : UInt32) (fuel inum : Nat) {last : Option (Fin NBUF × Nat)}
    (read : ScanRead known last s s') :
    Mirrors (iallocScan dev fuel inum last) (iallocScan dev fuel inum last) s s'
      fun result t t' => ScanRead known result.2 t t' := by
  induction fuel generalizing inum last s s' with
  | zero => exact Mirrors.pure read
  | succ fuel ih =>
      unfold iallocScan
      refine Mirrors.seq (bread_mirrors read.1 dev _) fun bp t t' alike => ?_
      have found : ∀ {u u' : Bio} (slot : Nat), Alike (insert bp known) u u' →
          ScanRead known (some (bp, slot)) u u' := by
        intro u u' slot alike
        refine ⟨alike.forget, ?_⟩
        rintro _ _ ⟨⟩
        exact alike
      refine bufData_mirrors alike ?_
      apply Mirrors.ite
      · exact fun _ => Mirrors.pure (found _ alike)
      · intro _
        exact Mirrors.seq (brelse_mirrors alike) fun _ u u' alike => ih (inum + 1) (found _ alike)

theorem iallocDisk_mirrors (alike : Alike known s s') (dev : UInt32) (type : UInt16) :
    Mirrors (iallocDisk dev type) (iallocDisk dev type) s s' fun _ t t' => Alike known t t' := by
  unfold iallocDisk
  refine Mirrors.seq (bread_mirrors alike dev 1) fun bp t t' alike => ?_
  refine bufData_mirrors alike ?_
  refine Mirrors.seq (brelse_mirrors alike) fun _ u u' alike => ?_
  refine Mirrors.seq (iallocScan_mirrors dev _ 1 ⟨alike.forget, by rintro _ _ ⟨⟩⟩) ?_
  rintro ⟨inum, dip⟩ v v' ⟨-, read⟩
  cases dip with
  | none => exact Mirrors.fail
  | some pair =>
      obtain ⟨bp, slot⟩ := pair
      have alike := read bp slot rfl
      refine bufData_mirrors alike ?_
      exact Mirrors.seq (bstore_mirrors alike dev _ _) fun _ w w' alike => Mirrors.pure alike

theorem bmap_mirrors (alike : Alike known s s') (ip : Inode) (bn : Nat) :
    Mirrors (bmap ip bn) (bmap ip bn) s s' fun _ t t' => Alike known t t' := by
  unfold bmap
  apply Mirrors.ite
  · exact fun _ => Mirrors.pure alike
  · intro _
    refine Mirrors.seq (bread_mirrors alike ip.dev _) fun b t t' alike => ?_
    refine Mirrors.look ?_
    rw [alike.buf]
    split
    · exact Mirrors.pure alike.forget
    · exact Mirrors.fail

/-! ## Files and directories -/

theorem entryAlloc_mirrors (alike : Alike known s s') (dev : UInt32) (data : Block) (k : Nat) :
    Mirrors (entryAlloc dev data k) (entryAlloc dev data k) s s' fun _ t t' =>
      Alike known t t' := by
  unfold entryAlloc
  apply Mirrors.ite
  · exact fun _ => Mirrors.seq (balloc_mirrors alike dev) fun _ t t' alike => Mirrors.pure alike
  · exact fun _ => Mirrors.pure alike

theorem writeiStore_mirrors (alike : Alike known s s') (ip : Inode) (off : Nat)
    (piece : List UInt8) :
    Mirrors (writeiStore ip off piece) (writeiStore ip off piece) s s' fun _ t t' =>
      Alike known t t' := by
  unfold writeiStore
  refine Mirrors.seq (bmap_mirrors alike ip _) fun source t t' alike => ?_
  refine Mirrors.seq (bread_mirrors alike ip.dev _) fun bp u u' alike => ?_
  refine bufData_mirrors alike ?_
  refine Mirrors.seq (setBufData_mirrors alike _) fun _ v v' alike => ?_
  refine Mirrors.seq (bmap_mirrors alike ip _) fun target w w' alike => ?_
  refine Mirrors.seq (bwrite_mirrors alike ip.dev _) fun _ x x' alike => ?_
  exact (brelse_mirrors alike).mono fun _ _ _ alike => alike.forget

theorem mknodScan_mirrors (dp : Inode) (fuel off : Nat) (alike : Alike known s s') :
    Mirrors (mknodScan dp fuel off) (mknodScan dp fuel off) s s' fun hit t t' =>
      ∀ place k bp, hit = some (place, k, bp) → Alike (insert bp known) t t' := by
  induction fuel generalizing off s s' with
  | zero => exact Mirrors.pure (by rintro _ _ _ ⟨⟩)
  | succ fuel ih =>
      unfold mknodScan
      apply Mirrors.ite
      · intro _
        refine Mirrors.seq (bmap_mirrors alike dp _) fun blk t t' alike => ?_
        refine Mirrors.seq (bread_mirrors alike dp.dev _) fun bp u u' alike => ?_
        refine bufData_mirrors alike ?_
        split
        · refine Mirrors.pure ?_
          rintro _ _ _ ⟨⟩
          exact alike
        · exact Mirrors.seq (brelse_mirrors alike) fun _ v v' alike => ih (off + 512) alike.forget
      · exact fun _ => Mirrors.pure (by rintro _ _ _ ⟨⟩)

theorem liftExcept_mirrors {α : Type} (result : Except Fault α) (alike : Alike known s s') :
    Mirrors (liftExcept result) (liftExcept result) s s' fun _ t t' => Alike known t t' := by
  cases result with
  | ok value => exact ⟨rfl, alike⟩
  | error stop => rfl

theorem mknodEnter_mirrors (alike : Alike known s s') (dp : Inode) (inum : UInt32)
    (path : List UInt8) :
    Mirrors (mknodEnter dp inum path) (mknodEnter dp inum path) s s' fun _ t t' =>
      Alike known t t' := by
  unfold mknodEnter
  refine Mirrors.seq (mknodScan_mirrors dp _ 0 alike) ?_
  intro hit t t' found
  match hit with
  | none => exact Mirrors.fail
  | some (off, k, bp) =>
      have alike := found off k bp rfl
      refine bufData_mirrors alike ?_
      refine Mirrors.seq (liftExcept_mirrors _ alike) fun name u u' alike => ?_
      refine Mirrors.seq (setBufData_mirrors alike _) fun _ v v' alike => ?_
      refine Mirrors.seq (bmap_mirrors alike dp _) fun target w w' alike => ?_
      refine Mirrors.seq (bwrite_mirrors alike dp.dev _) fun _ x x' alike => ?_
      exact (brelse_mirrors alike).mono fun _ _ _ alike => alike.forget

end

/-! ## Whole operations -/

/-- Two states of the kernel's files that differ in what the buffers hold. -/
structure AlikeFiles (s s' : State) : Prop where
  bio : Alike ∅ s.bio s'.bio
  inode : s'.inode = s.inode
  cons : s'.cons = s.cons

section

variable {s s' : State}

theorem onBio_mirrors {α : Type} {inner inner' : Act Fault Bio α} (alike : AlikeFiles s s')
    (mirrors : Mirrors inner inner' s.bio s'.bio fun _ t t' => Alike ∅ t t') :
    Mirrors (onBio inner) (onBio inner') s s' fun _ t t' => AlikeFiles t t' :=
  Mirrors.zoom (mirrors.mono fun _ _ _ inside => ⟨inside, alike.inode, alike.cons⟩)

theorem inodeAt_mirrors {α : Type} {i : Fin NINODE} (alike : AlikeFiles s s')
    {next after : Inode → Act Fault State α} {post : α → State → State → Prop}
    (rest : Mirrors (next (s.inode i)) (after (s.inode i)) s s' post) :
    Mirrors (inodeAt i >>= next) (inodeAt i >>= after) s s' post := by
  refine Mirrors.look ?_
  rw [alike.inode]
  exact rest

theorem modifyInode_mirrors (alike : AlikeFiles s s') (i : Fin NINODE) (change : Inode → Inode) :
    Mirrors (modifyInode i change) (modifyInode i change) s s' fun _ t t' => AlikeFiles t t' := by
  refine Mirrors.modify ⟨alike.bio, ?_, alike.cons⟩
  rw [State.setInode_inode, State.setInode_inode, alike.inode]

theorem iupdateSlot_mirrors (alike : AlikeFiles s s') (i : Fin NINODE) :
    Mirrors (iupdateSlot i) (iupdateSlot i) s s' fun _ t t' => AlikeFiles t t' :=
  inodeAt_mirrors alike (onBio_mirrors alike (iupdate_mirrors alike.bio _))

theorem igetLoad_mirrors (alike : AlikeFiles s s') (i : Fin NINODE) (dev inum : UInt32) :
    Mirrors (igetLoad i dev inum) (igetLoad i dev inum) s s' fun _ t t' => AlikeFiles t t' := by
  unfold igetLoad
  refine Mirrors.seq (onBio_mirrors alike ?_) fun din t t' alike => modifyInode_mirrors alike i _
  refine Mirrors.seq (bread_mirrors alike.bio dev _) fun bp u u' alike => ?_
  refine bufData_mirrors alike ?_
  exact Mirrors.seq (brelse_mirrors alike) fun _ v v' alike => Mirrors.pure alike.forget

theorem iget_mirrors (alike : AlikeFiles s s') (dev inum : UInt32) :
    Mirrors (iget dev inum) (iget dev inum) s s' fun _ t t' => AlikeFiles t t' := by
  unfold iget
  refine Mirrors.look ?_
  have found : findSlot s' dev inum = findSlot s dev inum := by
    unfold findSlot
    rw [alike.inode]
  have free : freeSlot s' = freeSlot s := by
    unfold freeSlot
    rw [alike.inode]
  simp only [id, found, free]
  split
  · unfold igetHit
    refine inodeAt_mirrors alike (Mirrors.guard fun _ => ?_)
    exact Mirrors.seq (modifyInode_mirrors alike _ _) fun _ t t' alike => Mirrors.pure alike
  · unfold igetMiss
    refine Mirrors.seq (modifyInode_mirrors alike _ _) fun _ t t' alike => ?_
    exact Mirrors.seq (igetLoad_mirrors alike _ dev inum) fun _ u u' alike => Mirrors.pure alike
  · exact Mirrors.fail

theorem ialloc_mirrors (alike : AlikeFiles s s') (dev : UInt32) (type : UInt16) :
    Mirrors (ialloc dev type) (ialloc dev type) s s' fun _ t t' => AlikeFiles t t' := by
  unfold ialloc
  refine Mirrors.seq (onBio_mirrors alike (iallocDisk_mirrors alike.bio dev type)) ?_
  exact fun inum t t' alike => iget_mirrors alike dev _

theorem mknod_mirrors (alike : AlikeFiles s s') (dp : Fin NINODE) (path : List UInt8)
    (type major minor : UInt16) :
    Mirrors (mknod dp path type major minor) (mknod dp path type major minor) s s'
      fun _ t t' => AlikeFiles t t' := by
  unfold mknod
  refine inodeAt_mirrors alike ?_
  refine Mirrors.seq (ialloc_mirrors alike _ type) fun i t t' alike => ?_
  refine Mirrors.seq (modifyInode_mirrors alike i _) fun _ u u' alike => ?_
  refine Mirrors.seq (iupdateSlot_mirrors alike i) fun _ v v' alike => ?_
  refine inodeAt_mirrors alike (inodeAt_mirrors alike ?_)
  refine Mirrors.seq (onBio_mirrors alike (mknodEnter_mirrors alike.bio _ _ path)) ?_
  intro _ w w' alike
  refine Mirrors.seq (modifyInode_mirrors alike dp _) fun _ x x' alike => ?_
  exact Mirrors.seq (iupdateSlot_mirrors alike dp) fun _ y y' alike => Mirrors.pure alike

theorem addrsAlloc_mirrors (alike : AlikeFiles s s') (i : Fin NINODE) (k : Fin (NDIRECT + 1)) :
    Mirrors (addrsAlloc i k) (addrsAlloc i k) s s' fun _ t t' => AlikeFiles t t' := by
  unfold addrsAlloc
  refine inodeAt_mirrors alike ?_
  apply Mirrors.ite
  · intro _
    refine Mirrors.seq (onBio_mirrors alike (balloc_mirrors alike.bio _)) fun b t t' alike => ?_
    exact modifyInode_mirrors alike i _
  · exact fun _ => Mirrors.pure alike

theorem writeiMap_mirrors (alike : AlikeFiles s s') (i : Fin NINODE) (lbn : Nat) :
    Mirrors (writeiMap i lbn) (writeiMap i lbn) s s' fun _ t t' => AlikeFiles t t' := by
  unfold writeiMap
  apply Mirrors.ite
  · exact fun _ => addrsAlloc_mirrors alike i _
  · intro _
    unfold writeiIndirect
    refine Mirrors.guard fun _ => ?_
    refine Mirrors.seq (addrsAlloc_mirrors alike i _) fun _ t t' alike => ?_
    refine inodeAt_mirrors alike (onBio_mirrors alike ?_)
    refine Mirrors.seq (bread_mirrors alike.bio _ _) fun bp u u' alike => ?_
    refine Mirrors.guard fun _ => ?_
    refine bufData_mirrors alike ?_
    refine Mirrors.seq (entryAlloc_mirrors alike _ _ _) fun data v v' alike => ?_
    exact bstore_mirrors alike _ _ _

theorem writeiLoop_mirrors (i : Fin NINODE) (fuel off : Nat) (src : List UInt8)
    (alike : AlikeFiles s s') :
    Mirrors (writeiLoop i fuel off src) (writeiLoop i fuel off src) s s' fun _ t t' =>
      AlikeFiles t t' := by
  induction fuel generalizing off src s s' with
  | zero => exact Mirrors.pure alike
  | succ fuel ih =>
      unfold writeiLoop
      apply Mirrors.ite
      · exact fun _ => Mirrors.pure alike
      · intro _
        refine Mirrors.seq (writeiMap_mirrors alike i _) fun _ t t' alike => ?_
        refine inodeAt_mirrors alike ?_
        refine Mirrors.seq (onBio_mirrors alike (writeiStore_mirrors alike.bio _ _ _)) ?_
        exact fun _ u u' alike => ih _ _ alike

theorem writei_mirrors (alike : AlikeFiles s s') (i : Fin NINODE) (src : List UInt8) (off : Nat) :
    Mirrors (writei i src off) (writei i src off) s s' fun _ t t' => AlikeFiles t t' := by
  unfold writei
  refine inodeAt_mirrors alike ?_
  apply Mirrors.ite
  · intro _
    apply Mirrors.ite
    · intro _
      unfold consoleWrite
      refine Mirrors.change (Mirrors.pure ⟨alike.bio, alike.inode, ?_⟩)
      rw [alike.cons]
    · exact fun _ => Mirrors.pure alike
  · intro _
    apply Mirrors.ite
    · intro _
      unfold writeiFile
      refine Mirrors.seq (writeiLoop_mirrors i _ off src alike) fun reached t t' alike => ?_
      refine Mirrors.seq (modifyInode_mirrors alike i _) fun _ u u' alike => ?_
      exact Mirrors.seq (iupdateSlot_mirrors alike i) fun _ v v' alike => Mirrors.pure alike
    · exact fun _ => Mirrors.fail

end

/-- The operations that read a block, change it and write it back. -/
inductive UpdateOp where
  | iupdate (i : Fin NINODE)
  | balloc (dev : UInt32)
  | bfree (dev b : UInt32)
  | ialloc (dev : UInt32) (type : UInt16)
  | mknod (dp : Fin NINODE) (path : List UInt8) (type major minor : UInt16)
  | writei (i : Fin NINODE) (src : List UInt8) (off : Nat)

/-- What an operation returns: nothing, a block number, a pointer into
`inode[]`, or a count of bytes. -/
inductive Answer where
  | nothing
  | block (b : UInt32)
  | inode (ip : Option (Fin NINODE))
  | count (r : Int)

/-- A null pointer or a negative count. -/
def Answer.ReportsError : Answer → Prop
  | .nothing => False
  | .block _ => False
  | .inode ip => ip = none
  | .count r => r < 0

namespace UpdateOp

def run : UpdateOp → Act Fault State Answer
  | .iupdate i => do
      iupdateSlot i
      pure .nothing
  | .balloc dev => do
      let b ← onBio (Fs.balloc dev)
      pure (.block b)
  | .bfree dev b => do
      onBio (Fs.bfree dev b)
      pure .nothing
  | .ialloc dev type => do
      let i ← Fs.ialloc dev type
      pure (.inode (some i))
  | .mknod dp path type major minor => do
      let i ← Fs.mknod dp path type major minor
      pure (.inode (some i))
  | .writei i src off => do
      let r ← Fs.writei i src off
      pure (.count r)

theorem run_mirrors {s s' : State} (alike : AlikeFiles s s') (op : UpdateOp) :
    Mirrors op.run op.run s s' fun _ t t' => AlikeFiles t t' := by
  have returns : ∀ {t t' : State} (answer : Answer), AlikeFiles t t' →
      Mirrors (pure answer : Act Fault State Answer) (pure answer) t t' fun _ t t' =>
        AlikeFiles t t' := fun _ alike => Mirrors.pure alike
  cases op with
  | iupdate i => exact Mirrors.seq (iupdateSlot_mirrors alike i) fun _ _ _ => returns _
  | balloc dev =>
      exact Mirrors.seq (onBio_mirrors alike (balloc_mirrors alike.bio dev)) fun _ _ _ => returns _
  | bfree dev b =>
      exact Mirrors.seq (onBio_mirrors alike (bfree_mirrors alike.bio dev b)) fun _ _ _ => returns _
  | ialloc dev type => exact Mirrors.seq (ialloc_mirrors alike dev type) fun _ _ _ => returns _
  | mknod dp path type major minor =>
      exact Mirrors.seq (mknod_mirrors alike dp path type major minor) fun _ _ _ => returns _
  | writei i src off => exact Mirrors.seq (writei_mirrors alike i src off) fun _ _ _ => returns _

end UpdateOp

/-- The same state with other bytes in the buffers. -/
def State.holding (s : State) (stale : Fin NBUF → Block) : State :=
  { s with bio := { s.bio with buf := fun i => ⟨(s.bio.buf i).busy, stale i⟩ } }

/-- With other bytes left in the buffers, the operation would have left another
disk than that of `t`. -/
def UpdateOp.DerivesFromStale (op : UpdateOp) (s t : State) : Prop :=
  ∃ stale answer t', op.run (s.holding stale) = .ok (answer, t') ∧ t'.disk ≠ t.disk

/-- One of the reads made from `s` to `t` failed. -/
def ReadFailed (s t : State) : Prop :=
  ∃ made, s.bio.sd.faults = made ++ t.bio.sd.faults ∧ true ∈ made

/-- A device is written without a read. -/
theorem writei_negative {i : Fin NINODE} {src : List UInt8} {off : Nat} {s t : State} {r : Int}
    (returned : writei i src off s = .ok (r, t)) (negative : r < 0) : t = s := by
  obtain ⟨ip, u, looked, rest⟩ := Act.bind_eq_ok.mp returned
  cases looked
  split at rest
  · split at rest
    · obtain ⟨_, v, -, last⟩ := Act.bind_eq_ok.mp rest
      cases last
      omega
    · cases rest
      rfl
  · split at rest
    · unfold writeiFile at rest
      obtain ⟨_, v, -, rest⟩ := Act.bind_eq_ok.mp rest
      obtain ⟨_, w, -, rest⟩ := Act.bind_eq_ok.mp rest
      obtain ⟨_, x, -, last⟩ := Act.bind_eq_ok.mp rest
      cases last
      omega
    · cases rest

/-- No operation reports a failed read. -/
theorem UpdateOp.silent {op : UpdateOp} {s t : State} {answer : Answer}
    (returned : op.run s = .ok (answer, t)) (failed : ReadFailed s t) : ¬answer.ReportsError := by
  intro reports
  cases op with
  | writei i src off =>
      obtain ⟨r, u, wrote, last⟩ := Act.bind_eq_ok.mp returned
      cases last
      obtain ⟨made, same, member⟩ := failed
      rw [writei_negative wrote reports] at same
      rw [List.self_eq_append_left.mp same] at member
      cases member
  | iupdate i =>
      obtain ⟨_, u, -, last⟩ := Act.bind_eq_ok.mp returned
      cases last
      exact reports
  | balloc dev =>
      obtain ⟨_, u, -, last⟩ := Act.bind_eq_ok.mp returned
      cases last
      exact reports
  | bfree dev b =>
      obtain ⟨_, u, -, last⟩ := Act.bind_eq_ok.mp returned
      cases last
      exact reports
  | ialloc dev type =>
      obtain ⟨_, u, -, last⟩ := Act.bind_eq_ok.mp returned
      cases last
      cases reports
  | mknod dp path type major minor =>
      obtain ⟨_, u, -, last⟩ := Act.bind_eq_ok.mp returned
      cases last
      cases reports

/-- On a card that answers, the disk does not depend on what the buffers
held. -/
theorem UpdateOp.fresh {op : UpdateOp} {s t : State} {answer : Answer}
    (answers : true ∉ s.bio.sd.faults) (returned : op.run s = .ok (answer, t)) :
    ¬op.DerivesFromStale s t := by
  rintro ⟨stale, answer', t', again, different⟩
  have alike : AlikeFiles s (s.holding stale) :=
    ⟨⟨rfl, rfl, fun _ member => member.elim, answers⟩, rfl, rfl⟩
  obtain ⟨-, ended⟩ := (UpdateOp.run_mirrors alike op).same_end returned again
  exact different (congrArg Sd.block ended.bio.card)

/-- An operation that returns meets its contract for failed reads exactly when
none of its reads failed; and on a card that answers nothing stale is
written. -/
theorem failed_reads_iff (op : UpdateOp) (s t : State) (answer : Answer)
    (returned : op.run s = .ok (answer, t)) :
    ((ReadFailed s t → answer.ReportsError ∧ ¬op.DerivesFromStale s t) ↔ ¬ReadFailed s t) ∧
    (true ∉ s.bio.sd.faults → ¬ReadFailed s t ∧ ¬op.DerivesFromStale s t) := by
  constructor
  · constructor
    · intro meets failed
      exact UpdateOp.silent returned failed (meets failed).1
    · exact fun answered failed => absurd failed answered
  · intro answers
    refine ⟨?_, UpdateOp.fresh answers returned⟩
    rintro ⟨made, same, member⟩
    apply answers
    rw [same]
    exact List.mem_append_left _ member

/-- Inode 1 in the first slot, bytes of another block in the buffers, and a
card whose next read fails. -/
def failingCard : State :=
  let s := (State.loaded fun _ => Block.zero).setInode ⟨0, NINODE_pos⟩
    { Inode.zero with dev := 1, inum := 1, count := 1, type := T_FILE }
  { s.holding fun _ => fun _ => 255 with
    bio := { (s.holding fun _ => fun _ => 255).bio with sd := ⟨s.disk, [true]⟩ } }

/-- `iupdate` then writes those bytes over the other inodes of the block and
returns as ever. -/
theorem iupdate_writes_stale :
    let op := UpdateOp.iupdate ⟨0, NINODE_pos⟩
    ∃ answer t, op.run failingCard = .ok (answer, t) ∧ ReadFailed failingCard t ∧
      ¬answer.ReportsError ∧ op.DerivesFromStale failingCard t ∧
      (failingCard.disk 2).dinode 2 ≠ (t.disk 2).dinode 2 := by
  let op := UpdateOp.iupdate ⟨0, NINODE_pos⟩
  let clean := failingCard.holding fun _ => Block.zero
  have facts : op.run.returns failingCard = true ∧ op.run.returns clean = true ∧
      (op.run.after failingCard).bio.sd.faults = [] ∧
      ((op.run.after clean).disk 2).dinode 2 ≠ ((op.run.after failingCard).disk 2).dinode 2 ∧
      (failingCard.disk 2).dinode 2 ≠ ((op.run.after failingCard).disk 2).dinode 2 := by
    decide +kernel
  obtain ⟨returned, cleanly, read, derived, lost⟩ := facts
  obtain ⟨answer, run⟩ := Act.returns_after _ _ returned
  obtain ⟨answer', again⟩ := Act.returns_after _ _ cleanly
  have failed : ReadFailed failingCard (op.run.after failingCard) := by
    refine ⟨[true], ?_, List.mem_singleton_self true⟩
    rw [read]
    rfl
  refine ⟨answer, _, run, failed, UpdateOp.silent run failed, ?_, lost⟩
  refine ⟨_, answer', _, again, fun same => derived ?_⟩
  rw [same]

theorem failed_reads_iff_answered :
    let op := UpdateOp.iupdate ⟨0, NINODE_pos⟩
    let s := State.loaded fun _ => Block.zero
    ¬op.DerivesFromStale s (op.run.after s) := by
  intro op s
  have returned : op.run.returns s = true := by
    decide +kernel
  obtain ⟨answer, run⟩ := Act.returns_after _ _ returned
  exact ((failed_reads_iff op s _ answer run).2 (List.not_mem_nil)).2

end Gcgos.Fs
