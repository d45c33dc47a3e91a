import Gcgos.Kernel.ExecFile
import Gcgos.Fs.Persist
import Gcgos.Mkfs.Append

/-!
# Four lookups of a file block

`bmap`, the allocation branch of `writei`, the inline lookup of `kexec` and
the mapping part of `iappend` in `mkfs` each turn a file block number into a
disk block. The last three read the indirect block's bytes. `bmap` reads the
`struct buf` that holds them, whose first word is its flags: its indirect half
is off by one entry, and for the first indirect block it is the busy flag.
-/

set_option autoImplicit false

namespace Gcgos

open Fs Act Bio
open Kernel (kexecBlock)

/-- File block `bn` has a disk block. -/
structure HasBlock (disk : Nat → Block) (addrs : Addrs) (bn : Nat) : Prop where
  bound : bn < MAXFILE
  block : blockOf disk addrs bn ≠ 0
  table : NDIRECT ≤ bn → addrs indirectSlot ≠ 0

section

variable {disk : Nat → Block} {addrs : Addrs} {bn : Nat}

theorem blockOf_direct (direct : bn < NDIRECT) :
    blockOf disk addrs bn = (addrs (addrSlot bn)).toNat := by
  simp [blockOf, direct]

theorem blockOf_indirect (indirect : NDIRECT ≤ bn) :
    blockOf disk addrs bn =
      ((disk (addrs indirectSlot).toNat).entry (bn - NDIRECT)).toNat := by
  simp [blockOf, Nat.not_lt.mpr indirect]

theorem HasBlock.direct_ne_zero (has : HasBlock disk addrs bn) (direct : bn < NDIRECT) :
    addrs (addrSlot bn) ≠ 0 := by
  intro zero
  have block := has.block
  rw [blockOf_direct direct, zero] at block
  exact block rfl

theorem HasBlock.entry_ne_zero (has : HasBlock disk addrs bn) (indirect : NDIRECT ≤ bn) :
    (disk (addrs indirectSlot).toNat).entry (bn - NDIRECT) ≠ 0 := by
  intro zero
  have block := has.block
  rw [blockOf_indirect indirect, zero] at block
  exact block rfl

theorem HasBlock.index (has : HasBlock disk addrs bn) (indirect : NDIRECT ≤ bn) :
    bn - NDIRECT < NINDIRECT := by
  have bound := has.bound
  simp only [MAXFILE, NDIRECT, NINDIRECT] at *
  omega

end

/-- The allocation branch of `writei` finds the entry and changes nothing. -/
theorem writeiMap_found {s : State} {i : Fin NINODE} {bn : Nat} (ready : s.bio.Ready 1)
    (has : HasBlock s.disk (s.inode i).addrs bn) :
    Yields (writeiMap i bn) s fun _ t => t.disk = s.disk ∧ t.inode = s.inode := by
  unfold writeiMap
  by_cases direct : bn < NDIRECT
  · rw [if_pos direct]
    have there := has.direct_ne_zero direct
    refine ⟨(), s, ?_, rfl, rfl⟩
    simp [addrsAlloc, inodeAt, Act.bind_run, there]
  · rw [if_neg direct]
    have indirect : NDIRECT ≤ bn := by omega
    have index := has.index indirect
    have found : addrsAlloc i indirectSlot s = .ok ((), s) := by
      simp [addrsAlloc, inodeAt, Act.bind_run, has.table indirect]
    unfold writeiIndirect
    refine Yields.step (Act.stopIf_of_not _ s (by omega)) ?_
    refine Yields.step found ?_
    refine Yields.step (t := s) (a := s.inode i) rfl ?_
    have inner : Yields (do
        let bp ← bread (s.inode i).dev ((s.inode i).addrs indirectSlot).toNat
        Act.stopIf (NINDIRECT ≤ bn - NDIRECT) .bounds
        let data ← bufData bp
        let data ← entryAlloc (s.inode i).dev data (bn - NDIRECT)
        bstore (s.inode i).dev bp data ((s.inode i).addrs indirectSlot).toNat :
          Act Fault Bio Unit) s.bio fun _ b => Settled s.bio b s.disk := by
      refine Yields.seq (bread_yields _ _ ready) ?_
      intro bp b held
      refine Yields.step (Act.stopIf_of_not _ b (by omega)) ?_
      refine Yields.seq (bufData_yields held) ?_
      rintro data _ ⟨rfl, rfl⟩
      have entry := has.entry_ne_zero indirect
      have kept : ∀ c : Bio, entryAlloc (s.inode i).dev
          (s.bio.sd.block ((s.inode i).addrs indirectSlot).toNat) (bn - NDIRECT) c =
            .ok (s.bio.sd.block ((s.inode i).addrs indirectSlot).toNat, c) := by
        intro c
        have there : (s.bio.sd.block ((s.inode i).addrs indirectSlot).toNat).entry
            (bn - NDIRECT) ≠ 0 := entry
        simp [entryAlloc, there]
      refine Yields.step (kept _) ?_
      refine (bstore_yields held _ _ _).mono ?_
      intro _ c settled
      rw [Function.update_eq_self] at settled
      exact settled
    refine Yields.zoom (inner.mono ?_)
    intro _ b settled
    exact ⟨settled.disk, rfl⟩

/-- The inline lookup of `kexec` reads the same entry. -/
theorem kexecBlock_found {b : Bio} {ip : Inode} {bn : Nat} (ready : b.Ready 1)
    (has : HasBlock b.sd.block ip.addrs bn) :
    Yields (kexecBlock ip bn) b fun result _ =>
      result.1.toNat = blockOf b.sd.block ip.addrs bn := by
  unfold kexecBlock
  by_cases direct : bn < NDIRECT
  · rw [if_pos direct]
    exact ⟨_, b, rfl, (blockOf_direct direct).symm⟩
  · rw [if_neg direct]
    have indirect : NDIRECT ≤ bn := by omega
    refine Yields.seq (bread_yields _ _ ready) ?_
    intro bp c held
    refine Yields.seq (bufData_yields held) ?_
    rintro data _ ⟨rfl, rfl⟩
    refine Yields.step (Act.stopIf_of_not _ _ (Nat.not_le.mpr (has.index indirect))) ?_
    refine Yields.step (Act.stopIf_of_not _ _ (has.entry_ne_zero indirect)) ?_
    exact ⟨_, _, rfl, (blockOf_indirect indirect).symm⟩

/-- What `bmap` returns: the entry, for a direct block; the busy flag, for the
first indirect block; the entry before, for the others. -/
theorem bmap_value {b : Bio} (ip : Inode) {bn : Nat} (ready : b.Ready 1)
    (bound : bn < MAXFILE) :
    Yields (bmap ip bn) b fun x _ => x =
      if bn < NDIRECT then ip.addrs (addrSlot bn)
      else if bn = NDIRECT then 1
      else (b.sd.block (ip.addrs indirectSlot).toNat).entry (bn - NDIRECT - 1) := by
  unfold bmap
  by_cases direct : bn < NDIRECT
  · rw [if_pos direct, if_pos direct]
    exact ⟨_, b, rfl, rfl⟩
  · rw [if_neg direct, if_neg direct]
    refine Yields.seq (bread_yields _ _ ready) ?_
    intro bp c held
    refine Yields.step (t := c) (a := c.buf bp) rfl ?_
    have busy : (c.buf bp).busy = true := by
      have flag := congrFun held.busy bp
      rw [Function.update_self] at flag
      exact flag
    by_cases first : bn = NDIRECT
    · rw [if_pos first]
      have word : (c.buf bp).word (bn - NDIRECT) = some 1 := by
        simp [Buf.word, first, Buf.flags, busy]
      rw [word]
      exact ⟨_, c, rfl, rfl⟩
    · rw [if_neg first]
      have index : bn - NDIRECT ≠ 0 ∧ bn - NDIRECT ≤ NINDIRECT := by
        simp only [MAXFILE, NDIRECT, NINDIRECT] at *
        omega
      have word : (c.buf bp).word (bn - NDIRECT) =
          some ((b.sd.block (ip.addrs indirectSlot).toNat).entry (bn - NDIRECT - 1)) := by
        simp [Buf.word, index.1, index.2, held.data]
      rw [word]
      exact ⟨_, c, rfl, rfl⟩

/-- `bmap` returns what the other three lookups of file block `bn` give: the
entry that `writei` has found, the block that `kexec` reads, and the block
that `mkfs` writes to on an image with the same blocks. -/
def BmapAgrees (s : State) (i : Fin NINODE) (bn : Nat) : Prop :=
  Yields (bmap (s.inode i) bn) s.bio fun x _ =>
    Yields (writeiMap i bn) s (fun _ t => x.toNat = blockOf t.disk (t.inode i).addrs bn) ∧
    Yields (kexecBlock (s.inode i) bn) s.bio (fun result _ => x = result.1) ∧
    ∀ m : Mkfs.State, m.image = s.disk →
      (NDIRECT ≤ bn → ((s.inode i).addrs indirectSlot).toNat < m.sectors) →
      Yields (Mkfs.iappendMap (s.inode i).dinode bn) m fun result _ => x = result.1

/-- The entries of the inode's indirect block. -/
def indirectEntry (s : State) (i : Fin NINODE) (k : Nat) : UInt32 :=
  (s.disk ((s.inode i).addrs indirectSlot).toNat).entry k

theorem bmapAgrees_of_value {s : State} {i : Fin NINODE} {bn : Nat} (ready : s.bio.Ready 1)
    (has : HasBlock s.disk (s.inode i).addrs bn)
    (value : Yields (bmap (s.inode i) bn) s.bio fun x _ =>
      x.toNat = blockOf s.disk (s.inode i).addrs bn) : BmapAgrees s i bn := by
  refine value.mono ?_
  intro x _ same
  refine ⟨?_, ?_, ?_⟩
  · refine (writeiMap_found ready has).mono ?_
    rintro _ t ⟨disk, inode⟩
    rw [disk, inode]
    exact same
  · refine (kexecBlock_found ready has).mono ?_
    intro result _ read
    exact UInt32.toNat_inj.mp (same.trans read.symm)
  · intro m image inside
    have mapped : blockOf m.image (s.inode i).dinode.addrs bn ≠ 0 := by
      rw [image]
      exact has.block
    refine (Mkfs.iappendMap_found has.bound mapped fun indirect =>
      ⟨has.table indirect, inside indirect⟩).mono ?_
    rintro result _ ⟨-, block, -⟩
    rw [image] at block
    exact UInt32.toNat_inj.mp (same.trans block.symm)

/-- The lookups agree on a mapped file block exactly when it is a direct one,
or the first indirect one and its entry happens to be 1, or a later one whose
entry happens to be that of the block before it. -/
theorem bmap_agrees_iff {s : State} {i : Fin NINODE} {bn : Nat} (ready : s.bio.Ready 1)
    (has : HasBlock s.disk (s.inode i).addrs bn) :
    BmapAgrees s i bn ↔ bn < NDIRECT ∨ (bn = NDIRECT ∧ indirectEntry s i 0 = 1) ∨
      (NDIRECT < bn ∧
        indirectEntry s i (bn - NDIRECT) = indirectEntry s i (bn - NDIRECT - 1)) := by
  have value := bmap_value (s.inode i) ready has.bound
  constructor
  · intro agrees
    by_cases direct : bn < NDIRECT
    · exact Or.inl direct
    right
    have indirect : NDIRECT ≤ bn := by omega
    rw [if_neg direct] at value
    obtain ⟨x, c, run, -, kexec, -⟩ := agrees
    obtain ⟨result, d, lookup, same⟩ := kexec
    have read := (kexecBlock_found ready has).ensures result d lookup
    have known := value.ensures x c run
    have entry : x = indirectEntry s i (bn - NDIRECT) := by
      rw [same]
      apply UInt32.toNat_inj.mp
      rw [read]
      exact blockOf_indirect indirect
    by_cases first : bn = NDIRECT
    · rw [if_pos first] at known
      rw [known, first, Nat.sub_self] at entry
      exact Or.inl ⟨first, entry.symm⟩
    · rw [if_neg first] at known
      exact Or.inr ⟨by omega, by rw [← entry, known]; rfl⟩
  · intro cases
    refine bmapAgrees_of_value ready has (value.mono ?_)
    intro x _ known
    rcases cases with direct | ⟨first, entry⟩ | ⟨later, entry⟩
    · rw [known, if_pos direct]
      exact (blockOf_direct direct).symm
    · have notDirect : ¬bn < NDIRECT := by omega
      rw [known, if_neg notDirect, if_pos first, blockOf_indirect (by omega), first,
        Nat.sub_self]
      exact congrArg UInt32.toNat entry.symm
    · have notDirect : ¬bn < NDIRECT := by omega
      have notFirst : bn ≠ NDIRECT := by omega
      rw [known, if_neg notDirect, if_neg notFirst, blockOf_indirect (by omega)]
      exact congrArg UInt32.toNat entry.symm

/-- A file of 32 blocks: its last block is entry 0 of the indirect block 5 and
lies in block 7. -/
def longFileState : State :=
  { smallState with
    bio := ⟨⟨fun sector => if sector = 5 then Block.zero.putU32 0 7 else smallDisk sector, []⟩,
      fun _ => ⟨false, Block.zero⟩⟩
    inode := fun _ => { emptyInode with
      inum := 1, count := 1, type := T_FILE, size := 32 * 512, addrs := fun _ => 5 } }

theorem longFileState_has :
    HasBlock longFileState.disk (longFileState.inode 0).addrs NDIRECT :=
  ⟨by decide, by decide +kernel, fun _ => by decide +kernel⟩

/-- On block 31 of that file `bmap` returns 1 and the others 7. -/
theorem bmap_disagrees_on_indirect_blocks :
    ¬∀ (s : State) (i : Fin NINODE) (bn : Nat), s.bio.Ready NBUF →
      HasBlock s.disk (s.inode i).addrs bn → BmapAgrees s i bn := by
  intro claim
  obtain ⟨x, c, run, -, ⟨result, d, lookup, same⟩, -⟩ :=
    claim longFileState 0 NDIRECT ⟨rfl, by decide +kernel⟩ longFileState_has
  have ready : longFileState.bio.Ready 1 := ⟨rfl, by decide +kernel⟩
  have value := (bmap_value (longFileState.inode 0) ready (by decide)).ensures x c run
  have read := (kexecBlock_found ready longFileState_has).ensures result d lookup
  have one : x = 1 := value
  have seven : blockOf longFileState.bio.sd.block (longFileState.inode 0).addrs NDIRECT = 7 := by
    decide +kernel
  rw [seven, ← same, one] at read
  exact absurd read (by decide)

/-- On its block 0 they all return 5. -/
theorem bmap_agrees_on_first_block : BmapAgrees longFileState 0 0 :=
  (@bmap_agrees_iff longFileState 0 0 ⟨rfl, by decide +kernel⟩
    ⟨by decide, by decide +kernel, fun late => absurd late (by decide)⟩).mpr
    (Or.inl (by decide))

end Gcgos
