import Gcgos.Fs.Geometry
import Gcgos.Fs.Namei

/-!
# What the inode operations do

`iget`, `ialloc` and `mknod` as changes of the disk and of slots of the inode
table. `iget` either takes one more reference to a slot that holds the inode
or loads a free slot from the disk; it writes nothing to the disk.
-/

set_option autoImplicit false

namespace Gcgos.Fs

open Act Bio ByteMap

/-- The inode that `iget` builds from a dinode. -/
def Dinode.load (din : Dinode) (dev inum : UInt32) : Inode where
  dev := dev
  major := din.major
  minor := din.minor
  inum := inum
  count := 1
  busy := true
  type := din.type
  nlink := din.nlink
  size := din.size
  addrs := din.addrs

theorem Bio.Settled.sd_eq {s t : Bio} (settled : Settled s t s.sd.block) : t.sd = s.sd := by
  have blocks := settled.disk
  have faults := settled.faults
  cases left : t.sd
  cases right : s.sd
  simp_all

/-- What is held after a detour that changed nothing is held from the start. -/
theorem Bio.Settled.held {s t u : Bio} {i : Fin NBUF} {data : Block}
    (settled : Settled s t s.sd.block) (held : Held t u i data) : Held s u i data := by
  refine ⟨?_, ?_, held.data, held.sd.trans settled.sd_eq⟩
  · rw [← settled.busy]
    exact held.free
  · rw [held.busy, settled.busy]

theorem Bio.Held.release {s t : Bio} {i : Fin NBUF} {data : Block} (held : Held s t i data) :
    Yields (brelse i) t fun _ u => Settled s u s.sd.block := by
  have released := brelse_yields held.free held.busy (by rw [held.sd])
  rw [held.sd] at released
  exact released

/-- The read in the second half of `iget`. -/
theorem readDinode_yields {b : Bio} (dev inum : UInt32) (ready : b.Ready 1) :
    Yields (do
      let bp ← bread dev (IBLOCK inum.toNat)
      let data ← bufData bp
      brelse bp
      pure (data.dinode (inum.toNat % IPB)) : Act Fault Bio Dinode) b
      fun din c => din = dinodeAt b.sd.block inum.toNat ∧ Settled b c b.sd.block := by
  refine Yields.seq (bread_yields dev _ ready) ?_
  intro bp c held
  refine Yields.seq (bufData_yields held) ?_
  rintro data _ ⟨rfl, rfl⟩
  refine Yields.seq held.release ?_
  intro _ d settled
  exact ⟨_, d, rfl, rfl, settled⟩

theorem igetMiss_yields {s : State} (i : Fin NINODE) (dev inum : UInt32)
    (ready : s.bio.Ready 1) :
    Yields (igetMiss i dev inum) s fun j t =>
      j = i ∧ Wrote s t i s.disk ((dinodeAt s.disk inum.toNat).load dev inum) := by
  unfold igetMiss
  refine Yields.seq (modifyInode_wrote (fun nip =>
    { nip with dev := dev, inum := inum, count := 1, busy := true }) (Wrote.refl s i)) ?_
  intro _ t claimed
  have disk : t.bio.sd.block = s.disk := claimed.disk_eq
  have filled : Yields (igetLoad i dev inum) t fun _ u =>
      Wrote s u i s.disk ((dinodeAt s.disk inum.toNat).load dev inum) := by
    unfold igetLoad
    refine Yields.seq (onBio_wrote i (readDinode_yields dev inum (claimed.bio.ready ready))) ?_
    rintro din u ⟨rfl, read⟩
    rw [disk] at read ⊢
    have held := claimed.trans read
    rw [claimed.at_slot] at held
    refine (modifyInode_wrote _ held).mono ?_
    intro _ v done
    exact done
  refine Yields.seq filled ?_
  intro _ u done
  exact ⟨i, u, rfl, rfl, done⟩

theorem findSlot_some {s : State} {dev inum : UInt32} {i : Fin NINODE}
    (found : findSlot s dev inum = some i) :
    0 < (s.inode i).count ∧ (s.inode i).dev = dev ∧ (s.inode i).inum = inum := by
  have hit := List.find?_some found
  simp only [Bool.and_eq_true, decide_eq_true_eq, beq_iff_eq] at hit
  exact ⟨hit.1.1, hit.1.2, hit.2⟩

theorem findSlot_none {s : State} {dev inum : UInt32} (none_found : findSlot s dev inum = none)
    {i : Fin NINODE} (held : 0 < (s.inode i).count) (same : (s.inode i).dev = dev) :
    (s.inode i).inum ≠ inum := by
  have miss := List.find?_eq_none.mp none_found i (List.mem_finRange i)
  simpa [held, same] using miss

theorem freeSlot_some {s : State} {i : Fin NINODE} (found : freeSlot s = some i) :
    (s.inode i).count = 0 := by
  have hit := List.find?_some found
  simpa using hit

/-- What `iget` does to the slot it returns. -/
def IgetSlot (s : State) (dev inum : UInt32) (i : Fin NINODE) (ip : Inode) : Prop :=
  (findSlot s dev inum = some i ∧ (s.inode i).busy = false ∧
    ip = { s.inode i with count := (s.inode i).count + 1, busy := true }) ∨
  (findSlot s dev inum = none ∧ (s.inode i).count = 0 ∧
    ip = (dinodeAt s.disk inum.toNat).load dev inum)

/-- `iget` returns a slot with the inode, or sleeps on a busy one, or finds no
free slot. -/
theorem iget_outcome {s : State} (dev inum : UInt32) (ready : s.bio.Ready 1) :
    Yields (iget dev inum) s (fun i t =>
      ∃ ip, IgetSlot s dev inum i ip ∧ Wrote s t i s.disk ip) ∨
    (∃ i, findSlot s dev inum = some i ∧ (s.inode i).busy = true ∧
      iget dev inum s = .error (.sleep (.inode i))) ∨
    (findSlot s dev inum = none ∧ freeSlot s = none ∧
      iget dev inum s = .error (.panic "out of inode")) := by
  unfold iget
  cases hit : findSlot s dev inum with
  | some i =>
      by_cases locked : (s.inode i).busy = true
      · refine Or.inr (Or.inl ⟨i, rfl, locked, ?_⟩)
        simp [Act.bind_run, Act.reads, igetHit, inodeAt, Act.stopIf_of _ _ locked, hit]
      · refine Or.inl ⟨i, _, ?_, _, Or.inl ⟨hit, by simpa using locked, rfl⟩,
          (modifyInode_wrote (fun ip => { ip with count := ip.count + 1, busy := true })
            (Wrote.refl s i)).ensures () _ rfl⟩
        simp [Act.bind_run, Act.reads, igetHit, inodeAt, Act.stopIf_of_not _ _ locked, hit,
          modifyInode]
  | none =>
      cases free : freeSlot s with
      | some i =>
          left
          refine Yields.step (t := s) (a := s) rfl ?_
          simp only [hit, free]
          refine (igetMiss_yields i dev inum ready).mono ?_
          rintro j t ⟨rfl, wrote⟩
          exact ⟨_, Or.inr ⟨hit, freeSlot_some free, rfl⟩, wrote⟩
      | none =>
          refine Or.inr (Or.inr ⟨rfl, rfl, ?_⟩)
          simp [Act.bind_run, Act.reads, hit, free]

theorem iget_ensures {s : State} (dev inum : UInt32) (ready : s.bio.Ready 1) :
    Ensures (iget dev inum) s fun i t =>
      ∃ ip, IgetSlot s dev inum i ip ∧ Wrote s t i s.disk ip := by
  intro i t returned
  rcases iget_outcome dev inum ready with yields | ⟨_, _, _, stopped⟩ | ⟨_, _, stopped⟩
  · exact yields.ensures i t returned
  · rw [returned] at stopped
    cases stopped
  · rw [returned] at stopped
    cases stopped

/-- `ialloc` stores the type of the dinode it takes. -/
def allocOnDisk (disk : Nat → Block) (inum : Nat) (type : UInt16) : Nat → Block :=
  Function.update disk (IBLOCK inum)
    ((disk (IBLOCK inum)).putU16 (dinodeSize * (inum % IPB)) type)

/-- The scan stops at an unused dinode and holds its block. -/
theorem iallocScan_yields {s : Bio} (dev : UInt32) (ready : s.Ready 1) (fuel inum : Nat)
    (last : Option (Fin NBUF × Nat)) {m : Nat} {u : Bio} (settled : Settled s u s.sd.block)
    (lower : inum ≤ m) (upper : m < inum + fuel)
    (unused : (dinodeAt s.sd.block m).type = 0) :
    Yields (iallocScan dev fuel inum last) u fun result t =>
      ∃ n bp, inum ≤ n ∧ n ≤ m ∧ (dinodeAt s.sd.block n).type = 0 ∧
        result = (n, some (bp, n % IPB)) ∧ Held s t bp (s.sd.block (IBLOCK n)) := by
  induction fuel generalizing inum last u with
  | zero => omega
  | succ fuel ih =>
      unfold iallocScan
      refine Yields.seq (bread_yields dev _ (settled.ready ready)) ?_
      intro bp t heldHere
      have held := settled.held heldHere
      rw [settled.disk] at held
      refine Yields.seq (bufData_yields held) ?_
      rintro data _ ⟨rfl, rfl⟩
      by_cases free : ((s.sd.block (IBLOCK inum)).dinode (inum % IPB)).type = 0
      · rw [if_pos free]
        exact ⟨_, _, rfl, inum, bp, le_refl _, lower, free, rfl, held⟩
      · rw [if_neg free]
        refine Yields.seq held.release ?_
        intro _ v released
        have later : inum ≠ m := by
          intro same
          subst same
          exact free unused
        refine (ih (inum + 1) _ released (by omega) (by omega)).mono ?_
        rintro result w ⟨n, bp', above, below, type, same, final⟩
        exact ⟨n, bp', by omega, below, type, same, final⟩

/-- With an unused dinode on the disk, the disk part of `ialloc` takes one. -/
theorem iallocDisk_yields {s : Bio} (dev : UInt32) (type : UInt16) (ready : s.Ready 1)
    {m : Nat} (lower : 1 ≤ m) (upper : m < intBound (s.sd.block 1).supperblock.ninodes)
    (unused : (dinodeAt s.sd.block m).type = 0) :
    Yields (iallocDisk dev type) s fun n t =>
      n ≤ m ∧ (dinodeAt s.sd.block n).type = 0 ∧
        Settled s t (allocOnDisk s.sd.block n type) := by
  unfold iallocDisk
  refine Yields.seq (bread_yields dev 1 ready) ?_
  intro bp t held
  refine Yields.seq (bufData_yields held) ?_
  rintro data _ ⟨rfl, rfl⟩
  refine Yields.seq held.release ?_
  intro _ u settled
  refine Yields.seq (iallocScan_yields dev ready _ 1 none settled lower (by omega) unused) ?_
  rintro result v ⟨n, bp', above, below, free, rfl, heldAt⟩
  refine Yields.seq (bufData_yields heldAt) ?_
  rintro data _ ⟨rfl, rfl⟩
  refine Yields.seq (bstore_yields heldAt dev _ _) ?_
  intro _ w stored
  exact ⟨n, w, rfl, below, free, stored⟩

/-- The search of `mknod` in a directory of direct blocks ends with one of
its blocks held. -/
theorem mknodScan_ensures {s : Bio} (ready : s.Ready 1) (dp : Inode)
    (direct : dp.size.toNat ≤ NDIRECT * BSIZE) (fuel off : Nat) {u : Bio}
    (settled : Settled s u s.sd.block) :
    Ensures (mknodScan dp fuel off) u fun result t =>
      ∀ place k bp, result = some (place, k, bp) → place / 512 < NDIRECT ∧
        Held s t bp (s.sd.block (dp.addrs (addrSlot (place / 512))).toNat) := by
  induction fuel generalizing off u with
  | zero =>
      apply Ensures.pure
      intro place k bp same
      cases same
  | succ fuel ih =>
      unfold mknodScan
      refine Ensures.ite (fun inside => ?_) fun _ => ?_
      · have inDirect : off / 512 < NDIRECT := by
          simp only [NDIRECT, BSIZE] at *
          omega
        refine Ensures.seq (m := fun blk t => blk = dp.addrs (addrSlot (off / 512)) ∧ t = u)
          ?_ ?_
        · intro blk t returned
          rw [bmap_direct dp inDirect u] at returned
          cases returned
          exact ⟨rfl, rfl⟩
        · rintro blk _ ⟨rfl, rfl⟩
          refine Ensures.seq (bread_yields dp.dev _ (settled.ready ready)).ensures ?_
          intro bp t heldHere
          have held := settled.held heldHere
          rw [settled.disk] at held
          refine Ensures.seq (bufData_yields held).ensures ?_
          rintro data _ ⟨rfl, rfl⟩
          cases direntFree (s.sd.block (dp.addrs (addrSlot (off / 512))).toNat)
              direntsPerBlock 0 with
          | some k =>
              apply Ensures.pure
              intro place k' bp' same
              cases same
              exact ⟨inDirect, held⟩
          | none => exact Ensures.seq held.release.ensures fun _ v released => ih _ released
      · apply Ensures.pure
        intro place k bp same
        cases same

/-- `mknod` writes one block of the directory. -/
theorem mknodEnter_ensures {s : Bio} (ready : s.Ready 1) (dp : Inode) (inum : UInt32)
    (path : List UInt8) (direct : dp.size.toNat ≤ NDIRECT * BSIZE) :
    Ensures (mknodEnter dp inum path) s fun _ t =>
      ∃ lbn block, lbn < NDIRECT ∧
        Settled s t (Function.update s.sd.block (dp.addrs (addrSlot lbn)).toNat block) := by
  unfold mknodEnter
  refine Ensures.seq (mknodScan_ensures ready dp direct _ 0 (Settled.refl s)) ?_
  intro hit t found
  match hit with
  | none => exact Ensures.fail
  | some (off, k, bp) =>
      obtain ⟨inDirect, held⟩ := found off k bp rfl
      refine Ensures.seq (bufData_yields held).ensures ?_
      rintro data t ⟨rfl, rfl⟩
      refine Ensures.seq (m := fun _ v => v = t) ?_ ?_
      · intro name v returned
        unfold liftExcept at returned
        split at returned
        · cases returned
          rfl
        · cases returned
      · rintro name _ rfl
        refine Ensures.seq (setBufData_yields held _).ensures ?_
        intro _ v heldNew
        refine Ensures.seq (m := fun blk w => blk = dp.addrs (addrSlot (off / 512)) ∧ w = v)
          ?_ ?_
        · intro blk w returned
          rw [bmap_direct dp inDirect v] at returned
          cases returned
          exact ⟨rfl, rfl⟩
        · rintro blk _ ⟨rfl, rfl⟩
          refine (bwrite_brelse_yields heldNew dp.dev _).ensures.mono ?_
          intro _ w settled
          exact ⟨off / 512, _, inDirect, settled⟩

end Gcgos.Fs
