import Gcgos.Fs.File

/-!
# `writei` on the direct blocks

As long as a write stays below file block `NDIRECT`, a call of `writei` is a
function of the disk's sectors and of the inode: `directWrite` is that
function, without buffers and without state passing. The theorems say that
`writei` computes it, that every buffer is free again afterwards, and that
the only way not to return is the panic of `balloc` on a full bitmap.
-/

set_option autoImplicit false

namespace Gcgos.Fs

open Act Bio ByteMap

/-- Give entry `k` a block if it has none; `none` when no block is free. -/
def directAlloc (disk : Nat → Block) (addrs : Addrs) (k : Fin (NDIRECT + 1)) :
    Option ((Nat → Block) × Addrs) :=
  if addrs k = 0 then
    (firstFree disk).map fun b =>
      (mark disk (disk 1).supperblock.ninodes b,
        Function.update addrs k (UInt32.ofNat b))
  else some (disk, addrs)

/-- Store a piece at its place in block `blk`. -/
def directStore (disk : Nat → Block) (blk off : Nat) (piece : List UInt8) : Nat → Block :=
  Function.update disk blk ((disk blk).put (off % BSIZE) piece)

/-- The loop of `writei` over direct blocks. -/
def directRun : (fuel off : Nat) → (src : List UInt8) → (Nat → Block) → Addrs →
    Option ((Nat → Block) × Addrs)
  | 0, _, _, disk, addrs => some (disk, addrs)
  | fuel + 1, off, src, disk, addrs =>
      if src = [] then some (disk, addrs)
      else
        let m := min (BSIZE - off % BSIZE) src.length
        (directAlloc disk addrs (addrSlot (off / BSIZE))).bind fun next =>
          directRun fuel (off + m) (src.drop m)
            (directStore next.1 (next.2 (addrSlot (off / BSIZE))).toNat off (src.take m)) next.2

/-- The disk after `iupdate`. -/
def updateOnDisk (disk : Nat → Block) (ip : Inode) : Nat → Block :=
  Function.update disk (IBLOCK ip.inum.toNat)
    ((disk (IBLOCK ip.inum.toNat)).updateDinode (ip.inum.toNat % IPB) ip)

/-- A whole call: the loop, the new size, and `iupdate`. -/
def directWrite (disk : Nat → Block) (ip : Inode) (src : List UInt8) (off : Nat) :
    Option ((Nat → Block) × Inode) :=
  (directRun src.length off src disk ip.addrs).map fun next =>
    let ip := writeiGrow src.length (off + src.length) { ip with addrs := next.2 }
    (updateOnDisk next.1 ip, ip)

/-- The bytes to write, if there are any, lie in the first `NDIRECT` blocks. -/
def InDirect (off : Nat) (src : List UInt8) : Prop :=
  src = [] ∨ off + src.length ≤ NDIRECT * BSIZE

instance (off : Nat) (src : List UInt8) : Decidable (InDirect off src) :=
  inferInstanceAs (Decidable (_ ∨ _))

theorem InDirect.block {off : Nat} {src : List UInt8} (direct : InDirect off src)
    (nonempty : src ≠ []) : off / BSIZE < NDIRECT := by
  have positive : 0 < src.length := List.length_pos_iff.mpr nonempty
  have bound := direct.resolve_left nonempty
  simp only [NDIRECT, BSIZE] at bound ⊢
  omega

theorem InDirect.rest {off : Nat} {src : List UInt8} (direct : InDirect off src) :
    InDirect (off + min (BSIZE - off % BSIZE) src.length)
      (src.drop (min (BSIZE - off % BSIZE) src.length)) := by
  rcases direct with empty | bound
  · exact Or.inl (by simp [empty])
  · exact Or.inr (by simp only [List.length_drop]; omega)

/-- From `s` to `t` slot `i` became `ip` and the sectors became `disk`; the
rest of the file-system state is as it was. -/
structure Wrote (s t : State) (i : Fin NINODE) (disk : Nat → Block) (ip : Inode) : Prop where
  bio : Settled s.bio t.bio disk
  inode : t.inode = Function.update s.inode i ip
  cons : t.cons = s.cons
  wakeups : t.wakeups = s.wakeups

theorem Wrote.refl (s : State) (i : Fin NINODE) : Wrote s s i s.disk (s.inode i) :=
  ⟨Settled.refl s.bio, (Function.update_eq_self i s.inode).symm, rfl, rfl⟩

theorem Wrote.trans {s t u : State} {i : Fin NINODE} {first second : Nat → Block}
    {ip next : Inode} (left : Wrote s t i first ip) (right : Wrote t u i second next) :
    Wrote s u i second next := by
  refine ⟨left.bio.trans right.bio, ?_, right.cons.trans left.cons,
    right.wakeups.trans left.wakeups⟩
  rw [right.inode, left.inode, Function.update_idem]

theorem Wrote.at_slot {s t : State} {i : Fin NINODE} {disk : Nat → Block} {ip : Inode}
    (wrote : Wrote s t i disk ip) : t.inode i = ip := by
  rw [wrote.inode, Function.update_self]

theorem Wrote.other {s t : State} {i j : Fin NINODE} {disk : Nat → Block} {ip : Inode}
    (wrote : Wrote s t i disk ip) (different : j ≠ i) : t.inode j = s.inode j := by
  rw [wrote.inode, Function.update_of_ne different]

theorem Wrote.disk_eq {s t : State} {i : Fin NINODE} {disk : Nat → Block} {ip : Inode}
    (wrote : Wrote s t i disk ip) : t.disk = disk := wrote.bio.disk

/-- An operation on the buffers that settles writes no inode. -/
theorem onBio_wrote {α : Type} {s : State} (i : Fin NINODE) {inner : Act Fault Bio α}
    {disk : Nat → Block} {p : α → Prop}
    (settles : Yields inner s.bio fun value b => p value ∧ Settled s.bio b disk) :
    Yields (onBio inner) s fun value t =>
      p value ∧ Wrote s t i disk (s.inode i) := by
  apply Yields.zoom
  refine settles.mono ?_
  rintro value b ⟨met, settled⟩
  exact ⟨met, settled, (Function.update_eq_self i s.inode).symm, rfl, rfl⟩

theorem modifyInode_wrote {s t : State} {i : Fin NINODE} {disk : Nat → Block} {ip : Inode}
    (change : Inode → Inode) (before : Wrote s t i disk ip) :
    Yields (modifyInode i change) t fun _ u => Wrote s u i disk (change ip) := by
  refine ⟨(), _, rfl, before.bio, ?_, before.cons, before.wakeups⟩
  rw [State.setInode_inode, before.inode, Function.update_self, Function.update_idem]

theorem addrsAlloc_yields {s : State} (i : Fin NINODE) (k : Fin (NDIRECT + 1))
    (ready : s.bio.Ready 1) {disk : Nat → Block} {addrs : Addrs}
    (alloc : directAlloc s.disk (s.inode i).addrs k = some (disk, addrs)) :
    Yields (addrsAlloc i k) s fun _ t =>
      Wrote s t i disk { s.inode i with addrs := addrs } := by
  unfold directAlloc at alloc
  unfold addrsAlloc
  refine Yields.step (t := s) (rfl) ?_
  by_cases zero : (s.inode i).addrs k = 0
  · rw [if_pos zero] at alloc ⊢
    obtain ⟨b, found, same⟩ := Option.map_eq_some_iff.mp alloc
    cases same
    refine Yields.seq (onBio_wrote i (p := fun value => value = UInt32.ofNat b)
      (balloc_yields _ ready found)) ?_
    rintro value t ⟨rfl, wrote⟩
    exact modifyInode_wrote _ wrote
  · rw [if_neg zero] at alloc ⊢
    cases alloc
    exact ⟨(), s, rfl, Wrote.refl s i⟩

theorem addrsAlloc_full {s : State} (i : Fin NINODE) (k : Fin (NDIRECT + 1))
    (ready : s.bio.Ready 1) (full : directAlloc s.disk (s.inode i).addrs k = none) :
    addrsAlloc i k s = .error (.panic "balloc: out of blocks\n") := by
  unfold directAlloc at full
  unfold addrsAlloc
  rw [Act.bind_of_ok (f := inodeAt i) (t := s) (a := s.inode i) rfl]
  by_cases zero : (s.inode i).addrs k = 0
  · rw [if_pos zero] at full ⊢
    have exhausted : firstFree s.disk = none := by simpa using full
    apply Act.bind_of_error
    unfold onBio Act.zoom
    rw [balloc_full _ ready exhausted]
  · rw [if_neg zero] at full
    cases full

theorem bmap_direct (ip : Inode) {bn : Nat} (direct : bn < NDIRECT) (s : Bio) :
    bmap ip bn s = .ok (ip.addrs (addrSlot bn), s) := by
  simp [bmap, direct]

theorem writeiStore_yields {s : Bio} (ip : Inode) {off : Nat} (piece : List UInt8)
    (direct : off / BSIZE < NDIRECT) (ready : s.Ready 1) :
    Yields (writeiStore ip off piece) s fun _ t =>
      Settled s t
        (directStore s.sd.block (ip.addrs (addrSlot (off / BSIZE))).toNat off piece) := by
  unfold writeiStore
  refine Yields.step (t := s) (bmap_direct ip direct s) ?_
  refine Yields.seq (bread_yields ip.dev _ ready) ?_
  intro bp t held
  refine Yields.seq (bufData_yields held) ?_
  rintro data _ ⟨rfl, rfl⟩
  refine Yields.seq (setBufData_yields held _) ?_
  intro _ u filled
  refine Yields.step (t := u) (bmap_direct ip direct u) ?_
  exact bwrite_brelse_yields filled ip.dev _

/-- The loop of `writei` computes `directRun`. -/
theorem writeiLoop_yields (i : Fin NINODE) (fuel off : Nat) (src : List UInt8)
    {s : State} (ready : s.bio.Ready 1) (enough : src.length ≤ fuel)
    (direct : InDirect off src)
    {disk : Nat → Block} {addrs : Addrs}
    (run : directRun fuel off src s.disk (s.inode i).addrs = some (disk, addrs)) :
    Yields (writeiLoop i fuel off src) s fun reached t =>
      reached = off + src.length ∧
        Wrote s t i disk { s.inode i with addrs := addrs } := by
  induction fuel generalizing off src s with
  | zero =>
      have empty : src = [] := List.eq_nil_of_length_eq_zero (by omega)
      subst empty
      cases run
      exact ⟨off, s, rfl, by simp, Wrote.refl s i⟩
  | succ fuel ih =>
      unfold directRun at run
      unfold writeiLoop
      by_cases empty : src = []
      · subst empty
        rw [if_pos rfl] at run ⊢
        cases run
        exact ⟨off, s, rfl, by simp, Wrote.refl s i⟩
      · rw [if_neg empty] at run ⊢
        have positive : 0 < src.length := List.length_pos_iff.mpr empty
        have inDirect := direct.block empty
        obtain ⟨⟨disk₁, addrs₁⟩, alloc, rest⟩ := Option.bind_eq_some_iff.mp run
        have mapRun : writeiMap i (off / BSIZE) = addrsAlloc i (addrSlot (off / BSIZE)) := by
          simp [writeiMap, inDirect]
        rw [mapRun]
        refine Yields.seq (addrsAlloc_yields i (addrSlot (off / BSIZE)) ready alloc) ?_
        intro _ t wrote
        refine Yields.step (t := t) (rfl) ?_
        have ready₁ := wrote.bio.ready ready
        refine Yields.seq (onBio_wrote i (p := fun _ => True)
          ((writeiStore_yields (t.inode i) _ inDirect ready₁).mono
            fun _ _ settled => ⟨trivial, settled⟩)) ?_
        rintro _ u ⟨-, stored⟩
        have here := wrote.at_slot
        have blocks : t.bio.sd.block = disk₁ := wrote.bio.disk
        have next : u.inode i = { s.inode i with addrs := addrs₁ } := by
          rw [stored.at_slot, here]
        have disks : u.disk =
            directStore disk₁ (addrs₁ (addrSlot (off / BSIZE))).toNat off
              (src.take (min (BSIZE - off % BSIZE) src.length)) := by
          rw [stored.disk_eq, blocks, here]
        have step : 0 < min (BSIZE - off % BSIZE) src.length := by
          have := Nat.mod_lt off (show 0 < BSIZE by decide)
          omega
        obtain ⟨reached, v, loop, total, last⟩ := ih
          (off + min (BSIZE - off % BSIZE) src.length)
          (src.drop (min (BSIZE - off % BSIZE) src.length))
          (stored.bio.ready ready₁) (by simp; omega)
          direct.rest (by rw [disks, next]; exact rest)
        refine ⟨reached, v, loop, ?_, ?_⟩
        · rw [total]
          simp only [List.length_drop]
          omega
        · rw [next] at last
          exact (wrote.trans stored).trans last

/-- Out of blocks in `directRun` is the panic of `balloc` in the loop. -/
theorem writeiLoop_full (i : Fin NINODE) (fuel off : Nat) (src : List UInt8)
    {s : State} (ready : s.bio.Ready 1) (enough : src.length ≤ fuel)
    (direct : InDirect off src)
    (full : directRun fuel off src s.disk (s.inode i).addrs = none) :
    writeiLoop i fuel off src s = .error (.panic "balloc: out of blocks\n") := by
  induction fuel generalizing off src s with
  | zero => cases full
  | succ fuel ih =>
      unfold directRun at full
      unfold writeiLoop
      by_cases empty : src = []
      · rw [if_pos empty] at full
        cases full
      · rw [if_neg empty] at full ⊢
        have positive : 0 < src.length := List.length_pos_iff.mpr empty
        have inDirect := direct.block empty
        have mapRun : writeiMap i (off / BSIZE) = addrsAlloc i (addrSlot (off / BSIZE)) := by
          simp [writeiMap, inDirect]
        rw [mapRun]
        cases alloc : directAlloc s.disk (s.inode i).addrs (addrSlot (off / BSIZE)) with
        | none => exact Act.bind_of_error (addrsAlloc_full i _ ready alloc)
        | some next =>
            obtain ⟨disk₁, addrs₁⟩ := next
            rw [alloc] at full
            obtain ⟨⟨⟩, t, mapped, wrote⟩ := addrsAlloc_yields i _ ready alloc
            have ready₁ := wrote.bio.ready ready
            obtain ⟨⟨⟩, u, put, -, stored⟩ := onBio_wrote i (p := fun _ => True)
              ((writeiStore_yields (t.inode i)
                (src.take (min (BSIZE - off % BSIZE) src.length)) inDirect ready₁).mono
                fun _ _ settled => ⟨trivial, settled⟩)
            rw [Act.bind_of_ok mapped,
              Act.bind_of_ok (f := inodeAt i) (t := t) (a := t.inode i) rfl]
            rw [Act.bind_of_ok put]
            have here := wrote.at_slot
            have blocks : t.bio.sd.block = disk₁ := wrote.bio.disk
            have disks : u.disk =
                directStore disk₁ (addrs₁ (addrSlot (off / BSIZE))).toNat off
                  (src.take (min (BSIZE - off % BSIZE) src.length)) := by
              rw [stored.disk_eq, blocks, here]
            have entries : (u.inode i).addrs = addrs₁ := by
              rw [stored.at_slot, here]
            have step : 0 < min (BSIZE - off % BSIZE) src.length := by
              have := Nat.mod_lt off (show 0 < BSIZE by decide)
              omega
            apply ih _ _ (stored.bio.ready ready₁) (by simp; omega) direct.rest
            rw [disks, entries]
            simpa using full

theorem iupdate_yields {s : Bio} (ip : Inode) (ready : s.Ready 1) :
    Yields (iupdate ip) s fun _ t => Settled s t (updateOnDisk s.sd.block ip) := by
  unfold iupdate
  refine Yields.seq (bread_yields ip.dev _ ready) ?_
  intro bp t held
  refine Yields.seq (bufData_yields held) ?_
  rintro data _ ⟨rfl, rfl⟩
  exact bstore_yields held ip.dev _ _

theorem iupdateSlot_wrote {s t : State} {i : Fin NINODE} {disk : Nat → Block} {ip : Inode}
    (ready : s.bio.Ready 1) (before : Wrote s t i disk ip) :
    Yields (iupdateSlot i) t fun _ u => Wrote s u i (updateOnDisk disk ip) ip := by
  have updates := iupdate_yields (t.inode i) (before.bio.ready ready)
  have lifted := onBio_wrote i (p := fun _ => True)
    (updates.mono fun _ _ settled => ⟨trivial, settled⟩)
  unfold iupdateSlot
  refine Yields.step (t := t) rfl (lifted.mono ?_)
  rintro _ u ⟨-, updated⟩
  have blocks : t.bio.sd.block = disk := before.bio.disk
  rw [before.at_slot, blocks] at updated
  exact before.trans updated

/-- A call of `writei` below `NDIRECT` returns the number of bytes and does to
the disk and to the inode what `directWrite` says. -/
theorem writei_direct_yields {s : State} (i : Fin NINODE) (src : List UInt8) (off : Nat)
    (file : (s.inode i).type = T_FILE) (ready : s.bio.Ready 1)
    (direct : InDirect off src)
    {disk : Nat → Block} {ip : Inode}
    (run : directWrite s.disk (s.inode i) src off = some (disk, ip)) :
    Yields (writei i src off) s fun result t =>
      result = src.length ∧ Wrote s t i disk ip := by
  unfold directWrite at run
  obtain ⟨⟨disk₁, addrs₁⟩, loop, same⟩ := Option.map_eq_some_iff.mp run
  have notDev : ¬(s.inode i).type = T_DEV := by
    rw [file]
    decide
  unfold writei
  refine Yields.step (t := s) (rfl) ?_
  rw [if_neg notDev, if_pos file]
  unfold writeiFile
  refine Yields.seq (writeiLoop_yields i src.length off src ready (le_refl _) direct loop) ?_
  rintro reached t ⟨rfl, wrote⟩
  refine Yields.seq (modifyInode_wrote _ wrote) ?_
  intro _ u grown
  refine Yields.seq (iupdateSlot_wrote ready grown) ?_
  intro _ v updated
  cases same
  exact ⟨_, v, rfl, rfl, updated⟩

theorem writei_direct_full {s : State} (i : Fin NINODE) (src : List UInt8) (off : Nat)
    (file : (s.inode i).type = T_FILE) (ready : s.bio.Ready 1)
    (direct : InDirect off src)
    (full : directWrite s.disk (s.inode i) src off = none) :
    writei i src off s = .error (.panic "balloc: out of blocks\n") := by
  have loop : directRun src.length off src s.disk (s.inode i).addrs = none := by
    simpa [directWrite] using full
  have notDev : ¬(s.inode i).type = T_DEV := by
    rw [file]
    decide
  unfold writei
  rw [Act.bind_of_ok (f := inodeAt i) (t := s) (a := s.inode i) rfl,
    if_neg notDev, if_pos file]
  unfold writeiFile
  exact Act.bind_of_error (writeiLoop_full i src.length off src ready (le_refl _) direct loop)

end Gcgos.Fs
