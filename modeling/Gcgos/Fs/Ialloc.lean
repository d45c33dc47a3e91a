import Gcgos.Fs.Create

/-!
# Taking an inode

`ialloc` searches the inode blocks for a dinode of type 0 and stores the new
type in it. When the search fails the store goes through the buffer and the
slot that the loop left behind, to the sector of the number after the last.
-/

set_option autoImplicit false

namespace Gcgos.Fs

open Act Bio

/-- The number of inodes, as the `int` that bounds the loops. -/
def inodeCount (disk : Nat → Block) : Nat := intBound (disk 1).supperblock.ninodes

/-- An inode number that `ialloc` may hand out. -/
def FreeInum (disk : Nat → Block) (n : Nat) : Prop :=
  1 ≤ n ∧ n < inodeCount disk ∧ (dinodeAt disk n).type = 0

structure LeastFree (disk : Nat → Block) (n : Nat) : Prop where
  free : FreeInum disk n
  least : ∀ m, FreeInum disk m → n ≤ m

theorem exists_leastFree {disk : Nat → Block} (free : ∃ n, FreeInum disk n) :
    ∃ n, LeastFree disk n := by
  classical
  exact ⟨Nat.find free, Nat.find_spec free, fun m other => Nat.find_min' free other⟩

theorem inodeCount_lt (disk : Nat → Block) : inodeCount disk < 2 ^ 31 := by
  unfold inodeCount intBound
  split
  · assumption
  · decide

/-- `iget` has no slot to give: the inode is locked, or the table is full. -/
def IgetStops (s : State) (dev inum : UInt32) : Prop :=
  (∃ i, findSlot s dev inum = some i ∧ (s.inode i).busy = true) ∨
    (findSlot s dev inum = none ∧ freeSlot s = none)

/-! ## An unused dinode is found -/

theorem iallocDisk_takes {s : Bio} {n : Nat} (dev : UInt32) (type : UInt16) (ready : s.Ready 1)
    (least : LeastFree s.sd.block n) :
    Yields (iallocDisk dev type) s fun taken t =>
      taken = n ∧ Settled s t (allocOnDisk s.sd.block n type) := by
  obtain ⟨⟨lower, upper, unused⟩, first⟩ := least
  obtain ⟨taken, t, run, below, free, settled⟩ :=
    iallocDisk_yields dev type ready lower upper unused
  have positive := iallocDisk_positive dev type s taken t run
  have same : taken = n := le_antisymm below (first taken ⟨positive, by omega, free⟩)
  subst same
  exact ⟨taken, t, run, rfl, settled⟩

/-! ## None is found -/

/-- What the loop leaves behind: a buffer that is released, with the block of
the last number it looked at. -/
def LeftBehind (s t : Bio) (last : Option (Fin NBUF × Nat)) (n : Nat) : Prop :=
  ∃ bp, last = some (bp, n % IPB) ∧ t.busy bp = false ∧ (t.buf bp).data = s.sd.block (IBLOCK n)

/-- A turn over a dinode in use. -/
theorem iallocScan_skip {s u : Bio} (dev : UInt32) (ready : s.Ready 1) {fuel inum : Nat}
    (last : Option (Fin NBUF × Nat)) (settled : Settled s u s.sd.block)
    (used : (dinodeAt s.sd.block inum).type ≠ 0) {post : Nat × Option (Fin NBUF × Nat) → Bio → Prop}
    (rest : ∀ last' v, Settled s v s.sd.block → LeftBehind s v last' inum →
      Yields (iallocScan dev fuel (inum + 1) last') v post) :
    Yields (iallocScan dev (fuel + 1) inum last) u post := by
  unfold iallocScan
  refine Yields.seq (bread_yields dev _ (settled.ready ready)) ?_
  intro bp t heldHere
  have held := settled.held heldHere
  rw [settled.disk] at held
  refine Yields.seq (bufData_yields held) ?_
  rintro data t ⟨rfl, rfl⟩
  rw [if_neg (show ¬((s.sd.block (IBLOCK inum)).dinode (inum % IPB)).type = 0 from used)]
  refine Yields.step (t := t.setBuf bp ⟨false, (t.buf bp).data⟩) rfl ?_
  have released := held.release.ensures () (t.setBuf bp ⟨false, (t.buf bp).data⟩) rfl
  exact rest _ _ released ⟨bp, rfl, by simp, by simp [held.data]⟩

theorem iallocScan_exhausted {s u : Bio} (dev : UInt32) (ready : s.Ready 1) (fuel inum : Nat)
    (last : Option (Fin NBUF × Nat)) (settled : Settled s u s.sd.block)
    (used : ∀ m, inum ≤ m → m < inum + (fuel + 1) → (dinodeAt s.sd.block m).type ≠ 0) :
    Yields (iallocScan dev (fuel + 1) inum last) u fun result t =>
      result.1 = inum + fuel + 1 ∧ Settled s t s.sd.block ∧
        LeftBehind s t result.2 (inum + fuel) := by
  induction fuel generalizing inum last u with
  | zero =>
      refine iallocScan_skip dev ready last settled (used inum le_rfl (by omega)) ?_
      intro last' v settled' left
      exact ⟨_, v, rfl, rfl, settled', left⟩
  | succ fuel ih =>
      refine iallocScan_skip dev ready last settled (used inum le_rfl (by omega)) ?_
      intro last' v settled' _
      refine (ih (inum + 1) last' settled' fun m lower upper => used m (by omega) (by omega)).mono ?_
      rintro result t ⟨number, final, left⟩
      have shift : inum + 1 + fuel = inum + (fuel + 1) := by omega
      rw [shift] at number left
      exact ⟨number, final, left⟩

/-- The write-back after a search that failed. -/
def spoiledDisk (disk : Nat → Block) (type : UInt16) : Nat → Block :=
  Function.update disk (IBLOCK (inodeCount disk))
    ((disk (IBLOCK (inodeCount disk - 1))).putU16
      (dinodeSize * ((inodeCount disk - 1) % IPB)) type)

/-- Writing through a released buffer. -/
theorem bstore_released {s t : Bio} {bp : Fin NBUF} (settled : Settled s t s.sd.block)
    (free : t.busy bp = false) (dev : UInt32) (data : Block) (sector : Nat) :
    Yields (bstore dev bp data sector) t fun _ u =>
      Settled s u (Function.update s.sd.block sector data) := by
  refine ⟨(), _, rfl, ?_, ?_, ?_⟩
  · have kept : Function.update t.busy bp false = t.busy := by
      rw [← free, Function.update_eq_self]
    simp [kept, ← settled.busy]
  · simp [settled.disk]
  · simp [settled.faults]

theorem iallocDisk_exhausted {s : Bio} (dev : UInt32) (type : UInt16) (ready : s.Ready 1)
    (some_inode : 2 ≤ inodeCount s.sd.block) (used : ¬∃ n, FreeInum s.sd.block n) :
    Yields (iallocDisk dev type) s fun n t =>
      n = inodeCount s.sd.block ∧ Settled s t (spoiledDisk s.sd.block type) := by
  unfold iallocDisk
  refine Yields.seq (bread_yields dev 1 ready) ?_
  intro bp t held
  refine Yields.seq (bufData_yields held) ?_
  rintro data _ ⟨rfl, rfl⟩
  refine Yields.seq held.release ?_
  intro _ u settled
  obtain ⟨fuel, turns⟩ : ∃ fuel, intBound (s.sd.block 1).supperblock.ninodes - 1 = fuel + 1 :=
    ⟨inodeCount s.sd.block - 2, by unfold inodeCount at *; omega⟩
  have count : inodeCount s.sd.block = 1 + fuel + 1 := by
    unfold inodeCount at *
    omega
  rw [turns]
  have busy : ∀ m, 1 ≤ m → m < 1 + (fuel + 1) → (dinodeAt s.sd.block m).type ≠ 0 :=
    fun m lower upper unused => used ⟨m, lower, by omega, unused⟩
  refine Yields.seq (iallocScan_exhausted dev ready fuel 1 none settled busy) ?_
  rintro ⟨n, dip⟩ v ⟨number, scanned, bp', rfl, released, block⟩
  obtain rfl : n = 1 + fuel + 1 := number
  refine Yields.step (t := v) (a := s.sd.block (IBLOCK (1 + fuel))) ?_ ?_
  · rw [← block]
    rfl
  refine Yields.seq (bstore_released scanned released dev _ _) ?_
  intro _ w stored
  refine ⟨_, w, rfl, count.symm, ?_⟩
  unfold spoiledDisk
  rw [count, Nat.add_sub_cancel]
  exact stored

/-- With no inode but number 0 the search looks at nothing, and the store goes
through a pointer that was never set. -/
theorem iallocDisk_wild {s : Bio} (dev : UInt32) (type : UInt16) (ready : s.Ready 1)
    (none_scanned : inodeCount s.sd.block ≤ 1) :
    iallocDisk dev type s = .error .abort := by
  obtain ⟨bp, t, run, held⟩ := bread_yields dev 1 ready
  obtain ⟨data, u, look, rfl, rfl⟩ := bufData_yields held
  have turns : intBound (s.sd.block 1).supperblock.ninodes - 1 = 0 := by
    unfold inodeCount at none_scanned
    omega
  unfold iallocDisk
  rw [Act.bind_of_ok run, Act.bind_of_ok look]
  refine (Act.bind_of_ok (rfl : brelse bp u = .ok ((), _))).trans ?_
  rw [turns]
  rfl

/-- The write-back changes no dinode when the numbers end with a block, or when
the last inode is of the type that was asked for. -/
theorem spoiledDisk_dinodes {disk : Nat → Block} (type : UInt16) (some_inode : 2 ≤ inodeCount disk) :
    (∀ m, m < inodeCount disk → dinodeAt (spoiledDisk disk type) m = dinodeAt disk m) ↔
      (inodeCount disk % IPB = 0 ∨ (dinodeAt disk (inodeCount disk - 1)).type = type) := by
  by_cases boundary : inodeCount disk % IPB = 0
  · refine iff_of_true ?_ (Or.inl boundary)
    intro m below
    have other : IBLOCK m ≠ IBLOCK (inodeCount disk) := by
      simp only [IBLOCK, IPB] at *
      omega
    unfold dinodeAt spoiledDisk
    rw [Function.update_of_ne other]
  · have sector : IBLOCK (inodeCount disk) = IBLOCK (inodeCount disk - 1) := by
      simp only [IBLOCK, IPB] at *
      omega
    have same : spoiledDisk disk type = allocOnDisk disk (inodeCount disk - 1) type := by
      unfold spoiledDisk allocOnDisk
      rw [sector]
    rw [same]
    constructor
    · intro unchanged
      right
      have last := unchanged (inodeCount disk - 1) (by omega)
      rw [dinodeAt_allocOnDisk] at last
      rw [← last]
    · rintro (at_boundary | last) m _
      · exact absurd at_boundary boundary
      · by_cases here : m = inodeCount disk - 1
        · subst here
          rw [dinodeAt_allocOnDisk, ← last]
        · exact dinodeAt_allocOnDisk_other here

/-! ## The whole call -/

/-- `ialloc` takes the least unused inode and nothing else. -/
structure Takes (s t : State) (type : UInt16) (n : Nat) (i : Fin NINODE) : Prop where
  number : (t.inode i).inum.toNat = n
  dinode : dinodeAt t.disk n = { dinodeAt s.disk n with type := type }
  others : ∀ m, m ≠ n → dinodeAt t.disk m = dinodeAt s.disk m
  blocks : ∀ b, b ≠ IBLOCK n → t.disk b = s.disk b

/-- No dinode is changed by the time `iget` would be called, and no inode comes
back. -/
structure Refuses (s : State) (dev : UInt32) (type : UInt16) : Prop where
  stops : ∀ i t, ialloc dev type s ≠ .ok (i, t)
  dinodes : (∃ message, iallocDisk dev type s.bio = .error (.panic message)) ∨
    ∃ n b, iallocDisk dev type s.bio = .ok (n, b) ∧
      ∀ m, m < inodeCount s.disk → dinodeAt b.sd.block m = dinodeAt s.disk m

structure IallocContract (s : State) (dev : UInt32) (type : UInt16) : Prop where
  takes : ∀ n, LeastFree s.disk n → ∃ i t, ialloc dev type s = .ok (i, t) ∧ Takes s t type n i
  refuses : (¬∃ n, FreeInum s.disk n) → Refuses s dev type

/-- After its disk part `ialloc` is a call of `iget`. -/
theorem ialloc_iget {s : State} {dev : UInt32} {type : UInt16} {n : Nat} {b : Bio}
    (run : iallocDisk dev type s.bio = .ok (n, b)) :
    ialloc dev type s = iget dev (UInt32.ofNat n) { s with bio := b } := by
  unfold ialloc
  exact Act.bind_of_ok (Act.zoom_of_ok run)

theorem IgetSlot.number {s : State} {dev inum : UInt32} {i : Fin NINODE} {ip : Inode}
    (slot : IgetSlot s dev inum i ip) : ip.inum = inum := by
  rcases slot with ⟨found, -, rfl⟩ | ⟨-, -, rfl⟩
  · exact (findSlot_some found).2.2
  · rfl

/-- `iget` returns unless it has no slot to give. -/
theorem iget_returns_iff {s : State} (dev inum : UInt32) (ready : s.bio.Ready 1) :
    (∃ i t, iget dev inum s = .ok (i, t)) ↔ ¬IgetStops s dev inum := by
  rcases iget_outcome dev inum ready with ⟨i, t, run, ip, slot, -⟩ | ⟨i, found, locked, stop⟩ |
    ⟨missing, full, stop⟩
  · refine iff_of_true ⟨i, t, run⟩ ?_
    rintro (⟨j, found, locked⟩ | ⟨missing, full⟩)
    · rcases slot with ⟨here, open_slot, -⟩ | ⟨none, -, -⟩
      · rw [here] at found
        cases found
        rw [open_slot] at locked
        cases locked
      · rw [none] at found
        cases found
    · rcases slot with ⟨here, -, -⟩ | ⟨-, free, -⟩
      · rw [here] at missing
        cases missing
      · have taken := List.find?_eq_none.mp full i (List.mem_finRange i)
        simp [free] at taken
  · refine iff_of_false ?_ (not_not.mpr (Or.inl ⟨i, found, locked⟩))
    rintro ⟨_, _, run⟩
    rw [run] at stop
    cases stop
  · refine iff_of_false ?_ (not_not.mpr (Or.inr ⟨missing, full⟩))
    rintro ⟨_, _, run⟩
    rw [run] at stop
    cases stop

theorem ialloc_takes {s : State} {n : Nat} (dev : UInt32) (type : UInt16) (ready : s.bio.Ready 1)
    (least : LeastFree s.disk n) :
    (∃ i t, ialloc dev type s = .ok (i, t) ∧ Takes s t type n i) ↔
      ¬IgetStops s dev (UInt32.ofNat n) := by
  obtain ⟨taken, b, run, same, settled⟩ := iallocDisk_takes dev type ready least
  subst same
  have ready' : ({ s with bio := b } : State).bio.Ready 1 := settled.ready ready
  have returns := iget_returns_iff (s := { s with bio := b }) dev (UInt32.ofNat taken) ready'
  rw [ialloc_iget run]
  refine Iff.trans ?_ returns
  constructor
  · rintro ⟨i, t, returned, -⟩
    exact ⟨i, t, returned⟩
  · rintro ⟨i, t, returned⟩
    refine ⟨i, t, returned, ?_⟩
    obtain ⟨ip, slot, wrote⟩ := iget_ensures dev (UInt32.ofNat taken) ready' i t returned
    have disk : t.disk = allocOnDisk s.disk taken type := wrote.disk_eq.trans settled.disk
    have bound := (least.free.2.1).trans (inodeCount_lt s.disk)
    refine ⟨?_, ?_, ?_, ?_⟩
    · rw [wrote.at_slot, slot.number]
      exact UInt32.toNat_ofNat_of_lt' (bound.trans (by decide))
    · rw [disk, dinodeAt_allocOnDisk]
    · intro m other
      rw [disk, dinodeAt_allocOnDisk_other other]
    · intro blk other
      rw [disk]
      exact Function.update_of_ne other _ _

theorem ialloc_refuses {s : State} (dev : UInt32) (type : UInt16) (ready : s.bio.Ready 1)
    (used : ¬∃ n, FreeInum s.disk n) :
    Refuses s dev type ↔ 2 ≤ inodeCount s.disk ∧
      (inodeCount s.disk % IPB = 0 ∨ (dinodeAt s.disk (inodeCount s.disk - 1)).type = type) ∧
      IgetStops s dev (UInt32.ofNat (inodeCount s.disk)) := by
  by_cases some_inode : 2 ≤ inodeCount s.disk
  · obtain ⟨_, b, run, rfl, settled⟩ := iallocDisk_exhausted dev type ready some_inode used
    have returns := iget_returns_iff (s := { s with bio := b }) dev
      (UInt32.ofNat (inodeCount s.disk)) (settled.ready ready)
    have whole := ialloc_iget (s := s) run
    rw [← spoiledDisk_dinodes type some_inode]
    constructor
    · rintro ⟨stops, ⟨message, refused⟩ | ⟨_, _, run', dinodes⟩⟩
      · rw [run] at refused
        cases refused
      · rw [run] at run'
        cases run'
        rw [settled.disk] at dinodes
        refine ⟨some_inode, dinodes, ?_⟩
        by_contra open_slot
        obtain ⟨i, t, returned⟩ := returns.mpr open_slot
        exact stops i t (whole.trans returned)
    · rintro ⟨-, dinodes, stuck⟩
      refine ⟨?_, Or.inr ⟨_, b, run, ?_⟩⟩
      · intro i t returned
        exact returns.mp ⟨i, t, whole.symm.trans returned⟩ stuck
      · rw [settled.disk]
        exact dinodes
  · refine iff_of_false ?_ fun holds => some_inode holds.1
    rintro ⟨-, refusal⟩
    rw [iallocDisk_wild dev type ready (Nat.le_of_lt_succ (Nat.lt_of_not_le some_inode))] at refusal
    rcases refusal with ⟨_, panics⟩ | ⟨_, _, returned, -⟩
    · cases panics
    · cases returned

/-- When `ialloc` keeps to its contract. -/
theorem ialloc_contract_iff {s : State} (dev : UInt32) (type : UInt16) (ready : s.bio.Ready 1) :
    IallocContract s dev type ↔
      (∃ n, LeastFree s.disk n ∧ ¬IgetStops s dev (UInt32.ofNat n)) ∨
      ((¬∃ n, FreeInum s.disk n) ∧ 2 ≤ inodeCount s.disk ∧
        (inodeCount s.disk % IPB = 0 ∨ (dinodeAt s.disk (inodeCount s.disk - 1)).type = type) ∧
        IgetStops s dev (UInt32.ofNat (inodeCount s.disk))) := by
  by_cases free : ∃ n, FreeInum s.disk n
  · obtain ⟨n, least⟩ := exists_leastFree free
    constructor
    · intro contract
      exact Or.inl ⟨n, least, (ialloc_takes dev type ready least).mp (contract.takes n least)⟩
    · rintro (⟨m, found, gives⟩ | ⟨used, -⟩)
      · refine ⟨fun k first => ?_, fun used => absurd free used⟩
        obtain rfl : k = m := le_antisymm (first.least m found.free) (found.least k first.free)
        exact (ialloc_takes dev type ready first).mpr gives
      · exact absurd free used
  · constructor
    · intro contract
      exact Or.inr ⟨free, (ialloc_refuses dev type ready free).mp (contract.refuses free)⟩
    · rintro (⟨n, least, -⟩ | ⟨-, harmless⟩)
      · exact absurd ⟨n, least.free⟩ free
      · exact ⟨fun n least => absurd ⟨n, least.free⟩ free,
          fun used => (ialloc_refuses dev type ready used).mpr harmless⟩

/-- A card with this many inodes: number 1 is a directory and the others are
unused. -/
def inodeCard (ninodes : UInt32) : Nat → Block := fun b =>
  if b = 1 then Block.zero.putU32 8 ninodes
  else if b = 2 then Block.zero.putU16 dinodeSize T_DIR
  else Block.zero

theorem loaded_ready (disk : Nat → Block) : (State.loaded disk).bio.Ready 1 := by
  refine ⟨rfl, ?_⟩
  apply Finset.card_pos.mpr
  exact ⟨⟨0, by decide⟩, by simp [Bio.busy, State.loaded]⟩

theorem inodeCard_leastFree : LeastFree (inodeCard 3) 2 := by
  have facts : (1 ≤ 2 ∧ 2 < inodeCount (inodeCard 3) ∧ (dinodeAt (inodeCard 3) 2).type = 0) ∧
      (dinodeAt (inodeCard 3) 1).type ≠ 0 := by decide +kernel
  refine ⟨facts.1, ?_⟩
  rintro m ⟨positive, -, unused⟩
  by_contra smaller
  obtain rfl : m = 1 := by omega
  exact facts.2 unused

/-- The second inode is taken where it is free. -/
theorem ialloc_takes_second : IallocContract (State.loaded (inodeCard 3)) rootdev T_FILE := by
  refine (ialloc_contract_iff rootdev T_FILE (loaded_ready _)).mpr
    (Or.inl ⟨2, inodeCard_leastFree, ?_⟩)
  have open_table : findSlot (State.loaded (inodeCard 3)) rootdev 2 = none ∧
      freeSlot (State.loaded (inodeCard 3)) ≠ none := by decide +kernel
  rintro (⟨i, found, -⟩ | ⟨-, full⟩)
  · exact absurd (open_table.1.symm.trans found) (by simp)
  · exact open_table.2 full

/-- With two inodes the directory becomes a file, and `ialloc` returns an inode
number that does not exist. -/
theorem ialloc_spoils_directory :
    (dinodeAt (inodeCard 2) 1).type = T_DIR ∧
    (∃ i t, ialloc rootdev T_FILE (State.loaded (inodeCard 2)) = .ok (i, t) ∧
      (dinodeAt t.disk 1).type = T_FILE ∧ (t.inode i).inum = 2) ∧
    ¬IallocContract (State.loaded (inodeCard 2)) rootdev T_FILE := by
  have facts : (dinodeAt (inodeCard 2) 1).type = T_DIR ∧ inodeCount (inodeCard 2) = 2 ∧
      (ialloc rootdev T_FILE (State.loaded (inodeCard 2))).toOption.map
        (fun r => ((dinodeAt r.2.disk 1).type, (r.2.inode r.1).inum)) = some (T_FILE, 2) := by
    decide +kernel
  obtain ⟨directory, two, outcome⟩ := facts
  have used : ¬∃ n, FreeInum (State.loaded (inodeCard 2)).disk n := by
    rintro ⟨n, positive, below, unused⟩
    have count : n < 2 := two ▸ below
    obtain rfl : n = 1 := by omega
    rw [show (dinodeAt (State.loaded (inodeCard 2)).disk 1).type = T_DIR from directory] at unused
    exact absurd unused (by decide)
  obtain ⟨⟨i, t⟩, run, values⟩ := Option.map_eq_some_iff.mp outcome
  have returned := ok_of_toOption run
  rw [Prod.mk.injEq] at values
  exact ⟨directory, ⟨i, t, returned, values⟩,
    fun contract => (contract.refuses used).stops i t returned⟩

end Gcgos.Fs
