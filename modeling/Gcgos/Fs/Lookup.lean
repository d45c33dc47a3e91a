import Gcgos.Fs.Table

/-!
# Looking a name up

`namei` over a directory that is a list of entries: the scan of the directory
blocks finds the first entry with the name, and a path of one component comes
back as the inode that entry names, loaded from the disk.
-/

set_option autoImplicit false

namespace Gcgos.Fs

open Act Bio ByteMap

/-- The bytes of a name, up to the NUL that ends it. -/
structure IsName (name : List UInt8) : Prop where
  noSlash : slash ∉ name
  noZero : 0 ∉ name

theorem IsName.tail {c : UInt8} {name : List UInt8} (ok : IsName (c :: name)) : IsName name :=
  ⟨fun member => ok.noSlash (List.mem_cons_of_mem _ member),
    fun member => ok.noZero (List.mem_cons_of_mem _ member)⟩

theorem IsName.head {c : UInt8} {name : List UInt8} (ok : IsName (c :: name)) :
    ¬(c = slash ∨ c = 0) := by
  rintro (same | same)
  · exact ok.noSlash (same ▸ List.mem_cons_self)
  · exact ok.noZero (same ▸ List.mem_cons_self)

/-- The number of leading bytes that two names share. -/
def common : List UInt8 → List UInt8 → Nat
  | n :: name, c :: target => if c = n then common name target + 1 else 0
  | _, _ => 0

theorem common_le (name target : List UInt8) :
    common name target ≤ name.length ∧ common name target ≤ target.length := by
  induction name generalizing target with
  | nil => exact ⟨Nat.zero_le _, Nat.zero_le _⟩
  | cons n name ih =>
      cases target with
      | nil => exact ⟨Nat.zero_le _, Nat.zero_le _⟩
      | cons c target =>
          unfold common
          split
          · have bounds := ih target
            simp only [List.length_cons]
            omega
          · exact ⟨Nat.zero_le _, Nat.zero_le _⟩

/-- The scan stops where the entry's bytes and the component part. -/
theorem nameScan_eq (field target behind : List UInt8) (stop : UInt8) (ok : IsName target)
    (ends : stop = 0 ∨ stop = slash) :
    nameScan field (target ++ stop :: behind) = some (common field target) := by
  induction field generalizing target with
  | nil => simp [nameScan, common]
  | cons n field ih =>
      cases target with
      | nil => simp [nameScan, common, ends.symm]
      | cons c target =>
          have plain := ok.head
          simp only [List.cons_append, nameScan, plain, if_false, common]
          by_cases same : c = n
          · simp [same, ih target ok.tail]
          · simp [same]

theorem common_lt_target {name target : List UInt8} (short : common name target < target.length)
    (behind : List UInt8) : ∃ c ∈ target, (target ++ behind)[common name target]? = some c := by
  refine ⟨target[common name target], List.getElem_mem short, ?_⟩
  rw [List.getElem?_append_left short, List.getElem?_eq_getElem short]

theorem common_eq_length {field target : List UInt8}
    (whole : common field target = target.length) : ∃ rest, field = target ++ rest := by
  induction field generalizing target with
  | nil =>
      cases target with
      | nil => exact ⟨[], rfl⟩
      | cons c target => simp [common] at whole
  | cons n field ih =>
      cases target with
      | nil => exact ⟨n :: field, rfl⟩
      | cons c target =>
          unfold common at whole
          by_cases same : c = n
          · rw [if_pos same] at whole
            obtain ⟨rest, tail⟩ := ih (Nat.succ_injective whole)
            exact ⟨rest, by rw [tail, same]; rfl⟩
          · simp [same] at whole

theorem common_append (target rest : List UInt8) :
    common (target ++ rest) target = target.length := by
  induction target with
  | nil => cases rest <;> rfl
  | cons c target ih => simp [common, ih]

/-- The name in the 14 bytes of an entry: what comes before the first NUL. -/
def entryName (field : List UInt8) : List UInt8 := field.takeWhile fun b => b != 0

theorem entryName_append {target : List UInt8} (rest : List UInt8) (noZero : 0 ∉ target) :
    entryName (target ++ rest) = target ++ entryName rest := by
  refine List.takeWhile_append_of_pos ?_
  intro c member
  have nonzero : c ≠ 0 := fun zero => noZero (zero ▸ member)
  simpa using nonzero

theorem entryName_eq_nil (field : List UInt8) :
    entryName field = [] ↔ field = [] ∨ field.getD 0 0 = 0 := by
  cases field with
  | nil => simp [entryName]
  | cons b field =>
      by_cases zero : b = 0
      · simp [entryName, zero]
      · simp [entryName, zero]

theorem common_entryName {field target : List UInt8} (same : entryName field = target) :
    common field target = target.length := by
  have split : field = target ++ field.dropWhile fun b => b != 0 := by
    rw [← same]
    exact List.takeWhile_append_dropWhile.symm
  rw [split]
  exact common_append _ _

/-- An entry matches exactly the component it holds, whatever ends the
component in the path. -/
theorem nameMatch_field {field target : List UInt8} (behind : List UInt8) {stop : UInt8}
    (ends : stop = 0 ∨ stop = slash) (ok : IsName target) (size : field.length = DIRSIZ) :
    nameMatch field (target ++ stop :: behind) =
      .ok (if entryName field = target then some target.length else none) := by
  have bounds := common_le field target
  unfold nameMatch
  rw [nameScan_eq field target behind stop ok ends]
  simp only
  by_cases whole : common field target = target.length
  · obtain ⟨rest, split⟩ := common_eq_length whole
    have byte : (target ++ stop :: behind)[common field target]? = some stop := by
      rw [whole, List.getElem?_append_right (le_refl _)]
      simp
    have name : entryName field = target ↔ DIRSIZ ≤ target.length ∨ field.getD target.length 0 = 0 := by
      have atEnd : rest = [] ↔ DIRSIZ ≤ target.length := by
        rw [← size, split, List.length_append, ← List.length_eq_zero_iff]
        omega
      rw [split, entryName_append rest ok.noZero, List.append_right_eq_self, entryName_eq_nil, atEnd,
        List.getD_append_right _ _ _ _ (le_refl _), Nat.sub_self]
    rw [byte]
    simp only [ends, true_and, whole, name]
    split <;> rfl
  · have different : entryName field ≠ target := fun same => whole (common_entryName same)
    obtain ⟨c, member, byte⟩ := common_lt_target (by omega : common field target < target.length)
      (stop :: behind)
    have plain : ¬(c = 0 ∨ c = slash) := by
      rintro (zero | same)
      · exact ok.noZero (zero ▸ member)
      · exact ok.noSlash (same ▸ member)
    rw [byte]
    simp only
    rw [if_neg (fun both => plain both.1), if_neg different]

/-- An entry of a padded name. -/
theorem nameMatch_eq {name target : List UInt8} (behind : List UInt8) (okName : IsName name)
    (ok : IsName target) (fits : name.length < DIRSIZ) :
    nameMatch (name ++ List.replicate (DIRSIZ - name.length) 0) (target ++ 0 :: behind) =
      .ok (if name = target then some target.length else none) := by
  have size : (name ++ List.replicate (DIRSIZ - name.length) 0).length = DIRSIZ := by
    rw [List.length_append, List.length_replicate]
    omega
  have blank : entryName (List.replicate (DIRSIZ - name.length) 0) = [] := by
    rw [entryName_eq_nil, List.getD_replicate _ (by omega : 0 < DIRSIZ - name.length)]
    exact Or.inr rfl
  rw [nameMatch_field behind (Or.inl rfl) ok size, entryName_append _ okName.noZero, blank,
    List.append_nil]

/-- An inode number and a name. -/
abbrev Entry : Type := Nat × List UInt8

/-- The entries that mkfs and the kernel read alike: a number that fits its
field, and a name that leaves room for its NUL. -/
structure Entry.Plain (entry : Entry) : Prop where
  used : 0 < entry.1
  fits : entry.1 < 2 ^ 16
  name : IsName entry.2
  short : entry.2.length < DIRSIZ

/-- Entry `k` of a directory block. -/
def HasEntry (data : Block) (k : Nat) : Option Entry → Prop
  | none => data.direntInum k = 0
  | some entry => data.direntInum k = UInt16.ofNat entry.1 ∧
      data.direntName k = entry.2 ++ List.replicate (DIRSIZ - entry.2.length) 0

/-- What the scan of a directory finds. -/
def lookup (entries : List Entry) (target : List UInt8) : Option (UInt16 × Nat) :=
  (entries.find? fun entry => entry.2 = target).map fun entry =>
    (UInt16.ofNat entry.1, target.length)

theorem lookup_append (left right : List Entry) (target : List UInt8) :
    lookup (left ++ right) target = (lookup left target).or (lookup right target) := by
  unfold lookup
  rw [List.find?_append]
  cases left.find? fun entry => entry.2 = target <;> rfl

theorem Entry.Plain.inum_ne_zero {entry : Entry} (plain : entry.Plain) :
    UInt16.ofNat entry.1 ≠ 0 := by
  intro zero
  have value := congrArg UInt16.toNat zero
  have used := plain.used
  have fits := plain.fits
  rw [UInt16.toNat_ofNat_of_lt' fits] at value
  simp at value
  omega

/-- The scan of a block finds the first of its entries with the name. -/
theorem direntScan_eq {data : Block} {e : List Entry} {target : List UInt8}
    (behind : List UInt8) (ok : IsName target) (plain : ∀ entry ∈ e, entry.Plain)
    (fuel k : Nat) (there : ∀ j, k ≤ j → j < k + fuel → HasEntry data j e[j]?) :
    direntScan data (target ++ 0 :: behind) fuel k =
      .ok (lookup ((e.drop k).take fuel) target) := by
  induction fuel generalizing k with
  | zero => simp [direntScan, lookup]
  | succ fuel ih =>
      have here := there k (le_refl _) (by omega)
      have rest := ih (k + 1) fun j lower upper => there j (by omega) (by omega)
      unfold direntScan
      rcases Nat.lt_or_ge k e.length with inside | outside
      · rw [List.getElem?_eq_getElem inside] at here
        obtain ⟨inum, name⟩ := here
        have plainHere := plain e[k] (List.getElem_mem inside)
        rw [inum, if_neg plainHere.inum_ne_zero, name,
          nameMatch_eq behind plainHere.name ok plainHere.short, List.drop_eq_getElem_cons inside,
          List.take_succ_cons]
        by_cases same : e[k].2 = target
        · simp [same, lookup]
        · simp only [if_neg same, rest]
          simp [lookup, same]
      · rw [List.getElem?_eq_none outside] at here
        have blank : data.direntInum k = 0 := here
        have empty : e.drop (k + 1) = [] := List.drop_eq_nil_of_le (by omega)
        rw [if_pos blank, rest, List.drop_eq_nil_of_le outside, empty]
        simp

/-- The inode is a directory with these entries, in its direct blocks. -/
structure Directory (disk : Nat → Block) (dp : Inode) (entries : List Entry) : Prop where
  size : dp.size.toNat = direntSize * entries.length
  few : entries.length ≤ NDIRECT * direntsPerBlock
  plain : ∀ entry ∈ entries, entry.Plain
  blocks : ∀ b j, direntsPerBlock * b < entries.length → j < direntsPerBlock →
    HasEntry (disk (dp.addrs (addrSlot b)).toNat) j entries[direntsPerBlock * b + j]?

/-- The loop over the blocks finds the first entry with the name. -/
theorem dirScan_yields {s : Bio} {dp : Inode} {entries : List Entry} {target : List UInt8}
    (behind : List UInt8) (directory : Directory s.sd.block dp entries) (ok : IsName target)
    (ready : s.Ready 1) (fuel b : Nat) {t : Bio} (settled : Settled s t s.sd.block)
    (enough : entries.length ≤ direntsPerBlock * (b + fuel)) :
    Yields (dirScan dp (target ++ 0 :: behind) fuel (512 * b)) t fun hit u =>
      hit = lookup (entries.drop (direntsPerBlock * b)) target ∧ Settled s u s.sd.block := by
  induction fuel generalizing b t with
  | zero =>
      refine ⟨_, t, rfl, ?_, settled⟩
      rw [List.drop_eq_nil_of_le (by simpa using enough)]
      rfl
  | succ fuel ih =>
      have size := directory.size
      have few := directory.few
      unfold dirScan
      by_cases inside : direntsPerBlock * b < entries.length
      · have bound : b < NDIRECT := by
          simp only [NDIRECT, direntsPerBlock, BSIZE, direntSize] at *
          omega
        have blockNumber : 512 * b / 512 = b := Nat.mul_div_cancel_left b (by decide)
        rw [if_pos (by simp only [direntsPerBlock, BSIZE, direntSize] at *; omega), blockNumber]
        refine Yields.step (bmap_direct dp bound t) ?_
        refine Yields.seq (bread_yields dp.dev _ (settled.ready ready)) ?_
        intro bp v heldHere
        have held := settled.held heldHere
        rw [settled.disk] at held
        refine Yields.seq (bufData_yields held) ?_
        rintro data _ ⟨rfl, rfl⟩
        have scan := direntScan_eq (e := entries.drop (direntsPerBlock * b)) behind ok
          (fun entry member => directory.plain entry (List.mem_of_mem_drop member))
          direntsPerBlock 0 fun j _ upper => by
            rw [List.getElem?_drop]
            exact directory.blocks b j inside (by simpa using upper)
        rw [List.drop_zero] at scan
        refine Yields.step (by simp only [liftExcept, scan]; rfl) ?_
        refine Yields.seq held.release ?_
        intro _ w released
        have split := lookup_append ((entries.drop (direntsPerBlock * b)).take direntsPerBlock)
          ((entries.drop (direntsPerBlock * b)).drop direntsPerBlock) target
        rw [List.take_append_drop, List.drop_drop] at split
        cases found : lookup ((entries.drop (direntsPerBlock * b)).take direntsPerBlock) target with
        | some hit =>
            rw [found] at split
            exact ⟨_, w, rfl, split.symm, released⟩
        | none =>
            rw [found] at split
            refine (ih (b + 1) released (by
              rw [Nat.add_assoc, Nat.add_comm 1 fuel]
              exact enough)).mono ?_
            rintro hit u ⟨rfl, final⟩
            exact ⟨split.symm, final⟩
      · rw [if_neg (by simp only [direntsPerBlock, BSIZE, direntSize] at *; omega)]
        refine ⟨_, t, rfl, ?_, settled⟩
        rw [List.drop_eq_nil_of_le (by omega)]
        rfl

/-- The table holds no inode. -/
def EmptyTable (s : State) : Prop := ∀ i, (s.inode i).count = 0

/-- In an empty table `iget` loads a slot from the disk. -/
theorem iget_empty {s : State} (dev inum : UInt32) (empty : EmptyTable s)
    (ready : s.bio.Ready 1) :
    Yields (iget dev inum) s fun i t =>
      Wrote s t i s.disk ((dinodeAt s.disk inum.toNat).load dev inum) := by
  have noHit : ∀ i, findSlot s dev inum ≠ some i := by
    intro i hit
    have held := (findSlot_some hit).1
    rw [empty i] at held
    exact absurd held (by decide)
  rcases iget_outcome dev inum ready with yields | ⟨i, hit, -⟩ | ⟨-, full, -⟩
  · refine yields.mono ?_
    rintro i t ⟨ip, ⟨hit, -⟩ | ⟨-, -, rfl⟩, wrote⟩
    · exact absurd hit (noHit i)
    · exact wrote
  · exact absurd hit (noHit i)
  · have free := List.find?_eq_none.mp full 0 (List.mem_finRange 0)
    simp [empty 0] at free

/-- `iput` gives up the only reference to a slot. -/
theorem iput_last {s t : State} {i : Fin NINODE} {disk : Nat → Block} {ip : Inode}
    (empty : EmptyTable s) (wrote : Wrote s t i disk ip) (one : ip.count = 1) :
    Yields (iput i) t fun _ u => EmptyTable u ∧ u.bio = t.bio := by
  refine ⟨(), _, rfl, ?_, rfl⟩
  intro j
  by_cases same : j = i
  · subst same
    simp [wrote.at_slot, one]
  · have other := wrote.other same
    simp [same, other, empty j]

theorem skipSlashes_replicate (n : Nat) {cp : List UInt8} (stop : ∀ c ∈ cp.head?, c ≠ slash) :
    skipSlashes (List.replicate n slash ++ cp) = cp := by
  unfold skipSlashes
  induction n with
  | zero =>
      cases cp with
      | nil => rfl
      | cons c cp =>
          have plain : c ≠ slash := stop c rfl
          simp [plain]
  | succ n ih => simpa [List.replicate_succ] using ih

theorem nameiWalk_end (fuel : Nat) (dp : Fin NINODE) (behind : List UInt8) (s : State) :
    nameiWalk (fuel + 1) dp (0 :: behind) s = .ok (some dp, s) := rfl

/-- A path of one component, behind any number of slashes: the inode of the
first entry with that name, or nothing. -/
theorem namei_yields {s : State} {entries : List Entry} {target : List UInt8} (slashes : Nat)
    (behind : List UInt8) (empty : EmptyTable s) (ready : s.bio.Ready 1)
    (type : (dinodeAt s.disk 1).type = T_DIR)
    (directory : Directory s.disk ((dinodeAt s.disk 1).load rootdev 1) entries)
    (ok : IsName target) (nonempty : target ≠ []) :
    Yields (namei (List.replicate slashes slash ++ (target ++ 0 :: behind))) s fun result t =>
      t.disk = s.disk ∧
      match entries.find? fun entry => entry.2 = target with
      | none => result = none
      | some entry => ∃ i, result = some i ∧ t.inode i =
          (dinodeAt s.disk entry.1).load rootdev (UInt32.ofNat entry.1) := by
  obtain ⟨c, rest, rfl⟩ := List.exists_cons_of_ne_nil nonempty
  have plain := ok.head
  have length : ∃ fuel, (List.replicate slashes slash ++ (c :: rest ++ 0 :: behind)).length =
      fuel + 1 := ⟨_, by simp only [List.length_append, List.length_cons]; rfl⟩
  obtain ⟨fuel, length⟩ := length
  unfold namei
  refine Yields.seq (iget_empty rootdev 1 empty ready) ?_
  intro dp t root
  rw [skipSlashes_replicate slashes (by
    intro head same
    cases same
    exact fun slash => plain (Or.inl slash)), length]
  have loaded : t.inode dp = (dinodeAt s.disk 1).load rootdev 1 := root.at_slot
  have disk : t.bio.sd.block = s.disk := root.disk_eq
  have readyT := root.bio.ready ready
  unfold nameiWalk
  simp only [List.cons_append]
  rw [if_neg fun zero => plain (Or.inr zero)]
  refine Yields.step (a := t.inode dp) (t := t) rfl ?_
  have isDir : ((dinodeAt s.disk 1).load rootdev 1).type = T_DIR := type
  rw [loaded, if_neg (not_not.mpr isDir)]
  have directoryT : Directory t.bio.sd.block ((dinodeAt s.disk 1).load rootdev 1) entries := by
    rw [disk]
    exact directory
  have scan := dirScan_yields behind directoryT ok readyT
    (dirBlocks ((dinodeAt s.disk 1).load rootdev 1).size) 0 (Settled.refl t.bio) (by
      rw [dirBlocks, directory.size]
      simp only [direntsPerBlock, BSIZE, direntSize]
      omega)
  refine Yields.seq (onBio_wrote dp scan) ?_
  rintro hit u ⟨rfl, scanned⟩
  have wrote := root.trans scanned
  rw [loaded] at wrote
  refine Yields.seq (iput_last empty wrote rfl) ?_
  rintro _ v ⟨emptyV, bio⟩
  have diskV : v.disk = s.disk := by
    unfold State.disk
    rw [bio]
    exact wrote.bio.disk.trans disk
  have readyV : v.bio.Ready 1 := by
    rw [bio]
    exact wrote.bio.ready ready
  rw [Nat.mul_zero, List.drop_zero, lookup]
  cases found : entries.find? fun entry => entry.2 = c :: rest with
  | none => exact ⟨_, v, rfl, diskV, rfl⟩
  | some entry =>
      have member := directory.plain entry (List.mem_of_find?_eq_some found)
      have word : (UInt16.ofNat entry.1).toNat = entry.1 := UInt16.toNat_ofNat_of_lt' member.fits
      have wide : (UInt32.ofNat entry.1).toNat = entry.1 := UInt32.toNat_ofNat_of_lt' (by
        have fits := member.fits
        simp only [UInt32.size]
        omega)
      simp only [Option.map_some, word]
      refine Yields.seq (iget_empty _ _ emptyV readyV) ?_
      intro next w final
      have tail : skipSlashes ((c :: (rest ++ 0 :: behind)).drop (c :: rest).length) =
          0 :: behind := by
        have dropped : (c :: (rest ++ 0 :: behind)).drop (c :: rest).length = 0 :: behind :=
          List.drop_left
        rw [dropped]
        rfl
      rw [tail]
      refine ⟨some next, w, nameiWalk_end fuel next behind w, final.disk_eq.trans diskV, next, rfl, ?_⟩
      rw [final.at_slot, diskV, wide]
      rfl

end Gcgos.Fs
