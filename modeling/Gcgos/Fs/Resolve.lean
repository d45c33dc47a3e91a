import Gcgos.Fs.Lookup

/-!
# Resolving a path

What a path names, said without the loops of `namei`: the path is split at its
slashes, and each component that is not empty is looked up in the directory
reached so far. `namei` returns the inode this resolution ends at, with one
more reference and its lock, and leaves the counts and locks of every other
slot as they were.
-/

set_option autoImplicit false

namespace Gcgos.Fs

open Act Bio ByteMap

/-- The components of a path: what stands between its slashes, empty ones
dropped. -/
def components (path : List UInt8) : List (List UInt8) :=
  (path.splitOn slash).filter fun name => decide (name ≠ [])

/-- The entries of one directory block, in order. -/
def blockEntries (data : Block) : List (UInt16 × List UInt8) :=
  (List.range direntsPerBlock).map fun k => (data.direntInum k, entryName (data.direntName k))

/-- The entries of the blocks `b`, `b + 1` and so on, `n` of them. -/
def dirEntriesFrom (disk : Nat → Block) (dp : Inode) (b n : Nat) : List (UInt16 × List UInt8) :=
  (List.range' b n).flatMap fun j => blockEntries (disk (dp.addrs (addrSlot j)).toNat)

/-- The entries of a directory: those of all the blocks that start below its
size. -/
def dirEntries (disk : Nat → Block) (dp : Inode) : List (UInt16 × List UInt8) :=
  dirEntriesFrom disk dp 0 (dirBlocks dp.size)

/-- The first used entry with the name. -/
def findEntry (entries : List (UInt16 × List UInt8)) (name : List UInt8) : Option UInt16 :=
  (entries.find? fun entry => decide (entry.1 ≠ 0 ∧ entry.2 = name)).map Prod.fst

/-- The inode with a number: the copy in the table where there is one, and
otherwise the one on the disk. -/
def inodeOf (s : State) (inum : UInt32) : Inode :=
  match findSlot s rootdev inum with
  | some i => s.inode i
  | none => (dinodeAt s.disk inum.toNat).load rootdev inum

/-- The resolution of a path from an inode on. -/
def resolve (s : State) : (inum : UInt32) → (names : List (List UInt8)) → Option UInt32
  | inum, [] => some inum
  | inum, name :: names =>
      if (inodeOf s inum).type ≠ T_DIR then none
      else
        match findEntry (dirEntries s.disk (inodeOf s inum)) name with
        | none => none
        | some next => resolve s (UInt32.ofNat next.toNat) names

/-! ## Components -/

theorem components_nil : components [] = [] := rfl

theorem components_slash (path : List UInt8) : components (slash :: path) = components path := by
  unfold components
  rw [List.splitOn_cons_eq_if_modifyHead, if_pos (beq_self_eq_true slash)]
  rfl

theorem components_skipSlashes (path : List UInt8) :
    components (skipSlashes path) = components path := by
  unfold skipSlashes
  induction path with
  | nil => rfl
  | cons c path ih =>
      by_cases same : c = slash
      · rw [List.dropWhile_cons_of_pos (by simpa using same), ih, same, components_slash]
      · rw [List.dropWhile_cons_of_neg (by simpa using same)]

/-- The first component, and the rest from the slash behind it on. -/
theorem components_append {name rest : List UInt8} (noSlash : slash ∉ name) (nonempty : name ≠ [])
    (ends : rest = [] ∨ ∃ path, rest = slash :: path) :
    components (name ++ rest) = name :: components rest := by
  rcases ends with rfl | ⟨path, rfl⟩
  · rw [List.append_nil, components_nil]
    unfold components
    rw [List.splitOn_eq_singleton noSlash]
    simp [nonempty]
  · rw [components_slash]
    unfold components
    rw [List.splitOn_append_cons_self_of_not_mem noSlash]
    simp [nonempty]

theorem skipSlashes_append {path : List UInt8} (behind : List UInt8) :
    skipSlashes (path ++ 0 :: behind) = skipSlashes path ++ 0 :: behind := by
  unfold skipSlashes
  induction path with
  | nil => rfl
  | cons c path ih =>
      by_cases same : c = slash
      · simpa [same] using ih
      · simp [same]

/-! ## The scan of a directory -/

theorem findEntry_append (left right : List (UInt16 × List UInt8)) (name : List UInt8) :
    findEntry (left ++ right) name = (findEntry left name).or (findEntry right name) := by
  unfold findEntry
  rw [List.find?_append]
  cases left.find? fun entry => decide (entry.1 ≠ 0 ∧ entry.2 = name) <;> rfl

/-- The scan of a block from entry `k` on finds the first used entry with the
name. -/
theorem direntScan_finds (data : Block) {target : List UInt8} (behind : List UInt8) {stop : UInt8}
    (ends : stop = 0 ∨ stop = slash) (ok : IsName target) (fuel k : Nat) :
    direntScan data (target ++ stop :: behind) fuel k =
      .ok ((findEntry ((List.range' k fuel).map fun j =>
        (data.direntInum j, entryName (data.direntName j))) target).map
          fun inum => (inum, target.length)) := by
  induction fuel generalizing k with
  | zero => rfl
  | succ fuel ih =>
      unfold direntScan
      rw [nameMatch_field behind ends ok (by simp [Block.direntName]), List.range'_succ,
        List.map_cons, ih (k + 1)]
      unfold findEntry
      by_cases unused : data.direntInum k = 0
      · simp [unused]
      · by_cases same : entryName (data.direntName k) = target
        · simp [unused, same]
        · simp [unused, same]

theorem dirScan_finds {s : Bio} (dp : Inode) {target : List UInt8} (behind : List UInt8)
    {stop : UInt8} (ends : stop = 0 ∨ stop = slash) (ok : IsName target) (ready : s.Ready 1)
    (direct : dp.size.toNat ≤ NDIRECT * BSIZE) (fuel b : Nat) {t : Bio}
    (settled : Settled s t s.sd.block) (turns : b + fuel = dirBlocks dp.size) :
    Yields (dirScan dp (target ++ stop :: behind) fuel (512 * b)) t fun hit u =>
      hit = (findEntry (dirEntriesFrom s.sd.block dp b fuel) target).map
        (fun inum => (inum, target.length)) ∧ Settled s u s.sd.block := by
  induction fuel generalizing b t with
  | zero => exact ⟨_, t, rfl, rfl, settled⟩
  | succ fuel ih =>
      have inside : 512 * b < dp.size.toNat := by
        unfold dirBlocks at turns
        omega
      have bound : b < NDIRECT := by
        simp only [NDIRECT, BSIZE] at *
        omega
      have blockNumber : 512 * b / 512 = b := Nat.mul_div_cancel_left b (by decide)
      unfold dirScan
      rw [if_pos inside, blockNumber]
      refine Yields.step (bmap_direct dp bound t) ?_
      refine Yields.seq (bread_yields dp.dev _ (settled.ready ready)) ?_
      intro bp v heldHere
      have held := settled.held heldHere
      rw [settled.disk] at held
      refine Yields.seq (bufData_yields held) ?_
      rintro data _ ⟨rfl, rfl⟩
      have scan := direntScan_finds (s.sd.block (dp.addrs (addrSlot b)).toNat) behind ends ok
        direntsPerBlock 0
      rw [← List.range_eq_range', ← blockEntries] at scan
      refine Yields.step (by simp only [liftExcept, scan]; rfl) ?_
      refine Yields.seq held.release ?_
      intro _ w released
      have split : findEntry (dirEntriesFrom s.sd.block dp b (fuel + 1)) target = _ :=
        findEntry_append (blockEntries (s.sd.block (dp.addrs (addrSlot b)).toNat))
          (dirEntriesFrom s.sd.block dp (b + 1) fuel) target
      cases found : findEntry (blockEntries (s.sd.block (dp.addrs (addrSlot b)).toNat)) target with
      | some inum =>
          rw [found] at split
          exact ⟨_, w, rfl, by rw [split]; rfl, released⟩
      | none =>
          rw [found] at split
          rw [split]
          exact ih (b + 1) released (by omega)

/-! ## The table along a walk -/

/-- Every reference and every lock is as in `s`. Slots without a reference may
hold another inode. -/
structure SameTable (s t : State) : Prop where
  bio : Settled s.bio t.bio s.disk
  count : ∀ i, (t.inode i).count = (s.inode i).count
  busy : ∀ i, (t.inode i).busy = (s.inode i).busy
  resident : ∀ i, 0 < (s.inode i).count → t.inode i = s.inode i

/-- As in `s`, but for one more reference to the inode `inum`, in slot `dp`,
and its lock. -/
structure Holding (s t : State) (dp : Fin NINODE) (inum : UInt32) : Prop where
  bio : Settled s.bio t.bio s.disk
  slot : t.inode dp =
    { inodeOf s inum with dev := rootdev, inum := inum, count := (s.inode dp).count + 1, busy := true }
  before : 0 < (s.inode dp).count →
    s.inode dp = { t.inode dp with count := (s.inode dp).count, busy := (s.inode dp).busy }
  other : ∀ i, i ≠ dp → (t.inode i).count = (s.inode i).count ∧ (t.inode i).busy = (s.inode i).busy ∧
    (0 < (s.inode i).count → t.inode i = s.inode i)

theorem SameTable.refl (s : State) : SameTable s s :=
  ⟨Settled.refl s.bio, fun _ => rfl, fun _ => rfl, fun _ _ => rfl⟩

theorem SameTable.disk_eq {s t : State} (same : SameTable s t) : t.disk = s.disk := same.bio.disk

theorem SameTable.findSlot_eq {s t : State} (same : SameTable s t) (dev inum : UInt32) :
    findSlot t dev inum = findSlot s dev inum := by
  unfold findSlot
  congr 1
  funext i
  rw [same.count i]
  by_cases held : 0 < (s.inode i).count
  · rw [same.resident i held]
  · simp [held]

theorem SameTable.inodeOf_eq {s t : State} (same : SameTable s t) (inum : UInt32) :
    inodeOf t inum = inodeOf s inum := by
  unfold inodeOf
  rw [same.findSlot_eq, same.disk_eq]
  cases found : findSlot s rootdev inum with
  | none => rfl
  | some i => exact same.resident i (findSlot_some found).1

theorem SameTable.holding {s t u : State} (same : SameTable s t) {dp : Fin NINODE} {inum : UInt32}
    (holding : Holding t u dp inum) : Holding s u dp inum where
  bio := by
    have bio := holding.bio
    rw [same.disk_eq] at bio
    exact same.bio.trans bio
  slot := by
    rw [holding.slot, same.inodeOf_eq, same.count]
  before held := by
    have before := holding.before (by rwa [same.count])
    rwa [same.resident dp held] at before
  other i different := by
    obtain ⟨count, busy, resident⟩ := holding.other i different
    refine ⟨count.trans (same.count i), busy.trans (same.busy i), ?_⟩
    intro held
    rw [resident (by rwa [same.count]), same.resident i held]

/-- A slot that `iget` may return, and what it then holds. -/
theorem IgetSlot.holding {s t : State} {inum : UInt32} {i : Fin NINODE} {ip : Inode}
    (slot : IgetSlot s rootdev inum i ip) (wrote : Wrote s t i s.disk ip) : Holding s t i inum := by
  have other : ∀ j, j ≠ i → (t.inode j).count = (s.inode j).count ∧
      (t.inode j).busy = (s.inode j).busy ∧ (0 < (s.inode j).count → t.inode j = s.inode j) := by
    intro j different
    rw [wrote.other different]
    exact ⟨rfl, rfl, fun _ => rfl⟩
  rcases slot with ⟨found, -, rfl⟩ | ⟨missing, unused, rfl⟩
  · obtain ⟨-, dev, number⟩ := findSlot_some found
    refine ⟨wrote.bio, ?_, ?_, other⟩
    · rw [wrote.at_slot]
      simp only [inodeOf, found]
      rw [← dev, ← number]
    · intro _
      rw [wrote.at_slot]
  · refine ⟨wrote.bio, ?_, ?_, other⟩
    · rw [wrote.at_slot, unused]
      simp only [inodeOf, missing]
      rfl
    · intro held
      rw [unused] at held
      exact absurd held (by decide)

/-- With no inode locked, `iget` takes the inode, or finds the table full. -/
theorem iget_ends {s : State} (inum : UInt32) (ready : s.bio.Ready 1)
    (idle : ∀ i, (s.inode i).busy = false) :
    Ends (iget rootdev inum) s (fun i t => Holding s t i inum)
      fun _ => findSlot s rootdev inum = none ∧ ∀ i, (s.inode i).count ≠ 0 := by
  rcases iget_outcome rootdev inum ready with yields | ⟨i, -, locked, -⟩ | ⟨missing, full, stopped⟩
  · refine (yields.mono ?_).ends
    rintro i t ⟨ip, slot, wrote⟩
    exact slot.holding wrote
  · rw [idle i] at locked
    cases locked
  · unfold Ends
    rw [stopped]
    refine ⟨missing, fun i unused => ?_⟩
    have taken := List.find?_eq_none.mp full i (List.mem_finRange i)
    simp [unused] at taken

theorem Holding.iput {s t : State} {dp : Fin NINODE} {inum : UInt32}
    (holding : Holding s t dp inum) (idle : ∀ i, (s.inode i).busy = false) :
    Yields (iput dp) t fun _ u => SameTable s u := by
  refine ⟨(), _, rfl, ?_⟩
  have slot := holding.slot
  constructor
  case bio => exact holding.bio
  case count =>
    intro i
    by_cases same : i = dp
    · subst same
      simp [slot]
    · simp [same, (holding.other i same).1]
  case busy =>
    intro i
    by_cases same : i = dp
    · subst same
      simp [idle]
    · simp [same, (holding.other i same).2.1]
  case resident =>
    intro i held
    by_cases same : i = dp
    · subst same
      rw [holding.before held]
      simp [slot, idle]
    · simp [same, (holding.other i same).2.2 held]

theorem Holding.onBio {α : Type} {s t : State} {dp : Fin NINODE} {inum : UInt32}
    (holding : Holding s t dp inum) {inner : Act Fault Bio α} {p : α → Prop}
    (settles : Yields inner t.bio fun value b => p value ∧ Settled t.bio b t.bio.sd.block) :
    Yields (Fs.onBio inner) t fun value u => p value ∧ Holding s u dp inum := by
  refine (onBio_wrote dp settles).mono ?_
  rintro value u ⟨met, wrote⟩
  have disk : t.bio.sd.block = s.disk := holding.bio.disk
  have same : u.inode = t.inode := by
    rw [wrote.inode, Function.update_eq_self]
  refine ⟨met, ?_, ?_, ?_, ?_⟩
  · have bio := wrote.bio
    rw [disk] at bio
    exact holding.bio.trans bio
  · rw [same]
    exact holding.slot
  · rw [same]
    exact holding.before
  · rw [same]
    exact holding.other

/-- How `namei` reports a resolution: no inode, and the table as before, or
the slot that now holds the inode. -/
def Resolved (s t : State) : (target : Option UInt32) → (result : Option (Fin NINODE)) → Prop
  | none, result => result = none ∧ SameTable s t
  | some inum, result => ∃ i, result = some i ∧ Holding s t i inum

/-- A string that does not start with a slash: nothing, or a component and
the rest. -/
theorem exists_component {path : List UInt8} (plain : ∀ c ∈ path.head?, c ≠ slash) :
    path = [] ∨ ∃ name rest, path = name ++ rest ∧ name ≠ [] ∧ slash ∉ name ∧
      (rest = [] ∨ ∃ behind, rest = slash :: behind) := by
  cases path with
  | nil => exact Or.inl rfl
  | cons c path =>
      refine Or.inr ⟨(c :: path).takeWhile fun b => b != slash,
        (c :: path).dropWhile fun b => b != slash, List.takeWhile_append_dropWhile.symm, ?_, ?_, ?_⟩
      · have head : c ≠ slash := plain c rfl
        simp [head]
      · intro member
        have different := List.all_eq_true.mp List.all_takeWhile slash member
        simp at different
      · cases rest : (c :: path).dropWhile fun b => b != slash with
        | nil => exact Or.inl rfl
        | cons d behind =>
            have stops := List.head_dropWhile_not (fun b => b != slash) (l := c :: path) (by simp [rest])
            simp only [rest, List.head_cons] at stops
            exact Or.inr ⟨behind, by simpa using stops⟩

theorem skipSlashes_head (path : List UInt8) : ∀ c ∈ (skipSlashes path).head?, c ≠ slash := by
  unfold skipSlashes
  induction path with
  | nil => simp
  | cons b path ih =>
      by_cases same : b = slash
      · rw [List.dropWhile_cons_of_pos (by simpa using same)]
        exact ih
      · rw [List.dropWhile_cons_of_neg (by simpa using same)]
        rintro c ⟨⟩
        exact same

theorem skipSlashes_suffix (path : List UInt8) : skipSlashes path <:+ path :=
  List.dropWhile_suffix _

/-- A set of inodes that paths do not leave, whose directories keep to their
direct blocks. -/
structure ClosedDirs (s : State) (inside : UInt32 → Prop) : Prop where
  direct : ∀ inum, inside inum → (inodeOf s inum).type = T_DIR →
    (inodeOf s inum).size.toNat ≤ NDIRECT * BSIZE
  names : ∀ inum name next, inside inum → (inodeOf s inum).type = T_DIR →
    findEntry (dirEntries s.disk (inodeOf s inum)) name = some next →
      inside (UInt32.ofNat next.toNat)

/-- One turn of the loop of `namei` in a directory: the component is looked up,
the directory is given back, and the loop goes on from the inode found. -/
theorem nameiWalk_lookup {s t : State} {dp : Fin NINODE} {inum : UInt32} {name : List UInt8}
    (behind : List UInt8) {stop : UInt8} (ends : stop = 0 ∨ stop = slash) (ok : IsName name)
    (nonempty : name ≠ []) (ready : s.bio.Ready 1) (idle : ∀ i, (s.inode i).busy = false)
    (isDir : (inodeOf s inum).type = T_DIR)
    (direct : (inodeOf s inum).size.toNat ≤ NDIRECT * BSIZE) (holding : Holding s t dp inum)
    (fuel : Nat) :
    ∃ v, SameTable s v ∧ nameiWalk (fuel + 1) dp (name ++ stop :: behind) t =
      (match findEntry (dirEntries s.disk (inodeOf s inum)) name with
      | none => pure none
      | some next => do
          let i ← iget rootdev (UInt32.ofNat next.toNat)
          nameiWalk fuel i (skipSlashes (stop :: behind)) :
        Act Fault State (Option (Fin NINODE))) v := by
  have slot := holding.slot
  have type : (t.inode dp).type = T_DIR := by
    rw [slot]
    exact isDir
  have size : (t.inode dp).size = (inodeOf s inum).size := by rw [slot]
  have dev : (t.inode dp).dev = rootdev := by rw [slot]
  obtain ⟨hit, u, scanRun, rfl, scanned⟩ := holding.onBio (dirScan_finds (t.inode dp) behind ends ok
    (holding.bio.ready ready) (by rw [size]; exact direct) (dirBlocks (t.inode dp).size) 0
    (Settled.refl t.bio) (Nat.zero_add _))
  obtain ⟨_, v, putRun, same⟩ := scanned.iput idle
  refine ⟨v, same, ?_⟩
  have entries : dirEntriesFrom t.bio.sd.block (t.inode dp) 0 (dirBlocks (t.inode dp).size) =
      dirEntries s.disk (inodeOf s inum) := by
    rw [dirEntries, ← size, slot]
    exact congrArg (fun disk => dirEntriesFrom disk _ 0 _) holding.bio.disk
  rw [entries] at scanRun
  obtain ⟨c, name', rfl⟩ := List.exists_cons_of_ne_nil nonempty
  rw [List.cons_append] at scanRun ⊢
  conv_lhs => unfold nameiWalk
  dsimp only
  rw [if_neg fun zero => ok.head (Or.inr zero)]
  refine (Act.bind_of_ok (a := t.inode dp) (t := t) rfl).trans ?_
  rw [if_neg (not_not.mpr type)]
  refine (Act.bind_of_ok scanRun).trans ?_
  refine (Act.bind_of_ok putRun).trans ?_
  cases findEntry (dirEntries s.disk (inodeOf s inum)) (c :: name') with
  | none => rfl
  | some next =>
      have dropped : (c :: (name' ++ stop :: behind)).drop (c :: name').length = stop :: behind :=
        List.drop_left
      simp only [Option.map_some, dev, dropped]

/-- The loop of `namei`, from a component or the end of the path on. -/
theorem nameiWalk_ends {s : State} {inside : UInt32 → Prop} (behind : List UInt8)
    (ready : s.bio.Ready 1) (idle : ∀ i, (s.inode i).busy = false) (closed : ClosedDirs s inside)
    (fuel : Nat) (path : List UInt8) (noNul : 0 ∉ path) (plain : ∀ c ∈ path.head?, c ≠ slash)
    (enough : path.length < fuel) {t : State} {dp : Fin NINODE} {inum : UInt32}
    (here : inside inum) (holding : Holding s t dp inum) :
    Ends (nameiWalk fuel dp (path ++ 0 :: behind)) t
      (fun result u => Resolved s u (resolve s inum (components path)) result)
      fun _ => ∀ i, (s.inode i).count ≠ 0 := by
  induction fuel generalizing path t dp inum with
  | zero => omega
  | succ fuel ih =>
      rcases exists_component plain with rfl | ⟨name, rest, rfl, nonempty, noSlash, ends⟩
      · exact Ends.of_returned (nameiWalk_end fuel dp behind t) ⟨dp, rfl, holding⟩
      · have ok : IsName name := ⟨noSlash, fun member => noNul (List.mem_append_left _ member)⟩
        obtain ⟨stop, behind', stops, follows⟩ : ∃ stop behind', (stop = 0 ∨ stop = slash) ∧
            rest ++ 0 :: behind = stop :: behind' := by
          rcases ends with rfl | ⟨path, rfl⟩
          · exact ⟨0, behind, Or.inl rfl, rfl⟩
          · exact ⟨slash, path ++ 0 :: behind, Or.inr rfl, rfl⟩
        rw [components_append noSlash nonempty ends, List.append_assoc, follows]
        unfold resolve
        by_cases isDir : (inodeOf s inum).type = T_DIR
        · rw [if_neg (not_not.mpr isDir)]
          obtain ⟨v, same, turn⟩ := nameiWalk_lookup behind' stops ok nonempty ready idle isDir
            (closed.direct inum here isDir) holding fuel
          refine Ends.congr turn ?_
          cases found : findEntry (dirEntries s.disk (inodeOf s inum)) name with
          | none => exact Ends.pure ⟨rfl, same⟩
          | some next =>
              have full : ∀ i : Fin NINODE, (v.inode i).count ≠ 0 → (s.inode i).count ≠ 0 := by
                intro i counted
                rw [← same.count i]
                exact counted
              refine Ends.seq ((iget_ends _ (same.bio.ready ready)
                (fun i => (same.busy i).trans (idle i))).weaken fun _ stuck i =>
                  full i (stuck.2 i)) ?_
              intro i w held
              rw [← follows, skipSlashes_append, ← components_skipSlashes rest]
              have suffix := skipSlashes_suffix rest
              have shorter := suffix.length_le
              have positive := List.length_pos_iff.mpr nonempty
              rw [List.length_append] at enough
              exact ih (skipSlashes rest)
                (fun member => noNul (List.mem_append_right _ (suffix.subset member)))
                (skipSlashes_head rest) (by omega) (closed.names inum _ next here isDir found)
                (same.holding held)
        · rw [if_pos isDir]
          obtain ⟨c, name', rfl⟩ := List.exists_cons_of_ne_nil nonempty
          have type : (t.inode dp).type ≠ T_DIR := by
            rw [holding.slot]
            exact isDir
          unfold nameiWalk
          rw [List.cons_append]
          simp only
          rw [if_neg fun zero => ok.head (Or.inr zero)]
          refine Ends.look ?_
          rw [if_pos type]
          refine Ends.seq (holding.iput idle).ends ?_
          intro _ u same
          exact Ends.pure ⟨rfl, same⟩

theorem namei_ends {s : State} {inside : UInt32 → Prop} (path behind : List UInt8)
    (noNul : 0 ∉ path) (ready : s.bio.Ready 1) (idle : ∀ i, (s.inode i).busy = false)
    (closed : ClosedDirs s inside) (root : inside 1) :
    Ends (namei (path ++ 0 :: behind)) s
      (fun result t => Resolved s t (resolve s 1 (components path)) result)
      fun _ => ∀ i, (s.inode i).count ≠ 0 := by
  unfold namei
  refine Ends.seq ((iget_ends 1 ready idle).weaken fun _ stuck => stuck.2) ?_
  intro dp t holding
  rw [skipSlashes_append, ← components_skipSlashes path]
  have suffix := skipSlashes_suffix path
  refine nameiWalk_ends behind ready idle closed _ (skipSlashes path)
    (fun member => noNul (suffix.subset member)) (skipSlashes_head path) ?_ root holding
  have shorter := suffix.length_le
  simp only [List.length_append, List.length_cons]
  omega

/-- `namei` returns the inode that its path resolves to, when the directories on
the way are direct. -/
theorem namei_resolves {s : State} {inside : UInt32 → Prop} (path behind : List UInt8)
    (noNul : 0 ∉ path) (ready : s.bio.Ready 1) (idle : ∀ i, (s.inode i).busy = false)
    (room : ∃ i, (s.inode i).count = 0) (closed : ClosedDirs s inside) (root : inside 1) :
    Yields (namei (path ++ 0 :: behind)) s fun result t =>
      Resolved s t (resolve s 1 (components path)) result := by
  refine (namei_ends path behind noNul ready idle closed root).yields ?_
  obtain ⟨i, unused⟩ := room
  exact fun _ full => full i unused

/-- A disk whose root directory has one entry, `a` for inode 2. -/
def oneEntryDisk (sector : Nat) : Block :=
  if sector = 2 then
    Block.zero.put dinodeSize (⟨T_DIR, 0, 0, 1, 16, fun k => if k.val = 0 then 5 else 0⟩ : Dinode).bytes
  else if sector = 5 then Block.zero.put 0 [2, 0, 97]
  else Block.zero

theorem oneEntryDisk_dirs (n : Nat) : ∀ slot : Fin IPB,
    ((oneEntryDisk n).dinode slot.val).type = T_DIR →
      ((oneEntryDisk n).dinode slot.val).size = 16 := by
  unfold oneEntryDisk
  split
  · decide +kernel
  · split
    · decide +kernel
    · decide +kernel

theorem oneEntryDisk_closed : ClosedDirs (State.loaded oneEntryDisk) fun _ => True := by
  refine ⟨fun inum _ isDir => ?_, fun _ _ _ _ _ _ => trivial⟩
  have empty : findSlot (State.loaded oneEntryDisk) rootdev inum = none :=
    List.find?_eq_none.mpr fun _ _ => by simp [State.loaded, Inode.zero]
  rw [inodeOf, empty] at isDir ⊢
  have size := oneEntryDisk_dirs (IBLOCK inum.toNat) ⟨inum.toNat % IPB, Nat.mod_lt _ (by decide)⟩ isDir
  change ((oneEntryDisk (IBLOCK inum.toNat)).dinode (inum.toNat % IPB)).size.toNat ≤ NDIRECT * BSIZE
  rw [size]
  decide

/-- `//a/` names inode 2. -/
theorem namei_resolves_one_entry :
    Yields (namei ([47, 47, 97, 47] ++ [0])) (State.loaded oneEntryDisk) fun result t =>
      ∃ i, result = some i ∧ Holding (State.loaded oneEntryDisk) t i 2 := by
  have named : resolve (State.loaded oneEntryDisk) 1 (components [47, 47, 97, 47]) = some 2 := by
    decide +kernel
  have resolved := namei_resolves (s := State.loaded oneEntryDisk) [47, 47, 97, 47] [] (by decide)
    ⟨rfl, by decide +kernel⟩ (fun _ => rfl) ⟨⟨0, NINODE_pos⟩, rfl⟩ oneEntryDisk_closed
    trivial
  rw [named] at resolved
  exact resolved

end Gcgos.Fs
