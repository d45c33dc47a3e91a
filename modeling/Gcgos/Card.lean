import Gcgos.FreeBlocks
import Gcgos.Kernel.CatFiles

/-!
# The image of `mkfs` under the kernel

The card that `mkfs` has written, before the kernel has opened anything on it:
the paths are those of one root directory, every file that was given and fits
into the direct blocks is the string it was outside, and all blocks behind the
last one that `mkfs` used are free. From there on `open`, `read`, `write` and
`close` work on these strings.
-/

set_option autoImplicit false

namespace Gcgos

open Fs Mkfs Act ByteMap Bio

/-! ## The root directory -/

theorem findEntry_cons (inum : UInt16) (field : List UInt8) (rest : List (UInt16 × List UInt8))
    (name : List UInt8) : findEntry ((inum, field) :: rest) name =
      if inum ≠ 0 ∧ field = name then some inum else findEntry rest name := by
  unfold findEntry
  by_cases hit : inum ≠ 0 ∧ field = name
  · simp [hit]
  · rw [List.find?_cons_of_neg (by simpa using hit), if_neg hit]

/-- The entries of a block from entry `k` on. -/
theorem findEntry_block (data : Block) {e : List Entry} (plain : ∀ entry ∈ e, entry.Plain)
    (name : List UInt8) (fuel k : Nat)
    (there : ∀ j, k ≤ j → j < k + fuel → HasEntry data j e[j]?) :
    findEntry ((List.range' k fuel).map fun j => (data.direntInum j, entryName (data.direntName j)))
      name = (lookup ((e.drop k).take fuel) name).map Prod.fst := by
  induction fuel generalizing k with
  | zero => simp [findEntry, lookup]
  | succ fuel ih =>
      have here := there k le_rfl (by omega)
      have rest := ih (k + 1) fun j lower upper => there j (by omega) (by omega)
      rw [List.range'_succ, List.map_cons, findEntry_cons, rest]
      rcases Nat.lt_or_ge k e.length with inside | outside
      · rw [List.getElem?_eq_getElem inside] at here
        obtain ⟨inum, field⟩ := here
        have good := plain e[k] (List.getElem_mem inside)
        have own : entryName (data.direntName k) = e[k].2 := by
          have blank : entryName (List.replicate (DIRSIZ - e[k].2.length) 0) = [] := by
            rw [entryName_eq_nil]
            right
            rw [List.getD_eq_getElem?_getD, List.getElem?_replicate]
            split <;> rfl
          rw [field, entryName_append _ good.name.noZero, blank, List.append_nil]
        rw [inum, own, List.drop_eq_getElem_cons inside, List.take_succ_cons]
        by_cases same : e[k].2 = name
        · simp [same, lookup, good.inum_ne_zero]
        · simp [lookup, same]
      · rw [List.getElem?_eq_none outside] at here
        have blank : data.direntInum k = 0 := here
        have empty : e.drop (k + 1) = [] := List.drop_eq_nil_of_le (by omega)
        rw [if_neg (fun hit => hit.1 blank), List.drop_eq_nil_of_le outside, empty]
        simp

theorem findEntry_blocks {disk : Nat → Block} {dp : Inode} {entries : List Entry}
    (directory : Directory disk dp entries) (name : List UInt8) (n b : Nat)
    (bound : b + n ≤ dirBlocks dp.size) :
    findEntry (dirEntriesFrom disk dp b n) name =
      (lookup ((entries.drop (direntsPerBlock * b)).take (direntsPerBlock * n)) name).map
        Prod.fst := by
  induction n generalizing b with
  | zero => simp [dirEntriesFrom, findEntry, lookup]
  | succ n ih =>
      have inside : direntsPerBlock * b < entries.length := by
        have size := directory.size
        simp only [dirBlocks, direntsPerBlock, direntSize, BSIZE] at *
        omega
      have first := findEntry_block (disk (dp.addrs (addrSlot b)).toNat)
        (fun entry member => directory.plain entry (List.mem_of_mem_drop member)) name
        direntsPerBlock 0 (e := entries.drop (direntsPerBlock * b)) (by
          intro j _ below
          rw [List.getElem?_drop]
          exact directory.blocks b j inside (by omega))
      have rest := ih (b + 1) (by omega)
      have split : dirEntriesFrom disk dp b (n + 1) =
          blockEntries (disk (dp.addrs (addrSlot b)).toNat) ++ dirEntriesFrom disk dp (b + 1) n := by
        rw [dirEntriesFrom, List.range'_succ, List.flatMap_cons]
        rfl
      have block : blockEntries (disk (dp.addrs (addrSlot b)).toNat) =
          (List.range' 0 direntsPerBlock).map fun j =>
            ((disk (dp.addrs (addrSlot b)).toNat).direntInum j,
              entryName ((disk (dp.addrs (addrSlot b)).toNat).direntName j)) := by
        rw [blockEntries, List.range_eq_range']
      rw [split, findEntry_append, block, first, rest, List.drop_zero,
        show direntsPerBlock * (n + 1) = direntsPerBlock + direntsPerBlock * n by
          rw [Nat.mul_succ, Nat.add_comm], List.take_add, List.drop_drop, lookup_append,
        show direntsPerBlock * b + direntsPerBlock = direntsPerBlock * (b + 1) by rw [Nat.mul_succ]]
      generalize lookup ((entries.drop (direntsPerBlock * b)).take direntsPerBlock) name = left
      cases left <;> rfl

/-- What the kernel reads in a directory. -/
theorem Fs.Directory.findEntry_eq {disk : Nat → Block} {dp : Inode} {entries : List Entry}
    (directory : Directory disk dp entries) (name : List UInt8) :
    findEntry (dirEntries disk dp) name =
      (entries.find? fun entry => entry.2 = name).map fun entry => UInt16.ofNat entry.1 := by
  have whole : entries.length ≤ direntsPerBlock * dirBlocks dp.size := by
    have size := directory.size
    simp only [dirBlocks, direntsPerBlock, direntSize, BSIZE] at *
    omega
  rw [dirEntries, findEntry_blocks directory name _ 0 (by omega), Nat.mul_zero, List.drop_zero,
    List.take_of_length_le whole, lookup, Option.map_map]
  rfl

/-- What the components of a path name when the root directory has these names,
and nothing but itself below it. -/
def rootTree (names : List (List UInt8)) : (components : List (List UInt8)) → Option UInt32
  | [] => some 1
  | name :: rest =>
      if name = [dot] ∨ name = [dot, dot] then rootTree names rest
      else
        match names.idxOf? name, rest with
        | some i, [] => some (UInt32.ofNat (i + 2))
        | _, _ => none

/-- What a path names on the card. -/
def cardTree (inputs : List Input) (path : List UInt8) : Option UInt32 :=
  rootTree (inputs.map nameOf) (components path)

/-- The string of an inode on the card: the contents of the file that was given
for it, when they fit into the direct blocks. -/
def cardBytes (inputs : List Input) (n : UInt32) : Option (List UInt8) :=
  if n.toNat < 2 then none
  else
    (inputs[n.toNat - 2]?).bind fun input =>
      let bytes := input.contents.getD []
      if bytes.length ≤ NDIRECT * BSIZE then some bytes else none

section

variable {m : Mkfs.State} {inputs : List Input}

/-- A block that an inode refers to has its number in one of its words. -/
theorem Fs.Refers.place {disk : Nat → Block} {addrs : Addrs} {b : Nat}
    (refers : Refers disk addrs b) :
    ∃ p : Place, p.word disk addrs ≠ 0 ∧ (p.word disk addrs).toNat = b := by
  obtain ⟨nonzero, ⟨k, rfl⟩ | ⟨table, j, bound, rfl⟩⟩ := refers
  · refine ⟨.addr k, fun zero => nonzero ?_, rfl⟩
    change (Place.word disk addrs (.addr k)).toNat = 0
    rw [zero]
    rfl
  · have word : Place.word disk addrs (.entry ⟨j, bound⟩) =
        (disk (addrs indirectSlot).toNat).entry j := if_neg table
    refine ⟨.entry ⟨j, bound⟩, fun zero => nonzero ?_, by rw [word]⟩
    rw [← word, zero]
    rfl

theorem Mkfs.Built.ninodes_toNat (built : Built m (inputsOf inputs)) :
    (superOf m.image).ninodes.toNat = ninodes := by
  rw [built.ninodes_eq]
  decide

theorem Mkfs.Built.dataStart_eq (built : Built m (inputsOf inputs)) :
    dataStart (superOf m.image) = firstData := by
  rw [built.super]
  decide

theorem Mkfs.Built.size_toNat (built : Built m (inputsOf inputs)) :
    (superOf m.image).size.toNat = size := by
  rw [built.size_eq]
  decide

/-- The allocation on the card is sound. -/
theorem Mkfs.Built.sound (built : Built m (inputsOf inputs)) (reserved : Reserved m.image)
    (room : m.freeblock ≤ BPB)
    (bits : m.image (ninodes / IPB + 3) = setBits m.freeblock 0 Block.zero) :
    Fs.Sound m.image (diskOwners m.image) := by
  have refersAt : ∀ n b, (diskOwners m.image).live n → Refers m.image (dinodeAt m.image n).addrs b →
      ∃ p, RefersAt m.image (n, p) b := by
    rintro n b ⟨inArea, -⟩ refers
    obtain ⟨p, nonzero, same⟩ := refers.place
    exact ⟨p, inArea, nonzero, same⟩
  refine ⟨reserved, ?_, ?_⟩
  · intro n b live refers
    obtain ⟨p, place⟩ := refersAt n b live refers
    obtain ⟨lower, upper⟩ := (built.refers_iff b).mp ⟨(n, p), place⟩
    have inside : b < size := lt_of_lt_of_le upper built.fits
    rw [built.dataStart_eq, built.size_toNat]
    exact ⟨lower, inside, (built.marked_iff room bits inside).mpr upper⟩
  · intro n k b live live' left right
    obtain ⟨p, place⟩ := refersAt n b live left
    obtain ⟨q, place'⟩ := refersAt k b live' right
    exact congrArg Prod.fst (built.refers_unique place place')

/-- The blocks behind the last one that `mkfs` used are free. -/
theorem Mkfs.Built.free_card (built : Built m (inputsOf inputs)) (room : m.freeblock ≤ BPB)
    (bits : m.image (ninodes / IPB + 3) = setBits m.freeblock 0 Block.zero) :
    size - m.freeblock ≤ (freeBlocks m.image).card := by
  rw [← Nat.card_Ico]
  refine Finset.card_le_card fun b member => ?_
  obtain ⟨lower, upper⟩ := Finset.mem_Ico.mp member
  rw [freeBlocks, Finset.mem_filter, Finset.mem_range, built.size_toNat]
  refine ⟨upper, Bool.eq_false_iff.mpr fun set => ?_⟩
  exact absurd ((built.marked_iff room bits upper).mp set) (Nat.not_lt.mpr lower)

/-- A file that fits into the direct blocks, as the kernel has it. -/
theorem Mkfs.Built.fileShown (built : Built m (inputsOf inputs)) (few : inputs.length ≤ 98)
    {i : Nat} (bound : i < inputs.length)
    (small : (inputs[i].contents.getD []).length ≤ NDIRECT * BSIZE) :
    FileShown m.image ((dinodeAt m.image (i + 2)).load rootdev (UInt32.ofNat (i + 2)))
      (inputs[i].contents.getD []) := by
  have inArea : i + 2 < ninodes := by
    simp only [ninodes]
    omega
  have found := Built.found built few bound
  have file : filesOf (inputsOf inputs) (i + 2) = inputs[i].contents.getD [] := by
    have ne : i + 2 ≠ 1 := by omega
    simp [filesOf, ne, inputsOf, bound]
  generalize inputs[i].contents.getD [] = bytes at *
  have filed := built.holds.stored.filed
  have shape : (shapeFor (filesOf (inputsOf inputs) (i + 2)).length).blocks =
      blocksOf bytes.length := by
    rw [file]
    rfl
  have tidy := filed.tidy (i + 2) inArea
  have refersAt : ∀ k : Fin (NDIRECT + 1), (dinodeAt m.image (i + 2)).addrs k ≠ 0 →
      RefersAt m.image (i + 2, .addr k) ((dinodeAt m.image (i + 2)).addrs k).toNat := by
    intro k nonzero
    exact ⟨by rw [built.ninodes_toNat]; exact inArea, nonzero, rfl⟩
  have apart : ∀ k l : Fin (NDIRECT + 1), (dinodeAt m.image (i + 2)).addrs k ≠ 0 →
      (dinodeAt m.image (i + 2)).addrs k = (dinodeAt m.image (i + 2)).addrs l → k = l := by
    intro k l nonzero same
    have left := refersAt k nonzero
    have right := refersAt l (by rw [← same]; exact nonzero)
    rw [← same] at right
    have equal := congrArg Prod.snd (built.refers_unique left right)
    exact Place.addr.inj equal
  constructor
  case kind => exact found.type
  case size => exact found.size
  case small => exact small
  case mapped =>
    intro k direct
    constructor
    · intro nonzero
      by_contra behind
      exact nonzero (tidy.noDirect k (by rw [shape]; omega) direct)
    · intro used zero
      have given : Slot.Used (shapeFor (filesOf (inputsOf inputs) (i + 2)).length) (.data k) := by
        change k < _
        rw [shape]
        exact used
      have number := filed.positive (.data k) inArea given
      change (dinodeAt m.image (i + 2)).addrs (addrSlot k) = 0 at zero
      simp only [Slot.block, blockOf, direct, if_true, zero] at number
      exact number rfl
  case distinct =>
    intro k l direct direct' nonzero same
    have equal := congrArg Fin.val (apart _ _ nonzero same)
    rwa [addrSlot_val (by omega), addrSlot_val (by omega)] at equal
  case noAlias =>
    intro k other nonzero same
    exact other (apart k indirectSlot nonzero same)
  case reads =>
    intro x inside
    have direct : x / 512 < NDIRECT := by
      simp only [NDIRECT, BSIZE] at *
      omega
    have byte := built.holds.stored.bytes (i + 2) x inArea (by
      rw [shape]
      simp only [blocksOf, BSIZE]
      omega)
    rw [file, blockOf, if_pos direct] at byte
    exact byte

theorem find_zipIdx_name (names : List (List UInt8)) (name : List UInt8) (start : Nat) :
    ((names.zipIdx start).map fun entry => (entry.2 + 2, entry.1)).find?
      (fun entry => entry.2 = name) =
        (names.idxOf? name).map fun i => (start + i + 2, name) := by
  induction names generalizing start with
  | nil => rfl
  | cons other rest ih =>
      rw [List.zipIdx_cons, List.map_cons, List.idxOf?_cons]
      by_cases same : other = name
      · subst same
        simp
      · rw [List.find?_cons_of_neg (by simpa using same), ih, if_neg (by simpa using same),
          Option.map_map]
        congr 1
        funext i
        simp only [Function.comp_apply, Prod.mk.injEq, and_true]
        omega

/-- What the root directory has under a name. -/
theorem rootEntries_number (names : List (List UInt8)) (name : List UInt8) :
    ((rootEntries names).find? fun entry => entry.2 = name).map
      (fun entry => UInt16.ofNat entry.1) =
        if name = [dot] ∨ name = [dot, dot] then some 1
        else (names.idxOf? name).map fun i => UInt16.ofNat (i + 2) := by
  unfold rootEntries
  by_cases self : name = [dot]
  · subst self
    rfl
  · by_cases parent : name = [dot, dot]
    · subst parent
      rfl
    · rw [List.find?_cons_of_neg (by simpa using Ne.symm self),
        List.find?_cons_of_neg (by simpa using Ne.symm parent), find_zipIdx_name,
        if_neg (not_or.mpr ⟨self, parent⟩), Option.map_map]
      congr 1
      funext i
      rw [Function.comp_apply, Nat.zero_add]

theorem idxOf?_bound {names : List (List UInt8)} {name : List UInt8} {i : Nat}
    (found : names.idxOf? name = some i) : i < names.length := by
  obtain ⟨bound, -⟩ := List.findIdx?_eq_some_iff_getElem.mp found
  exact bound

/-- The names on the card, while the table is empty. -/
theorem Mkfs.Built.namesShown (built : Built m (inputsOf inputs)) (few : inputs.length ≤ 98)
    (proper : ∀ input ∈ inputs, Input.Proper input) {k : Fs.State} (disk : k.disk = m.image)
    (empty : EmptyTable k) : NamesShown k (cardTree inputs) := by
  have directory := Built.directory built few proper
  have loaded : ∀ n : UInt32, inodeOf k n = (dinodeAt m.image n.toNat).load rootdev n := by
    intro n
    rw [inodeOf_empty empty, disk]
  have root : (dinodeAt m.image 1).type = T_DIR := congrArg Prod.fst built.root
  have entry : ∀ name, findEntry (dirEntries k.disk (inodeOf k 1)) name =
      if name = [dot] ∨ name = [dot, dot] then some 1
      else ((inputs.map nameOf).idxOf? name).map fun i => UInt16.ofNat (i + 2) := by
    intro name
    rw [loaded 1, disk, ← rootEntries_number]
    exact directory.findEntry_eq name
  have file : ∀ i, i < inputs.length → (UInt16.ofNat (i + 2)).toNat = i + 2 ∧
      (UInt32.ofNat (i + 2)).toNat = i + 2 ∧ (dinodeAt m.image (i + 2)).type = T_FILE := by
    intro i bound
    refine ⟨UInt16.toNat_ofNat_of_lt' ?_, UInt32.toNat_ofNat_of_lt' ?_,
      (Built.found built few bound).type⟩
    · change i + 2 < 65536
      omega
    · change i + 2 < 4294967296
      omega
  have live : ∀ n : Nat, n < ninodes → (dinodeAt m.image n).type ≠ 0 → (ownersOf k).live n := by
    intro n inArea used
    rw [ownersOf_empty empty, disk]
    exact ⟨by rw [built.ninodes_toNat]; exact inArea, used⟩
  have dir : ∀ n : UInt32, (ownersOf k).live n.toNat → (inodeOf k n).type = T_DIR →
      n = 1 ∨ (inodeOf k n).size = 0 := by
    intro n used isDir
    rw [ownersOf_empty empty, disk] at used
    have inArea : n.toNat < ninodes := by
      rw [← built.ninodes_toNat]
      exact used.1
    by_cases one : n.toNat = 1
    · exact Or.inl (UInt32.toNat_inj.mp one)
    · right
      rw [loaded] at isDir ⊢
      have nothing : filesOf (inputsOf inputs) n.toNat = [] := by
        simp only [filesOf, one, if_false]
        split
        · rfl
        · rename_i low
          refine List.getD_eq_default _ _ (Nat.le_of_not_lt fun given => ?_)
          have bound : n.toNat - 2 < inputs.length := by simpa [inputsOf] using given
          have kind := (file _ bound).2.2
          rw [show n.toNat - 2 + 2 = n.toNat by omega] at kind
          change (dinodeAt m.image n.toNat).type = T_DIR at isDir
          rw [kind] at isDir
          cases isDir
      have size := built.holds.sizes n.toNat inArea
      rw [nothing] at size
      exact UInt32.toNat_inj.mp size
  constructor
  case root => exact live 1 (by decide) (by rw [root]; decide)
  case closed =>
    constructor
    · intro n used isDir
      rcases dir n used isDir with rfl | none
      · have fits := directory.few
        rw [loaded 1]
        change ((dinodeAt m.image 1).load rootdev 1).size.toNat ≤ _
        rw [directory.size]
        simp only [direntsPerBlock, BSIZE, direntSize] at *
        omega
      · rw [none]
        exact Nat.zero_le _
    · intro n name next used isDir found
      rcases dir n used isDir with rfl | none
      · rw [entry] at found
        split at found
        · cases found
          exact live 1 (by decide) (by rw [root]; decide)
        · obtain ⟨i, place, rfl⟩ := Option.map_eq_some_iff.mp found
          have bound : i < inputs.length := by simpa using idxOf?_bound place
          obtain ⟨short, long, kind⟩ := file i bound
          rw [short, long]
          exact live _ (by simp only [ninodes]; omega) (by rw [kind]; decide)
      · have no : dirEntries k.disk (inodeOf k n) = [] := by
          rw [dirEntries, none]
          rfl
        rw [no] at found
        cases found
  case path =>
    intro path
    unfold cardTree
    induction components path with
    | nil => rfl
    | cons name rest ih =>
        unfold resolve rootTree
        rw [if_neg (by rw [loaded 1]; exact not_not.mpr root), entry]
        by_cases self : name = [dot] ∨ name = [dot, dot]
        · rw [if_pos self, if_pos self]
          exact ih
        · rw [if_neg self, if_neg self]
          cases place : (inputs.map nameOf).idxOf? name with
          | none => rfl
          | some i =>
              have bound : i < inputs.length := by simpa using idxOf?_bound place
              obtain ⟨short, long, kind⟩ := file i bound
              change resolve k (UInt32.ofNat (UInt16.ofNat (i + 2)).toNat) rest = _
              rw [short]
              cases rest with
              | nil => rfl
              | cons next rest =>
                  unfold resolve
                  rw [loaded, long]
                  change (if (dinodeAt m.image (i + 2)).type ≠ T_DIR then none else _) = none
                  rw [kind, if_pos (by decide)]

/-! ## The files -/

/-- What the card holds. -/
def cardFiles (m : Mkfs.State) (inputs : List Input) : Kernel.FileSystem where
  bytes := cardBytes inputs
  grown _ := false
  cursor _ := none
  room := size - m.freeblock

/-- The kernel with this card, before the first call. -/
structure Booted (image : Nat → Block) (s : Kernel.State) : Prop where
  disk : s.fs.disk = image
  ready : s.fs.bio.Ready 1
  empty : EmptyTable s.fs
  idle : ∀ i, (s.fs.inode i).busy = false
  closed : ∀ e, (s.fds e).type = .FD_CLOSE
  fds : ∀ h, s.entry h = none

theorem cardBytes_some {n : UInt32} {bytes : List UInt8} (found : cardBytes inputs n = some bytes) :
    ∃ i, ∃ bound : i < inputs.length, n.toNat = i + 2 ∧ inputs[i].contents.getD [] = bytes ∧
      bytes.length ≤ NDIRECT * BSIZE := by
  unfold cardBytes at found
  split at found
  · cases found
  · rename_i file
    obtain ⟨input, given, kept⟩ := Option.bind_eq_some_iff.mp found
    obtain ⟨bound, rfl⟩ := List.getElem?_eq_some_iff.mp given
    dsimp only at kept
    split at kept
    · rename_i small
      cases kept
      exact ⟨_, bound, by omega, rfl, small⟩
    · cases kept

/-- The kernel has on the card what `mkfs` was given. -/
theorem card_shown {behind : Block} (completes : main behind inputs initial = .ok ((), m))
    (few : inputs.length ≤ 98) (proper : ∀ input ∈ inputs, Input.Proper input) {s : Kernel.State}
    (booted : Booted m.image s) :
    Kernel.SystemShown (cardTree inputs) s (cardFiles m inputs) := by
  have slashes : ∀ input ∈ inputs, 47 ∈ input.path := fun input given => (proper input given).slash
  obtain ⟨built, room, bits⟩ := main_ensures behind inputs few slashes () m completes
  have formed := mkfs_wellFormed behind inputs m completes few slashes
    fun input given => (proper input given).short
  refine Kernel.SystemShown.of_disk (VolumeShown.of_disk booted.empty booted.idle booted.ready ?_ ?_
    ?_ ?_ ?_) (fun _ => rfl) booted.closed booted.fds
  · rw [booted.disk]
    exact built.sound formed.reserved room bits
  · rw [booted.disk]
    exact formed.dinodes
  · exact built.namesShown few proper booted.disk booted.empty
  · intro n bytes found
    obtain ⟨i, bound, number, rfl, small⟩ := cardBytes_some found
    have word : n = UInt32.ofNat (i + 2) := by rw [← number, UInt32.ofNat_toNat]
    rw [booted.disk, built.ninodes_toNat, number, word]
    exact ⟨by simp only [ninodes]; omega, built.fileShown few bound small⟩
  · rw [booted.disk]
    exact built.free_card room bits

end

/-- Before the first call, with any memory. -/
theorem Booted.of_memory (image : Nat → Block) (mm : Kernel.Mm) :
    Booted image (Kernel.State.loaded (started image) mm) where
  disk := rfl
  ready := started_ready image
  empty _ := rfl
  idle _ := rfl
  closed _ := rfl
  fds _ := rfl

section

variable {inputs : List Input}

theorem idxOf?_getElem {names : List (List UInt8)} (distinct : names.Nodup) {i : Nat}
    (bound : i < names.length) : names.idxOf? names[i] = some i := by
  refine List.findIdx?_eq_some_iff_getElem.mpr ⟨bound, by simp, fun j earlier => ?_⟩
  have other : names[j] ≠ names[i] := fun same =>
    absurd ((List.Nodup.getElem_inj_iff distinct).mp same) (Nat.ne_of_lt earlier)
  simpa using other

/-- The base name of a file names its inode. -/
theorem cardTree_name (proper : ∀ input ∈ inputs, Input.Proper input)
    (distinct : (inputs.map nameOf).Nodup) {i : Nat} (bound : i < inputs.length) :
    cardTree inputs (nameOf inputs[i]) = some (UInt32.ofNat (i + 2)) := by
  have good := proper inputs[i] (List.getElem_mem bound)
  have single : components (nameOf inputs[i]) = [nameOf inputs[i]] := by
    have none : ([] : List UInt8) = [] ∨ ∃ path, ([] : List UInt8) = slash :: path := Or.inl rfl
    have split := components_append good.isName.noSlash good.nonempty none
    rwa [List.append_nil, components_nil] at split
  have place : (inputs.map nameOf).idxOf? (nameOf inputs[i]) = some i := by
    have found := idxOf?_getElem distinct (i := i) (by rwa [List.length_map])
    rwa [List.getElem_map] at found
  unfold cardTree rootTree
  rw [single]
  simp only
  rw [if_neg (not_or.mpr ⟨good.notSelf, good.notParent⟩), place]

theorem cardBytes_name {i : Nat} (few : inputs.length ≤ 98) (bound : i < inputs.length)
    (small : (inputs[i].contents.getD []).length ≤ NDIRECT * BSIZE) :
    cardBytes inputs (UInt32.ofNat (i + 2)) = some (inputs[i].contents.getD []) := by
  have number : (UInt32.ofNat (i + 2)).toNat = i + 2 := by
    refine UInt32.toNat_ofNat_of_lt' ?_
    change i + 2 < 4294967296
    omega
  unfold cardBytes
  rw [number, if_neg (by omega), Nat.add_sub_cancel, List.getElem?_eq_getElem bound,
    Option.bind_some]
  simp only
  rw [if_pos small]

end

end Gcgos
