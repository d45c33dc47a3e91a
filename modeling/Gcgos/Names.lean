import Gcgos.Fs.Lookup
import Gcgos.Mkfs.Main

/-!
# Names on an image and in the kernel

`mkfs` writes directory entries and dinodes, `namei` reads them. On the image
that `main` leaves, the kernel finds every file under the base name of its
argument and nothing under any other name.
-/

set_option autoImplicit false

namespace Gcgos

open Fs Mkfs Act ByteMap

theorem dirBytes_length {entries : List Entry}
    (short : ∀ entry ∈ entries, entry.2.length < DIRSIZ) :
    (dirBytes entries).length = direntSize * entries.length := by
  rw [dirBytes, List.length_flatMap, List.map_congr_left (g := fun _ => direntSize)]
  · simp [Nat.mul_comm]
  · intro entry member
    exact dirent_length entry.1 (short entry member)

/-- Byte `i` of entry `q`. -/
theorem dirBytes_getD {entries : List Entry} (short : ∀ entry ∈ entries, entry.2.length < DIRSIZ)
    (q : Nat) {i : Nat} (inside : i < direntSize) :
    (dirBytes entries).getD (direntSize * q + i) 0 =
      match entries[q]? with
      | none => 0
      | some entry => (dirent entry.1 entry.2).getD i 0 := by
  induction entries generalizing q with
  | nil => simp [dirBytes]
  | cons entry rest ih =>
      have width := dirent_length entry.1 (short entry List.mem_cons_self)
      have cons : dirBytes (entry :: rest) = dirent entry.1 entry.2 ++ dirBytes rest := by
        simp [dirBytes]
      rw [cons]
      cases q with
      | zero =>
          rw [Nat.mul_zero, Nat.zero_add, List.getD_append _ _ _ _ (by rw [width]; exact inside)]
          rfl
      | succ q =>
          have next := ih (fun other member => short other (List.mem_cons_of_mem _ member)) q
          have offset : direntSize * (q + 1) + i - direntSize = direntSize * q + i := by
            simp only [direntSize]
            omega
          rw [List.getD_append_right _ _ _ _ (by
            rw [width]
            simp only [direntSize]
            omega), width, offset, next]
          rfl

theorem dirent_inum {bytes : Nat → UInt8} {start inum : Nat} {name : List UInt8}
    (same : ∀ i, i < direntSize → bytes (start + i) = (dirent inum name).getD i 0) :
    UInt16.ofNat (leNat bytes start 2) = UInt16.ofNat inum := by
  have low : bytes start = UInt8.ofNat inum := same 0 (by decide)
  have high : bytes (start + 1) = UInt8.ofNat (inum / 256) := same 1 (by decide)
  simp only [leNat, low, high]
  apply UInt16.toNat_inj.mp
  simp only [UInt8.toNat_ofNat', UInt16.toNat_ofNat']
  omega

theorem dirent_name {bytes : Nat → UInt8} {start inum : Nat} {name : List UInt8}
    (short : name.length < DIRSIZ)
    (same : ∀ i, i < direntSize → bytes (start + i) = (dirent inum name).getD i 0) :
    getBytes bytes (start + 2) DIRSIZ = name ++ List.replicate (DIRSIZ - name.length) 0 := by
  have length : (name ++ List.replicate (DIRSIZ - name.length) (0 : UInt8)).length = DIRSIZ := by
    simp only [List.length_append, List.length_replicate]
    omega
  refine List.ext_getElem (by rw [getBytes_length, length]) ?_
  intro i left right
  rw [getBytes_length] at left
  have byte := same (2 + i) (by simp only [DIRSIZ, direntSize] at *; omega)
  have behind : (dirent inum name).getD (2 + i) 0 =
      (name ++ List.replicate (DIRSIZ - name.length) 0).getD i 0 := by
    unfold dirent
    rw [List.append_assoc, List.getD_append_right _ _ _ _ (by rw [leBytes_length]; omega),
      leBytes_length, Nat.add_sub_cancel_left]
  rw [← List.getD_eq_getElem _ 0 right, ← List.getD_eq_getElem _ 0, getBytes_getD _ _ _ _ left,
    Nat.add_assoc, byte, behind]

/-- The bytes `mkfs` writes into a directory block are the entries the kernel
reads there. -/
theorem hasEntry_of_bytes {data : Block} {entries : List Entry}
    (short : ∀ entry ∈ entries, entry.2.length < DIRSIZ) (b : Nat)
    (bytes : ∀ o, o < BSIZE → data.byte o = (dirBytes entries).getD (BSIZE * b + o) 0)
    {j : Nat} (inside : j < direntsPerBlock) :
    HasEntry data j entries[direntsPerBlock * b + j]? := by
  have same : ∀ i, i < direntSize → data.byte (direntSize * j + i) =
      match entries[direntsPerBlock * b + j]? with
      | none => 0
      | some entry => (dirent entry.1 entry.2).getD i 0 := by
    intro i bound
    have offset : BSIZE * b + (direntSize * j + i) =
        direntSize * (direntsPerBlock * b + j) + i := by
      simp only [BSIZE, direntSize, direntsPerBlock]
      omega
    rw [bytes _ (by simp only [BSIZE, direntSize, direntsPerBlock] at *; omega), offset]
    exact dirBytes_getD short _ bound
  cases found : entries[direntsPerBlock * b + j]? with
  | none =>
      rw [found] at same
      have low := same 0 (by decide)
      have high := same 1 (by decide)
      rw [Nat.add_zero] at low
      simp [HasEntry, Block.direntInum, Block.u16, leNat, low, high]
  | some entry =>
      rw [found] at same
      have member := short entry (List.mem_of_getElem? found)
      exact ⟨dirent_inum same, dirent_name member same⟩

/-- The base name of an argument. -/
def nameOf (input : Input) : List UInt8 := (baseName input.path).getD []

/-- The arguments `mkfs` is meant for: files that open, under paths with a
slash, with base names that fit an entry and are not `.` or `..`. -/
structure Input.Proper (input : Input) : Prop where
  opens : input.contents.isSome
  slash : slash ∈ input.path
  noZero : 0 ∉ input.path
  nonempty : nameOf input ≠ []
  short : (nameOf input).length ≤ 13
  notSelf : nameOf input ≠ [dot]
  notParent : nameOf input ≠ [dot, dot]

theorem Input.Proper.isName {input : Input} (proper : Input.Proper input) :
    IsName (nameOf input) := by
  have base : nameOf input = (input.path.reverse.takeWhile fun c => c != 47).reverse := by
    simp [nameOf, baseName, proper.slash]
  rw [base]
  constructor
  · intro member
    have kept := List.all_eq_true.mp List.all_takeWhile 47 (List.mem_reverse.mp member)
    exact absurd kept (by decide)
  · intro member
    have path := (List.takeWhile_sublist _).mem (List.mem_reverse.mp member)
    exact proper.noZero (List.mem_reverse.mp path)

theorem rootEntries_plain {inputs : List Input} (few : inputs.length ≤ 98)
    (proper : ∀ input ∈ inputs, Input.Proper input) :
    ∀ entry ∈ rootEntries (inputs.map nameOf), Entry.Plain entry := by
  intro entry member
  simp only [rootEntries, List.mem_cons, List.mem_map, Prod.exists] at member
  rcases member with rfl | rfl | ⟨name, i, found, rfl⟩
  · exact ⟨by decide, by decide, ⟨by decide, by decide⟩, by decide⟩
  · exact ⟨by decide, by decide, ⟨by decide, by decide⟩, by decide⟩
  · obtain ⟨lower, upper, same⟩ := List.mem_zipIdx found
    rw [List.length_map] at upper
    simp only [Nat.sub_zero, List.getElem_map] at same
    rw [same]
    have good := proper _ (List.getElem_mem (by omega : i < inputs.length))
    refine ⟨Nat.succ_pos _, by simp only; omega, good.isName, ?_⟩
    exact Nat.lt_succ_of_le good.short

/-- The root directory that `main` leaves, as the kernel reads it. -/
theorem Built.directory {m : Mkfs.State} {inputs : List Input}
    (built : Built m (inputsOf inputs)) (few : inputs.length ≤ 98)
    (proper : ∀ input ∈ inputs, Input.Proper input) :
    Directory m.image ((dinodeAt m.image 1).load rootdev 1) (rootEntries (inputs.map nameOf)) := by
  have plain := rootEntries_plain few proper
  have names : (inputsOf inputs).map Prod.fst = inputs.map nameOf := by
    simp [inputsOf, nameOf, Function.comp_def]
  have short : ∀ entry ∈ rootEntries (inputs.map nameOf), entry.2.length < DIRSIZ :=
    fun entry member => (plain entry member).short
  have contents : filesOf (inputsOf inputs) 1 = dirBytes (rootEntries (inputs.map nameOf)) := by
    rw [filesOf, if_pos rfl, names]
  have count : (rootEntries (inputs.map nameOf)).length = inputs.length + 2 := by
    simp [rootEntries]
  have length : (dirBytes (rootEntries (inputs.map nameOf))).length =
      direntSize * (inputs.length + 2) := by
    rw [dirBytes_length short, count]
  have size : (dinodeAt m.image 1).size.toNat = direntSize * (inputs.length + 2) := by
    rw [built.holds.sizes 1 (by decide), contents, length]
  refine ⟨by rw [count]; exact size, ?_, plain, ?_⟩
  · rw [count]
    simp only [NDIRECT, direntsPerBlock, BSIZE, direntSize]
    omega
  · intro b j inside bound
    rw [count] at inside
    have direct : b < NDIRECT := by
      simp only [NDIRECT, direntsPerBlock, BSIZE, direntSize] at *
      omega
    refine hasEntry_of_bytes short b ?_ bound
    intro o inBlock
    have quotient : (BSIZE * b + o) / 512 = b := by
      simp only [BSIZE] at *
      omega
    have remainder : (BSIZE * b + o) % 512 = o := by
      simp only [BSIZE] at *
      omega
    have byte := built.holds.stored.bytes 1 (BSIZE * b + o) (by decide) (by
      rw [quotient, contents, length]
      simp only [shapeFor, direntsPerBlock, BSIZE, direntSize] at *
      omega)
    rw [quotient, remainder, contents, blockOf, if_pos direct] at byte
    exact byte

theorem find_zipIdx {names : List (List UInt8)} (distinct : names.Nodup) {i : Nat}
    (bound : i < names.length) (start : Nat) :
    ((names.zipIdx start).map fun entry => (entry.2 + 2, entry.1)).find?
      (fun entry => entry.2 = names[i]) = some (start + i + 2, names[i]) := by
  induction names generalizing i start with
  | nil => exact absurd bound (Nat.not_lt_zero i)
  | cons name rest ih =>
      rw [List.nodup_cons] at distinct
      cases i with
      | zero => simp [List.zipIdx_cons]
      | succ i =>
          have inside : i < rest.length := by simpa using bound
          have different : name ≠ rest[i] := fun same =>
            distinct.1 (same ▸ List.getElem_mem inside)
          rw [List.zipIdx_cons, List.map_cons, List.find?_cons_of_neg (by simpa using different)]
          have found := ih distinct.2 inside (start + 1)
          rw [Nat.add_assoc start 1 i, Nat.add_comm 1 i] at found
          exact found

theorem rootEntries_find {names : List (List UInt8)} (distinct : names.Nodup) {i : Nat}
    (bound : i < names.length) (notSelf : names[i] ≠ [dot]) (notParent : names[i] ≠ [dot, dot]) :
    (rootEntries names).find? (fun entry => entry.2 = names[i]) = some (i + 2, names[i]) := by
  unfold rootEntries
  rw [List.find?_cons_of_neg (by simpa using Ne.symm notSelf),
    List.find?_cons_of_neg (by simpa using Ne.symm notParent), find_zipIdx distinct bound 0,
    Nat.zero_add]

theorem rootEntries_find_none {names : List (List UInt8)} {name : List UInt8}
    (notSelf : name ≠ [dot]) (notParent : name ≠ [dot, dot]) (absent : name ∉ names) :
    (rootEntries names).find? (fun entry => entry.2 = name) = none := by
  rw [List.find?_eq_none]
  intro entry member
  simp only [rootEntries, List.mem_cons, List.mem_map, Prod.exists] at member
  rcases member with rfl | rfl | ⟨other, i, found, rfl⟩
  · simpa using Ne.symm notSelf
  · simpa using Ne.symm notParent
  · obtain ⟨-, _, same⟩ := List.mem_zipIdx found
    have present : other ∈ names := by
      rw [same]
      exact List.getElem_mem _
    simpa using fun equal : other = name => absent (equal ▸ present)

/-- The inode of file `i`, as `namei` has to return it. -/
structure FoundFile (disk : Nat → Block) (i : Nat) (bytes : List UInt8) (ip : Inode) : Prop where
  dev : ip.dev = rootdev
  inum : ip.inum = UInt32.ofNat (i + 2)
  type : ip.type = T_FILE
  nlink : ip.nlink = 1
  size : ip.size.toNat = bytes.length
  addrs : ip.addrs = (dinodeAt disk (i + 2)).addrs
  reads : contents disk (i + 2) = bytes

theorem Built.found {m : Mkfs.State} {inputs : List Input}
    (built : Built m (inputsOf inputs)) (few : inputs.length ≤ 98) {i : Nat}
    (bound : i < inputs.length) :
    FoundFile m.image i (inputs[i].contents.getD [])
      ((dinodeAt m.image (i + 2)).load rootdev (UInt32.ofNat (i + 2))) := by
  have inArea : i + 2 < ninodes := by
    simp only [ninodes]
    omega
  have file : filesOf (inputsOf inputs) (i + 2) = inputs[i].contents.getD [] := by
    have ne : i + 2 ≠ 1 := by omega
    simp [filesOf, ne, inputsOf, bound]
  have heads := built.heads i (by rw [inputsOf, List.length_map]; exact bound)
  simp only [head, Prod.mk.injEq] at heads
  refine ⟨rfl, rfl, heads.1, heads.2.2.2, ?_, rfl, ?_⟩
  · rw [← file, ← built.holds.sizes (i + 2) inArea]
    rfl
  · rw [← file]
    exact built.holds.contents_eq inArea

/-- On the image that `mkfs` makes, the kernel finds every file under its base
name, behind any number of slashes, and finds nothing under a name that was
not given. -/
theorem namei_agrees_with_mkfs (behind : Block) (inputs : List Input) (m : Mkfs.State)
    (completes : main behind inputs initial = .ok ((), m)) (few : inputs.length ≤ 98)
    (proper : ∀ input ∈ inputs, Input.Proper input) (distinct : (inputs.map nameOf).Nodup)
    (k : Fs.State) (disk : k.disk = m.image) (empty : EmptyTable k) (ready : k.bio.Ready 1)
    (after : List UInt8) :
    (∀ (slashes i : Nat) (bound : i < inputs.length),
      Yields (namei (List.replicate slashes slash ++ (nameOf inputs[i] ++ 0 :: after))) k
        fun result t => ∃ slot, result = some slot ∧
          FoundFile m.image i (inputs[i].contents.getD []) (t.inode slot)) ∧
    (∀ name, IsName name → name ≠ [] → name ∉ inputs.map nameOf → name ≠ [dot] →
      name ≠ [dot, dot] →
      Yields (namei (name ++ 0 :: after)) k fun result _ => result = none) := by
  have built : Built m (inputsOf inputs) :=
    (main_ensures behind inputs few (fun input member => (proper input member).slash) () m
      completes).1
  have type : (dinodeAt k.disk 1).type = T_DIR := by
    have root := built.root
    simp only [head, Prod.mk.injEq] at root
    rw [disk]
    exact root.1
  have directory : Directory k.disk ((dinodeAt k.disk 1).load rootdev 1)
      (rootEntries (inputs.map nameOf)) := by
    rw [disk]
    exact Built.directory built few proper
  constructor
  · intro slashes i bound
    have good := proper inputs[i] (List.getElem_mem bound)
    have place : i < (inputs.map nameOf).length := by rwa [List.length_map]
    have name : (inputs.map nameOf)[i] = nameOf inputs[i] := List.getElem_map nameOf
    have hit := rootEntries_find distinct place (by rw [name]; exact good.notSelf)
      (by rw [name]; exact good.notParent)
    rw [name] at hit
    refine (namei_yields slashes after empty ready type directory good.isName good.nonempty).mono ?_
    rintro result t ⟨-, outcome⟩
    rw [hit] at outcome
    obtain ⟨slot, rfl, loaded⟩ := outcome
    refine ⟨slot, rfl, ?_⟩
    rw [loaded, disk]
    exact Built.found built few bound
  · intro name ok nonempty absent notSelf notParent
    refine (namei_yields 0 after empty ready type directory ok nonempty).mono ?_
    rintro result t ⟨-, outcome⟩
    rw [rootEntries_find_none notSelf notParent absent] at outcome
    exact outcome

/-- `mkfs fs.img u/a`, for a file of one byte. -/
def oneFile : Input where
  path := [117, 47, 97]
  contents := some [7]

theorem oneFile_completes :
    Yields (main Block.zero [oneFile]) initial fun _ _ => True := by
  unfold main
  refine Yields.seq (format_yields Block.zero) ?_
  intro _ s formatted
  have first := formatted.freeinode
  refine Yields.seq (ialloc_yields formatted.holds T_DIR (by rw [first]; decide) rfl) ?_
  rintro rootino t ⟨rfl, next, holdsT, -, -⟩
  rw [first] at next ⊢
  refine Yields.step (Act.stopIf_of_not _ t (by decide)) ?_
  refine Yields.seq (enter_yields holdsT 1 (by decide) (by decide) (by decide +kernel)) ?_
  rintro _ u ⟨holdsU, headsU⟩
  refine Yields.seq (enter_yields holdsU 1 (by decide) (by decide) (by decide +kernel)) ?_
  rintro _ v ⟨holdsV, headsV⟩
  have second : v.freeinode = 2 := by rw [headsV.freeinode, headsU.freeinode, next]
  have file : Yields (addFile 1 oneFile) v fun _ w => ∃ files, Holds w files ∧ demand files ≤ 8 := by
    unfold addFile
    refine Yields.seq (ialloc_yields holdsV T_FILE (by rw [second]; decide)
      (by rw [second]; rfl)) ?_
    rintro inum w ⟨rfl, -, holdsW, -, -⟩
    rw [second]
    refine Yields.seq (enter_yields holdsW 2 (by decide) (by decide) (by decide +kernel)) ?_
    rintro _ x ⟨holdsX, -⟩
    have copy : copyFile 2 1 [7] = (iappend 2 [7] >>= fun _ => copyFile 2 0 []) := rfl
    show Yields (copyFile 2 1 [7]) x _
    rw [copy]
    refine Yields.seq (iappend_yields holdsX (by decide) [7] (by decide) (by decide +kernel)) ?_
    rintro _ y ⟨holdsY, -⟩
    exact ⟨(), y, rfl, _, holdsY, by decide +kernel⟩
  have files : Yields (addFiles 1 [oneFile]) v fun _ w =>
      ∃ files, Holds w files ∧ demand files ≤ 8 :=
    Yields.seq file fun _ w done => ⟨(), w, rfl, done⟩
  refine Yields.seq files ?_
  rintro _ w ⟨files, holdsW, small⟩
  refine Yields.step (t := w) (a := w.usedblocks) rfl ?_
  have used : w.usedblocks ≤ BPB := by
    rw [holdsW.used, holdsW.count]
    simp only [firstData, ninodes, IPB, bitblocks, size, BPB, BSIZE]
    omega
  exact ⟨(), _, Act.bind_of_ok (Act.stopIf_of_not _ w (Nat.not_lt.mpr used)), trivial⟩

/-- A kernel that has just started, on a card with this image. -/
def started (image : Nat → Block) : Fs.State where
  bio := ⟨⟨image, []⟩, fun _ => ⟨false, Block.zero⟩⟩
  inode := fun _ =>
    { dev := 0, major := 0, minor := 0, inum := 0, count := 0, busy := false, type := 0,
      nlink := 0, size := 0, addrs := fun _ => 0 }
  cons := ⟨fun _ => 0, 0, 0, []⟩
  wakeups := []

theorem started_ready (image : Nat → Block) : (started image).bio.Ready 1 := by
  refine ⟨rfl, ?_⟩
  have all : (started image).bio.freeCount = NBUF := by
    simp [Bio.freeCount, Bio.busy, started]
  rw [all]
  decide

theorem oneFile_found :
    ∃ m : Mkfs.State, main Block.zero [oneFile] initial = .ok ((), m) ∧
      Yields (namei [47, 97, 0]) (started m.image) (fun result t => ∃ slot,
        result = some slot ∧ FoundFile m.image 0 [7] (t.inode slot)) ∧
      Yields (namei [98, 0]) (started m.image) (fun result _ => result = none) := by
  obtain ⟨⟨⟩, m, completes, -⟩ := oneFile_completes
  have proper : ∀ input ∈ [oneFile], Input.Proper input := by
    intro input member
    rw [List.mem_singleton.mp member]
    exact ⟨by decide, by decide, by decide, by decide, by decide, by decide, by decide⟩
  have agrees := namei_agrees_with_mkfs Block.zero [oneFile] m completes (by decide) proper
    (by decide) (started m.image) rfl (fun _ => rfl) (started_ready _) []
  exact ⟨m, completes, agrees.1 1 0 (by decide),
    agrees.2 [98] ⟨by decide, by decide⟩ (by decide) (by decide) (by decide) (by decide)⟩

end Gcgos
