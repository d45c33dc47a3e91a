import Gcgos.Mkfs.Intact
import Gcgos.Names

/-!
# What fits on an image

`mkfs` has no check of its arguments before it starts. With at most 98 files its
run ends exactly when every name fits an entry, every file fits an inode, and the
root directory and the files together fit the data blocks.
-/

set_option autoImplicit false

namespace Gcgos

open Fs Mkfs Act ByteMap

/-- The data blocks for the root directory and the files, block tables
included. -/
def blocksNeeded (inputs : List Input) : Nat :=
  (shapeFor (direntSize * (inputs.length + 2))).cost +
    (inputs.map fun input => (shapeFor (input.contents.getD []).length).cost).sum

/-- Arguments that an image has room for. -/
structure FitsImage (inputs : List Input) : Prop where
  named : ∀ input ∈ inputs, input.Named
  limit : ∀ input ∈ inputs, (input.contents.getD []).length ≤ MAXFILE * 512
  room : firstData + blocksNeeded inputs ≤ size

/-! ## What the calls append -/

theorem appended_append (first second : List Call) (n : Nat) :
    appended (first ++ second) n = appended first n ++ appended second n := by
  induction first with
  | nil => rfl
  | cons call rest ih =>
      cases call with
      | ialloc type => exact ih
      | iappend inum bytes =>
          rw [List.cons_append, appended, appended, ih, List.append_assoc]

theorem appended_pieces (inum : Nat) (bytes : List (List UInt8)) (n : Nat) :
    appended (bytes.map (.iappend inum)) n = if inum = n then bytes.flatten else [] := by
  induction bytes with
  | nil => simp [appended]
  | cons piece rest ih =>
      rw [List.map_cons, appended, ih]
      by_cases here : inum = n
      · rw [if_pos here, if_pos here, if_pos here, List.flatten_cons]
      · rw [if_neg here, if_neg here, if_neg here, List.append_nil]

theorem pieces_flatten (fuel : Nat) (contents : List UInt8) (enough : contents.length ≤ fuel) :
    (pieces fuel contents).flatten = contents := by
  induction fuel generalizing contents with
  | zero => exact (List.eq_nil_of_length_eq_zero (by omega)).symm
  | succ fuel ih =>
      rw [pieces]
      by_cases empty : contents = []
      · rw [if_pos empty, empty]
        rfl
      · have positive := List.length_pos_iff.mpr empty
        rw [if_neg empty, List.flatten_cons, ih _ (by rw [List.length_drop]; omega),
          List.take_append_drop]

theorem appended_fileCalls (inum : Nat) (input : Input) (n : Nat) :
    appended (fileCalls inum input) n =
      (if 1 = n then dirent inum (nameOf input) else []) ++
        if inum = n then input.contents.getD [] else [] := by
  rw [fileCalls, appended, appended, appended_pieces, pieces_flatten _ _ le_rfl]
  rfl

theorem dirBytes_cons (inum : Nat) (name : List UInt8) (rest : List Entry) :
    dirBytes ((inum, name) :: rest) = dirent inum name ++ dirBytes rest := List.flatMap_cons

/-- One entry for each file, and the contents under the numbers from `inum` on. -/
theorem appended_filesCalls (inputs : List Input) {inum : Nat} (root : 2 ≤ inum) (n : Nat) :
    appended (filesCalls inum inputs) n =
      if n = 1 then
        dirBytes ((inputs.map nameOf).zipIdx.map fun entry => (entry.2 + inum, entry.1))
      else if n < inum then []
      else (inputs.map fun input => input.contents.getD []).getD (n - inum) [] := by
  induction inputs generalizing inum with
  | nil => simp [filesCalls, appended, dirBytes]
  | cons input rest ih =>
      rw [filesCalls, appended_append, appended_fileCalls, ih (by omega)]
      by_cases first : n = 1
      · subst first
        rw [if_pos rfl, if_neg (by omega), if_pos rfl, if_pos rfl, List.append_nil, List.map_cons,
          List.zipIdx_cons', List.map_cons, List.map_map, dirBytes_cons, Nat.zero_add]
        congr 3
        funext entry
        have number : entry.2 + (inum + 1) = entry.2 + 1 + inum := by omega
        exact Prod.ext number rfl
      · rw [if_neg (Ne.symm first), if_neg first, if_neg first, List.nil_append]
        by_cases here : inum = n
        · subst here
          rw [if_pos rfl, if_pos (Nat.lt_succ_self _), if_neg (Nat.lt_irrefl _), List.append_nil,
            Nat.sub_self]
          rfl
        · rw [if_neg here, List.nil_append]
          by_cases below : n < inum
          · rw [if_pos (by omega), if_pos below]
          · rw [if_neg (by omega), if_neg below, List.map_cons,
              show n - inum = n - (inum + 1) + 1 by omega]
            rfl

/-- The calls of `main` append the root directory and the files. -/
theorem appended_mainCalls (inputs : List Input) :
    appended (mainCalls inputs) = filesOf (inputsOf inputs) := by
  funext n
  have names : (inputsOf inputs).map Prod.fst = inputs.map nameOf := by
    simp [inputsOf, nameOf]
  have contents : (inputsOf inputs).map Prod.snd =
      inputs.map fun input => input.contents.getD [] := by
    simp [inputsOf]
  rw [mainCalls, appended, appended, appended, appended_filesCalls inputs le_rfl, filesOf, names,
    contents]
  by_cases root : n = 1
  · subst root
    simp only [if_true]
    rw [rootEntries, dirBytes_cons, dirBytes_cons]
  · simp only [root, Ne.symm root, if_false, List.nil_append]

/-! ## What they cost -/

theorem filesOf_length {done : List (List UInt8 × List UInt8)}
    (short : ∀ file ∈ done, file.1.length < DIRSIZ) :
    (filesOf done 1).length = direntSize * (done.length + 2) := by
  have entries : ∀ entry ∈ rootEntries (done.map Prod.fst), entry.2.length < DIRSIZ := by
    intro entry member
    simp only [rootEntries, List.mem_cons, List.mem_map, Prod.exists] at member
    rcases member with rfl | rfl | ⟨name, i, found, rfl⟩
    · decide
    · decide
    · obtain ⟨-, -, same⟩ := List.mem_zipIdx found
      obtain ⟨file, given, rfl⟩ := List.mem_map.mp (same ▸ List.getElem_mem _)
      exact short file given
  rw [filesOf, if_pos rfl, dirBytes_length entries]
  simp [rootEntries]

/-- Files that are added one by one. -/
theorem filesOf_demand (done : List (List UInt8 × List UInt8)) (few : done.length ≤ 98)
    (short : ∀ file ∈ done, file.1.length < DIRSIZ) :
    demand (filesOf done) = (shapeFor (direntSize * (done.length + 2))).cost +
      (done.map fun file => (shapeFor file.2.length).cost).sum := by
  induction done using List.reverseRecOn with
  | nil => decide +kernel
  | append_singleton done file ih =>
      obtain ⟨name, bytes⟩ := file
      rw [List.length_append, List.length_singleton] at few
      have before := ih (by omega) fun other given => short other (List.mem_append_left _ given)
      have width := filesOf_length fun other given => short other (List.mem_append_left _ given)
      have named : name.length < DIRSIZ := short (name, bytes) (by simp)
      have entry := demand_update (filesOf done) (n := 1) (by decide)
        (filesOf done 1 ++ dirent (done.length + 2) name)
      have contents := demand_update (Function.update (filesOf done) 1
        (filesOf done 1 ++ dirent (done.length + 2) name)) (n := done.length + 2)
        (by simp only [ninodes]; omega) bytes
      have fresh : filesOf done (done.length + 2) = [] := by simp [filesOf]
      have zero : (shapeFor ([] : List UInt8).length).cost = 0 := rfl
      rw [Function.update_of_ne (by omega), fresh, zero, ← filesOf_append] at contents
      rw [List.length_append, width, dirent_length _ named] at entry
      rw [List.length_append, List.length_singleton, List.map_append, List.sum_append, List.map_cons,
        List.map_nil, List.sum_singleton,
        show direntSize * (done.length + 1 + 2) = direntSize * (done.length + 2) + direntSize by ring]
      simp only
      omega

theorem inputsOf_demand {inputs : List Input} (few : inputs.length ≤ 98)
    (named : ∀ input ∈ inputs, input.Named) :
    demand (filesOf (inputsOf inputs)) = blocksNeeded inputs := by
  have short : ∀ file ∈ inputsOf inputs, file.1.length < DIRSIZ := by
    intro file given
    obtain ⟨input, member, rfl⟩ := List.mem_map.mp given
    exact (named input member).short
  have whole : (inputsOf inputs).length = inputs.length := List.length_map _
  rw [filesOf_demand _ (by rw [whole]; exact few) short, blocksNeeded, whole, inputsOf, List.map_map]
  rfl

/-! ## Runs that end -/

/-- Arguments that fit are put on the image. -/
theorem main_yields (behind : Block) {inputs : List Input} (few : inputs.length ≤ 98)
    (fits : FitsImage inputs) : Yields (main behind inputs) initial fun _ _ => True := by
  refine Yields.congr (main_calls behind fits.named) ?_
  refine Yields.seq (format_yields behind) ?_
  intro _ s formatted
  have first := formatted.freeinode
  have demanded := inputsOf_demand few fits.named
  have room := fits.room
  have same : (fun n => [] ++ appended (mainCalls inputs) n) = filesOf (inputsOf inputs) := by
    rw [← appended_mainCalls]
    rfl
  have lengths : ∀ n, ([] ++ appended (mainCalls inputs) n).length ≤ MAXFILE * 512 := by
    intro n
    rw [List.nil_append, appended_mainCalls]
    by_cases root : n = 1
    · subst root
      rw [filesOf_length fun file given => ?_]
      · have whole : (inputsOf inputs).length = inputs.length := List.length_map _
        rw [whole]
        simp only [direntSize, MAXFILE, NDIRECT, NINDIRECT]
        omega
      · obtain ⟨input, member, rfl⟩ := List.mem_map.mp given
        exact (fits.named input member).short
    · simp only [filesOf, root, if_false]
      split
      · exact Nat.zero_le _
      · rw [List.getD_eq_getElem?_getD]
        cases found : ((inputsOf inputs).map Prod.snd)[n - 2]? with
        | none => exact Nat.zero_le _
        | some bytes =>
            obtain ⟨file, given, rfl⟩ := List.mem_map.mp (List.mem_of_getElem? found)
            obtain ⟨input, member, rfl⟩ := List.mem_map.mp given
            exact fits.limit input member
  refine Yields.seq (runCalls_yields (mainCalls inputs) formatted.holds
    (by rw [first]; decide) (fun _ _ => rfl) (by rw [first]; exact valid_mainCalls few) lengths
    (by rw [same, demanded]; exact room)) ?_
  intro _ t holds
  rw [same] at holds
  have used : t.usedblocks ≤ BPB := by
    rw [holds.used, holds.count, demanded]
    exact room.trans (by decide)
  exact ⟨(), _, Act.bind_of_ok (s := t) (Act.stopIf_of_not _ t (Nat.not_lt.mpr used)), trivial⟩

/-- A run over files ends only if their names fit. -/
theorem addFiles_named (inputs : List Input) (s : Mkfs.State) :
    Ensures (addFiles 1 inputs) s fun _ _ => ∀ input ∈ inputs, input.Named := by
  induction inputs generalizing s with
  | nil => exact Ensures.pure (List.forall_mem_nil _)
  | cons input rest ih =>
      have one : Ensures (addFile 1 input) s fun _ _ => input.Named := by
        unfold addFile
        refine Ensures.seq (m := fun _ _ => True) (fun _ _ _ => trivial) fun inum t _ => ?_
        cases base : baseName input.path with
        | none => exact Ensures.fail
        | some name =>
            have slash : 47 ∈ input.path := by
              by_contra absent
              rw [baseName, if_neg absent] at base
              cases base
            refine Ensures.seq (m := fun _ _ => input.Named) ?_ fun _ _ named _ _ _ => named
            unfold enter
            refine Ensures.guard fun short => ?_
            have named : input.Named := ⟨slash, by rw [base]; exact Nat.not_le.mp short⟩
            exact fun _ _ _ => named
      refine Ensures.seq one fun _ t named => ?_
      exact (ih t).mono fun _ _ others => List.forall_mem_cons.mpr ⟨named, others⟩

theorem main_named (behind : Block) (inputs : List Input) :
    Ensures (main behind inputs) initial fun _ _ => ∀ input ∈ inputs, input.Named := by
  rw [main]
  refine Ensures.seq (m := fun _ _ => True) (fun _ _ _ => trivial) fun _ s _ => ?_
  refine Ensures.seq (m := fun _ _ => True) (fun _ _ _ => trivial) fun rootino t _ => ?_
  refine Ensures.guard fun root => ?_
  obtain rfl := not_not.mp root
  refine Ensures.seq (m := fun _ _ => True) (fun _ _ _ => trivial) fun _ u _ => ?_
  refine Ensures.seq (m := fun _ _ => True) (fun _ _ _ => trivial) fun _ v _ => ?_
  exact Ensures.seq (addFiles_named inputs v) fun _ _ named _ _ _ => named

/-- With at most 98 files `mkfs` ends exactly when they fit. -/
theorem mkfs_ends_iff (behind : Block) (inputs : List Input) (few : inputs.length ≤ 98) :
    (∃ m, main behind inputs initial = .ok ((), m)) ↔ FitsImage inputs := by
  constructor
  · rintro ⟨m, completes⟩
    have named := main_named behind inputs () m completes
    obtain ⟨built, -, -⟩ := main_ensures behind inputs few (fun input given =>
      (named input given).slash) () m completes
    refine ⟨named, fun input given => ?_, ?_⟩
    · obtain ⟨i, bound, rfl⟩ := List.getElem_of_mem given
      have blocks := (built.holds.stored.filed.tidy (i + 2) (by simp only [ninodes]; omega)).limit
      have file : filesOf (inputsOf inputs) (i + 2) = inputs[i].contents.getD [] := by
        simp [filesOf, inputsOf, bound]
      simp only [file, shapeFor] at blocks
      omega
    · rw [← inputsOf_demand few named, ← built.holds.count]
      exact built.fits
  · intro fits
    obtain ⟨⟨⟩, m, completes, -⟩ := main_yields behind few fits
    exact ⟨m, completes⟩

theorem blocksNeeded_pair (first second : Input) : blocksNeeded [first, second] =
    (shapeFor (direntSize * 4)).cost + ((shapeFor (first.contents.getD []).length).cost +
      (shapeFor (second.contents.getD []).length).cost) := by
  simp [blocksNeeded]

-- The length is a variable, so that the kernel does not build the file.
theorem fitsImage_largest {path : List UInt8} {n : Nat}
    (named : (⟨path, some (List.replicate n 7)⟩ : Input).Named) (count : n = MAXFILE * 512) :
    FitsImage [oneFile, ⟨path, some (List.replicate n 7)⟩] := by
  constructor
  case named =>
    intro input given
    simp only [List.mem_cons, List.not_mem_nil, or_false] at given
    rcases given with rfl | rfl
    · exact ⟨by decide, by decide⟩
    · exact named
  case limit =>
    intro input given
    simp only [List.mem_cons, List.not_mem_nil, or_false] at given
    rcases given with rfl | rfl
    · decide
    · rw [Option.getD_some, List.length_replicate, count]
  case room =>
    have alone : (oneFile.contents.getD []).length = 1 := rfl
    rw [blocksNeeded_pair, alone, Option.getD_some, List.length_replicate, count]
    decide +kernel

/-- The largest file fits beside a file of one byte. -/
theorem mkfs_ends_iff_two :
    ∃ m, main Block.zero [oneFile, ⟨[117, 47, 98], some (List.replicate (MAXFILE * 512) 7)⟩]
      initial = .ok ((), m) :=
  (mkfs_ends_iff Block.zero _ (by decide)).mpr (fitsImage_largest ⟨by decide, by decide⟩ rfl)

end Gcgos
