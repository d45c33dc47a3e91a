import Gcgos.Mkfs.Calls

/-!
# What `main` leaves on the image

A run of `main` over at most 98 files that ends has made the root directory as
inode 1, with one entry for every file behind `.` and `..`, and the files as
inodes 2, 3 and so on, each with the bytes of its argument.
-/

set_option autoImplicit false

namespace Gcgos.Mkfs

open Fs Act ByteMap

/-- An `iappend` that returns had room. -/
theorem iappend_ensures {s : State} {files : Nat → List UInt8} (holds : Holds s files)
    (fits : s.freeblock ≤ size) {n : Nat} (inArea : n < ninodes) (p : List UInt8) :
    Ensures (iappend n p) s fun _ t =>
      Holds t (Function.update files n (files n ++ p)) ∧ SameHeads s t n ∧
        t.freeblock ≤ size := by
  intro _ t returned
  have length : (dinodeAt s.image n).size.toNat = (files n).length := holds.sizes n inArea
  have split := returned
  unfold iappend at split
  rw [Act.bind_of_ok (rinode_run inArea holds.whole), length] at split
  obtain ⟨result, u, loop, -⟩ := Act.bind_eq_ok.mp split
  obtain ⟨limit, room⟩ := iappendLoop_fits p.length p holds.stored inArea rfl holds.whole fits
    (le_refl _) result u loop
  have cost := demand_update files inArea (files n ++ p)
  rw [List.length_append] at cost
  have count := holds.count
  have space : firstData + demand (Function.update files n (files n ++ p)) ≤ size := by omega
  obtain ⟨holdsT, heads⟩ := (iappend_yields holds inArea p limit space).ensures () t returned
  exact ⟨holdsT, heads, by rw [holdsT.count]; exact space⟩

theorem SameHeads.trans {s t u : State} {n : Nat} (left : SameHeads s t n)
    (right : SameHeads t u n) : SameHeads s u n :=
  ⟨right.here.trans left.here, fun m inArea different =>
    (right.other m inArea different).trans (left.other m inArea different),
    right.freeinode.trans left.freeinode, right.first.trans left.first⟩

/-- Whatever pieces a file is read in, its bytes are appended in order. -/
theorem copyFile_ensures (fuel : Nat) (bytes : List UInt8) {s : State}
    {files : Nat → List UInt8} (holds : Holds s files) (fits : s.freeblock ≤ size) {n : Nat}
    (inArea : n < ninodes) (enough : bytes.length ≤ fuel) :
    Ensures (copyFile n fuel bytes) s fun _ t =>
      Holds t (Function.update files n (files n ++ bytes)) ∧ SameHeads s t n ∧
        t.freeblock ≤ size := by
  induction fuel generalizing bytes s files with
  | zero =>
      have empty : bytes = [] := List.eq_nil_of_length_eq_zero (by omega)
      subst empty
      apply Ensures.pure
      rw [List.append_nil, Function.update_eq_self]
      exact ⟨holds, ⟨rfl, fun _ _ _ => rfl, rfl, rfl⟩, fits⟩
  | succ fuel ih =>
      unfold copyFile
      refine Ensures.ite (fun empty => ?_) fun nonempty => ?_
      · subst empty
        apply Ensures.pure
        rw [List.append_nil, Function.update_eq_self]
        exact ⟨holds, ⟨rfl, fun _ _ _ => rfl, rfl, rfl⟩, fits⟩
      · have positive : 0 < bytes.length := List.length_pos_iff.mpr nonempty
        refine Ensures.seq (iappend_ensures holds fits inArea _) ?_
        rintro _ t ⟨holdsT, heads, fitsT⟩
        refine (ih (bytes.drop 512) holdsT fitsT (by rw [List.length_drop]; omega)).mono ?_
        rintro _ u ⟨holdsU, headsU, fitsU⟩
        rw [Function.update_idem, Function.update_self, List.append_assoc,
          List.take_append_drop] at holdsU
        exact ⟨holdsU, heads.trans headsU, fitsU⟩

/-- The entries of the root directory: `.`, `..` and the files. -/
def rootEntries (names : List (List UInt8)) : List (Nat × List UInt8) :=
  (1, [dot]) :: (1, [dot, dot]) :: names.zipIdx.map fun entry => (entry.2 + 2, entry.1)

theorem rootEntries_append (names : List (List UInt8)) (name : List UInt8) :
    rootEntries (names ++ [name]) = rootEntries names ++ [(names.length + 2, name)] := by
  simp [rootEntries, List.zipIdx_append]

theorem dirent_length (inum : Nat) {name : List UInt8} (short : name.length < DIRSIZ) :
    (dirent inum name).length = direntSize := by
  simp only [dirent, List.length_append, leBytes_length, List.length_replicate, DIRSIZ,
    direntSize] at *
  omega

/-- The bytes of a directory. -/
def dirBytes (entries : List (Nat × List UInt8)) : List UInt8 :=
  entries.flatMap fun entry => dirent entry.1 entry.2

theorem dirBytes_append (entries : List (Nat × List UInt8)) (inum : Nat) (name : List UInt8) :
    dirBytes (entries ++ [(inum, name)]) = dirBytes entries ++ dirent inum name := by
  simp [dirBytes]

/-- What each inode holds once the files in `done` have been added. -/
def filesOf (done : List (List UInt8 × List UInt8)) (n : Nat) : List UInt8 :=
  if n = 1 then dirBytes (rootEntries (done.map Prod.fst))
  else if n < 2 then []
  else (done.map Prod.snd).getD (n - 2) []

/-- The image in the middle of `main`, with the files in `done` on it. -/
structure Built (s : State) (done : List (List UInt8 × List UInt8)) : Prop where
  few : done.length ≤ 98
  holds : Holds s (filesOf done)
  freeinode : s.freeinode = done.length + 2
  fits : s.freeblock ≤ size
  root : head (dinodeAt s.image 1) = (T_DIR, 0, 0, 1)
  heads : ∀ i, i < done.length → head (dinodeAt s.image (i + 2)) = (T_FILE, 0, 0, 1)
  super : superOf s.image =
    ⟨UInt32.ofNat size, UInt32.ofNat nblocks, UInt32.ofNat ninodes⟩

theorem enter_ensures {s : State} {files : Nat → List UInt8} (holds : Holds s files)
    (fits : s.freeblock ≤ size) (inum : Nat) (name : List UInt8) :
    Ensures (enter 1 inum name) s fun _ t =>
      Holds t (Function.update files 1 (files 1 ++ dirent inum name)) ∧ SameHeads s t 1 ∧
        t.freeblock ≤ size := by
  unfold enter
  refine Ensures.guard fun _ => ?_
  exact iappend_ensures holds fits (by decide) _

theorem enter_yields {s : State} {files : Nat → List UInt8} (holds : Holds s files)
    (inum : Nat) {name : List UInt8} (short : name.length < DIRSIZ)
    (limit : (files 1).length + (dirent inum name).length ≤ MAXFILE * 512)
    (room : firstData + demand (Function.update files 1 (files 1 ++ dirent inum name)) ≤ size) :
    Yields (enter 1 inum name) s fun _ t =>
      Holds t (Function.update files 1 (files 1 ++ dirent inum name)) ∧ SameHeads s t 1 := by
  unfold enter
  refine Yields.step (Act.stopIf_of_not _ s (by omega)) ?_
  exact iappend_yields holds (by decide) _ limit room

/-- One more file. -/
theorem filesOf_append (done : List (List UInt8 × List UInt8)) (name bytes : List UInt8) :
    filesOf (done ++ [(name, bytes)]) =
      Function.update (Function.update (filesOf done) 1
        (filesOf done 1 ++ dirent (done.length + 2) name)) (done.length + 2) bytes := by
  funext n
  by_cases new : n = done.length + 2
  · subst new
    rw [Function.update_self]
    simp [filesOf]
  · rw [Function.update_of_ne new]
    by_cases root : n = 1
    · subst root
      rw [Function.update_self]
      simp only [filesOf, if_true, List.map_append, List.map_cons, List.map_nil]
      rw [rootEntries_append, dirBytes_append, List.length_map]
    · rw [Function.update_of_ne root]
      simp only [filesOf, root, if_false]
      split
      · rfl
      · rw [List.map_append]
        by_cases old : n - 2 < done.length
        · rw [List.getD_append _ _ _ _ (by rw [List.length_map]; exact old)]
        · rw [List.getD_eq_default _ _ (by simp; omega), List.getD_eq_default _ _ (by simp; omega)]

theorem addFile_ensures {s : State} {done : List (List UInt8 × List UInt8)} (built : Built s done)
    (few : done.length < 98) (input : Input) {name : List UInt8}
    (base : baseName input.path = some name) :
    Ensures (addFile 1 input) s fun _ t =>
      Built t (done ++ [(name, input.contents.getD [])]) := by
  have inArea : s.freeinode < ninodes := by
    rw [built.freeinode]
    simp only [ninodes]
    omega
  have empty : filesOf done s.freeinode = [] := by
    rw [built.freeinode]
    have high : done.length + 2 ≠ 1 ∧ ¬done.length + 2 < 2 := by omega
    simp [filesOf, high.1]
  unfold addFile
  refine Ensures.seq (ialloc_yields built.holds T_FILE inArea empty).ensures ?_
  rintro inum t ⟨rfl, next, holdsT, dinodes, firstT⟩
  have fitsT : t.freeblock ≤ size := by
    rw [holdsT.count, ← built.holds.count]
    exact built.fits
  rw [base]
  rw [built.freeinode] at inArea empty dinodes ⊢
  refine Ensures.seq (enter_ensures holdsT fitsT _ name) ?_
  rintro _ u ⟨holdsU, headsU, fitsU⟩
  refine (copyFile_ensures _ (input.contents.getD []) holdsU fitsU inArea (le_refl _)).mono ?_
  rintro _ v ⟨holdsV, headsV, fitsV⟩
  have apart : done.length + 2 ≠ 1 := by omega
  have inode : ∀ m, m < ninodes → head (dinodeAt v.image m) = head (dinodeAt t.image m) := by
    intro m inAreaM
    have first : head (dinodeAt u.image m) = head (dinodeAt t.image m) := by
      by_cases root : m = 1
      · subst root
        exact headsU.here
      · rw [headsU.other m inAreaM root]
    by_cases new : m = done.length + 2
    · subst new
      exact headsV.here.trans first
    · rw [headsV.other m inAreaM new]
      exact first
  refine ⟨by rw [List.length_append, List.length_singleton]; omega, ?_, ?_, fitsV, ?_, ?_, ?_⟩
  · rw [filesOf_append]
    rw [Function.update_of_ne apart, empty, List.nil_append] at holdsV
    exact holdsV
  · rw [headsV.freeinode, headsU.freeinode, next, built.freeinode, List.length_append,
      List.length_singleton]
  · rw [inode 1 (by decide), dinodes, if_neg (Ne.symm apart)]
    exact built.root
  · intro i bound
    rw [List.length_append, List.length_singleton] at bound
    rw [inode (i + 2) (by simp only [ninodes]; omega), dinodes]
    by_cases last : i = done.length
    · rw [if_pos (by omega)]
      rfl
    · rw [if_neg (by omega)]
      exact built.heads i (by omega)
  · unfold superOf
    rw [headsV.first, headsU.first, firstT]
    exact built.super

theorem dinodeAt_bitmap (s : State) (bits : Block) {n : Nat} (inArea : n < ninodes) :
    dinodeAt (s.write (ninodes / IPB + 3) bits).image n = dinodeAt s.image n := by
  have sector := inode_sector inArea
  have other : IBLOCK n ≠ ninodes / IPB + 3 := Nat.ne_of_lt sector.2
  simp only [dinodeAt, State.write, Function.update_of_ne other]

/-- The bitmap block is neither an inode block nor a data block. -/
theorem Built.bitmap {s : State} {done : List (List UInt8 × List UInt8)} (built : Built s done)
    (bits : Block) : Built (s.write (ninodes / IPB + 3) bits) done := by
  have dinodes := fun n (inArea : n < ninodes) => dinodeAt_bitmap s bits inArea
  have holds := built.holds
  have few := built.few
  refine ⟨few, ⟨?_, ?_, holds.whole, holds.used, holds.count⟩, built.freeinode, built.fits, ?_, ?_,
    built.super⟩
  · have data : Stored (fun n => (dinodeAt s.image n).addrs)
        (s.write (ninodes / IPB + 3) bits).image s.freeblock (filesOf done) :=
      holds.stored.low fun b beyond => Function.update_of_ne (by
        simp only [firstData, bitblocks] at beyond
        omega) _ _
    refine data.congr fun n inArea => ?_
    rw [dinodes n inArea]
  · intro n inArea
    rw [dinodes n inArea]
    exact holds.sizes n inArea
  · rw [dinodes 1 (by decide)]
    exact built.root
  · intro i bound
    rw [dinodes (i + 2) (by simp only [ninodes]; omega)]
    exact built.heads i bound

/-- The names and contents of the arguments. -/
def inputsOf (inputs : List Input) : List (List UInt8 × List UInt8) :=
  inputs.map fun input => ((baseName input.path).getD [], input.contents.getD [])

theorem addFiles_ensures (inputs : List Input) {s : State}
    {done : List (List UInt8 × List UInt8)} (built : Built s done)
    (few : done.length + inputs.length ≤ 98)
    (slashes : ∀ input ∈ inputs, 47 ∈ input.path) :
    Ensures (addFiles 1 inputs) s fun _ t => Built t (done ++ inputsOf inputs) := by
  induction inputs generalizing s done with
  | nil =>
      apply Ensures.pure
      simpa [inputsOf] using built
  | cons input rest ih =>
      rw [List.length_cons] at few
      have base : baseName input.path = some ((baseName input.path).getD []) := by
        have slash := slashes input List.mem_cons_self
        simp [baseName, slash]
      unfold addFiles
      refine Ensures.seq (addFile_ensures built (by omega) input base) ?_
      intro _ t next
      refine (ih next (by rw [List.length_append, List.length_singleton]; omega)
        fun other member => slashes other (List.mem_cons_of_mem _ member)).mono ?_
      intro _ u final
      rw [List.append_assoc] at final
      exact final

/-- The image that `main` leaves. -/
theorem main_ensures (behind : Block) (inputs : List Input) (few : inputs.length ≤ 98)
    (slashes : ∀ input ∈ inputs, 47 ∈ input.path) :
    Ensures (main behind inputs) initial fun _ t => Built t (inputsOf inputs) ∧
      t.freeblock ≤ BPB ∧ t.image (ninodes / IPB + 3) = setBits t.freeblock 0 Block.zero := by
  unfold main
  refine Ensures.seq (format_yields behind).ensures ?_
  intro _ s formatted
  have inArea : s.freeinode < ninodes := by
    rw [formatted.freeinode]
    decide
  refine Ensures.seq (ialloc_yields formatted.holds T_DIR inArea rfl).ensures ?_
  rintro rootino t ⟨rfl, next, holdsT, dinodes, firstT⟩
  rw [formatted.freeinode] at next dinodes ⊢
  have fitsT : t.freeblock ≤ size := by
    rw [holdsT.count, ← formatted.holds.count, formatted.holds.count]
    decide +kernel
  refine Ensures.step (Act.stopIf_of_not _ t (by decide)) ?_
  refine Ensures.seq (enter_ensures holdsT fitsT 1 [dot]) ?_
  rintro _ u ⟨holdsU, headsU, fitsU⟩
  refine Ensures.seq (enter_ensures holdsU fitsU 1 [dot, dot]) ?_
  rintro _ v ⟨holdsV, headsV, fitsV⟩
  have start : Built v [] := by
    refine ⟨Nat.zero_le _, ?_, ?_, fitsV, ?_, fun i bound => absurd bound (Nat.not_lt_zero i), ?_⟩
    · have files : Function.update (Function.update (fun _ => []) 1 ([] ++ dirent 1 [dot])) 1
          (Function.update (fun _ => []) 1 ([] ++ dirent 1 [dot]) 1 ++ dirent 1 [dot, dot]) =
            filesOf [] := by
        funext n
        by_cases root : n = 1
        · subst root
          rw [Function.update_self, Function.update_self]
          rfl
        · rw [Function.update_of_ne root, Function.update_of_ne root]
          simp [filesOf, root]
      rw [← files]
      exact holdsV
    · rw [headsV.freeinode, headsU.freeinode, next]
      rfl
    · rw [headsV.here, headsU.here, dinodes, if_pos rfl]
      rfl
    · unfold superOf
      rw [headsV.first, headsU.first, firstT]
      exact formatted.super
  refine Ensures.seq (addFiles_ensures inputs start (by simpa using few) slashes) ?_
  intro _ w built
  refine Ensures.step (t := w) (a := w.usedblocks) rfl ?_
  unfold balloc
  refine Ensures.guard fun bits => ?_
  have inside : ninodes / IPB + 3 < w.sectors := by
    rw [built.holds.whole]
    decide
  intro _ y returned
  rw [wsect_inside _ _ inside] at returned
  cases returned
  rw [built.holds.used] at bits ⊢
  refine ⟨built.bitmap _, Nat.not_lt.mp bits, ?_⟩
  exact Function.update_self (ninodes / IPB + 3) _ w.image

end Gcgos.Mkfs
