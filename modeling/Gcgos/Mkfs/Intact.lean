import Gcgos.Mkfs.Main

/-!
# The dinodes on the image

`mkfs` numbers inodes without a look at `ninodes`. With at most 98 files the
numbers stay in the inode area: every dinode is in an inode block, and no later
step changes it but an append to its own file. From 99 files on a run that ends
has handed out the number 100.
-/

set_option autoImplicit false

namespace Gcgos.Mkfs

open Fs Act ByteMap

/-! ## The calls of `main` -/

/-- The pieces of at most 512 bytes that a file is read in. -/
def pieces : Nat → List UInt8 → List (List UInt8)
  | 0, _ => []
  | fuel + 1, contents =>
      if contents = [] then [] else contents.take 512 :: pieces fuel (contents.drop 512)

/-- The calls for one file. -/
def fileCalls (inum : Nat) (input : Input) : List Call :=
  .ialloc T_FILE :: .iappend 1 (dirent inum ((baseName input.path).getD [])) ::
    (pieces (input.contents.getD []).length (input.contents.getD [])).map (.iappend inum)

def filesCalls : Nat → List Input → List Call
  | _, [] => []
  | inum, input :: rest => fileCalls inum input ++ filesCalls (inum + 1) rest

/-- The calls of `main` between the formatting and the bitmap. -/
def mainCalls (inputs : List Input) : List Call :=
  .ialloc T_DIR :: .iappend 1 (dirent 1 [dot]) :: .iappend 1 (dirent 1 [dot, dot]) ::
    filesCalls 2 inputs

/-- The last step of `main`. -/
def writeBitmap : Act Stop State Unit := do
  let used ← Act.reads State.usedblocks
  balloc used

/-- A path with a base name that fits a directory entry. -/
structure Input.Named (input : Input) : Prop where
  slash : 47 ∈ input.path
  short : ((baseName input.path).getD []).length < DIRSIZ

/-- How many inode numbers calls hand out. -/
def made : List Call → Nat
  | [] => 0
  | .ialloc _ :: rest => made rest + 1
  | .iappend _ _ :: rest => made rest

theorem runCalls_append (first second : List Call) :
    runCalls (first ++ second) = runCalls first >>= fun _ => runCalls second := by
  induction first with
  | nil => rfl
  | cons call rest ih =>
      rw [List.cons_append, runCalls, ih, runCalls, Act.bind_assoc]

theorem made_append (first second : List Call) :
    made (first ++ second) = made first + made second := by
  induction first with
  | nil => exact (Nat.zero_add _).symm
  | cons call rest ih =>
      cases call with
      | ialloc type =>
          show made (rest ++ second) + 1 = made rest + 1 + made second
          omega
      | iappend inum bytes => exact ih

theorem made_appends (inum : Nat) (bytes : List (List UInt8)) :
    made (bytes.map (.iappend inum)) = 0 := by
  induction bytes with
  | nil => rfl
  | cons piece rest ih => exact ih

theorem made_filesCalls (inum : Nat) (inputs : List Input) :
    made (filesCalls inum inputs) = inputs.length := by
  induction inputs generalizing inum with
  | nil => rfl
  | cons input rest ih =>
      rw [filesCalls, made_append, ih, fileCalls, made, made, made_appends, List.length_cons]
      omega

theorem made_mainCalls (inputs : List Input) : made (mainCalls inputs) = inputs.length + 1 := by
  rw [mainCalls, made, made, made, made_filesCalls]

/-! ## Inode numbers -/

section

variable {k : Nat}

theorem rsect_keeps (sec : Nat) : Keeps (rsect sec) fun s => s.freeinode = k := by
  intro s kept _ t returned
  unfold rsect at returned
  split at returned
  · cases returned
    exact kept
  · cases returned

theorem wsect_keeps (sec : Nat) (buf : Block) : Keeps (wsect sec buf) fun s => s.freeinode = k :=
  Keeps.modify fun _ kept => kept

theorem winode_keeps (inum : Nat) (din : Dinode) :
    Keeps (winode inum din) fun s => s.freeinode = k :=
  Keeps.seq (rsect_keeps _) fun _ => wsect_keeps _ _

theorem nextBlock_keeps : Keeps nextBlock fun s => s.freeinode = k := by
  intro s kept _ t returned
  cases returned
  exact kept

theorem iappendMap_keeps (din : Dinode) (fbn : Nat) :
    Keeps (iappendMap din fbn) fun s => s.freeinode = k := by
  have fill : ∀ slot, Keeps (addrsFill din slot) fun s => s.freeinode = k := fun slot =>
    Keeps.ite (Keeps.seq nextBlock_keeps fun _ => Keeps.pure) Keeps.pure
  have entry : ∀ indirect j, Keeps (entryFill indirect j) fun s => s.freeinode = k :=
    fun indirect j => Keeps.ite (Keeps.seq nextBlock_keeps fun _ => Keeps.pure) Keeps.pure
  refine Keeps.ite (Keeps.seq (fill _) fun _ => Keeps.pure) ?_
  refine Keeps.seq Keeps.stopIf fun _ => Keeps.seq (fill _) fun _ => ?_
  refine Keeps.seq (rsect_keeps _) fun _ => Keeps.seq (entry _ _) fun _ => ?_
  exact Keeps.seq (wsect_keeps _ _) fun _ => Keeps.pure

theorem iappendLoop_keeps (fuel off : Nat) (p : List UInt8) (din : Dinode) :
    Keeps (iappendLoop fuel off p din) fun s => s.freeinode = k := by
  induction fuel generalizing off p din with
  | zero => exact Keeps.pure
  | succ fuel ih =>
      refine Keeps.ite Keeps.pure ?_
      refine Keeps.seq (iappendMap_keeps din _) fun mapped => ?_
      refine Keeps.seq (rsect_keeps _) fun buf => ?_
      exact Keeps.seq (wsect_keeps _ _) fun _ => ih _ _ _

theorem iappend_keeps (inum : Nat) (p : List UInt8) :
    Keeps (iappend inum p) fun s => s.freeinode = k := by
  refine Keeps.seq (Keeps.seq (rsect_keeps _) fun _ => Keeps.pure) fun din => ?_
  refine Keeps.seq (iappendLoop_keeps _ _ _ _) fun result => ?_
  exact winode_keeps _ _

theorem writeBitmap_keeps : Keeps writeBitmap fun s => s.freeinode = k :=
  Keeps.seq Keeps.reads fun _ => Keeps.seq Keeps.stopIf fun _ => wsect_keeps _ _

end

/-- What follows `ialloc` gets the number that was next. -/
theorem ialloc_bind {β : Type} (type : UInt16) (next : Nat → Act Stop State β) (s : State) :
    (ialloc type >>= next) s = ((Call.ialloc type).run >>= fun _ => next s.freeinode) s := by
  have split : ialloc type s =
      (winode s.freeinode (freshDinode type) >>= fun _ => pure s.freeinode)
        { s with freeinode := s.freeinode + 1 } := rfl
  rw [Call.run, Act.bind_assoc, bind_run, bind_run, split, bind_run]
  cases winode s.freeinode (freshDinode type) { s with freeinode := s.freeinode + 1 } with
  | error stop => rfl
  | ok pair => rfl

theorem ialloc_made (type : UInt16) (s : State) :
    Ensures (Call.ialloc type).run s fun _ t => t.freeinode = s.freeinode + 1 := by
  have written := winode_keeps (k := s.freeinode + 1) s.freeinode (freshDinode type)
    { s with freeinode := s.freeinode + 1 } rfl
  refine Ensures.seq (m := fun _ t => t.freeinode = s.freeinode + 1) ?_ fun _ _ next =>
    Ensures.pure next
  refine Ensures.step (t := s) (a := s.freeinode) rfl ?_
  refine Ensures.step (t := { s with freeinode := s.freeinode + 1 }) (a := ()) rfl ?_
  exact Ensures.seq written fun _ _ next => Ensures.pure next

theorem runCalls_made (calls : List Call) (s : State) :
    Ensures (runCalls calls) s fun _ t => t.freeinode = s.freeinode + made calls := by
  induction calls generalizing s with
  | nil => exact Ensures.pure rfl
  | cons call rest ih =>
      refine Ensures.seq (m := fun _ t => t.freeinode = s.freeinode + made [call]) ?_ ?_
      · cases call with
        | ialloc type => exact ialloc_made type s
        | iappend inum bytes => exact iappend_keeps inum bytes s rfl
      · intro _ t next
        refine (ih t).mono fun _ u count => ?_
        have total := made_append [call] rest
        rw [List.singleton_append] at total
        omega

/-! ## `main` is its calls -/

theorem copyFile_calls (inum fuel : Nat) (contents : List UInt8) :
    copyFile inum fuel contents = runCalls ((pieces fuel contents).map (.iappend inum)) := by
  induction fuel generalizing contents with
  | zero => rfl
  | succ fuel ih =>
      rw [copyFile, pieces]
      by_cases empty : contents = []
      · rw [if_pos empty, if_pos empty]
        rfl
      · rw [if_neg empty, if_neg empty, ih]
        rfl

theorem enter_call (inum : Nat) (name : List UInt8) (short : name.length < DIRSIZ) :
    enter 1 inum name = (Call.iappend 1 (dirent inum name)).run := by
  unfold enter Act.stopIf
  rw [if_neg (by omega)]
  rfl

theorem addFile_calls {input : Input} (named : input.Named) (s : State) :
    addFile 1 input s = runCalls (fileCalls s.freeinode input) s := by
  have base : baseName input.path = some ((baseName input.path).getD []) := by
    simp [baseName, named.slash]
  rw [addFile, ialloc_bind, fileCalls, runCalls, runCalls, ← copyFile_calls,
    ← enter_call _ _ named.short, base]
  rfl

/-- Two runs that begin alike and go on alike. -/
theorem bind_congr {α β : Type} {first other : Act Stop State α} {next last : α → Act Stop State β}
    {s : State} (same : first s = other s)
    (rest : ∀ value t, other s = .ok (value, t) → next value t = last value t) :
    (first >>= next) s = (other >>= last) s := by
  rw [bind_run, bind_run, same]
  cases outcome : other s with
  | error stop => rfl
  | ok pair => exact rest pair.1 pair.2 outcome

theorem addFiles_calls {inputs : List Input} (named : ∀ input ∈ inputs, input.Named) (s : State) :
    addFiles 1 inputs s = runCalls (filesCalls s.freeinode inputs) s := by
  induction inputs generalizing s with
  | nil => rfl
  | cons input rest ih =>
      rw [addFiles, filesCalls, runCalls_append]
      refine bind_congr (addFile_calls (named input List.mem_cons_self) s) fun _ t returned => ?_
      have next := runCalls_made _ s () t returned
      rw [fileCalls, made, made, made_appends] at next
      rw [ih (fun other member => named other (List.mem_cons_of_mem _ member)) t, next]

/-- With valid names a run of `main` is the formatting, its calls and the
bitmap. -/
theorem main_calls (behind : Block) {inputs : List Input}
    (named : ∀ input ∈ inputs, input.Named) :
    main behind inputs initial =
      (format behind >>= fun _ => runCalls (mainCalls inputs) >>= fun _ => writeBitmap)
        initial := by
  have dots := enter_call 1 [dot] (by decide)
  have parent := enter_call 1 [dot, dot] (by decide)
  have numbered : Act.stopIf (1 ≠ 1) Stop.assertion = (pure () : Act Stop State Unit) :=
    if_neg (by decide)
  rw [main]
  refine bind_congr rfl fun _ s formatted => ?_
  have first : s.freeinode = 1 := ((format_yields behind).ensures () s formatted).freeinode
  rw [ialloc_bind, first, numbered, mainCalls, runCalls, Act.bind_assoc]
  refine bind_congr rfl fun _ t made => ?_
  rw [Act.pure_bind, dots, parent, runCalls, Act.bind_assoc]
  refine bind_congr rfl fun _ u entered => ?_
  rw [runCalls, Act.bind_assoc]
  refine bind_congr rfl fun _ v left => ?_
  have next : v.freeinode = 2 := by
    rw [iappend_keeps 1 _ u rfl () v left, iappend_keeps 1 _ t rfl () u entered,
      ialloc_made T_DIR s () t made, first]
  have files := addFiles_calls named v
  rw [next] at files
  exact bind_congr files fun _ _ _ => rfl

/-! ## What a step leaves alone -/

/-- The image holds files below the next inode number, which is in the inode
area or right behind it. -/
structure Sound (s : State) : Prop where
  holds : ∃ files, Holds s files ∧ ∀ n, s.freeinode ≤ n → files n = []
  fits : s.freeblock ≤ size
  few : s.freeinode ≤ ninodes

/-- The file whose dinode a call rewrites. -/
def Call.Updates : Call → Nat → Prop
  | .ialloc _, _ => False
  | .iappend inum _, n => inum = n

theorem Formatted.sound {behind : Block} {s : State} (formatted : Formatted behind s) :
    Sound s := by
  have first := formatted.freeinode
  have count := formatted.holds.count
  have none : demand (fun _ => []) = 0 := by decide +kernel
  rw [none] at count
  refine ⟨⟨_, formatted.holds, fun _ _ => rfl⟩, ?_, ?_⟩
  · rw [count]
    decide
  · rw [first]
    decide

theorem Call.keeps (call : Call) {s : State} (sound : Sound s)
    (valid : ValidFrom s.freeinode [call]) :
    Ensures call.run s fun _ t => Sound t ∧
      ∀ n, n < s.freeinode → ¬call.Updates n → dinodeAt t.image n = dinodeAt s.image n := by
  obtain ⟨⟨files, holds, unmade⟩, fits, few⟩ := sound
  cases call with
  | ialloc type =>
      obtain ⟨inArea, -⟩ := valid
      have made := (ialloc_yields holds type inArea (unmade _ (le_refl _))).ensures
      refine Ensures.seq made fun inum t result => Ensures.pure ?_
      obtain ⟨rfl, next, holdsT, dinodes, -⟩ := result
      refine ⟨⟨⟨files, holdsT, fun n above => unmade n (by omega)⟩, ?_, by omega⟩, ?_⟩
      · rw [holdsT.count, ← holds.count]
        exact fits
      · intro n below _
        rw [dinodes, if_neg (by omega)]
  | iappend inum bytes =>
      obtain ⟨-, below, -⟩ := valid
      have inArea : inum < ninodes := by omega
      refine (iappend_ensures holds fits inArea bytes).mono ?_
      rintro _ t ⟨holdsT, heads, fitsT⟩
      have next := heads.freeinode
      refine ⟨⟨⟨_, holdsT, fun n above => ?_⟩, fitsT, by omega⟩, fun n under other => ?_⟩
      · rw [Function.update_of_ne (by omega)]
        exact unmade n (by omega)
      · exact heads.other n (by omega) (Ne.symm other)

theorem validFrom_append (k : Nat) (first second : List Call) :
    ValidFrom k (first ++ second) ↔
      ValidFrom k first ∧ ValidFrom (k + made first) second := by
  induction first generalizing k with
  | nil => exact (and_iff_right trivial).symm
  | cons call rest ih =>
      cases call with
      | ialloc type =>
          rw [List.cons_append, ValidFrom, ValidFrom, ih, made, and_assoc,
            show k + 1 + made rest = k + (made rest + 1) by omega]
      | iappend inum bytes =>
          rw [List.cons_append, ValidFrom, ValidFrom, ih, made, and_assoc, and_assoc]

theorem runCalls_sound (calls : List Call) {s : State} (sound : Sound s)
    (valid : ValidFrom s.freeinode calls) : Ensures (runCalls calls) s fun _ t => Sound t := by
  induction calls generalizing s with
  | nil => exact Ensures.pure sound
  | cons call rest ih =>
      obtain ⟨head, later⟩ := (validFrom_append _ [call] rest).mp valid
      intro _ u returned
      obtain ⟨_, t, ran, rest⟩ := Act.bind_eq_ok.mp returned
      have next := runCalls_made [call] s () t (Act.bind_of_ok ran)
      rw [← next] at later
      exact ih (Call.keeps call sound head _ t ran).1 later _ u rest

theorem valid_appends (inum : Nat) {k : Nat} (some : 1 ≤ inum) (below : inum < k)
    (bytes : List (List UInt8)) : ValidFrom k (bytes.map (.iappend inum)) := by
  induction bytes with
  | nil => trivial
  | cons piece rest ih => exact ⟨some, below, ih⟩

theorem valid_filesCalls (inputs : List Input) {k : Nat} (root : 2 ≤ k)
    (few : k + inputs.length ≤ ninodes) : ValidFrom k (filesCalls k inputs) := by
  induction inputs generalizing k with
  | nil => trivial
  | cons input rest ih =>
      rw [List.length_cons] at few
      rw [filesCalls, validFrom_append]
      refine ⟨⟨by omega, le_refl _, by omega, valid_appends k (by omega) (by omega) _⟩, ?_⟩
      rw [fileCalls, made, made, made_appends]
      exact ih (by omega) (by omega)

theorem valid_mainCalls {inputs : List Input} (few : inputs.length ≤ 98) :
    ValidFrom 1 (mainCalls inputs) := by
  have files : ValidFrom 2 (filesCalls 2 inputs) :=
    valid_filesCalls inputs (le_refl _) (by simp only [ninodes]; omega)
  exact ⟨by decide, le_refl _, by decide, le_refl _, by decide, files⟩

theorem writeBitmap_ensures {s : State} (whole : s.sectors = size) :
    Ensures writeBitmap s fun _ t => ∃ bits, t = s.write (ninodes / IPB + 3) bits := by
  have inside : ninodes / IPB + 3 < s.sectors := by
    rw [whole]
    decide
  refine Ensures.step (t := s) (a := s.usedblocks) rfl ?_
  refine Ensures.guard fun _ => ?_
  intro _ t returned
  rw [wsect_inside _ _ inside] at returned
  cases returned
  exact ⟨_, rfl⟩

/-- The parts of a run of `main` that ends. -/
theorem main_split {behind : Block} {inputs : List Input}
    (named : ∀ input ∈ inputs, input.Named) {t : State}
    (completes : main behind inputs initial = .ok ((), t)) :
    ∃ s u, format behind initial = .ok ((), s) ∧ Formatted behind s ∧
      runCalls (mainCalls inputs) s = .ok ((), u) ∧ writeBitmap u = .ok ((), t) ∧
      t.freeinode = inputs.length + 2 := by
  rw [main_calls behind named] at completes
  obtain ⟨_, s, formats, rest⟩ := Act.bind_eq_ok.mp completes
  obtain ⟨_, u, calls, bitmap⟩ := Act.bind_eq_ok.mp rest
  have formatted := (format_yields behind).ensures () s formats
  have counted := runCalls_made _ s () u calls
  have kept := writeBitmap_keeps (k := u.freeinode) u rfl () t bitmap
  rw [made_mainCalls, formatted.freeinode] at counted
  exact ⟨s, u, formats, formatted, calls, bitmap, by omega⟩

/-! ## Many empty files -/

/-- A directory of `k` entries and no other bytes, with `k` the next inode
number. -/
def OnlyNames (s : State) (k : Nat) : Prop :=
  ∃ bytes, Holds s (Function.update (fun _ => []) 1 bytes) ∧ bytes.length = direntSize * k ∧
    s.freeinode = k

theorem demand_single (bytes : List UInt8) :
    demand (Function.update (fun _ => []) 1 bytes) = (shapeFor bytes.length).cost := by
  have none : demand (fun _ => []) = 0 := by decide +kernel
  have cost := demand_update (fun _ => []) (n := 1) (by decide) bytes
  rw [none] at cost
  have zero : (shapeFor ([] : List UInt8).length).cost = 0 := rfl
  omega

theorem enter_names {s : State} {bytes : List UInt8}
    (holds : Holds s (Function.update (fun _ => []) 1 bytes)) (small : bytes.length ≤ 1696)
    (inum : Nat) {name : List UInt8} (short : name.length < DIRSIZ) :
    Yields (enter 1 inum name) s fun _ t =>
      Holds t (Function.update (fun _ => []) 1 (bytes ++ dirent inum name)) ∧
        t.freeinode = s.freeinode := by
  have length := dirent_length inum short
  have room : firstData + demand (Function.update (fun _ => []) 1 (bytes ++ dirent inum name)) ≤
      size := by
    rw [demand_single, List.length_append, length]
    have direct : ¬NDIRECT * 512 < bytes.length + direntSize := by
      simp only [NDIRECT, direntSize]
      omega
    simp only [shapeFor, Shape.cost, direct, decide_false, Bool.toNat_false, firstData, ninodes, IPB,
      bitblocks, size, direntSize]
    omega
  have entered := enter_yields holds inum short
    (by
      rw [Function.update_self, length]
      simp only [MAXFILE, NDIRECT, NINDIRECT, direntSize]
      omega)
    (by
      rw [Function.update_self, Function.update_idem]
      exact room)
  rw [Function.update_self, Function.update_idem] at entered
  refine entered.mono ?_
  rintro _ t ⟨holdsT, heads⟩
  exact ⟨holdsT, heads.freeinode⟩

/-- The numbers from 100 to 104 have slots behind the last inode and in the bitmap block. -/
theorem ialloc_spare {s : State} {files : Nat → List UInt8} (holds : Holds s files)
    (spare : s.freeinode < 105) (empty : files s.freeinode = []) :
    Yields (ialloc T_FILE) s fun inum t =>
      inum = s.freeinode ∧ t.freeinode = s.freeinode + 1 ∧ Holds t files := by
  by_cases inArea : s.freeinode < ninodes
  · refine (ialloc_yields holds T_FILE inArea empty).mono ?_
    rintro inum t ⟨same, next, holdsT, -⟩
    exact ⟨same, next, holdsT⟩
  · have sector : i2b s.freeinode ≤ 36 := by
      simp only [i2b, IPB, ninodes] at *
      omega
    have whole := holds.whole
    have inside : i2b s.freeinode < s.sectors := by
      rw [whole]
      simp only [size]
      omega
    unfold ialloc
    refine Yields.step (t := s) (a := s.freeinode) rfl ?_
    refine Yields.step (t := { s with freeinode := s.freeinode + 1 }) (a := ()) rfl ?_
    refine Yields.step (winode_inside (s := { s with freeinode := s.freeinode + 1 }) _ inside)
      ⟨_, _, rfl, rfl, rfl, ?_⟩
    have dinodes : ∀ m, m < ninodes →
        dinodeAt (withDinode s.image s.freeinode (freshDinode T_FILE)) m = dinodeAt s.image m := by
      intro m low
      rw [dinodeAt_withDinode, if_neg (by omega)]
    refine ⟨?_, fun m low => ?_, whole, holds.used, holds.count⟩
    · refine (holds.stored.low fun b data => Function.update_of_ne ?_ _ _).congr fun m low => ?_
      · simp only [firstData, ninodes, IPB, bitblocks, size] at data
        omega
      · show (dinodeAt (withDinode s.image s.freeinode (freshDinode T_FILE)) m).addrs = _
        rw [dinodes m low]
    · show (dinodeAt (withDinode s.image s.freeinode (freshDinode T_FILE)) m).size.toNat = _
      rw [dinodes m low]
      exact holds.sizes m low

/-- `mkfs fs.img u/00 u/01 ...`, for files without bytes. -/
def emptyFile (i : Nat) : Input where
  path := [117, 47, 48 + UInt8.ofNat (i / 10), 48 + UInt8.ofNat (i % 10)]
  contents := some []

def emptyFiles (count : Nat) : List Input := (List.range count).map emptyFile

theorem emptyFile_named (i : Nat) : (emptyFile i).Named := by
  have slash : 47 ∈ (emptyFile i).path := by simp [emptyFile]
  refine ⟨slash, ?_⟩
  have base : (baseName (emptyFile i).path).getD [] =
      ((emptyFile i).path.reverse.takeWhile fun c => c != 47).reverse := by
    simp [baseName, slash]
  have part := (List.takeWhile_sublist (l := (emptyFile i).path.reverse) fun c => c != 47).length_le
  have whole : (emptyFile i).path.reverse.length = 4 := rfl
  rw [base, List.length_reverse, DIRSIZ]
  omega

theorem emptyFiles_named (count : Nat) : ∀ input ∈ emptyFiles count, input.Named := by
  intro input member
  obtain ⟨i, -, rfl⟩ := List.mem_map.mp member
  exact emptyFile_named i

theorem addFile_empty {s : State} {k : Nat} (names : OnlyNames s k) (root : 2 ≤ k)
    (spare : k < 105) (i : Nat) :
    Yields (addFile 1 (emptyFile i)) s fun _ t => OnlyNames t (k + 1) := by
  obtain ⟨bytes, holds, length, rfl⟩ := names
  have named := emptyFile_named i
  have base : baseName (emptyFile i).path = some ((baseName (emptyFile i).path).getD []) := by
    simp [baseName, named.slash]
  have small : bytes.length ≤ 1696 := by
    simp only [direntSize] at length
    omega
  unfold addFile
  refine Yields.seq (ialloc_spare holds spare (Function.update_of_ne (by omega) _ _)) ?_
  rintro inum t ⟨rfl, next, holdsT⟩
  rw [base]
  refine Yields.seq (enter_names holdsT small s.freeinode named.short) ?_
  rintro _ u ⟨holdsU, kept⟩
  refine ⟨(), u, rfl, _, holdsU, ?_, by omega⟩
  rw [List.length_append, length, dirent_length _ named.short]
  simp only [direntSize]
  omega

theorem addFiles_empty (is : List Nat) {s : State} {k : Nat} (names : OnlyNames s k) (root : 2 ≤ k)
    (spare : k + is.length ≤ 105) :
    Yields (addFiles 1 (is.map emptyFile)) s fun _ t => OnlyNames t (k + is.length) := by
  induction is generalizing s k with
  | nil => exact ⟨(), s, rfl, names⟩
  | cons i rest ih =>
      rw [List.length_cons] at spare ⊢
      refine Yields.seq (addFile_empty names root (by omega) i) fun _ t next => ?_
      refine (ih next (by omega) (by omega)).mono fun _ u done => ?_
      rw [show k + (rest.length + 1) = k + 1 + rest.length by omega]
      exact done

/-- A run over up to 103 empty files ends. -/
theorem emptyFiles_complete (count : Nat) (spare : count ≤ 103) :
    Yields (main Block.zero (emptyFiles count)) initial fun _ t => t.freeinode = count + 2 := by
  suffices ends : Yields (main Block.zero (emptyFiles count)) initial fun _ _ => True by
    obtain ⟨_, t, completes, -⟩ := ends
    obtain ⟨-, -, -, -, -, -, counted⟩ := main_split (emptyFiles_named count) completes
    rw [emptyFiles, List.length_map, List.length_range] at counted
    exact ⟨(), t, completes, counted⟩
  rw [main]
  refine Yields.seq (format_yields Block.zero) fun _ s formatted => ?_
  have first := formatted.freeinode
  refine Yields.seq (ialloc_yields formatted.holds T_DIR (by rw [first]; decide) rfl) ?_
  rintro rootino t ⟨rfl, next, holdsT, -, -⟩
  rw [first] at next ⊢
  have same : Function.update (fun _ => []) 1 [] = fun _ : Nat => ([] : List UInt8) :=
    Function.update_eq_self _ _
  rw [← same] at holdsT
  refine Yields.step (Act.stopIf_of_not _ t (by decide)) ?_
  refine Yields.seq (enter_names holdsT (by decide) 1 (by decide)) ?_
  rintro _ u ⟨holdsU, keptU⟩
  refine Yields.seq (enter_names holdsU (by decide) 1 (by decide)) ?_
  rintro _ v ⟨holdsV, keptV⟩
  have start : OnlyNames v 2 := ⟨_, holdsV, by decide, by omega⟩
  refine Yields.seq (addFiles_empty (List.range count) start (le_refl _)
    (by rw [List.length_range]; omega)) ?_
  rintro _ w ⟨bytes, holdsW, length, -⟩
  rw [List.length_range] at length
  refine Yields.step (t := w) (a := w.usedblocks) rfl ?_
  have used : w.usedblocks ≤ BPB := by
    rw [holdsW.used, holdsW.count, demand_single, length]
    have direct : ¬NDIRECT * 512 < direntSize * (2 + count) := by
      simp only [NDIRECT, direntSize]
      omega
    simp only [shapeFor, Shape.cost, direct, decide_false, Bool.toNat_false, firstData, ninodes, IPB,
      bitblocks, size, direntSize, BPB, BSIZE]
    omega
  exact ⟨(), _, Act.bind_of_ok (Act.stopIf_of_not _ w (Nat.not_lt.mpr used)), trivial⟩

/-! ## All dinodes -/

/-- Every inode number that was handed out is in the inode area, with its
dinode in an inode block; a call and the bitmap leave the dinodes of the
numbers handed out before alone, except for the one an append belongs to; and
at the end every file has its dinode and reads back as its argument. -/
structure Intact (behind : Block) (inputs : List Input) (t : State) : Prop where
  numbers : ∀ n, 1 ≤ n → n < t.freeinode →
    n < ninodes ∧ 2 ≤ i2b n ∧ i2b n < ninodes / IPB + 3
  calls : ∀ s before call after u v, format behind initial = .ok ((), s) →
    mainCalls inputs = before ++ call :: after → runCalls before s = .ok ((), u) →
    call.run u = .ok ((), v) → ∀ n, 1 ≤ n → n < u.freeinode → ¬call.Updates n →
    dinodeAt v.image n = dinodeAt u.image n
  bitmap : ∀ s u, format behind initial = .ok ((), s) →
    runCalls (mainCalls inputs) s = .ok ((), u) → ∀ n, 1 ≤ n → n < u.freeinode →
    dinodeAt t.image n = dinodeAt u.image n
  final : ∀ i (bound : i < inputs.length),
    head (dinodeAt t.image (i + 2)) = (T_FILE, 0, 0, 1) ∧
      contents t.image (i + 2) = (inputs.get ⟨i, bound⟩).contents.getD []

theorem intact_of_few {behind : Block} {inputs : List Input}
    (named : ∀ input ∈ inputs, input.Named) {t : State}
    (completes : main behind inputs initial = .ok ((), t)) (few : inputs.length ≤ 98) :
    Intact behind inputs t := by
  obtain ⟨s, u, formats, formatted, calls, bitmap, count⟩ := main_split named completes
  have sound := formatted.sound
  have valid := valid_mainCalls few
  rw [← formatted.freeinode] at valid
  have numbers : ∀ n, n < t.freeinode → n < ninodes := by
    intro n below
    simp only [ninodes]
    omega
  constructor
  case numbers =>
    intro n _ below
    have inArea := numbers n below
    have sector := inode_sector inArea
    exact ⟨inArea, sector⟩
  case calls =>
    intro s' before call after v w formats' shape ran step n _ below other
    rw [formats] at formats'
    cases formats'
    rw [shape, validFrom_append] at valid
    obtain ⟨early, late⟩ := valid
    have now := runCalls_made before s () v ran
    rw [← now] at late
    have one := ((validFrom_append _ [call] after).mp late).1
    exact (Call.keeps call (runCalls_sound before sound early () v ran) one () w step).2 n below
      other
  case bitmap =>
    intro s' u' formats' calls' n _ below
    rw [formats] at formats'
    cases formats'
    rw [calls] at calls'
    cases calls'
    obtain ⟨⟨files, holds, -⟩, -, area⟩ := runCalls_sound _ sound valid () u calls
    obtain ⟨bits, rfl⟩ := writeBitmap_ensures holds.whole () t bitmap
    exact dinodeAt_bitmap u bits (by omega)
  case final =>
    intro i bound
    obtain ⟨built, -⟩ := main_ensures behind inputs few
      (fun input member => (named input member).slash) () t completes
    have inside : i < (inputsOf inputs).length := by simpa [inputsOf] using bound
    refine ⟨built.heads i inside, ?_⟩
    rw [built.holds.contents_eq (by simp only [ninodes]; omega)]
    have high : i + 2 ≠ 1 ∧ ¬i + 2 < 2 := by omega
    simp [filesOf, high.1, inputsOf, bound]

/-- A run that ends leaves all dinodes intact exactly when it got at most 98
files. -/
theorem mkfs_intact_iff (behind : Block) (inputs : List Input)
    (named : ∀ input ∈ inputs, input.Named) (t : State)
    (completes : main behind inputs initial = .ok ((), t)) :
    Intact behind inputs t ↔ inputs.length ≤ 98 := by
  constructor
  · intro intact
    obtain ⟨s, u, -, -, -, -, count⟩ := main_split named completes
    have last := intact.numbers (inputs.length + 1) (by omega) (by omega)
    simp only [ninodes] at last
    omega
  · exact intact_of_few named completes

theorem mkfs_intact_full :
    ∃ t, main Block.zero (emptyFiles 98) initial = .ok ((), t) ∧
      (Intact Block.zero (emptyFiles 98) t ↔ (emptyFiles 98).length ≤ 98) := by
  obtain ⟨⟨⟩, t, completes, -⟩ := emptyFiles_complete 98 (by decide)
  exact ⟨t, completes, mkfs_intact_iff Block.zero _ (emptyFiles_named 98) t completes⟩

/-- The last of 99 files has an inode number out of range; that of the last of
101 files has its dinode in the bitmap block. -/
theorem mkfs_too_many_files :
    (∃ t, main Block.zero (emptyFiles 99) initial = .ok ((), t) ∧ t.freeinode = 101 ∧
      ¬Intact Block.zero (emptyFiles 99) t) ∧
    ∃ t, main Block.zero (emptyFiles 101) initial = .ok ((), t) ∧ t.freeinode = 103 ∧
      i2b 102 = ninodes / IPB + 3 ∧ ¬Intact Block.zero (emptyFiles 101) t := by
  obtain ⟨⟨⟩, t, completes, last⟩ := emptyFiles_complete 99 (by decide)
  obtain ⟨⟨⟩, u, completesU, lastU⟩ := emptyFiles_complete 101 (by decide)
  refine ⟨⟨t, completes, last, fun intact => ?_⟩, u, completesU, lastU, by decide, fun intact => ?_⟩
  · exact absurd (intact.numbers 100 (by decide) (by omega)).1 (by decide)
  · exact absurd (intact.numbers 102 (by decide) (by omega)).2.2 (by decide)

end Gcgos.Mkfs
