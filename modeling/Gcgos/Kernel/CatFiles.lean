import Gcgos.Kernel.FileSystem
import Mathlib.Data.List.TakeWhile

/-!
# `cat` on several files

The whole of `user/cat.c`: for every argument it opens the file, prints it in
pieces of 512 bytes and closes it. The pieces are NUL-terminated strings to
`puts`, so a NUL in the file hides the rest of its piece, and a piece of 256
bytes and more does not fit the array of `sys_cons_puts`. When `cat` is done
the descriptors of all processes and the files are what they were.
-/

set_option autoImplicit false

namespace Gcgos.Kernel

open Act ByteMap Fs Bio Places

/-- `puts` on a string in the memory of the user, with what it prints. -/
def puts (s : List UInt8) : Act Fault State (List UInt8) :=
  let text := s.takeWhile fun c => c ≠ 0
  consPuts text.length text

/-- The loop over one file, with what it prints. A loop that is out of fuel still
runs. -/
def catReads (link : Link) (cp : Fin NPROC) (fd : Int) (buf : Nat) :
    (fuel : Nat) → Act Fault State (List UInt8)
  | 0 => Act.fail .spin
  | fuel + 1 => do
      let cc ← readFile link cp fd buf 512
      if 0 < cc then do
        onMm (storeBytes link (buf + cc.toNat) [0])
        let s ← onMm (loadBytes link buf (cc.toNat + 1))
        let text ← puts s
        let rest ← catReads link cp fd buf fuel
        pure (text ++ rest)
      else pure []

/-- `"open file failed\n"`. -/
def openFailed : List UInt8 :=
  [111, 112, 101, 110, 32, 102, 105, 108, 101, 32, 102, 97, 105, 108, 101, 100, 10]

/-- `"Usage: cat files...\n"`. -/
def usage : List UInt8 :=
  [85, 115, 97, 103, 101, 58, 32, 99, 97, 116, 32, 102, 105, 108, 101, 115, 46, 46, 46, 10]

/-- The loop of `main` over its arguments. -/
def catFiles (link : Link) (cp : Fin NPROC) (buf fuel : Nat) :
    (argv : List (List UInt8)) → Act Fault State (List UInt8)
  | [] => pure []
  | name :: argv => do
      let fd ← openFile link cp name 0
      if fd < 0 then puts openFailed
      else
        let text ← catReads link cp fd buf fuel
        let _ ← closeFile link cp fd
        let rest ← catFiles link cp buf fuel argv
        pure (text ++ rest)

/-- `main` on the arguments behind its name, with what it prints. -/
def cat (link : Link) (cp : Fin NPROC) (buf fuel : Nat) (argv : List (List UInt8)) :
    Act Fault State (List UInt8) :=
  if argv = [] then puts usage else catFiles link cp buf fuel argv

/-! ## What it prints -/

/-- What `puts` prints of a string, when it has room for it. -/
def putsText (s : List UInt8) : Option (List UInt8) :=
  let text := s.takeWhile fun c => c ≠ 0
  if text.length < 256 then some text else none

/-- The pieces `k`, `k + 1` and so on of a file, `n` of them. -/
def printedFrom (bytes : List UInt8) : (k n : Nat) → Option (List UInt8)
  | _, 0 => some []
  | k, n + 1 => do
      let text ← putsText (stretch bytes (512 * k) 512)
      let rest ← printedFrom bytes (k + 1) n
      pure (text ++ rest)

/-- What is printed of a file. -/
def printed (bytes : List UInt8) : Option (List UInt8) :=
  printedFrom bytes 0 (blocksOf bytes.length)

/-- What is printed for the arguments, up to the first that names no file. -/
def catTexts (tree : List UInt8 → Option UInt32) (bytes : UInt32 → Option (List UInt8)) :
    (argv : List (List UInt8)) → Option (List UInt8)
  | [] => some []
  | name :: argv =>
      match tree (name.takeWhile fun c => c ≠ 0) with
      | none => some openFailed
      | some n => do
          let text ← printed ((bytes n).getD [])
          let rest ← catTexts tree bytes argv
          pure (text ++ rest)

/-- What `cat` prints, when every piece fits. -/
def catText (tree : List UInt8 → Option UInt32) (bytes : UInt32 → Option (List UInt8))
    (argv : List (List UInt8)) : Option (List UInt8) :=
  if argv = [] then some usage else catTexts tree bytes argv

theorem catTexts_none {tree : List UInt8 → Option UInt32} {name : List UInt8}
    (found : tree (name.takeWhile fun c => c ≠ 0) = none)
    (bytes : UInt32 → Option (List UInt8)) (argv : List (List UInt8)) :
    catTexts tree bytes (name :: argv) = some openFailed := by
  rw [catTexts, found]

theorem catTexts_some {tree : List UInt8 → Option UInt32} {name : List UInt8} {n : UInt32}
    (found : tree (name.takeWhile fun c => c ≠ 0) = some n)
    {bytes : UInt32 → Option (List UInt8)} {contents : List UInt8} (file : bytes n = some contents)
    (argv : List (List UInt8)) :
    catTexts tree bytes (name :: argv) = (do
      let text ← printed contents
      let rest ← catTexts tree bytes argv
      pure (text ++ rest)) := by
  rw [catTexts, found]
  simp only [file, Option.getD_some]

/-- A short file without NULs is printed as it is. -/
theorem printed_of_text {bytes : List UInt8} (text : 0 ∉ bytes) (short : bytes.length < 256) :
    printed bytes = some bytes := by
  have whole : bytes.takeWhile (fun c => decide (c ≠ 0)) = bytes := by
    refine List.takeWhile_eq_self_iff.mpr fun c member => ?_
    have nonzero : c ≠ 0 := fun zero => text (zero ▸ member)
    simpa using nonzero
  have line : putsText bytes = some bytes := by
    unfold putsText
    rw [whole]
    exact if_pos short
  have first : stretch bytes 0 512 = bytes := List.take_of_length_le (by rw [List.drop_zero]; omega)
  unfold printed
  cases bytes with
  | nil => rfl
  | cons c rest =>
      have one : blocksOf (c :: rest).length = 1 := by
        simp only [blocksOf, BSIZE, List.length_cons] at *
        omega
      rw [one, printedFrom, printedFrom, Nat.mul_zero, first, line]
      simp

theorem putsText_append_nul (s : List UInt8) : putsText (s ++ [0]) = putsText s := by
  have same : (s ++ [0]).takeWhile (fun c => decide (c ≠ 0)) = s.takeWhile fun c => decide (c ≠ 0) := by
    induction s with
    | nil => rfl
    | cons c s ih =>
        by_cases nul : c = 0
        · simp [nul]
        · simpa [nul] using ih
  unfold putsText
  rw [same]

/-! ## One file -/

theorem getBytes_terminate {mem : Nat → UInt8} {buf count : Nat} :
    getBytes (putBytes mem (buf + count) [0]) buf (count + 1) = getBytes mem buf count ++ [0] := by
  refine List.ext_getElem (by simp) fun k left right => ?_
  rw [getBytes_length] at left
  simp only [getBytes, List.getElem_map, List.getElem_range, List.getElem_append, List.length_map,
    List.length_range]
  by_cases below : k < count
  · rw [dif_pos below, putBytes_outside (Or.inl (by omega))]
  · have last : k = count := by omega
    subst last
    rw [dif_neg below, putBytes_inside le_rfl (by simp)]
    simp

section

variable {link : Link} {tree : List UInt8 → Option UInt32} {s : State} {a : FileSystem}
  {cp : Fin NPROC} {fd : Int} {h : Holder} {c : Cursor} {bytes : List UInt8} {buf fuel : Nat}

theorem SystemShown.readFile {n : Nat} (shown : SystemShown tree s a)
    (found : a.at? cp fd = some (h, c)) (readable : c.readable = true)
    (file : a.bytes c.file = some bytes) (small : n < 2 ^ 31) (ram : InRam link buf n)
    (inside : c.off % 512 + (stretch bytes c.off n).length ≤ 512) :
    Yields (readFile link cp fd buf n) s fun cc t =>
      cc = (stretch bytes c.off n).length ∧
      getBytes t.mm.mem buf (stretch bytes c.off n).length = stretch bytes c.off n ∧
      SystemShown tree t (a.move h c (stretch bytes c.off n).length) := by
  obtain ⟨there, rfl, slot⟩ := FileSystem.at?_some found
  obtain ⟨e, entry, -⟩ := shown.entry h c there
  unfold Kernel.readFile
  refine Yields.step (slot s) ?_
  refine Yields.step (fdEntry_run entry) ?_
  refine (shown.read there entry readable file small ram inside).mono ?_
  rintro cc t ⟨count, buffer, later, -⟩
  exact ⟨count, buffer, later⟩

theorem SystemShown.onMm (shown : SystemShown tree s a) (mm : Mm) :
    SystemShown tree { s with mm := mm } a :=
  shown.frame shown.volume (fun _ held _ => ⟨held, rfl⟩) rfl fun _ => rfl

theorem FileSystem.at?_move (found : a.at? cp fd = some (h, c)) (count : Nat) :
    (a.move h c count).at? cp fd = some (h, { c with off := c.off + count }) := by
  unfold FileSystem.at? at found ⊢
  split at found
  · obtain ⟨c', there, same⟩ := Option.map_eq_some_iff.mp found
    cases same
    rw [dif_pos ‹_›]
    simp [FileSystem.move, FileSystem.setCursor]
  · cases found

theorem FileSystem.move_move (a : FileSystem) (h : Holder) (c : Cursor) (first second : Nat) :
    (a.move h c first).move h { c with off := c.off + first } second =
      a.move h c (first + second) := by
  unfold FileSystem.move FileSystem.setCursor
  simp [Nat.add_assoc]

/-- `puts` sends its string, or the kernel leaves the array of `sys_cons_puts`. -/
theorem SystemShown.puts (shown : SystemShown tree s a) (str : List UInt8) :
    Ends (puts str) s (fun text t => putsText str = some text ∧ SystemShown tree t a)
      fun stop => stop = .bounds ∧ putsText str = none := by
  unfold Kernel.puts consPuts putsText
  have noNul : 0 ∉ str.takeWhile fun c => c ≠ 0 := by
    intro member
    simpa using List.mem_takeWhile_imp member
  generalize str.takeWhile (fun c => c ≠ 0) = text at noNul ⊢
  simp only
  refine Ends.guard (fun long => ⟨rfl, if_neg (by omega)⟩) fun short => ?_
  refine Ends.guard (fun full => ⟨rfl, if_neg ?_⟩) fun nul => ?_
  · -- With a byte left over, the array has a NUL.
    intro room
    refine full (List.mem_append_right _ (List.mem_replicate.mpr ⟨by omega, rfl⟩))
  · have room : text.length < 256 := by
      rcases List.mem_append.mp (not_not.mp nul) with member | member
      · exact absurd member noNul
      · have some_left := (List.mem_replicate.mp member).1
        omega
    have sent : (putsBuf text).takeWhile (fun c => c ≠ 0) = text := by
      unfold putsBuf
      rw [List.takeWhile_append_of_pos (fun c member => by
        simpa using fun zero : c = 0 => noNul (zero ▸ member))]
      simp
    rw [sent, if_pos room]
    refine Yields.ends (Yields.seq (onFs_yields (s := s)
      (p := fun _ fs => fs.bio = s.fs.bio ∧ fs.inode = s.fs.inode) ⟨(), _, rfl, rfl, rfl⟩) ?_)
    rintro _ t ⟨calm, -, fs, ⟨bio, inode⟩, left⟩
    have volume : VolumeShown tree t.fs a.volume :=
      shown.volume.congr (by rw [left, bio]) (by rw [left, inode])
    refine ⟨text, t, rfl, rfl, shown.frame volume ?_ calm.fds fun k => calm.entry_eq k⟩
    intro i held _
    rw [left, inode]
    exact ⟨held, rfl⟩

/-- The loop over a file of which `k` pieces are printed. The cursor is behind
them, or at the end of the file. -/
theorem SystemShown.catReads {k : Nat} (shown : SystemShown tree s a)
    (found : a.at? cp fd = some (h, c)) (readable : c.readable = true)
    (file : a.bytes c.file = some bytes) (place : c.off = min (512 * k) bytes.length)
    (ram : InRam link buf 513) (enough : blocksOf bytes.length - k < fuel) :
    Ends (catReads link cp fd buf fuel) s
      (fun text t => printedFrom bytes k (blocksOf bytes.length - k) = some text ∧
        SystemShown tree t (a.move h c (bytes.length - c.off)))
      fun stop => stop = .bounds ∧ printedFrom bytes k (blocksOf bytes.length - k) = none := by
  have room : ∀ n, n ≤ 513 → InRam link buf n := by
    intro n fits
    rcases ram with none | ram
    · exact absurd none (by decide)
    · exact Or.inr ⟨ram.1, by omega⟩
  induction fuel generalizing s a c k with
  | zero => exact absurd enough (Nat.not_lt_zero _)
  | succ fuel ih =>
      have length : (stretch bytes c.off 512).length = min 512 (bytes.length - c.off) := by
        simp [stretch]
      have reads := shown.readFile (n := 512) found readable file (by decide) (room 512 (by decide))
        (by rw [length]; omega)
      rw [length] at reads
      unfold Kernel.catReads
      refine Ends.seq reads.ends ?_
      rintro cc t ⟨rfl, buffer, later⟩
      by_cases done : bytes.length ≤ 512 * k
      · have last : bytes.length - c.off = 0 := by omega
        have none : blocksOf bytes.length - k = 0 := by
          simp only [blocksOf, BSIZE]
          omega
        rw [last, Nat.min_zero] at later ⊢
        rw [if_neg (by simp), none]
        exact Ends.pure ⟨rfl, later⟩
      · have start : c.off = 512 * k := by omega
        obtain ⟨count, counted⟩ : ∃ count, count = min 512 (bytes.length - c.off) := ⟨_, rfl⟩
        rw [← counted] at buffer later ⊢
        rw [if_pos (by omega), Int.toNat_natCast]
        have nul : storeBytes link (buf + count) [0] t.mm = .ok ((), t.mm.store (buf + count) [0]) :=
          storeBytes_run ((room 513 le_rfl).imp (by omega) fun ram => ⟨by omega, by
            simp only [List.length_singleton]; omega⟩) t.mm
        have more : blocksOf bytes.length - k = blocksOf bytes.length - (k + 1) + 1 := by
          simp only [blocksOf, BSIZE]
          omega
        refine Ends.step (Act.zoom_of_ok nul) ?_
        refine Ends.step (Act.zoom_of_ok (loadBytes_run (room _ (by omega)) _)) ?_
        rw [Mm.store_mem, getBytes_terminate, buffer, more, printedFrom, ← start]
        have line := (later.onMm (t.mm.store (buf + count) [0])).puts (stretch bytes c.off 512 ++ [0])
        rw [putsText_append_nul] at line
        refine Ends.seq (line.weaken ?_) ?_
        · rintro stop ⟨rfl, long⟩
          exact ⟨rfl, by rw [long]; rfl⟩
        · rintro text u ⟨fits, shown⟩
          have rest := ih shown (FileSystem.at?_move found count) readable file (k := k + 1)
            (by simp only; omega) (by simp only [blocksOf, BSIZE] at *; omega)
          rw [fits]
          refine Ends.seq (rest.weaken ?_) ?_
          · rintro stop ⟨rfl, long⟩
            exact ⟨rfl, by rw [long]; rfl⟩
          · rintro text' v ⟨fits', after⟩
            refine Ends.pure ⟨by rw [fits']; rfl, ?_⟩
            rw [FileSystem.move_move] at after
            rw [show bytes.length - c.off = count + (bytes.length - (c.off + count)) by omega]
            exact after

/-! ## All files -/

/-- A new cursor that is closed again, wherever it stands. -/
theorem FileSystem.close_fill (free : a.cursor h = none)
    (kept : a.grown c.file = true → c.file ∈ a.opened) :
    (a.setCursor h (some c)).close h c = a := by
  have volume : (a.setCursor h (some c)).volume = a.volume.hold c.file := by
    unfold FileSystem.volume
    rw [FileSystem.opened_fill free]
    rfl
  unfold FileSystem.close
  rw [volume, Volume.drop_hold kept]
  have cursors : Function.update (Function.update a.cursor h (some c)) h none = a.cursor := by
    rw [Function.update_idem, ← free, Function.update_eq_self]
  simp only [FileSystem.ofVolume, FileSystem.setCursor, FileSystem.volume, cursors]

theorem FileSystem.move_fill (a : FileSystem) (h : Holder) (c d : Cursor) (count : Nat) :
    (a.setCursor h (some d)).move h c count =
      a.setCursor h (some { c with off := c.off + count }) := by
  unfold FileSystem.move FileSystem.setCursor
  rw [Function.update_idem]

theorem FileSystem.at?_fill {slot : Fin NOFILE} (a : FileSystem) (cp : Fin NPROC) (c : Cursor) :
    (a.setCursor (cp, slot) (some c)).at? cp slot.val = some ((cp, slot), c) := by
  have inside : 0 ≤ (slot.val : Int) ∧ (slot.val : Int) < NOFILE := ⟨by omega, by omega⟩
  unfold FileSystem.at?
  rw [dif_pos inside]
  simp [FileSystem.setCursor]

/-- The loop over the arguments prints the files under them and leaves everything
as it was, or it stops in `sys_cons_puts`. -/
theorem SystemShown.catFiles (link : Link) (cp : Fin NPROC) (argv : List (List UInt8))
    (buf fuel : Nat) {tree : List UInt8 → Option UInt32} {s : State} {a : FileSystem}
    (shown : SystemShown tree s a) (slot : (a.freeSlot cp).isSome = true)
    (few : a.opened.card < NFD) (names : ∀ name ∈ argv, 0 ∈ name)
    (files : ∀ name ∈ argv, ∀ n, tree (name.takeWhile fun c => c ≠ 0) = some n →
      (a.bytes n).isSome = true ∧ (a.grown n = true → n ∈ a.opened))
    (ram : InRam link buf 513) (enough : NDIRECT < fuel) :
    Ends (catFiles link cp buf fuel argv) s
      (fun text t => catTexts tree a.bytes argv = some text ∧ SystemShown tree t a)
      fun stop => stop = .bounds ∧ catTexts tree a.bytes argv = none := by
  obtain ⟨slot, free⟩ := Option.isSome_iff_exists.mp slot
  have empty : a.cursor (cp, slot) = none := by
    have hit := List.find?_some free
    simpa using hit
  induction argv generalizing s with
  | nil => exact Ends.pure ⟨rfl, shown⟩
  | cons name argv ih =>
      have nul := names name List.mem_cons_self
      unfold Kernel.catFiles
      cases found : tree (name.takeWhile fun c => c ≠ 0) with
      | none =>
          refine Ends.seq (shown.misses nul few found (by decide)).ends ?_
          rintro fd t ⟨rfl, same⟩
          rw [if_pos (by decide), catTexts_none found]
          refine ((same.puts openFailed).mono ?_).weaken ?_
          · rintro text u ⟨fits, still⟩
            exact ⟨fits, still⟩
          · rintro stop ⟨-, long⟩
            exact absurd long (by decide)
      | some n =>
          obtain ⟨there, kept⟩ := files name List.mem_cons_self n found
          obtain ⟨bytes, file⟩ := Option.isSome_iff_exists.mp there
          rw [catTexts_some found file]
          refine Ends.seq (shown.opens nul few found free file).ends ?_
          rintro fd t ⟨rfl, opened⟩
          rw [if_neg (by omega)]
          have small := (shown.volume.file n bytes file).2.small
          have blocks : blocksOf bytes.length - 0 < fuel := by
            simp only [blocksOf, NDIRECT, BSIZE] at *
            omega
          have reads := opened.catReads (FileSystem.at?_fill a cp _) rfl file rfl ram blocks
          refine Ends.seq (reads.weaken ?_) ?_
          · rintro stop ⟨rfl, long⟩
            exact ⟨rfl, by rw [printed, show printedFrom bytes 0 (blocksOf bytes.length) = none from long]; rfl⟩
          rintro text u ⟨fits, moved⟩
          have line : printed bytes = some text := fits
          rw [line]
          refine Ends.seq
            (moved.closes (FileSystem.at?_move (FileSystem.at?_fill a cp _) _)).ends ?_
          rintro _ v ⟨-, closed⟩
          rw [FileSystem.open, FileSystem.move_fill, FileSystem.close_fill empty kept] at closed
          have rest := ih closed (fun name member => names name (List.mem_cons_of_mem _ member))
            (fun name member => files name (List.mem_cons_of_mem _ member))
          refine Ends.seq (rest.weaken ?_) ?_
          · rintro stop ⟨rfl, long⟩
            exact ⟨rfl, by rw [long]; rfl⟩
          · rintro text' w ⟨fits', last⟩
            exact Ends.pure ⟨by rw [fits']; rfl, last⟩

/-- `cat` as a whole. -/
theorem SystemShown.prints (link : Link) (cp : Fin NPROC) (argv : List (List UInt8))
    (buf fuel : Nat) {tree : List UInt8 → Option UInt32} {s : State} {a : FileSystem}
    (shown : SystemShown tree s a) (slot : (a.freeSlot cp).isSome = true)
    (few : a.opened.card < NFD) (names : ∀ name ∈ argv, 0 ∈ name)
    (files : ∀ name ∈ argv, ∀ n, tree (name.takeWhile fun c => c ≠ 0) = some n →
      (a.bytes n).isSome = true ∧ (a.grown n = true → n ∈ a.opened))
    (ram : InRam link buf 513) (enough : NDIRECT < fuel) :
    Ends (cat link cp buf fuel argv) s
      (fun text t => catText tree a.bytes argv = some text ∧ SystemShown tree t a)
      fun stop => stop = .bounds ∧ catText tree a.bytes argv = none := by
  unfold Kernel.cat catText
  by_cases none : argv = []
  · rw [if_pos none, if_pos none]
    refine ((shown.puts usage).mono ?_).weaken ?_
    · rintro text u ⟨fits, still⟩
      exact ⟨fits, still⟩
    · rintro stop ⟨-, long⟩
      exact absurd long (by decide)
  · rw [if_neg none, if_neg none]
    exact shown.catFiles link cp argv buf fuel slot few names files ram enough

end

/-- After any calls that the volume answers, `cat` prints the files as the calls
have left them, or it stops where a piece of one does not fit the array of
`sys_cons_puts`. -/
theorem cat_prints (link : Link) (stale : Nat → UInt8) (calls : List FileCall) (cp : Fin NPROC)
    (argv : List (List UInt8)) (buf fuel : Nat) {tree : List UInt8 → Option UInt32} {s : State}
    {a b : FileSystem} {results : List (Int × List UInt8)} (shown : SystemShown tree s a)
    (answers : specEach (FileCall.spec link tree) calls a = some (results, b))
    (slot : (b.freeSlot cp).isSome = true) (few : b.opened.card < NFD)
    (names : ∀ name ∈ argv, 0 ∈ name)
    (files : ∀ name ∈ argv, ∀ n, tree (name.takeWhile fun c => c ≠ 0) = some n →
      (b.bytes n).isSome = true ∧ (b.grown n = true → n ∈ b.opened))
    (ram : InRam link buf 513) (enough : NDIRECT < fuel) :
    (∀ text, catText tree b.bytes argv = some text →
      Yields (each (FileCall.run link stale) calls >>= fun _ => cat link cp buf fuel argv) s
        fun output t => output = text ∧ SystemShown tree t b) ∧
    (catText tree b.bytes argv = none →
      (each (FileCall.run link stale) calls >>= fun _ => cat link cp buf fuel argv) s =
        .error .bounds) := by
  apply Ends.outcome
  refine Ends.seq ((FileCall.simulates link stale tree).each calls shown answers).ends ?_
  rintro _ t ⟨-, after⟩
  exact after.prints link cp argv buf fuel slot few names files ram enough

/-- What two processes have and have written is printed by a third, and then
that there is no `b`. -/
theorem cat_prints_small :
    Yields (each (FileCall.run smallLink fun _ => 0) (smallCalls.take 4) >>= fun _ =>
      cat smallLink 5 0x100000 32 [[97, 0], [98, 0]]) fileState
      fun text _ => text = [7, 8, 9] ++ openFailed := by
  have results : (specEach (FileCall.spec smallLink fileTree) (smallCalls.take 4) smallFiles).map
      (fun last => (last.2.bytes 2, (last.2.freeSlot 5).isSome, decide (last.2.opened.card < NFD),
        decide (2 ∈ last.2.opened))) = some (some [7, 8, 9], true, true, true) := by
    decide +kernel
  obtain ⟨⟨_, b⟩, answers, same⟩ := Option.map_eq_some_iff.mp results
  simp only [Prod.mk.injEq, decide_eq_true_eq] at same
  obtain ⟨file, slot, few, member⟩ := same
  have all : ∀ name ∈ [[97, 0], [98, 0]],
      (fileTree (name.takeWhile fun c => c ≠ (0 : UInt8))).getD 2 = 2 := by
    decide +kernel
  have only : ∀ name ∈ [[97, 0], [98, 0]], ∀ n : UInt32,
      fileTree (name.takeWhile fun c => c ≠ (0 : UInt8)) = some n → n = 2 := by
    intro name given n found
    have two := all name given
    rwa [found] at two
  have files : ∀ name ∈ [[97, 0], [98, 0]], ∀ n : UInt32,
      fileTree (name.takeWhile fun c => c ≠ (0 : UInt8)) = some n →
        (b.bytes n).isSome = true ∧ (b.grown n = true → n ∈ b.opened) := by
    intro name given n found
    rw [only name given n found, file]
    exact ⟨rfl, fun _ => member⟩
  have prints := cat_prints smallLink (fun _ => 0) (smallCalls.take 4) 5 [[97, 0], [98, 0]] 0x100000
    32 smallFiles_shown answers slot few (by decide) files (Or.inr (by decide)) (by decide)
  have first : fileTree ([97, 0].takeWhile fun c => c ≠ (0 : UInt8)) = some 2 := by decide +kernel
  have second : fileTree ([98, 0].takeWhile fun c => c ≠ (0 : UInt8)) = none := by decide +kernel
  have text : catText fileTree b.bytes [[97, 0], [98, 0]] = some ([7, 8, 9] ++ openFailed) := by
    rw [catText, if_neg (by decide), catTexts_some first file, catTexts_none second,
      printed_of_text (by decide) (by decide)]
    rfl
  exact (prints.1 _ text).mono fun _ _ met => met.1

end Gcgos.Kernel
