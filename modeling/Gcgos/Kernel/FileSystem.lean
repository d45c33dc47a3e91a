import Gcgos.Fs.Volume
import Gcgos.Kernel.Cat
import Gcgos.Kernel.Reopen
import Gcgos.Lib.Tally

/-!
# The file system that processes see

`open`, `read`, `write` and `close` on files, by any processes and in any
order. The object they implement has a string for every file, a cursor for
every open descriptor of every process, and the number of blocks the disk can
still give. A read returns what stands behind the cursor, a write replaces it,
and both move the cursor on; nothing else moves. What the kernel gets wrong is
outside the object: a read over the end of a block, a write behind the direct
blocks, a descriptor table that is full, and the string of a file that has
grown once it is closed everywhere.
-/

set_option autoImplicit false

namespace Gcgos.Kernel

open Act ByteMap Fs Bio Places

/-! ## The calls behind their arguments -/

section

variable (link : Link) (cp : Fin NPROC)

/-- `sys_open` once it has its arguments. -/
def openFile (file_name : List UInt8) (arg1 : Int) : Act Fault State Int := do
  let ip ← onFs (openInode file_name arg1)
  match ip with
  | none => pure (-1)
  | some ip => openInstall link cp ip arg1

theorem sysOpen_eq : sysOpen link cp = (do
    let file_name ← argaddr link cp 0 DIRSIZ
    let arg1 ← argraw link cp 1
    openFile link cp file_name arg1) := rfl

/-- `sys_write` once it has its arguments. -/
def writeFile (fd : Int) (buf : List UInt8) (stack : Nat → UInt8) (n : Int) :
    Act Fault State Int := do
  Act.stopIf (512 < n) .bounds
  let slot ← fdSlot fd
  let e ← fdEntry cp slot
  fdWrite link e buf stack n

theorem sysWrite_eq (stack : Nat → UInt8) : sysWrite link cp stack = (do
    let fd ← argraw link cp 0
    let n ← argraw link cp 2
    let buf ← argaddr link cp 1 n
    writeFile link cp fd buf stack n) := rfl

/-- `sys_read` once it has its arguments. -/
def readFile (fd : Int) (buf : Nat) (n : Int) : Act Fault State Int := do
  let slot ← fdSlot fd
  let e ← fdEntry cp slot
  fdRead link e buf n

theorem sysRead_eq : sysRead link cp = (do
    let fd ← argraw link cp 0
    let n ← argraw link cp 2
    let uva ← argraw link cp 1
    let buf ← userAddr link cp (sext64 uva)
    readFile link cp fd buf n) := rfl

/-- `sys_close` once it has its argument. -/
def closeFile (fd : Int) : Act Fault State Int := do
  let slot ← fdSlot fd
  let e ← fdEntry cp slot
  fdClose link e
  modifyProc cp fun p => { p with fds := Function.update p.fds slot none }
  pure 0

theorem sysClose_eq : sysClose link cp = argraw link cp 0 >>= closeFile link cp := rfl

end

/-! ## The object -/

/-- Where a descriptor stands, and what it was opened for. -/
structure Cursor where
  file : UInt32
  off : Nat
  readable : Bool
  writeable : Bool
deriving DecidableEq

/-- A process and a slot of its `fds`. -/
abbrev Holder : Type := Fin NPROC × Fin NOFILE

structure FileSystem where
  bytes : UInt32 → Option (List UInt8)
  grown : UInt32 → Bool
  cursor : Holder → Option Cursor
  room : Nat

namespace FileSystem

def fileAt (a : FileSystem) (h : Holder) : Option UInt32 := (a.cursor h).map Cursor.file

/-- The files of the cursors, each as often as it is open. -/
def opened (a : FileSystem) : Multiset UInt32 := tally a.fileAt

def volume (a : FileSystem) : Volume := ⟨a.bytes, a.grown, a.opened, a.room⟩

/-- The file system with this volume and these cursors. -/
def ofVolume (v : Volume) (cursor : Holder → Option Cursor) : FileSystem :=
  ⟨v.bytes, v.grown, cursor, v.room⟩

def setCursor (a : FileSystem) (h : Holder) (c : Option Cursor) : FileSystem :=
  { a with cursor := Function.update a.cursor h c }

/-- The slot that the next file of a process gets. -/
def freeSlot (a : FileSystem) (cp : Fin NPROC) : Option (Fin NOFILE) :=
  (List.finRange NOFILE).find? fun slot => (a.cursor (cp, slot)).isNone

theorem toNat_lt_nofile {fd : Int} (inside : 0 ≤ fd ∧ fd < NOFILE) : fd.toNat < NOFILE := by
  omega

/-- The cursor of a descriptor. -/
def at? (a : FileSystem) (cp : Fin NPROC) (fd : Int) : Option (Holder × Cursor) :=
  if inside : 0 ≤ fd ∧ fd < NOFILE then
    let h : Holder := (cp, ⟨fd.toNat, toNat_lt_nofile inside⟩)
    (a.cursor h).map fun c => (h, c)
  else none

/-- A new cursor at the start of a file. -/
def «open» (a : FileSystem) (h : Holder) (n : UInt32) (mode : Int) : FileSystem :=
  a.setCursor h (some {
    file := n
    off := 0
    readable := decide (hasFlag mode O_RDWR ∨ ¬hasFlag mode O_WRONLY)
    writeable := decide (hasFlag mode O_RDWR ∨ hasFlag mode O_WRONLY) })

/-- The cursor moves on. -/
def move (a : FileSystem) (h : Holder) (c : Cursor) (count : Nat) : FileSystem :=
  a.setCursor h (some { c with off := c.off + count })

/-- The string of the cursor's file is overwritten. -/
def store (a : FileSystem) (c : Cursor) (bytes src : List UInt8) : FileSystem :=
  ofVolume (a.volume.store c.file bytes c.off src) a.cursor

/-- The cursor is gone, and with the last one of a grown file its string. -/
def close (a : FileSystem) (h : Holder) (c : Cursor) : FileSystem :=
  (ofVolume (a.volume.drop c.file) a.cursor).setCursor h none

end FileSystem

/-- A call by process `cp`. The bytes of a read go to a buffer. -/
inductive FileCall where
  | open (cp : Fin NPROC) (name : List UInt8) (mode : Int)
  | write (cp : Fin NPROC) (fd : Int) (src : List UInt8)
  | read (cp : Fin NPROC) (fd : Int) (buf n : Nat)
  | close (cp : Fin NPROC) (fd : Int)

namespace FileCall

/-- What a caller sees of a call: the result, and the bytes a read has put into
the buffer. -/
def run (link : Link) (stack : Nat → UInt8) : FileCall → Act Fault State (Int × List UInt8)
  | .open cp name mode => do
      let r ← openFile link cp name mode
      pure (r, [])
  | .write cp fd src => do
      let r ← writeFile link cp fd src stack src.length
      pure (r, [])
  | .read cp fd buf n => do
      let cc ← readFile link cp fd buf n
      let bytes ← onMm (loadBytes link buf cc.toNat)
      pure (cc, bytes)
  | .close cp fd => do
      let r ← closeFile link cp fd
      pure (r, [])

/-- What the call is for, when paths name inodes as in `tree`. -/
def spec (link : Link) (tree : List UInt8 → Option UInt32) :
    FileCall → FileSystem → Option ((Int × List UInt8) × FileSystem)
  | .open cp name mode, a =>
      if 0 ∉ name ∨ NFD ≤ a.opened.card then none
      else
        match tree (name.takeWhile fun c => c ≠ 0) with
        | none => if hasFlag mode O_CREATE then none else some ((-1, []), a)
        | some n =>
            match a.bytes n, a.freeSlot cp with
            | some _, some slot => some ((slot.val, []), a.open (cp, slot) n mode)
            | _, _ => none
  | .write cp fd src, a =>
      (a.at? cp fd).bind fun (h, c) =>
        if 512 < src.length then none
        else if c.writeable = false then some ((-1, []), a)
        else
          (a.bytes c.file).bind fun bytes =>
            if c.off + src.length ≤ NDIRECT * BSIZE ∧ Volume.cost bytes c.off src ≤ a.room then
              some ((src.length, []), (a.store c bytes src).move h c src.length)
            else none
  | .read cp fd buf n, a =>
      (a.at? cp fd).bind fun (h, c) =>
        if c.readable = false then some ((-1, []), a)
        else
          (a.bytes c.file).bind fun bytes =>
            let piece := stretch bytes c.off n
            if n < 2 ^ 31 ∧ InRam link buf n ∧ c.off % 512 + piece.length ≤ 512 then
              some ((piece.length, piece), a.move h c piece.length)
            else none
  | .close cp fd, a => (a.at? cp fd).map fun (h, c) => ((0, []), a.close h c)

end FileCall

/-! ## The kernel's state as that object -/

/-- The entry of `fds[]` that a process has in a slot. -/
def State.entry (s : State) (h : Holder) : Option (Fin NFD) := (s.proc h.1).fds h.2

/-- The entry of `fds[]` behind a cursor. -/
structure CursorShown (s : State) (fd : Fd) (c : Cursor) : Prop where
  type : fd.type = .FD_FILE
  ref : fd.ref = 1
  ip : ∃ i, fd.ip = some i ∧ 0 < (s.fs.inode i).count ∧ (s.fs.inode i).inum = c.file
  off : fd.off = c.off
  readable : fd.readable = c.readable
  writeable : fd.writeable = c.writeable

/-- The descriptors of all processes are these cursors, every entry in use is
one of theirs, and no cursor is behind the end of its file. -/
structure SystemShown (tree : List UInt8 → Option UInt32) (s : State) (a : FileSystem) : Prop where
  volume : VolumeShown tree s.fs a.volume
  empty : ∀ h, a.cursor h = none → s.entry h = none
  entry : ∀ h c, a.cursor h = some c → ∃ e, s.entry h = some e ∧ CursorShown s (s.fds e) c
  apart : ∀ h k e, s.entry h = some e → s.entry k = some e → h = k
  used : ∀ e, (s.fds e).type ≠ .FD_CLOSE → ∃ h, s.entry h = some e
  inside : ∀ h c, a.cursor h = some c → ∃ bytes, a.bytes c.file = some bytes ∧
    c.off ≤ bytes.length

/-! ## The files that are open -/

section

variable {a : FileSystem} {h : Holder} {c : Cursor}

theorem FileSystem.fileAt_setCursor (a : FileSystem) (h : Holder) (value : Option Cursor) :
    (a.setCursor h value).fileAt = Function.update a.fileAt h (value.map Cursor.file) := by
  funext k
  by_cases here : k = h
  · subst here
    simp only [FileSystem.fileAt, FileSystem.setCursor, Function.update_self]
  · simp only [FileSystem.fileAt, FileSystem.setCursor, Function.update_of_ne here]

theorem FileSystem.fileAt_some (there : a.cursor h = some c) : a.fileAt h = some c.file := by
  rw [FileSystem.fileAt, there]
  rfl

theorem FileSystem.opened_fill (free : a.cursor h = none) (c : Cursor) :
    (a.setCursor h (some c)).opened = c.file ::ₘ a.opened := by
  have empty : a.fileAt h = none := by
    rw [FileSystem.fileAt, free]
    rfl
  rw [FileSystem.opened, FileSystem.fileAt_setCursor]
  exact tally_fill empty c.file

theorem FileSystem.opened_clear (there : a.cursor h = some c) :
    (a.setCursor h none).opened = a.opened.erase c.file := by
  rw [FileSystem.opened, FileSystem.fileAt_setCursor]
  exact tally_clear (FileSystem.fileAt_some there)

theorem FileSystem.opened_move (there : a.cursor h = some c) {d : Cursor} (same : d.file = c.file) :
    (a.setCursor h (some d)).opened = a.opened := by
  have kept : Function.update a.fileAt h (some d.file) = a.fileAt := by
    rw [same, ← FileSystem.fileAt_some there]
    exact Function.update_eq_self h a.fileAt
  rw [FileSystem.opened, FileSystem.fileAt_setCursor, Option.map_some, kept]
  rfl

theorem FileSystem.mem_opened (there : a.cursor h = some c) : c.file ∈ a.opened := by
  exact mem_tally (FileSystem.fileAt_some there)

theorem FileSystem.opened_empty (cursors : ∀ h, a.cursor h = none) : a.opened = 0 := by
  rw [← Multiset.card_eq_zero, FileSystem.opened, card_tally, Finset.card_eq_zero]
  refine Finset.filter_eq_empty_iff.mpr fun h _ => ?_
  simp [FileSystem.fileAt, cursors h]

/-- With fewer cursors than entries of `fds[]` some entry is unused. -/
theorem SystemShown.spareEntry {tree : List UInt8 → Option UInt32} {s : State}
    (shown : SystemShown tree s a) (few : a.opened.card < NFD) :
    ∃ e, freeEntry s = some e ∧ (s.fds e).type = .FD_CLOSE := by
  cases found : freeEntry s with
  | some e =>
      have hit := List.find?_some found
      exact ⟨e, rfl, by simpa using hit⟩
  | none =>
      have full : ∀ e, (s.fds e).type ≠ .FD_CLOSE := by
        intro e
        have taken := List.find?_eq_none.mp found e (List.mem_finRange e)
        simpa using taken
      choose holder holds using fun e => shown.used e (full e)
      have apart : Function.Injective holder := by
        intro d e same
        have entry := holds d
        rw [same, holds e] at entry
        exact (Option.some.inj entry).symm
      have taken : ∀ e, (a.fileAt (holder e)).isSome = true := by
        intro e
        cases there : a.cursor (holder e) with
        | some c =>
            rw [FileSystem.fileAt_some there]
            rfl
        | none =>
            have empty := shown.empty _ there
            rw [holds e] at empty
            cases empty
      have many := card_le_tally holder apart taken
      rw [Fintype.card_fin] at many
      exact absurd few (Nat.not_lt.mpr many)

end

/-! ## One call -/

section

variable {link : Link} {tree : List UInt8 → Option UInt32} {s t : State} {a : FileSystem}
  {h : Holder} {c : Cursor} {e : Fin NFD}

theorem FileSystem.at?_some {cp : Fin NPROC} {fd : Int} (found : a.at? cp fd = some (h, c)) :
    a.cursor h = some c ∧ h.1 = cp ∧ ∀ s : State, fdSlot fd s = .ok (h.2, s) := by
  unfold FileSystem.at? at found
  split at found
  · rename_i inside
    obtain ⟨c', there, same⟩ := Option.map_eq_some_iff.mp found
    cases same
    refine ⟨there, rfl, fun s => ?_⟩
    unfold fdSlot
    rw [dif_pos inside]
    rfl
  · cases found

theorem fdEntry_run {cp : Fin NPROC} {slot : Fin NOFILE} (there : s.entry (cp, slot) = some e) :
    fdEntry cp slot s = .ok (e, s) := by
  have entry : (s.proc cp).fds slot = some e := there
  unfold fdEntry
  refine (Act.bind_of_ok (a := s.proc cp) (t := s) rfl).trans ?_
  rw [entry]
  rfl

/-- What an entry of `fds[]` is, with the inodes where they were. -/
theorem CursorShown.stays {fd : Fd} {opened : Multiset UInt32} (shown : CursorShown s fd c)
    (stays : Stays s.fs t.fs opened) (member : c.file ∈ opened) : CursorShown t fd c := by
  obtain ⟨i, ip, held, number⟩ := shown.ip
  obtain ⟨still, same⟩ := stays i held (by rw [number]; exact member)
  exact { shown with ip := ⟨i, ip, still, same.trans number⟩ }

/-- One cursor has moved, in a volume that may have changed. -/
theorem SystemShown.moved {b : FileSystem} {count : Nat} (bytes : List UInt8)
    (shown : SystemShown tree s a) (there : a.cursor h = some c) (entry : s.entry h = some e)
    (volume : VolumeShown tree t.fs b.volume) (cursor : b.cursor = a.cursor)
    (stays : Stays s.fs t.fs a.opened) (fds : t.fds = Function.update s.fds e
      { s.fds e with off := c.off + count })
    (procs : ∀ k, t.entry k = s.entry k)
    (longer : ∀ n x, a.bytes n = some x → ∃ y, b.bytes n = some y ∧ x.length ≤ y.length)
    (file : b.bytes c.file = some bytes) (within : c.off + count ≤ bytes.length) :
    SystemShown tree t (b.move h c count) := by
  have split : ∀ k d, (b.move h c count).cursor k = some d →
      k = h ∧ d = { c with off := c.off + count } ∨ k ≠ h ∧ a.cursor k = some d := by
    intro k d found
    by_cases here : k = h
    · subst here
      simp only [FileSystem.move, FileSystem.setCursor, Function.update_self,
        Option.some.injEq] at found
      exact Or.inl ⟨rfl, found.symm⟩
    · simp only [FileSystem.move, FileSystem.setCursor, Function.update_of_ne here, cursor] at found
      exact Or.inr ⟨here, found⟩
  constructor
  case volume =>
    have before : b.cursor h = some c := by
      rw [cursor]
      exact there
    have opened : (b.move h c count).opened = b.opened := FileSystem.opened_move before rfl
    have same : (b.move h c count).volume = b.volume := by
      unfold FileSystem.volume
      rw [opened]
      rfl
    rw [same]
    exact volume
  case empty =>
    intro k gone
    have other : k ≠ h := by
      rintro rfl
      simp [FileSystem.move, FileSystem.setCursor] at gone
    simp only [FileSystem.move, FileSystem.setCursor, Function.update_of_ne other, cursor] at gone
    rw [procs]
    exact shown.empty k gone
  case entry =>
    intro k d found
    rcases split k d found with ⟨rfl, rfl⟩ | ⟨other, old⟩
    · obtain ⟨e', there', before⟩ := shown.entry k c there
      rw [entry] at there'
      cases there'
      refine ⟨e, by rw [procs]; exact entry, ?_⟩
      have after := before.stays stays (FileSystem.mem_opened there)
      rw [fds, Function.update_self]
      exact { after with off := rfl }
    · obtain ⟨e', there', before⟩ := shown.entry k d old
      have apart : e' ≠ e := by
        rintro rfl
        exact other (shown.apart k h e' there' entry)
      refine ⟨e', by rw [procs]; exact there', ?_⟩
      rw [fds, Function.update_of_ne apart]
      exact before.stays stays (FileSystem.mem_opened old)
  case apart =>
    intro k l e'
    rw [procs, procs]
    exact shown.apart k l e'
  case used =>
    intro e' opened
    by_cases here : e' = e
    · exact ⟨h, by rw [procs, here]; exact entry⟩
    · rw [fds, Function.update_of_ne here] at opened
      obtain ⟨k, holds⟩ := shown.used e' opened
      exact ⟨k, by rw [procs]; exact holds⟩
  case inside =>
    intro k d found
    rcases split k d found with ⟨rfl, rfl⟩ | ⟨other, old⟩
    · exact ⟨bytes, file, within⟩
    · obtain ⟨x, before, under⟩ := shown.inside k d old
      obtain ⟨y, after, more⟩ := longer _ x before
      exact ⟨y, after, under.trans more⟩

/-- `if (r > 0) fd->off += r;` below the size of a 32-bit word. -/
theorem Fd.advance_eq {fd : Fd} {off count : Nat} (place : fd.off = off)
    (small : off + count < 2 ^ 32) :
    Fd.advance count fd = { fd with off := off + count } := by
  unfold Fd.advance
  split
  · rw [place, Int.toNat_natCast, Nat.mod_eq_of_lt small]
  · rename_i none
    rw [show count = 0 by omega, Nat.add_zero, ← place]

theorem Calm.entry_eq (calm : Calm s t) (k : Holder) : t.entry k = s.entry k := by
  unfold State.entry
  rw [(calm.proc k.1).fds]

theorem FileSystem.store_volume (a : FileSystem) (c : Cursor) (bytes src : List UInt8) :
    (a.store c bytes src).volume = a.volume.store c.file bytes c.off src := rfl

theorem SystemShown.write {src bytes : List UInt8} {stack : Nat → UInt8}
    (shown : SystemShown tree s a) (there : a.cursor h = some c) (entry : s.entry h = some e)
    (writeable : c.writeable = true) (file : a.bytes c.file = some bytes)
    (direct : c.off + src.length ≤ NDIRECT * BSIZE)
    (enough : Volume.cost bytes c.off src ≤ a.room) :
    Yields (fdWrite link e src stack src.length) s fun r t =>
      r = src.length ∧ SystemShown tree t ((a.store c bytes src).move h c src.length) := by
  obtain ⟨e', entry', fd⟩ := shown.entry h c there
  rw [entry] at entry'
  cases entry'
  obtain ⟨i, ip, held, number⟩ := fd.ip
  obtain ⟨bytes', file', within⟩ := shown.inside h c there
  rw [file] at file'
  cases file'
  have writes := shown.volume.writei held (by rw [number]; exact file) within src direct
    enough
  rw [number] at writes
  have called : Yields (writeiBuf i src c.off src.length) s.fs fun r fs =>
      r = src.length ∧ VolumeShown tree fs (a.volume.store c.file bytes c.off src) ∧
        Stays s.fs fs a.opened := by
    unfold writeiBuf
    refine Yields.step (t := s.fs) rfl ?_
    rw [if_neg (by omega), if_neg (by omega), Int.toNat_natCast, List.take_length]
    exact writes
  unfold fdWrite
  refine Yields.step (t := s) rfl ?_
  rw [fd.writeable, writeable, if_neg (by decide), fd.type, ip, fd.off]
  refine Yields.seq (onFs_yields called) ?_
  rintro r t ⟨calm, -, fs, ⟨rfl, volume, stays⟩, files⟩
  have length := overwrite_length within src
  refine ⟨_, _, rfl, rfl, SystemShown.moved (overwrite bytes c.off src) shown there entry ?_ rfl ?_
    ?_ ?_ ?_ ?_ ?_⟩
  · rw [FileSystem.store_volume]
    change VolumeShown tree t.fs _
    rw [files]
    exact volume.congr rfl rfl
  · change Stays s.fs t.fs a.opened
    rw [files]
    exact stays
  · have small : c.off + src.length < 2 ^ 32 := by
      simp only [NDIRECT, BSIZE] at direct
      omega
    have place : (t.fds e).off = c.off := by
      rw [calm.fds]
      exact fd.off
    change Function.update t.fds e (Fd.advance src.length (t.fds e)) = _
    rw [Fd.advance_eq place small, calm.fds]
  · exact fun k => calm.entry_eq k
  · intro n x before
    by_cases here : n = c.file
    · subst here
      rw [file] at before
      cases before
      refine ⟨_, Function.update_self _ _ _, ?_⟩
      rw [length]
      exact le_max_left _ _
    · exact ⟨x, (Function.update_of_ne here _ _).trans before, le_rfl⟩
  · exact Function.update_self _ _ _
  · rw [length]
    exact le_max_right _ _

/-- The stores of a read put its bytes into the buffer. -/
theorem storeAll_stretch {buf : Nat} {bytes : List UInt8} (m : Mm)
    (ram : InRam link buf bytes.length) :
    ∃ m', storeAll link buf ((List.range bytes.length).map fun k => (k, bytes.getD k 0)) m =
        .ok ((), m') ∧ getBytes m'.mem buf bytes.length = bytes := by
  refine ⟨_, storeAll_run _ m ?_, ?_⟩
  · intro store member
    obtain ⟨k, below, rfl⟩ := List.mem_map.mp member
    have short := List.mem_range.mp below
    rcases ram with none | ram
    · omega
    · exact Or.inr ⟨by simp only; omega, by simp only; omega⟩
  · have place := applyStores_run (fun k => bytes.getD k 0) bytes.length m.mem buf 0
    rw [Nat.add_zero, ← List.range_eq_range'] at place
    have whole : (List.range bytes.length).map (fun k => bytes.getD k 0) = bytes := by
      refine List.ext_getElem (by simp) fun k left right => ?_
      simp [List.getElem_map, List.getElem_range, right]
    change getBytes (applyStores m.mem buf _) buf bytes.length = bytes
    rw [place, whole]
    exact getBytes_putBytes m.mem buf bytes

theorem SystemShown.read {buf n : Nat} {bytes : List UInt8}
    (shown : SystemShown tree s a) (there : a.cursor h = some c) (entry : s.entry h = some e)
    (readable : c.readable = true) (file : a.bytes c.file = some bytes) (small : n < 2 ^ 31)
    (ram : InRam link buf n) (inside : c.off % 512 + (stretch bytes c.off n).length ≤ 512) :
    Yields (fdRead link e buf n) s fun cc t =>
      cc = (stretch bytes c.off n).length ∧
      getBytes t.mm.mem buf (stretch bytes c.off n).length = stretch bytes c.off n ∧
      SystemShown tree t (a.move h c (stretch bytes c.off n).length) ∧
      ∀ k, t.entry k = s.entry k := by
  obtain ⟨e', entry', fd⟩ := shown.entry h c there
  rw [entry] at entry'
  cases entry'
  obtain ⟨i, ip, held, number⟩ := fd.ip
  obtain ⟨bytes', file', before⟩ := shown.inside h c there
  rw [file] at file'
  cases file'
  have direct : bytes.length ≤ NDIRECT * BSIZE := (shown.volume.file _ _ file).2.small
  have reads := shown.volume.readi held (by rw [number]; exact file) inside
  have within : (stretch bytes c.off n).length ≤ n ∧
      c.off + (stretch bytes c.off n).length ≤ bytes.length := by
    rw [stretch_length]
    unfold available
    omega
  generalize stretch bytes c.off n = piece at *
  unfold fdRead
  refine Yields.step (t := s) rfl ?_
  rw [fd.readable, readable, if_neg (by decide), fd.type, ip, fd.off]
  have count : (((n : Int) % 2 ^ 32).toNat) = n := by omega
  simp only [count]
  refine Yields.seq (onFs_yields reads) ?_
  rintro result t ⟨calm, -, fs, ⟨rfl, volume, inode⟩, files⟩
  have short : InRam link buf piece.length := by
    rcases ram with none | ram
    · exact Or.inl (by omega)
    · exact Or.inr ⟨ram.1, by omega⟩
  obtain ⟨m, ran, buffer⟩ := storeAll_stretch t.mm short
  refine Yields.step (Act.zoom_of_ok ran) ?_
  refine ⟨_, _, rfl, rfl, buffer, SystemShown.moved bytes shown there entry ?_ rfl ?_ ?_ ?_ ?_ file
    within.2, fun k => calm.entry_eq k⟩
  · change VolumeShown tree t.fs _
    rw [files]
    exact volume.congr rfl rfl
  · intro j heldJ _
    change 0 < (t.fs.inode j).count ∧ (t.fs.inode j).inum = (s.fs.inode j).inum
    rw [files]
    change 0 < (fs.inode j).count ∧ (fs.inode j).inum = (s.fs.inode j).inum
    rw [inode]
    exact ⟨heldJ, rfl⟩
  · have fits : c.off + piece.length < 2 ^ 32 := by
      simp only [NDIRECT, BSIZE] at direct
      omega
    have place : (t.fds e).off = c.off := by
      rw [calm.fds]
      exact fd.off
    change Function.update t.fds e (Fd.advance piece.length (t.fds e)) = _
    rw [Fd.advance_eq place fits, calm.fds]
  · exact fun k => calm.entry_eq k
  · exact fun m x found => ⟨x, found, le_rfl⟩

/-- Nothing but the table has changed. -/
theorem SystemShown.frame (shown : SystemShown tree s a) (volume : VolumeShown tree t.fs a.volume)
    (stays : Stays s.fs t.fs a.opened) (fds : t.fds = s.fds) (procs : ∀ k, t.entry k = s.entry k) :
    SystemShown tree t a := by
  constructor
  case volume => exact volume
  case empty => exact fun k gone => (procs k).trans (shown.empty k gone)
  case entry =>
    intro k d found
    obtain ⟨e', there, before⟩ := shown.entry k d found
    rw [procs, fds]
    exact ⟨e', there, before.stays stays (FileSystem.mem_opened found)⟩
  case apart =>
    intro k l e'
    rw [procs, procs]
    exact shown.apart k l e'
  case used =>
    intro e' opened
    rw [fds] at opened
    obtain ⟨k, holds⟩ := shown.used e' opened
    exact ⟨k, (procs k).trans holds⟩
  case inside => exact shown.inside

/-- An entry that no process has. -/
theorem SystemShown.unheld (shown : SystemShown tree s a) (closed : (s.fds e).type = .FD_CLOSE)
    (k : Holder) : s.entry k ≠ some e := by
  intro holds
  cases there : a.cursor k with
  | none =>
      rw [shown.empty k there] at holds
      cases holds
  | some d =>
      obtain ⟨e', same, fd⟩ := shown.entry k d there
      rw [holds] at same
      cases same
      rw [fd.type] at closed
      cases closed

/-- A file has been opened. -/
theorem SystemShown.attached {i : Fin NINODE} {n : UInt32} {mode : Int} {bytes : List UInt8}
    (shown : SystemShown tree s a) (free : a.cursor h = none)
    (closed : (s.fds e).type = .FD_CLOSE) (file : a.bytes n = some bytes)
    (acquired : Acquired s.fs t.fs i n)
    (fds : t.fds = Function.update s.fds e (({ s.fds e with type := .FD_NONE, ref := 1 } : Fd).opened
      i mode))
    (procs : t.entry = Function.update s.entry h (some e)) :
    SystemShown tree t (a.open h n mode) := by
  have inArea := (shown.volume.file n bytes file).1
  have split : ∀ k d, (a.open h n mode).cursor k = some d →
      k = h ∧ d = ⟨n, 0, decide (hasFlag mode O_RDWR ∨ ¬hasFlag mode O_WRONLY),
        decide (hasFlag mode O_RDWR ∨ hasFlag mode O_WRONLY)⟩ ∨ k ≠ h ∧ a.cursor k = some d := by
    intro k d found
    by_cases here : k = h
    · subst here
      simp only [FileSystem.open, FileSystem.setCursor, Function.update_self,
        Option.some.injEq] at found
      exact Or.inl ⟨rfl, found.symm⟩
    · simp only [FileSystem.open, FileSystem.setCursor, Function.update_of_ne here] at found
      exact Or.inr ⟨here, found⟩
  constructor
  case volume =>
    have same : (a.open h n mode).volume = a.volume.hold n := by
      unfold FileSystem.volume
      rw [FileSystem.open, FileSystem.opened_fill free]
      rfl
    rw [same]
    exact shown.volume.acquired acquired inArea
  case empty =>
    intro k gone
    have other : k ≠ h := by
      rintro rfl
      simp [FileSystem.open, FileSystem.setCursor] at gone
    simp only [FileSystem.open, FileSystem.setCursor, Function.update_of_ne other] at gone
    rw [procs, Function.update_of_ne other]
    exact shown.empty k gone
  case entry =>
    intro k d found
    rcases split k d found with ⟨rfl, rfl⟩ | ⟨other, old⟩
    · refine ⟨e, by rw [procs, Function.update_self], ?_⟩
      rw [fds, Function.update_self]
      refine ⟨rfl, rfl, ⟨i, rfl, ?_, ?_⟩, rfl, rfl, rfl⟩
      · have nonneg := shown.volume.referenced.nonneg i
        rw [acquired.slot]
        simp only
        omega
      · rw [acquired.slot]
    · obtain ⟨e', there, before⟩ := shown.entry k d old
      have apart : e' ≠ e := by
        rintro rfl
        exact shown.unheld closed k there
      refine ⟨e', by rw [procs, Function.update_of_ne other]; exact there, ?_⟩
      rw [fds, Function.update_of_ne apart]
      exact before.stays (acquired.stays a.opened) (FileSystem.mem_opened old)
  case apart =>
    intro k l e' heldK heldL
    rw [procs] at heldK heldL
    by_cases atK : k = h <;> by_cases atL : l = h
    · rw [atK, atL]
    · rw [atK, Function.update_self] at heldK
      rw [Function.update_of_ne atL] at heldL
      cases heldK
      exact absurd heldL (shown.unheld closed l)
    · rw [atL, Function.update_self] at heldL
      rw [Function.update_of_ne atK] at heldK
      cases heldL
      exact absurd heldK (shown.unheld closed k)
    · rw [Function.update_of_ne atK] at heldK
      rw [Function.update_of_ne atL] at heldL
      exact shown.apart k l e' heldK heldL
  case used =>
    intro e' opened
    by_cases here : e' = e
    · exact ⟨h, by rw [procs, Function.update_self, here]⟩
    · rw [fds, Function.update_of_ne here] at opened
      obtain ⟨k, holds⟩ := shown.used e' opened
      have other : k ≠ h := by
        rintro rfl
        rw [shown.empty k free] at holds
        cases holds
      exact ⟨k, by rw [procs, Function.update_of_ne other]; exact holds⟩
  case inside =>
    intro k d found
    rcases split k d found with ⟨rfl, rfl⟩ | ⟨other, old⟩
    · exact ⟨bytes, file, Nat.zero_le _⟩
    · exact shown.inside k d old

/-- A descriptor has been closed. -/
theorem SystemShown.detached {fd : Fd} (shown : SystemShown tree s a) (there : a.cursor h = some c)
    (entry : s.entry h = some e) (volume : VolumeShown tree t.fs (a.volume.drop c.file))
    (stays : Stays s.fs t.fs (a.volume.drop c.file).opened) (closed : fd.type = .FD_CLOSE)
    (fds : t.fds = Function.update s.fds e fd)
    (procs : t.entry = Function.update s.entry h none) : SystemShown tree t (a.close h c) := by
  have split : ∀ k d, (a.close h c).cursor k = some d → k ≠ h ∧ a.cursor k = some d := by
    intro k d found
    by_cases here : k = h
    · subst here
      simp [FileSystem.close, FileSystem.setCursor] at found
    · simp only [FileSystem.close, FileSystem.setCursor, Function.update_of_ne here] at found
      exact ⟨here, found⟩
  have opened : (a.close h c).opened = a.opened.erase c.file :=
    FileSystem.opened_clear (a := FileSystem.ofVolume (a.volume.drop c.file) a.cursor) there
  have left : ∀ k d, (a.close h c).cursor k = some d → d.file ∈ a.opened.erase c.file := by
    intro k d found
    rw [← opened]
    exact FileSystem.mem_opened found
  constructor
  case volume =>
    have same : (a.close h c).volume = a.volume.drop c.file := by
      unfold FileSystem.volume
      rw [opened, show a.opened.erase c.file = (a.volume.drop c.file).opened from
        (Volume.drop_opened a.volume c.file).symm]
      rfl
    rw [same]
    exact volume
  case empty =>
    intro k gone
    rw [procs]
    by_cases here : k = h
    · rw [here, Function.update_self]
    · simp only [FileSystem.close, FileSystem.setCursor, Function.update_of_ne here] at gone
      rw [Function.update_of_ne here]
      exact shown.empty k gone
  case entry =>
    intro k d found
    obtain ⟨other, old⟩ := split k d found
    obtain ⟨e', there', before⟩ := shown.entry k d old
    have apart : e' ≠ e := by
      rintro rfl
      exact other (shown.apart k h e' there' entry)
    refine ⟨e', by rw [procs, Function.update_of_ne other]; exact there', ?_⟩
    rw [fds, Function.update_of_ne apart]
    exact before.stays stays (by rw [Volume.drop_opened]; exact left k d found)
  case apart =>
    intro k l e' heldK heldL
    rw [procs] at heldK heldL
    by_cases atK : k = h
    · rw [atK, Function.update_self] at heldK
      cases heldK
    · by_cases atL : l = h
      · rw [atL, Function.update_self] at heldL
        cases heldL
      · rw [Function.update_of_ne atK] at heldK
        rw [Function.update_of_ne atL] at heldL
        exact shown.apart k l e' heldK heldL
  case used =>
    intro e' opened
    by_cases here : e' = e
    · rw [fds, here, Function.update_self, closed] at opened
      exact absurd rfl opened
    · rw [fds, Function.update_of_ne here] at opened
      obtain ⟨k, holds⟩ := shown.used e' opened
      have other : k ≠ h := by
        rintro rfl
        rw [entry] at holds
        exact here (Option.some.inj holds).symm
      exact ⟨k, by rw [procs, Function.update_of_ne other]; exact holds⟩
  case inside =>
    intro k d found
    obtain ⟨-, old⟩ := split k d found
    obtain ⟨bytes, file, under⟩ := shown.inside k d old
    exact ⟨bytes, (Volume.drop_bytes a.volume (left k d found)).trans file, under⟩

/-! ## The calls -/

theorem SystemShown.spareSlot (shown : SystemShown tree s a) (cp : Fin NPROC) :
    (s.proc cp).freeSlot = a.freeSlot cp := by
  unfold Proc.freeSlot FileSystem.freeSlot
  congr 1
  funext slot
  cases there : a.cursor (cp, slot) with
  | none =>
      have empty : (s.proc cp).fds slot = none := shown.empty _ there
      rw [empty]
      rfl
  | some c =>
      obtain ⟨e, holds, -⟩ := shown.entry _ c there
      have held : (s.proc cp).fds slot = some e := holds
      rw [held]
      rfl

theorem takeWhile_path {path : List UInt8} (noNul : 0 ∉ path) (behind : List UInt8) :
    (path ++ 0 :: behind).takeWhile (fun c => c ≠ 0) = path := by
  rw [List.takeWhile_append_of_pos, List.takeWhile_cons_of_neg (by simp), List.append_nil]
  intro c member
  have nonzero : c ≠ 0 := fun zero => noNul (zero ▸ member)
  simpa using nonzero

/-- A buffer with a NUL in it: the path, and what is behind it. -/
theorem exists_path {name : List UInt8} (nul : 0 ∈ name) : ∃ path behind,
    name = path ++ 0 :: behind ∧ 0 ∉ path ∧ (path ++ 0 :: behind).takeWhile (fun c => c ≠ 0) = path := by
  obtain ⟨path, behind, rfl, noNul⟩ := List.eq_append_cons_of_mem nul
  exact ⟨path, behind, rfl, noNul, takeWhile_path noNul behind⟩

/-- `sys_open` from `fd_alloc` on. -/
theorem SystemShown.installs {cp : Fin NPROC} {slot : Fin NOFILE} {i : Fin NINODE} {n : UInt32}
    {mode : Int} {bytes : List UInt8} (shown : SystemShown tree s a) (calm : Calm s t)
    (few : a.opened.card < NFD) (free : a.freeSlot cp = some slot) (file : a.bytes n = some bytes)
    (holding : Holding s.fs t.fs i n) (distinct : Distinct t.fs) :
    Yields (openInstall link cp i mode) t fun r u =>
      r = slot.val ∧ SystemShown tree u (a.open (cp, slot) n mode) := by
  obtain ⟨e, entry, closed⟩ := shown.spareEntry few
  have spare : freeEntry t = some e := by
    unfold freeEntry at entry ⊢
    rw [calm.fds]
    exact entry
  have room : (t.proc cp).freeSlot = some slot := by
    rw [freeSlot_congr (calm.proc cp).fds, shown.spareSlot]
    exact free
  have empty : a.cursor (cp, slot) = none := by
    have hit := List.find?_some free
    simpa using hit
  unfold openInstall
  refine Yields.step (fdAlloc_eq t) ?_
  rw [spare]
  refine Yields.step (a := some slot) (by rw [← room]; rfl) ?_
  have unlock := onFs_yields (s := t.setFd e { t.fds e with type := .FD_NONE, ref := 1 })
    (holding.iunlock distinct)
  refine Yields.seq unlock ?_
  rintro _ u ⟨settled, -, fs, acquired, files⟩
  refine ⟨_, _, rfl, rfl, shown.attached (e := e) empty closed file (i := i) ?_ ?_ ?_⟩
  · change Acquired s.fs u.fs i n
    rw [files]
    exact ⟨acquired.bio, acquired.slot, acquired.before, acquired.other, acquired.distinct⟩
  · change Function.update u.fds e _ = _
    have fds : u.fds = Function.update s.fds e { s.fds e with type := .FD_NONE, ref := 1 } := by
      rw [settled.fds, ← calm.fds]
      rfl
    rw [fds, Function.update_idem, Function.update_self]
  · funext k
    have old : u.entry k = s.entry k := by
      rw [settled.entry_eq]
      exact calm.entry_eq k
    by_cases here : k = (cp, slot)
    · subst here
      rw [Function.update_self]
      simp [State.entry, State.setProc, State.setFd, Proc.install]
    · rw [Function.update_of_ne here, ← old]
      by_cases same : k.1 = cp
      · have other : k.2 ≠ slot := fun equal => here (Prod.ext same equal)
        simp [State.entry, State.setProc, State.setFd, Proc.install, same, other]
      · simp [State.entry, State.setProc, State.setFd, same]

theorem SystemShown.opens {cp : Fin NPROC} {slot : Fin NOFILE} {name : List UInt8} {n : UInt32}
    {mode : Int} {bytes : List UInt8} (shown : SystemShown tree s a) (nul : 0 ∈ name)
    (few : a.opened.card < NFD) (names : tree (name.takeWhile fun c => c ≠ 0) = some n)
    (free : a.freeSlot cp = some slot) (file : a.bytes n = some bytes) :
    Yields (openFile link cp name mode) s fun r t =>
      r = slot.val ∧ SystemShown tree t (a.open (cp, slot) n mode) := by
  obtain ⟨path, behind, rfl, noNul, path_eq⟩ := exists_path nul
  rw [path_eq] at names
  have walk := shown.volume.namei path behind noNul few
  rw [names] at walk
  have opens : Yields (openInode (path ++ 0 :: behind) mode) s.fs fun result fs =>
      ∃ i, result = some i ∧ Holding s.fs fs i n ∧ Distinct fs := by
    unfold openInode
    refine Yields.seq walk ?_
    rintro result fs ⟨⟨i, rfl, holding⟩, distinct⟩
    exact ⟨_, fs, rfl, i, rfl, holding, distinct⟩
  unfold openFile
  refine Yields.seq (onFs_yields opens) ?_
  rintro _ t ⟨calm, -, fs, ⟨i, rfl, holding, distinct⟩, files⟩
  refine shown.installs calm few free file ?_ ?_
  · rw [files]
    exact ⟨holding.bio, holding.slot, holding.before, holding.other⟩
  · rw [files]
    exact distinct

theorem SystemShown.misses {cp : Fin NPROC} {name : List UInt8} {mode : Int}
    (shown : SystemShown tree s a) (nul : 0 ∈ name) (few : a.opened.card < NFD)
    (names : tree (name.takeWhile fun c => c ≠ 0) = none) (keep : ¬hasFlag mode O_CREATE) :
    Yields (openFile link cp name mode) s fun r t => r = -1 ∧ SystemShown tree t a := by
  obtain ⟨path, behind, rfl, noNul, path_eq⟩ := exists_path nul
  rw [path_eq] at names
  have walk := shown.volume.namei path behind noNul few
  rw [names] at walk
  have misses : Yields (openInode (path ++ 0 :: behind) mode) s.fs fun result fs =>
      result = none ∧ SameTable s.fs fs := by
    unfold openInode
    refine Yields.seq walk ?_
    rintro result fs ⟨⟨rfl, same⟩, -⟩
    simp only
    rw [if_neg keep]
    exact ⟨_, fs, rfl, rfl, same⟩
  unfold openFile
  refine Yields.seq (onFs_yields misses) ?_
  rintro _ t ⟨calm, -, fs, ⟨rfl, same⟩, files⟩
  refine ⟨_, t, rfl, rfl, shown.frame ?_ ?_ calm.fds fun k => calm.entry_eq k⟩
  · rw [files]
    exact (shown.volume.unresolved same).congr rfl rfl
  · rw [files]
    intro j held _
    change 0 < (fs.inode j).count ∧ (fs.inode j).inum = (s.fs.inode j).inum
    rw [same.resident j held]
    exact ⟨held, rfl⟩

theorem SystemShown.closes {cp : Fin NPROC} {fd : Int} (shown : SystemShown tree s a)
    (found : a.at? cp fd = some (h, c)) :
    Yields (closeFile link cp fd) s fun r t => r = 0 ∧ SystemShown tree t (a.close h c) := by
  obtain ⟨there, rfl, slot⟩ := FileSystem.at?_some found
  obtain ⟨e, entry, before⟩ := shown.entry h c there
  obtain ⟨i, ip, held, number⟩ := before.ip
  obtain ⟨bytes, file, -⟩ := shown.inside h c there
  have kind : (s.fs.inode i).type = T_FILE := by
    have shownFile := (shown.volume.file _ bytes file).2
    rw [← number, shown.volume.orderly.inodeOf_resident held] at shownFile
    exact shownFile.kind
  have puts := shown.volume.iput held kind
  rw [number] at puts
  unfold closeFile
  refine Yields.step (slot s) ?_
  refine Yields.step (fdEntry_run entry) ?_
  have closes : Yields (fdClose link e) s fun _ t => Calm { s with fds := t.fds } t ∧
      (t.fds = Function.update s.fds e { s.fds e with ref := 0, type := .FD_CLOSE }) ∧
      VolumeShown tree t.fs (a.volume.drop c.file) ∧
      Stays s.fs t.fs (a.volume.drop c.file).opened := by
    have last : (s.fds e).ref - 1 = 0 := by
      rw [before.ref]
      rfl
    unfold fdClose
    refine Yields.step (t := s.setFd e { s.fds e with ref := (s.fds e).ref - 1 }) rfl ?_
    have look : fdAt e (s.setFd e { s.fds e with ref := (s.fds e).ref - 1 }) =
        .ok ({ s.fds e with ref := (s.fds e).ref - 1 },
          s.setFd e { s.fds e with ref := (s.fds e).ref - 1 }) := by
      simp [fdAt, State.setFd]
    refine Yields.step look ?_
    unfold fdLast fdRelease
    rw [last, if_pos rfl, before.type, ip]
    refine Yields.seq (onFs_yields (s := s.setFd e { s.fds e with ref := 0 }) puts) ?_
    rintro _ t ⟨calm, -, fs, ⟨volume, stays⟩, files⟩
    refine ⟨(), _, rfl, ⟨calm.proc, calm.nextpid, rfl⟩, ?_, ?_, ?_⟩
    · change Function.update t.fds e _ = _
      rw [calm.fds]
      simp [State.setFd]
    · change VolumeShown tree t.fs _
      rw [files]
      exact volume.congr rfl rfl
    · change Stays s.fs t.fs _
      rw [files]
      exact stays
  refine Yields.seq closes ?_
  rintro _ t ⟨calm, fds, volume, stays⟩
  refine ⟨0, _, rfl, rfl, shown.detached there entry volume stays rfl fds ?_⟩
  funext k
  have old : t.entry k = s.entry k := by
    unfold State.entry
    rw [(calm.proc k.1).fds]
  by_cases here : k = h
  · subst here
    simp [State.entry, State.setProc]
  · rw [Function.update_of_ne here, ← old]
    by_cases same : k.1 = h.1
    · have other : k.2 ≠ h.2 := fun equal => here (Prod.ext same equal)
      simp [State.entry, State.setProc, same, other]
    · simp [State.entry, State.setProc, same]

end

/-- No descriptor is open and nothing is in the table. -/
theorem SystemShown.of_disk {tree : List UInt8 → Option UInt32} {s : State} {a : FileSystem}
    (volume : VolumeShown tree s.fs ⟨a.bytes, a.grown, 0, a.room⟩) (cursors : ∀ h, a.cursor h = none)
    (closed : ∀ e, (s.fds e).type = .FD_CLOSE) (fds : ∀ h, s.entry h = none) :
    SystemShown tree s a := by
  constructor
  case volume =>
    unfold FileSystem.volume
    rw [FileSystem.opened_empty cursors]
    exact volume
  case empty => exact fun h _ => fds h
  case entry =>
    intro h c there
    rw [cursors h] at there
    cases there
  case apart =>
    intro h k e there
    rw [fds h] at there
    cases there
  case used => exact fun e other => absurd (closed e) other
  case inside =>
    intro h c there
    rw [cursors h] at there
    cases there

/-! ## A small disk -/

/-- The small disk with a root directory in block 5, whose second entry is for
an empty file `a`. -/
def fileDisk (sector : Nat) : Block :=
  if sector = 2 then
    (Block.zero.put dinodeSize
      (⟨T_DIR, 0, 0, 1, 32, fun k => if k.val = 0 then 5 else 0⟩ : Dinode).bytes).put
      (dinodeSize * 2) (⟨T_FILE, 0, 0, 1, 0, fun _ => 0⟩ : Dinode).bytes
  else if sector = 4 then Block.zero.put 0 [0x3f]
  else if sector = 5 then (Block.zero.put 0 [1, 0, 46]).put direntSize [2, 0, 97]
  else smallDisk sector

/-- The kernel on that disk before the first call. -/
def fileState : State := State.loaded (Fs.State.loaded fileDisk) (smallMm 1)

def fileTree (path : List UInt8) : Option UInt32 := resolve fileState.fs 1 (components path)

def smallFiles : FileSystem where
  bytes n := if n = 2 then some [] else none
  grown _ := false
  cursor _ := none
  room := 10

theorem fileDisk_fields :
    (superOf fileDisk).ninodes.toNat = 3 ∧ dataStart (superOf fileDisk) = 5 ∧
    ((superOf fileDisk).size.toNat < 2 ^ 31 ∧
      dataStart (superOf fileDisk) ≤ (superOf fileDisk).size.toNat ∧
      5 < (superOf fileDisk).size.toNat) ∧
    (∀ b, b < 6 → marked fileDisk (superOf fileDisk).ninodes b = true) ∧
    (∀ n, n < 3 → ∀ k, (dinodeAt fileDisk n).addrs k = 0 ∨
      n = 1 ∧ k ≠ indirectSlot ∧ (dinodeAt fileDisk n).addrs k = 5) ∧
    10 ≤ (freeBlocks fileDisk).card := by
  decide +kernel

theorem fileDisk_dir :
    (∀ n, n < 3 → (dinodeAt fileDisk n).type = T_DIR → n = 1) ∧
    (dinodeAt fileDisk 1).type ≠ 0 ∧ (dinodeAt fileDisk 2).type = T_FILE ∧
    (dinodeAt fileDisk 1).size = 32 ∧ (dinodeAt fileDisk 2).size = 0 ∧
    ∀ entry ∈ dirEntries fileDisk ((dinodeAt fileDisk 1).load rootdev 1),
      entry.1 ≠ 0 → entry.1 = 1 ∨ entry.1 = 2 := by
  decide +kernel

theorem fileDisk_refers {n b : Nat} (inArea : n < 3)
    (refers : Fs.Refers fileDisk (dinodeAt fileDisk n).addrs b) : n = 1 ∧ b = 5 := by
  obtain ⟨-, -, -, -, addrs, -⟩ := fileDisk_fields
  obtain ⟨nonzero, ⟨k, rfl⟩ | ⟨table, -⟩⟩ := refers
  · rcases addrs n inArea k with zero | ⟨one, -, five⟩
    · rw [zero] at nonzero
      exact absurd rfl nonzero
    · exact ⟨one, by rw [five]; rfl⟩
  · rcases addrs n inArea indirectSlot with zero | ⟨-, other, -⟩
    · exact absurd zero table
    · exact absurd rfl other

theorem fileDisk_sound : Sound fileDisk (diskOwners fileDisk) := by
  obtain ⟨count, start, ⟨size, fits, five⟩, bits, -, -⟩ := fileDisk_fields
  refine ⟨⟨⟨size, by rw [count]; decide, fits⟩, ?_⟩, ?_, ?_⟩
  · rw [start]
    exact fun b low => bits b (by omega)
  · rintro n b ⟨inArea, -⟩ refers
    rw [count] at inArea
    obtain ⟨-, rfl⟩ := fileDisk_refers inArea refers
    rw [start]
    exact ⟨le_rfl, five, bits 5 (by decide)⟩
  · rintro n m b ⟨inArea, -⟩ ⟨inArea', -⟩ left right
    rw [count] at inArea inArea'
    rw [(fileDisk_refers inArea left).1, (fileDisk_refers inArea' right).1]

theorem smallFiles_shown : SystemShown fileTree fileState smallFiles := by
  obtain ⟨count, start, -, -, addrs, free⟩ := fileDisk_fields
  obtain ⟨only, root, file, size, empty, entries⟩ := fileDisk_dir
  have vacant : EmptyTable fileState.fs := fun _ => rfl
  refine SystemShown.of_disk (VolumeShown.of_disk vacant (fun _ => rfl) ⟨rfl, by decide +kernel⟩
    fileDisk_sound ?_ ?_ ?_ free) (fun _ => rfl) (fun _ => rfl) (fun _ => rfl)
  · intro n inArea k _
    change n < (superOf fileDisk).ninodes.toNat at inArea
    rw [count] at inArea
    rcases addrs n inArea k with zero | ⟨-, -, five⟩
    · change ((dinodeAt fileDisk n).addrs k).toNat = 0 ∨ _
      exact Or.inl (by rw [zero]; rfl)
    · change _ ∨ dataStart (superOf fileDisk) ≤ ((dinodeAt fileDisk n).addrs k).toNat
      exact Or.inr (by rw [five, start]; decide)
  · have live : ∀ n : UInt32, (ownersOf fileState.fs).live n.toNat →
        n.toNat < 3 ∧ inodeOf fileState.fs n = (dinodeAt fileDisk n.toNat).load rootdev n := by
      intro n used
      rw [ownersOf_empty vacant] at used
      have inArea : n.toNat < (superOf fileDisk).ninodes.toNat := used.1
      rw [count] at inArea
      exact ⟨inArea, inodeOf_empty vacant n⟩
    have dir : ∀ n : UInt32, (ownersOf fileState.fs).live n.toNat →
        (inodeOf fileState.fs n).type = T_DIR → n = 1 := by
      intro n used isDir
      obtain ⟨inArea, same⟩ := live n used
      rw [same] at isDir
      exact UInt32.toNat_inj.mp (only n.toNat inArea isDir)
    have used : ∀ n : UInt32, n = 1 ∨ n = 2 → (ownersOf fileState.fs).live n.toNat := by
      intro n either
      rw [ownersOf_empty vacant]
      change n.toNat < (superOf fileDisk).ninodes.toNat ∧ (dinodeAt fileDisk n.toNat).type ≠ 0
      rw [count]
      rcases either with rfl | rfl
      · exact ⟨by decide, root⟩
      · exact ⟨by decide, by rw [show (2 : UInt32).toNat = 2 from rfl, file]; decide⟩
    refine ⟨used 1 (Or.inl rfl), ⟨?_, ?_⟩, fun _ => rfl⟩
    · intro n inUse isDir
      rw [dir n inUse isDir, inodeOf_empty vacant]
      change (dinodeAt fileDisk 1).size.toNat ≤ _
      rw [size]
      decide
    · intro n name next inUse isDir found
      rw [dir n inUse isDir, inodeOf_empty vacant] at found
      obtain ⟨entry, hit, rfl⟩ := Option.map_eq_some_iff.mp found
      have member := List.mem_of_find?_eq_some hit
      have nonzero := List.find?_some hit
      simp only [decide_eq_true_eq] at nonzero
      refine used _ ?_
      rcases entries entry member nonzero.1 with one | two
      · exact Or.inl (by rw [one]; rfl)
      · exact Or.inr (by rw [two]; rfl)
  · intro n bytes there
    simp only [smallFiles] at there
    split at there
    · rename_i two
      subst two
      cases there
      have zero : ∀ k, (dinodeAt fileDisk 2).addrs k = 0 := by
        intro k
        rcases addrs 2 (by decide) k with zero | ⟨one, -, -⟩
        · exact zero
        · cases one
      refine ⟨?_, file, ?_, Nat.zero_le _, ?_, ?_, ?_, ?_⟩
      · change 2 < (superOf fileDisk).ninodes.toNat
        rw [count]
        decide
      · change (dinodeAt fileDisk 2).size.toNat = 0
        rw [empty]
        rfl
      · exact fun k _ => ⟨fun used => absurd (zero _) used, fun below => absurd below (Nat.not_lt_zero k)⟩
      · exact fun k l _ _ used => absurd (zero _) used
      · exact fun k _ used => absurd (zero _) used
      · exact fun x inside => absurd inside (Nat.not_lt_zero x)
    · cases there

/-! ## Runs of calls -/

/-- Every call does what the file system says it is for. -/
theorem FileCall.simulates (link : Link) (stack : Nat → UInt8)
    (tree : List UInt8 → Option UInt32) :
    Simulates (FileCall.run link stack) (FileCall.spec link tree) (SystemShown tree) := by
  intro call s a result b shown answers
  cases call with
  | «open» cp name mode =>
      rw [FileCall.spec] at answers
      split at answers
      · cases answers
      · rename_i fits
        obtain ⟨nul, few⟩ := not_or.mp fits
        have few : a.opened.card < NFD := by omega
        cases names : tree (name.takeWhile fun c => c ≠ 0) with
        | none =>
            rw [names] at answers
            dsimp only at answers
            split at answers
            · cases answers
            · rename_i keep
              cases answers
              refine Yields.seq (shown.misses (not_not.mp nul) few names keep) ?_
              rintro r t ⟨rfl, same⟩
              exact ⟨_, t, rfl, rfl, same⟩
        | some n =>
            rw [names] at answers
            dsimp only at answers
            split at answers
            · rename_i bytes slot file free
              cases answers
              refine Yields.seq (shown.opens (not_not.mp nul) few names free file) ?_
              rintro r t ⟨rfl, later⟩
              exact ⟨_, t, rfl, rfl, later⟩
            · cases answers
  | write cp fd src =>
      rw [FileCall.spec, Option.bind_eq_some_iff] at answers
      obtain ⟨⟨h, c⟩, found, answers⟩ := answers
      dsimp only at answers
      obtain ⟨there, rfl, slot⟩ := FileSystem.at?_some found
      obtain ⟨e, entry, before⟩ := shown.entry h c there
      split at answers
      · cases answers
      · rename_i short
        have called : FileCall.run link stack (.write h.1 fd src) s =
            (fdWrite link e src stack src.length >>= fun r => pure (r, [])) s := by
          have guard : Act.stopIf ((512 : Int) < src.length) Fault.bounds s = .ok ((), s) :=
            Act.stopIf_of_not _ s (by omega)
          change (writeFile link h.1 fd src stack src.length >>= fun r => pure (r, [])) s = _
          unfold writeFile
          rw [Act.bind_assoc, Act.bind_of_ok guard, Act.bind_assoc, Act.bind_of_ok (slot s),
            Act.bind_assoc, Act.bind_of_ok (fdEntry_run entry)]
        refine Yields.congr called ?_
        cases allowed : c.writeable with
        | false =>
            rw [if_pos allowed] at answers
            cases answers
            have refuses : fdWrite link e src stack src.length s = .ok (-1, s) := by
              unfold fdWrite
              rw [Act.bind_of_ok (t := s) rfl, if_pos (before.writeable.trans allowed)]
              rfl
            exact Yields.step refuses ⟨_, s, rfl, rfl, shown⟩
        | true =>
            rw [if_neg (by rw [allowed]; decide)] at answers
            rw [Option.bind_eq_some_iff] at answers
            obtain ⟨bytes, file, answers⟩ := answers
            split at answers
            · rename_i fits
              cases answers
              refine Yields.seq (shown.write there entry allowed file fits.1 fits.2) ?_
              rintro r t ⟨rfl, later⟩
              exact ⟨_, t, rfl, rfl, later⟩
            · cases answers
  | read cp fd buf n =>
      rw [FileCall.spec, Option.bind_eq_some_iff] at answers
      obtain ⟨⟨h, c⟩, found, answers⟩ := answers
      dsimp only at answers
      obtain ⟨there, rfl, slot⟩ := FileSystem.at?_some found
      obtain ⟨e, entry, before⟩ := shown.entry h c there
      have called : FileCall.run link stack (.read h.1 fd buf n) s =
          (fdRead link e buf n >>= fun cc => do
            let bytes ← onMm (loadBytes link buf cc.toNat)
            pure (cc, bytes)) s := by
        change (readFile link h.1 fd buf n >>= fun cc => do
          let bytes ← onMm (loadBytes link buf cc.toNat)
          pure (cc, bytes)) s = _
        unfold readFile
        rw [Act.bind_assoc, Act.bind_of_ok (slot s), Act.bind_assoc,
          Act.bind_of_ok (fdEntry_run entry)]
      refine Yields.congr called ?_
      cases allowed : c.readable with
      | false =>
          rw [if_pos allowed] at answers
          cases answers
          have refuses : fdRead link e buf n s = .ok (-1, s) := by
            unfold fdRead
            rw [Act.bind_of_ok (t := s) rfl, if_pos (before.readable.trans allowed)]
            rfl
          refine Yields.step refuses ?_
          have none : loadBytes link buf 0 s.mm = .ok (getBytes s.mm.mem buf 0, s.mm) :=
            loadBytes_run (Or.inl rfl) s.mm
          exact Yields.step (Act.zoom_of_ok none) ⟨_, s, rfl, rfl, shown⟩
      | true =>
          rw [if_neg (by rw [allowed]; decide)] at answers
          rw [Option.bind_eq_some_iff] at answers
          obtain ⟨bytes, file, answers⟩ := answers
          split at answers
          · rename_i fits
            obtain ⟨small, ram, within⟩ := fits
            cases answers
            refine Yields.seq (shown.read there entry allowed file small ram within) ?_
            rintro cc t ⟨rfl, buffer, later, -⟩
            have short : InRam link buf (stretch bytes c.off n).length := by
              have count : (stretch bytes c.off n).length ≤ n := List.length_take_le _ _
              rcases ram with none | ram
              · exact Or.inl (by omega)
              · exact Or.inr ⟨ram.1, by omega⟩
            rw [Int.toNat_natCast]
            refine Yields.step (Act.zoom_of_ok (loadBytes_run short t.mm)) ?_
            refine ⟨_, _, rfl, ?_, later⟩
            rw [buffer]
          · cases answers
  | close cp fd =>
      obtain ⟨⟨h, c⟩, found, same⟩ := Option.map_eq_some_iff.mp answers
      cases same
      refine Yields.seq (shown.closes found) ?_
      rintro r t ⟨rfl, later⟩
      exact ⟨_, t, rfl, rfl, later⟩

/-- Any number of calls by any processes, in any order: what they return and
leave is what the file system says. -/
theorem file_system_refined (link : Link) (stack : Nat → UInt8)
    (tree : List UInt8 → Option UInt32) (calls : List FileCall) {s : State} {a b : FileSystem}
    {results : List (Int × List UInt8)} (shown : SystemShown tree s a)
    (answers : specEach (FileCall.spec link tree) calls a = some (results, b)) :
    Yields (each (FileCall.run link stack) calls) s fun values t =>
      values = results ∧ SystemShown tree t b :=
  (FileCall.simulates link stack tree).each calls shown answers

/-- One process writes to `a` in two calls and closes it. Another, which has it
open, reads all that was written, and is then at its end. -/
def smallCalls : List FileCall :=
  [.open initSlot [97, 0] O_WRONLY, .open (Fin.last 63) [47, 97, 0] 0, .write initSlot 0 [7, 8],
    .write initSlot 0 [9], .close initSlot 0, .read (Fin.last 63) 0 0x100000 4,
    .read (Fin.last 63) 0 0x100000 4]

theorem file_system_refined_small :
    Yields (each (FileCall.run smallLink fun _ => 0) smallCalls) fileState fun values t =>
      values = [(0, []), (0, []), (2, []), (1, []), (0, []), (3, [7, 8, 9]), (0, [])] ∧
        ∃ b, SystemShown fileTree t b := by
  have results : (specEach (FileCall.spec smallLink fileTree) smallCalls smallFiles).map Prod.fst =
      some [(0, []), (0, []), (2, []), (1, []), (0, []), (3, [7, 8, 9]), (0, [])] := by
    decide +kernel
  obtain ⟨⟨_, b⟩, answers, rfl⟩ := Option.map_eq_some_iff.mp results
  refine (file_system_refined smallLink _ fileTree smallCalls smallFiles_shown answers).mono ?_
  exact fun _ _ met => ⟨met.1, b, met.2⟩

end Gcgos.Kernel
