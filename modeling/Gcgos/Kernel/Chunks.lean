import Gcgos.Fs.Chunks
import Gcgos.Kernel.Calls
import Gcgos.Kernel.Pages
import Mathlib.Algebra.BigOperators.Group.List.Basic

/-!
# A string written in parts

`user1` writes to its file again and again. What is on the disk, in the inode
and in the descriptor at the end is what one call of `fd_write` with the whole
string leaves.
-/

set_option autoImplicit false

namespace Gcgos.Kernel

open Act ByteMap Fs

/-- One call of `fd_write` after the other; the numbers that they return. -/
def fdWriteEach (link : Link) (e : Fin NFD) (stack : Nat → UInt8) :
    (chunks : List (List UInt8)) → Act Fault State (List Int)
  | [] => pure []
  | chunk :: rest => do
      let r ← fdWrite link e chunk stack chunk.length
      let results ← fdWriteEach link e stack rest
      pure (r :: results)

/-- The descriptor can write to the file in slot `i`, whose blocks are in
order. -/
structure WriteableFile (s : State) (e : Fin NFD) (i : Fin NINODE) : Prop where
  writeable : (s.fds e).writeable = true
  type : (s.fds e).type = .FD_FILE
  ip : (s.fds e).ip = some i
  ready : s.fs.bio.Ready 1
  kind : (s.fs.inode i).type = T_FILE
  inArea : DinodeInArea s.fs.disk (s.fs.inode i)
  file : DirectFile s.fs.disk (s.fs.inode i).addrs

/-- From `s` to `t` the disk became `disk`, the inode `ip`, and the offset
moved by `n`. -/
structure FileWritten (s t : State) (e : Fin NFD) (i : Fin NINODE) (disk : Nat → Block)
    (ip : Inode) (n : Nat) : Prop where
  disk : t.fs.disk = disk
  inode : t.fs.inode = Function.update s.fs.inode i ip
  fds : t.fds = Function.update s.fds e { s.fds e with off := (s.fds e).off + n }

section

variable {link : Link} {s : State} {e : Fin NFD} {i : Fin NINODE} {stack : Nat → UInt8}

theorem fdWrite_yields (usable : WriteableFile s e i) (src : List UInt8)
    (direct : (s.fds e).off + src.length ≤ NDIRECT * BSIZE) {disk : Nat → Block} {ip : Inode}
    (write : directWrite s.fs.disk (s.fs.inode i) src (s.fds e).off = some (disk, ip)) :
    Yields (fdWrite link e src stack src.length) s fun result t =>
      result = src.length ∧ FileWritten s t e i disk ip src.length ∧ WriteableFile t e i := by
  have writes := writei_direct_yields i src (s.fds e).off usable.kind usable.ready (Or.inr direct)
    write
  have called : Yields (writeiBuf i src (s.fds e).off src.length) s.fs fun result t =>
      result = src.length ∧ Wrote s.fs t i disk ip := by
    unfold writeiBuf
    refine Yields.step (t := s.fs) rfl ?_
    rw [if_neg (by omega), if_neg (by omega), Int.toNat_natCast, List.take_length]
    exact writes
  unfold fdWrite
  refine Yields.step (t := s) rfl ?_
  rw [if_neg (by simp [usable.writeable]), usable.type, usable.ip]
  refine Yields.seq (onFs_yields called) ?_
  rintro result t ⟨calm, -, fs, ⟨rfl, wrote⟩, files⟩
  have small : (s.fds e).off + src.length < 2 ^ 32 := by
    simp only [NDIRECT, BSIZE] at direct
    omega
  have advance : Fd.advance src.length (s.fds e) =
      { s.fds e with off := (s.fds e).off + src.length } := by
    unfold Fd.advance
    split
    · rw [Int.toNat_natCast, Nat.mod_eq_of_lt small]
    · rename_i none
      rw [show src.length = 0 by omega, Nat.add_zero]
  have fds : (t.setFd e (Fd.advance src.length (t.fds e))).fds =
      Function.update s.fds e { s.fds e with off := (s.fds e).off + src.length } := by
    unfold State.setFd
    rw [calm.fds, advance]
  obtain ⟨area, file, kind⟩ := directWrite_file usable.inArea usable.file direct write
  have disks : t.fs.disk = disk := by
    rw [files]
    exact wrote.disk_eq
  have inodes : t.fs.inode = Function.update s.fs.inode i ip := by
    rw [files]
    exact wrote.inode
  refine ⟨_, _, rfl, rfl, ⟨disks, inodes, fds⟩, ?_⟩
  have entry : (t.setFd e (Fd.advance src.length (t.fds e))).fds e =
      { s.fds e with off := (s.fds e).off + src.length } := by
    rw [fds, Function.update_self]
  have slot : t.fs.inode i = ip := by
    rw [inodes, Function.update_self]
  constructor
  case writeable => rw [entry]; exact usable.writeable
  case type => rw [entry]; exact usable.type
  case ip => rw [entry]; exact usable.ip
  case ready =>
    change t.fs.bio.Ready 1
    rw [files]
    exact wrote.bio.ready usable.ready
  case kind =>
    change (t.fs.inode i).type = T_FILE
    rw [slot, kind, usable.kind]
  case inArea =>
    change DinodeInArea t.fs.disk (t.fs.inode i)
    rw [slot, disks]
    exact area
  case file =>
    change DirectFile t.fs.disk (t.fs.inode i).addrs
    rw [slot, disks]
    exact file

/-- Two stretches of the file in a row. -/
theorem FileWritten.trans {t u : State} {disk₁ disk₂ : Nat → Block} {ip₁ ip₂ : Inode} {n m : Nat}
    (left : FileWritten s t e i disk₁ ip₁ n) (right : FileWritten t u e i disk₂ ip₂ m) :
    FileWritten s u e i disk₂ ip₂ (n + m) := by
  refine ⟨right.disk, ?_, ?_⟩
  · rw [right.inode, left.inode, Function.update_idem]
  · rw [right.fds, left.fds, Function.update_idem, Function.update_self, ← Nat.add_assoc]

/-- Calls in a row do what the whole string would do. -/
theorem fdWriteEach_yields (usable : WriteableFile s e i) (chunks : List (List UInt8))
    (some_chunk : chunks ≠ [])
    (direct : (s.fds e).off + chunks.flatten.length ≤ NDIRECT * BSIZE) {disk : Nat → Block}
    {ip : Inode}
    (write : directWrite s.fs.disk (s.fs.inode i) chunks.flatten (s.fds e).off =
      some (disk, ip)) :
    Yields (fdWriteEach link e stack chunks) s fun results t =>
      results.sum = chunks.flatten.length ∧
        FileWritten s t e i disk ip chunks.flatten.length := by
  induction chunks generalizing s with
  | nil => exact absurd rfl some_chunk
  | cons chunk rest ih =>
      simp only [List.flatten_cons, List.length_append] at direct write ⊢
      unfold fdWriteEach
      by_cases last : rest = []
      · -- With no call left the chunk is the string.
        subst last
        simp only [List.flatten_nil, List.append_nil, List.length_nil, Nat.add_zero] at write ⊢
        refine Yields.seq (fdWrite_yields usable chunk (by omega) write) ?_
        rintro result t ⟨rfl, written, -⟩
        exact ⟨_, t, rfl, by simp, written⟩
      · rw [directWrite_append _ _ _ usable.inArea usable.file (by rw [List.length_append]; omega)]
          at write
        obtain ⟨⟨disk₁, ip₁⟩, first, second⟩ := Option.bind_eq_some_iff.mp write
        refine Yields.seq (fdWrite_yields usable chunk (by omega) first) ?_
        rintro result t ⟨rfl, written, again⟩
        have slot : t.fs.inode i = ip₁ := by
          rw [written.inode, Function.update_self]
        have off : (t.fds e).off = (s.fds e).off + chunk.length := by
          rw [written.fds, Function.update_self]
        refine Yields.seq (ih again last (by rw [off]; omega)
          (by rw [off, slot, written.disk]; exact second)) ?_
        rintro results u ⟨sum, after⟩
        refine ⟨_, u, rfl, ?_, written.trans after⟩
        rw [List.sum_cons, sum]
        push_cast
        rfl

end

/-- However a string is cut, writing its parts in order leaves the disk, the
inodes and the descriptors as one call with the whole string does, and the
calls return its length in total. -/
theorem fdWrite_cut {s : State} {e : Fin NFD} {i : Fin NINODE} (link : Link)
    (stack : Nat → UInt8) (usable : WriteableFile s e i) (chunks : List (List UInt8))
    (some_chunk : chunks ≠ [])
    (direct : (s.fds e).off + chunks.flatten.length ≤ NDIRECT * BSIZE)
    (enough : (Fs.missing (s.fds e).off ((s.fds e).off + chunks.flatten.length)
      (s.fs.inode i).addrs).card ≤ (freeBlocks s.fs.disk).card) :
    Yields (fdWrite link e chunks.flatten stack chunks.flatten.length) s fun r t =>
      r = chunks.flatten.length ∧
      Yields (fdWriteEach link e stack chunks) s fun results u =>
        results.sum = chunks.flatten.length ∧
          u.fs.disk = t.fs.disk ∧ u.fs.inode = t.fs.inode ∧ u.fds = t.fds := by
  obtain ⟨disk₁, addrs₁, run⟩ :=
    directRun_some chunks.flatten.length (s.fds e).off chunks.flatten usable.file le_rfl direct
      enough
  have write := congrArg (Option.map fun next : (Nat → Block) × Addrs =>
    let ip := writeiGrow chunks.flatten.length ((s.fds e).off + chunks.flatten.length)
      { s.fs.inode i with addrs := next.2 }
    (updateOnDisk next.1 ip, ip)) run
  refine (fdWrite_yields usable chunks.flatten direct write).mono ?_
  rintro r t ⟨rfl, whole, -⟩
  refine ⟨rfl, (fdWriteEach_yields usable chunks some_chunk direct write).mono ?_⟩
  rintro results u ⟨sum, parts⟩
  refine ⟨sum, ?_, ?_, ?_⟩
  · rw [parts.disk, whole.disk]
  · rw [parts.inode, whole.inode]
  · rw [parts.fds, whole.fds]

/-- The empty file of the small disk, open for writing at position 510. -/
def writerState : State :=
  { State.loaded emptyFileOpen ⟨fun _ => 0, 0⟩ with
    fds := fun _ =>
      { Fd.zero with
        type := .FD_FILE, ref := 1, writeable := true, ip := some ⟨0, NINODE_pos⟩, off := 510 } }

/-- A string that crosses the border of a block, in three parts of which one is empty. -/
theorem fdWrite_cut_small :
    Yields (fdWrite smallLink ⟨0, by decide⟩ [7, 8, 9] (fun _ => 0) 3) writerState fun r t =>
      r = 3 ∧
      Yields (fdWriteEach smallLink ⟨0, by decide⟩ (fun _ => 0) [[7], [], [8, 9]]) writerState
        fun results u => results.sum = 3 ∧
          u.fs.disk = t.fs.disk ∧ u.fs.inode = t.fs.inode ∧ u.fds = t.fds := by
  have zero : ∀ k, (emptyFileOpen.inode ⟨0, NINODE_pos⟩).addrs k = 0 := fun _ => rfl
  have usable : WriteableFile writerState ⟨0, by decide⟩ ⟨0, NINODE_pos⟩ := by
    have inArea : (writerState.fs.inode ⟨0, NINODE_pos⟩).inum.toNat <
        (superOf writerState.fs.disk).ninodes.toNat := by
      decide +kernel
    refine ⟨rfl, rfl, rfl, emptyFileState_orderly.ready, rfl, inArea,
      ⟨emptyFileState_orderly.reserved, ?_, ?_⟩⟩
    · intro k _ used
      exact absurd (zero _) used
    · intro k l _ _ used
      exact absurd (zero _) used
  exact fdWrite_cut smallLink (fun _ => 0) usable [[7], [], [8, 9]] (by decide) (by decide)
    (by decide +kernel)

end Gcgos.Kernel
