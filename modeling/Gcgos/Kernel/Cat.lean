import Gcgos.Fs.Delivery
import Gcgos.Kernel.Calls
import Gcgos.Kernel.Pages

/-!
# The loop of `cat`

`user/cat.c` reads a file in pieces of 512 bytes until a read returns nothing.
The offset in the descriptor is at the start of a block, or at the end of the
file, in front of every read. So each read stays within one block, and what
the loop has put out is the file up to the offset.
-/

set_option autoImplicit false

namespace Gcgos.Kernel

open Act ByteMap Fs Bio

/-- `while ((cc = read(fd, buf, 512)) > 0)` with the output of every turn: the
number of reads and the bytes. A loop that is out of fuel still runs. -/
def catLoop (link : Link) (e : Fin NFD) (buf : Nat) :
    (fuel : Nat) → Act Fault State (Nat × List UInt8)
  | 0 => Act.fail .spin
  | fuel + 1 => do
      let cc ← fdRead link e buf 512
      if 0 < cc then do
        let piece ← onMm (loadBytes link buf cc.toNat)
        let (reads, rest) ← catLoop link e buf fuel
        pure (reads + 1, piece ++ rest)
      else pure (1, [])

/-- The descriptor reads the file in slot `i` at offset `off`, and the blocks
of the file are direct. -/
structure OpenFile (s : State) (e : Fin NFD) (i : Fin NINODE) (off : Nat) : Prop where
  readable : (s.fds e).readable = true
  type : (s.fds e).type = .FD_FILE
  ip : (s.fds e).ip = some i
  offset : (s.fds e).off = off
  ready : s.fs.bio.Ready 1
  kind : (s.fs.inode i).type = T_FILE
  direct : (s.fs.inode i).size.toNat ≤ NDIRECT * BSIZE

/-- Only the offset has moved. -/
theorem OpenFile.moved {s t : State} {e : Fin NFD} {i : Fin NINODE} {off later : Nat}
    (opened : OpenFile s e i off) (entry : t.fds e = { s.fds e with off := later })
    (ready : t.fs.bio.Ready 1) (inode : t.fs.inode = s.fs.inode) : OpenFile t e i later := by
  constructor
  case readable => rw [entry]; exact opened.readable
  case type => rw [entry]; exact opened.type
  case ip => rw [entry]; exact opened.ip
  case offset => rw [entry]
  case ready => exact ready
  case kind => rw [inode]; exact opened.kind
  case direct => rw [inode]; exact opened.direct

/-- The bytes of the file from `off` on, `count` of them. -/
def fileBytes (fs : Fs.State) (i : Fin NINODE) (off count : Nat) : List UInt8 :=
  (List.range count).map fun k => fileByte fs.disk (fs.inode i) (off + k)

@[simp] theorem fileBytes_length (fs : Fs.State) (i : Fin NINODE) (off count : Nat) :
    (fileBytes fs i off count).length = count := by
  simp [fileBytes]

/-- A stretch of the file is a stretch and what comes behind it. -/
theorem fileBytes_append (fs : Fs.State) (i : Fin NINODE) (off first second : Nat) :
    fileBytes fs i off (first + second) =
      fileBytes fs i off first ++ fileBytes fs i (off + first) second := by
  unfold fileBytes
  rw [List.range_add, List.map_append, List.map_map]
  congr 1
  apply List.map_congr_left
  intro k _
  rw [Function.comp_apply, Nat.add_assoc]

section

variable {link : Link}

theorem storeAll_run {buf : Nat} (stores : List (Nat × UInt8)) (m : Mm)
    (inside : ∀ store ∈ stores, InRam link (buf + store.1) 1) :
    storeAll link buf stores m = .ok ((), { m with mem := applyStores m.mem buf stores }) := by
  induction stores generalizing m with
  | nil => rfl
  | cons store rest ih =>
      obtain ⟨distance, byte⟩ := store
      have here : storeBytes link (buf + distance) [byte] m =
          .ok ((), m.store (buf + distance) [byte]) :=
        storeBytes_run (inside _ List.mem_cons_self) m
      have single : putBytes m.mem (buf + distance) [byte] =
          Function.update m.mem (buf + distance) byte := by
        funext a
        by_cases there : a = buf + distance
        · subst there
          rw [putBytes_inside le_rfl (by simp), Function.update_self, Nat.sub_self]
          rfl
        · rw [putBytes_outside (by simp only [List.length_singleton]; omega),
            Function.update_of_ne there]
      have rest := ih (m.store (buf + distance) [byte]) fun store member =>
        inside store (List.mem_cons_of_mem _ member)
      rw [Mm.store_mem, single] at rest
      unfold storeAll
      rw [Act.bind_of_ok here, rest]
      rfl

/-- One read of the loop: the next stretch of the file is in the buffer, and
the descriptor has moved behind it. -/
theorem fdRead_yields {s : State} {e : Fin NFD} {i : Fin NINODE} {off buf : Nat}
    (opened : OpenFile s e i off) (inside : InRam link buf 512)
    (start : off % 512 = 0 ∨ (s.fs.inode i).size.toNat ≤ off) :
    Yields (fdRead link e buf 512) s fun cc t =>
      cc = (available (s.fs.inode i).size.toNat off 512 : Nat) ∧
      getBytes t.mm.mem buf (available (s.fs.inode i).size.toNat off 512) =
        fileBytes s.fs i off (available (s.fs.inode i).size.toNat off 512) ∧
      OpenFile t e i (off + available (s.fs.inode i).size.toNat off 512) ∧
      t.fs.disk = s.fs.disk ∧ t.fs.inode = s.fs.inode := by
  obtain ⟨count, counted⟩ : ∃ count, count = available (s.fs.inode i).size.toNat off 512 := ⟨_, rfl⟩
  rw [← counted]
  have bounds : count ≤ 512 ∧ off % 512 + count ≤ 512 := by
    unfold available at counted
    omega
  have small : 0 < count → off + count < 2 ^ 32 := by
    have direct := opened.direct
    simp only [NDIRECT, BSIZE] at direct
    unfold available at counted
    omega
  have kind : (s.fs.inode i).type ≠ T_DEV := by
    rw [opened.kind]
    decide
  have read := readi_yields i (n := 512) opened.ready kind opened.direct
    (by rw [← counted]; exact bounds.2)
  rw [← counted] at read
  unfold fdRead
  refine Yields.step (t := s) rfl ?_
  rw [if_neg (by simp [opened.readable]), opened.type, opened.ip, opened.offset]
  refine Yields.seq (onFs_yields read) ?_
  rintro result t ⟨calm, -, fs, ⟨settled, inode, rfl⟩, files⟩
  have targets : ∀ store ∈ (List.range count).map fun k =>
      (k, fileByte s.fs.disk (s.fs.inode i) (off + k)), InRam link (buf + store.1) 1 := by
    intro store member
    obtain ⟨k, below, rfl⟩ := List.mem_map.mp member
    have short := List.mem_range.mp below
    rcases inside with none | ram
    · exact absurd none (by decide)
    · exact Or.inr ⟨by simp only; omega, by simp only; omega⟩
  have stored := storeAll_run _ t.mm targets
  have entry : Fd.advance count (s.fds e) = { s.fds e with off := off + count } := by
    unfold Fd.advance
    split
    · rename_i some
      rw [opened.offset, Int.toNat_natCast, Nat.mod_eq_of_lt (small (by omega))]
    · rename_i none
      have zero : count = 0 := by omega
      rw [zero, Nat.add_zero, ← opened.offset]
  refine Yields.step (Act.zoom_of_ok stored) ?_
  refine ⟨_, _, rfl, rfl, ?_, ?_, ?_, ?_⟩
  · have place := applyStores_run (fun k => fileByte s.fs.disk (s.fs.inode i) (off + k)) count
      t.mm.mem buf 0
    rw [Nat.add_zero, ← List.range_eq_range'] at place
    change getBytes (applyStores t.mm.mem buf _) buf count = fileBytes s.fs i off count
    rw [place]
    have whole := getBytes_putBytes t.mm.mem buf (fileBytes s.fs i off count)
    rw [fileBytes_length] at whole
    exact whole
  · refine opened.moved ?_ ?_ ?_
    · change Function.update t.fds e (Fd.advance count (t.fds e)) e = _
      rw [Function.update_self, calm.fds, entry]
    · change t.fs.bio.Ready 1
      rw [files]
      exact settled.ready opened.ready
    · change t.fs.inode = s.fs.inode
      rw [files]
      exact inode
  · change t.fs.disk = s.fs.disk
    rw [files]
    exact settled.disk
  · change t.fs.inode = s.fs.inode
    rw [files]
    exact inode

/-- From a descriptor at `off` the loop puts out the rest of the file. -/
theorem catLoop_yields {s : State} {e : Fin NFD} {i : Fin NINODE} {off size buf fuel : Nat}
    (opened : OpenFile s e i off) (inside : InRam link buf 512)
    (sized : (s.fs.inode i).size.toNat = size) (start : off % 512 = 0 ∨ size ≤ off)
    (before : off ≤ size) (enough : (size - off + 511) / 512 < fuel) :
    Yields (catLoop link e buf fuel) s fun result t =>
      result = ((size - off + 511) / 512 + 1, fileBytes s.fs i off (size - off)) ∧
      (t.fds e).off = size := by
  induction fuel generalizing s off with
  | zero => omega
  | succ fuel ih =>
      have read := fdRead_yields opened inside (sized.symm ▸ start)
      rw [sized] at read
      unfold catLoop
      refine Yields.seq read ?_
      rintro cc t ⟨rfl, piece, moved, disk, inode⟩
      by_cases done : off = size
      · have none : available size off 512 = 0 := by
          unfold available
          omega
        rw [none] at moved ⊢
        rw [if_neg (by simp)]
        refine ⟨_, t, rfl, ?_, by rw [moved.offset, done, Nat.add_zero]⟩
        rw [done, Nat.sub_self]
        rfl
      · generalize counted : available size off 512 = count at *
        have more : 0 < count ∧ off + count ≤ size ∧
            (count = 512 ∨ count ≤ 512 ∧ off + count = size) := by
          unfold available at counted
          omega
        have ram : InRam link buf count := by
          unfold available at counted
          rcases inside with none | ram
          · exact absurd none (by decide)
          · exact Or.inr ⟨ram.1, by omega⟩
        rw [if_pos (by omega), Int.toNat_natCast]
        refine Yields.step (Act.zoom_of_ok (loadBytes_run ram t.mm)) ?_
        have rest := ih moved (by rw [inode, sized]) (by omega) more.2.1 (by omega)
        refine Yields.seq rest ?_
        rintro result u ⟨rfl, offset⟩
        refine ⟨_, u, rfl, ?_, offset⟩
        have later : fileBytes t.fs i (off + count) (size - (off + count)) =
            fileBytes s.fs i (off + count) (size - (off + count)) := by
          unfold fileBytes
          rw [disk, inode]
        have split := fileBytes_append s.fs i off count (size - (off + count))
        rw [show count + (size - (off + count)) = size - off by omega] at split
        have reads : (size - off + 511) / 512 = (size - (off + count) + 511) / 512 + 1 := by
          omega
        rw [split, reads]
        change (_, getBytes t.mm.mem buf count ++ _) = _
        rw [piece, later]

/-- `cat` puts out the whole file. -/
theorem cat_delivers {s : State} {e : Fin NFD} {i : Fin NINODE} {buf fuel : Nat}
    (opened : OpenFile s e i 0) (inside : InRam link buf 512)
    (enough : ((s.fs.inode i).size.toNat + 511) / 512 < fuel) :
    Yields (catLoop link e buf fuel) s fun result t =>
      result = (((s.fs.inode i).size.toNat + 511) / 512 + 1,
        fileBytes s.fs i 0 (s.fs.inode i).size.toNat) ∧
      (t.fds e).off = (s.fs.inode i).size.toNat :=
  catLoop_yields opened inside rfl (Or.inl rfl) (Nat.zero_le _) enough

end

/-- A descriptor reads a file of two blocks. -/
def twoBlocksOpen (e : Fin NFD) (i : Fin NINODE) : State :=
  (State.loaded twoBlocks (smallMm 1)).setFd e
    { Fd.zero with type := .FD_FILE, ref := 1, readable := true, ip := some i }

theorem twoBlocksOpen_file : OpenFile (twoBlocksOpen 0 0) 0 0 0 :=
  ⟨rfl, rfl, rfl, rfl, twoBlocks_ready, by decide +kernel, by decide +kernel⟩

theorem cat_delivers_two_blocks :
    Yields (catLoop smallLink 0 0x100000 3) (twoBlocksOpen 0 0) fun result t =>
      result = (3, fileBytes (twoBlocksOpen 0 0).fs 0 0 1024) ∧ (t.fds 0).off = 1024 :=
  cat_delivers twoBlocksOpen_file (Or.inr (by decide)) (by decide +kernel)

end Gcgos.Kernel
