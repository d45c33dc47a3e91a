import Gcgos.Fs.Bio
import Mathlib.Data.Nat.Bitwise
import Mathlib.Tactic.IntervalCases

/-!
# The block bitmap

`balloc` and `bfree` of `kernel/fs.c`. `balloc` scans block numbers upwards
and changes to the next bitmap block at every multiple of `BPB`; it takes the
least number whose bit is clear, sets the bit on disk, and panics when every
bit below the size in the superblock is set. A returning call is described by
the set of marked blocks before and after it.
-/

set_option autoImplicit false

namespace Gcgos.Fs

open Act Bio ByteMap

namespace Block

/-- `0x1 << (bi % 8)` as a byte. -/
def bitMask (bi : Nat) : UInt8 := 1 <<< UInt8.ofNat (bi % 8)

/-- `(data[bi / 8] & m) != 0`. -/
def bit (block : Block) (bi : Nat) : Bool :=
  block.byte (bi / 8) &&& bitMask bi != 0

/-- `data[bi / 8] |= m`. -/
def setBit (block : Block) (bi : Nat) : Block :=
  block.put (bi / 8) [block.byte (bi / 8) ||| bitMask bi]

/-- `data[bi / 8] &= ~m`. -/
def clearBit (block : Block) (bi : Nat) : Block :=
  block.put (bi / 8) [block.byte (bi / 8) &&& ~~~bitMask bi]

theorem bitMask_toNat (bi : Nat) : (bitMask bi).toNat = 2 ^ (bi % 8) := by
  have bound : bi % 8 < 8 := Nat.mod_lt _ (by decide)
  unfold bitMask
  generalize bi % 8 = k at bound
  interval_cases k <;> rfl

theorem bit_eq_testBit (block : Block) (bi : Nat) :
    block.bit bi = (block.byte (bi / 8)).toNat.testBit (bi % 8) := by
  have value : (block.byte (bi / 8) &&& bitMask bi).toNat =
      ((block.byte (bi / 8)).toNat.testBit (bi % 8)).toNat * 2 ^ (bi % 8) := by
    rw [UInt8.toNat_and, bitMask_toNat, Nat.and_two_pow]
  unfold bit
  cases test : (block.byte (bi / 8)).toNat.testBit (bi % 8) with
  | false =>
      rw [test] at value
      have zero : block.byte (bi / 8) &&& bitMask bi = 0 := by
        apply UInt8.toNat_inj.mp
        simpa using value
      simp [zero]
  | true =>
      rw [test] at value
      have positive := Nat.two_pow_pos (bi % 8)
      simp only [bne_iff_ne, ne_eq]
      intro zero
      rw [zero] at value
      simp at value
      omega

/-- Setting a bit changes that bit only. -/
theorem bit_setBit (block : Block) {bi bj : Nat} (bound : bi < BPB) :
    (block.setBit bi).bit bj = (decide (bj = bi) || block.bit bj) := by
  have inBlock : bi / 8 < BSIZE := by
    simp only [BPB, BSIZE] at bound ⊢
    omega
  rw [bit_eq_testBit, bit_eq_testBit]
  by_cases sameByte : bj / 8 = bi / 8
  · have stored : (block.setBit bi).byte (bj / 8) =
        block.byte (bi / 8) ||| bitMask bi := by
      rw [sameByte]
      unfold setBit
      rw [byte_put _ _ _ inBlock, putBytes_inside (le_refl _) (by simp)]
      simp
    have sameBit : (bi % 8 = bj % 8) ↔ bj = bi := by omega
    rw [stored, UInt8.toNat_or, bitMask_toNat, Nat.testBit_or, Nat.testBit_two_pow, sameByte,
      Bool.or_comm]
    simp only [sameBit]
  · have other : bj ≠ bi := fun same => sameByte (by rw [same])
    have kept : (block.setBit bi).byte (bj / 8) = block.byte (bj / 8) := by
      apply byte_put_outside
      simp only [List.length_singleton]
      omega
    rw [kept]
    simp [other]

end Block

/-- An `int` as a loop bound: a negative one lets no iteration run. -/
def intBound (word : UInt32) : Nat := if word.toNat < 2 ^ 31 then word.toNat else 0

/-- At a multiple of `BPB` the scan changes to the bitmap block of `b`. -/
def ballocTurn (dev ninodes : UInt32) (b : Nat) (bp : Fin NBUF) :
    Act Fault Bio (Fin NBUF) :=
  if b % BPB = 0 then do
    brelse bp
    bread dev (BBLOCK b ninodes)
  else pure bp

/-- The loop of `balloc`, with `fuel` numbers left below the size. -/
def ballocScan (dev ninodes : UInt32) :
    (fuel b : Nat) → (bp : Fin NBUF) → Act Fault Bio (Nat × Fin NBUF)
  | 0, b, bp => pure (b, bp)
  | fuel + 1, b, bp => do
      let bp ← ballocTurn dev ninodes b bp
      let data ← bufData bp
      if data.bit (b % BPB) = false then pure (b, bp)
      else ballocScan dev ninodes fuel (b + 1) bp

def balloc (dev : UInt32) : Act Fault Bio UInt32 := do
  let bp ← bread dev 1
  let data ← bufData bp
  let size := intBound data.supperblock.size
  let ninodes := data.supperblock.ninodes
  let (b, bp) ← ballocScan dev ninodes size 0 bp
  Act.stopIf (size ≤ b) (.panic "balloc: out of blocks\n")
  let data ← bufData bp
  bstore dev bp (data.setBit (b % BPB)) (BBLOCK b ninodes)
  pure (UInt32.ofNat b)

def bfree (dev : UInt32) (b : UInt32) : Act Fault Bio Unit := do
  let bp ← bread dev 1
  let data ← bufData bp
  let ninodes := data.supperblock.ninodes
  brelse bp
  let bp ← bread dev (BBLOCK b.toNat ninodes)
  let data ← bufData bp
  bstore dev bp (data.clearBit (b.toNat % BPB)) (BBLOCK b.toNat ninodes)

/-- The bit that `balloc` tests for block `b`. -/
def marked (disk : Nat → Block) (ninodes : UInt32) (b : Nat) : Bool :=
  (disk (BBLOCK b ninodes)).bit (b % BPB)

/-- The disk after `balloc` has taken block `b`. -/
def mark (disk : Nat → Block) (ninodes : UInt32) (b : Nat) : Nat → Block :=
  Function.update disk (BBLOCK b ninodes) ((disk (BBLOCK b ninodes)).setBit (b % BPB))

/-- The least unmarked block below the size of the file system. -/
def firstFree (disk : Nat → Block) : Option Nat :=
  (List.range (intBound (disk 1).supperblock.size)).find? fun b =>
    !marked disk (disk 1).supperblock.ninodes b

theorem BBLOCK_succ {b : Nat} {ninodes : UInt32} (inside : (b + 1) % BPB ≠ 0) :
    BBLOCK (b + 1) ninodes = BBLOCK b ninodes := by
  have same : (b + 1) / BPB = b / BPB := by
    simp only [BPB, BSIZE] at inside ⊢
    omega
  simp only [BBLOCK, same]

/-- What the scan keeps: the buffer `bp` is the one held, and inside a bitmap
block it carries the bits of the block number to be tested next. -/
structure ScanState (s u : Bio) (ninodes : UInt32) (b : Nat) (bp : Fin NBUF) : Prop where
  free : s.busy bp = false
  busy : u.busy = Function.update s.busy bp true
  sd : u.sd = s.sd
  data : b % BPB ≠ 0 → (u.buf bp).data = s.sd.block (BBLOCK b ninodes)

/-- One turn of the scan looks at the bit of `b`. -/
theorem ballocScan_turn {s u : Bio} (dev : UInt32) {ninodes : UInt32} (fuel : Nat) {b : Nat}
    {bp : Fin NBUF}
    (ready : s.Ready 1) (state : ScanState s u ninodes b bp) :
    ∃ bp' v, Held s v bp' (s.sd.block (BBLOCK b ninodes)) ∧
      ballocScan dev ninodes (fuel + 1) b bp u =
        if marked s.sd.block ninodes b = false then .ok ((b, bp'), v)
        else ballocScan dev ninodes fuel (b + 1) bp' v := by
  have turn : ∃ bp' v, Held s v bp' (s.sd.block (BBLOCK b ninodes)) ∧
      ballocTurn dev ninodes b bp u = .ok (bp', v) := by
    by_cases edge : b % BPB = 0
    · obtain ⟨⟨⟩, w, released, settled⟩ := brelse_yields state.free state.busy
        (by rw [state.sd])
      obtain ⟨bp', v, read, held⟩ := bread_yields dev (BBLOCK b ninodes)
        (settled.ready ready)
      have card : w.sd = s.sd := by
        have blocks := settled.disk
        have faults := settled.faults
        rw [state.sd] at blocks
        cases hw : w.sd
        cases hs : s.sd
        simp_all
      refine ⟨bp', v, ⟨?_, ?_, ?_, ?_⟩, ?_⟩
      · rw [← settled.busy]
        exact held.free
      · rw [held.busy, settled.busy]
      · rw [held.data, card]
      · rw [held.sd, card]
      · unfold ballocTurn
        rw [if_pos edge, Act.bind_of_ok released, read]
    · exact ⟨bp, u, ⟨state.free, state.busy, state.data edge, state.sd⟩, by
        simp [ballocTurn, edge]⟩
  obtain ⟨bp', v, held, run⟩ := turn
  refine ⟨bp', v, held, ?_⟩
  rw [ballocScan, Act.bind_of_ok run]
  simp only [bufData, Act.bind_run, Act.reads_run, held.data, Act.ite_run, Act.pure_run, marked]
  rfl

/-- The scan stops at the first clear bit and holds that bit's bitmap block. -/
theorem ballocScan_yields {s u : Bio} (dev : UInt32) {ninodes : UInt32} (ready : s.Ready 1)
    (fuel b c : Nat) (bp : Fin NBUF) (state : ScanState s u ninodes b bp)
    (lower : b ≤ c) (upper : c < b + fuel) (clear : marked s.sd.block ninodes c = false)
    (before : ∀ d, b ≤ d → d < c → marked s.sd.block ninodes d = true) :
    Yields (ballocScan dev ninodes fuel b bp) u fun result v =>
      result.1 = c ∧ Held s v result.2 (s.sd.block (BBLOCK c ninodes)) := by
  induction fuel generalizing b bp u with
  | zero => omega
  | succ fuel ih =>
      obtain ⟨bp', v, held, turn⟩ := ballocScan_turn dev fuel ready state
      by_cases found : b = c
      · subst found
        rw [if_pos clear] at turn
        exact ⟨_, _, turn, rfl, held⟩
      · have taken := before b (le_refl b) (by omega)
        rw [if_neg (by simp [taken])] at turn
        have next : ScanState s v ninodes (b + 1) bp' :=
          ⟨held.free, held.busy, held.sd, fun inside => by
            rw [held.data, BBLOCK_succ inside]⟩
        obtain ⟨result, w, run, done⟩ := ih (b + 1) bp' next (by omega) (by omega)
          (fun d dLower dUpper => before d (by omega) dUpper)
        exact ⟨result, w, turn.trans run, done⟩

/-- With every bit set the scan runs to the end. -/
theorem ballocScan_exhausts {s u : Bio} (dev : UInt32) {ninodes : UInt32} (ready : s.Ready 1)
    (fuel b : Nat) (bp : Fin NBUF) (state : ScanState s u ninodes b bp)
    (full : ∀ d, b ≤ d → d < b + fuel → marked s.sd.block ninodes d = true) :
    Yields (ballocScan dev ninodes fuel b bp) u fun result _ => result.1 = b + fuel := by
  induction fuel generalizing b bp u with
  | zero => exact ⟨_, _, rfl, rfl⟩
  | succ fuel ih =>
      obtain ⟨bp', v, held, turn⟩ := ballocScan_turn dev fuel ready state
      have taken := full b (le_refl b) (by omega)
      rw [if_neg (by simp [taken])] at turn
      have next : ScanState s v ninodes (b + 1) bp' :=
        ⟨held.free, held.busy, held.sd, fun inside => by
          rw [held.data, BBLOCK_succ inside]⟩
      obtain ⟨result, w, run, done⟩ := ih (b + 1) bp' next
        (fun d dLower dUpper => full d (by omega) (by omega))
      exact ⟨result, w, turn.trans run, by omega⟩

theorem firstFree_some {disk : Nat → Block} {b : Nat} (found : firstFree disk = some b) :
    b < intBound (disk 1).supperblock.size ∧
      marked disk (disk 1).supperblock.ninodes b = false ∧
      ∀ d, d < b → marked disk (disk 1).supperblock.ninodes d = true := by
  unfold firstFree at found
  rw [List.find?_range_eq_some] at found
  obtain ⟨clear, member, before⟩ := found
  refine ⟨List.mem_range.mp member, by simpa using clear, ?_⟩
  intro d less
  simpa using before d less

theorem firstFree_none {disk : Nat → Block} (none_found : firstFree disk = none) :
    ∀ d, d < intBound (disk 1).supperblock.size →
      marked disk (disk 1).supperblock.ninodes d = true := by
  intro d less
  unfold firstFree at none_found
  rw [List.find?_eq_none] at none_found
  simpa using none_found d (List.mem_range.mpr less)

/-- `balloc` takes the least free block and marks it. -/
theorem balloc_yields {s : Bio} {b : Nat} (dev : UInt32) (ready : s.Ready 1)
    (found : firstFree s.sd.block = some b) :
    Yields (balloc dev) s fun result t =>
      result = UInt32.ofNat b ∧
        Settled s t (mark s.sd.block (s.sd.block 1).supperblock.ninodes b) := by
  obtain ⟨below, clear, before⟩ := firstFree_some found
  obtain ⟨bp, u, read, held⟩ := bread_yields dev 1 ready
  have start : ScanState s u (s.sd.block 1).supperblock.ninodes 0 bp :=
    ⟨held.free, held.busy, held.sd, fun inside => absurd rfl inside⟩
  obtain ⟨result, v, scan, stopped, scanHeld⟩ := ballocScan_yields dev ready
    _ 0 b bp start (Nat.zero_le b) (by simpa using below) clear
    (fun d _ less => before d less)
  obtain ⟨b', bp'⟩ := result
  subst stopped
  have inRange : ¬intBound (s.sd.block 1).supperblock.size ≤ b' := by omega
  obtain ⟨⟨⟩, w, stored, settled⟩ := bstore_yields scanHeld dev
    ((s.sd.block (BBLOCK b' (s.sd.block 1).supperblock.ninodes)).setBit (b' % BPB))
    (BBLOCK b' (s.sd.block 1).supperblock.ninodes)
  refine ⟨UInt32.ofNat b', w, ?_, rfl, settled⟩
  unfold balloc
  rw [Act.bind_of_ok read]
  simp only [bufData, Act.bind_run, Act.reads_run, held.data]
  rw [scan]
  simp only [Act.stopIf_of_not _ _ inRange, scanHeld.data]
  rw [stored]
  rfl

/-- A full bitmap makes `balloc` panic. -/
theorem balloc_full {s : Bio} (dev : UInt32) (ready : s.Ready 1)
    (full : firstFree s.sd.block = none) :
    balloc dev s = .error (.panic "balloc: out of blocks\n") := by
  obtain ⟨bp, u, read, held⟩ := bread_yields dev 1 ready
  have start : ScanState s u (s.sd.block 1).supperblock.ninodes 0 bp :=
    ⟨held.free, held.busy, held.sd, fun inside => absurd rfl inside⟩
  obtain ⟨result, v, scan, stopped⟩ := ballocScan_exhausts dev ready
    (intBound (s.sd.block 1).supperblock.size) 0 bp start
    (fun d _ less => firstFree_none full d (by simpa using less))
  have atEnd : intBound (s.sd.block 1).supperblock.size ≤ result.1 := by omega
  unfold balloc
  rw [Act.bind_of_ok read]
  simp only [bufData, Act.bind_run, Act.reads_run, held.data]
  rw [scan]
  simp only [Act.stopIf_of _ _ atEnd]

end Gcgos.Fs
