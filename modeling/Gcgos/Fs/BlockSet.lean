import Gcgos.Fs.Table
import Gcgos.Lib.Pool

/-!
# The bitmap as a set of blocks

`balloc` and `bfree` over every run: the marked blocks below the size are a
set, `balloc` adds its least free block and `bfree` takes one out. This needs
no more of the superblock than a size that is positive as an `int`; the number
of inodes is arbitrary.
-/

set_option autoImplicit false

namespace Gcgos.Fs

open Act Bio ByteMap

namespace Block

theorem ext_bit {left right : Block} (same : ∀ j, j < BPB → left.bit j = right.bit j) :
    left = right := by
  apply ext_byte
  intro i bound
  apply UInt8.toNat_inj.mp
  apply Nat.eq_of_testBit_eq
  intro k
  by_cases low : k < 8
  · have bit := same (8 * i + k) (by simp only [BPB, BSIZE] at *; omega)
    have byte : (8 * i + k) / 8 = i := by omega
    have place : (8 * i + k) % 8 = k := by omega
    rw [bit_eq_testBit, bit_eq_testBit, byte, place] at bit
    exact bit
  · have high : 256 ≤ 2 ^ k := Nat.pow_le_pow_right (by decide : 0 < 2) (by omega : 8 ≤ k)
    rw [Nat.testBit_lt_two_pow ((left.byte i).toNat_lt.trans_le high),
      Nat.testBit_lt_two_pow ((right.byte i).toNat_lt.trans_le high)]

/-- Clearing a bit changes that bit only. -/
theorem bit_clearBit (block : Block) {bi bj : Nat} (bound : bi < BPB) :
    (block.clearBit bi).bit bj = (!decide (bj = bi) && block.bit bj) := by
  have inBlock : bi / 8 < BSIZE := by
    simp only [BPB, BSIZE] at bound ⊢
    omega
  rw [bit_eq_testBit, bit_eq_testBit]
  by_cases sameByte : bj / 8 = bi / 8
  · have stored : (block.clearBit bi).byte (bj / 8) =
        block.byte (bi / 8) &&& ~~~bitMask bi := by
      rw [sameByte]
      unfold clearBit
      rw [byte_put _ _ _ inBlock, putBytes_inside (le_refl _) (by simp)]
      simp
    have low : bj % 8 < 8 := Nat.mod_lt _ (by decide)
    have sameBit : (bi % 8 = bj % 8) ↔ bj = bi := by omega
    have mask : (~~~bitMask bi).toNat.testBit (bj % 8) = !decide (bj = bi) := by
      have power : 2 ^ (bi % 8) < 2 ^ 8 :=
        Nat.pow_lt_pow_right (by decide) (Nat.mod_lt _ (by decide))
      rw [UInt8.toNat_not, bitMask_toNat,
        show UInt8.size - 1 - 2 ^ (bi % 8) = 2 ^ 8 - (2 ^ (bi % 8) + 1) by
          simp only [UInt8.size]; omega,
        Nat.testBit_two_pow_sub_succ power, Nat.testBit_two_pow]
      simp only [low, decide_true, Bool.true_and, sameBit]
    rw [stored, UInt8.toNat_and, Nat.testBit_and, mask, sameByte, Bool.and_comm]
  · have other : bj ≠ bi := fun same => sameByte (by rw [same])
    have kept : (block.clearBit bi).byte (bj / 8) = block.byte (bj / 8) := by
      apply byte_put_outside
      simp only [List.length_singleton]
      omega
    rw [kept]
    simp [other]

end Block

/-! ## The bitmap blocks -/

/-- The bitmap lies behind the superblock and below the end of the sector
numbers, whatever the number of inodes is. -/
theorem BBLOCK_base (ninodes : UInt32) :
    ∃ base, 3 ≤ base ∧ ∀ b, b < 2 ^ 31 → BBLOCK b ninodes = base + b / BPB := by
  refine ⟨sext32 ninodes / IPB % 2 ^ 32 + 3, by omega, ?_⟩
  intro b bound
  have word := ninodes.toNat_lt
  unfold BBLOCK sext32
  simp only [BPB, BSIZE, IPB] at *
  split <;> omega

theorem BBLOCK_ne_super {b : Nat} (ninodes : UInt32) (bound : b < 2 ^ 31) :
    BBLOCK b ninodes ≠ 1 := by
  obtain ⟨base, behind, sector⟩ := BBLOCK_base ninodes
  rw [sector b bound]
  exact ne_of_gt (lt_of_lt_of_le (by decide) (behind.trans (Nat.le_add_right _ _)))

theorem bit_place_injective {b c : Nat} (ninodes : UInt32) (bBound : b < 2 ^ 31)
    (cBound : c < 2 ^ 31) :
    (BBLOCK c ninodes = BBLOCK b ninodes ∧ c % BPB = b % BPB) ↔ c = b := by
  obtain ⟨base, -, sector⟩ := BBLOCK_base ninodes
  rw [sector b bBound, sector c cBound]
  simp only [BPB, BSIZE]
  omega

/-- From `disk` to `disk'` one bit of one block got a value, and no other bit
of any block changed. -/
def OneBit (disk disk' : Nat → Block) (sector place : Nat) (value : Bool) : Prop :=
  ∀ other j, j < BPB → (disk' other).bit j =
    if other = sector ∧ j = place then value else (disk other).bit j

theorem OneBit.other {disk disk' : Nat → Block} {sector place : Nat} {value : Bool}
    (one : OneBit disk disk' sector place value) {other : Nat} (different : other ≠ sector) :
    disk' other = disk other := by
  apply Block.ext_bit
  intro j bound
  rw [one other j bound, if_neg fun hit => different hit.1]

/-- Setting a clear bit and clearing it again leaves the disk as it was. -/
theorem OneBit.undo {first second third : Nat → Block} {sector place : Nat}
    (set : OneBit first second sector place true) (clear : OneBit second third sector place false)
    (unset : (first sector).bit place = false) : third = first := by
  funext other
  apply Block.ext_bit
  intro j bound
  rw [clear other j bound, set other j bound]
  split
  · next here => rw [here.1, here.2, unset]
  · rfl

theorem mark_oneBit (disk : Nat → Block) (ninodes : UInt32) (b : Nat) :
    OneBit disk (mark disk ninodes b) (BBLOCK b ninodes) (b % BPB) true := by
  intro other j _
  unfold mark
  by_cases here : other = BBLOCK b ninodes
  · subst here
    rw [Function.update_self, Block.bit_setBit _ (Nat.mod_lt _ (by decide))]
    by_cases place : j = b % BPB <;> simp [place]
  · rw [Function.update_of_ne here, if_neg fun hit => here hit.1]

/-- The disk after `bfree` has given block `b` back. -/
def unmark (disk : Nat → Block) (ninodes : UInt32) (b : Nat) : Nat → Block :=
  Function.update disk (BBLOCK b ninodes) ((disk (BBLOCK b ninodes)).clearBit (b % BPB))

theorem unmark_oneBit (disk : Nat → Block) (ninodes : UInt32) (b : Nat) :
    OneBit disk (unmark disk ninodes b) (BBLOCK b ninodes) (b % BPB) false := by
  intro other j _
  unfold unmark
  by_cases here : other = BBLOCK b ninodes
  · subst here
    rw [Function.update_self, Block.bit_clearBit _ (Nat.mod_lt _ (by decide))]
    by_cases place : j = b % BPB <;> simp [place]
  · rw [Function.update_of_ne here, if_neg fun hit => here hit.1]

theorem bfree_yields {s : Bio} (dev b : UInt32) (ready : s.Ready 1) :
    Yields (bfree dev b) s fun _ t =>
      Settled s t (unmark s.sd.block (s.sd.block 1).supperblock.ninodes b.toNat) := by
  unfold bfree
  refine Yields.seq (bread_yields dev 1 ready) ?_
  intro bp t held
  refine Yields.seq (bufData_yields held) ?_
  rintro data _ ⟨rfl, rfl⟩
  refine Yields.seq held.release ?_
  intro _ u settled
  refine Yields.seq (bread_yields dev _ (settled.ready ready)) ?_
  intro bp' v heldHere
  have held' := settled.held heldHere
  rw [settled.disk] at held'
  refine Yields.seq (bufData_yields held') ?_
  rintro data _ ⟨rfl, rfl⟩
  exact bstore_yields held' dev _ _

/-! ## The set of allocated blocks -/

/-- The blocks below the size whose bit is set. -/
def allocated (disk : Nat → Block) : Set Nat :=
  { b | b < (superOf disk).size.toNat ∧ marked disk (superOf disk).ninodes b = true }

/-- A change of the bit of one block is a change of the set by that block. -/
theorem OneBit.marked {disk disk' : Nat → Block} {ninodes : UInt32} {b : Nat} {value : Bool}
    (one : OneBit disk disk' (BBLOCK b ninodes) (b % BPB) value) (bBound : b < 2 ^ 31) {c : Nat}
    (cBound : c < 2 ^ 31) :
    marked disk' ninodes c = if c = b then value else marked disk ninodes c := by
  have place := one (BBLOCK c ninodes) (c % BPB) (Nat.mod_lt _ (by decide))
  simp only [bit_place_injective ninodes bBound cBound] at place
  exact place

section

variable {disk disk' : Nat → Block} {b : Nat}

theorem OneBit.super {value : Bool}
    (one : OneBit disk disk' (BBLOCK b (superOf disk).ninodes) (b % BPB) value)
    (bound : b < 2 ^ 31) : superOf disk' = superOf disk := by
  unfold superOf
  rw [one.other (BBLOCK_ne_super _ bound).symm]

theorem allocated_set (small : (superOf disk).size.toNat < 2 ^ 31)
    (inside : b < (superOf disk).size.toNat)
    (one : OneBit disk disk' (BBLOCK b (superOf disk).ninodes) (b % BPB) true) :
    allocated disk' = insert b (allocated disk) := by
  ext c
  unfold allocated
  rw [one.super (inside.trans small)]
  simp only [Set.mem_ofPred_eq, Set.mem_insert_iff]
  by_cases below : c < (superOf disk).size.toNat
  · rw [one.marked (inside.trans small) (below.trans small)]
    by_cases here : c = b <;> simp [here, below, inside]
  · have other : c ≠ b := by
      rintro rfl
      exact below inside
    simp [below, other]

theorem allocated_clear (small : (superOf disk).size.toNat < 2 ^ 31)
    (inside : b < (superOf disk).size.toNat)
    (one : OneBit disk disk' (BBLOCK b (superOf disk).ninodes) (b % BPB) false) :
    allocated disk' = allocated disk \ {b} := by
  ext c
  unfold allocated
  rw [one.super (inside.trans small)]
  simp only [Set.mem_ofPred_eq, Set.mem_sdiff, Set.mem_singleton_iff]
  by_cases below : c < (superOf disk).size.toNat
  · rw [one.marked (inside.trans small) (below.trans small)]
    by_cases here : c = b <;> simp [here, below]
  · simp [below]

end

/-! ## One call -/

/-- The least block below the size that is not allocated. -/
structure LeastOut (disk : Nat → Block) (b : Nat) : Prop where
  inside : b < (superOf disk).size.toNat
  out : b ∉ allocated disk
  least : ∀ c, c < (superOf disk).size.toNat → c ∉ allocated disk → b ≤ c

theorem firstFree_iff {disk : Nat → Block} (small : (superOf disk).size.toNat < 2 ^ 31) {b : Nat} :
    firstFree disk = some b ↔ LeastOut disk b := by
  have size : intBound (disk 1).supperblock.size = (superOf disk).size.toNat := if_pos small
  constructor
  · intro found
    obtain ⟨below, clear, before⟩ := firstFree_some found
    rw [size] at below
    refine ⟨below, fun held => ?_, fun c inside out => ?_⟩
    · exact absurd (clear.symm.trans held.2) (by decide)
    · by_contra earlier
      exact out ⟨inside, before c (by omega)⟩
  · rintro ⟨inside, out, least⟩
    cases found : firstFree disk with
    | none =>
        have full := firstFree_none found b (by rw [size]; exact inside)
        exact absurd ⟨inside, full⟩ out
    | some c =>
        obtain ⟨below, clear, before⟩ := firstFree_some found
        rw [size] at below
        have lower : b ≤ c := least c below fun held =>
          absurd (clear.symm.trans held.2) (by decide)
        have upper : c ≤ b := by
          by_contra later
          exact out ⟨inside, before b (by omega)⟩
        rw [le_antisymm lower upper]

theorem firstFree_none_iff {disk : Nat → Block} (small : (superOf disk).size.toNat < 2 ^ 31) :
    firstFree disk = none ↔ allocated disk = { b | b < (superOf disk).size.toNat } := by
  have size : intBound (disk 1).supperblock.size = (superOf disk).size.toNat := if_pos small
  constructor
  · intro full
    ext b
    exact ⟨fun held => held.1,
      fun inside => ⟨inside, firstFree_none full b (by rw [size]; exact inside)⟩⟩
  · intro all
    cases found : firstFree disk with
    | none => rfl
    | some b =>
        obtain ⟨inside, out, -⟩ := (firstFree_iff small).mp found
        rw [all] at out
        exact absurd inside out

/-- What a call of `balloc` or `bfree` did to the disk: it changed the bit of
block `b`, and with it the set. -/
structure Changed (s t : Bio) (b : Nat) (value : Bool) (after : Set Nat) : Prop where
  settled : Settled s t t.sd.block
  bit : OneBit s.sd.block t.sd.block (BBLOCK b (superOf s.sd.block).ninodes) (b % BPB) value
  set : allocated t.sd.block = after
  super : superOf t.sd.block = superOf s.sd.block

section

variable {s : Bio} {b : Nat}

theorem balloc_adds (dev : UInt32) (ready : s.Ready 1)
    (small : (superOf s.sd.block).size.toNat < 2 ^ 31) (least : LeastOut s.sd.block b) :
    Yields (balloc dev) s fun result t =>
      result.toNat = b ∧ Changed s t b true (insert b (allocated s.sd.block)) := by
  refine (balloc_yields dev ready ((firstFree_iff small).mpr least)).mono ?_
  rintro result t ⟨rfl, settled⟩
  have one := mark_oneBit s.sd.block (superOf s.sd.block).ninodes b
  have bound : b < 2 ^ 31 := least.inside.trans small
  obtain ⟨busy, disk, faults⟩ := settled
  have disk' : t.sd.block = mark s.sd.block (superOf s.sd.block).ninodes b := disk
  rw [← disk'] at one
  refine ⟨UInt32.toNat_ofNat_of_lt' (bound.trans (by decide)), ⟨busy, rfl, faults⟩, one,
    allocated_set small least.inside one, one.super bound⟩

theorem balloc_panics_iff (dev : UInt32) (ready : s.Ready 1)
    (small : (superOf s.sd.block).size.toNat < 2 ^ 31) :
    (∃ message, balloc dev s = .error (.panic message)) ↔
      allocated s.sd.block = { b | b < (superOf s.sd.block).size.toNat } := by
  rw [← firstFree_none_iff small]
  cases found : firstFree s.sd.block with
  | none => exact iff_of_true ⟨_, balloc_full dev ready found⟩ rfl
  | some b =>
      obtain ⟨_, _, run, -⟩ := balloc_yields dev ready found
      refine iff_of_false ?_ (by simp)
      rintro ⟨_, stopped⟩
      rw [run] at stopped
      cases stopped

/-- A call that returns took the least block that was not allocated. -/
theorem balloc_took (dev : UInt32) (ready : s.Ready 1)
    (small : (superOf s.sd.block).size.toNat < 2 ^ 31) :
    Ensures (balloc dev) s fun result t => LeastOut s.sd.block result.toNat ∧
      Changed s t result.toNat true (insert result.toNat (allocated s.sd.block)) := by
  intro result t run
  cases found : firstFree s.sd.block with
  | none =>
      rw [balloc_full dev ready found] at run
      cases run
  | some b =>
      have least := (firstFree_iff small).mp found
      obtain ⟨same, changed⟩ := (balloc_adds dev ready small least).ensures result t run
      subst same
      exact ⟨least, changed⟩

theorem bfree_removes (dev b : UInt32) (ready : s.Ready 1)
    (small : (superOf s.sd.block).size.toNat < 2 ^ 31) (held : b.toNat ∈ allocated s.sd.block) :
    Yields (bfree dev b) s fun _ t =>
      Changed s t b.toNat false (allocated s.sd.block \ {b.toNat}) := by
  refine (bfree_yields dev b ready).mono ?_
  rintro _ t ⟨busy, disk, faults⟩
  have one := unmark_oneBit s.sd.block (superOf s.sd.block).ninodes b.toNat
  have disk' : t.sd.block = unmark s.sd.block (superOf s.sd.block).ninodes b.toNat := disk
  rw [← disk'] at one
  exact ⟨⟨busy, rfl, faults⟩, one, allocated_clear small held.1 one,
    one.super (held.1.trans small)⟩

end

/-! ## Every run -/

/-- A run of calls that return, each `bfree` of an allocated block. -/
inductive BitmapRun (dev : UInt32) : Bio → List (Pool.Event Nat) → Bio → Prop where
  | nil (s : Bio) : BitmapRun dev s [] s
  | balloc {s t u : Bio} {b : UInt32} {events : List (Pool.Event Nat)}
      (returned : balloc dev s = .ok (b, t)) (rest : BitmapRun dev t events u) :
      BitmapRun dev s (.took b.toNat :: events) u
  | bfree {s t u : Bio} {b : UInt32} {events : List (Pool.Event Nat)}
      (held : b.toNat ∈ allocated s.sd.block) (returned : bfree dev b s = .ok ((), t))
      (rest : BitmapRun dev t events u) : BitmapRun dev s (.freed b.toNat :: events) u

/-- A run of the code is a run of the set, over the same superblock. -/
theorem BitmapRun.refines {dev : UInt32} {s t : Bio} {events : List (Pool.Event Nat)}
    (run : BitmapRun dev s events t) (ready : s.Ready 1)
    (small : (superOf s.sd.block).size.toNat < 2 ^ 31) :
    Pool.Run (allocated s.sd.block) events (allocated t.sd.block) ∧ t.Ready 1 ∧
      superOf t.sd.block = superOf s.sd.block := by
  induction run with
  | nil s => exact ⟨Pool.Run.nil _, ready, rfl⟩
  | balloc returned rest ih =>
      obtain ⟨least, settled, -, set, super⟩ := balloc_took dev ready small _ _ returned
      obtain ⟨later, ready', super'⟩ := ih (settled.ready ready) (by rw [super]; exact small)
      rw [set] at later
      exact ⟨Pool.Run.cons (Pool.Step.took least.out) later, ready', super'.trans super⟩
  | bfree held returned rest ih =>
      obtain ⟨settled, -, set, super⟩ :=
        (bfree_removes dev _ ready small held).ensures _ _ returned
      obtain ⟨later, ready', super'⟩ := ih (settled.ready ready) (by rw [super]; exact small)
      rw [set] at later
      exact ⟨Pool.Run.cons (Pool.Step.freed held) later, ready', super'.trans super⟩

/-- A block that is taken and at once given back leaves the disk as it was. -/
theorem bfree_undoes_balloc {dev : UInt32} {s t u : Bio} {b : UInt32} (ready : s.Ready 1)
    (small : (superOf s.sd.block).size.toNat < 2 ^ 31) (took : balloc dev s = .ok (b, t))
    (freed : bfree dev b t = .ok ((), u)) : u.sd.block = s.sd.block := by
  obtain ⟨least, settled, set, added, super⟩ := balloc_took dev ready small _ _ took
  have held : b.toNat ∈ allocated t.sd.block := by
    rw [added]
    exact Set.mem_insert _ _
  obtain ⟨-, clear, -, -⟩ := (bfree_removes dev b (settled.ready ready)
    (by rw [super]; exact small) held).ensures _ _ freed
  rw [super] at clear
  refine set.undo clear ?_
  have unset : marked s.sd.block (superOf s.sd.block).ninodes b.toNat ≠ true :=
    fun bit => least.out ⟨least.inside, bit⟩
  exact Bool.eq_false_of_not_eq_true unset

/-- After every run the bitmap is a set: the run followed it, and the next call
changes it by one block and the disk by one bit. -/
theorem bitmap_implements_set {s t : Bio} {events : List (Pool.Event Nat)} (dev : UInt32)
    (ready : s.Ready 1) (small : (superOf s.sd.block).size.toNat < 2 ^ 31)
    (run : BitmapRun dev s events t) :
    Pool.Run (allocated s.sd.block) events (allocated t.sd.block) ∧
    superOf t.sd.block = superOf s.sd.block ∧
    (∀ b, LeastOut t.sd.block b → Yields (balloc dev) t fun result u =>
      result.toNat = b ∧ Changed t u b true (insert b (allocated t.sd.block))) ∧
    ((∃ message, balloc dev t = .error (.panic message)) ↔
      allocated t.sd.block = { b | b < (superOf t.sd.block).size.toNat }) ∧
    (∀ b : UInt32, b.toNat ∈ allocated t.sd.block → Yields (bfree dev b) t fun _ u =>
      Changed t u b.toNat false (allocated t.sd.block \ {b.toNat})) ∧
    (∀ b first mid last, events = first ++ .took b :: (mid ++ .took b :: last) →
      Pool.Event.freed b ∈ mid) ∧
    ∀ b u v, balloc dev t = .ok (b, u) → bfree dev b u = .ok ((), v) → v.sd.block = t.sd.block := by
  obtain ⟨set, ready', super⟩ := run.refines ready small
  have small' : (superOf t.sd.block).size.toNat < 2 ^ 31 := by
    rw [super]
    exact small
  refine ⟨set, super, fun b least => balloc_adds dev ready' small' least,
    balloc_panics_iff dev ready' small', fun b held => bfree_removes dev b ready' small' held, ?_,
    fun b u v took freed => bfree_undoes_balloc ready' small' took freed⟩
  intro b first mid last split
  rw [split] at set
  exact set.freed_between

/-- A card of nine blocks with nothing allocated. -/
def nineBlocks : Bio := (State.loaded fun b =>
  if b = 1 then Block.zero.putU32 0 9 else Block.zero).bio

/-- `balloc` takes block 0, and `bfree` of it is a call that the set allows. -/
theorem bitmap_implements_set_nine : ∃ t : Bio,
    BitmapRun rootdev nineBlocks [.took 0] t ∧ allocated t.sd.block = {0} ∧
    Yields (bfree rootdev 0) t fun _ u => allocated u.sd.block = ∅ := by
  have facts : (superOf nineBlocks.sd.block).size = 9 ∧
      ∀ b < 9, marked nineBlocks.sd.block (superOf nineBlocks.sd.block).ninodes b = false := by
    decide +kernel
  obtain ⟨nine, clear⟩ := facts
  have empty : allocated nineBlocks.sd.block = ∅ := by
    ext b
    refine iff_of_false ?_ (Set.notMem_empty b)
    rintro ⟨inside, bit⟩
    rw [nine] at inside
    rw [clear b inside] at bit
    cases bit
  have ready : nineBlocks.Ready 1 :=
    ⟨rfl, Finset.card_pos.mpr ⟨⟨0, by decide⟩, by simp [Bio.busy, nineBlocks, State.loaded]⟩⟩
  have small : (superOf nineBlocks.sd.block).size.toNat < 2 ^ 31 := by
    rw [nine]
    decide
  have least : LeastOut nineBlocks.sd.block 0 := by
    refine ⟨by rw [nine]; decide, ?_, fun c _ _ => Nat.zero_le c⟩
    rw [empty]
    exact Set.notMem_empty 0
  obtain ⟨b, t, took, zero, changed⟩ := balloc_adds rootdev ready small least
  have run := BitmapRun.balloc took (BitmapRun.nil t)
  rw [zero] at run
  have one : allocated t.sd.block = {0} := by
    rw [changed.set, empty, insert_empty_eq]
  obtain ⟨-, -, -, -, removes, -⟩ := bitmap_implements_set rootdev ready small run
  refine ⟨t, run, one, (removes 0 (by rw [one]; rfl)).mono ?_⟩
  rintro _ u ⟨-, -, set, -⟩
  rw [set, one]
  exact Set.sdiff_self

end Gcgos.Fs
