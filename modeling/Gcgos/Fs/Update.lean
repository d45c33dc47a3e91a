import Gcgos.Fs.Delivery
import Gcgos.Fs.Orderly
import Mathlib.Data.Finset.Card

/-!
# `writei` as an update of the bytes of a file

A write to direct blocks stores each byte at its position of the file and
changes no other byte that the file had. The entries it fills are distinct
blocks that were free, and the bitmap gains exactly these. The argument is
one piece at a time: what a piece does to the positions of its own range, and
how two ranges that follow each other compose.
-/

set_option autoImplicit false

namespace Gcgos.Fs

open Act Bio ByteMap

/-- The blocks of a file: its direct entries are zero or distinct data blocks
that the bitmap marks. -/
structure DirectFile (disk : Nat → Block) (addrs : Addrs) : Prop extends Reserved disk where
  data : ∀ k, k < NDIRECT → addrs (addrSlot k) ≠ 0 →
    dataStart (superOf disk) ≤ (addrs (addrSlot k)).toNat ∧
      (addrs (addrSlot k)).toNat < (superOf disk).size.toNat ∧
      marked disk (superOf disk).ninodes (addrs (addrSlot k)).toNat = true
  distinct : ∀ k l, k < NDIRECT → l < NDIRECT → addrs (addrSlot k) ≠ 0 →
    addrs (addrSlot k) = addrs (addrSlot l) → k = l

/-- The entry is new and stands for block `b`. -/
def NewEntry (addrs addrs' : Addrs) (b : Nat) : Prop :=
  ∃ k, k < NDIRECT ∧ addrs (addrSlot k) = 0 ∧ addrs' (addrSlot k) ≠ 0 ∧
    (addrs' (addrSlot k)).toNat = b

/-- The positions from `lo` on and below `hi` touch block `k`. -/
def InRange (lo hi k : Nat) : Prop := ∃ x, lo ≤ x ∧ x < hi ∧ x / BSIZE = k

/-- The positions from `lo` to `hi` of a file have got the bytes `f`. -/
structure Filled (lo hi : Nat) (f : Nat → UInt8) (disk disk' : Nat → Block)
    (addrs addrs' : Addrs) : Prop where
  file : DirectFile disk' addrs'
  low : ∀ sector, 0 < sector → sector < inodeEnd (superOf disk) → disk' sector = disk sector
  grown : Grown (InRange lo hi) addrs addrs'
  free : ∀ b, NewEntry addrs addrs' b → marked disk (superOf disk).ninodes b = false
  bits : ∀ b, b < (superOf disk).size.toNat → (marked disk' (superOf disk).ninodes b = true ↔
    marked disk (superOf disk).ninodes b = true ∨ NewEntry addrs addrs' b)
  written : ∀ x, lo ≤ x → x < hi →
    (disk' (addrs' (addrSlot (x / BSIZE))).toNat).byte (x % BSIZE) = f x
  kept : ∀ k, k < NDIRECT → addrs (addrSlot k) ≠ 0 → ∀ y, y < BSIZE →
    (k * BSIZE + y < lo ∨ hi ≤ k * BSIZE + y) →
    (disk' (addrs (addrSlot k)).toNat).byte y = (disk (addrs (addrSlot k)).toNat).byte y

namespace Filled

variable {lo mid hi : Nat} {f : Nat → UInt8} {disk disk₁ disk₂ : Nat → Block}
  {addrs addrs₁ addrs₂ : Addrs}

theorem super (filled : Filled lo hi f disk disk₁ addrs addrs₁) :
    superOf disk₁ = superOf disk := by
  have lowest := three_le_inodeEnd (superOf disk)
  exact congrArg Block.supperblock (filled.low 1 (by omega) (by omega))

/-- New entries of two steps are those of the first and those of the second. -/
theorem newEntry_iff (left : Grown (InRange lo mid) addrs addrs₁)
    (right : Grown (InRange mid hi) addrs₁ addrs₂) (b : Nat) :
    NewEntry addrs addrs₂ b ↔ NewEntry addrs addrs₁ b ∨ NewEntry addrs₁ addrs₂ b := by
  constructor
  · rintro ⟨k, bound, zero, nonzero, number⟩
    by_cases first : addrs₁ (addrSlot k) = 0
    · exact Or.inr ⟨k, bound, first, nonzero, number⟩
    · rw [right.kept _ first] at number
      exact Or.inl ⟨k, bound, zero, first, number⟩
  · rintro (⟨k, bound, zero, nonzero, number⟩ | ⟨k, bound, zero, nonzero, number⟩)
    · refine ⟨k, bound, zero, ?_, ?_⟩
      · rw [right.kept _ nonzero]
        exact nonzero
      · rw [right.kept _ nonzero]
        exact number
    · refine ⟨k, bound, ?_, nonzero, number⟩
      by_contra used
      rw [left.kept _ used] at zero
      exact used zero

/-- Two ranges that follow each other. -/
theorem trans (left : Filled lo mid f disk disk₁ addrs addrs₁)
    (right : Filled mid hi f disk₁ disk₂ addrs₁ addrs₂) (lower : lo ≤ mid) (upper : mid ≤ hi)
    (direct : hi ≤ NDIRECT * BSIZE) : Filled lo hi f disk disk₂ addrs addrs₂ := by
  have super := left.super
  constructor
  case file => exact right.file
  case low =>
    intro sector positive below
    rw [right.low sector positive (by rw [super]; exact below), left.low sector positive below]
  case grown =>
    refine (left.grown.trans right.grown).congr ?_
    intro k
    unfold InRange
    constructor
    · rintro ⟨x, after, before, block⟩
      by_cases first : x < mid
      · exact Or.inl ⟨x, after, first, block⟩
      · exact Or.inr ⟨x, by omega, before, block⟩
    · rintro (⟨x, after, before, block⟩ | ⟨x, after, before, block⟩)
      · exact ⟨x, after, by omega, block⟩
      · exact ⟨x, by omega, before, block⟩
  case free =>
    intro b new
    rcases (newEntry_iff left.grown right.grown b).mp new with first | second
    · exact left.free b first
    · have clear := right.free b second
      obtain ⟨k, bound, _, nonzero, number⟩ := second
      have inside := (right.file.data k bound nonzero).2.1
      rw [right.super, super, number] at inside
      rw [super] at clear
      by_contra set
      have marked := (left.bits b inside).mpr (Or.inl (by simpa using set))
      rw [clear] at marked
      cases marked
  case bits =>
    intro b inside
    have second := right.bits b (by rw [super]; exact inside)
    rw [super] at second
    rw [second, left.bits b inside, newEntry_iff left.grown right.grown, or_assoc]
  case written =>
    intro x after before
    by_cases first : x < mid
    · have block : x / BSIZE < NDIRECT := by
        simp only [NDIRECT, BSIZE] at direct ⊢
        omega
      have used := left.grown.mapped (x / BSIZE) ⟨x, after, first, rfl⟩
      rw [right.grown.kept _ used, right.kept (x / BSIZE) block used (x % BSIZE)
        (Nat.mod_lt _ (by decide)) (Or.inl (by rw [Nat.div_add_mod']; exact first))]
      exact left.written x after first
    · exact right.written x (by omega) before
  case kept =>
    intro k bound used y inside outside
    have same := left.grown.kept _ used
    have second := right.kept k bound (by rw [same]; exact used) y inside (by omega)
    rw [same] at second
    rw [second, left.kept k bound used y inside (by omega)]

end Filled

/-- A change of a data block leaves the bits alone. -/
theorem Reserved.marked_data {disk : Nat → Block} (reserved : Reserved disk) {blk b : Nat}
    (data : dataStart (superOf disk) ≤ blk) (block : Block)
    (bound : b < (superOf disk).size.toNat) :
    marked (Function.update disk blk block) (superOf disk).ninodes b =
      marked disk (superOf disk).ninodes b := by
  have sector := reserved.geometry.BBLOCK_bounds bound
  unfold marked
  rw [Function.update_of_ne (by omega)]

/-- What giving entry `k` a block does. -/
structure EntryStep (k : Nat) (disk disk' : Nat → Block) (addrs addrs' : Addrs) : Prop where
  file : DirectFile disk' addrs'
  low : ∀ sector, 0 < sector → sector < inodeEnd (superOf disk) → disk' sector = disk sector
  data : ∀ sector, dataStart (superOf disk) ≤ sector → disk' sector = disk sector
  used : addrs' (addrSlot k) ≠ 0
  kept : ∀ j, addrs j ≠ 0 → addrs' j = addrs j
  rest : ∀ j, j ≠ addrSlot k → addrs' j = addrs j
  free : ∀ b, NewEntry addrs addrs' b → marked disk (superOf disk).ninodes b = false
  bits : ∀ b, b < (superOf disk).size.toNat → (marked disk' (superOf disk).ninodes b = true ↔
    marked disk (superOf disk).ninodes b = true ∨ NewEntry addrs addrs' b)

theorem newEntry_none {addrs : Addrs} {b : Nat} : ¬NewEntry addrs addrs b := by
  rintro ⟨k, _, zero, nonzero, _⟩
  exact nonzero zero

/-- The entry that `balloc` fills. -/
theorem newEntry_update {addrs : Addrs} {k b : Nat} {w : UInt32} (bound : k < NDIRECT)
    (zero : addrs (addrSlot k) = 0) (nonzero : w ≠ 0) :
    NewEntry addrs (Function.update addrs (addrSlot k) w) b ↔ b = w.toNat := by
  constructor
  · rintro ⟨j, inside, empty, filled, number⟩
    by_cases here : addrSlot j = addrSlot k
    · rw [here, Function.update_self] at number
      exact number.symm
    · rw [Function.update_of_ne here] at filled
      exact absurd empty filled
  · rintro rfl
    refine ⟨k, bound, zero, ?_, ?_⟩
    · rw [Function.update_self]
      exact nonzero
    · rw [Function.update_self]

theorem directAlloc_step {disk disk' : Nat → Block} {addrs addrs' : Addrs} {k : Nat}
    (file : DirectFile disk addrs) (direct : k < NDIRECT)
    (run : directAlloc disk addrs (addrSlot k) = some (disk', addrs')) :
    EntryStep k disk disk' addrs addrs' := by
  unfold directAlloc at run
  by_cases empty : addrs (addrSlot k) = 0
  · rw [if_pos empty] at run
    obtain ⟨b, found, same⟩ := Option.map_eq_some_iff.mp run
    cases same
    have reserved := file.toReserved
    obtain ⟨lower, upper, clear⟩ := reserved.firstFree_data found
    obtain ⟨number, nonzero⟩ := reserved.firstFree_word found
    have bitmap := reserved.geometry.BBLOCK_bounds upper
    have super : superOf (mark disk (disk 1).supperblock.ninodes b) = superOf disk :=
      congrArg Block.supperblock
        (Function.update_of_ne (Ne.symm (reserved.BBLOCK_ne_one upper)) _ _)
    have bits : ∀ c, c < (superOf disk).size.toNat →
        (marked (mark disk (disk 1).supperblock.ninodes b) (superOf disk).ninodes c = true ↔
          marked disk (superOf disk).ninodes c = true ∨ c = b) := by
      intro c below
      rw [show marked (mark disk (disk 1).supperblock.ninodes b) (superOf disk).ninodes c = _ from
        marked_mark reserved.geometry upper below]
      simp [or_comm]
    have apart : ∀ j, j < NDIRECT → addrs (addrSlot j) ≠ 0 →
        addrs (addrSlot j) ≠ UInt32.ofNat b := by
      intro j inside used same
      have mark := (file.data j inside used).2.2
      rw [same, number, clear] at mark
      cases mark
    constructor
    case file =>
      refine ⟨reserved.alloc upper, ?_, ?_⟩
      · intro j inside used
        rw [super]
        by_cases here : addrSlot j = addrSlot k
        · rw [here, Function.update_self, number]
          exact ⟨lower, upper, (bits b upper).mpr (Or.inr rfl)⟩
        · rw [Function.update_of_ne here] at used ⊢
          obtain ⟨above, below, mark⟩ := file.data j inside used
          exact ⟨above, below, (bits _ below).mpr (Or.inl mark)⟩
      · intro j l insideJ insideL used same
        by_cases hereJ : addrSlot j = addrSlot k <;> by_cases hereL : addrSlot l = addrSlot k
        · exact addrSlot_injective insideJ.le insideL.le (hereJ.trans hereL.symm)
        · rw [hereJ, Function.update_self, Function.update_of_ne hereL] at same
          exact absurd same.symm (apart l insideL (by rw [← same]; exact nonzero))
        · rw [hereL, Function.update_self, Function.update_of_ne hereJ] at same
          rw [Function.update_of_ne hereJ] at used
          exact absurd same (apart j insideJ used)
        · rw [Function.update_of_ne hereJ, Function.update_of_ne hereL] at same
          rw [Function.update_of_ne hereJ] at used
          exact file.distinct j l insideJ insideL used same
    case low =>
      intro sector _ below
      exact reserved.mark_low upper below
    case data =>
      intro sector above
      exact Function.update_of_ne (by rw [← superOf]; omega) _ _
    case used =>
      rw [Function.update_self]
      exact nonzero
    case kept =>
      intro j used
      refine Function.update_of_ne ?_ _ _
      rintro rfl
      exact used empty
    case rest =>
      intro j other
      exact Function.update_of_ne other _ _
    case free =>
      intro c new
      rw [(newEntry_update direct empty nonzero).mp new, number]
      exact clear
    case bits =>
      intro c below
      rw [bits c below, newEntry_update direct empty nonzero, number]
  · rw [if_neg empty] at run
    cases run
    exact ⟨file, fun _ _ _ => rfl, fun _ _ => rfl, empty, fun _ _ => rfl, fun _ _ => rfl,
      fun _ new => absurd new newEntry_none, fun _ _ => (or_iff_left newEntry_none).symm⟩

/-- One piece: the entry gets a block and the piece goes to its place in it. -/
theorem piece_filled {disk disk₁ : Nat → Block} {addrs addrs₁ : Addrs} {off : Nat}
    {f : Nat → UInt8} (piece : List UInt8) (step : EntryStep (off / BSIZE) disk disk₁ addrs addrs₁)
    (direct : off / BSIZE < NDIRECT) (nonempty : piece ≠ [])
    (inside : off % BSIZE + piece.length ≤ BSIZE)
    (bytes : ∀ x, off ≤ x → x < off + piece.length → piece.getD (x - off) 0 = f x) :
    Filled off (off + piece.length) f disk
      (directStore disk₁ (addrs₁ (addrSlot (off / BSIZE))).toNat off piece) addrs addrs₁ := by
  have positive : 0 < piece.length := List.length_pos_iff.mpr nonempty
  obtain ⟨above, below, mark⟩ := step.file.data _ direct step.used
  have lowest := three_le_inodeEnd (superOf disk)
  have behind := inodeEnd_lt_dataStart (superOf disk)
  have super : superOf disk₁ = superOf disk :=
    congrArg Block.supperblock (step.low 1 (by omega) (by omega))
  have block : ∀ x, off ≤ x → x < off + piece.length → x / BSIZE = off / BSIZE := by
    intro x lower upper
    simp only [BSIZE] at inside ⊢
    omega
  have within : ∀ y, y < BSIZE → ((directStore disk₁ (addrs₁ (addrSlot (off / BSIZE))).toNat off
      piece) (addrs₁ (addrSlot (off / BSIZE))).toNat).byte y =
        putBytes (disk₁ (addrs₁ (addrSlot (off / BSIZE))).toNat).byte (off % BSIZE) piece y := by
    intro y bound
    unfold directStore
    rw [Function.update_self, Block.byte_put _ _ _ bound]
  have bits : ∀ b, b < (superOf disk).size.toNat →
      marked (directStore disk₁ (addrs₁ (addrSlot (off / BSIZE))).toNat off piece)
        (superOf disk).ninodes b = marked disk₁ (superOf disk).ninodes b := by
    intro b bound
    have same := step.file.toReserved.marked_data above
      ((disk₁ (addrs₁ (addrSlot (off / BSIZE))).toNat).put (off % BSIZE) piece)
      (b := b) (by rw [super]; exact bound)
    rw [super] at same
    exact same
  have superAfter : superOf (directStore disk₁ (addrs₁ (addrSlot (off / BSIZE))).toNat off piece) =
      superOf disk₁ := by
    refine congrArg Block.supperblock (Function.update_of_ne ?_ _ _)
    rw [super] at above
    omega
  constructor
  case file =>
    refine ⟨step.file.toReserved.dataBlock (Or.inr above) _, ?_, step.file.distinct⟩
    intro k bound used
    obtain ⟨start, stop, set⟩ := step.file.data k bound used
    rw [superAfter]
    refine ⟨start, stop, ?_⟩
    rw [super] at stop set ⊢
    rw [bits _ stop]
    exact set
  case low =>
    intro sector first last
    rw [← step.low sector first last]
    refine Function.update_of_ne ?_ _ _
    rw [super] at above
    omega
  case grown =>
    refine ⟨step.kept, ?_, ?_⟩
    · rintro _ ⟨x, lower, upper, rfl⟩
      rw [block x lower upper]
      exact step.used
    · intro j away
      exact step.rest j (Ne.symm (away _ ⟨off, le_rfl, by omega, rfl⟩))
  case free => exact step.free
  case bits =>
    intro b bound
    rw [bits b bound]
    exact step.bits b bound
  case written =>
    intro x lower upper
    have place : x % BSIZE = off % BSIZE + (x - off) := by
      have same := block x lower upper
      simp only [BSIZE] at same inside ⊢
      omega
    rw [block x lower upper, within _ (Nat.mod_lt _ (by decide)),
      putBytes_inside (by omega) (by omega), ← bytes x lower upper]
    congr 1
    omega
  case kept =>
    intro k bound used y small outside
    have same := step.kept _ used
    by_cases here : k = off / BSIZE
    · subst here
      rw [← same, within y small, putBytes_outside ?_, same]
      · rw [step.data]
        rw [← super, ← same]
        exact above
      · have whole := Nat.div_add_mod' off BSIZE
        omega
    · have different : addrs (addrSlot k) ≠ addrs₁ (addrSlot (off / BSIZE)) := by
        rw [← same]
        intro equal
        exact here (step.file.distinct k _ bound direct (by rw [same]; exact used) equal)
      have sector : (addrs (addrSlot k)).toNat ≠ (addrs₁ (addrSlot (off / BSIZE))).toNat :=
        fun equal => different (UInt32.toNat_inj.mp equal)
      unfold directStore
      rw [Function.update_of_ne sector, step.data]
      have place := (step.file.data k bound (by rw [same]; exact used)).1
      rw [super, same] at place
      exact place

theorem Filled.refl {disk : Nat → Block} {addrs : Addrs} (file : DirectFile disk addrs) (off : Nat)
    (f : Nat → UInt8) : Filled off off f disk disk addrs addrs := by
  refine ⟨file, fun _ _ _ => rfl, Grown.refl _ ?_, fun _ new => absurd new newEntry_none,
    fun _ _ => (or_iff_left newEntry_none).symm, ?_, fun _ _ _ _ _ _ => rfl⟩
  · rintro k ⟨x, lower, upper, _⟩
    omega
  · intro x lower upper
    omega

theorem getD_take {src : List UInt8} {m j : Nat} (inside : j < m) :
    (src.take m).getD j 0 = src.getD j 0 := by
  simp [List.getD_eq_getElem?_getD, inside]

/-- The bytes of a piece and of the rest are bytes of the whole. -/
theorem bytes_rest {src : List UInt8} {off m : Nat} {f : Nat → UInt8}
    (bytes : ∀ x, off ≤ x → x < off + src.length → src.getD (x - off) 0 = f x) :
    ∀ x, off + m ≤ x → x < off + m + (src.drop m).length →
      (src.drop m).getD (x - (off + m)) 0 = f x := by
  intro x lower upper
  rw [List.length_drop] at upper
  rw [← bytes x (by omega) (by omega), List.getD_eq_getElem?_getD, List.getElem?_drop,
    List.getD_eq_getElem?_getD, show m + (x - (off + m)) = x - off by omega]

/-- The first turn of the loop. -/
theorem firstPiece_filled {disk disk₁ : Nat → Block} {addrs addrs₁ : Addrs} {off : Nat}
    {src : List UInt8} {f : Nat → UInt8} (file : DirectFile disk addrs) (nonempty : src ≠ [])
    (direct : off + src.length ≤ NDIRECT * BSIZE)
    (bytes : ∀ x, off ≤ x → x < off + src.length → src.getD (x - off) 0 = f x)
    (alloc : directAlloc disk addrs (addrSlot (off / BSIZE)) = some (disk₁, addrs₁)) :
    Filled off (off + min (BSIZE - off % BSIZE) src.length) f disk
      (directStore disk₁ (addrs₁ (addrSlot (off / BSIZE))).toNat off
        (src.take (min (BSIZE - off % BSIZE) src.length))) addrs addrs₁ := by
  have positive : 0 < src.length := List.length_pos_iff.mpr nonempty
  have inside : off % BSIZE < BSIZE := Nat.mod_lt _ (by decide)
  have low : off / BSIZE < NDIRECT := InDirect.block (Or.inr direct) nonempty
  have length : (src.take (min (BSIZE - off % BSIZE) src.length)).length =
      min (BSIZE - off % BSIZE) src.length := by
    rw [List.length_take]
    omega
  have filled := piece_filled (f := f) (src.take (min (BSIZE - off % BSIZE) src.length))
    (directAlloc_step file low alloc) low
    (by
      intro empty
      rw [empty, List.length_nil] at length
      omega)
    (by rw [length]; omega)
    (by
      intro x lower upper
      rw [length] at upper
      rw [getD_take (by omega)]
      exact bytes x lower (by omega))
  rw [length] at filled
  exact filled

/-- The loop of `writei` fills its range. -/
theorem directRun_filled (fuel off : Nat) (src : List UInt8) {disk disk' : Nat → Block}
    {addrs addrs' : Addrs} {f : Nat → UInt8} (file : DirectFile disk addrs)
    (enough : src.length ≤ fuel) (direct : off + src.length ≤ NDIRECT * BSIZE)
    (bytes : ∀ x, off ≤ x → x < off + src.length → src.getD (x - off) 0 = f x)
    (run : directRun fuel off src disk addrs = some (disk', addrs')) :
    Filled off (off + src.length) f disk disk' addrs addrs' := by
  induction fuel generalizing off src disk addrs with
  | zero =>
      have empty : src = [] := List.eq_nil_of_length_eq_zero (by omega)
      subst empty
      cases run
      exact Filled.refl file off f
  | succ fuel ih =>
      unfold directRun at run
      by_cases empty : src = []
      · subst empty
        rw [if_pos rfl] at run
        cases run
        exact Filled.refl file off f
      · rw [if_neg empty] at run
        obtain ⟨⟨disk₁, addrs₁⟩, alloc, rest⟩ := Option.bind_eq_some_iff.mp run
        have positive : 0 < src.length := List.length_pos_iff.mpr empty
        have inside : off % BSIZE < BSIZE := Nat.mod_lt _ (by decide)
        have first := firstPiece_filled file empty direct bytes alloc
        have last := ih _ _ first.file (by rw [List.length_drop]; omega)
          (by rw [List.length_drop]; omega) (bytes_rest bytes) rest
        rw [List.length_drop, show off + min (BSIZE - off % BSIZE) src.length +
          (src.length - min (BSIZE - off % BSIZE) src.length) = off + src.length by omega] at last
        exact first.trans last (by omega) (by omega) direct

theorem inRange_iff (lo hi k : Nat) :
    InRange lo hi k ↔ lo < hi ∧ lo / BSIZE ≤ k ∧ k ≤ (hi - 1) / BSIZE := by
  unfold InRange
  simp only [BSIZE]
  constructor
  · rintro ⟨x, lower, upper, rfl⟩
    omega
  · rintro ⟨some, first, last⟩
    by_cases start : k = lo / 512
    · exact ⟨lo, le_rfl, some, start.symm⟩
    · exact ⟨k * 512, by omega, by omega, by omega⟩

instance (lo hi k : Nat) : Decidable (InRange lo hi k) :=
  decidable_of_iff _ (inRange_iff lo hi k).symm

/-- The blocks that `balloc` can still hand out. -/
def freeBlocks (disk : Nat → Block) : Finset Nat :=
  (Finset.range (superOf disk).size.toNat).filter fun b =>
    marked disk (superOf disk).ninodes b = false

/-- The entries that a write to this range has to fill. -/
def missing (lo hi : Nat) (addrs : Addrs) : Finset Nat :=
  (Finset.range NDIRECT).filter fun k => InRange lo hi k ∧ addrs (addrSlot k) = 0

/-- The entries that a step has filled. -/
def filledEntries (addrs addrs' : Addrs) : Finset Nat :=
  (Finset.range NDIRECT).filter fun k => addrs (addrSlot k) = 0 ∧ addrs' (addrSlot k) ≠ 0

/-- Only entries of the range are filled. -/
theorem Grown.inRange {lo hi k : Nat} {addrs addrs' : Addrs}
    (grown : Grown (InRange lo hi) addrs addrs') (direct : k < NDIRECT)
    (zero : addrs (addrSlot k) = 0) (nonzero : addrs' (addrSlot k) ≠ 0) : InRange lo hi k := by
  by_contra outside
  have same := grown.rest (addrSlot k) (by
    rintro l touched equal
    have value := congrArg Fin.val equal
    rw [addrSlot_val direct.le] at value
    simp only [addrSlot] at value
    obtain rfl : l = k := by omega
    exact outside touched)
  rw [same] at nonzero
  exact nonzero zero

section

variable {lo mid : Nat} {f : Nat → UInt8} {disk disk₁ : Nat → Block} {addrs addrs₁ : Addrs}

/-- What is no longer missing has been filled. -/
theorem Filled.missing_card (filled : Filled lo mid f disk disk₁ addrs addrs₁) (hi : Nat)
    (lower : lo ≤ mid) (upper : mid ≤ hi) :
    (missing mid hi addrs₁).card + (filledEntries addrs addrs₁).card ≤
      (missing lo hi addrs).card := by
  have apart : Disjoint (missing mid hi addrs₁) (filledEntries addrs addrs₁) := by
    apply Finset.disjoint_left.mpr
    intro k left right
    exact (Finset.mem_filter.mp right).2.2 (Finset.mem_filter.mp left).2.2
  rw [← Finset.card_union_of_disjoint apart]
  apply Finset.card_le_card
  intro k member
  rcases Finset.mem_union.mp member with later | now
  · obtain ⟨bound, ⟨x, after, before, block⟩, zero⟩ := Finset.mem_filter.mp later
    refine Finset.mem_filter.mpr ⟨bound, ⟨x, by omega, before, block⟩, ?_⟩
    by_contra used
    rw [filled.grown.kept _ used] at zero
    exact used zero
  · obtain ⟨bound, zero, nonzero⟩ := Finset.mem_filter.mp now
    have direct := Finset.mem_range.mp bound
    refine Finset.mem_filter.mpr ⟨bound, ?_, zero⟩
    obtain ⟨x, after, before, block⟩ := filled.grown.inRange direct zero nonzero
    exact ⟨x, after, by omega, block⟩

/-- A free block stays free unless an entry stands for it. -/
theorem Filled.free_card (filled : Filled lo mid f disk disk₁ addrs addrs₁) :
    (freeBlocks disk).card ≤ (freeBlocks disk₁).card + (filledEntries addrs addrs₁).card := by
  have covered : freeBlocks disk ⊆ freeBlocks disk₁ ∪
      (filledEntries addrs addrs₁).image fun k => (addrs₁ (addrSlot k)).toNat := by
    intro b member
    obtain ⟨bound, clear⟩ := Finset.mem_filter.mp member
    have inside := Finset.mem_range.mp bound
    rw [Finset.mem_union]
    by_cases set : marked disk₁ (superOf disk).ninodes b = true
    · right
      obtain ⟨k, direct, zero, nonzero, number⟩ := ((filled.bits b inside).mp set).resolve_left
        (by rw [clear]; decide)
      exact Finset.mem_image.mpr ⟨k, Finset.mem_filter.mpr
        ⟨Finset.mem_range.mpr direct, zero, nonzero⟩, number⟩
    · left
      unfold freeBlocks
      rw [filled.super]
      exact Finset.mem_filter.mpr ⟨bound, by simpa using set⟩
  have union := (Finset.card_le_card covered).trans (Finset.card_union_le _ _)
  have image := Finset.card_image_le (s := filledEntries addrs addrs₁)
    (f := fun k => (addrs₁ (addrSlot k)).toNat)
  omega

end

/-- With a free block for every missing entry the loop does not run out. -/
theorem directRun_some (fuel off : Nat) (src : List UInt8) {disk : Nat → Block} {addrs : Addrs}
    (file : DirectFile disk addrs) (length : src.length ≤ fuel)
    (direct : off + src.length ≤ NDIRECT * BSIZE)
    (enough : (missing off (off + src.length) addrs).card ≤ (freeBlocks disk).card) :
    ∃ disk' addrs', directRun fuel off src disk addrs = some (disk', addrs') := by
  induction fuel generalizing off src disk addrs with
  | zero => exact ⟨disk, addrs, rfl⟩
  | succ fuel ih =>
      unfold directRun
      by_cases empty : src = []
      · rw [if_pos empty]
        exact ⟨disk, addrs, rfl⟩
      · rw [if_neg empty]
        have positive : 0 < src.length := List.length_pos_iff.mpr empty
        have inside : off % BSIZE < BSIZE := Nat.mod_lt _ (by decide)
        have low : off / BSIZE < NDIRECT := InDirect.block (Or.inr direct) empty
        have alloc : ∃ disk₁ addrs₁,
            directAlloc disk addrs (addrSlot (off / BSIZE)) = some (disk₁, addrs₁) := by
          unfold directAlloc
          by_cases zero : addrs (addrSlot (off / BSIZE)) = 0
          · rw [if_pos zero]
            cases found : firstFree disk with
            | some b => exact ⟨_, _, rfl⟩
            | none =>
                have first : off / BSIZE ∈ missing off (off + src.length) addrs :=
                  Finset.mem_filter.mpr ⟨Finset.mem_range.mpr low,
                    ⟨off, le_rfl, by omega, rfl⟩, zero⟩
                have some : 0 < (freeBlocks disk).card :=
                  lt_of_lt_of_le (Finset.card_pos.mpr ⟨_, first⟩) enough
                obtain ⟨b, member⟩ := Finset.card_pos.mp some
                obtain ⟨bound, clear⟩ := Finset.mem_filter.mp member
                have set := firstFree_none found b (by
                  rw [← superOf, file.geometry.intBound_size]
                  exact Finset.mem_range.mp bound)
                rw [← superOf, clear] at set
                cases set
          · rw [if_neg zero]
            exact ⟨disk, addrs, rfl⟩
        obtain ⟨disk₁, addrs₁, taken⟩ := alloc
        rw [taken, Option.bind_some]
        have first := firstPiece_filled (f := fun x => src.getD (x - off) 0) file empty direct
          (fun _ _ _ => rfl) taken
        have total : off + min (BSIZE - off % BSIZE) src.length +
            (src.drop (min (BSIZE - off % BSIZE) src.length)).length = off + src.length := by
          rw [List.length_drop]
          omega
        apply ih _ _ first.file (by rw [List.length_drop]; omega)
        · rw [total]
          exact direct
        · rw [total]
          have fewer := first.missing_card (off + src.length) (by omega) (by omega)
          have left := first.free_card
          omega

/-- From `s` to `t` the bytes `src` were written to the file in slot `i`, from
position `off` on. -/
structure BytesWritten (s t : State) (i : Fin NINODE) (off : Nat) (src : List UInt8) : Prop where
  written : ∀ x, off ≤ x → x < off + src.length →
    fileByte t.disk (t.inode i) x = src.getD (x - off) 0
  kept : ∀ k, k < NDIRECT → (s.inode i).addrs (addrSlot k) ≠ 0 → ∀ y, y < BSIZE →
    (k * BSIZE + y < off ∨ off + src.length ≤ k * BSIZE + y) →
    (t.disk ((s.inode i).addrs (addrSlot k)).toNat).byte y =
      (s.disk ((s.inode i).addrs (addrSlot k)).toNat).byte y
  entries : ∀ k, (s.inode i).addrs k ≠ 0 → (t.inode i).addrs k = (s.inode i).addrs k
  filled : ∀ k, k < NDIRECT → (s.inode i).addrs (addrSlot k) = 0 →
    ((t.inode i).addrs (addrSlot k) ≠ 0 ↔
      src ≠ [] ∧ off / BSIZE ≤ k ∧ k ≤ (off + src.length - 1) / BSIZE)
  indirect : (t.inode i).addrs indirectSlot = (s.inode i).addrs indirectSlot
  free : ∀ k, k < NDIRECT → (s.inode i).addrs (addrSlot k) = 0 →
    (t.inode i).addrs (addrSlot k) ≠ 0 →
    marked s.disk (superOf s.disk).ninodes ((t.inode i).addrs (addrSlot k)).toNat = false
  distinct : ∀ k l, k < NDIRECT → l < NDIRECT → (t.inode i).addrs (addrSlot k) ≠ 0 →
    (t.inode i).addrs (addrSlot k) = (t.inode i).addrs (addrSlot l) → k = l
  bits : ∀ b, b < (superOf s.disk).size.toNat →
    (marked t.disk (superOf s.disk).ninodes b = true ↔
      marked s.disk (superOf s.disk).ninodes b = true ∨
        NewEntry (s.inode i).addrs (t.inode i).addrs b)
  size : (t.inode i).size.toNat =
    if src = [] then (s.inode i).size.toNat else max (s.inode i).size.toNat (off + src.length)
  dinode : (dinodeAt t.disk (s.inode i).inum.toNat).size = (t.inode i).size

/-- The new size. -/
theorem writeiGrow_size (ip : Inode) {n off : Nat} (small : off < 2 ^ 32) :
    (writeiGrow n off ip).size.toNat = if n = 0 then ip.size.toNat else max ip.size.toNat off := by
  unfold writeiGrow
  split
  · rename_i grows
    rw [if_neg (by omega)]
    simp only
    rw [UInt32.toNat_ofNat_of_lt' small]
    omega
  · split
    · rfl
    · omega

@[simp] theorem writeiGrow_addrs (n off : Nat) (ip : Inode) :
    (writeiGrow n off ip).addrs = ip.addrs := by
  unfold writeiGrow
  split <;> rfl

@[simp] theorem writeiGrow_inum (n off : Nat) (ip : Inode) :
    (writeiGrow n off ip).inum = ip.inum := by
  unfold writeiGrow
  split <;> rfl

/-- A write to direct blocks is an update of the bytes of the file. -/
theorem writei_updates_bytes {s : State} (i : Fin NINODE) (off : Nat) (src : List UInt8)
    (ready : s.bio.Ready 1) (type : (s.inode i).type = T_FILE)
    (inArea : (s.inode i).inum.toNat < (superOf s.disk).ninodes.toNat)
    (file : DirectFile s.disk (s.inode i).addrs) (direct : off + src.length ≤ NDIRECT * BSIZE)
    (enough : (missing off (off + src.length) (s.inode i).addrs).card ≤
      (freeBlocks s.disk).card) :
    Yields (writei i src off) s fun result t =>
      result = src.length ∧ BytesWritten s t i off src := by
  obtain ⟨disk', addrs', run⟩ := directRun_some src.length off src file le_rfl direct enough
  have filled := directRun_filled (f := fun x => src.getD (x - off) 0) src.length off src file
    le_rfl direct (fun _ _ _ => rfl) run
  have write : directWrite s.disk (s.inode i) src off =
      some (updateOnDisk disk'
          (writeiGrow src.length (off + src.length) { s.inode i with addrs := addrs' }),
        writeiGrow src.length (off + src.length) { s.inode i with addrs := addrs' }) := by
    unfold directWrite
    rw [run]
    rfl
  refine (writei_direct_yields i src off type ready (Or.inr direct) write).mono ?_
  rintro result t ⟨rfl, wrote⟩
  refine ⟨rfl, ?_⟩
  have inode := wrote.at_slot
  have disk := wrote.disk_eq
  have addrs : (t.inode i).addrs = addrs' := by
    rw [inode, writeiGrow_addrs]
  have sector := IBLOCK_bounds inArea
  have behind := inodeEnd_lt_dataStart (superOf s.disk)
  have other : ∀ sector, inodeEnd (superOf s.disk) ≤ sector → t.disk sector = disk' sector := by
    intro sector above
    rw [disk]
    apply updateOnDisk_other
    rw [writeiGrow_inum]
    simp only
    omega
  have dataSector : ∀ k, k < NDIRECT → addrs' (addrSlot k) ≠ 0 →
      t.disk (addrs' (addrSlot k)).toNat = disk' (addrs' (addrSlot k)).toNat := by
    intro k bound used
    apply other
    have place := (filled.file.data k bound used).1
    rw [filled.super] at place
    omega
  have bits : ∀ b, b < (superOf s.disk).size.toNat →
      marked t.disk (superOf s.disk).ninodes b = marked disk' (superOf s.disk).ninodes b := by
    intro b bound
    unfold marked
    rw [other _ (file.geometry.BBLOCK_bounds bound).1]
  have small : off + src.length < 2 ^ 32 := by
    simp only [NDIRECT, BSIZE] at direct
    omega
  constructor
  case written =>
    intro x lower upper
    have block : x / BSIZE < NDIRECT := by
      simp only [NDIRECT, BSIZE] at direct ⊢
      omega
    have used := filled.grown.mapped (x / BSIZE) ⟨x, lower, upper, rfl⟩
    unfold fileByte
    rw [addrs, dataSector (x / BSIZE) block used]
    exact filled.written x lower upper
  case kept =>
    intro k bound used y inside outside
    have same := filled.grown.kept _ used
    rw [← same, dataSector k bound (by rw [same]; exact used), same]
    exact filled.kept k bound used y inside outside
  case entries =>
    intro k used
    rw [addrs]
    exact filled.grown.kept k used
  case filled =>
    intro k bound zero
    rw [addrs]
    have nonempty : src ≠ [] ↔ off < off + src.length := by
      rw [← List.length_pos_iff]
      omega
    rw [nonempty, ← inRange_iff]
    constructor
    · exact filled.grown.inRange bound zero
    · exact filled.grown.mapped k
  case indirect =>
    rw [addrs]
    apply filled.grown.rest
    rintro k ⟨x, lower, upper, rfl⟩
    apply addrSlot_direct
    simp only [NDIRECT, BSIZE] at direct ⊢
    omega
  case free =>
    intro k bound zero used
    rw [addrs] at used ⊢
    exact filled.free _ ⟨k, bound, zero, used, rfl⟩
  case distinct =>
    rw [addrs]
    exact filled.file.distinct
  case bits =>
    intro b bound
    rw [addrs, bits b bound]
    exact filled.bits b bound
  case size =>
    rw [inode, writeiGrow_size _ small]
    simp [List.length_eq_zero_iff]
  case dinode =>
    have updated : dinodeAt (updateOnDisk disk'
        (writeiGrow src.length (off + src.length) { s.inode i with addrs := addrs' })) _ = _ :=
      dinodeAt_updateOnDisk
    rw [writeiGrow_inum] at updated
    rw [disk, updated, inode]

/-- The empty file of the small disk, resident in slot 0. -/
def emptyFileOpen : State :=
  emptyFileState.setInode ⟨0, NINODE_pos⟩
    { emptyInode with inum := 1, count := 1, type := T_FILE, nlink := 1 }

theorem writei_updates_bytes_small :
    Yields (writei 0 [7, 8, 9] 510) emptyFileOpen fun result t =>
      result = 3 ∧ BytesWritten emptyFileOpen t 0 510 [7, 8, 9] := by
  have zero : ∀ k, (emptyFileOpen.inode 0).addrs k = 0 := fun _ => rfl
  refine writei_updates_bytes 0 510 [7, 8, 9] emptyFileState_orderly.ready rfl
    (by decide +kernel) ⟨emptyFileState_orderly.reserved, ?_, ?_⟩ (by decide) (by decide +kernel)
  · intro k _ used
    exact absurd (zero _) used
  · intro k l _ _ used
    exact absurd (zero _) used

end Gcgos.Fs
