import Gcgos.Lib.Placement
import Gcgos.Mkfs.Image
import Mathlib.Data.Finset.Range

/-!
# Which block belongs to which file

A file of `mkfs` has a number of data blocks and perhaps an indirect block.
The blocks in use sit at distinct numbers between the first data block and
`freeblock`, everything from `freeblock` on is zero, and so is every entry for
a block the file does not have. Handing out the next block for one more data
block, or for an indirect block, keeps this and leaves the blocks that are
already there alone.
-/

set_option autoImplicit false

namespace Gcgos.Mkfs

open Fs ByteMap

/-- What a file has been given. -/
structure Shape where
  blocks : Nat
  table : Bool

/-- The blocks of a file: its data blocks and its indirect block. -/
inductive Slot where
  | data (k : Nat)
  | table
deriving DecidableEq

def Slot.Used (shape : Shape) : Slot → Prop
  | .data k => k < shape.blocks
  | .table => shape.table = true

def Slot.block (disk : Nat → Block) (addrs : Addrs) : Slot → Nat
  | .data k => blockOf disk addrs k
  | .table => (addrs indirectSlot).toNat

/-- The blocks in use, of all files. -/
def InUse (shape : Nat → Shape) (place : Nat × Slot) : Prop :=
  place.1 < ninodes ∧ place.2.Used (shape place.1)

def blockAt (addrs : Nat → Addrs) (disk : Nat → Block) (place : Nat × Slot) : Nat :=
  place.2.block disk (addrs place.1)

/-- One file: what it has not been given is zero. -/
structure Tidy (addrs : Addrs) (disk : Nat → Block) (shape : Shape) : Prop where
  limit : shape.blocks ≤ MAXFILE
  tables : NDIRECT < shape.blocks → shape.table = true
  noDirect : ∀ k, shape.blocks ≤ k → k < NDIRECT → addrs (addrSlot k) = 0
  noTable : shape.table = false → addrs indirectSlot = 0
  noEntry : ∀ j, shape.table = true → shape.blocks ≤ NDIRECT + j → j < NINDIRECT →
    (disk (addrs indirectSlot).toNat).entry j = 0

/-- All files. -/
structure Filed (addrs : Nat → Addrs) (disk : Nat → Block) (free : Nat)
    (shape : Nat → Shape) : Prop where
  order : firstData ≤ free
  placed : Placement (InUse shape) (blockAt addrs disk) firstData free
  tidy : ∀ n, n < ninodes → Tidy (addrs n) disk (shape n)
  fresh : ∀ b, free ≤ b → disk b = Block.zero

theorem Tidy.congr {addrs : Addrs} {disk disk' : Nat → Block} {shape : Shape}
    (tidy : Tidy addrs disk shape)
    (agree : shape.table = true →
      disk' (addrs indirectSlot).toNat = disk (addrs indirectSlot).toNat) :
    Tidy addrs disk' shape := by
  refine ⟨tidy.limit, tidy.tables, tidy.noDirect, tidy.noTable, ?_⟩
  intro j table unused bound
  rw [agree table]
  exact tidy.noEntry j table unused bound

/-- The data blocks that `shape` has are the same blocks with the same bytes
under `addrs'` and `disk'`. -/
def SameData (addrs : Nat → Addrs) (disk : Nat → Block) (shape : Nat → Shape)
    (addrs' : Nat → Addrs) (disk' : Nat → Block) : Prop :=
  ∀ n k, n < ninodes → k < (shape n).blocks →
    blockOf disk' (addrs' n) k = blockOf disk (addrs n) k ∧
      disk' (blockOf disk (addrs n) k) = disk (blockOf disk (addrs n) k)

theorem SameData.refl (addrs : Nat → Addrs) (disk : Nat → Block) (shape : Nat → Shape) :
    SameData addrs disk shape addrs disk := fun _ _ _ _ => ⟨rfl, rfl⟩

theorem entry_zero (j : Nat) : Block.zero.entry j = 0 := by
  rw [Block.entry, Block.u32, Block.leNat_zero]
  rfl

namespace Filed

variable {addrs : Nat → Addrs} {disk : Nat → Block} {free : Nat} {shape : Nat → Shape}

/-- A block in use has a number that is not zero. -/
theorem positive (filed : Filed addrs disk free shape) {n : Nat} (slot : Slot)
    (inArea : n < ninodes) (used : slot.Used (shape n)) : slot.block disk (addrs n) ≠ 0 := by
  have bound := (filed.placed.inside (n, slot) ⟨inArea, used⟩).1
  simp only [blockAt, firstData, ninodes, IPB, bitblocks] at bound
  omega

theorem below (filed : Filed addrs disk free shape) {n : Nat} (slot : Slot)
    (inArea : n < ninodes) (used : slot.Used (shape n)) :
    firstData ≤ slot.block disk (addrs n) ∧ slot.block disk (addrs n) < free :=
  filed.placed.inside (n, slot) ⟨inArea, used⟩

/-- A data block in use is no indirect block in use. -/
theorem data_ne_table (filed : Filed addrs disk free shape) {n m k : Nat}
    (inArea : n < ninodes) (used : k < (shape n).blocks) (inArea' : m < ninodes)
    (table : (shape m).table = true) :
    blockOf disk (addrs n) k ≠ (addrs m indirectSlot).toNat := by
  intro same
  have equal := filed.placed.apart (n, .data k) (m, .table) ⟨inArea, used⟩ ⟨inArea', table⟩ same
  cases equal

/-- The block numbers in use depend on the indirect blocks only. -/
theorem block_congr (filed : Filed addrs disk free shape) {disk' : Nat → Block} {n : Nat}
    (inArea : n < ninodes)
    (agree : (shape n).table = true →
      disk' (addrs n indirectSlot).toNat = disk (addrs n indirectSlot).toNat)
    (slot : Slot) (used : slot.Used (shape n)) :
    slot.block disk' (addrs n) = slot.block disk (addrs n) := by
  cases slot with
  | table => rfl
  | data k =>
      simp only [Slot.block, blockOf]
      by_cases direct : k < NDIRECT
      · rw [if_pos direct, if_pos direct]
      · rw [if_neg direct, if_neg direct]
        have behind : NDIRECT < (shape n).blocks := lt_of_le_of_lt (not_lt.mp direct) used
        rw [agree ((filed.tidy n inArea).tables behind)]

/-- New bytes for a data block in use leave every indirect block alone. -/
theorem store_table (filed : Filed addrs disk free shape) {n k : Nat} (inArea : n < ninodes)
    (used : k < (shape n).blocks) (block : Block) {m : Nat} (inArea' : m < ninodes)
    (table : (shape m).table = true) :
    Function.update disk (blockOf disk (addrs n) k) block (addrs m indirectSlot).toNat =
      disk (addrs m indirectSlot).toNat :=
  Function.update_of_ne (Ne.symm (filed.data_ne_table inArea used inArea' table)) _ _

theorem store (filed : Filed addrs disk free shape) {n k : Nat} (inArea : n < ninodes)
    (used : k < (shape n).blocks) (block : Block) :
    Filed addrs (Function.update disk (blockOf disk (addrs n) k) block) free shape := by
  refine ⟨filed.order, ?_, ?_, ?_⟩
  · refine filed.placed.congr (fun _ member => member) ?_
    rintro ⟨m, slot⟩ ⟨inArea', usedSlot⟩
    exact filed.block_congr inArea' (filed.store_table inArea used block inArea') _ usedSlot
  · intro m inArea'
    exact (filed.tidy m inArea').congr (filed.store_table inArea used block inArea')
  · intro b beyond
    have inside := (filed.below (.data k) inArea used).2
    simp only [Slot.block] at inside
    rw [Function.update_of_ne (by omega)]
    exact filed.fresh b beyond

/-- Afterwards a data block in use is the one it was, with the new bytes if it
is the one that was stored to. -/
theorem store_data (filed : Filed addrs disk free shape) {n k m j : Nat} (inArea : n < ninodes)
    (used : k < (shape n).blocks) (block : Block) (inArea' : m < ninodes)
    (used' : j < (shape m).blocks) :
    Function.update disk (blockOf disk (addrs n) k) block
        (blockOf (Function.update disk (blockOf disk (addrs n) k) block) (addrs m) j) =
      if m = n ∧ j = k then block else disk (blockOf disk (addrs m) j) := by
  have place : blockOf (Function.update disk (blockOf disk (addrs n) k) block) (addrs m) j =
      blockOf disk (addrs m) j :=
    filed.block_congr inArea' (filed.store_table inArea used block inArea') (.data j) used'
  rw [place]
  split
  · rename_i same
    rw [same.1, same.2, Function.update_self]
  · rename_i different
    refine Function.update_of_ne (fun same => different ?_) _ _
    have equal := filed.placed.apart (m, .data j) (n, .data k) ⟨inArea', used'⟩
      ⟨inArea, used⟩ same
    cases equal
    exact ⟨rfl, rfl⟩

/-- The number of a block in use fits a word. -/
theorem word {b : Nat} (fits : b < size) : (UInt32.ofNat b).toNat = b :=
  UInt32.toNat_ofNat_of_lt' (lt_trans fits (by decide))

/-- One more block for file `n`, at the next number. -/
theorem extend (filed : Filed addrs disk free shape) {n : Nat} (slot : Slot) {entries : Addrs}
    {disk' : Nat → Block} {grown : Shape}
    (grows : ∀ other : Slot, other.Used grown → other.Used (shape n) ∨ other = slot)
    (kept : ∀ m (other : Slot), m < ninodes → other.Used (shape m) →
      other.block disk' (Function.update addrs n entries m) = other.block disk (addrs m))
    (new : slot.block disk' entries = free) (tidy : Tidy entries disk' grown)
    (others : ∀ m, m < ninodes → m ≠ n → Tidy (addrs m) disk' (shape m))
    (fresh : ∀ b, free < b → disk' b = Block.zero) :
    Filed (Function.update addrs n entries) disk' (free + 1)
      (Function.update shape n grown) := by
  refine ⟨by have := filed.order; omega, ?_, ?_, fun b beyond => fresh b beyond⟩
  · refine filed.placed.extend filed.order (n, slot) ?_ ?_ ?_
    · rintro ⟨m, other⟩ ⟨inArea, used⟩
      by_cases here : m = n
      · subst here
        simp only [Function.update_self] at used
        rcases grows other used with old | same
        · exact Or.inl ⟨inArea, old⟩
        · exact Or.inr (by rw [same])
      · simp only [Function.update_of_ne here] at used
        exact Or.inl ⟨inArea, used⟩
    · rintro ⟨m, other⟩ ⟨inArea, used⟩
      exact kept m other inArea used
    · simp only [blockAt, Function.update_self]
      exact new
  · intro m inArea
    by_cases here : m = n
    · subst here
      rw [Function.update_self, Function.update_self]
      exact tidy
    · rw [Function.update_of_ne here, Function.update_of_ne here]
      exact others m inArea here

/-- A direct entry is read by its own file block only. -/
theorem blockOf_update_direct {entries : Addrs} {k j : Nat} (value : UInt32)
    (direct : k < NDIRECT) (different : j ≠ k) :
    blockOf disk (Function.update entries (addrSlot k) value) j = blockOf disk entries j := by
  have indirect : Function.update entries (addrSlot k) value indirectSlot =
      entries indirectSlot := Function.update_of_ne (Ne.symm (addrSlot_direct direct)) _ _
  unfold blockOf
  rw [indirect]
  by_cases low : j < NDIRECT
  · have slots : addrSlot j ≠ addrSlot k := fun same =>
      different (addrSlot_injective (by omega) (by omega) same)
    rw [if_pos low, if_pos low, Function.update_of_ne slots]
  · rw [if_neg low, if_neg low]

/-- One more data block among the direct ones. -/
theorem allocDirect (filed : Filed addrs disk free shape) {n k : Nat} (inArea : n < ninodes)
    (next : (shape n).blocks = k) (direct : k < NDIRECT) (fits : free < size) :
    Filed (Function.update addrs n
        (Function.update (addrs n) (addrSlot k) (UInt32.ofNat free))) disk (free + 1)
      (Function.update shape n ⟨k + 1, (shape n).table⟩) ∧
    SameData addrs disk shape (Function.update addrs n
        (Function.update (addrs n) (addrSlot k) (UInt32.ofNat free))) disk := by
  have tidy := filed.tidy n inArea
  have indirect : Function.update (addrs n) (addrSlot k) (UInt32.ofNat free) indirectSlot =
      addrs n indirectSlot := Function.update_of_ne (Ne.symm (addrSlot_direct direct)) _ _
  have kept : ∀ m (other : Slot), m < ninodes → other.Used (shape m) →
      other.block disk (Function.update addrs n
        (Function.update (addrs n) (addrSlot k) (UInt32.ofNat free)) m) =
        other.block disk (addrs m) := by
    intro m other _ used
    by_cases here : m = n
    · subst here
      rw [Function.update_self]
      cases other with
      | table => simp only [Slot.block, indirect]
      | data j =>
          simp only [Slot.Used] at used
          exact blockOf_update_direct _ direct (by omega)
    · rw [Function.update_of_ne here]
  refine ⟨filed.extend (.data k) ?_ kept ?_ ?_ (fun m inArea' _ => filed.tidy m inArea')
    (fun b beyond => filed.fresh b (by omega)), fun m j inArea' used => ⟨?_, rfl⟩⟩
  · intro other used
    cases other with
    | table => exact Or.inl used
    | data j =>
        simp only [Slot.Used] at used ⊢
        by_cases last : j = k
        · exact Or.inr (by rw [last])
        · exact Or.inl (by omega)
  · simp only [Slot.block, blockOf]
    rw [if_pos direct, Function.update_self, word fits]
  · refine ⟨?_, ?_, ?_, ?_, ?_⟩
    · simp only [NDIRECT, NINDIRECT, MAXFILE] at *
      omega
    · intro many
      simp only [NDIRECT] at many direct
      omega
    · intro j unused low
      simp only at unused
      have slots : addrSlot j ≠ addrSlot k := fun equal => by
        have := addrSlot_injective (by omega) (by omega) equal
        omega
      rw [Function.update_of_ne slots]
      exact tidy.noDirect j (by omega) low
    · intro none
      rw [indirect]
      exact tidy.noTable none
    · intro j table unused bound
      simp only at unused
      rw [indirect]
      exact tidy.noEntry j table (by omega) bound
  · exact kept m (.data j) inArea' used

/-- An indirect block for a file that has none yet. -/
theorem allocTable (filed : Filed addrs disk free shape) {n : Nat} (inArea : n < ninodes)
    (none : (shape n).table = false) (fits : free < size) :
    Filed (Function.update addrs n
        (Function.update (addrs n) indirectSlot (UInt32.ofNat free))) disk (free + 1)
      (Function.update shape n ⟨(shape n).blocks, true⟩) ∧
    SameData addrs disk shape (Function.update addrs n
        (Function.update (addrs n) indirectSlot (UInt32.ofNat free))) disk := by
  have tidy := filed.tidy n inArea
  have few : (shape n).blocks ≤ NDIRECT := by
    by_contra many
    have table := tidy.tables (by omega)
    rw [none] at table
    cases table
  have kept : ∀ m (other : Slot), m < ninodes → other.Used (shape m) →
      other.block disk (Function.update addrs n
        (Function.update (addrs n) indirectSlot (UInt32.ofNat free)) m) =
        other.block disk (addrs m) := by
    intro m other _ used
    by_cases here : m = n
    · subst here
      rw [Function.update_self]
      cases other with
      | table =>
          simp only [Slot.Used, none] at used
          cases used
      | data j =>
          simp only [Slot.Used] at used
          have low : j < NDIRECT := by omega
          simp only [Slot.block, blockOf]
          rw [if_pos low, if_pos low, Function.update_of_ne (addrSlot_direct low)]
    · rw [Function.update_of_ne here]
  refine ⟨filed.extend .table ?_ kept ?_ ?_ (fun m inArea' _ => filed.tidy m inArea')
    (fun b beyond => filed.fresh b (by omega)), fun m j inArea' used => ⟨?_, rfl⟩⟩
  · intro other used
    cases other with
    | table => exact Or.inr rfl
    | data j => exact Or.inl used
  · simp only [Slot.block]
    rw [Function.update_self, word fits]
  · refine ⟨tidy.limit, fun _ => rfl, ?_, ?_, ?_⟩
    · intro j unused low
      rw [Function.update_of_ne (addrSlot_direct low)]
      exact tidy.noDirect j unused low
    · intro absent
      cases absent
    · intro j _ _ bound
      rw [Function.update_self, word fits, filed.fresh free (le_refl _)]
      exact entry_zero j
  · exact kept m (.data j) inArea' used

/-- One more data block in the indirect block. -/
theorem allocEntry (filed : Filed addrs disk free shape) {n j : Nat} (inArea : n < ninodes)
    (table : (shape n).table = true) (next : (shape n).blocks = NDIRECT + j)
    (bound : j < NINDIRECT) (fits : free < size) :
    Filed addrs (Function.update disk (addrs n indirectSlot).toNat
        ((disk (addrs n indirectSlot).toNat).putU32 (4 * j) (UInt32.ofNat free))) (free + 1)
      (Function.update shape n ⟨NDIRECT + j + 1, true⟩) ∧
    SameData addrs disk shape addrs (Function.update disk (addrs n indirectSlot).toNat
        ((disk (addrs n indirectSlot).toNat).putU32 (4 * j) (UInt32.ofNat free))) := by
  have tidy := filed.tidy n inArea
  have here : Function.update disk (addrs n indirectSlot).toNat
      ((disk (addrs n indirectSlot).toNat).putU32 (4 * j) (UInt32.ofNat free))
      (addrs n indirectSlot).toNat =
        (disk (addrs n indirectSlot).toNat).putU32 (4 * j) (UInt32.ofNat free) :=
    Function.update_self _ _ _
  have agree : ∀ m, m < ninodes → m ≠ n → (shape m).table = true →
      Function.update disk (addrs n indirectSlot).toNat
        ((disk (addrs n indirectSlot).toNat).putU32 (4 * j) (UInt32.ofNat free))
        (addrs m indirectSlot).toNat = disk (addrs m indirectSlot).toNat := by
    intro m inArea' different tableM
    refine Function.update_of_ne (fun same => different ?_) _ _
    have equal := filed.placed.apart (m, .table) (n, .table) ⟨inArea', tableM⟩
      ⟨inArea, table⟩ same
    exact congrArg Prod.fst equal
  have kept : ∀ m (other : Slot), m < ninodes → other.Used (shape m) →
      other.block (Function.update disk (addrs n indirectSlot).toNat
        ((disk (addrs n indirectSlot).toNat).putU32 (4 * j) (UInt32.ofNat free)))
        (addrs m) = other.block disk (addrs m) := by
    intro m other inArea' used
    by_cases same : m = n
    · subst same
      cases other with
      | table => rfl
      | data k =>
          simp only [Slot.Used] at used
          simp only [Slot.block, blockOf]
          by_cases low : k < NDIRECT
          · rw [if_pos low, if_pos low]
          · rw [if_neg low, if_neg low, here, Block.entry_putU32 _ _ bound, if_neg (by omega)]
    · exact filed.block_congr inArea' (agree m inArea' same) _ used
  have grown : Filed (Function.update addrs n (addrs n))
      (Function.update disk (addrs n indirectSlot).toNat
        ((disk (addrs n indirectSlot).toNat).putU32 (4 * j) (UInt32.ofNat free)))
      (free + 1) (Function.update shape n ⟨NDIRECT + j + 1, true⟩) := by
    refine filed.extend (.data (NDIRECT + j)) ?_ ?_ ?_ ?_ ?_ ?_
    · intro other used
      cases other with
      | table => exact Or.inl table
      | data k =>
          simp only [Slot.Used] at used ⊢
          by_cases last : k = NDIRECT + j
          · exact Or.inr (by rw [last])
          · exact Or.inl (by omega)
    · rw [Function.update_eq_self]
      exact kept
    · simp only [Slot.block, blockOf]
      rw [if_neg (by omega), here, Block.entry_putU32 _ _ bound, if_pos (by omega), word fits]
    · refine ⟨?_, fun _ => rfl, ?_, ?_, ?_⟩
      · simp only [NDIRECT, NINDIRECT, MAXFILE] at *
        omega
      · intro k unused low
        simp only at unused
        omega
      · intro absent
        cases absent
      · intro k _ unused inside
        simp only at unused
        rw [here, Block.entry_putU32 _ _ bound, if_neg (by omega)]
        exact tidy.noEntry k table (by omega) inside
    · intro m inArea' different
      exact (filed.tidy m inArea').congr (agree m inArea' different)
    · intro b beyond
      have inside := (filed.below .table inArea table).2
      simp only [Slot.block] at inside
      rw [Function.update_of_ne (by omega)]
      exact filed.fresh b (by omega)
  rw [Function.update_eq_self] at grown
  refine ⟨grown, fun m k inArea' used => ⟨kept m (.data k) inArea' used, ?_⟩⟩
  exact Function.update_of_ne (filed.data_ne_table inArea' used inArea table) _ _

end Filed

end Gcgos.Mkfs
