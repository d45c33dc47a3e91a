import Gcgos.Fs.Cache
import Gcgos.Names

/-!
# Free blocks on an image and in the kernel

`mkfs` counts the blocks it hands out and sets that many bits of the bitmap;
the kernel looks for a block whose bit is clear. On the image that `main`
leaves, a bit is set exactly when its block is metadata or some inode has its
number, and no number is there twice.
-/

set_option autoImplicit false

namespace Gcgos

open Fs Mkfs Act ByteMap

/-- The bits that `balloc` of `mkfs` sets. -/
theorem bit_setBits (count i : Nat) (buf : Block) (bound : i + count ≤ BPB) (j : Nat) :
    (setBits count i buf).bit j = (decide (i ≤ j ∧ j < i + count) || buf.bit j) := by
  induction count generalizing i buf with
  | zero =>
      have never : ¬(i ≤ j ∧ j < i + 0) := by omega
      simp only [setBits, never, decide_false, Bool.false_or]
  | succ count ih =>
      have step : setBits (count + 1) i buf = setBits count (i + 1) (buf.setBit i) := rfl
      rw [step, ih (i + 1) _ (by omega), Block.bit_setBit _ (by omega)]
      by_cases here : j = i
      · subst here
        have inside : j ≤ j ∧ j < j + (count + 1) := by omega
        simp [inside]
      · have same : (i + 1 ≤ j ∧ j < i + 1 + count) ↔ (i ≤ j ∧ j < i + (count + 1)) := by omega
        simp only [same, here, decide_false, Bool.false_or]

theorem bit_zero (j : Nat) : Block.zero.bit j = false := by
  rw [Block.bit_eq_testBit]
  have byte : Block.zero.byte (j / 8) = 0 := by
    unfold Block.byte Block.zero
    split <;> rfl
  rw [byte]
  exact Nat.zero_testBit _

/-- The words of an inode that can hold a block number: its `addrs`, and the
entries of its indirect block. -/
inductive Place where
  | addr (k : Fin (NDIRECT + 1))
  | entry (j : Fin NINDIRECT)
deriving DecidableEq

namespace Place

def word (disk : Nat → Block) (addrs : Addrs) : Place → UInt32
  | addr k => addrs k
  | entry j =>
      if addrs indirectSlot = 0 then 0 else (disk (addrs indirectSlot).toNat).entry j

/-- What `mkfs` puts there. -/
def slot : Place → Slot
  | addr k => if k = indirectSlot then .table else .data k
  | entry j => .data (NDIRECT + j)

theorem slot_injective {p q : Place} (same : p.slot = q.slot) : p = q := by
  have low : ∀ k : Fin (NDIRECT + 1), k ≠ indirectSlot → k.val < NDIRECT := by
    intro k direct
    have bound := k.isLt
    have other : k.val ≠ NDIRECT := fun value => direct (Fin.ext value)
    omega
  cases p with
  | addr k =>
      cases q with
      | addr l =>
          simp only [slot] at same
          split at same <;> split at same
          · simp_all
          · cases same
          · cases same
          · simp only [Slot.data.injEq] at same
            rw [Fin.ext same]
      | entry j =>
          simp only [slot] at same
          split at same
          · cases same
          · rename_i direct
            have bound := low k direct
            simp only [Slot.data.injEq] at same
            omega
  | entry j =>
      cases q with
      | addr l =>
          simp only [slot] at same
          split at same
          · cases same
          · rename_i direct
            have bound := low l direct
            simp only [Slot.data.injEq] at same
            omega
      | entry l =>
          simp only [slot, Slot.data.injEq] at same
          rw [Fin.ext (show j.val = l.val by omega)]

end Place

section

variable {addrs : Nat → Addrs} {disk : Nat → Block} {free : Nat} {shape : Nat → Shape} {n : Nat}

/-- A word that is not zero is the number of a block in use. -/
theorem Mkfs.Filed.used_of_word (filed : Filed addrs disk free shape) (inArea : n < ninodes)
    (p : Place) (nonzero : p.word disk (addrs n) ≠ 0) :
    p.slot.Used (shape n) ∧ p.slot.block disk (addrs n) = (p.word disk (addrs n)).toNat := by
  have tidy := filed.tidy n inArea
  cases p with
  | addr k =>
      simp only [Place.word] at nonzero ⊢
      by_cases table : k = indirectSlot
      · subst table
        simp only [Place.slot, if_true, Slot.Used, Slot.block, and_true]
        by_contra absent
        exact nonzero (tidy.noTable (by simpa using absent))
      · have bound : k.val < NDIRECT := by
          have last := k.isLt
          have other : k.val ≠ NDIRECT := fun value => table (Fin.ext value)
          omega
        have index : addrSlot k.val = k := Fin.ext (addrSlot_val (by omega))
        simp only [Place.slot, table, if_false, Slot.Used, Slot.block, blockOf, bound, if_true,
          index, and_true]
        by_contra absent
        have zero := tidy.noDirect k.val (by omega) bound
        rw [index] at zero
        exact nonzero zero
  | entry j =>
      simp only [Place.word] at nonzero ⊢
      by_cases none : addrs n indirectSlot = 0
      · rw [if_pos none] at nonzero
        exact absurd rfl nonzero
      · rw [if_neg none] at nonzero ⊢
        have table : (shape n).table = true := by
          by_contra absent
          exact none (tidy.noTable (by simpa using absent))
        have behind : ¬NDIRECT + j.val < NDIRECT := by omega
        simp only [Place.slot, Slot.Used, Slot.block, blockOf, behind, if_false,
          Nat.add_sub_cancel_left, and_true]
        by_contra absent
        exact nonzero (tidy.noEntry j.val table (by omega) j.isLt)

/-- A block in use has its number in a word of its inode. -/
theorem Mkfs.Filed.word_of_used (filed : Filed addrs disk free shape) (inArea : n < ninodes)
    (slot : Slot) (used : slot.Used (shape n)) :
    ∃ p : Place, p.word disk (addrs n) ≠ 0 ∧
      (p.word disk (addrs n)).toNat = slot.block disk (addrs n) := by
  have tidy := filed.tidy n inArea
  have value : ∀ p : Place, (p.word disk (addrs n)).toNat = slot.block disk (addrs n) →
      p.word disk (addrs n) ≠ 0 := by
    intro p same zero
    rw [zero] at same
    exact filed.positive slot inArea used same.symm
  cases slot with
  | table => exact ⟨.addr indirectSlot, value (.addr indirectSlot) rfl, rfl⟩
  | data k =>
      by_cases direct : k < NDIRECT
      · have same : (Place.word disk (addrs n) (.addr (addrSlot k))).toNat =
            Slot.block disk (addrs n) (.data k) := by
          simp [Place.word, Slot.block, blockOf, direct]
        exact ⟨_, value _ same, same⟩
      · have many : k < (shape n).blocks := used
        have limit := tidy.limit
        have table : addrs n indirectSlot ≠ 0 := by
          intro zero
          have number := filed.positive .table inArea (tidy.tables (by omega))
          simp only [Slot.block, zero] at number
          exact number rfl
        have bound : k - NDIRECT < NINDIRECT := by
          simp only [MAXFILE] at limit
          omega
        have same : (Place.word disk (addrs n) (.entry ⟨k - NDIRECT, bound⟩)).toNat =
            Slot.block disk (addrs n) (.data k) := by
          simp [Place.word, Slot.block, blockOf, direct, table]
        exact ⟨_, value _ same, same⟩

end

/-- The blocks of a file of this shape. -/
def slotsOf (shape : Shape) : Finset Slot :=
  (Finset.range shape.blocks).image Slot.data ∪ if shape.table then {Slot.table} else ∅

theorem slotsOf_card (shape : Shape) : (slotsOf shape).card = shape.cost := by
  have data : ((Finset.range shape.blocks).image Slot.data).card = shape.blocks := by
    rw [Finset.card_image_of_injective _ fun _ _ same => Slot.data.inj same, Finset.card_range]
  unfold slotsOf Shape.cost
  cases shape.table with
  | false => simp [data]
  | true =>
      rw [if_pos rfl, Finset.card_union_of_disjoint, data, Finset.card_singleton, Bool.toNat_true]
      simp

theorem mem_slotsOf {shape : Shape} {slot : Slot} (member : slot ∈ slotsOf shape) :
    slot.Used shape := by
  unfold slotsOf at member
  rcases Finset.mem_union.mp member with data | table
  · obtain ⟨k, bound, rfl⟩ := Finset.mem_image.mp data
    exact Finset.mem_range.mp bound
  · split at table
    · rename_i present
      rw [Finset.mem_singleton.mp table]
      exact present
    · cases table

/-- Every number from the first data block to `freeblock` has been given to a
file: there are as many of them as the files have blocks. -/
theorem Mkfs.Holds.handed_out {s : Mkfs.State} {files : Nat → List UInt8} (holds : Holds s files)
    {b : Nat} (lower : firstData ≤ b) (upper : b < s.freeblock) :
    ∃ n slot, n < ninodes ∧ Slot.Used (shapeFor (files n).length) slot ∧
      slot.block s.image (dinodeAt s.image n).addrs = b := by
  let members : Finset (Nat × Slot) :=
    ((Finset.range ninodes).sigma fun n => slotsOf (shapeFor (files n).length)).map
      ⟨fun place => (place.1, place.2), fun left right same => by
        cases left
        cases right
        simp_all⟩
  have count : members.card = demand files := by
    rw [Finset.card_map, Finset.card_sigma]
    exact Finset.sum_congr rfl fun n _ => slotsOf_card _
  have used : ∀ place ∈ members, InUse (fun n => shapeFor (files n).length) place := by
    intro place member
    obtain ⟨⟨n, slot⟩, inside, rfl⟩ := Finset.mem_map.mp member
    obtain ⟨area, given⟩ := Finset.mem_sigma.mp inside
    exact ⟨Finset.mem_range.mp area, mem_slotsOf given⟩
  obtain ⟨⟨n, slot⟩, ⟨inArea, given⟩, place⟩ := holds.stored.filed.placed.onto members used
    (by rw [count, ← holds.count]) lower upper
  exact ⟨n, slot, inArea, given, place⟩

/-- Inode `ref.1` has the number `b` at `ref.2`. -/
def RefersAt (disk : Nat → Block) (ref : Nat × Place) (b : Nat) : Prop :=
  ref.1 < (superOf disk).ninodes.toNat ∧ ref.2.word disk (dinodeAt disk ref.1).addrs ≠ 0 ∧
    (ref.2.word disk (dinodeAt disk ref.1).addrs).toNat = b

/-- The boot block, the superblock, the inode blocks and the bitmap. -/
def IsMetadata (disk : Nat → Block) (b : Nat) : Prop :=
  b = 0 ∨ b = 1 ∨ (∃ n, n < (superOf disk).ninodes.toNat ∧ IBLOCK n = b) ∨
    ∃ d, d < (superOf disk).size.toNat ∧ BBLOCK d (superOf disk).ninodes = b

/-- The block is metadata or in use by an inode. -/
def Taken (disk : Nat → Block) (b : Nat) : Prop :=
  IsMetadata disk b ∨ ∃ ref, RefersAt disk ref b

section

variable {s : Mkfs.State} {done : List (List UInt8 × List UInt8)}

theorem Mkfs.Built.ninodes_eq (built : Built s done) :
    (superOf s.image).ninodes = UInt32.ofNat ninodes := by
  rw [built.super]

theorem Mkfs.Built.size_eq (built : Built s done) :
    (superOf s.image).size = UInt32.ofNat size := by
  rw [built.super]

theorem Mkfs.Built.metadata_iff (built : Built s done) (b : Nat) :
    IsMetadata s.image b ↔ b < firstData := by
  have area : (UInt32.ofNat ninodes).toNat = 100 := by decide
  have whole : (UInt32.ofNat size).toNat = 2048 := by decide
  have signed : sext32 (UInt32.ofNat ninodes) = 100 := by decide
  unfold IsMetadata
  rw [built.ninodes_eq, built.size_eq]
  simp only [BBLOCK, IBLOCK, area, whole, signed, IPB, BPB, BSIZE, firstData, bitblocks, ninodes, size]
  constructor
  · rintro (rfl | rfl | ⟨n, bound, rfl⟩ | ⟨d, bound, rfl⟩) <;> omega
  · intro low
    by_cases inode : 2 ≤ b ∧ b < 36
    · exact Or.inr (Or.inr (Or.inl ⟨3 * (b - 2), by omega, by omega⟩))
    · by_cases bitmap : b = 36
      · exact Or.inr (Or.inr (Or.inr ⟨0, by omega, by omega⟩))
      · omega

theorem Mkfs.Built.refers_iff (built : Built s done) (b : Nat) :
    (∃ ref, RefersAt s.image ref b) ↔ firstData ≤ b ∧ b < s.freeblock := by
  have area : (superOf s.image).ninodes.toNat = ninodes := by
    rw [built.ninodes_eq]
    decide
  have filed := built.holds.stored.filed
  constructor
  · rintro ⟨⟨n, p⟩, inArea, nonzero, rfl⟩
    rw [area] at inArea
    obtain ⟨used, block⟩ := filed.used_of_word inArea p nonzero
    rw [← block]
    exact filed.below p.slot inArea used
  · rintro ⟨lower, upper⟩
    obtain ⟨n, slot, inArea, used, place⟩ := built.holds.handed_out lower upper
    obtain ⟨p, nonzero, number⟩ := filed.word_of_used inArea slot used
    exact ⟨(n, p), by rw [area]; exact inArea, nonzero, number.trans place⟩

theorem Mkfs.Built.taken_iff (built : Built s done) (b : Nat) :
    Taken s.image b ↔ b < s.freeblock := by
  have order := built.holds.stored.filed.order
  unfold Taken
  rw [built.metadata_iff, built.refers_iff]
  omega

/-- No number is there twice. -/
theorem Mkfs.Built.refers_unique (built : Built s done) {b : Nat} {ref ref' : Nat × Place}
    (left : RefersAt s.image ref b) (right : RefersAt s.image ref' b) : ref = ref' := by
  have area : (superOf s.image).ninodes.toNat = ninodes := by
    rw [built.ninodes_eq]
    decide
  have filed := built.holds.stored.filed
  obtain ⟨n, p⟩ := ref
  obtain ⟨m, q⟩ := ref'
  obtain ⟨inArea, nonzero, rfl⟩ := left
  obtain ⟨inArea', nonzero', same⟩ := right
  rw [area] at inArea inArea'
  obtain ⟨used, block⟩ := filed.used_of_word inArea p nonzero
  obtain ⟨used', block'⟩ := filed.used_of_word inArea' q nonzero'
  have equal := filed.placed.apart (n, p.slot) (m, q.slot) ⟨inArea, used⟩ ⟨inArea', used'⟩
    (block.trans (same.symm.trans block'.symm))
  obtain ⟨number, slots⟩ := Prod.mk.inj equal
  rw [number, Place.slot_injective slots]

/-- The kernel finds the bit of a block where `mkfs` put it. -/
theorem Mkfs.Built.marked_iff (built : Built s done) (room : s.freeblock ≤ BPB)
    (bits : s.image (ninodes / IPB + 3) = setBits s.freeblock 0 Block.zero) {b : Nat}
    (bound : b < size) :
    marked s.image (superOf s.image).ninodes b = true ↔ b < s.freeblock := by
  have signed : sext32 (UInt32.ofNat ninodes) = 100 := by decide
  have sector : BBLOCK b (UInt32.ofNat ninodes) = ninodes / IPB + 3 := by
    simp only [BBLOCK, signed, ninodes, IPB, BPB, BSIZE, size] at *
    omega
  have low : b % BPB = b := by
    simp only [BPB, BSIZE, size] at *
    omega
  unfold marked
  rw [built.ninodes_eq, sector, low, bits, bit_setBits _ _ _ (by omega), bit_zero]
  simp

end

/-- On an image that `mkfs` has completed, the bit that the kernel tests for a
block is set exactly when the block is taken, no block is taken twice, and the
kernel's first `balloc` returns the lowest block that is not taken. -/
theorem mkfs_bitmap_exact (behind : Block) (inputs : List Input) (m : Mkfs.State)
    (completes : main behind inputs initial = .ok ((), m)) (few : inputs.length ≤ 98)
    (slashes : ∀ input ∈ inputs, 47 ∈ input.path) :
    (∀ b, b < m.sectors →
      (marked m.image (superOf m.image).ninodes b = true ↔
        IsMetadata m.image b ∨ ∃ ref, RefersAt m.image ref b)) ∧
    (∀ b ref ref', RefersAt m.image ref b → RefersAt m.image ref' b → ref = ref') ∧
    ∀ (k : Bio) (dev : UInt32), k.sd.block = m.image → k.Ready 1 →
      ∀ b, b < m.sectors → ¬Taken m.image b → (∀ d, d < b → Taken m.image d) →
        Yields (Fs.balloc dev) k fun result _ => result.toNat = b := by
  obtain ⟨built, room, bits⟩ := main_ensures behind inputs few slashes () m completes
  have whole := built.holds.whole
  have exact_bit : ∀ b, b < m.sectors →
      (marked m.image (superOf m.image).ninodes b = true ↔ Taken m.image b) := by
    intro b bound
    rw [built.marked_iff room bits (by rw [← whole]; exact bound), built.taken_iff]
  refine ⟨exact_bit, fun b ref ref' => built.refers_unique, ?_⟩
  intro k dev disk ready b bound free before
  have count : intBound (m.image 1).supperblock.size = m.sectors := by
    rw [whole, show (m.image 1).supperblock.size = UInt32.ofNat size from built.size_eq]
    decide
  have found : firstFree k.sd.block = some b := by
    unfold firstFree
    rw [disk, count, List.find?_range_eq_some]
    refine ⟨?_, List.mem_range.mpr bound, ?_⟩
    · have clear : ¬marked m.image (superOf m.image).ninodes b = true :=
        fun set => free ((exact_bit b bound).mp set)
      simpa [superOf] using clear
    · intro d less
      have set := (exact_bit d (lt_trans less bound)).mpr (before d less)
      simpa [superOf] using set
  refine (balloc_yields dev ready found).mono ?_
  rintro result t ⟨rfl, -⟩
  exact Filed.word (by rw [← whole]; exact bound)

theorem mkfs_bitmap_exact_oneFile :
    ∃ m : Mkfs.State, main Block.zero [oneFile] initial = .ok ((), m) ∧
      ∀ b, b < m.sectors → (marked m.image (superOf m.image).ninodes b = true ↔
        IsMetadata m.image b ∨ ∃ ref, RefersAt m.image ref b) := by
  obtain ⟨⟨⟩, m, completes, -⟩ := oneFile_completes
  exact ⟨m, completes, (mkfs_bitmap_exact Block.zero [oneFile] m completes (by decide)
    (by decide)).1⟩

/-- The root directory has an entry for every file and two more. -/
theorem Mkfs.Built.root_size {m : Mkfs.State} {inputs : List Input}
    (built : Built m (inputsOf inputs))
    (short : ∀ input ∈ inputs, (nameOf input).length ≤ 13) :
    (dinodeAt m.image 1).size.toNat = direntSize * (inputs.length + 2) := by
  have names : (inputsOf inputs).map Prod.fst = inputs.map nameOf := by
    simp [inputsOf, nameOf, Function.comp_def]
  have entries : ∀ entry ∈ rootEntries (inputs.map nameOf), entry.2.length < DIRSIZ := by
    intro entry member
    rcases List.mem_cons.mp member with rfl | member
    · decide
    · rcases List.mem_cons.mp member with rfl | member
      · decide
      · obtain ⟨⟨name, i⟩, inside, rfl⟩ := List.mem_map.mp member
        obtain ⟨input, given, rfl⟩ := List.mem_map.mp (List.fst_mem_of_mem_zipIdx inside)
        have bound := short input given
        simp only [DIRSIZ]
        omega
  rw [built.holds.sizes 1 (by decide), filesOf, if_pos rfl, names, dirBytes_length entries]
  simp [rootEntries]

/-- What `mkfs` makes is what the inode table is proved coherent on. -/
theorem mkfs_wellFormed (behind : Block) (inputs : List Input) (m : Mkfs.State)
    (completes : main behind inputs initial = .ok ((), m)) (few : inputs.length ≤ 98)
    (slashes : ∀ input ∈ inputs, 47 ∈ input.path)
    (short : ∀ input ∈ inputs, (nameOf input).length ≤ 13) : WellFormed m.image := by
  obtain ⟨built, room, bits⟩ := main_ensures behind inputs few slashes () m completes
  have start : dataStart (superOf m.image) = firstData := by
    rw [built.super]
    decide
  have area : (superOf m.image).ninodes.toNat = ninodes := by
    rw [built.ninodes_eq]
    decide
  have order := built.holds.stored.filed.order
  constructor
  case reserved =>
    refine ⟨by rw [built.super]; exact ⟨by decide, by decide, by decide⟩, ?_⟩
    intro b low
    rw [start] at low
    refine (built.marked_iff room bits ?_).mpr (by omega)
    exact lt_trans low (by decide)
  case dinodes =>
    intro n inArea k _
    rw [area] at inArea
    by_cases zero : (dinodeAt m.image n).addrs k = 0
    · left
      rw [zero]
      rfl
    · right
      obtain ⟨used, block⟩ := built.holds.stored.filed.used_of_word inArea (.addr k) zero
      rw [start, show ((dinodeAt m.image n).addrs k).toNat = _ from block.symm]
      exact (built.holds.stored.filed.below _ inArea used).1
  case roomy =>
    have unused : (unusedDinodes m.image).card ≤ ninodes := by
      refine le_trans (Finset.card_filter_le _ _) ?_
      rw [Finset.card_range, area]
    have small : ∀ n, n < ninodes → (dinodeAt m.image n).type ≠ T_FILE →
        (dinodeAt m.image n).size.toNat ≤ direntSize * ninodes := by
      intro n inArea kind
      by_cases root : n = 1
      · subst root
        rw [built.root_size short]
        simp only [direntSize, ninodes]
        omega
      · have empty : filesOf (inputsOf inputs) n = [] := by
          simp only [filesOf, root, if_false]
          split
          · rfl
          · by_cases file : n - 2 < (inputsOf inputs).length
            · have head := built.heads (n - 2) file
              rw [show n - 2 + 2 = n by omega] at head
              exact absurd (congrArg Prod.fst head) kind
            · exact List.getD_eq_default _ _ (by rw [List.length_map]; omega)
        rw [built.holds.sizes n inArea, empty]
        exact Nat.zero_le _
    intro n inArea kind
    rw [area] at inArea
    have bound := small n inArea kind
    simp only [direntSize, ninodes, NDIRECT, BSIZE] at *
    omega

end Gcgos
