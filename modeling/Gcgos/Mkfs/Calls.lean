import Gcgos.Mkfs.Append
import Mathlib.Algebra.Order.BigOperators.Group.Finset

/-!
# Sequences of calls

From the formatted image on, any sequence of `ialloc` and `iappend` calls that
stays inside the inode area, below the largest file size and inside the image
runs to its end, and every file then reads back as what was appended to it.
-/

set_option autoImplicit false

namespace Gcgos.Mkfs

open Fs Act ByteMap

/-- A file without bytes has no block numbers. -/
theorem Filed.addrs_empty {addrs : Nat → Addrs} {disk : Nat → Block} {free : Nat}
    {files : Nat → List UInt8} (filed : Filed addrs disk free fun n => shapeFor (files n).length)
    {n : Nat} (inArea : n < ninodes) (empty : files n = []) : addrs n = fun _ => 0 := by
  have tidy := filed.tidy n inArea
  have shape : shapeFor (files n).length = ⟨0, false⟩ := by
    rw [empty]
    rfl
  rw [shape] at tidy
  funext k
  have slot : k = addrSlot k.val := by
    apply Fin.ext
    rw [addrSlot_val (Nat.lt_succ_iff.mp k.isLt)]
  rw [slot]
  by_cases direct : k.val < NDIRECT
  · exact tidy.noDirect k.val (Nat.zero_le _) direct
  · have last : k.val = NDIRECT := le_antisymm (Nat.lt_succ_iff.mp k.isLt) (not_lt.mp direct)
    rw [last]
    exact tidy.noTable rfl

/-- `ialloc` makes an empty file and leaves the contents of all files. -/
theorem ialloc_yields {s : State} {files : Nat → List UInt8} (holds : Holds s files)
    (type : UInt16) (inArea : s.freeinode < ninodes) (empty : files s.freeinode = []) :
    Yields (ialloc type) s fun inum t =>
      inum = s.freeinode ∧ t.freeinode = s.freeinode + 1 ∧ Holds t files ∧
        (∀ m, dinodeAt t.image m =
          if m = inum then freshDinode type else dinodeAt s.image m) ∧
        t.image 1 = s.image 1 := by
  unfold ialloc
  refine Yields.step (t := s) (a := s.freeinode) rfl ?_
  refine Yields.step (t := { s with freeinode := s.freeinode + 1 }) (a := ()) rfl ?_
  refine Yields.step (winode_run (s := { s with freeinode := s.freeinode + 1 }) _ inArea
    holds.whole) ⟨_, _, rfl, rfl, rfl, ?_, ?_,
    withDinode_first s.image s.freeinode (freshDinode type)⟩
  · refine Holds.winode (s := { s with freeinode := s.freeinode + 1 }) inArea holds.whole
      holds.used ?_ ?_ holds.count
    · refine holds.stored.congr fun m _ => ?_
      by_cases here : m = s.freeinode
      · subst here
        rw [Function.update_self]
        exact (holds.stored.filed.addrs_empty inArea empty).symm
      · rw [Function.update_of_ne here]
    · intro m inArea'
      by_cases here : m = s.freeinode
      · subst here
        rw [if_pos rfl, empty]
        rfl
      · rw [if_neg here]
        exact holds.sizes m inArea'
  · intro m
    exact dinodeAt_withDinode s.image s.freeinode m _

theorem zeroSectors_run (count : Nat) {s : State} (zero : s.image = fun _ => Block.zero) :
    zeroSectors count s = .ok ((), { s with sectors := max s.sectors count }) := by
  induction count with
  | zero => simp [zeroSectors]
  | succ count ih =>
      unfold zeroSectors
      rw [Act.bind_of_ok ih]
      have same : Function.update s.image count Block.zero = s.image := by
        rw [zero]
        exact Function.update_eq_self count _
      have longer : max (max s.sectors count) (count + 1) = max s.sectors (count + 1) := by omega
      simp only [wsect, Act.modify_run, same, longer]

/-- The dinode in a zeroed slot. -/
def zeroDinode : Dinode where
  type := 0
  major := 0
  minor := 0
  nlink := 0
  size := 0
  addrs := fun _ => 0

theorem dinode_zero (slot : Nat) : Block.zero.dinode slot = zeroDinode := by
  simp only [Block.dinode, Block.u16, Block.u32, Block.leNat_zero]
  rfl

/-- The image that the calls start from. -/
structure Formatted (behind : Block) (s : State) : Prop where
  image : s.image = Function.update (fun _ => Block.zero) 1 (superSector behind)
  holds : Holds s fun _ => []
  freeinode : s.freeinode = 1
  dinodes : ∀ n, dinodeAt s.image n = zeroDinode

theorem formatted_dinode (behind : Block) (n : Nat) :
    dinodeAt (Function.update (fun _ => Block.zero) 1 (superSector behind)) n = zeroDinode := by
  have sector : IBLOCK n ≠ 1 := by
    simp only [IBLOCK, IPB]
    omega
  unfold dinodeAt
  rw [Function.update_of_ne sector]
  exact dinode_zero _

theorem shapeFor_zero : shapeFor 0 = ⟨0, false⟩ := rfl

theorem empty_unused (slot : Slot) : ¬slot.Used (shapeFor ([] : List UInt8).length) := by
  rw [List.length_nil, shapeFor_zero]
  cases slot with
  | data k => exact Nat.not_lt_zero k
  | table => exact Bool.false_ne_true

theorem empty_tidy {addrs : Addrs} (disk : Nat → Block) (zero : addrs = fun _ => 0) :
    Tidy addrs disk (shapeFor ([] : List UInt8).length) := by
  subst zero
  refine ⟨Nat.zero_le _, fun many => ?_, fun _ _ _ => rfl, fun _ => rfl, fun _ table => ?_⟩
  · exact absurd many (Nat.not_lt_zero _)
  · exact absurd table Bool.false_ne_true

theorem format_yields (behind : Block) :
    Yields (format behind) initial fun _ t => Formatted behind t := by
  unfold format
  refine Yields.step (t := { initial with freeblock := firstData, usedblocks := firstData })
    (a := ()) rfl ?_
  refine Yields.step (Act.stopIf_of_not _ _ (by decide)) ?_
  refine Yields.step (zeroSectors_run (nblocks + firstData) rfl) ?_
  refine ⟨(), _, wsect_inside 1 _ (by decide), rfl, ?_, rfl, ?_⟩
  · have dinodes := formatted_dinode behind
    refine ⟨?_, ?_, rfl, rfl, ?_⟩
    · have zero : (fun n => (dinodeAt (Function.update (fun _ => Block.zero) 1
          (superSector behind)) n).addrs) = fun _ _ => 0 := by
        funext n
        rw [dinodes]
        rfl
      refine ⟨⟨le_refl _, ⟨?_, ?_⟩, ?_, ?_⟩, ?_⟩
      · rintro ⟨n, slot⟩ ⟨-, used⟩
        exact absurd used (empty_unused slot)
      · rintro ⟨n, slot⟩ - ⟨-, used⟩
        exact absurd used (empty_unused slot)
      · intro n _
        exact empty_tidy _ (congrFun zero n)
      · intro b beyond
        refine Function.update_of_ne ?_ _ _
        have first : 1 < firstData := by decide
        exact Nat.ne_of_gt (lt_of_lt_of_le first beyond)
      · intro n p _ bound
        exact absurd bound (Nat.not_lt_zero _)
    · intro n _
      show (dinodeAt (Function.update (fun _ => Block.zero) 1 (superSector behind)) n).size.toNat = 0
      rw [dinodes]
      rfl
    · have none : demand (fun _ => []) = 0 := by
        unfold demand
        refine Finset.sum_eq_zero fun n _ => ?_
        rw [List.length_nil, shapeFor_zero]
        rfl
      rw [none]
      rfl
  · exact formatted_dinode behind

theorem Formatted.super {behind : Block} {s : State} (formatted : Formatted behind s) :
    superOf s.image = ⟨UInt32.ofNat size, UInt32.ofNat nblocks, UInt32.ofNat ninodes⟩ := by
  unfold superOf Block.supperblock
  rw [formatted.image, Function.update_self]
  simp (disch := decide) only [superSector, Block.u32_putU32, Block.u32_putU32_apart]

/-- A call of the two functions that make and fill files. -/
inductive Call where
  | ialloc (type : UInt16)
  | iappend (inum : Nat) (bytes : List UInt8)

def Call.run : Call → Act Stop State Unit
  | ialloc type => do
      let _ ← Mkfs.ialloc type
      pure ()
  | iappend inum bytes => Mkfs.iappend inum bytes

def runCalls : List Call → Act Stop State Unit
  | [] => pure ()
  | call :: rest => do
      call.run
      runCalls rest

/-- Everything the calls append to file `n`, in their order. -/
def appended : List Call → Nat → List UInt8
  | [], _ => []
  | .ialloc _ :: rest, n => appended rest n
  | .iappend inum bytes :: rest, n => (if inum = n then bytes else []) ++ appended rest n

/-- With `made` the next inode number: inodes are made inside the inode area,
and bytes go to inodes that have been made. -/
def ValidFrom : (made : Nat) → List Call → Prop
  | _, [] => True
  | made, .ialloc _ :: rest => made < ninodes ∧ ValidFrom (made + 1) rest
  | made, .iappend inum _ :: rest => 1 ≤ inum ∧ inum < made ∧ ValidFrom made rest

theorem demand_mono {files more : Nat → List UInt8}
    (le : ∀ n, n < ninodes → (files n).length ≤ (more n).length) : demand files ≤ demand more :=
  Finset.sum_le_sum fun n member => shapeFor_cost_mono (le n (Finset.mem_range.mp member))

theorem runCalls_yields (calls : List Call) {s : State} {files : Nat → List UInt8}
    (holds : Holds s files) (few : s.freeinode ≤ ninodes)
    (unmade : ∀ n, s.freeinode ≤ n → files n = [])
    (valid : ValidFrom s.freeinode calls)
    (limit : ∀ n, (files n ++ appended calls n).length ≤ MAXFILE * 512)
    (room : firstData + demand (fun n => files n ++ appended calls n) ≤ size) :
    Yields (runCalls calls) s fun _ t => Holds t fun n => files n ++ appended calls n := by
  induction calls generalizing s files with
  | nil =>
      refine ⟨(), s, rfl, ?_⟩
      simpa only [appended, List.append_nil] using holds
  | cons call rest ih =>
      unfold runCalls
      cases call with
      | ialloc type =>
          obtain ⟨inArea, later⟩ := valid
          have made := ialloc_yields holds type inArea (unmade _ (le_refl _))
          obtain ⟨inum, t, run, -, next, holdsT, -⟩ := made
          refine Yields.step (Act.bind_of_ok run) ?_
          refine ih holdsT (by omega) ?_ (by rw [next]; exact later) limit room
          intro n above
          exact unmade n (by omega)
      | iappend inum bytes =>
          obtain ⟨-, made, later⟩ := valid
          have inArea : inum < ninodes := by omega
          have total : (fun n => Function.update files inum (files inum ++ bytes) n ++
              appended rest n) = fun n => files n ++ appended (.iappend inum bytes :: rest) n := by
            funext n
            simp only [appended]
            by_cases here : n = inum
            · subst here
              rw [Function.update_self, if_pos rfl, List.append_assoc]
            · rw [Function.update_of_ne here, if_neg (Ne.symm here), List.nil_append]
          have fits : (files inum).length + bytes.length ≤ MAXFILE * 512 := by
            have all := limit inum
            simp only [appended, if_pos, List.length_append] at all
            omega
          have space : firstData + demand (Function.update files inum (files inum ++ bytes)) ≤
              size := by
            refine le_trans (Nat.add_le_add_left (demand_mono fun n _ => ?_) _) room
            rw [← congrFun total n, List.length_append]
            exact Nat.le_add_right _ _
          refine Yields.seq (iappend_yields holds inArea bytes fits space) ?_
          rintro _ t ⟨holdsT, heads⟩
          have next := heads.freeinode
          rw [← total]
          refine ih holdsT (by omega) ?_ (by rw [next]; exact later) ?_ ?_
          · intro n above
            rw [Function.update_of_ne (by omega)]
            exact unmade n (by omega)
          · intro n
            rw [congrFun total n]
            exact limit n
          · rw [total]
            exact room

/-- The contents of file `n`, read off the image: byte `p` for every `p` below
the size in the dinode. -/
def contents (disk : Nat → Block) (n : Nat) : List UInt8 :=
  (List.range (dinodeAt disk n).size.toNat).map fun p =>
    (disk (blockOf disk (dinodeAt disk n).addrs (p / 512))).byte (p % 512)

theorem Holds.contents_eq {s : State} {files : Nat → List UInt8} (holds : Holds s files) {n : Nat}
    (inArea : n < ninodes) : contents s.image n = files n := by
  unfold contents
  rw [holds.sizes n inArea]
  refine List.ext_getElem (by simp) ?_
  intro p left right
  rw [List.getElem_map, List.getElem_range]
  have byte := holds.stored.bytes n p inArea (by simp only [shapeFor]; omega)
  rw [List.getD_eq_getElem _ _ right] at byte
  exact byte

/-- A block of a file, by the size in its dinode. -/
def Slot.InFile (din : Dinode) : Slot → Prop
  | .data k => k * 512 < din.size.toNat
  | .table => NDIRECT * 512 < din.size.toNat

theorem Slot.used_of_inFile {din : Dinode} {slot : Slot} {len : Nat}
    (size : din.size.toNat = len) (inFile : slot.InFile din) : slot.Used (shapeFor len) := by
  cases slot with
  | data k =>
      simp only [Slot.InFile, size] at inFile
      simp only [Slot.Used, shapeFor]
      omega
  | table =>
      simp only [Slot.InFile, size] at inFile
      simpa [Slot.Used, shapeFor] using inFile

/-- Every file reads back as what was appended to it, in the order of the
calls, and all blocks of all files are distinct. -/
theorem iappend_calls_store (behind : Block) (calls : List Call) (valid : ValidFrom 1 calls)
    (limit : ∀ n, (appended calls n).length ≤ MAXFILE * 512)
    (room : firstData + demand (appended calls) ≤ size) :
    Yields (format behind >>= fun _ => runCalls calls) initial fun _ t =>
      (∀ n, n < ninodes → contents t.image n = appended calls n) ∧
      (∀ n m (a b : Slot), n < ninodes → m < ninodes → a.InFile (dinodeAt t.image n) →
        b.InFile (dinodeAt t.image m) →
        a.block t.image (dinodeAt t.image n).addrs = b.block t.image (dinodeAt t.image m).addrs →
        n = m ∧ a = b) ∧
      t.freeblock = firstData + demand (appended calls) := by
  refine Yields.seq (format_yields behind) ?_
  intro _ s formatted
  have nothing : (fun n => [] ++ appended calls n) = appended calls := rfl
  refine (runCalls_yields calls formatted.holds (by rw [formatted.freeinode]; decide)
    (fun _ _ => rfl) (by rw [formatted.freeinode]; exact valid) limit room).mono ?_
  intro _ t holds
  rw [nothing] at holds
  refine ⟨fun n inArea => holds.contents_eq inArea, ?_, holds.count⟩
  intro n m a b inAreaN inAreaM usedA usedB same
  have equal := holds.stored.filed.placed.apart (n, a) (m, b)
    ⟨inAreaN, Slot.used_of_inFile (holds.sizes n inAreaN) usedA⟩
    ⟨inAreaM, Slot.used_of_inFile (holds.sizes m inAreaM) usedB⟩ same
  cases equal
  exact ⟨rfl, rfl⟩

/-- Two files, filled in turns. -/
def twoFiles : List Call :=
  [.ialloc T_FILE, .ialloc T_FILE, .iappend 1 [1, 2], .iappend 2 [3], .iappend 1 [4]]

theorem twoFiles_stored :
    Yields (format Block.zero >>= fun _ => runCalls twoFiles) initial fun _ t =>
      contents t.image 1 = [1, 2, 4] ∧ contents t.image 2 = [3] ∧ t.freeblock = 39 := by
  have lengths : ∀ n, (appended twoFiles n).length ≤ MAXFILE * 512 := by
    intro n
    by_cases one : n = 1
    · subst one
      decide
    · by_cases two : n = 2
      · subst two
        decide
      · have none : appended twoFiles n = [] := by
          simp [twoFiles, appended, Ne.symm one, Ne.symm two]
        rw [none]
        exact Nat.zero_le _
  have blocks : demand (appended twoFiles) = 2 := by decide +kernel
  refine (iappend_calls_store Block.zero twoFiles (by simp [twoFiles, ValidFrom, ninodes]) lengths
    (by rw [blocks]; decide)).mono ?_
  rintro _ t ⟨stored, -, count⟩
  rw [blocks] at count
  exact ⟨stored 1 (by decide), stored 2 (by decide), count⟩

end Gcgos.Mkfs
