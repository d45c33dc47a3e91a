import Gcgos.Fs.Geometry
import Gcgos.Mkfs.Filed
import Mathlib.Algebra.BigOperators.Group.Finset.Basic

/-!
# Appending to a file

The contents of a file on the image are read off its dinode and its block
numbers. `iappend` puts the appended bytes behind the contents, whatever the
other files are and in however many pieces it copies them; `ialloc` gives an
empty file. So after any sequence of calls every file holds exactly what was
appended to it, and no block belongs to two files.
-/

set_option autoImplicit false

namespace Gcgos.Mkfs

open Fs Act ByteMap

/-- The shape after file block `fbn` has been asked for. -/
def Shape.grow (shape : Shape) (fbn : Nat) : Shape :=
  if fbn < shape.blocks then shape else ⟨fbn + 1, shape.table || decide (NDIRECT ≤ fbn)⟩

/-- The number of blocks of a shape. -/
def Shape.cost (shape : Shape) : Nat := shape.blocks + shape.table.toNat

/-- From `s` to `t` only data blocks were written and handed out. -/
structure DataStep (s t : State) : Prop where
  low : ∀ sec, sec < firstData → t.image sec = s.image sec
  sectors : t.sectors = s.sectors
  freeinode : t.freeinode = s.freeinode
  used : t.usedblocks + s.freeblock = s.usedblocks + t.freeblock

theorem DataStep.refl (s : State) : DataStep s s := ⟨fun _ _ => rfl, rfl, rfl, rfl⟩

theorem DataStep.trans {s t u : State} (left : DataStep s t) (right : DataStep t u) :
    DataStep s u := by
  refine ⟨fun sec low => (right.low sec low).trans (left.low sec low),
    right.sectors.trans left.sectors, right.freeinode.trans left.freeinode, ?_⟩
  have first := left.used
  have second := right.used
  omega

/-- A write inside the image. -/
def State.write (s : State) (sec : Nat) (buf : Block) : State :=
  { s with image := Function.update s.image sec buf }

theorem wsect_inside {s : State} (sec : Nat) (buf : Block) (inside : sec < s.sectors) :
    wsect sec buf s = .ok ((), s.write sec buf) := by
  have same : max s.sectors (sec + 1) = s.sectors := by omega
  simp [wsect, State.write, same]

theorem rsect_inside {s : State} {sec : Nat} (inside : sec < s.sectors) :
    rsect sec s = .ok (s.image sec, s) := by
  simp [rsect, inside]

theorem DataStep.write {s : State} {sec : Nat} (data : firstData ≤ sec) (buf : Block) :
    DataStep s (s.write sec buf) := by
  refine ⟨fun sector low => ?_, rfl, rfl, rfl⟩
  exact Function.update_of_ne (by omega) _ _

/-- `freeblock` and `usedblocks` move together. -/
def State.bump (s : State) : State :=
  { s with freeblock := s.freeblock + 1, usedblocks := s.usedblocks + 1 }

@[simp] theorem State.bump_image (s : State) : s.bump.image = s.image := rfl

theorem nextBlock_run (s : State) : nextBlock s = .ok (UInt32.ofNat s.freeblock, s.bump) := rfl

theorem DataStep.bump (s : State) : DataStep s s.bump := by
  refine ⟨fun _ _ => rfl, rfl, rfl, ?_⟩
  simp only [State.bump]
  omega

/-- An entry that is there is left alone. -/
theorem addrsFill_found {din : Dinode} {k : Fin (NDIRECT + 1)} (there : din.addrs k ≠ 0)
    (s : State) : addrsFill din k s = .ok (din, s) := by
  simp [addrsFill, there]

theorem addrsFill_next {din : Dinode} {k : Fin (NDIRECT + 1)} (zero : din.addrs k = 0)
    (s : State) :
    addrsFill din k s = .ok ({ din with
      addrs := Function.update din.addrs k (UInt32.ofNat s.freeblock) }, s.bump) := by
  simp [addrsFill, zero, Act.bind_run, nextBlock_run]

theorem entryFill_found {indirect : Block} {k : Nat} (there : indirect.entry k ≠ 0)
    (s : State) : entryFill indirect k s = .ok (indirect, s) := by
  simp [entryFill, there]

theorem entryFill_next {indirect : Block} {k : Nat} (zero : indirect.entry k = 0)
    (s : State) :
    entryFill indirect k s =
      .ok (indirect.putU32 (4 * k) (UInt32.ofNat s.freeblock), s.bump) := by
  simp [entryFill, zero, Act.bind_run, nextBlock_run]

/-- A file block that has a disk block keeps it. -/
theorem iappendMap_found {s : State} {din : Dinode} {fbn : Nat} (bound : fbn < MAXFILE)
    (mapped : blockOf s.image din.addrs fbn ≠ 0)
    (table : NDIRECT ≤ fbn →
      din.addrs indirectSlot ≠ 0 ∧ (din.addrs indirectSlot).toNat < s.sectors) :
    Yields (iappendMap din fbn) s fun result t =>
      result.2 = din ∧ result.1.toNat = blockOf s.image din.addrs fbn ∧ t = s := by
  unfold iappendMap
  by_cases direct : fbn < NDIRECT
  · rw [if_pos direct]
    have entry : blockOf s.image din.addrs fbn = (din.addrs (addrSlot fbn)).toNat := by
      simp [blockOf, direct]
    have there : din.addrs (addrSlot fbn) ≠ 0 := by
      intro zero
      rw [entry, zero] at mapped
      exact mapped rfl
    refine Yields.step (addrsFill_found there s) ?_
    exact ⟨_, s, rfl, rfl, entry.symm, rfl⟩
  · rw [if_neg direct]
    obtain ⟨there, inside⟩ := table (by omega)
    have small : fbn - NDIRECT < NINDIRECT := by
      simp only [MAXFILE, NDIRECT, NINDIRECT] at *
      omega
    have value : blockOf s.image din.addrs fbn =
        ((s.image (din.addrs indirectSlot).toNat).entry (fbn - NDIRECT)).toNat := by
      simp [blockOf, direct]
    have entry : (s.image (din.addrs indirectSlot).toNat).entry (fbn - NDIRECT) ≠ 0 := by
      intro zero
      rw [value, zero] at mapped
      exact mapped rfl
    refine Yields.step (Act.stopIf_of_not _ s (not_not.mpr small)) ?_
    refine Yields.step (addrsFill_found there s) ?_
    refine Yields.step (rsect_inside inside) ?_
    refine Yields.step (entryFill_found entry s) ?_
    refine Yields.step (wsect_inside _ _ inside) ?_
    refine ⟨_, _, rfl, rfl, value.symm, ?_⟩
    simp [State.write]

/-- What the mapping part of `iappend` does for file `n`. -/
structure Mapped (s t : State) (addrs : Nat → Addrs) (shape : Nat → Shape) (n fbn : Nat)
    (din : Dinode) (result : UInt32 × Dinode) : Prop where
  fields : result.2 = { din with addrs := result.2.addrs }
  filed : Filed (Function.update addrs n result.2.addrs) t.image t.freeblock
    (Function.update shape n ((shape n).grow fbn))
  same : SameData addrs s.image shape (Function.update addrs n result.2.addrs) t.image
  block : result.1.toNat = blockOf t.image result.2.addrs fbn
  blank : ¬fbn < (shape n).blocks → t.image result.1.toNat = Block.zero
  count : t.freeblock + (shape n).cost = s.freeblock + ((shape n).grow fbn).cost
  step : DataStep s t

section

variable {s : State} {addrs : Nat → Addrs} {shape : Nat → Shape} {n fbn : Nat} {din : Dinode}

theorem iappendMap_old (filed : Filed addrs s.image s.freeblock shape) (inArea : n < ninodes)
    (own : addrs n = din.addrs) (whole : s.sectors = size) (room : s.freeblock ≤ size)
    (old : fbn < (shape n).blocks) :
    Yields (iappendMap din fbn) s fun result t =>
      Mapped s t addrs shape n fbn din result := by
  have limit := (filed.tidy n inArea).limit
  have table : NDIRECT ≤ fbn → din.addrs indirectSlot ≠ 0 ∧
      (din.addrs indirectSlot).toNat < s.sectors := by
    intro indirect
    have used := (filed.tidy n inArea).tables (by omega)
    have nonzero := filed.positive .table inArea used
    have bound := (filed.below .table inArea used).2
    simp only [Slot.block, own] at nonzero bound
    refine ⟨fun zero => nonzero (by rw [zero]; rfl), by omega⟩
  have mapped := filed.positive (.data fbn) inArea old
  simp only [Slot.block, own] at mapped
  refine (iappendMap_found (by omega) mapped table).mono ?_
  rintro ⟨wbn, din'⟩ t ⟨rfl, block, rfl⟩
  have same : (shape n).grow fbn = shape n := if_pos old
  have back : Function.update addrs n din'.addrs = addrs := by
    rw [← own, Function.update_eq_self]
  refine ⟨rfl, ?_, ?_, block, fun new => absurd old new, by rw [same], DataStep.refl _⟩
  · rw [back, same, Function.update_eq_self]
    exact filed
  · rw [back]
    exact SameData.refl _ _ _

theorem iappendMap_direct (filed : Filed addrs s.image s.freeblock shape)
    (inArea : n < ninodes) (own : addrs n = din.addrs) (room : s.freeblock < size)
    (next : (shape n).blocks = fbn) (direct : fbn < NDIRECT) :
    Yields (iappendMap din fbn) s fun result t =>
      Mapped s t addrs shape n fbn din result := by
  have zero : din.addrs (addrSlot fbn) = 0 := by
    rw [← own]
    exact (filed.tidy n inArea).noDirect fbn (by omega) direct
  have grown : (shape n).grow fbn = ⟨fbn + 1, (shape n).table⟩ := by
    have low : ¬NDIRECT ≤ fbn := by omega
    simp [Shape.grow, next, low]
  obtain ⟨alloc, same⟩ := filed.allocDirect inArea next direct room
  rw [own] at alloc same
  unfold iappendMap
  rw [if_pos direct]
  refine Yields.step (addrsFill_next zero s) ?_
  refine ⟨_, _, rfl, rfl, ?_, same, ?_, ?_, ?_, DataStep.bump s⟩
  · rw [grown]
    exact alloc
  · simp [blockOf, direct]
  · intro _
    simp only [Function.update_self, State.bump]
    rw [Filed.word room]
    exact filed.fresh _ (le_refl _)
  · rw [grown]
    simp only [State.bump, Shape.cost, next]
    omega

/-- The part of the mapping that works in the indirect block. -/
theorem iappendEntry_yields (filed : Filed addrs s.image s.freeblock shape)
    (inArea : n < ninodes) (own : addrs n = din.addrs) (whole : s.sectors = size)
    (room : s.freeblock < size) (table : (shape n).table = true)
    (next : (shape n).blocks = fbn) (indirect : NDIRECT ≤ fbn) (bound : fbn < MAXFILE) :
    Yields (do
      let indirect ← rsect (din.addrs indirectSlot).toNat
      let indirect ← entryFill indirect (fbn - NDIRECT)
      wsect (din.addrs indirectSlot).toNat indirect
      pure (indirect.entry (fbn - NDIRECT), din)) s fun result t =>
        Mapped s t addrs shape n fbn din result := by
  have small : fbn - NDIRECT < NINDIRECT := by
    simp only [MAXFILE, NDIRECT, NINDIRECT] at *
    omega
  have place := filed.below .table inArea table
  simp only [Slot.block, own] at place
  have inside : (din.addrs indirectSlot).toNat < s.sectors := by omega
  have zero := (filed.tidy n inArea).noEntry (fbn - NDIRECT) table (by omega) small
  rw [own] at zero
  have grown : (shape n).grow fbn = ⟨NDIRECT + (fbn - NDIRECT) + 1, true⟩ := by
    simp only [Shape.grow, next, lt_irrefl, if_false, table, Bool.true_or]
    congr 1
    omega
  obtain ⟨alloc, same⟩ := filed.allocEntry inArea table (j := fbn - NDIRECT) (by omega) small room
  rw [own] at alloc same
  have back : Function.update addrs n din.addrs = addrs := by
    rw [← own, Function.update_eq_self]
  refine Yields.step (rsect_inside inside) ?_
  refine Yields.step (entryFill_next zero s) ?_
  refine Yields.step (wsect_inside (s := s.bump) _ _ inside) ?_
  refine ⟨_, _, rfl, rfl, ?_, ?_, ?_, ?_, ?_,
    (DataStep.bump s).trans (DataStep.write place.1 _)⟩
  · rw [back, grown]
    exact alloc
  · rw [back]
    exact same
  · have high : ¬fbn < NDIRECT := by omega
    simp only [blockOf, if_neg high, State.write, State.bump, Function.update_self]
  · intro _
    have new : s.freeblock ≠ (din.addrs indirectSlot).toNat := by omega
    simp only [Block.entry_putU32 _ _ small, if_true, State.write, State.bump]
    rw [Filed.word room, Function.update_of_ne new]
    exact filed.fresh _ (le_refl _)
  · rw [grown]
    simp only [State.write, State.bump, Shape.cost, next, table]
    omega

/-- `iappend` finds or makes the disk block of the file block it has reached. -/
theorem iappendMap_yields (filed : Filed addrs s.image s.freeblock shape)
    (inArea : n < ninodes) (own : addrs n = din.addrs) (whole : s.sectors = size)
    (reach : fbn ≤ (shape n).blocks) (bound : fbn < MAXFILE)
    (room : s.freeblock + ((shape n).grow fbn).cost ≤ size + (shape n).cost) :
    Yields (iappendMap din fbn) s fun result t =>
      Mapped s t addrs shape n fbn din result := by
  by_cases old : fbn < (shape n).blocks
  · have same : (shape n).grow fbn = shape n := if_pos old
    rw [same] at room
    exact iappendMap_old filed inArea own whole (by omega) old
  have next : (shape n).blocks = fbn := by omega
  have cost : ((shape n).grow fbn).cost =
      fbn + 1 + ((shape n).table || decide (NDIRECT ≤ fbn)).toNat := by
    simp [Shape.grow, Shape.cost, next]
  have before : (shape n).cost = fbn + (shape n).table.toNat := by
    simp [Shape.cost, next]
  rw [cost, before] at room
  by_cases direct : fbn < NDIRECT
  · have low : ¬NDIRECT ≤ fbn := by omega
    simp only [low, decide_false, Bool.or_false] at room
    exact iappendMap_direct filed inArea own (by omega) next direct
  have indirect : NDIRECT ≤ fbn := by omega
  have small : fbn - NDIRECT < NINDIRECT := by
    simp only [MAXFILE, NDIRECT, NINDIRECT] at *
    omega
  simp only [indirect, decide_true, Bool.or_true, Bool.toNat_true] at room
  unfold iappendMap
  rw [if_neg direct]
  refine Yields.step (Act.stopIf_of_not _ s (not_not.mpr small)) ?_
  cases table : (shape n).table with
  | true =>
      rw [table] at room
      have there : din.addrs indirectSlot ≠ 0 := by
        have nonzero := filed.positive .table inArea table
        simp only [Slot.block, own] at nonzero
        exact fun zero => nonzero (by rw [zero]; rfl)
      refine Yields.step (addrsFill_found there s) ?_
      simp only [Bool.toNat_true] at room
      exact iappendEntry_yields filed inArea own whole (by omega) table next indirect bound
  | false =>
      rw [table] at room
      simp only [Bool.toNat_false] at room
      have zero : din.addrs indirectSlot = 0 := by
        rw [← own]
        exact (filed.tidy n inArea).noTable table
      obtain ⟨alloc, same⟩ := filed.allocTable inArea table (by omega)
      rw [own] at alloc same
      refine Yields.step (addrsFill_next zero s) ?_
      have filled : Function.update addrs n
          (Function.update din.addrs indirectSlot (UInt32.ofNat s.freeblock)) n =
            ({ din with
              addrs := Function.update din.addrs indirectSlot
                (UInt32.ofNat s.freeblock) } : Dinode).addrs := Function.update_self _ _ _
      have tail := iappendEntry_yields (s := s.bump) alloc inArea filled whole (by simp only [State.bump]; omega)
        (by rw [Function.update_self]) (by rw [Function.update_self]; exact next) indirect bound
      have grown : (Function.update shape n ⟨(shape n).blocks, true⟩ n).grow fbn =
          (shape n).grow fbn := by
        simp [Shape.grow, next, table, indirect]
      refine tail.mono ?_
      intro result t mapped
      have filedT := mapped.filed
      have count := mapped.count
      rw [grown, Function.update_idem, Function.update_idem] at filedT
      rw [grown, Function.update_self] at count
      refine ⟨mapped.fields, filedT, ?_, mapped.block, ?_, ?_,
        (DataStep.bump s).trans mapped.step⟩
      · intro m k inArea' used
        obtain ⟨first, -⟩ := same m k inArea' used
        have still : k < (Function.update shape n ⟨(shape n).blocks, true⟩ m).blocks := by
          by_cases here : m = n
          · subst here
            rw [Function.update_self]
            exact used
          · rw [Function.update_of_ne here]
            exact used
        obtain ⟨second, bytes⟩ := mapped.same m k inArea' still
        rw [Function.update_idem] at second
        rw [State.bump_image] at second bytes
        rw [first] at bytes
        exact ⟨second.trans first, bytes⟩
      · intro _
        exact mapped.blank (by rw [Function.update_self]; simp only; omega)
      · simp only [State.bump, Shape.cost, table, Bool.toNat_true, Bool.toNat_false] at count ⊢
        omega

end

/-- The shape of a file of `len` bytes. -/
def shapeFor (len : Nat) : Shape := ⟨(len + 511) / 512, decide (NDIRECT * 512 < len)⟩

theorem shapeFor_cost_mono {len more : Nat} (le : len ≤ more) :
    (shapeFor len).cost ≤ (shapeFor more).cost := by
  unfold shapeFor Shape.cost
  by_cases low : NDIRECT * 512 < len
  · have high : NDIRECT * 512 < more := by omega
    simp only [low, high, decide_true]
    omega
  · simp only [low, decide_false, Bool.toNat_false]
    omega

/-- A piece that stays in the block where a file ends. -/
theorem shapeFor_grow (len piece : Nat) (some : 0 < piece)
    (inside : len + piece ≤ (len / 512 + 1) * 512) :
    (shapeFor len).grow (len / 512) = shapeFor (len + piece) := by
  unfold shapeFor Shape.grow
  simp only [NDIRECT]
  split
  · congr 1
    · omega
    · congr 1
      simp only [eq_iff_iff]
      omega
  · congr 1
    · omega
    · rw [← Bool.decide_or]
      congr 1
      simp only [eq_iff_iff]
      omega

/-- The disk holds the files: their blocks are laid out, and byte `p` of a file
is byte `p % 512` of its block `p / 512`. The last block is zero behind the end
of the file. -/
structure Stored (addrs : Nat → Addrs) (disk : Nat → Block) (free : Nat)
    (files : Nat → List UInt8) : Prop where
  filed : Filed addrs disk free fun n => shapeFor (files n).length
  bytes : ∀ n p, n < ninodes → p / 512 < (shapeFor (files n).length).blocks →
    (disk (blockOf disk (addrs n) (p / 512))).byte (p % 512) = (files n).getD p 0

theorem shapes_update (files : Nat → List UInt8) (n : Nat) (contents : List UInt8) :
    (fun m => shapeFor (Function.update files n contents m).length) =
      Function.update (fun m => shapeFor (files m).length) n (shapeFor contents.length) := by
  funext m
  by_cases here : m = n
  · subst here
    simp
  · simp [here]

/-- The store of one piece behind the end of file `n`, into a block the file
already has. -/
theorem Stored.piece {addrs addrs' : Nat → Addrs} {disk disk' : Nat → Block} {free free' : Nat}
    {files : Nat → List UInt8} (stored : Stored addrs disk free files) {n : Nat}
    (inArea : n < ninodes) {piece : List UInt8} (some : 0 < piece.length)
    (inside : (files n).length + piece.length ≤ ((files n).length / 512 + 1) * 512)
    (filed : Filed addrs' disk' free' (Function.update (fun m => shapeFor (files m).length) n
      (shapeFor ((files n).length + piece.length))))
    (same : SameData addrs disk (fun m => shapeFor (files m).length) addrs' disk')
    (blank : ¬(files n).length / 512 < (shapeFor (files n).length).blocks →
      disk' (blockOf disk' (addrs' n) ((files n).length / 512)) = Block.zero) :
    Stored addrs' (Function.update disk' (blockOf disk' (addrs' n) ((files n).length / 512))
        ((disk' (blockOf disk' (addrs' n) ((files n).length / 512))).put
          ((files n).length % 512) piece)) free'
      (Function.update files n (files n ++ piece)) := by
  have used : (files n).length / 512 <
      (Function.update (fun m => shapeFor (files m).length) n
        (shapeFor ((files n).length + piece.length)) n).blocks := by
    rw [Function.update_self]
    simp only [shapeFor]
    omega
  constructor
  · rw [shapes_update, List.length_append]
    exact filed.store inArea used _
  · intro m p inArea' usedP
    rw [congrFun (shapes_update files n (files n ++ piece)) m, List.length_append] at usedP
    rw [filed.store_data inArea used _ inArea' usedP]
    -- a byte of a block that was there before comes from `stored`
    have old : p / 512 < (shapeFor (files m).length).blocks →
        (disk' (blockOf disk' (addrs' m) (p / 512))).byte (p % 512) = (files m).getD p 0 := by
      intro before
      obtain ⟨block, bytes⟩ := same m (p / 512) inArea' before
      rw [block, bytes]
      exact stored.bytes m p inArea' before
    by_cases here : m = n
    · subst here
      rw [Function.update_self] at usedP ⊢
      simp only [shapeFor] at usedP old blank
      by_cases last : p / 512 = (files m).length / 512
      · rw [if_pos ⟨rfl, last⟩]
        by_cases inPiece : (files m).length ≤ p ∧ p < (files m).length + piece.length
        · rw [Block.byte_put _ _ _ (by simp only [BSIZE]; omega),
            putBytes_inside (by omega) (by omega), List.getD_append_right _ _ _ _ (by omega)]
          congr 1
          omega
        · rw [Block.byte_put_outside (by omega), ← last]
          have rest : (files m ++ piece).getD p 0 = (files m).getD p 0 := by
            by_cases before : p < (files m).length
            · rw [List.getD_append _ _ _ _ before]
            · rw [List.getD_eq_default _ _ (by rw [List.length_append]; omega),
                List.getD_eq_default _ _ (by omega)]
          rw [rest]
          by_cases present : p / 512 < ((files m).length + 511) / 512
          · exact old present
          · rw [last] at present ⊢
            rw [blank present, List.getD_eq_default _ _ (by omega)]
            unfold Block.byte Block.zero
            split <;> rfl
      · have before : p < (files m).length := by omega
        rw [if_neg fun equal => last equal.2, List.getD_append _ _ _ _ before]
        exact old (by omega)
    · rw [if_neg fun equal => here equal.1]
      rw [Function.update_of_ne here] at usedP ⊢
      exact old usedP

/-- What the loop of `iappend` does for file `n`. -/
structure Appended (s t : State) (addrs : Nat → Addrs) (files : Nat → List UInt8) (n : Nat)
    (p : List UInt8) (din : Dinode) (result : Nat × Dinode) : Prop where
  fields : result.2 = { din with addrs := result.2.addrs }
  reached : result.1 = (files n).length + p.length
  stored : Stored (Function.update addrs n result.2.addrs) t.image t.freeblock
    (Function.update files n (files n ++ p))
  count : t.freeblock + (shapeFor (files n).length).cost =
    s.freeblock + (shapeFor ((files n).length + p.length)).cost
  step : DataStep s t

theorem Appended.nil {s : State} {addrs : Nat → Addrs} {files : Nat → List UInt8} {n : Nat}
    {din : Dinode} (stored : Stored addrs s.image s.freeblock files)
    (own : addrs n = din.addrs) :
    Appended s s addrs files n [] din ((files n).length, din) := by
  have back : Function.update addrs n din.addrs = addrs := by
    rw [← own, Function.update_eq_self]
  refine ⟨rfl, rfl, ?_, rfl, DataStep.refl s⟩
  simp only [back, List.append_nil, Function.update_eq_self]
  exact stored

/-- The first turn of the loop, when its piece has room: the piece is stored
and the loop goes on behind it. -/
theorem iappendLoop_turn (fuel : Nat) {p : List UInt8} {s : State} {addrs : Nat → Addrs}
    {files : Nat → List UInt8} {n n1 : Nat} {din : Dinode}
    (stored : Stored addrs s.image s.freeblock files) (inArea : n < ninodes)
    (own : addrs n = din.addrs) (whole : s.sectors = size) (nonempty : p ≠ [])
    (cut : n1 = min p.length (((files n).length / 512 + 1) * 512 - (files n).length))
    (limit : (files n).length < MAXFILE * 512)
    (room : s.freeblock + (shapeFor ((files n).length + n1)).cost ≤
      size + (shapeFor (files n).length).cost) :
    ∃ din₁ t, iappendLoop (fuel + 1) (files n).length p din s =
        iappendLoop fuel ((files n).length + n1) (p.drop n1) din₁ t ∧
      Appended s t addrs files n (p.take n1) din ((files n).length + n1, din₁) := by
  have positive : 0 < p.length := List.length_pos_iff.mpr nonempty
  have some : 0 < n1 := by omega
  have inside : (files n).length + n1 ≤ ((files n).length / 512 + 1) * 512 := by omega
  have grown := shapeFor_grow _ _ some inside
  have taken : (p.take n1).length = n1 := by rw [List.length_take]; omega
  have reach : (files n).length / 512 ≤ (shapeFor (files n).length).blocks := by
    simp only [shapeFor]
    omega
  have bound : (files n).length / 512 < MAXFILE := by
    simp only [MAXFILE, NDIRECT, NINDIRECT] at limit ⊢
    omega
  obtain ⟨⟨wbn, din₁⟩, t, map, mapped⟩ := iappendMap_yields stored.filed inArea own whole reach
    bound (by rw [grown]; exact room)
  have filed := mapped.filed
  have count := mapped.count
  have block := mapped.block
  rw [grown, ← taken] at filed
  rw [grown] at count
  simp only at block
  have here : Function.update addrs n din₁.addrs n = din₁.addrs := Function.update_self _ _ _
  have written := stored.piece inArea (by rw [taken]; exact some)
    (by rw [taken]; exact inside) filed mapped.same
    (by rw [here, ← block]; exact mapped.blank)
  rw [here, ← block] at written
  have used : (files n).length / 512 <
      (Function.update (fun m => shapeFor (files m).length) n
        (shapeFor ((files n).length + (p.take n1).length)) n).blocks := by
    rw [Function.update_self]
    simp only [shapeFor]
    omega
  have place := filed.below (.data ((files n).length / 512)) inArea used
  simp only [Slot.block, here, ← block] at place
  have wide : wbn.toNat < t.sectors := by
    rw [mapped.step.sectors, whole]
    omega
  have offset : (files n).length - (files n).length / 512 * 512 = (files n).length % 512 := by
    omega
  refine ⟨din₁, t.write wbn.toNat ((t.image wbn.toNat).put ((files n).length % 512)
    (p.take n1)), ?_, mapped.fields, by rw [taken], written, by rw [taken]; exact count,
    mapped.step.trans (DataStep.write place.1 _)⟩
  rw [iappendLoop, if_neg nonempty, Act.bind_of_ok map]
  simp only [← cut, offset]
  rw [Act.bind_of_ok (rsect_inside wide), Act.bind_of_ok (wsect_inside _ _ wide)]

/-- Two runs of appended bytes are one. -/
theorem Appended.trans {s t u : State} {addrs : Nat → Addrs} {files : Nat → List UInt8} {n : Nat}
    {p q : List UInt8} {din din₁ : Dinode} {off : Nat} {result : Nat × Dinode}
    (first : Appended s t addrs files n p din (off, din₁))
    (second : Appended t u (Function.update addrs n din₁.addrs)
      (Function.update files n (files n ++ p)) n q din₁ result) :
    Appended s u addrs files n (p ++ q) din result := by
  obtain ⟨fields, reached, stored, count, step⟩ := second
  rw [Function.update_self, List.length_append] at reached count
  rw [Function.update_idem, Function.update_idem, Function.update_self, List.append_assoc]
    at stored
  refine ⟨?_, by rw [reached, List.length_append]; omega, stored, ?_, first.step.trans step⟩
  · have before : din₁ = { din with addrs := din₁.addrs } := first.fields
    rw [fields, before]
  · have before := first.count
    rw [List.length_append, ← Nat.add_assoc]
    omega

theorem iappendLoop_yields (fuel : Nat) (p : List UInt8) {s : State} {addrs : Nat → Addrs}
    {files : Nat → List UInt8} {n : Nat} {din : Dinode}
    (stored : Stored addrs s.image s.freeblock files) (inArea : n < ninodes)
    (own : addrs n = din.addrs) (whole : s.sectors = size) (enough : p.length ≤ fuel)
    (limit : (files n).length + p.length ≤ MAXFILE * 512)
    (room : s.freeblock + (shapeFor ((files n).length + p.length)).cost ≤
      size + (shapeFor (files n).length).cost) :
    Yields (iappendLoop fuel (files n).length p din) s fun result t =>
      Appended s t addrs files n p din result := by
  induction fuel generalizing p s addrs files din with
  | zero =>
      have empty : p = [] := List.eq_nil_of_length_eq_zero (by omega)
      subst empty
      exact ⟨_, s, rfl, Appended.nil stored own⟩
  | succ fuel ih =>
      by_cases empty : p = []
      · subst empty
        exact ⟨_, s, rfl, Appended.nil stored own⟩
      have positive : 0 < p.length := List.length_pos_iff.mpr empty
      generalize cut : min p.length (((files n).length / 512 + 1) * 512 - (files n).length) = n1
      have rising : (shapeFor ((files n).length + n1)).cost ≤
          (shapeFor ((files n).length + p.length)).cost := shapeFor_cost_mono (by omega)
      obtain ⟨din₁, t, turn, piece⟩ := iappendLoop_turn fuel stored inArea own whole empty
        cut.symm (by omega) (by omega)
      have taken : (p.take n1).length = n1 := by rw [List.length_take]; omega
      have count := piece.count
      rw [taken] at count
      have length : (Function.update files n (files n ++ p.take n1) n).length =
          (files n).length + n1 := by
        rw [Function.update_self, List.length_append, taken]
      have total : (files n).length + n1 + (p.length - n1) = (files n).length + p.length := by
        omega
      obtain ⟨result, u, rest, later⟩ := ih (p.drop n1) piece.stored
        (Function.update_self _ _ _) (piece.step.sectors.trans whole)
        (by rw [List.length_drop]; omega)
        (by rw [length, List.length_drop]; omega)
        (by rw [length, List.length_drop, total]; omega)
      rw [length] at rest
      have both := piece.trans later
      rw [List.take_append_drop] at both
      exact ⟨result, u, turn.trans rest, both⟩

/-- Without room the mapping part fails, or gives a block behind the image. -/
theorem iappendMap_full {s : State} {addrs : Nat → Addrs} {shape : Nat → Shape} {n : Nat}
    {din : Dinode} (filed : Filed addrs s.image s.freeblock shape) (inArea : n < ninodes)
    (own : addrs n = din.addrs) (whole : s.sectors = size) (fits : s.freeblock ≤ size)
    (fbn : Nat) (reach : fbn ≤ (shape n).blocks) (bound : fbn < MAXFILE)
    (full : ¬s.freeblock + ((shape n).grow fbn).cost ≤ size + (shape n).cost) :
    Ensures (iappendMap din fbn) s fun result t => ¬result.1.toNat < t.sectors := by
  have tidy := filed.tidy n inArea
  have last : (UInt32.ofNat size).toNat = size := by decide
  have next : (shape n).blocks = fbn := by
    by_contra other
    have same : (shape n).grow fbn = shape n := if_pos (by omega)
    rw [same] at full
    omega
  have cost : ((shape n).grow fbn).cost =
      fbn + 1 + ((shape n).table || decide (NDIRECT ≤ fbn)).toNat := by
    simp [Shape.grow, Shape.cost, next]
  have before : (shape n).cost = fbn + (shape n).table.toNat := by
    simp [Shape.cost, next]
  rw [cost, before] at full
  unfold iappendMap
  by_cases direct : fbn < NDIRECT
  · have low : ¬NDIRECT ≤ fbn := by omega
    simp only [low, decide_false, Bool.or_false] at full
    have zero : din.addrs (addrSlot fbn) = 0 := by
      rw [← own]
      exact tidy.noDirect fbn (by omega) direct
    have atEnd : s.freeblock = size := by omega
    rw [if_pos direct]
    refine Ensures.step (addrsFill_next zero s) (Ensures.pure ?_)
    simp only [Function.update_self, atEnd, last, State.bump, whole]
    omega
  have indirect : NDIRECT ≤ fbn := by omega
  have small : fbn - NDIRECT < NINDIRECT := by
    simp only [MAXFILE, NDIRECT, NINDIRECT] at *
    omega
  simp only [indirect, decide_true, Bool.or_true, Bool.toNat_true] at full
  rw [if_neg direct]
  refine Ensures.step (Act.stopIf_of_not _ s (not_not.mpr small)) ?_
  cases table : (shape n).table with
  | true =>
      rw [table] at full
      simp only [Bool.toNat_true] at full
      have atEnd : s.freeblock = size := by omega
      have place := filed.below .table inArea table
      have nonzero := filed.positive .table inArea table
      simp only [Slot.block, own] at place nonzero
      have there : din.addrs indirectSlot ≠ 0 := fun zero => nonzero (by rw [zero]; rfl)
      have inside : (din.addrs indirectSlot).toNat < s.sectors := by omega
      have zero := tidy.noEntry (fbn - NDIRECT) table (by omega) small
      rw [own] at zero
      refine Ensures.step (addrsFill_found there s) ?_
      refine Ensures.step (rsect_inside inside) ?_
      refine Ensures.step (entryFill_next zero s) ?_
      refine Ensures.step (wsect_inside (s := s.bump) _ _ inside) (Ensures.pure ?_)
      simp only [Block.entry_putU32 _ _ small, if_true, atEnd, last, State.write, State.bump,
        whole]
      omega
  | false =>
      rw [table] at full
      simp only [Bool.toNat_false] at full
      have zero : din.addrs indirectSlot = 0 := by
        rw [← own]
        exact tidy.noTable table
      refine Ensures.step (addrsFill_next zero s) ?_
      simp only [Function.update_self]
      by_cases atEnd : s.freeblock = size
      · have outside : ¬(UInt32.ofNat s.freeblock).toNat < s.bump.sectors := by
          rw [atEnd, last]
          simp only [State.bump, whole]
          omega
        intro result t returned
        obtain ⟨buf, u, read, -⟩ := Act.bind_eq_ok.mp returned
        unfold rsect at read
        rw [if_neg outside] at read
        cases read
      · have number : (UInt32.ofNat s.freeblock).toNat = s.freeblock :=
          Filed.word (by omega)
        have inside : (UInt32.ofNat s.freeblock).toNat < s.bump.sectors := by
          rw [number]
          simp only [State.bump, whole]
          omega
        have blank : (s.bump.image (UInt32.ofNat s.freeblock).toNat).entry (fbn - NDIRECT) = 0 := by
          rw [number, State.bump_image, filed.fresh _ (le_refl _)]
          exact entry_zero _
        refine Ensures.step (rsect_inside inside) ?_
        refine Ensures.step (entryFill_next blank s.bump) ?_
        refine Ensures.step (wsect_inside (s := s.bump.bump) _ _ inside) (Ensures.pure ?_)
        have final : s.bump.freeblock = size := by
          simp only [State.bump]
          omega
        have whole' : s.bump.bump.sectors = size := whole
        simp only [Block.entry_putU32 _ _ small, if_true, final, last, State.write, whole']
        omega

/-- A loop that ends had room for all of its bytes. -/
theorem iappendLoop_fits (fuel : Nat) (p : List UInt8) {s : State} {addrs : Nat → Addrs}
    {files : Nat → List UInt8} {n : Nat} {din : Dinode}
    (stored : Stored addrs s.image s.freeblock files) (inArea : n < ninodes)
    (own : addrs n = din.addrs) (whole : s.sectors = size) (fits : s.freeblock ≤ size)
    (enough : p.length ≤ fuel) :
    Ensures (iappendLoop fuel (files n).length p din) s fun _ _ =>
      (files n).length + p.length ≤ MAXFILE * 512 ∧
        s.freeblock + (shapeFor ((files n).length + p.length)).cost ≤
          size + (shapeFor (files n).length).cost := by
  have limit : (files n).length ≤ MAXFILE * 512 := by
    have blocks := (stored.filed.tidy n inArea).limit
    simp only [shapeFor, MAXFILE, NDIRECT, NINDIRECT] at blocks ⊢
    omega
  induction fuel generalizing p s addrs files din with
  | zero =>
      have empty : p = [] := List.eq_nil_of_length_eq_zero (by omega)
      subst empty
      exact Ensures.pure ⟨limit, by simp only [List.length_nil, Nat.add_zero]; omega⟩
  | succ fuel ih =>
      by_cases empty : p = []
      · subst empty
        intro _ _ _
        exact ⟨limit, by simp only [List.length_nil, Nat.add_zero]; omega⟩
      have positive : 0 < p.length := List.length_pos_iff.mpr empty
      generalize cut : min p.length (((files n).length / 512 + 1) * 512 - (files n).length) = n1
      have grown := shapeFor_grow (files n).length n1 (by omega) (by omega)
      by_cases more : (files n).length < MAXFILE * 512
      · by_cases room : s.freeblock + (shapeFor ((files n).length + n1)).cost ≤
            size + (shapeFor (files n).length).cost
        · obtain ⟨din₁, t, turn, piece⟩ := iappendLoop_turn fuel stored inArea own whole empty
            cut.symm more room
          have taken : (p.take n1).length = n1 := by rw [List.length_take]; omega
          have length : (Function.update files n (files n ++ p.take n1) n).length =
              (files n).length + n1 := by
            rw [Function.update_self, List.length_append, taken]
          have count := piece.count
          rw [taken] at count
          have inside : (files n).length + n1 ≤ MAXFILE * 512 := by
            simp only [MAXFILE, NDIRECT, NINDIRECT] at more ⊢
            omega
          have later := ih (p.drop n1) piece.stored (Function.update_self _ _ _)
            (piece.step.sectors.trans whole) (by omega) (by rw [List.length_drop]; omega)
            (by rw [length]; exact inside)
          rw [length] at later
          intro result u returned
          rw [turn] at returned
          obtain ⟨all, space⟩ := later result u returned
          rw [List.length_drop] at all space
          have total : (files n).length + n1 + (p.length - n1) = (files n).length + p.length := by
            omega
          rw [total] at all space
          exact ⟨all, by omega⟩
        · have failing := iappendMap_full stored.filed inArea own whole fits
            ((files n).length / 512) (by simp only [shapeFor]; omega)
            (by simp only [MAXFILE, NDIRECT, NINDIRECT] at more ⊢; omega)
            (by rw [grown]; exact room)
          intro result u returned
          rw [iappendLoop, if_neg empty] at returned
          obtain ⟨mapped, t, map, rest⟩ := Act.bind_eq_ok.mp returned
          have outside := failing mapped t map
          obtain ⟨buf, v, read, -⟩ := Act.bind_eq_ok.mp rest
          unfold rsect at read
          rw [if_neg outside] at read
          cases read
      · intro result u returned
        rw [iappendLoop, if_neg empty] at returned
        obtain ⟨mapped, t, map, -⟩ := Act.bind_eq_ok.mp returned
        have high : ¬(files n).length / 512 < NDIRECT := by
          simp only [MAXFILE, NDIRECT, NINDIRECT] at more ⊢
          omega
        have beyond : ¬(files n).length / 512 - NDIRECT < NINDIRECT := by
          simp only [MAXFILE, NDIRECT, NINDIRECT] at more ⊢
          omega
        rw [iappendMap, if_neg high, Act.bind_of_error (Act.stopIf_of _ _ beyond)] at map
        cases map

/-- A change in front of the data area does not touch the files. -/
theorem Stored.low {addrs : Nat → Addrs} {disk disk' : Nat → Block} {free : Nat}
    {files : Nat → List UInt8} (stored : Stored addrs disk free files)
    (same : ∀ b, firstData ≤ b → disk' b = disk b) : Stored addrs disk' free files := by
  have filed := stored.filed
  have tables : ∀ n, n < ninodes → (shapeFor (files n).length).table = true →
      disk' (addrs n indirectSlot).toNat = disk (addrs n indirectSlot).toNat := by
    intro n inArea table
    exact same _ (filed.below .table inArea table).1
  refine ⟨⟨filed.order, ?_, fun n inArea => (filed.tidy n inArea).congr (tables n inArea), ?_⟩, ?_⟩
  · refine filed.placed.congr (fun _ member => member) ?_
    rintro ⟨n, slot⟩ ⟨inArea, used⟩
    exact filed.block_congr inArea (tables n inArea) _ used
  · intro b beyond
    rw [same b (le_trans filed.order beyond)]
    exact filed.fresh b beyond
  · intro n p inArea used
    have place := filed.block_congr inArea (tables n inArea) (.data (p / 512)) used
    have data : firstData ≤ blockOf disk (addrs n) (p / 512) :=
      (filed.below (.data (p / 512)) inArea used).1
    simp only [Slot.block] at place
    rw [place, same _ data]
    exact stored.bytes n p inArea used

/-- Only the block numbers inside the inode area matter. -/
theorem Stored.congr {addrs addrs' : Nat → Addrs} {disk : Nat → Block} {free : Nat}
    {files : Nat → List UInt8} (stored : Stored addrs disk free files)
    (same : ∀ n, n < ninodes → addrs' n = addrs n) : Stored addrs' disk free files := by
  have filed := stored.filed
  refine ⟨⟨filed.order, ?_, ?_, filed.fresh⟩, ?_⟩
  · refine filed.placed.congr (fun _ member => member) ?_
    rintro ⟨n, slot⟩ ⟨inArea, -⟩
    simp only [blockAt, same n inArea]
  · intro n inArea
    rw [same n inArea]
    exact filed.tidy n inArea
  · intro n p inArea bound
    rw [same n inArea]
    exact stored.bytes n p inArea bound

/-- The number of blocks that files of these lengths take. -/
def demand (files : Nat → List UInt8) : Nat :=
  ∑ n ∈ Finset.range ninodes, (shapeFor (files n).length).cost

theorem demand_update (files : Nat → List UInt8) {n : Nat} (inArea : n < ninodes)
    (contents : List UInt8) :
    demand (Function.update files n contents) + (shapeFor (files n).length).cost =
      demand files + (shapeFor contents.length).cost := by
  have member : n ∈ Finset.range ninodes := Finset.mem_range.mpr inArea
  unfold demand
  rw [← Finset.add_sum_erase _ _ member, ← Finset.add_sum_erase _ _ member,
    Function.update_self]
  have rest : ∑ m ∈ (Finset.range ninodes).erase n,
      (shapeFor (Function.update files n contents m).length).cost =
        ∑ m ∈ (Finset.range ninodes).erase n, (shapeFor (files m).length).cost := by
    refine Finset.sum_congr rfl fun m inside => ?_
    rw [Function.update_of_ne (Finset.ne_of_mem_erase inside)]
  rw [rest]
  omega

/-- The image holds the files: dinodes, block numbers and bytes agree, and the
counters say how much is used. -/
structure Holds (s : State) (files : Nat → List UInt8) : Prop where
  stored : Stored (fun n => (dinodeAt s.image n).addrs) s.image s.freeblock files
  sizes : ∀ n, n < ninodes → (dinodeAt s.image n).size.toNat = (files n).length
  whole : s.sectors = size
  used : s.usedblocks = s.freeblock
  count : s.freeblock = firstData + demand files

theorem inode_sector {n : Nat} (inArea : n < ninodes) : 2 ≤ i2b n ∧ i2b n < ninodes / IPB + 3 := by
  simp only [i2b, ninodes, IPB] at *
  omega

theorem rinode_run {s : State} {n : Nat} (inArea : n < ninodes) (whole : s.sectors = size) :
    rinode n s = .ok (dinodeAt s.image n, s) := by
  have sector := inode_sector inArea
  unfold rinode
  rw [Act.bind_of_ok (rsect_inside (by simp only [ninodes, IPB, size] at *; omega))]
  rfl

/-- The image after `winode`. -/
def withDinode (disk : Nat → Block) (n : Nat) (din : Dinode) : Nat → Block :=
  Function.update disk (i2b n) (putDinode (disk (i2b n)) n din)

theorem winode_inside {s : State} {n : Nat} (din : Dinode) (inside : i2b n < s.sectors) :
    winode n din s = .ok ((), { s with image := withDinode s.image n din }) := by
  unfold winode
  rw [Act.bind_of_ok (rsect_inside inside), wsect_inside _ _ inside]
  rfl

theorem winode_run {s : State} {n : Nat} (din : Dinode) (inArea : n < ninodes)
    (whole : s.sectors = size) :
    winode n din s = .ok ((), { s with image := withDinode s.image n din }) := by
  have sector := inode_sector inArea
  apply winode_inside
  simp only [ninodes, IPB, size] at *
  omega

theorem withDinode_first (disk : Nat → Block) (n : Nat) (din : Dinode) :
    withDinode disk n din 1 = disk 1 := by
  have sector : 1 ≠ i2b n := by
    simp only [i2b, IPB]
    omega
  exact Function.update_of_ne sector _ _

theorem dinodeAt_withDinode (disk : Nat → Block) (n m : Nat) (din : Dinode) :
    dinodeAt (withDinode disk n din) m = if m = n then din else dinodeAt disk m := by
  have slot : n % IPB < IPB := Nat.mod_lt _ (by decide)
  unfold dinodeAt withDinode
  split
  · rename_i same
    subst same
    have here : IBLOCK m = i2b m := rfl
    rw [here, Function.update_self]
    exact Block.dinode_put _ din slot
  · rename_i different
    by_cases sector : IBLOCK m = i2b n
    · rw [sector, Function.update_self]
      have slots : m % IPB ≠ n % IPB := fun same => different (IBLOCK_injective sector same)
      have length : din.bytes.length = dinodeSize := Dinode.bytes_length din
      apply Block.dinode_congr
      intro i lower upper
      apply Block.byte_put_outside
      rw [length]
      simp only [dinodeSize] at *
      omega
    · rw [Function.update_of_ne sector]

/-- `winode` of a file whose dinode it writes. -/
theorem Holds.winode {s : State} {files : Nat → List UInt8} {n : Nat} {din : Dinode}
    (inArea : n < ninodes) (whole : s.sectors = size) (used : s.usedblocks = s.freeblock)
    (stored : Stored (Function.update (fun m => (dinodeAt s.image m).addrs) n din.addrs)
      s.image s.freeblock files)
    (sizes : ∀ m, m < ninodes →
      (if m = n then din else dinodeAt s.image m).size.toNat = (files m).length)
    (count : s.freeblock = firstData + demand files) :
    Holds { s with image := withDinode s.image n din } files := by
  have sector := inode_sector inArea
  have addrs : (fun m => (dinodeAt (withDinode s.image n din) m).addrs) =
      Function.update (fun m => (dinodeAt s.image m).addrs) n din.addrs := by
    funext m
    rw [dinodeAt_withDinode]
    by_cases here : m = n
    · subst here
      simp
    · simp [here]
  refine ⟨?_, ?_, whole, used, count⟩
  · show Stored (fun m => (dinodeAt (withDinode s.image n din) m).addrs)
      (withDinode s.image n din) s.freeblock files
    rw [addrs]
    refine stored.low fun b data => Function.update_of_ne ?_ _ _
    simp only [firstData, bitblocks] at data
    omega
  · intro m inArea'
    show (dinodeAt (withDinode s.image n din) m).size.toNat = (files m).length
    rw [dinodeAt_withDinode]
    exact sizes m inArea'

/-- The fields of a dinode that `iappend` does not change. -/
def head (din : Dinode) : UInt16 × UInt16 × UInt16 × UInt16 :=
  (din.type, din.major, din.minor, din.nlink)

/-- From `s` to `t` the dinode of `n` kept its head, and the other dinodes and
the superblock are as they were. -/
structure SameHeads (s t : State) (n : Nat) : Prop where
  here : head (dinodeAt t.image n) = head (dinodeAt s.image n)
  other : ∀ m, m < ninodes → m ≠ n → dinodeAt t.image m = dinodeAt s.image m
  freeinode : t.freeinode = s.freeinode
  first : t.image 1 = s.image 1

/-- `iappend` puts the bytes behind the contents of its file. -/
theorem iappend_yields {s : State} {files : Nat → List UInt8} (holds : Holds s files) {n : Nat}
    (inArea : n < ninodes) (p : List UInt8)
    (limit : (files n).length + p.length ≤ MAXFILE * 512)
    (room : firstData + demand (Function.update files n (files n ++ p)) ≤ size) :
    Yields (iappend n p) s fun _ t =>
      Holds t (Function.update files n (files n ++ p)) ∧ SameHeads s t n := by
  have cost := demand_update files inArea (files n ++ p)
  rw [List.length_append] at cost
  have length : (dinodeAt s.image n).size.toNat = (files n).length := holds.sizes n inArea
  unfold iappend
  refine Yields.step (rinode_run inArea holds.whole) ?_
  rw [length]
  refine Yields.seq (iappendLoop_yields p.length p holds.stored inArea rfl holds.whole
    (le_refl _) limit (by have := holds.count; omega)) ?_
  rintro ⟨off, din⟩ t done
  have whole : t.sectors = size := done.step.sectors.trans holds.whole
  have reached : off = (files n).length + p.length := done.reached
  have fits : (UInt32.ofNat off).toNat = off := by
    apply UInt32.toNat_ofNat_of_lt'
    simp only [MAXFILE, NDIRECT, NINDIRECT] at limit
    have : (UInt32.size : Nat) = 4294967296 := rfl
    omega
  have dinodes : ∀ m, m < ninodes → dinodeAt t.image m = dinodeAt s.image m := by
    intro m inArea'
    have sector := inode_sector inArea'
    have low : i2b m < firstData := by
      simp only [firstData, bitblocks]
      omega
    show (t.image (i2b m)).dinode _ = (s.image (i2b m)).dinode _
    rw [done.step.low _ low]
  have kept : head din = head (dinodeAt s.image n) := by
    have fields := done.fields
    simp only at fields
    rw [fields]
    rfl
  have count : t.freeblock = firstData + demand (Function.update files n (files n ++ p)) := by
    have grown := done.count
    have before := holds.count
    omega
  have used : t.usedblocks = t.freeblock := by
    have step := done.step.used
    have before := holds.used
    omega
  have stored : Stored (Function.update (fun m => (dinodeAt t.image m).addrs) n din.addrs)
      t.image t.freeblock (Function.update files n (files n ++ p)) := by
    refine done.stored.congr fun m inArea' => ?_
    by_cases here : m = n
    · subst here
      rw [Function.update_self, Function.update_self]
    · rw [Function.update_of_ne here, Function.update_of_ne here, dinodes m inArea']
  refine ⟨(), _, winode_run _ inArea whole,
    Holds.winode inArea whole used stored ?_ count, ?_, ?_, done.step.freeinode, ?_⟩
  · intro m inArea'
    by_cases here : m = n
    · subst here
      rw [if_pos rfl, Function.update_self, List.length_append]
      simp only
      rw [fits, reached]
    · rw [if_neg here, Function.update_of_ne here, dinodes m inArea']
      exact holds.sizes m inArea'
  · show head (dinodeAt (withDinode t.image n _) n) = head (dinodeAt s.image n)
    rw [dinodeAt_withDinode, if_pos rfl, ← kept]
    rfl
  · intro m inArea' different
    show dinodeAt (withDinode t.image n _) m = dinodeAt s.image m
    rw [dinodeAt_withDinode, if_neg different, dinodes m inArea']
  · exact (withDinode_first t.image n { din with size := UInt32.ofNat off }).trans
      (done.step.low 1 (by decide))

end Gcgos.Mkfs
