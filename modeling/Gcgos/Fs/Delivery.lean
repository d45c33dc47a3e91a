import Gcgos.Fs.Read
import Gcgos.Fs.Table

/-!
# What `readi` delivers

The stores of `readi` as one change of the reader's memory. A read that stays
within one block of the file puts its bytes where they belong. Every other
read leaves the byte behind the first piece as it was.
-/

set_option autoImplicit false

namespace Gcgos.Fs

open Act Bio ByteMap

/-- Byte `x` of a file whose blocks are direct. -/
def fileByte (disk : Nat → Block) (ip : Inode) (x : Nat) : UInt8 :=
  (disk (ip.addrs (addrSlot (x / 512))).toNat).byte (x % 512)

/-- The stores of `readi`, carried out in order. -/
def applyStores (mem : Nat → UInt8) (dst : Nat) : List (Nat × UInt8) → Nat → UInt8
  | [] => mem
  | (distance, byte) :: rest => applyStores (Function.update mem (dst + distance) byte) dst rest

/-- `readi` returns the number of bytes that the file has, and these are the
bytes from `dst` on, whatever the memory was; nothing else has changed. -/
def Delivers (s : State) (i : Fin NINODE) (off n dst : Nat) : Prop :=
  Yields (readi i off n) s fun result _ =>
    result.1 = available (s.inode i).size.toNat off n ∧
    ∀ mem, applyStores mem dst result.2 = putBytes mem dst
      ((List.range (available (s.inode i).size.toNat off n)).map fun k =>
        fileByte s.disk (s.inode i) (off + k))

theorem applyStores_run (f : Nat → UInt8) (count : Nat) (mem : Nat → UInt8) (dst k : Nat) :
    applyStores mem dst ((List.range' k count).map fun j => (j, f j)) =
      putBytes mem (dst + k) ((List.range' k count).map f) := by
  induction count generalizing mem k with
  | zero =>
      funext a
      rw [putBytes_outside (by simp; omega)]
      rfl
  | succ count ih =>
      rw [List.range'_succ, List.map_cons, List.map_cons]
      unfold applyStores
      rw [ih]
      funext a
      by_cases here : a = dst + k
      · subst here
        rw [putBytes_outside (by omega), Function.update_self,
          putBytes_inside (by omega) (by simp)]
        simp
      · by_cases inside : dst + k < a ∧ a < dst + k + 1 + count
        · rw [putBytes_inside (by omega) (by simp; omega),
            putBytes_inside (by omega) (by simp; omega),
            show a - (dst + k) = a - (dst + (k + 1)) + 1 by omega, List.getD_cons_succ]
        · rw [putBytes_outside (by simp; omega), putBytes_outside (by simp; omega),
            Function.update_of_ne here]

/-- A place that no store names keeps its byte. -/
theorem applyStores_outside (stores : List (Nat × UInt8)) (mem : Nat → UInt8) {dst a : Nat}
    (missed : ∀ store ∈ stores, a ≠ dst + store.1) : applyStores mem dst stores a = mem a := by
  induction stores generalizing mem with
  | nil => rfl
  | cons store rest ih =>
      obtain ⟨distance, byte⟩ := store
      unfold applyStores
      rw [ih _ fun later member => missed later (List.mem_cons_of_mem _ member),
        Function.update_of_ne (missed (distance, byte) List.mem_cons_self)]

/-- One turn that reads all there is. -/
theorem readiLoop_delivers (ip : Inode) (fuel off n : Nat) {b : Bio} (ready : b.Ready 1)
    (direct : ip.size.toNat ≤ NDIRECT * BSIZE) (enough : n ≤ fuel)
    (inside : off % 512 + available ip.size.toNat off n ≤ 512) :
    Yields (readiLoop ip fuel off n 0) b fun result t => Settled b t b.sd.block ∧
      result = (n - available ip.size.toNat off n,
        (List.range (available ip.size.toNat off n)).map fun k =>
          (k, fileByte b.sd.block ip (off + k))) := by
  by_cases more : 0 < available ip.size.toNat off n
  · have some : 0 < n ∧ off < ip.size.toNat := by
      unfold available at more
      omega
    obtain ⟨fuel, rfl⟩ : ∃ less, fuel = less + 1 := ⟨fuel - 1, by omega⟩
    have low : off / 512 < NDIRECT := by
      simp only [NDIRECT, BSIZE] at direct ⊢
      omega
    rw [readiLoop, if_pos some]
    refine Yields.step (bmap_direct ip low b) ?_
    refine Yields.seq (bread_yields ip.dev _ ready) ?_
    intro bp c held
    refine Yields.seq (bufData_yields held) ?_
    rintro data c ⟨rfl, rfl⟩
    refine Yields.seq held.release ?_
    intro _ d settled
    have whole : min (min n (ip.size.toNat - off)) (512 - off % 512) =
        available ip.size.toNat off n := by
      unfold available at inside ⊢
      omega
    rw [whole]
    refine Yields.step (readiLoop_done ip fuel _ d (by unfold available; omega)) ?_
    refine ⟨_, d, rfl, settled, ?_⟩
    rw [List.append_nil]
    congr 1
    apply List.map_congr_left
    intro k bound
    have short := List.mem_range.mp bound
    unfold fileByte
    rw [Nat.zero_add, show (off + k) / 512 = off / 512 by omega,
      show (off + k) % 512 = off % 512 + k by omega]
  · have none : available ip.size.toNat off n = 0 := by omega
    refine ⟨_, b, readiLoop_done ip fuel 0 b none, Settled.refl b, ?_⟩
    rw [none]
    rfl

/-- A read within one block: its stores, and a file system that has not
changed. -/
theorem readi_yields {s : State} (i : Fin NINODE) {off n : Nat}
    (ready : s.bio.Ready 1) (file : (s.inode i).type ≠ T_DEV)
    (direct : (s.inode i).size.toNat ≤ NDIRECT * BSIZE)
    (inside : off % 512 + available (s.inode i).size.toNat off n ≤ 512) :
    Yields (readi i off n) s fun result t =>
      Settled s.bio t.bio s.disk ∧ t.inode = s.inode ∧
        result = ((available (s.inode i).size.toNat off n : Int),
          (List.range (available (s.inode i).size.toNat off n)).map fun k =>
            (k, fileByte s.disk (s.inode i) (off + k))) := by
  unfold readi
  refine Yields.step (a := s.inode i) (t := s) rfl ?_
  rw [if_neg file]
  refine Yields.seq (m := fun result t => Settled s.bio t.bio s.disk ∧ t.inode = s.inode ∧
    result = (n - available (s.inode i).size.toNat off n,
      (List.range (available (s.inode i).size.toNat off n)).map fun k =>
        (k, fileByte s.disk (s.inode i) (off + k)))) ?_ ?_
  · apply Yields.zoom
    refine (readiLoop_delivers _ n off n ready direct le_rfl inside).mono ?_
    rintro result b ⟨settled, rfl⟩
    exact ⟨settled, rfl, rfl⟩
  · rintro result t ⟨settled, inode, rfl⟩
    refine ⟨_, t, rfl, settled, inode, ?_⟩
    have within : available (s.inode i).size.toNat off n ≤ n := Nat.min_le_left _ _
    have small : available (s.inode i).size.toNat off n < 2 ^ 31 := by omega
    rw [Nat.sub_sub_self within, asInt, if_pos small]

theorem readi_delivers {s : State} (i : Fin NINODE) {off n : Nat} (dst : Nat)
    (ready : s.bio.Ready 1) (file : (s.inode i).type ≠ T_DEV)
    (direct : (s.inode i).size.toNat ≤ NDIRECT * BSIZE)
    (inside : off % 512 + available (s.inode i).size.toNat off n ≤ 512) :
    Delivers s i off n dst := by
  refine (readi_yields i ready file direct inside).mono ?_
  rintro result t ⟨_, _, rfl⟩
  refine ⟨rfl, fun mem => ?_⟩
  have stores := applyStores_run (fun k => fileByte s.disk (s.inode i) (off + k))
    (available (s.inode i).size.toNat off n) mem dst 0
  rw [Nat.add_zero, ← List.range_eq_range'] at stores
  exact stores

/-- The byte behind the first piece is not delivered. -/
theorem readi_misses {s : State} (i : Fin NINODE) {off n : Nat} (dst : Nat)
    (file : (s.inode i).type ≠ T_DEV)
    (across : 512 < off % 512 + available (s.inode i).size.toNat off n) :
    ¬Delivers s i off n dst := by
  rintro ⟨result, t, returned, _, stored⟩
  have block : ¬OneBlock (s.inode i) off n := by
    rintro (device | inside)
    · exact file device
    · omega
  obtain ⟨_, _, gap⟩ := readi_gap i block result t returned
  have missed : ∀ store ∈ result.2, dst + (512 - off % 512) ≠ dst + store.1 := by
    intro store member same
    exact gap store member (by omega)
  have kept : ∀ mem : Nat → UInt8, mem (dst + (512 - off % 512)) =
      fileByte s.disk (s.inode i) (off + (512 - off % 512)) := by
    intro mem
    rw [← applyStores_outside result.2 mem missed, stored mem,
      putBytes_inside (by omega) (by simp; omega), Nat.add_sub_cancel_left]
    simp only [List.getD_eq_getElem?_getD, List.getElem?_map]
    rw [List.getElem?_range (by omega)]
    rfl
  have zero := kept fun _ => 0
  have one := kept fun _ => 1
  rw [← zero] at one
  exact absurd one (by decide)

/-- A read delivers the bytes of the file exactly when it stays within one
block of it. -/
theorem readi_contiguous_iff {s : State} (i : Fin NINODE) (off n dst : Nat)
    (ready : s.bio.Ready 1) (file : (s.inode i).type ≠ T_DEV)
    (direct : (s.inode i).size.toNat ≤ NDIRECT * BSIZE) :
    Delivers s i off n dst ↔
      off % 512 + min n ((s.inode i).size.toNat - off) ≤ 512 := by
  constructor
  · intro delivers
    by_contra across
    exact readi_misses i dst file (Nat.not_le.mp across) delivers
  · intro inside
    exact readi_delivers i dst ready file direct inside

/-- A file of two blocks in slot 0. -/
def twoBlocks : State :=
  (State.loaded fun _ => Block.zero).setInode ⟨0, NINODE_pos⟩
    { Inode.zero with
      dev := 1, inum := 1, count := 1, type := T_FILE, size := 1024
      addrs := fun k => if k.val = 0 then 5 else if k.val = 1 then 6 else 0 }

theorem twoBlocks_ready : twoBlocks.bio.Ready 1 := ⟨rfl, by decide +kernel⟩

theorem readi_contiguous_one_block : Delivers twoBlocks 0 100 412 0 :=
  (readi_contiguous_iff 0 100 412 0 twoBlocks_ready (by decide +kernel)
    (by decide +kernel)).mpr (by decide +kernel)

/-- A read of 513 bytes: the last one goes to distance 1024. -/
theorem readi_over_two_blocks_gap : ¬Delivers twoBlocks 0 0 513 0 :=
  readi_misses 0 0 (by decide +kernel) (by decide +kernel)

end Gcgos.Fs
