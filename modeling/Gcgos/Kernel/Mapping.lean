import Gcgos.Kernel.AddressSpace
import Mathlib.Data.Finset.Card
import Mathlib.Data.Finset.Union

/-!
# Mapping a range

`mappages` makes the tables that a range needs and fills in one entry for each
page. How many pages it takes is the number of tables of the range that are not
there yet; with that many free pages it maps the whole range, and every other
address stays translated as it was.
-/

set_option autoImplicit false

namespace Gcgos.Kernel

open Act ByteMap Radix

/-! ## The tables that are missing -/

/-- The tables below the root that the walk for an address goes through. -/
def tablePaths (va : Nat) : Finset (List (Fin 512)) := {[px 2 va], leafPath va}

/-- Those of `count` pages from `va` on. -/
def rangePaths (va : Nat) : (count : Nat) → Finset (List (Fin 512))
  | 0 => ∅
  | count + 1 => tablePaths va ∪ rangePaths (va + PGSIZE) count

/-- The tables on these paths that are not there. -/
def missing (mem : Nat → UInt8) (root : Nat) (paths : Finset (List (Fin 512))) :
    Finset (List (Fin 512)) :=
  paths.filter fun q => descend (child mem) root q = none

theorem tablePaths_short {va : Nat} {q : List (Fin 512)} (member : q ∈ tablePaths va) :
    q.length ≤ 2 := by
  simp only [tablePaths, Finset.mem_insert, Finset.mem_singleton] at member
  rcases member with rfl | rfl
  · simp
  · exact (leafPath_length va).le

theorem rangePaths_short (count : Nat) {va : Nat} {q : List (Fin 512)}
    (member : q ∈ rangePaths va count) : q.length ≤ 2 := by
  induction count generalizing va with
  | zero => simp [rangePaths] at member
  | succ count ih =>
      rcases Finset.mem_union.mp member with first | rest
      · exact tablePaths_short first
      · exact ih rest

/-- From `m` to `u` the tables on these paths were made and no others: what it
has cost, or that memory was out. -/
def MadeTables (link : Link) (m u : Mm) (root : Nat) (free : List Nat)
    (paths : Finset (List (Fin 512))) (done : Bool) : Prop :=
  if done then
    (∃ rest, FreeList link u rest ∧ free.length = rest.length + (missing m.mem root paths).card) ∧
      ∀ q : List (Fin 512), q.length ≤ 2 → (descend (child u.mem) root q = none ↔
        descend (child m.mem) root q = none ∧ q ∉ paths)
  else free.length < (missing m.mem root paths).card

section

variable {link : Link} {m u v : Mm} {root : Nat} {free mid : List Nat}
  {first second : Finset (List (Fin 512))}

theorem missing_union (first second : Finset (List (Fin 512))) :
    (missing m.mem root (first ∪ second)).card =
      (missing m.mem root first).card +
        (second.filter fun q => descend (child m.mem) root q = none ∧ q ∉ first).card := by
  unfold missing
  rw [← Finset.card_union_of_disjoint]
  · congr 1
    ext q
    simp only [Finset.mem_filter, Finset.mem_union]
    tauto
  · rw [Finset.disjoint_left]
    intro q here there
    simp only [Finset.mem_filter] at here there
    exact there.2.2 here.1

/-- Two lots of tables, one after the other. -/
theorem MadeTables.trans {done : Bool} (short : ∀ q ∈ second, q.length ≤ 2)
    (list : FreeList link u mid) (left : MadeTables link m u root free first true)
    (right : MadeTables link u v root mid second done) :
    MadeTables link m v root free (first ∪ second) done := by
  obtain ⟨⟨rest, listed, cost⟩, made⟩ := left
  have lengths : rest.length = mid.length := by
    rw [list.chain.unique listed.chain]
  have same : missing u.mem root second =
      second.filter fun q => descend (child m.mem) root q = none ∧ q ∉ first := by
    unfold missing
    apply Finset.filter_congr
    intro q member
    exact made q (short q member)
  have total : (missing m.mem root (first ∪ second)).card = _ := missing_union first second
  rw [← same] at total
  cases done with
  | false =>
      have out : mid.length < (missing u.mem root second).card := right
      show free.length < _
      omega
  | true =>
      obtain ⟨⟨last, listed', cost'⟩, made'⟩ := right
      refine ⟨⟨last, listed', by omega⟩, ?_⟩
      intro q bound
      rw [made' q bound, made q bound, Finset.mem_union]
      tauto

theorem missing_singleton (q : List (Fin 512)) : (missing m.mem root {q}).card =
    if descend (child m.mem) root q = none then 1 else 0 := by
  unfold missing
  rw [Finset.filter_singleton]
  split
  · rfl
  · rfl

/-- One level of `walk` makes at most the table it returns. -/
theorem walkLevel_makes {p : List (Fin 512)} {t : Nat} (space : Space link m root free)
    (short : p.length < 2) (there : descend (child m.mem) root p = some t) (va level : Nat) :
    Ensures (walkLevel link t va level true) m fun r v =>
      MadeTables link m v root free {px level va :: p} r.isSome := by
  have page := space.page t ⟨p, by omega, there⟩
  have inside : InRam link (t + 8 * PX level va) 8 := by
    apply page.inRam
    have bound := PX_lt level va
    simp only [PGSIZE]
    omega
  unfold walkLevel
  refine Ensures.step (load64_run inside m) ?_
  by_cases valid : word m.mem (t + 8 * PX level va) % 4 = 3
  · have next : descend (child m.mem) root (px level va :: p) ≠ none := by
      have entry : child m.mem t (px level va) = some (PTE2PA (word m.mem (t + 8 * PX level va))) :=
        if_pos valid
      rw [descend_cons _ there, entry]
      exact Option.some_ne_none _
    rw [if_pos ((table_bits _).mpr valid)]
    apply Ensures.pure
    refine ⟨⟨free, space.list, ?_⟩, ?_⟩
    · rw [missing_singleton, if_neg next, Nat.add_zero]
    · intro q _
      rw [Finset.mem_singleton]
      constructor
      · intro gone
        refine ⟨gone, ?_⟩
        intro same
        rw [same] at gone
        exact next gone
      · exact fun both => both.1
  · have unused : child m.mem t (px level va) = none := by
      unfold child
      exact if_neg valid
    have absent : descend (child m.mem) root (px level va :: p) = none := by
      rw [descend_cons _ there]
      exact unused
    have one : (missing m.mem root {px level va :: p}).card = 1 := by
      rw [missing_singleton, if_pos absent]
    rw [if_neg (fun both => valid ((table_bits _).mp both)), if_neg (by decide)]
    refine Ensures.seq (kalloc_yields space.list).ensures ?_
    intro r u taken
    obtain ⟨mem, ⟨empty, zero, -⟩ | ⟨rest, pages, list⟩⟩ := taken
    · rw [if_pos zero]
      apply Ensures.pure
      show free.length < _
      rw [one, empty]
      exact Nat.one_pos
    · subst pages
      have nonzero := (space.list.page r List.mem_cons_self).pos
      have aligned := (space.list.page r List.mem_cons_self).aligned
      rw [if_neg nonzero, table_entry aligned]
      refine Ensures.step (store64_run inside _ u) ?_
      apply Ensures.pure
      have grown := space.grown short there unused
      refine ⟨⟨rest, (space.grew list mem short there unused).space.list, ?_⟩, ?_⟩
      · rw [one, List.length_cons]
      · intro q bound
        have both := descend_grown space.apart grown short there q bound
        change descend (child (putBytes u.mem (t + 8 * px level va) (leBytes 8 (r + 3)))) root q =
          none ↔ _
        rw [mem, Finset.mem_singleton]
        by_cases same : q = px level va :: p
        · rw [both.1 same]
          simp [same]
        · rw [both.2 same]
          simp [same]

/-- `walk` makes the tables on the way to the last-level entry. -/
theorem walk_makes {va : Nat} (space : Space link m root free) (low : va < MAXVA) :
    Ensures (walk link root va true) m fun r v =>
      MadeTables link m v root free (tablePaths va) r.isSome := by
  have top : descend (child m.mem) root [] = some root := descend_nil
  have paths : tablePaths va = {[px 2 va]} ∪ {leafPath va} := rfl
  unfold walk
  refine Ensures.step (Act.stopIf_of_not _ m (by omega)) ?_
  refine Ensures.seq (fun r u run => And.intro
    (walkLevel_makes space (by decide) top va 2 r u run)
    ((walkLevel_yields space (by decide) top va 2).ensures r u run)) ?_
  rintro r u ⟨made, rest, grew, -, -, ⟨none, -⟩ | ⟨next, found, there⟩⟩
  · subst none
    apply Ensures.pure
    have out : free.length < (missing m.mem root {[px 2 va]}).card := made
    have total : (missing m.mem root ({[px 2 va]} ∪ {leafPath va})).card = _ :=
      missing_union {[px 2 va]} {leafPath va}
    show free.length < _
    rw [paths, total]
    omega
  · subst found
    refine Ensures.seq (walkLevel_makes grew.space (by rw [List.length_singleton]; decide) there va 1) ?_
    intro r v made'
    have both := made.trans (fun q member => by
      rw [Finset.mem_singleton.mp member]
      exact (leafPath_length va).le) grew.space.list made'
    cases r with
    | none => exact Ensures.pure both
    | some leaf => exact Ensures.pure both

/-- So does a turn of `mappages`; the entry itself costs nothing. -/
theorem mapPage_makes {va : Nat} (space : Space link m root free) (low : va < MAXVA)
    (pa perm : Nat) :
    Ensures (mapPage link root va pa perm) m fun mapped v =>
      MadeTables link m v root free (tablePaths va) mapped := by
  unfold mapPage
  refine Ensures.seq (fun r u run => And.intro (walk_makes space low r u run)
    ((walk_yields space low).ensures r u run)) ?_
  rintro r u ⟨made, rest, grew, -, -, ⟨none, -⟩ | ⟨leaf, found, there⟩⟩
  · subst none
    exact Ensures.pure made
  · subst found
    have inside := leaf_inRam grew.space there
    refine Ensures.step (load64_run inside u) ?_
    refine Ensures.guard fun _ => ?_
    refine Ensures.step (store64_run inside _ u) ?_
    apply Ensures.pure
    rw [store_pte]
    have stored := (grew.space.store_leaf there
      (Nat.mod_lt _ (by decide) : pteOf pa perm < 2 ^ 64)).1.space.list
    obtain ⟨⟨rest', listed, cost⟩, reached⟩ := made
    obtain rfl : rest' = rest := grew.space.list.chain.unique listed.chain
    refine ⟨⟨_, stored, cost⟩, ?_⟩
    intro q bound
    rw [descend_congr (grew.space.leaf_above there (pteOf pa perm)) q bound]
    exact reached q bound

theorem MadeTables.nothing (list : FreeList link m free) : MadeTables link m m root free ∅ true := by
  refine ⟨⟨free, list, ?_⟩, fun q _ => ?_⟩
  · unfold missing
    rw [Finset.filter_empty, Finset.card_empty, Nat.add_zero]
  · exact (and_iff_left (Finset.notMem_empty q)).symm

/-- The loop makes the tables of its pages. -/
theorem mappagesLoop_makes (count : Nat) {m : Mm} {free : List Nat} {va : Nat}
    (space : Space link m root free) (low : va + count * PGSIZE ≤ MAXVA) (pa perm : Nat) :
    Ensures (mappagesLoop link root perm count va pa) m fun result v =>
      MadeTables link m v root free (rangePaths va count) (decide (result ≠ -1)) := by
  induction count generalizing m free va pa with
  | zero => exact Ensures.pure (MadeTables.nothing space.list)
  | succ count ih =>
      have first : va < MAXVA := by
        simp only [PGSIZE] at low
        omega
      unfold mappagesLoop
      refine Ensures.seq (fun r u run => And.intro (mapPage_makes space first pa perm r u run)
        (mapPage_ensures space va pa perm r u run)) ?_
      rintro mapped u ⟨made, mid, grew, outcome⟩
      have total : (missing m.mem root (rangePaths va (count + 1))).card = _ :=
        missing_union (tablePaths va) (rangePaths (va + PGSIZE) count)
      cases mapped with
      | false =>
          apply Ensures.pure
          have out : free.length < (missing m.mem root (tablePaths va)).card := made
          show free.length < _
          omega
      | true =>
          refine (ih grew.space ?_ (pa + PGSIZE)).mono ?_
          · simp only [PGSIZE] at *
            omega
          · intro result v later
            exact made.trans (fun q => rangePaths_short count) grew.space.list later

/-- `mappages` takes a free page for every table that is missing, or memory was
out. -/
theorem mappages_makes {va size : Nat} (space : Space link m root free) (low : va + size ≤ MAXVA)
    (pa perm : Nat) :
    Ensures (mappages link root va pa size perm) m fun result v =>
      MadeTables link m v root free (rangePaths va (size / PGSIZE)) (decide (result ≠ -1)) := by
  unfold mappages
  refine Ensures.guard fun _ => ?_
  refine Ensures.guard fun _ => ?_
  refine Ensures.guard fun _ => ?_
  have inside : va + size / PGSIZE * PGSIZE ≤ MAXVA := by
    have := Nat.div_mul_le_self size PGSIZE
    omega
  exact mappagesLoop_makes _ space inside pa perm

/-- While pages are left, all of its tables are there. -/
theorem mappages_made {va size : Nat} (space : Space link m root free) (low : va + size ≤ MAXVA)
    (pa perm : Nat) :
    Ensures (mappages link root va pa size perm) m fun _ v => v.freelist ≠ 0 →
      MadeTables link m v root free (rangePaths va (size / PGSIZE)) true := by
  intro result v run more
  have made := mappages_makes space low pa perm result v run
  obtain ⟨rest, grew, ⟨-, rfl⟩ | ⟨rfl, -⟩⟩ := mappages_ensures space va pa size perm result v run
  · exact absurd (grew.space.list.chain.head_eq_zero.mpr rfl) more
  · exact made

/-! ## The order in which pages are taken -/

/-- The first free page was filled beside the tables, and then the tables for an
address were made. -/
def TablesBehind (link : Link) (m v : Mm) (root va pg : Nat) (free rest : List Nat) : Prop :=
  ∃ w tail, free = pg :: tail ∧ rest <:+ tail ∧
    (∀ q : List (Fin 512), q.length ≤ 2 →
      descend (child w.mem) root q = descend (child m.mem) root q) ∧
    MadeTables link w v root tail (tablePaths va) true

theorem rangePaths_one (va : Nat) : rangePaths va (PGSIZE / PGSIZE) = tablePaths va :=
  Finset.union_empty _

/-- What maps the page makes the tables. -/
theorem Space.behind {m u w : Mm} {root va pg : Nat} {tail : List Nat}
    (space : Space link m root (pg :: tail)) (list : FreeList link u tail) (same : u.mem = m.mem)
    (head : w.freelist = u.freelist)
    (others : ∀ q, IsPage link q → q ≠ pg → SameOn m.mem w.mem q) (low : va + PGSIZE ≤ MAXVA)
    (pa perm : Nat) :
    Ensures (mappages link root va pa PGSIZE perm) w fun _ x => x.freelist ≠ 0 →
      ∃ rest, Space link x root rest ∧ TablesBehind link m x root va pg (pg :: tail) rest := by
  obtain ⟨filled, -, -⟩ := space.fill list same head others
  intro result x run more
  obtain ⟨rest, grew, -⟩ := mappages_ensures filled.space _ _ _ _ _ _ run
  have made := mappages_made filled.space low pa perm result x run more
  rw [rangePaths_one] at made
  exact ⟨rest, grew.space, w, tail, rfl, grew.taken, tables_congr (space.tables_same others), made⟩

/-- These tables of a root are there. The pages of `free` that were taken are
these tables and `held` others, and `rest` are left. -/
structure Placed (mem : Nat → UInt8) (root : Nat) (paths : Finset (List (Fin 512))) (held : Nat)
    (free rest : List Nat) : Prop where
  taken : rest <:+ free
  count : free.length = rest.length + (held + paths.card)
  tables : ∀ q : List (Fin 512), q.length ≤ 2 → (descend (child mem) root q = none ↔ q ∉ paths)

section

variable {root held : Nat} {paths new : Finset (List (Fin 512))} {mem mem' : Nat → UInt8}
  {free mid rest : List Nat}

/-- A clean page has one table, itself. -/
theorem Placed.fresh {pg : Nat} (clean : Clean mem pg) (rest : List Nat) :
    Placed mem pg {[]} 0 (pg :: rest) rest := by
  refine ⟨List.suffix_cons _ _, by rw [List.length_cons, Finset.card_singleton], fun q _ => ?_⟩
  rw [Finset.mem_singleton]
  by_cases empty : q = []
  · rw [empty, descend_nil]
    simp
  · rw [descend_clean clean q empty]
    simp [empty]

/-- The page that is taken next. -/
theorem Placed.next {pg : Nat} (placed : Placed mem root paths held free (pg :: rest)) :
    free.getD (held + paths.card) 0 = pg := by
  obtain ⟨front, rfl⟩ := placed.taken
  have count := placed.count
  rw [List.length_append] at count
  rw [List.getD_append_right _ _ _ _ (by omega), show held + paths.card - front.length = 0 by omega,
    List.getD_cons_zero]

/-- It is taken for something else than a table. -/
theorem Placed.hold {pg : Nat} (placed : Placed mem root paths held free (pg :: rest))
    (same : ∀ q : List (Fin 512), q.length ≤ 2 →
      descend (child mem') root q = descend (child mem) root q) :
    Placed mem' root paths (held + 1) free rest := by
  have count := placed.count
  rw [List.length_cons] at count
  refine ⟨(List.suffix_cons _ _).trans placed.taken, by omega, fun q short => ?_⟩
  rw [same q short]
  exact placed.tables q short

/-- Tables are made. -/
theorem Placed.made {m v : Mm} (placed : Placed m.mem root paths held free mid)
    (short : ∀ q ∈ new, q.length ≤ 2) (taken : rest <:+ mid) (space : Space link v root rest)
    (made : MadeTables link m v root mid new true) :
    Placed v.mem root (paths ∪ new) held free rest := by
  obtain ⟨⟨rest', list, cost⟩, reached⟩ := made
  obtain rfl : rest' = rest := space.list.toListed.unique list.toListed
  have fresh : missing m.mem root new = new \ paths := by
    rw [missing, Finset.sdiff_eq_filter]
    exact Finset.filter_congr fun q member => placed.tables q (short q member)
  have total : (new \ paths).card + paths.card = (new ∪ paths).card :=
    Finset.card_sdiff_add_card new paths
  have count := placed.count
  rw [fresh] at cost
  refine ⟨taken.trans placed.taken, by rw [Finset.union_comm]; omega, fun q bound => ?_⟩
  rw [reached q bound, placed.tables q bound, Finset.mem_union, not_or]

/-- A page is taken, and the tables for its address are made. -/
theorem Placed.behind {m v : Mm} {va pg : Nat} (placed : Placed m.mem root paths held free mid)
    (space : Space link v root rest) (behind : TablesBehind link m v root va pg mid rest) :
    free.getD (held + paths.card) 0 = pg ∧
      Placed v.mem root (paths ∪ tablePaths va) (held + 1) free rest := by
  obtain ⟨w, tail, rfl, taken, same, made⟩ := behind
  exact ⟨placed.next, (placed.hold same).made (fun q => tablePaths_short) taken space made⟩

end

/-! ## What `walk` finds -/

/-- The valid entry that `walk` without `alloc` leads to. -/
def lookup (link : Link) (pagetable va : Nat) : Act Fault Mm (Option Nat) := do
  let pte ← walk link pagetable va false
  match pte with
  | none => pure none
  | some pte => do
      let entry ← load64 link pte
      pure (if entry &&& PTE_V = 0 then none else some entry)

theorem lookup_run {va : Nat} (space : Space link m root free) (low : va < MAXVA) :
    lookup link root va m = .ok (translate m.mem root va, m) := by
  unfold lookup
  rw [Act.bind_of_ok (walk_run space.page low)]
  unfold translate
  cases there : descend (child m.mem) root (leafPath va) with
  | none => rfl
  | some leaf =>
      simp only [Option.map_some]
      rw [Act.bind_of_ok (load64_run (leaf_inRam space there) m)]
      have bits := valid_bits (word m.mem (leaf + 8 * px 0 va))
      by_cases zero : word m.mem (leaf + 8 * px 0 va) % 4 = 0
      · rw [if_pos (by_contra fun used => bits.mp used zero)]
        simp [zero]
      · rw [if_neg (bits.mpr zero)]
        simp [zero]

theorem offset_bits {pa : Nat} (aligned : pa % 2 ^ 12 = 0) {i : Nat} (low : i < 12) :
    pa.testBit i = false := by
  have bit := Nat.testBit_mod_two_pow pa 12 i
  rw [aligned] at bit
  simpa [low] using bit.symm

theorem middle_bits {perm : Nat} (bits : perm / 2 ^ 12 % 2 ^ 36 = 0) {i : Nat} (above : 12 ≤ i)
    (below : i < 48) : perm.testBit i = false := by
  have bit := Nat.testBit_mod_two_pow (perm / 2 ^ 12) 36 (i - 12)
  rw [bits, Nat.testBit_div_two_pow, Nat.sub_add_cancel above] at bit
  simpa [show i - 12 < 36 by omega] using bit.symm

theorem high_bits {n w i : Nat} (fits : n < 2 ^ w) (above : w ≤ i) : n.testBit i = false :=
  Nat.testBit_lt_two_pow (lt_of_lt_of_le fits (Nat.pow_le_pow_right (by decide) above))

/-- The bits of an entry that hold the address. -/
theorem address_mask (i : Nat) :
    Nat.testBit 0x0000FFFFFFFFF000 i = decide (12 ≤ i ∧ i < 48) := by
  have mask : (0x0000FFFFFFFFF000 : Nat) = (2 ^ 36 - 1) <<< 12 := by decide
  rw [mask, Nat.testBit_shiftLeft, Nat.testBit_two_pow_sub_one, Bool.eq_iff_iff]
  simp only [ge_iff_le, Bool.and_eq_true, decide_eq_true_eq]
  omega

theorem attribute_mask (i : Nat) :
    Nat.testBit 0xFFFF000000000FFF i = decide (i < 64 ∧ ¬(12 ≤ i ∧ i < 48)) := by
  have mask : (0xFFFF000000000FFF : Nat) = (2 ^ 16 - 1) <<< 48 ||| (2 ^ 12 - 1) := by decide
  rw [mask, Nat.testBit_or, Nat.testBit_shiftLeft, Nat.testBit_two_pow_sub_one,
    Nat.testBit_two_pow_sub_one, Bool.eq_iff_iff]
  simp only [ge_iff_le, Bool.and_eq_true, Bool.or_eq_true, decide_eq_true_eq]
  omega

theorem attribute_bits (i : Nat) :
    (Nat.testBit PTE_AF i || Nat.testBit PTE_V i) = decide (i = 10 ∨ i < 2) := by
  have flag : PTE_AF = 2 ^ 10 := by decide
  have valid : PTE_V = 2 ^ 2 - 1 := by decide
  rw [flag, valid, Nat.testBit_two_pow, Nat.testBit_two_pow_sub_one, Bool.eq_iff_iff]
  simp only [Bool.or_eq_true, decide_eq_true_eq]
  omega

theorem pteOf_bits {pa perm : Nat} (aligned : pa % PGSIZE = 0) (i : Nat) :
    (pteOf pa perm).testBit i =
      (decide (i < 64) && (pa.testBit i || perm.testBit i || decide (i = 10 ∨ i < 2))) := by
  have same : PA2PTE pa = pa := by
    unfold PA2PTE
    rw [Nat.shiftRight_eq_div_pow, Nat.shiftLeft_eq]
    simp only [PGSIZE] at aligned
    omega
  unfold pteOf
  rw [Nat.testBit_mod_two_pow, same, Nat.testBit_or, Nat.testBit_or, Nat.testBit_or,
    Bool.or_assoc, attribute_bits]

theorem no_attribute_bit {i : Nat} (above : 12 ≤ i) : decide (i = 10 ∨ i < 2) = false :=
  decide_eq_false (by omega)

/-- The entry of a page: its address and the other bits. -/
theorem pteOf_parts {pa perm : Nat} (aligned : pa % PGSIZE = 0) (physical : pa < 2 ^ 48)
    (fits : perm < 2 ^ 64) (bits : perm / 2 ^ 12 % 2 ^ 36 = 0) :
    PTE2PA (pteOf pa perm) = pa ∧
      pteOf pa perm &&& 0xFFFF000000000FFF = perm ||| PTE_AF ||| PTE_V := by
  constructor
  · apply Nat.eq_of_testBit_eq
    intro i
    unfold PTE2PA
    rw [Nat.testBit_and, pteOf_bits aligned, address_mask]
    rcases Nat.lt_or_ge i 12 with low | above
    · simp [offset_bits aligned low, show ¬12 ≤ i by omega]
    · rcases Nat.lt_or_ge i 48 with below | high
      · rw [no_attribute_bit above]
        simp [middle_bits bits above below, above, below, show i < 64 by omega]
      · simp [high_bits physical high, show ¬i < 48 by omega]
  · apply Nat.eq_of_testBit_eq
    intro i
    rw [Nat.testBit_and, pteOf_bits aligned, attribute_mask, Nat.testBit_or, Nat.testBit_or,
      Bool.or_assoc (perm.testBit i), attribute_bits]
    rcases Nat.lt_or_ge i 12 with low | above
    · simp [offset_bits aligned low, show i < 64 by omega, show ¬12 ≤ i by omega]
    · rcases Nat.lt_or_ge i 48 with below | high
      · rw [no_attribute_bit above]
        simp [middle_bits bits above below, above, below]
      · rcases Nat.lt_or_ge i 64 with inside | beyond
        · simp [high_bits physical high, inside, show ¬i < 48 by omega]
        · rw [no_attribute_bit above]
          simp [high_bits fits beyond, show ¬i < 64 by omega]

/-- A page of a range, counted from its start. -/
theorem page_of_range {va size a : Nat} (aligned : va % PGSIZE = 0) (whole : size % PGSIZE = 0) :
    (va / PGSIZE ≤ a / PGSIZE ∧ a / PGSIZE < va / PGSIZE + size / PGSIZE) ↔
      (va ≤ a ∧ a < va + size) := by
  simp only [PGSIZE] at *
  omega

/-- The rest of the range needs as many pages as there are free. -/
theorem mappages_succeeds {va size : Nat} (space : Space link m root free)
    (low : va + size ≤ MAXVA) (pa perm : Nat)
    (enough : (missing m.mem root (rangePaths va (size / PGSIZE))).card ≤ free.length) :
    Ensures (mappages link root va pa size perm) m fun result _ => result ≠ -1 := by
  refine (mappages_makes space low pa perm).mono ?_
  rintro result v made rfl
  have out : free.length < (missing m.mem root (rangePaths va (size / PGSIZE))).card := made
  omega

/-- `mappages` adds the translations of the range and no others. -/
theorem mappages_maps_range {va pa size perm : Nat} (space : Space link m root free)
    (aligned : va % PGSIZE = 0) (whole : size % PGSIZE = 0) (some_page : 0 < size)
    (low : va + size ≤ MAXVA)
    (unmapped : ∀ a, va ≤ a → a < va + size → lookup link root a m = .ok (none, m))
    (physical : pa % PGSIZE = 0) (reach : pa + size ≤ 2 ^ 48) (fits : perm < 2 ^ 64)
    (bits : perm / 2 ^ 12 % 2 ^ 36 = 0)
    (enough : (missing m.mem root (rangePaths va (size / PGSIZE))).card ≤ free.length) :
    Yields (mappages link root va pa size perm) m fun result v =>
      result = 0 ∧
      (∃ rest, rest <:+ free ∧ Space link v root rest ∧
        ∀ t, IsTable m.mem root t → IsTable v.mem root t) ∧
      ∀ a, a < MAXVA →
        if va ≤ a ∧ a < va + size then
          ∃ pte, lookup link root a v = .ok (some pte, v) ∧
            PTE2PA pte = pa + (a / PGSIZE * PGSIZE - va) ∧
            pte &&& 0xFFFF000000000FFF = perm ||| PTE_AF ||| PTE_V
        else
          ∃ found, lookup link root a m = .ok (found, m) ∧ lookup link root a v = .ok (found, v) := by
  have empty : ∀ k, k < size / PGSIZE → translate m.mem root (va + k * PGSIZE) = none := by
    intro k inside
    have within : va + k * PGSIZE < va + size := by
      simp only [PGSIZE] at *
      omega
    have there := unmapped (va + k * PGSIZE) (Nat.le_add_right _ _) within
    rw [lookup_run space (by omega)] at there
    simpa using there
  obtain ⟨result, v, run, rest, grew, ⟨failed, -⟩ | ⟨done, maps⟩⟩ :=
    mappages_yields space aligned whole some_page.ne' low empty pa perm
  · exact absurd failed (mappages_succeeds space low pa perm enough result v run)
  · refine ⟨result, v, run, done, ⟨rest, grew.taken, grew.space, grew.kept⟩, ?_⟩
    intro a below
    have after := lookup_run grew.space below
    rw [maps a below] at after
    simp only [page_of_range aligned whole] at after
    split
    · next inside =>
        rw [if_pos inside] at after
        have start : pa + (a / PGSIZE - va / PGSIZE) * PGSIZE =
            pa + (a / PGSIZE * PGSIZE - va) := by
          simp only [PGSIZE] at *
          omega
        have page : (pa + (a / PGSIZE - va / PGSIZE) * PGSIZE) % PGSIZE = 0 := by
          simp only [PGSIZE] at *
          omega
        have bound : pa + (a / PGSIZE - va / PGSIZE) * PGSIZE < 2 ^ 48 := by
          simp only [PGSIZE] at *
          omega
        obtain ⟨address, attributes⟩ := pteOf_parts page bound fits bits
        exact ⟨_, after, address.trans start, attributes⟩
    · next outside =>
        rw [if_neg outside] at after
        exact ⟨_, lookup_run space below, after⟩

/-- Two pages over an empty table, with five free pages for the tables. -/
theorem mappages_maps_two_pages : ∃ (m : Mm) (root : Nat) (free : List Nat),
    Space smallLink m root free ∧
    Yields (mappages smallLink root 0x3FF000 0x200000 0x2000 (PTE_NORMAL ||| PTE_AP_RW)) m
      fun result v => result = 0 ∧
        ∃ pte, lookup smallLink root 0x400123 v = .ok (some pte, v) ∧ PTE2PA pte = 0x201000 := by
  obtain ⟨root, m, -, same, ⟨none, -⟩ | ⟨rest, split, list⟩⟩ :=
    kalloc_yields (smallMm_freeList (by decide : 6 ≠ 0) (by decide))
  · exact absurd none (by decide)
  · have free := smallMm_freeList (by decide : 6 ≠ 0) (by decide)
    have five : rest.length = 5 := by
      have length := congrArg List.length split
      simpa [linkedPages] using length.symm
    rw [split] at free
    obtain ⟨space, empty⟩ := Space.fresh free list same
    refine ⟨m, root, rest, space, ?_⟩
    have few : (rangePaths 0x3FF000 2).card ≤ 4 := by decide +kernel
    have enough : (missing m.mem root (rangePaths 0x3FF000 2)).card ≤ rest.length := by
      have := Finset.card_filter_le (rangePaths 0x3FF000 2)
        fun q => descend (child m.mem) root q = none
      unfold missing
      omega
    have unmapped : ∀ a, 0x3FF000 ≤ a → a < 0x3FF000 + 0x2000 →
        lookup smallLink root a m = .ok (none, m) := by
      intro a _ below
      rw [lookup_run space (below.trans (by decide)), empty a]
    have maps : Yields
        (mappages smallLink root 0x3FF000 0x200000 0x2000 (PTE_NORMAL ||| PTE_AP_RW)) m _ :=
      mappages_maps_range space (by decide) (by decide) (by decide) (by decide) unmapped
        (by decide) (by decide) (by decide) (by decide) enough
    refine maps.mono ?_
    rintro result v ⟨done, -, range⟩
    have page := range 0x400123 (by decide)
    rw [if_pos (by decide)] at page
    obtain ⟨pte, found, address, -⟩ := page
    exact ⟨done, pte, found, address⟩

end

end Gcgos.Kernel
