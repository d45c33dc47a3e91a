import Gcgos.Kernel.Allocator
import Gcgos.Kernel.Mapping
import Gcgos.Lib.Simulation
import Mathlib.Tactic.Ring

/-!
# The kernel's own page table

`kvmmake` maps the devices, the kernel and all memory to themselves, the
trampoline to the top and the kernel stacks below it. What the table says of
every address is the list of these ranges; how many pages it takes is the
number of tables that the ranges need, and one for each stack. A stack that
gets no page is mapped to page zero.
-/

set_option autoImplicit false

namespace Gcgos.Kernel

open Act ByteMap Radix

/-- A range of pages, and where its first page is mapped to. -/
structure Region where
  va : Nat
  pa : Nat
  size : Nat
  perm : Nat
deriving DecidableEq

namespace Region

def Covers (r : Region) (a : Nat) : Prop := r.va ≤ a ∧ a < r.va + r.size

instance (r : Region) (a : Nat) : Decidable (r.Covers a) := inferInstanceAs (Decidable (_ ∧ _))

/-- The entry of an address in the range. -/
def pte (r : Region) (a : Nat) : Nat := pteOf (r.pa + (a / PGSIZE * PGSIZE - r.va)) r.perm

/-- Whole pages that a table can map. -/
structure Whole (r : Region) : Prop where
  aligned : r.va % PGSIZE = 0
  pages : r.size % PGSIZE = 0
  some : r.size ≠ 0
  low : r.va + r.size ≤ MAXVA

def Apart (r q : Region) : Prop := r.va + r.size ≤ q.va ∨ q.va + q.size ≤ r.va

/-- The tables on the ways to its pages. -/
def paths (r : Region) : Finset (List (Fin 512)) := rangePaths r.va (r.size / PGSIZE)

theorem Apart.symm {r q : Region} (apart : r.Apart q) : q.Apart r := Or.symm apart

theorem Apart.not_both {r q : Region} (apart : r.Apart q) {a : Nat} (here : r.Covers a) :
    ¬q.Covers a := by
  rintro ⟨lower, upper⟩
  obtain ⟨low, high⟩ := here
  unfold Apart at apart
  omega

end Region

/-- What these ranges say of an address. -/
def mapOf (regions : List Region) (a : Nat) : Option Nat :=
  (regions.find? fun r => decide (r.Covers a)).map fun r => r.pte a

theorem mapOf_append (regions : List Region) (r : Region) (a : Nat) :
    mapOf (regions ++ [r]) a =
      (mapOf regions a).or (if r.Covers a then some (r.pte a) else none) := by
  unfold mapOf
  rw [List.find?_append]
  cases regions.find? fun r => decide (r.Covers a) with
  | some q => rfl
  | none =>
      by_cases here : r.Covers a
      · simp [here]
      · simp [here]

theorem mapOf_none {regions : List Region} {a : Nat} (outside : ∀ q ∈ regions, ¬q.Covers a) :
    mapOf regions a = none := by
  unfold mapOf
  rw [List.find?_eq_none.mpr fun q member => by simpa using outside q member]
  rfl

theorem covers_of_find {regions : List Region} {r : Region} {a : Nat}
    (found : (regions.find? fun q => decide (q.Covers a)) = some r) : r.Covers a :=
  of_decide_eq_true (List.find?_some (p := fun q : Region => decide (q.Covers a)) found)

/-- The only range that covers an address says where it is mapped to. -/
theorem mapOf_only {regions : List Region} {r : Region} {a : Nat} (member : r ∈ regions)
    (here : r.Covers a) (only : ∀ q ∈ regions, q.Covers a → q = r) :
    mapOf regions a = some (r.pte a) := by
  unfold mapOf
  cases found : regions.find? fun q => decide (q.Covers a) with
  | none => exact absurd (decide_eq_true here) (List.find?_eq_none.mp found r member)
  | some q =>
      rw [only q (List.mem_of_find?_eq_some found) (covers_of_find found)]
      rfl

/-- Every entry is that of a range that covers the address. -/
theorem mapOf_some {regions : List Region} {a entry : Nat} (maps : mapOf regions a = some entry) :
    ∃ r ∈ regions, r.Covers a ∧ entry = r.pte a := by
  obtain ⟨r, found, rfl⟩ := Option.map_eq_some_iff.mp maps
  exact ⟨r, List.mem_of_find?_eq_some found, covers_of_find found, rfl⟩

/-! ## What a range costs -/

section

variable {link : Link} {m u : Mm} {root : Nat} {free : List Nat} {P : Finset (List (Fin 512))}

theorem rangePaths_nonempty (count : Nat) {va : Nat} {q : List (Fin 512)}
    (member : q ∈ rangePaths va count) : q ≠ [] := by
  induction count generalizing va with
  | zero => simp [rangePaths] at member
  | succ count ih =>
      rcases Finset.mem_union.mp member with first | rest
      · simp only [tablePaths, Finset.mem_insert, Finset.mem_singleton] at first
        rcases first with rfl | rfl
        · exact List.cons_ne_nil _ _
        · exact List.cons_ne_nil _ _
      · exact ih rest

/-- A range that was mapped has cost the tables that were missing. -/
theorem mappagesLoop_made (count : Nat) {m : Mm} {free : List Nat} {va : Nat}
    (space : Space link m root free) (low : va + count * PGSIZE ≤ MAXVA) (pa perm : Nat) :
    Ensures (mappagesLoop link root perm count va pa) m fun result v =>
      result = 0 → MadeTables link m v root free (rangePaths va count) true := by
  induction count generalizing m free va pa with
  | zero =>
      refine Ensures.pure fun _ => ⟨⟨free, space.list, ?_⟩, ?_⟩
      · simp [missing, rangePaths]
      · simp [rangePaths]
  | succ count ih =>
      have first : va < MAXVA := by
        simp only [PGSIZE] at low
        omega
      unfold mappagesLoop
      refine Ensures.seq (fun r u run => And.intro (mapPage_makes space first pa perm r u run)
        (mapPage_ensures space va pa perm r u run)) ?_
      rintro mapped u ⟨made, mid, grew, -⟩
      cases mapped with
      | false => exact Ensures.pure fun failed => absurd failed (by decide)
      | true =>
          refine (ih grew.space ?_ (pa + PGSIZE)).mono ?_
          · simp only [PGSIZE] at *
            omega
          · intro result v later done
            exact made.trans (fun q => rangePaths_short count) grew.space.list (later done)

/-- The table with this root maps these ranges and nothing else, through the
tables on these paths. -/
structure TableOf (link : Link) (m : Mm) (root : Nat) (free : List Nat) (regions : List Region)
    (P : Finset (List (Fin 512))) : Prop where
  space : Space link m root free
  maps : ∀ a, a < MAXVA → translate m.mem root a = mapOf regions a
  tables : ∀ q : List (Fin 512), q.length ≤ 2 →
    (descend (child m.mem) root q = none ↔ q ≠ [] ∧ q ∉ P)

theorem TableOf.missing_eq {regions : List Region} (mapped : TableOf link m root free regions P)
    (r : Region) : missing m.mem root r.paths = r.paths \ P := by
  ext q
  simp only [missing, Finset.mem_filter, Finset.mem_sdiff]
  constructor
  · rintro ⟨member, absent⟩
    exact ⟨member, ((mapped.tables q (rangePaths_short _ member)).mp absent).2⟩
  · rintro ⟨member, absent⟩
    exact ⟨member, (mapped.tables q (rangePaths_short _ member)).mpr
      ⟨rangePaths_nonempty _ member, absent⟩⟩

/-- From `m` to `v` a range has been mapped, at the cost of the tables that
were missing. -/
def Extended (link : Link) (m v : Mm) (root : Nat) (free : List Nat) (regions : List Region)
    (P : Finset (List (Fin 512))) (r : Region) : Prop :=
  ∃ rest, rest.length + (r.paths \ P).card = free.length ∧ Grew link m v root free rest ∧
    TableOf link v root rest (regions ++ [r]) (P ∪ r.paths)

/-- `mappages` that returns zero has mapped its range. -/
theorem TableOf.mappages_ensures {regions : List Region} {r : Region}
    (mapped : TableOf link m root free regions P) (whole : r.Whole)
    (apart : ∀ q ∈ regions, r.Apart q) :
    Ensures (mappages link root r.va r.pa r.size r.perm) m fun result v =>
      result = 0 → Extended link m v root free regions P r := by
  have inside : r.va + r.size / PGSIZE * PGSIZE ≤ MAXVA := by
    have exact_size := Nat.div_mul_le_self r.size PGSIZE
    have low := whole.low
    omega
  have made : Ensures (mappages link root r.va r.pa r.size r.perm) m fun result v =>
      result = 0 → MadeTables link m v root free r.paths true := by
    unfold mappages
    refine Ensures.guard fun _ => ?_
    refine Ensures.guard fun _ => ?_
    refine Ensures.guard fun _ => ?_
    exact mappagesLoop_made _ mapped.space inside r.pa r.perm
  intro result v run zero
  obtain ⟨rest, grew, outcome⟩ :=
    Kernel.mappages_ensures mapped.space r.va r.pa r.size r.perm result v run
  obtain ⟨failed, -⟩ | ⟨-, maps⟩ := outcome
  · rw [zero] at failed
    exact absurd failed (by decide)
  · obtain ⟨⟨rest', listed, cost⟩, reached⟩ := made result v run zero
    obtain rfl : rest' = rest := grew.space.list.chain.unique listed.chain
    rw [mapped.missing_eq] at cost
    refine ⟨rest', cost.symm, grew, grew.space, ?_, ?_⟩
    · intro a below
      have place := page_of_range (a := a) whole.aligned whole.pages
      rw [maps a below, mapOf_append, mapped.maps a below]
      by_cases here : r.Covers a
      · have none : mapOf regions a = none :=
          mapOf_none fun q member => (apart q member).not_both here
        have start : r.pa + (a / PGSIZE - r.va / PGSIZE) * PGSIZE =
            r.pa + (a / PGSIZE * PGSIZE - r.va) := by
          have aligned := whole.aligned
          simp only [PGSIZE] at *
          omega
        rw [if_pos (place.mpr here), if_pos here, none, start]
        rfl
      · rw [if_neg fun inRange => here (place.mp inRange), if_neg here, Option.or_none]
    · intro q short
      rw [reached q short, mapped.tables q short, Finset.mem_union]
      tauto

/-- With a page for each table that is missing, `mappages` returns zero. -/
theorem TableOf.mappages_yields {regions : List Region} {r : Region}
    (mapped : TableOf link m root free regions P) (whole : r.Whole)
    (apart : ∀ q ∈ regions, r.Apart q) (enough : (r.paths \ P).card ≤ free.length) :
    Yields (mappages link root r.va r.pa r.size r.perm) m fun result v =>
      result = 0 ∧ Extended link m v root free regions P r := by
  have unmapped : ∀ k, k < r.size / PGSIZE →
      translate m.mem root (r.va + k * PGSIZE) = none := by
    intro k bound
    have within : r.Covers (r.va + k * PGSIZE) := by
      have pages := whole.pages
      refine ⟨Nat.le_add_right _ _, ?_⟩
      simp only [PGSIZE] at *
      omega
    rw [mapped.maps _ (lt_of_lt_of_le within.2 whole.low)]
    exact mapOf_none fun q member => (apart q member).not_both within
  obtain ⟨result, v, run, _, -, outcome⟩ := Kernel.mappages_yields mapped.space whole.aligned
    whole.pages whole.some whole.low unmapped r.pa r.perm
  have found : result ≠ -1 := by
    refine mappages_succeeds mapped.space whole.low r.pa r.perm ?_ result v run
    change (missing m.mem root r.paths).card ≤ free.length
    rw [mapped.missing_eq]
    exact enough
  have zero : result = 0 := by
    rcases outcome with ⟨failed, -⟩ | ⟨done, -⟩
    · exact absurd failed found
    · exact done
  exact ⟨result, v, run, zero, mapped.mappages_ensures whole apart result v run zero⟩

/-- `kvmmap` that returns has mapped its range. -/
theorem TableOf.kvmmap_ensures {regions : List Region} {r : Region}
    (mapped : TableOf link m root free regions P) (whole : r.Whole)
    (apart : ∀ q ∈ regions, r.Apart q) :
    Ensures (kvmmap link root r.va r.pa r.size r.perm) m fun _ v =>
      Extended link m v root free regions P r := by
  unfold kvmmap
  refine Ensures.seq (mapped.mappages_ensures whole apart) ?_
  intro result v extended
  exact Ensures.stopIf fun done => extended (not_not.mp done)

/-- With a page for each table that is missing, `kvmmap` returns. -/
theorem TableOf.kvmmap_yields {regions : List Region} {r : Region}
    (mapped : TableOf link m root free regions P) (whole : r.Whole)
    (apart : ∀ q ∈ regions, r.Apart q) (enough : (r.paths \ P).card ≤ free.length) :
    Yields (kvmmap link root r.va r.pa r.size r.perm) m fun _ v =>
      Extended link m v root free regions P r := by
  unfold kvmmap
  refine Yields.seq (mapped.mappages_yields whole apart enough) ?_
  rintro result v ⟨zero, extended⟩
  exact ⟨(), v, Act.stopIf_of_not _ v (not_not.mpr zero), extended⟩

/-- Where no table was missing, none is new. -/
theorem Grew.same_tables {v : Mm} (grew : Grew link m v root free free) {t : Nat}
    (table : IsTable v.mem root t) : IsTable m.mem root t := by
  rcases grew.owned t table with before | fresh
  · exact before
  · exact absurd fresh (grew.space.held t table)

end

/-! ## Several ranges -/

/-- `kvmmap` on these ranges in order. -/
def mapRegions (link : Link) (root : Nat) : (regions : List Region) → Act Fault Mm Unit
  | [] => pure ()
  | r :: rest => do
      kvmmap link root r.va r.pa r.size r.perm
      mapRegions link root rest

/-- The tables on the ways to the pages of all the ranges. -/
def pathsOf (regions : List Region) : Finset (List (Fin 512)) :=
  regions.foldr (fun r Q => r.paths ∪ Q) ∅

/-- No two ranges meet. -/
def AllApart : (regions : List Region) → Prop
  | [] => True
  | r :: rest => (∀ q ∈ rest, r.Apart q) ∧ AllApart rest

section

variable {link : Link} {root : Nat}

theorem sdiff_card (A B P : Finset (List (Fin 512))) :
    ((A ∪ B) \ P).card = (A \ P).card + (B \ (P ∪ A)).card := by
  rw [← Finset.card_union_of_disjoint]
  · congr 1
    ext q
    simp only [Finset.mem_sdiff, Finset.mem_union]
    tauto
  · rw [Finset.disjoint_left]
    intro q left right
    simp only [Finset.mem_sdiff, Finset.mem_union] at left right
    tauto

/-- The first range of several is mapped, and the others are still apart. -/
theorem apart_next {r : Region} {more regions : List Region}
    (apart : ∀ x ∈ r :: more, ∀ q ∈ regions, x.Apart q) (others : AllApart (r :: more)) :
    ∀ x ∈ more, ∀ q ∈ regions ++ [r], x.Apart q := by
  intro x member q among
  rcases List.mem_append.mp among with before | last
  · exact apart x (List.mem_cons_of_mem _ member) q before
  · rw [List.mem_singleton.mp last]
    exact (others.1 x member).symm

/-- The ranges that are mapped have cost the tables that were missing. -/
theorem TableOf.mapRegions_ensures (more : List Region) {m : Mm} {free : List Nat}
    {P : Finset (List (Fin 512))} {regions : List Region}
    (mapped : TableOf link m root free regions P) (whole : ∀ r ∈ more, r.Whole)
    (apart : ∀ r ∈ more, ∀ q ∈ regions, r.Apart q) (others : AllApart more) :
    Ensures (mapRegions link root more) m fun _ v => ∃ rest,
      rest.length + (pathsOf more \ P).card = free.length ∧ rest <:+ free ∧
      TableOf link v root rest (regions ++ more) (P ∪ pathsOf more) := by
  induction more generalizing m free P regions with
  | nil =>
      refine Ensures.pure ⟨free, by simp [pathsOf], List.suffix_refl free, ?_⟩
      rw [List.append_nil, pathsOf, List.foldr_nil, Finset.union_empty]
      exact mapped
  | cons r more ih =>
      unfold mapRegions
      refine Ensures.seq (mapped.kvmmap_ensures (whole r List.mem_cons_self)
        (apart r List.mem_cons_self)) ?_
      rintro _ u ⟨mid, cost, grew, next⟩
      refine (ih next (fun x member => whole x (List.mem_cons_of_mem _ member))
        (apart_next apart others) others.2).mono ?_
      rintro _ v ⟨rest, cost', taken', last⟩
      have total : (pathsOf (r :: more) \ P).card = _ := sdiff_card r.paths (pathsOf more) P
      refine ⟨rest, by omega, taken'.trans grew.taken, ?_⟩
      rw [List.append_assoc] at last
      rw [show P ∪ pathsOf (r :: more) = P ∪ r.paths ∪ pathsOf more from
        (Finset.union_assoc P r.paths (pathsOf more)).symm]
      exact last

theorem TableOf.mapRegions_yields (more : List Region) {m : Mm} {free : List Nat}
    {P : Finset (List (Fin 512))} {regions : List Region}
    (mapped : TableOf link m root free regions P) (whole : ∀ r ∈ more, r.Whole)
    (apart : ∀ r ∈ more, ∀ q ∈ regions, r.Apart q) (others : AllApart more)
    (enough : (pathsOf more \ P).card ≤ free.length) :
    Yields (mapRegions link root more) m fun _ _ => True := by
  induction more generalizing m free P regions with
  | nil => exact ⟨(), m, rfl, trivial⟩
  | cons r more ih =>
      have total : (pathsOf (r :: more) \ P).card = _ := sdiff_card r.paths (pathsOf more) P
      unfold mapRegions
      refine Yields.seq (mapped.kvmmap_yields (whole r List.mem_cons_self)
        (apart r List.mem_cons_self) (by omega)) ?_
      rintro _ u ⟨mid, cost, -, next⟩
      exact ih next (fun x member => whole x (List.mem_cons_of_mem _ member))
        (apart_next apart others) others.2 (by omega)

/-- The free list has become shorter. -/
theorem TableOf.take {m u : Mm} {free rest : List Nat} {regions : List Region}
    {P : Finset (List (Fin 512))} (mapped : TableOf link m root free regions P)
    (list : FreeList link u rest) (fewer : rest ⊆ free) (same : u.mem = m.mem) :
    TableOf link u root rest regions P := by
  refine ⟨⟨list, ?_, ?_, ?_⟩, ?_, ?_⟩
  · rw [same]
    exact mapped.space.apart
  · rw [same]
    exact mapped.space.page
  · rw [same]
    exact fun t table member => mapped.space.held t table (fewer member)
  · rw [same]
    exact mapped.maps
  · rw [same]
    exact mapped.tables

end

/-! ## `kvmmake` -/

/-- The ranges of `kvmmake`. -/
def kernelRegions (link : Link) : List Region :=
  [⟨GICD_BASE, GICD_BASE, 4 * PGSIZE, PTE_DEVICE ||| PTE_XN ||| PTE_AP_RW_EL1⟩,
    ⟨PL011_BASE, PL011_BASE, PGSIZE, PTE_DEVICE ||| PTE_XN ||| PTE_AP_RW_EL1⟩,
    ⟨SDCARD, SDCARD, PGSIZE, PTE_DEVICE ||| PTE_XN ||| PTE_AP_RW_EL1⟩,
    ⟨KERNBASE, KERNBASE, link.etext - KERNBASE, PTE_NORMAL ||| PTE_AP_RO_EL1⟩,
    ⟨link.etext, link.etext, PHYSTOP - link.etext, PTE_NORMAL ||| PTE_XN⟩,
    ⟨TRAMPOLINE, link.trampoline, 2 * PGSIZE, PTE_NORMAL ||| PTE_AP_RO⟩]

/-- The stack of a slot in a page. -/
def stackRegion (p pa : Nat) : Region :=
  ⟨KSTACK p, pa, PGSIZE, PTE_NORMAL ||| PTE_AP_RW_EL1⟩

/-- The stacks of `count` slots from slot `i` on, in the pages `left`. Where
these have run out the page is zero. -/
def stackRegions (left : List Nat) (i count : Nat) : List Region :=
  (List.range' i count).map fun p => stackRegion p (left.getD (p - i) 0)

/-- All that the kernel maps, when these pages are left for the stacks. -/
def kernelMap (link : Link) (left : List Nat) : List Region :=
  kernelRegions link ++ stackRegions left 0 NPROC

-- The fields are variables, so that no size is compared as a number.
theorem mapRegions_bind (link : Link) (root va pa size perm : Nat) (rest : List Region)
    (next : Unit → Act Fault Mm Nat) :
    (mapRegions link root (⟨va, pa, size, perm⟩ :: rest) >>= next) =
      (kvmmap link root va pa size perm >>= fun _ => mapRegions link root rest >>= next) :=
  Act.bind_assoc _ _ _

theorem mapRegions_nil (link : Link) (root : Nat) (next : Unit → Act Fault Mm Nat) :
    (mapRegions link root [] >>= next) = next () := Act.pure_bind () next

theorem kvmmake_eq (link : Link) : kvmmake link = (do
    let kpgtbl ← kalloc link
    mapRegions link kpgtbl (kernelRegions link)
    procMapstacks link kpgtbl NPROC 0
    pure kpgtbl) := by
  rw [kvmmake, kernelRegions]
  congr 1
  funext kpgtbl
  simp only [mapRegions_bind, mapRegions_nil]

theorem stackRegions_cons (left : List Nat) (i count : Nat) :
    stackRegions left i (count + 1) =
      stackRegion i (left.getD 0 0) :: stackRegions left.tail (i + 1) count := by
  unfold stackRegions
  rw [List.range'_succ, List.map_cons, Nat.sub_self]
  congr 1
  refine List.map_congr_left fun p member => ?_
  have later := (List.mem_range'_1.mp member).1
  rw [List.getD_eq_getElem?_getD, List.getD_eq_getElem?_getD, List.getElem?_tail,
    show p - i = p - (i + 1) + 1 by omega]

theorem stackRegion_paths {p : Nat} (slot : p < NPROC) (pa : Nat) :
    (stackRegion p pa).paths = tablePaths TRAMPOLINE := by
  have all : ∀ p, p < NPROC → rangePaths (KSTACK p) 1 = tablePaths TRAMPOLINE := by
    decide +kernel
  have one : PGSIZE / PGSIZE = 1 := rfl
  unfold Region.paths stackRegion
  rw [one]
  exact all p slot

theorem stackRegion_whole (p pa : Nat) : (stackRegion p pa).Whole := by
  have top : KSTACK p = 274877898752 - (p + 1) * 2 * 4096 := rfl
  constructor
  all_goals simp only [stackRegion, top, PGSIZE, MAXVA]
  all_goals omega

section

variable {link : Link} {root : Nat}

/-- Each slot has its stack in the next free page, or on page zero. -/
theorem TableOf.procMapstacks_yields (count : Nat) {m : Mm} {left : List Nat} {i : Nat}
    {P : Finset (List (Fin 512))} {regions : List Region}
    (mapped : TableOf link m root left regions P) (slots : i + count ≤ NPROC)
    (made : tablePaths TRAMPOLINE ⊆ P)
    (apart : ∀ p, i ≤ p → p < i + count → ∀ q ∈ regions, ∀ pa, (stackRegion p pa).Apart q) :
    Yields (procMapstacks link root count i) m fun _ v =>
      TableOf link v root (left.drop count) (regions ++ stackRegions left i count) P ∧
        ∀ t, IsTable v.mem root t → IsTable m.mem root t := by
  induction count generalizing m left i regions with
  | zero =>
      refine ⟨(), m, rfl, ?_, fun _ table => table⟩
      rw [stackRegions, List.range'_zero, List.map_nil, List.append_nil, List.drop_zero]
      exact mapped
  | succ count ih =>
      have taken : Yields (kalloc link) m fun pa u => pa = left.getD 0 0 ∧ u.mem = m.mem ∧
          TableOf link u root left.tail regions P := by
        refine (kalloc_yields mapped.space.list).mono ?_
        rintro r u ⟨same, ⟨rfl, rfl, list⟩ | ⟨rest, rfl, list⟩⟩
        · exact ⟨rfl, same, mapped.take list (List.Subset.refl []) same⟩
        · exact ⟨rfl, same, mapped.take list (List.subset_cons_self r rest) same⟩
      unfold procMapstacks
      refine Yields.seq taken ?_
      rintro _ u ⟨rfl, same, next⟩
      have none : ((stackRegion i (left.getD 0 0)).paths \ P).card = 0 := by
        rw [stackRegion_paths (by omega), Finset.sdiff_eq_empty_iff_subset.mpr made,
          Finset.card_empty]
      refine Yields.seq (next.kvmmap_yields (r := stackRegion i (left.getD 0 0))
        (stackRegion_whole i _)
        (fun q member => apart i le_rfl (by omega) q member _) (by omega)) ?_
      rintro _ v ⟨rest, cost, grew, last⟩
      obtain rfl : rest = left.tail := grew.taken.eq_of_length (by omega)
      rw [stackRegion_paths (by omega), Finset.union_eq_left.mpr made] at last
      refine (ih last (by omega) ?_).mono ?_
      · intro p lower upper q member pa
        rcases List.mem_append.mp member with before | here
        · exact apart p (by omega) (by omega) q before pa
        · rw [List.mem_singleton.mp here]
          have place : ∀ p, KSTACK p = 274877898752 - (p + 1) * 2 * 4096 := fun _ => rfl
          simp only [Region.Apart, stackRegion, place, PGSIZE, NPROC] at *
          omega
      · rintro _ w ⟨done, tables⟩
        rw [List.append_assoc, List.singleton_append, ← stackRegions_cons] at done
        rw [← List.drop_one, List.drop_drop, Nat.add_comm] at done
        refine ⟨done, fun t table => ?_⟩
        rw [← same]
        exact grew.same_tables (tables t table)

end

/-! ## How many tables -/

theorem mem_rangePaths {count va : Nat} {q : List (Fin 512)} :
    q ∈ rangePaths va count ↔ ∃ k, k < count ∧ q ∈ tablePaths (va + k * PGSIZE) := by
  induction count generalizing va with
  | zero => simp [rangePaths]
  | succ count ih =>
      have shift : ∀ k, va + PGSIZE + k * PGSIZE = va + (k + 1) * PGSIZE := fun k => by ring
      rw [rangePaths, Finset.mem_union, ih]
      simp only [shift]
      constructor
      · rintro (first | ⟨k, bound, later⟩)
        · exact ⟨0, Nat.succ_pos count, by rwa [Nat.zero_mul, Nat.add_zero]⟩
        · exact ⟨k + 1, Nat.succ_lt_succ bound, later⟩
      · rintro ⟨k, bound, there⟩
        cases k with
        | zero => exact Or.inl (by rwa [Nat.zero_mul, Nat.add_zero] at there)
        | succ k => exact Or.inr ⟨k, Nat.lt_of_succ_lt_succ bound, there⟩

theorem rangePaths_append (va first second : Nat) :
    rangePaths va first ∪ rangePaths (va + first * PGSIZE) second =
      rangePaths va (first + second) := by
  induction first generalizing va with
  | zero => rw [rangePaths, Finset.empty_union, Nat.zero_mul, Nat.add_zero, Nat.zero_add]
  | succ first ih =>
      rw [show first + 1 + second = first + second + 1 by omega, rangePaths, rangePaths,
        Finset.union_assoc, ← ih, show va + (first + 1) * PGSIZE = va + PGSIZE + first * PGSIZE by ring]

/-- A last-level table is for two megabytes. -/
theorem tablePaths_congr {a b : Nat} (same : a / 2 ^ 21 = b / 2 ^ 21) :
    tablePaths a = tablePaths b := by
  have high : a / 2 ^ 30 = b / 2 ^ 30 := by omega
  have second : px 2 a = px 2 b := Fin.ext (by
    simp only [px, PX_eq]
    rw [show 2 ^ (12 + 9 * 2) = 2 ^ 30 from rfl, high])
  have first : px 1 a = px 1 b := Fin.ext (by
    simp only [px, PX_eq]
    rw [show 2 ^ (12 + 9 * 1) = 2 ^ 21 from rfl, same])
  unfold tablePaths leafPath
  rw [second, first]

/-- The tables of the memory. -/
def memoryPaths : Finset (List (Fin 512)) :=
  (Finset.range 65).biUnion fun k => tablePaths (k * 2 ^ 21)

theorem memoryPaths_eq : rangePaths KERNBASE 32768 = memoryPaths := by
  ext q
  rw [mem_rangePaths, memoryPaths, Finset.mem_biUnion]
  constructor
  · rintro ⟨k, bound, there⟩
    refine ⟨(KERNBASE + k * PGSIZE) / 2 ^ 21, ?_, ?_⟩
    · rw [Finset.mem_range]
      simp only [KERNBASE, PGSIZE]
      omega
    · rw [tablePaths_congr (b := KERNBASE + k * PGSIZE) (by omega)]
      exact there
  · rintro ⟨j, below, there⟩
    rw [Finset.mem_range] at below
    refine ⟨(j * 2 ^ 21 - KERNBASE) / PGSIZE, ?_, ?_⟩
    · simp only [KERNBASE, PGSIZE]
      omega
    · rw [tablePaths_congr (b := j * 2 ^ 21) (by simp only [KERNBASE, PGSIZE]; omega)]
      exact there

section

variable {link : Link}

theorem kernelRegions_paths (text : KERNBASE < link.etext) (below : link.etext < PHYSTOP) :
    (pathsOf (kernelRegions link)).card = 71 ∧
      tablePaths TRAMPOLINE ⊆ pathsOf (kernelRegions link) := by
  have aligned := link.text.2
  have whole : rangePaths KERNBASE ((link.etext - KERNBASE) / PGSIZE) ∪
      rangePaths link.etext ((PHYSTOP - link.etext) / PGSIZE) = memoryPaths := by
    have place : link.etext = KERNBASE + (link.etext - KERNBASE) / PGSIZE * PGSIZE := by
      simp only [KERNBASE, PGSIZE] at *
      omega
    have count : (link.etext - KERNBASE) / PGSIZE + (PHYSTOP - link.etext) / PGSIZE = 32768 := by
      simp only [PHYSTOP, KERNBASE, PGSIZE] at *
      omega
    rw [← memoryPaths_eq, ← count, ← rangePaths_append, ← place]
  have all : pathsOf (kernelRegions link) = rangePaths GICD_BASE 4 ∪ (rangePaths PL011_BASE 1 ∪
      (rangePaths SDCARD 1 ∪ (memoryPaths ∪ rangePaths TRAMPOLINE 2))) := by
    rw [← whole, Finset.union_assoc]
    unfold pathsOf kernelRegions Region.paths
    simp only [List.foldr_cons, List.foldr_nil, Finset.union_empty]
    rfl
  rw [all]
  constructor
  · decide +kernel
  · decide +kernel

theorem kernelRegions_whole (text : KERNBASE < link.etext) (below : link.etext < PHYSTOP) :
    ∀ r ∈ kernelRegions link, r.Whole := by
  have aligned := link.text.2
  intro r member
  simp only [kernelRegions, List.mem_cons, List.not_mem_nil, or_false] at member
  rcases member with rfl | rfl | rfl | rfl | rfl | rfl
  all_goals
    constructor
    all_goals simp only [GICD_BASE, PL011_BASE, SDCARD, KERNBASE, PHYSTOP, PGSIZE, MAXVA, TRAMPOLINE] at *
    all_goals omega

theorem kernelRegions_apart (text : KERNBASE < link.etext) (below : link.etext < PHYSTOP) :
    AllApart (kernelRegions link) := by
  simp only [kernelRegions, AllApart, List.forall_mem_cons, Region.Apart, GICD_BASE, PL011_BASE,
    SDCARD, KERNBASE, PHYSTOP, PGSIZE, MAXVA, TRAMPOLINE] at *
  simp
  omega

theorem stackRegion_apart (text : KERNBASE < link.etext) (below : link.etext < PHYSTOP) {p : Nat}
    (slot : p < NPROC) : ∀ q ∈ kernelRegions link, ∀ pa, (stackRegion p pa).Apart q := by
  have place : ∀ p, KSTACK p = 274877898752 - (p + 1) * 2 * 4096 := fun _ => rfl
  intro q member pa
  simp only [kernelRegions, List.mem_cons, List.not_mem_nil, or_false] at member
  rcases member with rfl | rfl | rfl | rfl | rfl | rfl
  all_goals
    simp only [Region.Apart, stackRegion, place, GICD_BASE, PL011_BASE, SDCARD, KERNBASE, PHYSTOP,
      PGSIZE, MAXVA, TRAMPOLINE, NPROC] at *
    omega

/-- The root of an empty table. -/
theorem TableOf.fresh {m u : Mm} {pg : Nat} {rest : List Nat}
    (free : FreeList link m (pg :: rest)) (list : FreeList link u rest) (same : u.mem = m.mem) :
    TableOf link u pg rest [] ∅ := by
  have clean : Clean u.mem pg := by
    rw [same]
    exact free.clean pg List.mem_cons_self
  obtain ⟨space, empty⟩ := Space.fresh free list same
  refine ⟨space, fun a _ => empty a, fun q _ => ?_⟩
  by_cases top : q = []
  · subst top
    simp [descend_nil]
  · rw [descend_clean clean q top]
    simp [top]

/-- Where pages are free, the text ends before the end of memory. -/
theorem FreeList.etext_lt {m : Mm} {free : List Nat} (list : FreeList link m free)
    (some : 0 < free.length) : link.etext < PHYSTOP := by
  obtain ⟨pg, member⟩ := List.exists_mem_of_length_pos some
  have page := list.page pg member
  have lower := page.lower
  have upper := page.upper
  have base := link.base_le.1
  have before := link.text.1
  simp only [PHYSTOP, KERNBASE, PGSIZE] at *
  omega

/-- The kernel's table, when the pages `left` were left for the stacks and the
pages `rest` are free: its tables lie in other pages, and every walk finds what
the ranges say. -/
structure KernelTable (link : Link) (root : Nat) (left rest : List Nat) (v : Mm) : Prop where
  space : Space link v root rest
  apart : ∀ t, IsTable v.mem root t → t ∉ left
  maps : ∀ a, a < MAXVA → lookup link root a v = .ok (mapOf (kernelMap link left) a, v)

/-- `kvmmake` returns when 72 pages are free: these are the tables, and the pages
behind them the stacks. With fewer pages it does not return. -/
theorem kvmmake_maps (link : Link) (text : KERNBASE < link.etext) {m : Mm} {free : List Nat}
    (list : FreeList link m free) :
    (72 ≤ free.length → Yields (kvmmake link) m fun root v => ∃ left, left <:+ free ∧
        left.length + 72 = free.length ∧ KernelTable link root left (left.drop NPROC) v) ∧
      (free.length < 72 → Ensures (kvmmake link) m fun _ _ => False) := by
  cases free with
  | nil =>
      refine ⟨fun many => absurd many (by decide), fun _ => ?_⟩
      rw [kvmmake]
      refine Ensures.seq (kalloc_yields list).ensures ?_
      rintro root u ⟨-, ⟨-, rfl, -⟩ | ⟨rest, none, -⟩⟩
      · refine Ensures.seq (m := fun _ _ => False) ?_ fun _ _ impossible => impossible.elim
        unfold kvmmap
        exact Ensures.seq (mappages_null _ _ _ (by decide) u) fun _ _ impossible => impossible.elim
      · cases none
  | cons pg rest =>
      have below := list.etext_lt (Nat.succ_pos rest.length)
      obtain ⟨cost, tramp⟩ := kernelRegions_paths text below
      have whole := kernelRegions_whole text below
      have apart := kernelRegions_apart text below
      have root : Yields (kalloc link) m fun r u => r = pg ∧ TableOf link u pg rest [] ∅ := by
        refine (kalloc_yields list).mono ?_
        rintro r u ⟨same, ⟨none, -, -⟩ | ⟨later, split, listed⟩⟩
        · cases none
        · cases split
          exact ⟨rfl, TableOf.fresh list listed same⟩
      have tables : (pathsOf (kernelRegions link) \ ∅).card = 71 := by
        rw [Finset.sdiff_empty, cost]
      have maps : ∀ u, TableOf link u pg rest [] ∅ →
          Ensures (mapRegions link pg (kernelRegions link)) u fun _ v => ∃ left,
            left.length + 71 = rest.length ∧ left <:+ rest ∧
            TableOf link v pg left (kernelRegions link) (pathsOf (kernelRegions link)) := by
        intro u mapped
        have ran := mapped.mapRegions_ensures (kernelRegions link) whole
          (fun r _ q none => absurd none (List.not_mem_nil)) apart
        rw [tables, List.nil_append, Finset.empty_union] at ran
        exact ran
      rw [kvmmake_eq]
      constructor
      · intro many
        refine Yields.seq root ?_
        rintro _ u ⟨rfl, mapped⟩
        have returns := mapped.mapRegions_yields (kernelRegions link) whole
          (fun r _ q none => absurd none (List.not_mem_nil)) apart
          (by rw [tables]; simpa using many)
        refine Yields.seq (returns.both (maps u mapped)) ?_
        rintro _ v ⟨-, left, count, suffix, later⟩
        refine Yields.seq (later.procMapstacks_yields NPROC (Nat.zero_add _).le tramp
          fun p _ slot => stackRegion_apart text below (by omega)) ?_
        rintro _ w ⟨last, tables⟩
        refine ⟨_, w, rfl, left, suffix.trans (List.suffix_cons _ rest), ?_, last.space, ?_, ?_⟩
        · rw [List.length_cons]
          omega
        · exact fun t table => later.space.held t (tables t table)
        · intro a low
          rw [lookup_run last.space low, last.maps a low]
          rfl
      · intro few
        refine Ensures.seq root.ensures ?_
        rintro _ u ⟨rfl, mapped⟩
        refine Ensures.seq (maps u mapped) ?_
        rintro _ v ⟨left, count, -, -⟩
        rw [List.length_cons] at few
        omega

/-- The pages of a slot's stack are mapped to its own page, and the page below
the stack is not mapped. -/
theorem kernelMap_stack (text : KERNBASE < link.etext) (below : link.etext < PHYSTOP)
    (left : List Nat) {p : Nat} (slot : p < NPROC) (a : Nat) :
    (a / PGSIZE = KSTACK p / PGSIZE → mapOf (kernelMap link left) a =
        some (pteOf (left.getD p 0) (PTE_NORMAL ||| PTE_AP_RW_EL1))) ∧
      (a / PGSIZE + 1 = KSTACK p / PGSIZE → mapOf (kernelMap link left) a = none) := by
  have place : ∀ p, KSTACK p = 274877898752 - (p + 1) * 2 * 4096 := fun _ => rfl
  have ours : ∀ q ∈ stackRegions left 0 NPROC, ∃ p', p' < NPROC ∧
      q = stackRegion p' (left.getD p' 0) := by
    intro q member
    obtain ⟨p', range, rfl⟩ := List.mem_map.mp member
    exact ⟨p', by simpa using (List.mem_range'_1.mp range).2, rfl⟩
  constructor
  · intro here
    have covers : (stackRegion p (left.getD p 0)).Covers a := by
      simp only [Region.Covers, stackRegion, place, PGSIZE, NPROC] at *
      omega
    have entry : (stackRegion p (left.getD p 0)).pte a =
        pteOf (left.getD p 0) (PTE_NORMAL ||| PTE_AP_RW_EL1) := by
      have offset : a / PGSIZE * PGSIZE - KSTACK p = 0 := by
        simp only [place, PGSIZE, NPROC] at *
        omega
      unfold Region.pte stackRegion
      rw [offset, Nat.add_zero]
    rw [← entry]
    refine mapOf_only (List.mem_append_right _ (List.mem_map.mpr ⟨p, ?_, rfl⟩)) covers ?_
    · exact List.mem_range'_1.mpr ⟨Nat.zero_le p, by omega⟩
    · intro q member there
      rcases List.mem_append.mp member with device | stack
      · exact absurd there ((stackRegion_apart text below slot q device _).not_both covers)
      · obtain ⟨p', slot', rfl⟩ := ours q stack
        obtain rfl : p' = p := by
          simp only [Region.Covers, stackRegion, place, PGSIZE, NPROC] at *
          omega
        rfl
  · intro under
    refine mapOf_none fun q member there => ?_
    rcases List.mem_append.mp member with device | stack
    · simp only [kernelRegions, List.mem_cons, List.not_mem_nil, or_false] at device
      rcases device with rfl | rfl | rfl | rfl | rfl | rfl
      all_goals
        simp only [Region.Covers, place, GICD_BASE, PL011_BASE, SDCARD, KERNBASE, PHYSTOP,
          PGSIZE, MAXVA, TRAMPOLINE, NPROC] at *
        omega
    · obtain ⟨p', slot', rfl⟩ := ours q stack
      simp only [Region.Covers, stackRegion, place, PGSIZE, NPROC] at *
      omega

theorem PA2PTE_low (pa : Nat) {i : Nat} (low : i < 12) : (PA2PTE pa).testBit i = false := by
  unfold PA2PTE
  rw [Nat.testBit_shiftLeft]
  simp [show ¬12 ≤ i by omega]

/-- The bits below the address are those of the permission and the flags. -/
theorem pteOf_low (pa perm : Nat) {i : Nat} (low : i < 12) :
    (pteOf pa perm).testBit i = (perm.testBit i || decide (i = 10 ∨ i < 2)) := by
  unfold pteOf
  rw [Nat.testBit_mod_two_pow, Nat.testBit_or, Nat.testBit_or, Nat.testBit_or, PA2PTE_low pa low,
    Bool.or_assoc, attribute_bits]
  simp [show i < 64 by omega]

/-- What the permission sets is set. -/
theorem pteOf_set (pa : Nat) {perm i : Nat} (inside : i < 64) (set : perm.testBit i = true) :
    (pteOf pa perm).testBit i = true := by
  unfold pteOf
  rw [Nat.testBit_mod_two_pow, Nat.testBit_or, Nat.testBit_or, Nat.testBit_or, set]
  simp [inside]

theorem masked_zero {entry mask i : Nat} (zero : entry &&& mask = 0)
    (bit : mask.testBit i = true) : entry.testBit i = false := by
  have none := congrArg (fun n => n.testBit i) zero
  simpa [Nat.testBit_and, bit] using none

theorem masked_ne_zero {entry mask i : Nat} (set : entry.testBit i = true)
    (bit : mask.testBit i = true) : entry &&& mask ≠ 0 := fun zero => by
  rw [masked_zero zero bit] at set
  exact absurd set (by decide)

/-- A range is a stack, or cannot be executed or cannot be written; user code
can reach the trampoline only. -/
theorem kernelMap_perm (left : List Nat) {q : Region} (member : q ∈ kernelMap link left) :
    (q.perm.testBit 53 = true ∨ q.perm.testBit 7 = true ∨
        ∃ p, p < NPROC ∧ q = stackRegion p (left.getD p 0)) ∧
      (q.perm.testBit 6 = true → q.perm.testBit 7 = true ∧ q.va = TRAMPOLINE) := by
  have device : (PTE_DEVICE ||| PTE_XN ||| PTE_AP_RW_EL1).testBit 53 = true ∧
      ¬(PTE_DEVICE ||| PTE_XN ||| PTE_AP_RW_EL1).testBit 6 = true := by decide
  have code : (PTE_NORMAL ||| PTE_AP_RO_EL1).testBit 7 = true ∧
      ¬(PTE_NORMAL ||| PTE_AP_RO_EL1).testBit 6 = true := by decide
  have data : (PTE_NORMAL ||| PTE_XN).testBit 53 = true ∧
      ¬(PTE_NORMAL ||| PTE_XN).testBit 6 = true := by decide
  have tramp : (PTE_NORMAL ||| PTE_AP_RO).testBit 7 = true := by decide
  have own : ¬(PTE_NORMAL ||| PTE_AP_RW_EL1).testBit 6 = true := by decide
  rcases List.mem_append.mp member with fixed | stack
  · simp only [kernelRegions, List.mem_cons, List.not_mem_nil, or_false] at fixed
    rcases fixed with rfl | rfl | rfl | rfl | rfl | rfl
    · exact ⟨Or.inl device.1, fun user => absurd user device.2⟩
    · exact ⟨Or.inl device.1, fun user => absurd user device.2⟩
    · exact ⟨Or.inl device.1, fun user => absurd user device.2⟩
    · exact ⟨Or.inr (Or.inl code.1), fun user => absurd user code.2⟩
    · exact ⟨Or.inl data.1, fun user => absurd user data.2⟩
    · exact ⟨Or.inr (Or.inl tramp), fun _ => ⟨tramp, rfl⟩⟩
  · obtain ⟨p, range, rfl⟩ := List.mem_map.mp stack
    refine ⟨Or.inr (Or.inr ⟨p, ?_, rfl⟩), fun user => absurd user own⟩
    simpa using (List.mem_range'_1.mp range).2

/-- The text is in a range that cannot be written. -/
theorem kernelMap_text (below : link.etext < PHYSTOP) (left : List Nat) {q : Region} {a : Nat}
    (member : q ∈ kernelMap link left) (here : q.Covers a) (lower : KERNBASE ≤ a)
    (upper : a < link.etext) : q.perm.testBit 7 = true := by
  have place : ∀ p, KSTACK p = 274877898752 - (p + 1) * 2 * 4096 := fun _ => rfl
  have code : (PTE_NORMAL ||| PTE_AP_RO_EL1).testBit 7 = true := by decide
  have tramp : (PTE_NORMAL ||| PTE_AP_RO).testBit 7 = true := by decide
  rcases List.mem_append.mp member with fixed | stack
  · simp only [kernelRegions, List.mem_cons, List.not_mem_nil, or_false] at fixed
    simp only [PHYSTOP, KERNBASE] at below
    rcases fixed with rfl | rfl | rfl | rfl | rfl | rfl
    · simp only [Region.Covers, GICD_BASE] at here
      omega
    · simp only [Region.Covers, PL011_BASE] at here
      omega
    · simp only [Region.Covers, SDCARD] at here
      omega
    · exact code
    · exact absurd here.1 (by simpa using upper)
    · exact tramp
  · obtain ⟨p, range, rfl⟩ := List.mem_map.mp stack
    have slot := (List.mem_range'_1.mp range).2
    simp only [Region.Covers, stackRegion, place, PHYSTOP, KERNBASE, NPROC] at *
    omega

/-- In the kernel's table the kernel's text cannot be written, only the stacks
can be both written and executed, and user code could only read the trampoline. -/
theorem kvmmake_protects (link : Link) (text : KERNBASE < link.etext) {m : Mm} {free : List Nat}
    (list : FreeList link m free) :
    Ensures (kvmmake link) m fun root v => ∀ a entry, a < MAXVA →
      lookup link root a v = .ok (some entry, v) →
        (KERNBASE ≤ a → a < link.etext → entry &&& PTE_AP_RO_EL1 ≠ 0) ∧
        (entry &&& PTE_PXN = 0 → entry &&& PTE_AP_RO_EL1 = 0 →
          ∃ p, p < NPROC ∧ a / PGSIZE = KSTACK p / PGSIZE) ∧
        (entry &&& PTE_AP_RW ≠ 0 → entry &&& PTE_AP_RO_EL1 ≠ 0 ∧ TRAMPOLINE ≤ a) := by
  intro root v returned a entry low found
  rcases Nat.lt_or_ge free.length 72 with few | many
  · exact ((kvmmake_maps link text list).2 few root v returned).elim
  · obtain ⟨left, -, -, table⟩ := ((kvmmake_maps link text list).1 many).ensures root v returned
    have below := list.etext_lt (by omega)
    rw [table.maps a low] at found
    obtain ⟨q, member, here, rfl⟩ := mapOf_some (by simpa using found)
    obtain ⟨guarded, user⟩ := kernelMap_perm left member
    refine ⟨fun lower upper => ?_, fun executable writable => ?_, fun reachable => ?_⟩
    · exact masked_ne_zero (i := 7)
        (pteOf_set _ (by decide) (kernelMap_text below left member here lower upper)) (by decide)
    · rcases guarded with never | never | ⟨p, slot, rfl⟩
      · have set := pteOf_set (q.pa + (a / PGSIZE * PGSIZE - q.va)) (by decide) never
        exact absurd executable (masked_ne_zero set (by decide))
      · have set := pteOf_set (q.pa + (a / PGSIZE * PGSIZE - q.va)) (by decide) never
        exact absurd writable (masked_ne_zero set (by decide))
      · refine ⟨p, slot, ?_⟩
        have place : KSTACK p = 274877898752 - (p + 1) * 2 * 4096 := rfl
        simp only [Region.Covers, stackRegion, place, PGSIZE, NPROC] at *
        omega
    · have bit : q.perm.testBit 6 = true := by
        by_contra unset
        have clear : (q.pte a).testBit 6 = false := by
          rw [Region.pte, pteOf_low _ _ (by decide)]
          simpa using unset
        refine reachable ?_
        rw [show PTE_AP_RW = 2 ^ 6 from rfl, Nat.and_two_pow, clear]
        rfl
      obtain ⟨readOnly, start⟩ := user bit
      exact ⟨masked_ne_zero (pteOf_set _ (by decide) readOnly) (by decide), start ▸ here.1⟩

theorem linkedPages_length (first count : Nat) : (linkedPages first count).length = count := by
  induction count generalizing first with
  | zero => rfl
  | succ count ih => rw [linkedPages, List.length_cons, ih]

/-- 200 pages behind a small kernel: its first instruction is read-only. -/
theorem kvmmake_protects_small : ∃ root v, kvmmake smallLink (smallMm 200) = .ok (root, v) ∧
    ∀ entry, lookup smallLink root KERNBASE v = .ok (some entry, v) →
      entry &&& PTE_AP_RO_EL1 ≠ 0 := by
  have list : FreeList smallLink (smallMm 200) (linkedPages 0x100000 200) :=
    smallMm_freeList (by decide) (by decide)
  have text : KERNBASE < smallLink.etext := by decide
  obtain ⟨root, v, returned, -⟩ := (kvmmake_maps smallLink text list).1 (by
    rw [linkedPages_length]
    exact Nat.le_of_ble_eq_true rfl)
  refine ⟨root, v, returned, fun entry found => ?_⟩
  exact (kvmmake_protects smallLink text list root v returned KERNBASE entry (by decide)
    found).1 le_rfl text

end

end Gcgos.Kernel
