import Gcgos.Kernel.Pages
import Gcgos.Lib.Run
import Mathlib.Data.Set.Insert

/-!
# The page allocator over whole histories

`kernel/kalloc.c` with its clients: pages are handed out and given back in any
order, and whoever holds a page writes what it likes to it. The links of the
free list live in the free pages themselves, and the pages handed out are the
rest of the allocator's memory.
-/

set_option autoImplicit false

namespace Gcgos.Kernel

open Act ByteMap

/-- The memory and the pages handed out and not yet given back. -/
structure Pool where
  mm : Mm
  out : Set Nat

/-- The set of pages handed out after `kalloc` has returned `r`. -/
def handOut (out : Set Nat) (r : Nat) : Set Nat := if r = 0 then out else insert r out

/-- A client has written to pages it holds. -/
def ClientWrite (out : Set Nat) (m t : Mm) : Prop :=
  t.freelist = m.freelist ∧
    ∀ a, (∀ pg ∈ out, a < pg ∨ pg + PGSIZE ≤ a) → t.mem a = m.mem a

inductive PoolStep (link : Link) : Pool → Pool → Prop where
  | alloc {s : Pool} {r : Nat} {t : Mm} (returned : kalloc link s.mm = .ok (r, t)) :
      PoolStep link s ⟨t, handOut s.out r⟩
  | free {s : Pool} {pa : Nat} {t : Mm} (held : pa ∈ s.out)
      (returned : kfree link pa s.mm = .ok ((), t)) : PoolStep link s ⟨t, s.out \ {pa}⟩
  | write {s : Pool} {t : Mm} (wrote : ClientWrite s.out s.mm t) : PoolStep link s ⟨t, s.out⟩

/-- A state that `kinit` leaves; the loader has cleared `kmem.freelist`. -/
def PoolStart (link : Link) (s : Pool) : Prop :=
  s.out = ∅ ∧ ∃ m : Mm, m.freelist = 0 ∧ kinit link m = .ok ((), s.mm)

section

variable {link : Link}

theorem isPage_iff (pg : Nat) :
    IsPage link pg ↔ pg % PGSIZE = 0 ∧ PGROUNDUP link.kend ≤ pg ∧ pg < PHYSTOP := by
  constructor
  · rintro ⟨aligned, lower, upper⟩
    refine ⟨aligned, lower, ?_⟩
    simp only [PGSIZE] at upper
    omega
  · rintro ⟨aligned, lower, upper⟩
    refine ⟨aligned, lower, ?_⟩
    simp only [PGSIZE, PHYSTOP, KERNBASE] at *
    omega

/-- The loop of `freerange` puts page after page in front of the list. -/
theorem freerange_yields (count : Nat) {p : Nat} {m : Mm} {pages : List Nat}
    (free : Listed link m pages) (range : ∀ k, k < count → IsPage link (p + PGSIZE * k))
    (above : ∀ pg ∈ pages, pg < p) :
    Yields (freerange link count p) m fun _ t =>
      ∃ pages', Listed link t pages' ∧
        (∀ pg, pg ∈ pages' ↔ pg ∈ pages ∨ ∃ k, k < count ∧ pg = p + PGSIZE * k) ∧
        ∀ a, (∀ k, k < count → a < p + PGSIZE * k ∨ p + PGSIZE * k + 8 ≤ a) →
          t.mem a = m.mem a := by
  induction count generalizing p m pages with
  | zero => exact ⟨(), m, rfl, pages, free, by simp, fun _ _ => rfl⟩
  | succ count ih =>
      have page : IsPage link p := range 0 (Nat.succ_pos count)
      have taken : p ∉ pages := fun member => Nat.lt_irrefl _ (above p member)
      unfold freerange
      refine Yields.seq (free.kfree_yields page taken) ?_
      rintro _ u ⟨listed, mem⟩
      have rest := ih (p := p + PGSIZE) listed
        (by
          intro k bound
          have later := range (k + 1) (Nat.succ_lt_succ bound)
          rwa [Nat.mul_add, Nat.mul_one, Nat.add_comm (PGSIZE * k), ← Nat.add_assoc] at later)
        (by
          intro pg member
          rcases List.mem_cons.mp member with rfl | member
          · simp only [PGSIZE]
            omega
          · exact (above pg member).trans (by simp only [PGSIZE]; omega))
      refine rest.mono ?_
      rintro _ t ⟨pages', listed', members, same⟩
      refine ⟨pages', listed', ?_, ?_⟩
      · intro pg
        rw [members, List.mem_cons]
        constructor
        · rintro ((rfl | member) | ⟨k, bound, rfl⟩)
          · exact Or.inr ⟨0, Nat.succ_pos count, rfl⟩
          · exact Or.inl member
          · exact Or.inr ⟨k + 1, Nat.succ_lt_succ bound, by ring⟩
        · rintro (member | ⟨k, bound, rfl⟩)
          · exact Or.inl (Or.inr member)
          · cases k with
            | zero => exact Or.inl (Or.inl rfl)
            | succ k => exact Or.inr ⟨k, Nat.lt_of_succ_lt_succ bound, by ring⟩
      · intro a outside
        rw [same a, mem]
        · apply putBytes_outside
          rw [leBytes_length]
          exact outside 0 (Nat.succ_pos count)
        · intro k bound
          have later := outside (k + 1) (Nat.succ_lt_succ bound)
          rw [Nat.mul_add, Nat.mul_one] at later
          omega

/-- `kinit` returns, and every page is free. Only the first word of a page
changes. -/
theorem kinit_yields {m : Mm} (zero : m.freelist = 0) :
    Yields (kinit link) m fun _ t => ∃ pages, Listed link t pages ∧
      (∀ pg, pg ∈ pages ↔ IsPage link pg) ∧
      ∀ a, (∀ pg, IsPage link pg → a < pg ∨ pg + 8 ≤ a) → t.mem a = m.mem a := by
  have empty : Listed link m [] := by
    refine ⟨?_, List.nodup_nil, by simp⟩
    rw [zero]
    exact Chain.nil
  have aligned := link.base_aligned
  have top := link.base_le.2
  have inside : ∀ pg, IsPage link pg ↔
      ∃ k, k < (PHYSTOP - link.base) / PGSIZE ∧ pg = link.base + PGSIZE * k := by
    intro pg
    constructor
    · rintro ⟨alignedPg, lower, upper⟩
      refine ⟨(pg - link.base) / PGSIZE, ?_, ?_⟩ <;>
        simp only [PGSIZE, PHYSTOP, KERNBASE] at * <;> omega
    · rintro ⟨k, bound, rfl⟩
      constructor <;> simp only [PGSIZE, PHYSTOP, KERNBASE] at * <;> omega
  refine (freerange_yields _ empty (fun k bound => (inside _).mpr ⟨k, bound, rfl⟩)
    (by simp)).mono ?_
  rintro _ t ⟨pages, listed, members, same⟩
  refine ⟨pages, listed, ?_, ?_⟩
  · intro pg
    rw [members, inside]
    simp
  · intro a outside
    exact same a fun k bound => outside _ ((inside _).mpr ⟨k, bound, rfl⟩)

/-- The free pages are these, and together with the pages handed out they are
all pages, none in both. -/
structure Partition (link : Link) (s : Pool) (pages : List Nat) : Prop where
  listed : Listed link s.mm pages
  all : ∀ pg, pg ∈ pages ∨ pg ∈ s.out ↔ IsPage link pg
  apart : ∀ pg ∈ pages, pg ∉ s.out

theorem Partition.alloc {s : Pool} {pages : List Nat} (partition : Partition link s pages) :
    Yields (kalloc link) s.mm fun r t =>
      (∃ rest, Partition link ⟨t, handOut s.out r⟩ rest) ∧ r ∉ s.out ∧
        (r = 0 → ∀ pg, IsPage link pg → pg ∈ s.out) := by
  refine partition.listed.kalloc_yields.mono ?_
  rintro r t ⟨mem, outcome⟩
  rcases outcome with ⟨rfl, rfl, rfl⟩ | ⟨rest, rfl, listed⟩
  · refine ⟨⟨[], partition⟩, ?_, ?_⟩
    · intro held
      exact ((partition.all 0).mp (Or.inr held)).pos rfl
    · intro _ pg page
      rcases (partition.all pg).mpr page with member | held
      · cases member
      · exact held
  · have page : IsPage link r := partition.listed.page r List.mem_cons_self
    have handed : handOut s.out r = insert r s.out := if_neg page.pos
    refine ⟨⟨rest, listed, ?_, ?_⟩, partition.apart r List.mem_cons_self, ?_⟩
    · intro pg
      rw [← partition.all pg]
      simp only [handed, Set.mem_insert_iff, List.mem_cons]
      tauto
    · intro pg member
      simp only [handed, Set.mem_insert_iff, not_or]
      refine ⟨?_, partition.apart pg (List.mem_cons_of_mem _ member)⟩
      rintro rfl
      exact (List.nodup_cons.mp partition.listed.distinct).1 member
    · intro zero
      exact absurd zero page.pos

theorem Partition.free {s : Pool} {pages : List Nat} {pa : Nat}
    (partition : Partition link s pages) (held : pa ∈ s.out) :
    Yields (kfree link pa) s.mm fun _ t => Partition link ⟨t, s.out \ {pa}⟩ (pa :: pages) := by
  have page : IsPage link pa := (partition.all pa).mp (Or.inr held)
  have taken : pa ∉ pages := fun member => partition.apart pa member held
  refine (partition.listed.kfree_yields page taken).mono ?_
  rintro _ t ⟨listed, mem⟩
  refine ⟨listed, ?_, ?_⟩
  · intro pg
    rw [← partition.all pg]
    simp only [List.mem_cons, Set.mem_sdiff, Set.mem_singleton_iff]
    constructor
    · rintro ((rfl | member) | ⟨other, _⟩)
      · exact Or.inr held
      · exact Or.inl member
      · exact Or.inr other
    · rintro (member | other)
      · exact Or.inl (Or.inr member)
      · by_cases same : pg = pa
        · exact Or.inl (Or.inl same)
        · exact Or.inr ⟨other, same⟩
  · intro pg member
    simp only [Set.mem_sdiff, Set.mem_singleton_iff, not_and, not_not]
    rcases List.mem_cons.mp member with rfl | member
    · exact fun _ => rfl
    · exact fun other => absurd other (partition.apart pg member)

/-- What clients write never reaches a free page. -/
theorem Partition.write {s : Pool} {t : Mm} {pages : List Nat}
    (partition : Partition link s pages) (wrote : ClientWrite s.out s.mm t) :
    Partition link ⟨t, s.out⟩ pages := by
  refine ⟨?_, partition.all, partition.apart⟩
  apply partition.listed.congr wrote.1
  intro pg member o bound
  apply wrote.2
  intro other held
  have different : pg ≠ other := by
    rintro rfl
    exact partition.apart pg member held
  have apart := (partition.listed.page pg member).apart
    ((partition.all other).mp (Or.inr held)) different
  omega

theorem Partition.step {s t : Pool} (before : ∃ pages, Partition link s pages)
    (step : PoolStep link s t) : ∃ pages, Partition link t pages := by
  obtain ⟨pages, partition⟩ := before
  cases step with
  | alloc returned => exact (partition.alloc.ensures _ _ returned).1
  | free held returned => exact ⟨_, (partition.free held).ensures _ _ returned⟩
  | write wrote => exact ⟨pages, partition.write wrote⟩

theorem Partition.start {s : Pool} (start : PoolStart link s) :
    ∃ pages, Partition link s pages := by
  obtain ⟨empty, m, zero, returned⟩ := start
  obtain ⟨pages, listed, members, _⟩ := (kinit_yields zero).ensures _ _ returned
  refine ⟨pages, listed, ?_, ?_⟩
  · intro pg
    rw [members, empty]
    simp
  · intro pg _
    rw [empty]
    exact Set.notMem_empty pg

end

/-- `kinit` returns whatever the memory holds. In every state reached from there
the chain of next pointers visits each free page once and ends in null, the free
pages and the pages handed out partition the allocator's pages, `kfree` of a page
handed out returns, and `kalloc` returns a page that is not handed out, or null
when all pages are. -/
theorem page_allocator_partition (link : Link) :
    (∀ m : Mm, m.freelist = 0 → ∃ t, kinit link m = .ok ((), t)) ∧
    ∀ n s, ReachIn (PoolStart link) (PoolStep link) n s →
      (∃ pages, Chain (word s.mm.mem) s.mm.freelist pages ∧ pages.Nodup ∧
        (∀ pg, pg ∈ pages ∨ pg ∈ s.out ↔
          pg % PGSIZE = 0 ∧ PGROUNDUP link.kend ≤ pg ∧ pg < PHYSTOP) ∧
        ∀ pg ∈ pages, pg ∉ s.out) ∧
      (∀ pa ∈ s.out, ∃ t, kfree link pa s.mm = .ok ((), t)) ∧
      ∃ r t, kalloc link s.mm = .ok (r, t) ∧ r ∉ s.out ∧
        (r = 0 → ∀ pg, pg % PGSIZE = 0 → PGROUNDUP link.kend ≤ pg → pg < PHYSTOP → pg ∈ s.out) := by
  constructor
  · intro m zero
    obtain ⟨_, t, returned, _⟩ := @kinit_yields link m zero
    exact ⟨t, returned⟩
  · intro n s run
    obtain ⟨pages, partition⟩ := run.invariant (h := fun s => ∃ pages, Partition link s pages)
      (fun s start => Partition.start start) (fun s t before step => Partition.step before step)
    refine ⟨⟨pages, partition.listed.chain, partition.listed.distinct, ?_, partition.apart⟩, ?_, ?_⟩
    · intro pg
      rw [partition.all, isPage_iff]
    · intro pa held
      obtain ⟨_, t, returned, _⟩ := partition.free held
      exact ⟨t, returned⟩
    · obtain ⟨r, t, returned, _, fresh, full⟩ := partition.alloc
      refine ⟨r, t, returned, fresh, ?_⟩
      intro zero pg aligned lower upper
      exact full zero pg ((isPage_iff pg).mpr ⟨aligned, lower, upper⟩)

/-- A page is taken from the memory that `kinit` has made; the next one is
another page. -/
theorem page_allocator_partition_small :
    ∃ s r t, ReachIn (PoolStart smallLink) (PoolStep smallLink) 1 s ∧
      kalloc smallLink s.mm = .ok (r, t) ∧ r ∉ s.out := by
  obtain ⟨m, ready⟩ := (page_allocator_partition smallLink).1 ⟨fun _ => 0, 0⟩ rfl
  have first : ReachIn (PoolStart smallLink) (PoolStep smallLink) 0 ⟨m, ∅⟩ :=
    ReachIn.start ⟨rfl, _, rfl, ready⟩
  obtain ⟨r, t, returned, _⟩ := ((page_allocator_partition smallLink).2 0 _ first).2.2
  have second := ReachIn.next first (PoolStep.alloc returned)
  obtain ⟨r', t', returned', fresh, _⟩ := ((page_allocator_partition smallLink).2 1 _ second).2.2
  exact ⟨_, r', t', second, returned', fresh⟩

end Gcgos.Kernel
