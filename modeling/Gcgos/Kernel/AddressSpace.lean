import Gcgos.Kernel.Process
import Gcgos.Kernel.Tables

/-!
# New address spaces

A clean page is an empty table, and a page that leaves the free list can be
filled without touching the tables. From these two facts follows what
`proc_pagetable` makes: a table with the trampoline and the trapframe in it and
nothing else, in pages of its own.
-/

set_option autoImplicit false

namespace Gcgos.Kernel

open Act ByteMap Radix

section

variable {link : Link}

theorem Listed.unique {m : Mm} {pages others : List Nat} (listed : Listed link m pages)
    (other : Listed link m others) : others = pages :=
  listed.chain.unique other.chain

/-- A clean page leads nowhere. -/
theorem descend_clean {mem : Nat → UInt8} {pg : Nat} (clean : Clean mem pg) (q : List (Fin 512))
    (long : q ≠ []) : descend (child mem) pg q = none := by
  induction q with
  | nil => exact absurd rfl long
  | cons slot path ih =>
      cases path with
      | nil =>
          rw [descend_cons slot descend_nil]
          unfold child
          rw [if_neg]
          rw [clean slot slot.isLt]
          decide
      | cons next rest => exact descend_cons_none slot (ih (List.cons_ne_nil _ _))

theorem isTable_clean {mem : Nat → UInt8} {pg t : Nat} (clean : Clean mem pg) :
    IsTable mem pg t ↔ t = pg := by
  constructor
  · rintro ⟨q, _, there⟩
    by_cases empty : q = []
    · rw [empty, descend_nil, Option.some_inj] at there
      exact there.symm
    · rw [descend_clean clean q empty] at there
      cases there
  · rintro rfl
    exact ⟨[], by decide, descend_nil⟩

/-- A page from the free list is an empty table. -/
theorem Space.fresh {m u : Mm} {pg : Nat} {rest : List Nat} (free : FreeList link m (pg :: rest))
    (list : FreeList link u rest) (same : u.mem = m.mem) :
    Space link u pg rest ∧ ∀ va, translate u.mem pg va = none := by
  have clean : Clean u.mem pg := by
    rw [same]
    exact free.clean pg List.mem_cons_self
  have only : ∀ t, IsTable u.mem pg t → t = pg := fun t table => (isTable_clean clean).mp table
  refine ⟨⟨list, ?_, ?_, ?_⟩, ?_⟩
  · intro p q t _ _ first second
    by_cases empty : p = []
    · by_cases empty' : q = []
      · rw [empty, empty']
      · rw [descend_clean clean q empty'] at second
        cases second
    · rw [descend_clean clean p empty] at first
      cases first
  · intro t table
    rw [only t table]
    exact free.page pg List.mem_cons_self
  · intro t table
    rw [only t table]
    exact (List.nodup_cons.mp free.distinct).1
  · intro va
    unfold translate
    rw [descend_clean clean (leafPath va) (List.cons_ne_nil _ _), Option.bind_none]

/-- What fills a page of the free list leaves the tables alone. -/
theorem Space.tables_same {m v : Mm} {root pg : Nat} {rest : List Nat}
    (space : Space link m root (pg :: rest))
    (others : ∀ q, IsPage link q → q ≠ pg → SameOn m.mem v.mem q) (t : Nat)
    (table : IsTable m.mem root t) : SameOn m.mem v.mem t := by
  refine others t (space.page t table) ?_
  rintro rfl
  exact space.held t table List.mem_cons_self

/-- A page that has left the free list is filled beside the tables. -/
theorem Space.fill {m u v : Mm} {root pg : Nat} {rest : List Nat}
    (space : Space link m root (pg :: rest)) (list : FreeList link u rest) (same : u.mem = m.mem)
    (head : v.freelist = u.freelist)
    (others : ∀ q, IsPage link q → q ≠ pg → SameOn m.mem v.mem q) :
    Grew link m v root (pg :: rest) rest ∧
      (∀ t, IsTable v.mem root t ↔ IsTable m.mem root t) ∧
      ∀ a, translate v.mem root a = translate m.mem root a := by
  have tables := space.tables_same others
  have pages : ∀ q ∈ rest, SameOn u.mem v.mem q := by
    intro q member
    rw [same]
    apply others q (list.page q member)
    rintro rfl
    exact (List.nodup_cons.mp space.list.distinct).1 member
  have begun : Space link u root rest := by
    refine ⟨list, ?_, ?_, ?_⟩
    · rw [same]
      exact space.apart
    · rw [same]
      exact space.page
    · rw [same]
      exact fun t table member => space.held t table (List.mem_cons_of_mem _ member)
  have filled : Space link v root rest := by
    apply begun.congr head pages
    rw [same]
    exact tables
  have isTable : ∀ t, IsTable v.mem root t ↔ IsTable m.mem root t := by
    intro t
    apply exists_congr
    intro q
    apply and_congr_right
    intro short
    rw [tables_congr tables q short]
  refine ⟨⟨filled, List.suffix_cons _ _, fun t table => Or.inl ((isTable t).mp table),
    fun t table => (isTable t).mpr table, ?_⟩, isTable, fun a => translate_congr tables a⟩
  intro q page _ free
  apply others q page
  rintro rfl
  exact (List.nodup_cons.mp space.list.distinct).1 (free List.mem_cons_self)

/-- A page of the free list has been filled to `w` and mapped. When memory is
out, its entry may be missing. -/
structure Added (link : Link) (m w x : Mm) (root va pg perm : Nat) (free rest : List Nat) :
    Prop where
  grew : Grew link m x root free rest
  page : IsPage link pg
  source : pg ∈ free
  out : pg ∉ rest
  apart : ¬IsTable x.mem root pg
  filled : SameOn w.mem x.mem pg
  maps : rest = [] ∨ ∀ a, a < MAXVA → translate x.mem root a =
    if a / PGSIZE = va / PGSIZE then some (pteOf pg perm) else translate m.mem root a
  few : free.length ≤ rest.length + 3

/-- Filling a page and mapping it. -/
theorem Space.add {m u w x : Mm} {root va pg perm : Nat} {tail : List Nat} {result : Int}
    (space : Space link m root (pg :: tail)) (list : FreeList link u tail) (same : u.mem = m.mem)
    (head : w.freelist = u.freelist)
    (others : ∀ q, IsPage link q → q ≠ pg → SameOn m.mem w.mem q)
    (range : RangePost link w x root va pg perm 1 tail result) (spent : Spent link x tail 2) :
    ∃ rest, Added link m w x root va pg perm (pg :: tail) rest := by
  obtain ⟨grew, isTable, fill⟩ := space.fill list same head others
  obtain ⟨rest, grew', outcome⟩ := range
  have fresh := (List.nodup_cons.mp space.list.distinct).1
  have page := space.list.page pg List.mem_cons_self
  have few := spent rest grew'.space.list.toListed
  have before : ¬IsTable w.mem root pg :=
    fun table => space.held pg ((isTable pg).mp table) List.mem_cons_self
  refine ⟨rest, grew.trans grew', page, List.mem_cons_self,
    fun member => fresh (grew'.taken.subset member), ?_, ?_, ?_, ?_⟩
  · intro table
    rcases grew'.owned pg table with old | new
    · exact before old
    · exact fresh new
  · exact grew'.frame pg page before fun member => absurd member fresh
  · rcases outcome with ⟨_, out⟩ | ⟨_, maps⟩
    · exact Or.inl out
    · refine Or.inr fun a low => ?_
      rw [maps a low, fill a]
      by_cases here : a / PGSIZE = va / PGSIZE
      · rw [if_pos (by omega), if_pos here, here, Nat.sub_self, Nat.zero_mul, Nat.add_zero]
      · rw [if_neg (by omega), if_neg here]
  · rw [List.length_cons]
    omega

/-- `mappages` of one page. -/
theorem mappages_one {m : Mm} {root va : Nat} {free : List Nat} (space : Space link m root free)
    (aligned : va % PGSIZE = 0) (low : va + PGSIZE ≤ MAXVA)
    (unmapped : translate m.mem root va = none) (pa perm : Nat) :
    Yields (mappages link root va pa PGSIZE perm) m fun result v =>
      RangePost link m v root va pa perm 1 free result := by
  refine mappages_yields space aligned (by decide) (by decide) low ?_ pa perm
  intro k bound
  obtain rfl : k = 0 := by
    simp only [PGSIZE] at bound
    omega
  rw [Nat.zero_mul, Nat.add_zero]
  exact unmapped

/-- What the kernel maps into every user table. -/
def kernelEntry (link : Link) (tf a : Nat) : Option Nat :=
  if TRAMPOLINE / PGSIZE ≤ a / PGSIZE then
    some (pteOf (link.trampoline + (a / PGSIZE - TRAMPOLINE / PGSIZE) * PGSIZE)
      (PTE_NORMAL ||| PTE_AP_RW_EL1))
  else if a / PGSIZE = TRAPFRAME / PGSIZE then some (pteOf tf (PTE_NORMAL ||| PTE_AP_RW_EL1))
  else none

/-- What `proc_pagetable` makes of the free list. When memory is out, entries
may be missing and the trapframe may be the null page. -/
structure NewTable (link : Link) (m v : Mm) (free rest : List Nat) (root tf : Nat) : Prop where
  space : Space link v root rest
  taken : rest <:+ free
  owned : ∀ t, IsTable v.mem root t → t ∈ free
  frame : (rest = [] ∧ tf = 0) ∨
    (IsPage link tf ∧ tf ∈ free ∧ tf ∉ rest ∧ ¬IsTable v.mem root tf)
  kept : ∀ pg, IsPage link pg → (pg ∈ free → pg ∈ rest) → SameOn m.mem v.mem pg
  maps : rest = [] ∨ ∀ a, a < MAXVA → translate v.mem root a = kernelEntry link tf a
  few : free.length ≤ rest.length + 8

/-- A table that has grown from an empty page. -/
theorem NewTable.of_grew {m u x : Mm} {root tf : Nat} {later rest : List Nat}
    (free : FreeList link m (root :: later)) (same : u.mem = m.mem)
    (grew : Grew link u x root later rest)
    (frame : (rest = [] ∧ tf = 0) ∨
      (IsPage link tf ∧ tf ∈ later ∧ tf ∉ rest ∧ ¬IsTable x.mem root tf))
    (maps : rest = [] ∨ ∀ a, a < MAXVA → translate x.mem root a = kernelEntry link tf a)
    (few : later.length ≤ rest.length + 7) :
    NewTable link m x (root :: later) rest root tf := by
  have clean : Clean u.mem root := by
    rw [same]
    exact free.clean root List.mem_cons_self
  refine ⟨grew.space, grew.taken.trans (List.suffix_cons _ _), ?_, ?_, ?_, maps, ?_⟩
  · intro t table
    rcases grew.owned t table with old | new
    · rw [(isTable_clean clean).mp old]
      exact List.mem_cons_self
    · exact List.mem_cons_of_mem _ new
  · rcases frame with out | ⟨page, source, out, apart⟩
    · exact Or.inl out
    · exact Or.inr ⟨page, List.mem_cons_of_mem _ source, out, apart⟩
  · intro pg page still
    rw [← same]
    apply grew.frame pg page
    · intro table
      rw [(isTable_clean clean).mp table] at still
      exact (List.nodup_cons.mp free.distinct).1 (grew.taken.subset (still List.mem_cons_self))
    · exact fun member => still (List.mem_cons_of_mem _ member)
  · rw [List.length_cons]
    omega

/-- Nothing in the pages has changed. -/
theorem Grew.of_same {m u : Mm} {root : Nat} {free : List Nat} (space : Space link m root free)
    (head : u.freelist = m.freelist) (same : ∀ q, IsPage link q → SameOn m.mem u.mem q) :
    Grew link m u root free free := by
  have tables : ∀ t, IsTable m.mem root t → SameOn m.mem u.mem t :=
    fun t table => same t (space.page t table)
  have isTable : ∀ t, IsTable u.mem root t ↔ IsTable m.mem root t := by
    intro t
    refine exists_congr fun q => and_congr_right fun short => ?_
    rw [tables_congr tables q short]
  exact ⟨space.congr head (fun pg member => same pg (space.list.page pg member)) tables,
    List.suffix_refl _, fun t table => Or.inl ((isTable t).mp table),
    fun t table => (isTable t).mpr table, fun pg page _ _ => same pg page⟩

/-- The trapframe has been allocated and mapped. -/
structure Framed (link : Link) (v x : Mm) (root tf : Nat) (mid rest : List Nat) : Prop where
  grew : Grew link v x root mid rest
  frame : (rest = [] ∧ tf = 0) ∨ (IsPage link tf ∧ tf ∈ mid ∧ tf ∉ rest ∧ ¬IsTable x.mem root tf)
  maps : rest = [] ∨ ∀ a, a < MAXVA → translate x.mem root a =
    if a / PGSIZE = TRAPFRAME / PGSIZE then some (pteOf tf (PTE_NORMAL ||| PTE_AP_RW_EL1))
    else translate v.mem root a
  few : mid.length ≤ rest.length + 3

/-- The second half of `proc_pagetable`. -/
theorem framed {v w x : Mm} {root tf : Nat} {mid : List Nat} {result : Int}
    (space : Space link v root mid) (same : w.mem = v.mem)
    (popped : (mid = [] ∧ tf = 0 ∧ FreeList link w []) ∨
      ∃ tail, mid = tf :: tail ∧ FreeList link w tail)
    (range : ∀ tail, Space link w root tail → RangePost link w x root TRAPFRAME tf
      (PTE_NORMAL ||| PTE_AP_RW_EL1) 1 tail result ∧ Spent link x tail 2) :
    ∃ rest, Framed link v x root tf mid rest := by
  rcases popped with ⟨rfl, zero, list⟩ | ⟨tail, rfl, list⟩
  · have head : w.freelist = v.freelist := by
      rw [list.chain.head_eq_zero.mpr rfl, space.list.chain.head_eq_zero.mpr rfl]
    have begun : Grew link v w root [] [] := Grew.of_same space head fun q _ => by
      rw [same]
      exact SameOn.refl _ q
    obtain ⟨⟨rest, grew, _⟩, _⟩ := range [] begun.space
    obtain rfl : rest = [] := List.suffix_nil.mp grew.taken
    exact ⟨[], begun.trans grew, Or.inl ⟨rfl, zero⟩, Or.inl rfl, by simp⟩
  · have others : ∀ q, IsPage link q → q ≠ tf → SameOn v.mem w.mem q := by
      rw [same]
      exact fun q _ _ => SameOn.refl _ q
    obtain ⟨grew, _, _⟩ := space.fill list same rfl others
    obtain ⟨range, spent⟩ := range tail grew.space
    obtain ⟨rest, added⟩ := space.add list same rfl others range spent
    exact ⟨rest, added.grew, Or.inr ⟨added.page, added.source, added.out, added.apart⟩,
      added.maps, added.few⟩

/-- Both halves. -/
theorem NewTable.of_halves {m u v x : Mm} {root tf : Nat} {later mid rest : List Nat}
    {result : Int} (free : FreeList link m (root :: later)) (same : u.mem = m.mem)
    (empty : ∀ va, translate u.mem root va = none)
    (grew : Grew link u v root later mid)
    (maps : (result = -1 ∧ mid = []) ∨ (result = 0 ∧ ∀ a, a < MAXVA → translate v.mem root a =
      if TRAMPOLINE / PGSIZE ≤ a / PGSIZE ∧ a / PGSIZE < TRAMPOLINE / PGSIZE + 2 * PGSIZE / PGSIZE
      then some (pteOf (link.trampoline + (a / PGSIZE - TRAMPOLINE / PGSIZE) * PGSIZE)
        (PTE_NORMAL ||| PTE_AP_RW_EL1))
      else translate u.mem root a))
    (spent : later.length ≤ mid.length + 4) (half : Framed link v x root tf mid rest) :
    NewTable link m x (root :: later) rest root tf := by
  have few := half.few
  refine NewTable.of_grew free same (grew.trans half.grew) ?_ ?_ (by omega)
  · rcases half.frame with out | ⟨page, source, out, apart⟩
    · exact Or.inl out
    · exact Or.inr ⟨page, grew.taken.subset source, out, apart⟩
  · rcases maps with ⟨_, out⟩ | ⟨_, trampoline⟩
    · left
      rw [out] at half
      exact List.suffix_nil.mp half.grew.taken
    · rcases half.maps with out | frame
      · exact Or.inl out
      · refine Or.inr fun a low => ?_
        rw [frame a low, trampoline a low, empty a]
        unfold kernelEntry
        simp only [TRAMPOLINE, TRAPFRAME, MAXVA, PGSIZE] at low ⊢
        by_cases top : (2 ^ 38 - 2 * 4096) / 4096 ≤ a / 4096
        · rw [if_neg (by omega), if_pos ⟨top, by omega⟩, if_pos top]
        · rw [if_neg (fun both : _ ∧ _ => top both.1), if_neg top]

/-- The null pointer is no table. -/
theorem walk_null (va : Nat) (alloc : Bool) (m : Mm) :
    Ensures (walk link 0 va alloc) m fun _ _ => False := by
  unfold walk
  refine Ensures.guard fun _ => ?_
  refine Ensures.seq (m := fun _ _ => False) ?_ fun _ _ impossible => impossible.elim
  unfold walkLevel load64
  have base := link.base_pos
  have bound := PX_lt 2 va
  have outside : ¬InRam link (0 + 8 * PX 2 va) 8 := by
    rintro (zero | ⟨lower, _⟩)
    · omega
    · simp only [KERNBASE] at base
      omega
  exact Ensures.seq (m := fun _ _ => False)
    (Ensures.guard fun inside => absurd outside inside) fun _ _ impossible => impossible.elim

theorem mappages_null (va pa perm : Nat) {size : Nat} (large : PGSIZE ≤ size) (m : Mm) :
    Ensures (mappages link 0 va pa size perm) m fun _ _ => False := by
  unfold mappages
  refine Ensures.guard fun _ => ?_
  refine Ensures.guard fun _ => ?_
  refine Ensures.guard fun _ => ?_
  obtain ⟨count, pages⟩ : ∃ count, size / PGSIZE = count + 1 := by
    refine ⟨size / PGSIZE - 1, ?_⟩
    have some := Nat.div_pos large (by decide)
    omega
  rw [pages]
  unfold mappagesLoop mapPage
  refine Ensures.seq (m := fun _ _ => False) ?_ fun _ _ impossible => impossible.elim
  exact Ensures.seq (walk_null va true m) fun _ _ impossible => impossible.elim

/-- `proc_pagetable` on a clean free list. -/
theorem procPagetable_ensures {m : Mm} {free : List Nat} (list : FreeList link m free) :
    Ensures (procPagetable link) m fun result x =>
      ∃ rest, NewTable link m x free rest result.1 result.2 := by
  unfold procPagetable uvmcreat
  refine Ensures.seq (kalloc_yields list).ensures ?_
  rintro root u ⟨same, ⟨_, rfl, _⟩ | ⟨later, rfl, rest⟩⟩
  · exact Ensures.seq (mappages_null _ _ _ (by decide) u) fun _ _ impossible => impossible.elim
  · obtain ⟨space, empty⟩ := Space.fresh list rest same
    refine Ensures.seq (m := fun result v => RangePost link u v root TRAMPOLINE link.trampoline
      (PTE_NORMAL ||| PTE_AP_RW_EL1) (2 * PGSIZE / PGSIZE) later result ∧
        Spent link v later (2 * (2 * PGSIZE / PGSIZE))) ?_ ?_
    · intro result v returned
      exact ⟨mappages_ensures space _ _ _ _ _ _ returned,
        mappages_spends space _ _ _ _ _ _ returned⟩
    · rintro result v ⟨⟨mid, grew, maps⟩, spent⟩
      have few := spent mid grew.space.list.toListed
      refine Ensures.seq (kalloc_yields grew.space.list).ensures ?_
      rintro tf w ⟨kept, popped⟩
      refine Ensures.seq (m := fun result x => ∀ tail, Space link w root tail →
        RangePost link w x root TRAPFRAME tf (PTE_NORMAL ||| PTE_AP_RW_EL1) 1 tail result ∧
          Spent link x tail 2) ?_ ?_
      · intro result x returned tail space
        exact ⟨mappages_ensures space _ _ _ _ _ _ returned,
          mappages_spends space _ _ _ _ _ _ returned⟩
      · intro result' x range
        obtain ⟨last, half⟩ := framed grew.space kept popped range
        exact Ensures.pure ⟨last, NewTable.of_halves list same empty grew maps few half⟩

/-- With nine free pages `proc_pagetable` returns. -/
theorem procPagetable_yields {m : Mm} {free : List Nat} (list : FreeList link m free)
    (enough : 8 < free.length) :
    Yields (procPagetable link) m fun result x =>
      ∃ rest, NewTable link m x free rest result.1 result.2 := by
  have post := procPagetable_ensures list
  suffices returns : Yields (procPagetable link) m fun _ _ => True by
    obtain ⟨result, x, returned, _⟩ := returns
    exact ⟨result, x, returned, post result x returned⟩
  unfold procPagetable uvmcreat
  refine Yields.seq (kalloc_yields list) ?_
  rintro root u ⟨same, ⟨rfl, _, _⟩ | ⟨later, rfl, rest⟩⟩
  · simp at enough
  · rw [List.length_cons] at enough
    obtain ⟨space, empty⟩ := Space.fresh list rest same
    have trampoline : Yields (mappages link root TRAMPOLINE link.trampoline (2 * PGSIZE)
        (PTE_NORMAL ||| PTE_AP_RW_EL1)) u _ :=
      mappages_yields space (by decide) (by decide) (by decide) (by decide) (fun k _ => empty _)
        _ _
    obtain ⟨result, v, returned, mid, grew, maps⟩ := trampoline
    have few := mappages_spends space _ _ _ _ _ _ returned mid grew.space.list.toListed
    refine Yields.step returned ?_
    refine Yields.seq (kalloc_yields grew.space.list) ?_
    rintro tf w ⟨kept, ⟨rfl, _, _⟩ | ⟨tail, rfl, list'⟩⟩
    · simp only [List.length_nil, PGSIZE] at few
      omega
    · have others : ∀ q, IsPage link q → q ≠ tf → SameOn v.mem w.mem q := by
        rw [kept]
        exact fun q _ _ => SameOn.refl _ q
      obtain ⟨popped, _, _⟩ := grew.space.fill list' kept rfl others
      have unmapped : translate w.mem root TRAPFRAME = none := by
        rw [kept]
        rcases maps with ⟨_, out⟩ | ⟨_, maps⟩
        · cases out
        · rw [maps TRAPFRAME (by decide), if_neg (by decide), empty]
      have trapframe : Yields (mappages link root TRAPFRAME tf PGSIZE
          (PTE_NORMAL ||| PTE_AP_RW_EL1)) w _ :=
        mappages_one popped.space (by decide) (by decide) unmapped _ _
      obtain ⟨result', x, returned', _⟩ := trapframe
      exact Yields.step returned' ⟨_, x, rfl, trivial⟩

end

end Gcgos.Kernel
