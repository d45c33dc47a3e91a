import Gcgos.Kernel.Memory
import Gcgos.Lib.Chain

/-!
# Pages and the free list

What a word of memory is after a store, and what the page allocator does to
the list of free pages. A free page is clean when bits 0 and 1 of each of its
words are clear: no table entry in it is valid.
-/

set_option autoImplicit false

namespace Gcgos.Kernel

open Act ByteMap

/-- A page of the allocator. -/
structure IsPage (link : Link) (pg : Nat) : Prop where
  aligned : pg % PGSIZE = 0
  lower : link.base ≤ pg
  upper : pg + PGSIZE ≤ PHYSTOP

/-- The bytes of a page are the same. -/
def SameOn (mem mem' : Nat → UInt8) (pg : Nat) : Prop :=
  ∀ o, o < PGSIZE → mem' (pg + o) = mem (pg + o)

theorem SameOn.refl (mem : Nat → UInt8) (pg : Nat) : SameOn mem mem pg := fun _ _ => rfl

theorem SameOn.trans {first second third : Nat → UInt8} {pg : Nat}
    (left : SameOn first second pg) (right : SameOn second third pg) : SameOn first third pg :=
  fun o bound => (right o bound).trans (left o bound)

theorem SameOn.word_eq {mem mem' : Nat → UInt8} {pg : Nat} (same : SameOn mem mem' pg)
    {o : Nat} (bound : o + 8 ≤ PGSIZE) : word mem' (pg + o) = word mem (pg + o) := by
  apply leNat_congr
  intro a lower upper
  have byte := same (a - pg) (by omega)
  rw [Nat.add_sub_cancel' (by omega)] at byte
  exact byte

/-- The words of a page. -/
theorem SameOn.slot {mem mem' : Nat → UInt8} {pg : Nat} (same : SameOn mem mem' pg) {k : Nat}
    (bound : k < 512) : word mem' (pg + 8 * k) = word mem (pg + 8 * k) := by
  apply same.word_eq
  simp only [PGSIZE]
  omega

theorem word_store_same (mem : Nat → UInt8) (addr : Nat) {value : Nat} (fits : value < 2 ^ 64) :
    word (putBytes mem addr (leBytes 8 value)) addr = value := by
  unfold word
  rw [leNat_putBytes_leBytes]
  exact Nat.mod_eq_of_lt fits

section

variable {link : Link}

theorem Link.base_pos (link : Link) : KERNBASE ≤ link.base := by
  have image := link.image
  simp only [Link.base, PGROUNDUP, KERNBASE, PHYSTOP, PGSIZE] at *
  omega

theorem Link.base_le (link : Link) : link.kend ≤ link.base ∧ link.base ≤ PHYSTOP := by
  have image := link.image
  simp only [Link.base, PGROUNDUP, KERNBASE, PHYSTOP, PGSIZE] at *
  omega

theorem Link.base_aligned (link : Link) : link.base % PGSIZE = 0 := by
  simp only [Link.base, PGROUNDUP, PGSIZE]
  omega

theorem IsPage.pos {pg : Nat} (page : IsPage link pg) : pg ≠ 0 := by
  have base := link.base_pos
  have lower := page.lower
  simp only [KERNBASE] at base
  omega

/-- Pages are the same or do not meet. -/
theorem IsPage.apart {pg other : Nat} (page : IsPage link pg) (page' : IsPage link other)
    (different : pg ≠ other) : pg + PGSIZE ≤ other ∨ other + PGSIZE ≤ pg := by
  have aligned := page.aligned
  have aligned' := page'.aligned
  simp only [PGSIZE] at *
  omega

theorem IsPage.inRam {pg : Nat} (page : IsPage link pg) {o len : Nat} (bound : o + len ≤ PGSIZE) :
    InRam link (pg + o) len := by
  have lower := page.lower
  have upper := page.upper
  exact Or.inr ⟨by omega, by omega⟩

/-- A store inside one page leaves every other page. -/
theorem IsPage.store_other {pg other : Nat} (page : IsPage link pg) (page' : IsPage link other)
    (different : other ≠ pg) {o : Nat} {run : List UInt8} (bound : o + run.length ≤ PGSIZE)
    (mem : Nat → UInt8) : SameOn mem (putBytes mem (pg + o) run) other := by
  intro a inside
  have apart := page.apart page' (Ne.symm different)
  exact putBytes_outside (by omega)

theorem load64_run {addr : Nat} (inside : InRam link addr 8) (m : Mm) :
    load64 link addr m = .ok (word m.mem addr, m) := by
  unfold load64
  rw [Act.bind_of_ok (Act.stopIf_of_not _ m (not_not.mpr inside))]
  rfl

theorem storeBytes_run {addr : Nat} {run : List UInt8} (inside : InRam link addr run.length)
    (m : Mm) : storeBytes link addr run m = .ok ((), m.store addr run) := by
  unfold storeBytes
  rw [Act.bind_of_ok (Act.stopIf_of_not _ m (not_not.mpr inside))]
  rfl

theorem loadBytes_run {addr count : Nat} (inside : InRam link addr count) (m : Mm) :
    loadBytes link addr count m = .ok (getBytes m.mem addr count, m) := by
  unfold loadBytes
  rw [Act.bind_of_ok (Act.stopIf_of_not _ m (not_not.mpr inside))]
  rfl

theorem store64_run {addr : Nat} (inside : InRam link addr 8) (value : Nat) (m : Mm) :
    store64 link addr value m = .ok ((), m.store addr (leBytes 8 value)) :=
  storeBytes_run (by rw [leBytes_length]; exact inside) m

/-- A store that returns was inside the allocator's pages. -/
theorem storeBytes_ensures (addr : Nat) (run : List UInt8) (m : Mm) :
    Ensures (storeBytes link addr run) m fun _ t =>
      InRam link addr run.length ∧ t = m.store addr run := by
  unfold storeBytes
  apply Ensures.guard
  intro inside
  exact Ensures.modify ⟨not_not.mp inside, rfl⟩

theorem load64_ensures (addr : Nat) (m : Mm) :
    Ensures (load64 link addr) m fun value t =>
      InRam link addr 8 ∧ value = word m.mem addr ∧ t = m := by
  unfold load64
  apply Ensures.guard
  intro inside
  exact Ensures.reads ⟨not_not.mp inside, rfl, rfl⟩

/-- The free list is these pages, in this order. -/
structure Listed (link : Link) (m : Mm) (pages : List Nat) : Prop where
  chain : Chain (word m.mem) m.freelist pages
  distinct : pages.Nodup
  page : ∀ pg ∈ pages, IsPage link pg

/-- The words of a page have bits 0 and 1 clear. -/
def Clean (mem : Nat → UInt8) (pg : Nat) : Prop := ∀ k, k < 512 → word mem (pg + 8 * k) % 4 = 0

/-- The free list is these pages, and all of them are clean. -/
structure FreeList (link : Link) (m : Mm) (pages : List Nat) : Prop extends
    Listed link m pages where
  clean : ∀ pg ∈ pages, Clean m.mem pg

theorem Listed.congr {m t : Mm} {pages : List Nat} (free : Listed link m pages)
    (head : t.freelist = m.freelist) (same : ∀ pg ∈ pages, SameOn m.mem t.mem pg) :
    Listed link t pages := by
  refine ⟨?_, free.distinct, free.page⟩
  rw [head]
  apply free.chain.congr
  intro pg member
  exact (same pg member).word_eq (o := 0) (by decide)

theorem Clean.congr {mem mem' : Nat → UInt8} {pg : Nat} (clean : Clean mem pg)
    (same : SameOn mem mem' pg) : Clean mem' pg := by
  intro k bound
  rw [same.slot bound]
  exact clean k bound

theorem FreeList.congr {m t : Mm} {pages : List Nat} (free : FreeList link m pages)
    (head : t.freelist = m.freelist) (same : ∀ pg ∈ pages, SameOn m.mem t.mem pg) :
    FreeList link t pages :=
  ⟨free.toListed.congr head same, fun pg member => (free.clean pg member).congr (same pg member)⟩

/-- A free page comes off the list; an empty list gives the null pointer. -/
theorem Listed.kalloc_yields {m : Mm} {pages : List Nat} (free : Listed link m pages) :
    Yields (kalloc link) m fun r t => t.mem = m.mem ∧
      ((pages = [] ∧ r = 0 ∧ t = m) ∨ ∃ rest, pages = r :: rest ∧ Listed link t rest) := by
  unfold kalloc
  refine Yields.step (t := m) (a := m.freelist) rfl ?_
  cases pages with
  | nil =>
      have zero : m.freelist = 0 := free.chain.head_eq_zero.mpr rfl
      rw [if_pos zero]
      exact ⟨0, m, rfl, rfl, Or.inl ⟨rfl, rfl, rfl⟩⟩
  | cons pg rest =>
      obtain ⟨head, nonzero, tail⟩ := free.chain.uncons
      rw [head, if_neg nonzero]
      have page := free.page pg List.mem_cons_self
      refine Yields.step (load64_run (page.inRam (o := 0) (by decide)) m) ?_
      refine ⟨pg, _, rfl, rfl, Or.inr ⟨rest, rfl, tail, ?_, ?_⟩⟩
      · exact free.distinct.of_cons
      · exact fun pg member => free.page pg (List.mem_cons_of_mem _ member)

theorem kalloc_yields {m : Mm} {pages : List Nat} (free : FreeList link m pages) :
    Yields (kalloc link) m fun r t => t.mem = m.mem ∧
      ((pages = [] ∧ r = 0 ∧ FreeList link t []) ∨
        ∃ rest, pages = r :: rest ∧ FreeList link t rest) := by
  refine free.toListed.kalloc_yields.mono ?_
  rintro r t ⟨mem, outcome⟩
  refine ⟨mem, ?_⟩
  rcases outcome with ⟨rfl, zero, rfl⟩ | ⟨rest, rfl, listed⟩
  · exact Or.inl ⟨rfl, zero, free⟩
  · refine Or.inr ⟨rest, rfl, listed, ?_⟩
    intro pg member
    rw [mem]
    exact free.clean pg (List.mem_cons_of_mem _ member)

/-- A page goes back to the head of the list; only its first word changes. -/
theorem Listed.kfree_yields {m : Mm} {pages : List Nat} {pa : Nat} (free : Listed link m pages)
    (page : IsPage link pa) (taken : pa ∉ pages) :
    Yields (kfree link pa) m fun _ t => Listed link t (pa :: pages) ∧
      t.mem = putBytes m.mem pa (leBytes 8 m.freelist) := by
  have next : m.freelist < 2 ^ 64 := by
    cases pages with
    | nil => rw [free.chain.head_eq_zero.mpr rfl]; decide
    | cons pg rest =>
        rw [free.chain.uncons.1]
        have upper := (free.page pg List.mem_cons_self).upper
        simp only [PHYSTOP, KERNBASE, PGSIZE] at upper
        omega
  unfold kfree
  refine Yields.step (stopIf_of_not _ m ?_) ?_
  · have base := link.base_le
    have aligned := page.aligned
    have lower := page.lower
    have upper := page.upper
    simp only [PGSIZE] at *
    omega
  refine Yields.step (t := m) (a := m.freelist) rfl ?_
  refine Yields.step (store64_run (page.inRam (o := 0) (by decide)) _ m) ?_
  refine ⟨(), _, rfl, ⟨?_, ?_, ?_⟩, rfl⟩
  · apply Chain.cons page.pos
    change Chain (word (putBytes m.mem pa (leBytes 8 m.freelist)))
      (word (putBytes m.mem pa (leBytes 8 m.freelist)) pa) pages
    rw [word_store_same m.mem pa next]
    apply free.chain.congr
    intro pg member
    have different : pg ≠ pa := fun same => taken (same ▸ member)
    exact (page.store_other (free.page pg member) different (o := 0)
      (by rw [leBytes_length]; decide) m.mem).word_eq (o := 0) (by decide)
  · exact List.nodup_cons.mpr ⟨taken, free.distinct⟩
  · intro pg member
    rcases List.mem_cons.mp member with rfl | member
    · exact page
    · exact free.page pg member

end

/-- A memory in which pages from `first` on are linked to a list in the order of
their addresses, and every other byte is zero. -/
def linked (first : Nat) : (count : Nat) → Nat → UInt8
  | 0 => fun _ => 0
  | count + 1 =>
      putBytes (linked (first + PGSIZE) count) first
        (leBytes 8 (if count = 0 then 0 else first + PGSIZE))

theorem linked_below {first count a : Nat} (below : a < first) : linked first count a = 0 := by
  induction count generalizing first with
  | zero => rfl
  | succ count ih =>
      unfold linked
      rw [putBytes_outside (Or.inl below)]
      exact ih (by omega)

/-- The pages of such a list. -/
def linkedPages (first : Nat) : (count : Nat) → List Nat
  | 0 => []
  | count + 1 => first :: linkedPages (first + PGSIZE) count

theorem mem_linkedPages {first count pg : Nat} (member : pg ∈ linkedPages first count) :
    first ≤ pg ∧ pg + PGSIZE ≤ first + count * PGSIZE ∧ pg % PGSIZE = first % PGSIZE := by
  induction count generalizing first with
  | zero => cases member
  | succ count ih =>
      simp only [PGSIZE] at ih ⊢
      rcases List.mem_cons.mp member with rfl | member
      · omega
      · have rest := ih member
        simp only [PGSIZE] at rest
        omega

theorem linked_freeList {link : Link} {first count : Nat} (aligned : first % PGSIZE = 0)
    (lower : link.base ≤ first) (upper : first + count * PGSIZE ≤ PHYSTOP) :
    FreeList link ⟨linked first count, if count = 0 then 0 else first⟩
      (linkedPages first count) := by
  induction count generalizing first with
  | zero => exact ⟨⟨Chain.nil, List.nodup_nil, fun _ member => nomatch member⟩,
      fun _ member => nomatch member⟩
  | succ count ih =>
      have rest : FreeList link ⟨linked (first + PGSIZE) count,
          if count = 0 then 0 else first + PGSIZE⟩ (linkedPages (first + PGSIZE) count) :=
        ih (by simp only [PGSIZE] at *; omega) (by omega)
          (by simp only [PGSIZE] at *; omega)
      have page : IsPage link first := by
        refine ⟨aligned, lower, ?_⟩
        simp only [PGSIZE] at *
        omega
      have apart : ∀ pg ∈ linkedPages (first + PGSIZE) count, pg ≠ first := by
        intro pg member
        have bounds := mem_linkedPages member
        simp only [PGSIZE] at bounds
        omega
      have kept : ∀ pg ∈ linkedPages (first + PGSIZE) count,
          SameOn (linked (first + PGSIZE) count) (linked first (count + 1)) pg := by
        intro pg member
        exact page.store_other (rest.page pg member) (apart pg member) (o := 0)
          (by rw [leBytes_length]; decide) _
      have next : word (linked first (count + 1)) first =
          if count = 0 then 0 else first + PGSIZE := by
        apply word_store_same
        simp only [PGSIZE, PHYSTOP, KERNBASE] at *
        split <;> omega
      refine ⟨⟨?_, ?_, ?_⟩, ?_⟩
      · rw [if_neg (Nat.succ_ne_zero count)]
        refine Chain.cons page.pos ?_
        simp only
        rw [next]
        exact rest.chain.congr fun pg member => (kept pg member).word_eq (o := 0) (by decide)
      · exact List.nodup_cons.mpr ⟨fun member => apart first member rfl, rest.distinct⟩
      · intro pg member
        rcases List.mem_cons.mp member with rfl | member
        · exact page
        · exact rest.page pg member
      · intro pg member
        rcases List.mem_cons.mp member with rfl | member
        · intro k bound
          by_cases head : k = 0
          · simp only [head, Nat.mul_zero, Nat.add_zero]
            rw [next]
            simp only [PGSIZE] at *
            split <;> omega
          · have zero : word (linked pg (count + 1)) (pg + 8 * k) = word (fun _ => 0) (pg + 8 * k) := by
              refine (leNat_putBytes_apart (Or.inr ?_)).trans (leNat_congr ?_)
              · rw [leBytes_length]
                omega
              · intro a _ above
                apply linked_below
                simp only [PGSIZE]
                omega
            simp only
            rw [zero]
            simp [word, leNat]
        · exact (rest.clean pg member).congr (kept pg member)

/-- A kernel image of half a megabyte, with padding in the frame of `kexec`. -/
def smallLink : Link where
  kend := 0x100000
  etext := 0x90000
  trampoline := 0x90000
  fds := 0x98000
  forkret := 0x90800
  spare := fun _ => true
  image := by decide
  text := by decide
  page := by decide
  below := by decide

/-- The memory over that image with this many free pages. -/
def smallMm (count : Nat) : Mm := ⟨linked 0x100000 count, 0x100000⟩

theorem smallMm_freeList {count : Nat} (some : count ≠ 0) (few : count ≤ 32000) :
    FreeList smallLink (smallMm count) (linkedPages 0x100000 count) := by
  have list : FreeList smallLink ⟨linked 0x100000 count, if count = 0 then 0 else 0x100000⟩
      (linkedPages 0x100000 count) :=
    linked_freeList (by decide) (by decide) (by simp only [PGSIZE, PHYSTOP, KERNBASE]; omega)
  rw [if_neg some] at list
  exact list

end Gcgos.Kernel
