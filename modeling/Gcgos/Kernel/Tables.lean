import Gcgos.Kernel.Pages
import Gcgos.Lib.Radix
import Mathlib.Data.List.Infix

/-!
# Page tables

A page table is a root page whose words lead to tables whose words lead to
tables of pages. `walk` and `mappages` are followed through memory: whatever
they store, they store into tables of the root they were given and into pages
they took from the free list.
-/

set_option autoImplicit false

namespace Gcgos.Kernel

open Act ByteMap Radix

theorem PX_eq (level va : Nat) : PX level va = va / 2 ^ (12 + 9 * level) % 512 := by
  unfold PX
  rw [Nat.shiftRight_eq_div_pow]
  exact Nat.and_two_pow_sub_one_eq_mod _ 9

theorem PX_lt (level va : Nat) : PX level va < 512 := by
  rw [PX_eq]
  exact Nat.mod_lt _ (by decide)

theorem PTE2PA_eq (pte : Nat) : PTE2PA pte = pte / 4096 % 2 ^ 36 * 4096 := by
  unfold PTE2PA
  apply Nat.eq_of_testBit_eq
  intro i
  have mask : (0x0000FFFFFFFFF000 : Nat) = 2 ^ 12 * (2 ^ 36 - 1) := by decide
  have shape : pte / 4096 % 2 ^ 36 * 4096 = 2 ^ 12 * (pte / 2 ^ 12 % 2 ^ 36) :=
    Nat.mul_comm _ _
  rw [mask, shape, Nat.testBit_and, Nat.testBit_two_pow_mul, Nat.testBit_two_pow_mul,
    Nat.testBit_two_pow_sub_one, Nat.testBit_mod_two_pow, Nat.testBit_div_two_pow]
  by_cases high : 12 ≤ i
  · have same : i - 12 + 12 = i := by omega
    simp [high, same, Bool.and_comm]
  · simp [high]

theorem PA2PTE_eq (pa : Nat) : PA2PTE pa = pa / 4096 * 4096 := by
  unfold PA2PTE
  rw [Nat.shiftLeft_eq, Nat.shiftRight_eq_div_pow]

theorem low_bits (pte mask : Nat) (small : mask < 4) : pte &&& mask = pte % 4 &&& mask := by
  have bound : pte &&& mask < 2 ^ 2 := Nat.and_lt_two_pow _ small
  have split : (pte &&& mask) % 2 ^ 2 = pte % 2 ^ 2 &&& mask % 2 ^ 2 := Nat.and_mod_two_pow
  have whole : mask % 2 ^ 2 = mask := Nat.mod_eq_of_lt small
  rw [Nat.mod_eq_of_lt bound, whole] at split
  exact split

/-- Both bits of a table entry. -/
theorem table_bits (pte : Nat) :
    (pte &&& PTE_VALID ≠ 0 ∧ pte &&& PTE_TABLE ≠ 0) ↔ pte % 4 = 3 := by
  rw [low_bits pte PTE_VALID (by decide), low_bits pte PTE_TABLE (by decide)]
  have all : ∀ x, x < 4 → ((x &&& PTE_VALID ≠ 0 ∧ x &&& PTE_TABLE ≠ 0) ↔ x = 3) := by decide
  exact all _ (Nat.mod_lt _ (by decide))

theorem valid_bits (pte : Nat) : pte &&& PTE_V ≠ 0 ↔ pte % 4 ≠ 0 := by
  have mask : pte &&& PTE_V = pte % 4 := Nat.and_two_pow_sub_one_eq_mod pte 2
  rw [mask]

/-- The entry that `walk` makes for a new table. -/
theorem table_entry {pg : Nat} (aligned : pg % PGSIZE = 0) :
    PA2PTE pg ||| PTE_VALID ||| PTE_TABLE = pg + 3 := by
  have whole : PA2PTE pg = 2 ^ 12 * (pg / 4096) := by
    rw [PA2PTE_eq]
    exact Nat.mul_comm _ _
  rw [whole, Nat.or_assoc]
  have low : PTE_VALID ||| PTE_TABLE = 3 := by decide
  rw [low, ← Nat.two_pow_add_eq_or_of_lt (by decide)]
  simp only [PGSIZE] at aligned
  omega

/-- The entry that `mappages` makes. -/
def pteOf (pa perm : Nat) : Nat := (PA2PTE pa ||| perm ||| PTE_AF ||| PTE_V) % 2 ^ 64

theorem pteOf_valid (pa perm : Nat) : pteOf pa perm % 4 = 3 := by
  have low : pteOf pa perm % 2 ^ 2 = (PA2PTE pa ||| perm ||| PTE_AF ||| PTE_V) % 2 ^ 2 :=
    Nat.mod_mod_of_dvd _ (by decide)
  have small : (PA2PTE pa ||| perm ||| PTE_AF) % 2 ^ 2 < 4 := Nat.mod_lt _ (by decide)
  have split : pteOf pa perm % 2 ^ 2 = (PA2PTE pa ||| perm ||| PTE_AF) % 2 ^ 2 ||| 3 := by
    rw [low, Nat.or_mod_two_pow]
    rfl
  have all : ∀ x, x < 4 → x ||| 3 = 3 := by decide
  rw [all _ small] at split
  exact split

/-- The table that entry `i` of a table leads to. -/
def child (mem : Nat → UInt8) (t : Nat) (i : Fin 512) : Option Nat :=
  if word mem (t + 8 * i) % 4 = 3 then some (PTE2PA (word mem (t + 8 * i))) else none

def px (level va : Nat) : Fin 512 := ⟨PX level va, PX_lt level va⟩

/-- The page is one of the tables of this root. -/
def IsTable (mem : Nat → UInt8) (root pg : Nat) : Prop :=
  ∃ q : List (Fin 512), q.length ≤ 2 ∧ descend (child mem) root q = some pg

/-- The indices that lead to the last-level table of an address. -/
def leafPath (va : Nat) : List (Fin 512) := [px 1 va, px 2 va]

theorem leafPath_length (va : Nat) : (leafPath va).length = 2 := rfl

/-- The valid last-level entry of an address. -/
def translate (mem : Nat → UInt8) (root va : Nat) : Option Nat :=
  (descend (child mem) root (leafPath va)).bind fun t =>
    if word mem (t + 8 * px 0 va) % 4 = 0 then none else some (word mem (t + 8 * px 0 va))

theorem child_congr {mem mem' : Nat → UInt8} {t : Nat} (same : SameOn mem mem' t) (i : Fin 512) :
    child mem' t i = child mem t i := by
  unfold child
  rw [same.slot i.isLt]

theorem tables_congr {mem mem' : Nat → UInt8} {root : Nat}
    (same : ∀ t, IsTable mem root t → SameOn mem mem' t) (q : List (Fin 512))
    (short : q.length ≤ 2) : descend (child mem') root q = descend (child mem) root q := by
  apply Radix.descend_congr _ q short
  intro p t bound there i
  exact child_congr (same t ⟨p, by omega, there⟩) i

theorem translate_congr {mem mem' : Nat → UInt8} {root : Nat}
    (same : ∀ t, IsTable mem root t → SameOn mem mem' t) (va : Nat) :
    translate mem' root va = translate mem root va := by
  unfold translate
  rw [tables_congr same (leafPath va) (leafPath_length va).le]
  cases there : descend (child mem) root (leafPath va) with
  | none => simp only [Option.bind_none]
  | some t =>
      simp only [Option.bind_some]
      rw [(same t ⟨leafPath va, (leafPath_length va).le, there⟩).slot (px 0 va).isLt]

section

variable {link : Link}

/-- A root whose tables are pages of their own, and the free pages beside
them. -/
structure Space (link : Link) (m : Mm) (root : Nat) (free : List Nat) : Prop where
  list : FreeList link m free
  apart : Radix.Apart (child m.mem) root 2
  page : ∀ t, IsTable m.mem root t → IsPage link t
  held : ∀ t, IsTable m.mem root t → t ∉ free

/-- Stores that miss the free pages and the tables. -/
theorem Space.congr {m u : Mm} {root : Nat} {free : List Nat} (space : Space link m root free)
    (head : u.freelist = m.freelist) (pages : ∀ pg ∈ free, SameOn m.mem u.mem pg)
    (tables : ∀ t, IsTable m.mem root t → SameOn m.mem u.mem t) : Space link u root free := by
  have same := tables_congr tables
  have back : ∀ t, IsTable u.mem root t → IsTable m.mem root t := by
    intro t reached
    obtain ⟨q, short, there⟩ := reached
    rw [same q short] at there
    exact ⟨q, short, there⟩
  refine ⟨space.list.congr head pages, ?_, fun t reached => space.page t (back t reached),
    fun t reached => space.held t (back t reached)⟩
  apply Radix.Apart.congr _ space.apart
  intro p t bound there i
  exact child_congr (tables t ⟨p, by omega, there⟩) i

/-- From `m` to `u` the tables of a root grew into pages of the free list, and
nothing else was stored to. -/
structure Grew (link : Link) (m u : Mm) (root : Nat) (free rest : List Nat) : Prop where
  space : Space link u root rest
  taken : rest <:+ free
  owned : ∀ t, IsTable u.mem root t → IsTable m.mem root t ∨ t ∈ free
  kept : ∀ t, IsTable m.mem root t → IsTable u.mem root t
  frame : ∀ pg, IsPage link pg → ¬IsTable m.mem root pg → (pg ∈ free → pg ∈ rest) →
    SameOn m.mem u.mem pg

theorem Grew.refl {m : Mm} {root : Nat} {free : List Nat} (space : Space link m root free) :
    Grew link m m root free free :=
  ⟨space, List.suffix_refl free, fun _ reached => Or.inl reached, fun _ reached => reached,
    fun pg _ _ _ => SameOn.refl m.mem pg⟩

theorem Grew.trans {m u v : Mm} {root : Nat} {free mid rest : List Nat}
    (left : Grew link m u root free mid) (right : Grew link u v root mid rest) :
    Grew link m v root free rest := by
  refine ⟨right.space, right.taken.trans left.taken, ?_,
    fun t reached => right.kept t (left.kept t reached), ?_⟩
  · intro t reached
    rcases right.owned t reached with before | fresh
    · exact left.owned t before
    · exact Or.inr (left.taken.subset fresh)
  · intro pg page notTable free
    have still : pg ∈ mid → pg ∈ rest := fun member => free (left.taken.subset member)
    have first : SameOn m.mem u.mem pg :=
      left.frame pg page notTable fun member => right.taken.subset (free member)
    apply first.trans
    apply right.frame pg page _ still
    intro reached
    rcases left.owned pg reached with before | fresh
    · exact notTable before
    · exact right.space.held pg (right.kept pg reached) (free fresh)

/-- A store to a word of a page, seen through the words of all pages. -/
theorem word_store_slot {t u : Nat} (pageT : IsPage link t) (alignedU : u % PGSIZE = 0)
    (i j : Fin 512) (mem : Nat → UInt8) {value : Nat} (fits : value < 2 ^ 64) :
    word (putBytes mem (t + 8 * i) (leBytes 8 value)) (u + 8 * j) =
      if u = t ∧ j = i then value else word mem (u + 8 * j) := by
  by_cases same : u = t ∧ j = i
  · obtain ⟨rfl, rfl⟩ := same
    rw [if_pos ⟨rfl, rfl⟩]
    exact word_store_same mem _ fits
  · rw [if_neg same]
    apply leNat_putBytes_apart
    rw [leBytes_length]
    have alignedT := pageT.aligned
    have boundI := i.isLt
    have boundJ := j.isLt
    have different : u ≠ t ∨ j.val ≠ i.val := by
      by_contra both
      push Not at both
      exact same ⟨both.1, Fin.ext both.2⟩
    simp only [PGSIZE] at *
    omega

theorem IsPage.pte {pg : Nat} (page : IsPage link pg) :
    pg + 3 < 2 ^ 64 ∧ (pg + 3) % 4 = 3 ∧ PTE2PA (pg + 3) = pg := by
  have aligned := page.aligned
  have upper := page.upper
  rw [PTE2PA_eq]
  simp only [PGSIZE, PHYSTOP, KERNBASE] at *
  omega

/-- A store of a table entry, seen through `child`. -/
theorem child_store {t u new : Nat} (pageT : IsPage link t) (pageNew : IsPage link new)
    (alignedU : u % PGSIZE = 0) (i j : Fin 512) (mem : Nat → UInt8) :
    child (putBytes mem (t + 8 * i) (leBytes 8 (new + 3))) u j =
      if u = t ∧ j = i then some new else child mem u j := by
  have entry := pageNew.pte
  unfold child
  rw [word_store_slot pageT alignedU i j mem entry.1]
  by_cases same : u = t ∧ j = i
  · rw [if_pos same, if_pos same, if_pos entry.2.1, entry.2.2]
  · rw [if_neg same, if_neg same]

section

variable {m u : Mm} {root : Nat} {free rest : List Nat} {t new : Nat} {i : Fin 512}
  {p : List (Fin 512)}

/-- A page from the free list becomes the table behind an unused entry. -/
theorem Space.grown (space : Space link m root (new :: rest)) (short : p.length < 2)
    (there : descend (child m.mem) root p = some t) (unused : child m.mem t i = none) :
    Radix.Grown (child m.mem) (child (putBytes m.mem (t + 8 * i) (leBytes 8 (new + 3)))) root 2
      t i new := by
  have member : new ∈ new :: rest := List.mem_cons_self
  have pageNew := space.list.page new member
  have pageT := space.page t ⟨p, by omega, there⟩
  have fresh : ∀ q : List (Fin 512), q.length ≤ 2 → descend (child m.mem) root q ≠ some new :=
    fun q bound reached => space.held new ⟨q, bound, reached⟩ member
  have different : new ≠ t := fun same => fresh p (by omega) (by rw [same]; exact there)
  refine ⟨unused, fresh, ?_, ?_, ?_⟩
  · rw [child_store pageT pageNew pageT.aligned, if_pos ⟨rfl, rfl⟩]
  · intro j
    rw [child_store pageT pageNew pageNew.aligned, if_neg fun both => different both.1]
    have clean := space.list.clean new member j j.isLt
    unfold child
    rw [if_neg (by omega)]
  · intro q v j bound reached other
    have pageV := space.page v ⟨q, bound, reached⟩
    rw [child_store pageT pageNew pageV.aligned, if_neg]
    intro both
    rcases other with table | slot
    · exact table both.1
    · exact slot both.2

/-- The word of a last-level table is not the entry that was stored. -/
theorem Space.leaf_kept (space : Space link m root (new :: rest)) (short : p.length < 2)
    (there : descend (child m.mem) root p = some t) {leaf va : Nat}
    (reached : descend (child m.mem) root (leafPath va) = some leaf) (j : Fin 512) :
    word (putBytes m.mem (t + 8 * i) (leBytes 8 (new + 3))) (leaf + 8 * j) =
      word m.mem (leaf + 8 * j) := by
  have pageT := space.page t ⟨p, by omega, there⟩
  have pageLeaf := space.page leaf ⟨leafPath va, (leafPath_length va).le, reached⟩
  have pageNew := space.list.page new List.mem_cons_self
  rw [word_store_slot pageT pageLeaf.aligned i j m.mem pageNew.pte.1, if_neg]
  intro both
  rw [both.1] at reached
  have same := space.apart (leafPath va) p t (leafPath_length va).le (by omega) reached there
  have lengths := congrArg List.length same
  rw [leafPath_length] at lengths
  omega

/-- A new table holds no valid entry, so no address is translated anew. -/
theorem Space.translate_grown (space : Space link m root (new :: rest)) (short : p.length < 2)
    (there : descend (child m.mem) root p = some t) (unused : child m.mem t i = none) (va : Nat) :
    translate (putBytes m.mem (t + 8 * i) (leBytes 8 (new + 3))) root va =
      translate m.mem root va := by
  have grown := space.grown short there unused
  have both := Radix.descend_grown space.apart grown short there (leafPath va)
    (leafPath_length va).le
  have member : new ∈ new :: rest := List.mem_cons_self
  unfold translate
  by_cases through : leafPath va = i :: p
  · have before : descend (child m.mem) root (leafPath va) = none := by
      rw [through, Radix.descend_cons i there]
      exact unused
    have pageT := space.page t ⟨p, by omega, there⟩
    have pageNew := space.list.page new member
    have different : new ≠ t := fun same => grown.fresh p (by omega) (by rw [same]; exact there)
    have clean := space.list.clean new member (px 0 va) (px 0 va).isLt
    have entry : word (putBytes m.mem (t + 8 * i) (leBytes 8 (new + 3))) (new + 8 * (px 0 va)) %
        4 = 0 := by
      rw [word_store_slot pageT pageNew.aligned i (px 0 va) m.mem pageNew.pte.1,
        if_neg fun both => different both.1]
      exact clean
    rw [both.1 through, before]
    simp only [Option.bind_some, Option.bind_none, if_pos entry]
  · rw [both.2 through]
    cases reached : descend (child m.mem) root (leafPath va) with
    | none => simp only [Option.bind_none]
    | some leaf =>
        simp only [Option.bind_some]
        rw [space.leaf_kept short there reached]

/-- The step of `walk` that takes a page for a table. -/
theorem Space.grew (space : Space link m root (new :: rest)) (list : FreeList link u rest)
    (mem : u.mem = m.mem) (short : p.length < 2) (there : descend (child m.mem) root p = some t)
    (unused : child m.mem t i = none) :
    Grew link m (u.store (t + 8 * i) (leBytes 8 (new + 3))) root (new :: rest) rest := by
  have grown := space.grown short there unused
  have member : new ∈ new :: rest := List.mem_cons_self
  have tableT : IsTable m.mem root t := ⟨p, by omega, there⟩
  have pageT := space.page t tableT
  have bound : 8 * i.val + (leBytes 8 (new + 3)).length ≤ PGSIZE := by
    rw [leBytes_length]
    have inside := i.isLt
    simp only [PGSIZE]
    omega
  have others : ∀ pg, IsPage link pg → pg ≠ t →
      SameOn m.mem (u.store (t + 8 * i) (leBytes 8 (new + 3))).mem pg := by
    intro pg page different
    simp only [Mm.store]
    rw [mem]
    exact pageT.store_other page different bound m.mem
  have tables : ∀ v, IsTable (u.store (t + 8 * i) (leBytes 8 (new + 3))).mem root v →
      IsTable m.mem root v ∨ v = new := by
    intro v reached
    obtain ⟨q, short', at_v⟩ := reached
    simp only [Mm.store] at at_v
    rw [mem] at at_v
    rcases descend_grown_cases space.apart grown short there short' at_v with ⟨-, same⟩ | ⟨-, old⟩
    · exact Or.inr same
    · exact Or.inl ⟨q, short', old⟩
  have notFree : t ∉ rest := fun inside => space.held t tableT (List.mem_cons_of_mem _ inside)
  refine ⟨⟨?_, ?_, ?_, ?_⟩, List.suffix_cons new rest, ?_, ?_, ?_⟩
  · apply list.congr (t := u.store (t + 8 * i) (leBytes 8 (new + 3))) rfl
    intro pg inside
    have same := others pg (list.page pg inside) fun equal => notFree (equal ▸ inside)
    rw [← mem] at same
    exact same
  · simp only [Mm.store]
    rw [mem]
    exact space.apart.grown grown short there
  · intro v reached
    rcases tables v reached with old | same
    · exact space.page v old
    · rw [same]
      exact space.list.page new member
  · intro v reached inside
    rcases tables v reached with old | same
    · exact space.held v old (List.mem_cons_of_mem _ inside)
    · rw [same] at inside
      exact (List.nodup_cons.mp space.list.distinct).1 inside
  · intro v reached
    rcases tables v reached with old | same
    · exact Or.inl old
    · rw [same]
      exact Or.inr member
  · intro v reached
    obtain ⟨q, short', at_v⟩ := reached
    refine ⟨q, short', ?_⟩
    simp only [Mm.store]
    rw [mem]
    rw [(descend_grown space.apart grown short there q short').2]
    · exact at_v
    · intro same
      rw [same, descend_cons i there, unused] at at_v
      cases at_v
  · intro pg page notTable _
    exact others pg page fun same => notTable (same ▸ tableT)

/-- One level of `walk`: it finds the table, or makes one, or memory is out. -/
theorem walkLevel_yields (space : Space link m root free) (short : p.length < 2)
    (there : descend (child m.mem) root p = some t) (va level : Nat) :
    Yields (walkLevel link t va level true) m fun r v => ∃ rest, Grew link m v root free rest ∧
      free.length ≤ rest.length + 1 ∧ (∀ a, translate v.mem root a = translate m.mem root a) ∧
      ((r = none ∧ rest = []) ∨
        ∃ next, r = some next ∧ descend (child v.mem) root (px level va :: p) = some next) := by
  have page := space.page t ⟨p, by omega, there⟩
  have inside : InRam link (t + 8 * PX level va) 8 := by
    apply page.inRam
    have bound := PX_lt level va
    simp only [PGSIZE]
    omega
  unfold walkLevel
  refine Yields.step (load64_run inside m) ?_
  by_cases valid : word m.mem (t + 8 * PX level va) % 4 = 3
  · rw [if_pos ((table_bits _).mpr valid)]
    refine ⟨_, m, rfl, free, Grew.refl space, by omega, fun _ => rfl, Or.inr ⟨_, rfl, ?_⟩⟩
    rw [descend_cons _ there]
    unfold child
    exact if_pos valid
  · rw [if_neg (fun both => valid ((table_bits _).mp both)), if_neg (by decide)]
    have unused : child m.mem t (px level va) = none := by
      unfold child
      exact if_neg valid
    refine Yields.seq (kalloc_yields space.list) ?_
    intro r v taken
    obtain ⟨mem, ⟨empty, zero, list⟩ | ⟨rest, pages, list⟩⟩ := taken
    · rw [if_pos zero]
      have head : v.freelist = m.freelist := by
        rw [list.chain.head_eq_zero.mpr rfl]
        rw [empty] at space
        exact (space.list.chain.head_eq_zero.mpr rfl).symm
      refine ⟨none, v, rfl, free, ?_, by omega, fun a => by rw [mem], Or.inl ⟨rfl, empty⟩⟩
      have same : v = m := by
        cases v
        cases m
        simp only at mem head
        rw [mem, head]
      rw [same]
      exact Grew.refl space
    · subst pages
      have nonzero := (space.list.page r List.mem_cons_self).pos
      have aligned := (space.list.page r List.mem_cons_self).aligned
      rw [if_neg nonzero, table_entry aligned]
      refine Yields.step (store64_run inside _ v) ?_
      have grew := space.grew list mem short there unused
      refine ⟨_, _, rfl, rest, grew, by rw [List.length_cons], ?_, Or.inr ⟨r, rfl, ?_⟩⟩
      · intro a
        have same := space.translate_grown short there unused a
        rw [← mem] at same ⊢
        exact same
      · have grown := space.grown short there unused
        have both := descend_grown space.apart grown short there (px level va :: p)
          (by rw [List.length_cons]; omega)
        simp only [Mm.store]
        rw [mem]
        exact both.1 rfl

end

section

variable {m : Mm} {root : Nat} {free : List Nat} {va : Nat}

theorem walk_yields (space : Space link m root free) (low : va < MAXVA) :
    Yields (walk link root va true) m fun r v => ∃ rest, Grew link m v root free rest ∧
      free.length ≤ rest.length + 2 ∧ (∀ a, translate v.mem root a = translate m.mem root a) ∧
      ((r = none ∧ rest = []) ∨ ∃ leaf : Nat, r = some (leaf + 8 * px 0 va) ∧
        descend (child v.mem) root (leafPath va) = some leaf) := by
  unfold walk
  refine Yields.step (Act.stopIf_of_not _ m (by omega)) ?_
  refine Yields.seq (walkLevel_yields space (by decide) (rfl : descend (child m.mem) root [] = some root)
    va 2) ?_
  intro r u first
  obtain ⟨mid, grew, few, same, ⟨none, out⟩ | ⟨next, found, there⟩⟩ := first
  · subst none
    exact ⟨none, u, rfl, mid, grew, by omega, same, Or.inl ⟨rfl, out⟩⟩
  · subst found
    refine Yields.seq (walkLevel_yields grew.space (by rw [List.length_singleton]; decide) there va 1) ?_
    intro r v second
    obtain ⟨rest, grew', few', same', ⟨none, out⟩ | ⟨leaf, found, there'⟩⟩ := second
    · subst none
      exact ⟨none, v, rfl, rest, grew.trans grew', by omega, fun a => (same' a).trans (same a),
        Or.inl ⟨rfl, out⟩⟩
    · subst found
      exact ⟨_, v, rfl, rest, grew.trans grew', by omega, fun a => (same' a).trans (same a),
        Or.inr ⟨leaf, rfl, there'⟩⟩

theorem walkLevel_run {t : Nat} (page : IsPage link t) (va level : Nat) :
    walkLevel link t va level false m = .ok (child m.mem t (px level va), m) := by
  have inside : InRam link (t + 8 * PX level va) 8 := by
    apply page.inRam
    have bound := PX_lt level va
    simp only [PGSIZE]
    omega
  unfold walkLevel
  rw [Act.bind_of_ok (load64_run inside m)]
  by_cases valid : word m.mem (t + 8 * PX level va) % 4 = 3
  · have next : child m.mem t (px level va) =
        some (PTE2PA (word m.mem (t + 8 * PX level va))) := if_pos valid
    rw [if_pos ((table_bits _).mpr valid), next]
    rfl
  · have none : child m.mem t (px level va) = none := if_neg valid
    rw [if_neg (fun both => valid ((table_bits _).mp both)), if_pos rfl, none]
    rfl

/-- Without `alloc`, `walk` reads its way to the last-level entry. -/
theorem walk_run (pages : ∀ t, IsTable m.mem root t → IsPage link t) (low : va < MAXVA) :
    walk link root va false m =
      .ok ((descend (child m.mem) root (leafPath va)).map fun leaf => leaf + 8 * px 0 va, m) := by
  have first := pages root ⟨[], by decide, rfl⟩
  unfold walk
  rw [Act.bind_of_ok (Act.stopIf_of_not _ m (by omega)), Act.bind_of_ok (walkLevel_run first va 2)]
  have top : descend (child m.mem) root [px 2 va] = child m.mem root (px 2 va) :=
    descend_cons _ descend_nil
  cases next : child m.mem root (px 2 va) with
  | none =>
      rw [leafPath, descend_cons_none _ (top.trans next)]
      rfl
  | some t =>
      have page := pages t ⟨[px 2 va], by rw [List.length_singleton]; decide, top.trans next⟩
      simp only
      rw [Act.bind_of_ok (walkLevel_run page va 1), leafPath,
        descend_cons _ (top.trans next)]
      cases child m.mem t (px 1 va) with
      | none => rfl
      | some leaf => rfl

/-- The indices of an address name its page. -/
theorem same_page_iff {a : Nat} (lowA : a < MAXVA) (low : va < MAXVA) :
    (leafPath a = leafPath va ∧ px 0 a = px 0 va) ↔ a / PGSIZE = va / PGSIZE := by
  have values : ∀ level, px level a = px level va ↔
      a / 2 ^ (12 + 9 * level) % 512 = va / 2 ^ (12 + 9 * level) % 512 := by
    intro level
    rw [← PX_eq, ← PX_eq]
    exact Fin.ext_iff
  have zero := values 0
  have one := values 1
  have two := values 2
  simp only [leafPath, List.cons.injEq, and_true, zero, one, two]
  simp only [MAXVA, PGSIZE, Nat.reduceMul, Nat.reduceAdd, Nat.reducePow] at *
  omega

/-- The tables above the last level are other pages than the one that is stored
to. -/
theorem Space.leaf_above (space : Space link m root free) {leaf : Nat}
    (there : descend (child m.mem) root (leafPath va) = some leaf) (value : Nat) :
    ∀ (p : List (Fin 512)) t, p.length < 2 → descend (child m.mem) root p = some t →
      ∀ j, child (m.store (leaf + 8 * px 0 va) (leBytes 8 value)).mem t j = child m.mem t j := by
  intro p t short at_t j
  have pageLeaf := space.page leaf ⟨leafPath va, (leafPath_length va).le, there⟩
  have bound : 8 * (px 0 va).val + (leBytes 8 value).length ≤ PGSIZE := by
    rw [leBytes_length]
    have inside := (px 0 va).isLt
    simp only [PGSIZE]
    omega
  apply child_congr
  apply pageLeaf.store_other (space.page t ⟨p, by omega, at_t⟩) _ bound m.mem
  intro same
  rw [same] at at_t
  have paths := space.apart p (leafPath va) leaf (by omega) (leafPath_length va).le at_t there
  have lengths := congrArg List.length paths
  rw [leafPath_length] at lengths
  omega

/-- The store of a last-level entry translates one page more. -/
theorem Space.store_leaf (space : Space link m root free) {leaf : Nat}
    (there : descend (child m.mem) root (leafPath va) = some leaf) {value : Nat}
    (fits : value < 2 ^ 64) :
    Grew link m (m.store (leaf + 8 * px 0 va) (leBytes 8 value)) root free free ∧
      ∀ a, translate (m.store (leaf + 8 * px 0 va) (leBytes 8 value)).mem root a =
        if leafPath a = leafPath va ∧ px 0 a = px 0 va then
          (if value % 4 = 0 then none else some value)
        else translate m.mem root a := by
  have tableLeaf : IsTable m.mem root leaf := ⟨leafPath va, (leafPath_length va).le, there⟩
  have pageLeaf := space.page leaf tableLeaf
  have bound : 8 * (px 0 va).val + (leBytes 8 value).length ≤ PGSIZE := by
    rw [leBytes_length]
    have inside := (px 0 va).isLt
    simp only [PGSIZE]
    omega
  have others : ∀ pg, IsPage link pg → pg ≠ leaf →
      SameOn m.mem (m.store (leaf + 8 * px 0 va) (leBytes 8 value)).mem pg :=
    fun pg page different => pageLeaf.store_other page different bound m.mem
  have above := space.leaf_above there value
  have paths : ∀ q : List (Fin 512), q.length ≤ 2 →
      descend (child (m.store (leaf + 8 * px 0 va) (leBytes 8 value)).mem) root q =
        descend (child m.mem) root q := fun q short => descend_congr above q short
  have tables : ∀ t, IsTable (m.store (leaf + 8 * px 0 va) (leBytes 8 value)).mem root t ↔
      IsTable m.mem root t := by
    intro t
    constructor
    · rintro ⟨q, short, at_t⟩
      exact ⟨q, short, (paths q short).symm.trans at_t⟩
    · rintro ⟨q, short, at_t⟩
      exact ⟨q, short, (paths q short).trans at_t⟩
  refine ⟨⟨⟨?_, space.apart.congr above, ?_, ?_⟩, List.suffix_refl free, ?_, ?_, ?_⟩, ?_⟩
  · apply space.list.congr (t := m.store (leaf + 8 * px 0 va) (leBytes 8 value)) rfl
    intro pg member
    exact others pg (space.list.page pg member) fun same =>
      space.held leaf tableLeaf (same ▸ member)
  · exact fun t reached => space.page t ((tables t).mp reached)
  · exact fun t reached => space.held t ((tables t).mp reached)
  · exact fun t reached => Or.inl ((tables t).mp reached)
  · exact fun t reached => (tables t).mpr reached
  · intro pg page notTable _
    exact others pg page fun same => notTable (same ▸ tableLeaf)
  · intro a
    unfold translate
    rw [paths (leafPath a) (leafPath_length a).le]
    cases reached : descend (child m.mem) root (leafPath a) with
    | none =>
        have other : ¬(leafPath a = leafPath va ∧ px 0 a = px 0 va) := by
          intro both
          rw [both.1, there] at reached
          cases reached
        rw [if_neg other]
        simp only [Option.bind_none]
    | some t =>
        have pageT := space.page t ⟨leafPath a, (leafPath_length a).le, reached⟩
        have slot : word (m.store (leaf + 8 * px 0 va) (leBytes 8 value)).mem (t + 8 * px 0 a) =
            if t = leaf ∧ px 0 a = px 0 va then value else word m.mem (t + 8 * px 0 a) :=
          word_store_slot pageLeaf pageT.aligned (px 0 va) (px 0 a) m.mem fits
        have same : t = leaf ↔ leafPath a = leafPath va := by
          constructor
          · intro equal
            rw [equal] at reached
            exact space.apart _ _ leaf (leafPath_length a).le (leafPath_length va).le reached there
          · intro equal
            rw [equal, there] at reached
            exact (Option.some.inj reached).symm
        simp only [Option.bind_some, slot, same]
        by_cases both : leafPath a = leafPath va ∧ px 0 a = px 0 va
        · rw [if_pos both, if_pos both]
        · rw [if_neg both, if_neg both]

/-- What a turn of `mappages` leaves: one more page is translated, or memory
was out. -/
def MapPost (link : Link) (m v : Mm) (root va pte : Nat) (free : List Nat) (mapped : Bool) :
    Prop :=
  ∃ rest, Grew link m v root free rest ∧
    ((mapped = false ∧ rest = [] ∧ ∀ a, translate v.mem root a = translate m.mem root a) ∨
      (mapped = true ∧ va < MAXVA ∧ translate m.mem root va = none ∧
        ∀ a, a < MAXVA → translate v.mem root a =
          if a / PGSIZE = va / PGSIZE then some pte else translate m.mem root a))

theorem translate_eq {mem : Nat → UInt8} {leaf : Nat}
    (there : descend (child mem) root (leafPath va) = some leaf) :
    translate mem root va = if word mem (leaf + 8 * px 0 va) % 4 = 0 then none
      else some (word mem (leaf + 8 * px 0 va)) := by
  unfold translate
  rw [there]
  simp only [Option.bind_some]

/-- The store at the end of the turn. -/
theorem Grew.store_leaf {v : Mm} {rest : List Nat} (grew : Grew link m v root free rest)
    (low : va < MAXVA) (same : ∀ a, translate v.mem root a = translate m.mem root a) {leaf : Nat}
    (there : descend (child v.mem) root (leafPath va) = some leaf)
    (unused : word v.mem (leaf + 8 * px 0 va) % 4 = 0) (pa perm : Nat) :
    MapPost link m (v.store (leaf + 8 * px 0 va) (leBytes 8 (pteOf pa perm))) root va
      (pteOf pa perm) free true := by
  have fits : pteOf pa perm < 2 ^ 64 := Nat.mod_lt _ (by decide)
  have valid := pteOf_valid pa perm
  obtain ⟨stored, maps⟩ := grew.space.store_leaf there fits
  have before : translate m.mem root va = none := by
    rw [← same va, translate_eq there, if_pos unused]
  refine ⟨rest, grew.trans stored, Or.inr ⟨rfl, low, before, ?_⟩⟩
  intro a lowA
  rw [maps a, same a]
  have nonzero : ¬pteOf pa perm % 4 = 0 := by omega
  simp only [same_page_iff lowA low, if_neg nonzero]

/-- The stored word is cut to 64 bits. -/
theorem store_pte (m : Mm) (addr pa perm : Nat) :
    m.store addr (leBytes 8 (PA2PTE pa ||| perm ||| PTE_AF ||| PTE_V)) =
      m.store addr (leBytes 8 (pteOf pa perm)) := by
  have power : 256 ^ 8 = 2 ^ 64 := by decide
  have low := leBytes_mod 8 (PA2PTE pa ||| perm ||| PTE_AF ||| PTE_V)
  rw [power] at low
  unfold pteOf
  rw [low]

theorem leaf_inRam {v : Mm} (space : Space link v root free) {leaf : Nat}
    (there : descend (child v.mem) root (leafPath va) = some leaf) :
    InRam link (leaf + 8 * px 0 va) 8 := by
  apply (space.page leaf ⟨leafPath va, (leafPath_length va).le, there⟩).inRam
  have bound := (px 0 va).isLt
  simp only [PGSIZE]
  omega

/-- Mapping an unmapped page. -/
theorem mapPage_yields (space : Space link m root free) (low : va < MAXVA)
    (unmapped : translate m.mem root va = none) (pa perm : Nat) :
    Yields (mapPage link root va pa perm) m fun mapped v =>
      MapPost link m v root va (pteOf pa perm) free mapped := by
  unfold mapPage
  refine Yields.seq (walk_yields space low) ?_
  intro r v walked
  obtain ⟨rest, grew, -, same, ⟨none, out⟩ | ⟨leaf, found, there⟩⟩ := walked
  · subst none
    exact ⟨false, v, rfl, rest, grew, Or.inl ⟨rfl, out, same⟩⟩
  · subst found
    have inside := leaf_inRam grew.space there
    have unused : word v.mem (leaf + 8 * px 0 va) % 4 = 0 := by
      have before := same va
      rw [unmapped, translate_eq there] at before
      by_contra used
      rw [if_neg used] at before
      cases before
    refine Yields.step (load64_run inside v) ?_
    refine Yields.step (Act.stopIf_of_not _ v (by rw [valid_bits]; omega)) ?_
    refine Yields.step (store64_run inside _ v) ?_
    rw [store_pte]
    exact ⟨true, _, rfl, grew.store_leaf low same there unused pa perm⟩

/-- A turn that returns: a page that was mapped stops it. -/
theorem mapPage_ensures (space : Space link m root free) (va pa perm : Nat) :
    Ensures (mapPage link root va pa perm) m fun mapped v =>
      MapPost link m v root va (pteOf pa perm) free mapped := by
  by_cases low : va < MAXVA
  · cases before : translate m.mem root va with
    | none => exact (mapPage_yields space low before pa perm).ensures
    | some pte =>
        unfold mapPage
        refine Ensures.seq (walk_yields space low).ensures ?_
        intro r v walked
        obtain ⟨rest, grew, -, same, ⟨none, out⟩ | ⟨leaf, found, there⟩⟩ := walked
        · subst none
          exact Ensures.pure ⟨rest, grew, Or.inl ⟨rfl, out, same⟩⟩
        · subst found
          refine Ensures.step (load64_run (leaf_inRam grew.space there) v) ?_
          refine Ensures.guard fun unused => ?_
          have entry := same va
          rw [before, translate_eq there, if_pos (by rw [valid_bits] at unused; omega)] at entry
          cases entry
  · unfold mapPage walk
    intro mapped v returned
    rw [Act.bind_of_error (Act.bind_of_error (Act.stopIf_of _ m (by omega)))] at returned
    cases returned

/-- At most `n` pages have left the free list. -/
def Spent (link : Link) (v : Mm) (free : List Nat) (n : Nat) : Prop :=
  ∀ rest, Listed link v rest → free.length ≤ rest.length + n

theorem Space.spent {v : Mm} {rest : List Nat} (space : Space link v root rest) {n : Nat}
    (few : free.length ≤ rest.length + n) : Spent link v free n := by
  intro other listed
  rw [space.list.chain.unique listed.chain]
  exact few

/-- A turn takes a page for each level below the root at most. -/
theorem mapPage_spends (space : Space link m root free) (va pa perm : Nat) :
    Ensures (mapPage link root va pa perm) m fun _ v => Spent link v free 2 := by
  by_cases low : va < MAXVA
  · unfold mapPage
    refine Ensures.seq (walk_yields space low).ensures ?_
    intro r v walked
    obtain ⟨rest, grew, few, _, ⟨none, _⟩ | ⟨leaf, found, there⟩⟩ := walked
    · subst none
      exact Ensures.pure (grew.space.spent few)
    · subst found
      have inside := leaf_inRam grew.space there
      refine Ensures.step (load64_run inside v) ?_
      refine Ensures.guard fun _ => ?_
      refine Ensures.step (store64_run inside _ v) ?_
      rw [store_pte]
      have stored := (grew.space.store_leaf there
        (Nat.mod_lt _ (by decide) : pteOf pa perm < 2 ^ 64)).1
      exact Ensures.pure (stored.space.spent few)
  · unfold mapPage walk
    intro mapped v returned
    rw [Act.bind_of_error (Act.bind_of_error (Act.stopIf_of _ m (by omega)))] at returned
    cases returned

/-- What `mappages` leaves: `count` pages from `va` on are translated to the
pages from `pa` on, or memory was out. -/
def RangePost (link : Link) (m v : Mm) (root va pa perm count : Nat) (free : List Nat)
    (result : Int) : Prop :=
  ∃ rest, Grew link m v root free rest ∧
    ((result = -1 ∧ rest = []) ∨
      (result = 0 ∧ ∀ a, a < MAXVA → translate v.mem root a =
        if va / PGSIZE ≤ a / PGSIZE ∧ a / PGSIZE < va / PGSIZE + count then
          some (pteOf (pa + (a / PGSIZE - va / PGSIZE) * PGSIZE) perm)
        else translate m.mem root a))

theorem RangePost.nil (space : Space link m root free) (va pa perm : Nat) :
    RangePost link m m root va pa perm 0 free 0 := by
  refine ⟨free, Grew.refl space, Or.inr ⟨rfl, ?_⟩⟩
  intro a _
  rw [if_neg (by omega)]

/-- One page, and then the others. -/
theorem RangePost.cons {u v : Mm} {mid : List Nat} {pa perm count : Nat} {result : Int}
    (grew : Grew link m u root free mid)
    (maps : ∀ a, a < MAXVA → translate u.mem root a =
      if a / PGSIZE = va / PGSIZE then some (pteOf pa perm) else translate m.mem root a)
    (post : RangePost link u v root (va + PGSIZE) (pa + PGSIZE) perm count mid result) :
    RangePost link m v root va pa perm (count + 1) free result := by
  obtain ⟨rest, grew', ⟨failed, out⟩ | ⟨done, range⟩⟩ := post
  · exact ⟨rest, grew.trans grew', Or.inl ⟨failed, out⟩⟩
  · refine ⟨rest, grew.trans grew', Or.inr ⟨done, ?_⟩⟩
    intro a lowA
    have next : (va + PGSIZE) / PGSIZE = va / PGSIZE + 1 := by
      simp only [PGSIZE]
      omega
    rw [range a lowA, maps a lowA, next]
    rcases Nat.lt_trichotomy (a / PGSIZE) (va / PGSIZE) with below | here | above
    · rw [if_neg (by omega), if_neg (by omega), if_neg (by omega)]
    · rw [if_neg (by omega), if_pos here, if_pos (by omega), here, Nat.sub_self, Nat.zero_mul,
        Nat.add_zero]
    · have shift : pa + PGSIZE + (a / PGSIZE - (va / PGSIZE + 1)) * PGSIZE =
          pa + (a / PGSIZE - va / PGSIZE) * PGSIZE := by
        simp only [PGSIZE] at above ⊢
        omega
      by_cases inside : a / PGSIZE < va / PGSIZE + (count + 1)
      · rw [if_pos (by omega), if_pos (by omega), shift]
      · rw [if_neg (by omega), if_neg (by omega), if_neg (by omega)]

theorem mappagesLoop_yields (count : Nat) {m : Mm} {free : List Nat} {va : Nat}
    (space : Space link m root free) (aligned : va % PGSIZE = 0)
    (low : va + count * PGSIZE ≤ MAXVA)
    (unmapped : ∀ k, k < count → translate m.mem root (va + k * PGSIZE) = none) (pa perm : Nat) :
    Yields (mappagesLoop link root perm count va pa) m fun result v =>
      RangePost link m v root va pa perm count free result := by
  induction count generalizing m free va pa with
  | zero => exact ⟨0, m, rfl, RangePost.nil space va pa perm⟩
  | succ count ih =>
      have first : va < MAXVA := by
        simp only [PGSIZE] at low
        omega
      have none := unmapped 0 (Nat.succ_pos count)
      rw [Nat.zero_mul, Nat.add_zero] at none
      unfold mappagesLoop
      refine Yields.seq (mapPage_yields space first none pa perm) ?_
      intro mapped u post
      obtain ⟨mid, grew, ⟨failed, out, -⟩ | ⟨done, -, -, maps⟩⟩ := post
      · subst failed
        exact ⟨-1, u, rfl, mid, grew, Or.inl ⟨rfl, out⟩⟩
      · subst done
        refine (ih grew.space ?_ ?_ ?_ (pa + PGSIZE)).mono ?_
        · simp only [PGSIZE] at *
          omega
        · simp only [PGSIZE] at *
          omega
        · intro k bound
          have shift : va + PGSIZE + k * PGSIZE = va + (k + 1) * PGSIZE := by ring
          have below : va + (k + 1) * PGSIZE < MAXVA := by
            simp only [PGSIZE] at *
            omega
          have other : (va + (k + 1) * PGSIZE) / PGSIZE ≠ va / PGSIZE := by
            simp only [PGSIZE]
            omega
          rw [shift, maps _ below, if_neg other]
          exact unmapped (k + 1) (by omega)
        · intro result v rest
          exact RangePost.cons grew maps rest

theorem mappagesLoop_ensures (count : Nat) {m : Mm} {free : List Nat} {va : Nat}
    (space : Space link m root free) (pa perm : Nat) :
    Ensures (mappagesLoop link root perm count va pa) m fun result v =>
      RangePost link m v root va pa perm count free result := by
  induction count generalizing m free va pa with
  | zero => exact Ensures.pure (RangePost.nil space va pa perm)
  | succ count ih =>
      unfold mappagesLoop
      refine Ensures.seq (mapPage_ensures space va pa perm) ?_
      intro mapped u post
      obtain ⟨mid, grew, ⟨failed, out, -⟩ | ⟨done, -, -, maps⟩⟩ := post
      · subst failed
        exact Ensures.pure ⟨mid, grew, Or.inl ⟨rfl, out⟩⟩
      · subst done
        refine (ih grew.space (pa + PGSIZE)).mono ?_
        intro result v rest
        exact RangePost.cons grew maps rest

theorem mappagesLoop_spends (count : Nat) {m : Mm} {free : List Nat} {va : Nat}
    (space : Space link m root free) (pa perm : Nat) :
    Ensures (mappagesLoop link root perm count va pa) m fun _ v =>
      Spent link v free (2 * count) := by
  induction count generalizing m free va pa with
  | zero => exact Ensures.pure (space.spent le_rfl)
  | succ count ih =>
      unfold mappagesLoop
      refine Ensures.seq (m := fun mapped u => Spent link u free 2 ∧
        MapPost link m u root va (pteOf pa perm) free mapped) ?_ ?_
      · intro mapped u returned
        exact ⟨mapPage_spends space va pa perm mapped u returned,
          mapPage_ensures space va pa perm mapped u returned⟩
      · rintro mapped u ⟨few, mid, grew, _⟩
        have first := few mid grew.space.list.toListed
        apply Ensures.ite
        · intro _
          refine (ih grew.space (pa + PGSIZE)).mono ?_
          intro _ v more rest listed
          have second := more rest listed
          omega
        · intro _
          exact Ensures.pure (grew.space.spent (by omega))

/-- `mappages` over a range that is not mapped. -/
theorem mappages_yields {size : Nat} (space : Space link m root free)
    (aligned : va % PGSIZE = 0) (whole : size % PGSIZE = 0) (some : size ≠ 0)
    (low : va + size ≤ MAXVA)
    (unmapped : ∀ k, k < size / PGSIZE → translate m.mem root (va + k * PGSIZE) = none)
    (pa perm : Nat) :
    Yields (mappages link root va pa size perm) m fun result v =>
      RangePost link m v root va pa perm (size / PGSIZE) free result := by
  unfold mappages
  refine Yields.step (Act.stopIf_of_not _ m (not_not.mpr aligned)) ?_
  refine Yields.step (Act.stopIf_of_not _ m (not_not.mpr whole)) ?_
  refine Yields.step (Act.stopIf_of_not _ m some) ?_
  apply mappagesLoop_yields _ space aligned _ unmapped
  simp only [PGSIZE] at *
  omega

/-- A call that returns passed its three checks. -/
theorem mappages_ensures (space : Space link m root free) (va pa size perm : Nat) :
    Ensures (mappages link root va pa size perm) m fun result v =>
      RangePost link m v root va pa perm (size / PGSIZE) free result := by
  unfold mappages
  refine Ensures.guard fun _ => ?_
  refine Ensures.guard fun _ => ?_
  refine Ensures.guard fun _ => ?_
  exact mappagesLoop_ensures _ space pa perm

theorem mappages_spends (space : Space link m root free) (va pa size perm : Nat) :
    Ensures (mappages link root va pa size perm) m fun _ v =>
      Spent link v free (2 * (size / PGSIZE)) := by
  unfold mappages
  refine Ensures.guard fun _ => ?_
  refine Ensures.guard fun _ => ?_
  refine Ensures.guard fun _ => ?_
  exact mappagesLoop_spends _ space pa perm

end

end

end Gcgos.Kernel
