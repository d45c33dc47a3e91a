import Gcgos.Kernel.AddressSpace
import Gcgos.Kernel.Calls

/-!
# The memory of a fork

`copyproc` gives the child a table of its own and then goes through the
parent's addresses: a page that is mapped there is copied to a page of the free
list, which is mapped in the child under the same flags. Nothing outside the
pages taken from the free list is stored to.
-/

set_option autoImplicit false

namespace Gcgos.Kernel

open Act ByteMap Radix

section

variable {link : Link}

theorem loadBytes_ensures (addr count : Nat) (m : Mm) :
    Ensures (loadBytes link addr count) m fun run t =>
      InRam link addr count ∧ run = getBytes m.mem addr count ∧ t = m := by
  unfold loadBytes
  apply Ensures.guard
  intro inside
  exact Ensures.reads ⟨not_not.mp inside, rfl, rfl⟩

theorem copyMem_ensures (d s count : Nat) (m : Mm) :
    Ensures (copyMem link d s count) m fun _ t =>
      InRam link d count ∧ t = m.store d (getBytes m.mem s count) := by
  unfold copyMem
  refine Ensures.seq (loadBytes_ensures s count m) ?_
  rintro run t ⟨_, rfl, rfl⟩
  refine (storeBytes_ensures d _ t).mono ?_
  rintro _ u ⟨inside, rfl⟩
  rw [getBytes_length] at inside
  exact ⟨inside, rfl⟩

/-- Without `alloc`, nothing is stored. -/
theorem walk_keeps (root va : Nat) (m : Mm) :
    Ensures (walk link root va false) m fun _ t => t = m := by
  have level : ∀ table lvl (n : Mm), Ensures (walkLevel link table va lvl false) n
      fun _ t => t = n := by
    intro table lvl n
    unfold walkLevel
    refine Ensures.seq (load64_ensures _ n) ?_
    rintro pte t ⟨_, _, rfl⟩
    apply Ensures.ite
    · exact fun _ => Ensures.pure rfl
    · intro _
      rw [if_pos rfl]
      exact Ensures.pure rfl
  unfold walk
  refine Ensures.guard fun _ => ?_
  refine Ensures.seq (level root 2 m) ?_
  rintro first t rfl
  cases first with
  | none => exact Ensures.pure rfl
  | some table =>
      refine Ensures.seq (level table 1 t) ?_
      rintro second u rfl
      cases second with
      | none => exact Ensures.pure rfl
      | some leaf => exact Ensures.pure rfl

/-- The page that a turn of `copyproc` adds to the child. -/
def CopiedEntry (link : Link) (m x : Mm) (root va entry : Nat) (free rest : List Nat) : Prop :=
  ∃ npa w, Added link m w x root va npa (PTE_FLAGS entry) free rest ∧
    ∀ o, o < PGSIZE → w.mem (npa + o) = m.mem (PTE2PA entry + o)

/-- The copy of a page changes that page. -/
theorem copy_others {m u : Mm} {npa : Nat} (page : IsPage link npa) (same : u.mem = m.mem)
    (source : Nat) {q : Nat} (page' : IsPage link q) (different : q ≠ npa) :
    SameOn m.mem (u.store npa (getBytes u.mem source PGSIZE)).mem q := by
  rw [← same]
  exact page.store_other page' different (o := 0) (by rw [getBytes_length]; decide) u.mem

theorem Space.copy_fill {m u : Mm} {root npa : Nat} {tail : List Nat}
    (space : Space link m root (npa :: tail)) (list : FreeList link u tail) (same : u.mem = m.mem)
    (entry : Nat) :
    Grew link m (u.store npa (getBytes u.mem (PTE2PA entry) PGSIZE)) root (npa :: tail) tail ∧
      ∀ a, translate (u.store npa (getBytes u.mem (PTE2PA entry) PGSIZE)).mem root a =
        translate m.mem root a := by
  have page := space.list.page npa List.mem_cons_self
  have filled := space.fill list same
    (rfl : (u.store npa (getBytes u.mem (PTE2PA entry) PGSIZE)).freelist = u.freelist)
    fun q page' different => copy_others page same (PTE2PA entry) page' different
  exact ⟨filled.1, filled.2.2⟩

/-- Copying and mapping a page that has been taken from the free list. -/
theorem Space.copied {m u x : Mm} {root va npa entry : Nat} {tail : List Nat} {result : Int}
    (space : Space link m root (npa :: tail)) (list : FreeList link u tail) (same : u.mem = m.mem)
    (range : RangePost link (u.store npa (getBytes u.mem (PTE2PA entry) PGSIZE)) x root va npa
      (PTE_FLAGS entry) 1 tail result) (spent : Spent link x tail 2) :
    ∃ rest, CopiedEntry link m x root va entry (npa :: tail) rest := by
  have page := space.list.page npa List.mem_cons_self
  have head : (u.store npa (getBytes u.mem (PTE2PA entry) PGSIZE)).freelist = u.freelist := rfl
  obtain ⟨rest, added⟩ := space.add list same head
    (fun q page' different => copy_others page same (PTE2PA entry) page' different) range spent
  refine ⟨rest, npa, _, added, ?_⟩
  intro o bound
  change putBytes u.mem npa (getBytes u.mem (PTE2PA entry) PGSIZE) (npa + o) = _
  rw [putBytes_inside (by omega) (by rw [getBytes_length]; omega), Nat.add_sub_cancel_left,
    getBytes_getD _ _ _ _ bound, same]

theorem copyEntry_ensures {m : Mm} {root : Nat} {free : List Nat} (space : Space link m root free)
    (va entry : Nat) :
    Ensures (copyEntry link root va entry) m fun _ x =>
      ∃ rest, CopiedEntry link m x root va entry free rest := by
  unfold copyEntry
  refine Ensures.seq (kalloc_yields space.list).ensures ?_
  rintro npa u ⟨same, ⟨_, rfl, _⟩ | ⟨tail, rfl, list⟩⟩
  · refine Ensures.seq (copyMem_ensures 0 _ _ u) ?_
    rintro _ _ ⟨inside, _⟩
    have base := link.base_pos
    simp only [KERNBASE] at base
    rcases inside with zero | ⟨lower, _⟩
    · cases zero
    · omega
  · refine Ensures.seq (copyMem_ensures npa _ _ u) ?_
    rintro _ w ⟨_, rfl⟩
    have filled := (space.copy_fill list same entry).1
    refine Ensures.seq (m := fun _ x => ∃ rest, CopiedEntry link m x root va entry _ rest) ?_
      fun _ _ done => Ensures.pure done
    intro result x returned
    exact space.copied list same (mappages_ensures filled.space _ _ _ _ _ _ returned)
      (mappages_spends filled.space _ _ _ _ _ _ returned)

/-- A turn of the loop adds a page to the child, or leaves memory alone. -/
theorem copyPage_ensures {m : Mm} {proot root : Nat} {free : List Nat}
    (space : Space link m root free) (va : Nat) :
    Ensures (copyPage link proot root va) m fun _ x => ∃ rest, Grew link m x root free rest := by
  unfold copyPage
  refine Ensures.seq (walk_keeps proot va m) ?_
  rintro pte t rfl
  cases pte with
  | none => exact Ensures.pure ⟨free, Grew.refl space⟩
  | some pte =>
      refine Ensures.seq (load64_ensures pte t) ?_
      rintro entry u ⟨_, _, rfl⟩
      apply Ensures.ite
      · exact fun _ => Ensures.pure ⟨free, Grew.refl space⟩
      · intro _
        refine (copyEntry_ensures space va entry).mono ?_
        rintro _ x ⟨rest, npa, w, added, _⟩
        exact ⟨rest, added.grew⟩

theorem copyPages_ensures {m : Mm} {proot root : Nat} {free : List Nat}
    (space : Space link m root free) (count va : Nat) :
    Ensures (copyPages link proot root count va) m fun _ x =>
      ∃ rest, Grew link m x root free rest := by
  induction count generalizing m free va with
  | zero => exact Ensures.pure ⟨free, Grew.refl space⟩
  | succ count ih =>
      unfold copyPages
      refine Ensures.seq (copyPage_ensures space va) ?_
      rintro _ u ⟨mid, grew⟩
      refine (ih grew.space (va + PGSIZE)).mono ?_
      rintro _ x ⟨rest, grew'⟩
      exact ⟨rest, grew.trans grew'⟩

/-- Only the table and the trapframe of the child matter. -/
theorem copyMemory_congr (parent : Proc) {child other : Proc}
    (pagetable : other.pagetable = child.pagetable) (tf : other.tf = child.tf) :
    copyMemory link parent other = copyMemory link parent child := by
  unfold copyMemory
  rw [pagetable, tf]

/-- The pages, and then the trapframe. -/
theorem copyMemory_ensures {m : Mm} (parent child : Proc) {post : Mm → Prop}
    (pages : Ensures (copyPages link parent.pagetable child.pagetable (copyCount parent.sz) 0) m
      fun _ w => post w) :
    Ensures (copyMemory link parent child) m fun _ u => ∃ w, post w ∧
      InRam link child.tf trapframeSize ∧
      u = w.store child.tf (getBytes w.mem parent.tf trapframeSize) := by
  unfold copyMemory
  refine Ensures.seq pages ?_
  intro _ w met
  refine (copyMem_ensures _ _ _ w).mono ?_
  rintro _ u ⟨inside, stored⟩
  exact ⟨w, met, inside, stored⟩

/-- What `copyproc` does to memory. -/
structure ForkMemory (link : Link) (s t : State) (p np : Fin NPROC) (v u : Mm) : Prop where
  table : procPagetable link s.mm = .ok (((t.proc np).pagetable, (t.proc np).tf), v)
  copied : copyMemory link (s.proc p) (t.proc np) v = .ok ((), u)
  cleared : store64 link (t.proc np).tf 0 u = .ok ((), t.mm)

theorem allocproc_memory (s : State) :
    Ensures (allocproc link) s fun np t => unusedSlot s = some np ∧
      (∀ q, q ≠ np → t.proc q = s.proc q) ∧
      procPagetable link s.mm = .ok (((t.proc np).pagetable, (t.proc np).tf), t.mm) := by
  unfold allocproc
  refine Ensures.step rfl ?_
  cases found : unusedSlot s with
  | none => exact Ensures.fail
  | some np =>
      refine Ensures.step rfl ?_
      refine Ensures.step rfl ?_
      refine Ensures.seq (m := fun result t => ∃ mm, procPagetable link s.mm = .ok (result, mm) ∧
        t = { s.setProc np { s.proc np with pid := s.nextpid } with
          nextpid := s.nextpid + 1, mm := mm }) ?_ ?_
      · apply Ensures.zoom
        intro result mm returned
        exact ⟨mm, returned, rfl⟩
      · rintro ⟨root, tf⟩ t ⟨mm, returned, rfl⟩
        refine Ensures.step rfl ?_
        apply Ensures.pure
        refine ⟨rfl, ?_, ?_⟩
        · intro q other
          simp [State.setProc, other]
        · simpa [State.setProc] using returned

theorem copyproc_memory {p : Fin NPROC} {s : State} (used : (s.proc p).state ≠ .UNUSED) :
    Ensures (copyproc link p) s fun np t => ∃ v u, ForkMemory link s t p np v u := by
  unfold copyproc
  refine Ensures.seq (allocproc_memory s) ?_
  rintro np t ⟨found, others, table⟩
  have different : np ≠ p := by
    rintro rfl
    exact used (unusedSlot_some found)
  have parent := others p (Ne.symm different)
  refine Ensures.step rfl ?_
  refine Ensures.step rfl ?_
  refine Ensures.step rfl ?_
  refine Ensures.seq (m := fun _ w => ∃ u, copyMemory link (s.proc p) (t.proc np) t.mm =
    .ok ((), u) ∧ w.mm = u ∧ (w.proc np).pagetable = (t.proc np).pagetable ∧
      (w.proc np).tf = (t.proc np).tf) ?_ ?_
  · apply Ensures.zoom
    intro _ u returned
    refine ⟨u, ?_, rfl, by simp [State.setProc], by simp [State.setProc]⟩
    rw [← returned, ← parent]
    apply congrFun
    apply copyMemory_congr <;> simp [State.setProc]
  · rintro _ w ⟨u, copied, memory, pagetable, tf⟩
    refine Ensures.step (copyFds_run different _ _) ?_
    refine Ensures.seq (m := fun _ x => store64 link (t.proc np).tf 0 u = .ok ((), x.mm) ∧
      (x.proc np).pagetable = (t.proc np).pagetable ∧ (x.proc np).tf = (t.proc np).tf) ?_ ?_
    · apply Ensures.zoom
      intro _ mm returned
      refine ⟨?_, by simp [afterCopyFds, pagetable], by simp [afterCopyFds, tf]⟩
      rw [← memory]
      simpa [State.setProc, afterCopyFds] using returned
    · rintro _ x ⟨cleared, pagetable', tf'⟩
      refine Ensures.step rfl ?_
      refine Ensures.step rfl ?_
      apply Ensures.pure
      refine ⟨t.mm, u, ?_, ?_, ?_⟩
      · simp [State.setProc, pagetable', tf', table]
      · rw [← copied]
        apply congrFun
        apply copyMemory_congr <;> simp [State.setProc, pagetable', tf']
      · simpa [State.setProc, tf'] using cleared

/-- A store inside a page that is neither free nor a table. -/
theorem Space.store {m : Mm} {root pg o : Nat} {free : List Nat} {run : List UInt8}
    (space : Space link m root free) (page : IsPage link pg) (taken : pg ∉ free)
    (apart : ¬IsTable m.mem root pg) (bound : o + run.length ≤ PGSIZE) :
    Space link (m.store (pg + o) run) root free := by
  have head : (m.store (pg + o) run).freelist = m.freelist := rfl
  apply space.congr head
  · intro q member
    exact page.store_other (space.list.page q member) (fun same => taken (same ▸ member)) bound _
  · intro t table
    exact page.store_other (space.page t table) (fun same => apart (same ▸ table)) bound _

theorem isTable_store {m : Mm} {root pg o : Nat} {free : List Nat} {run : List UInt8}
    (space : Space link m root free) (page : IsPage link pg) (apart : ¬IsTable m.mem root pg)
    (bound : o + run.length ≤ PGSIZE) (t : Nat) :
    IsTable (m.store (pg + o) run).mem root t ↔ IsTable m.mem root t := by
  apply exists_congr
  intro q
  apply and_congr_right
  intro short
  rw [tables_congr _ q short]
  intro t table
  exact page.store_other (space.page t table) (fun same => apart (same ▸ table)) bound _

/-- The child's table and trapframe after a fork, and the pages left. -/
structure ChildSpace (link : Link) (s t : State) (np : Fin NPROC) (v w : Mm)
    (free rest0 rest : List Nat) : Prop where
  table : NewTable link s.mm v free rest0 (t.proc np).pagetable (t.proc np).tf
  grew : Grew link v w (t.proc np).pagetable rest0 rest
  space : Space link t.mm (t.proc np).pagetable rest
  isTable : ∀ x, IsTable t.mm.mem (t.proc np).pagetable x ↔
    IsTable w.mem (t.proc np).pagetable x
  frame : IsPage link (t.proc np).tf
  taken : (t.proc np).tf ∈ free
  out : (t.proc np).tf ∉ rest
  apart : ¬IsTable t.mm.mem (t.proc np).pagetable (t.proc np).tf

theorem ForkMemory.childSpace {s t : State} {p np : Fin NPROC} {v u : Mm} {free : List Nat}
    (fork : ForkMemory link s t p np v u) (list : FreeList link s.mm free) :
    ∃ w rest0 rest, ChildSpace link s t np v w free rest0 rest := by
  obtain ⟨rest0, table⟩ := procPagetable_ensures list _ _ fork.table
  simp only at table
  obtain ⟨w, ⟨rest, grew⟩, inside, stored⟩ := copyMemory_ensures (s.proc p) (t.proc np)
    (copyPages_ensures table.space _ _) _ _ fork.copied
  rcases table.frame with ⟨_, zero⟩ | ⟨page, source, out, apart⟩
  · have base := link.base_pos
    simp only [KERNBASE] at base
    rw [zero] at inside
    rcases inside with empty | ⟨lower, _⟩
    · exact absurd empty (by decide)
    · omega
  · have out' : (t.proc np).tf ∉ rest := fun member => out (grew.taken.subset member)
    have apart' : ¬IsTable w.mem (t.proc np).pagetable (t.proc np).tf := by
      intro reached
      rcases grew.owned _ reached with before | fresh
      · exact apart before
      · exact out fresh
    have bound : 0 + (getBytes w.mem (s.proc p).tf trapframeSize).length ≤ PGSIZE := by
      rw [getBytes_length]
      decide
    have framed := grew.space.store page out' apart' bound
    have same := isTable_store grew.space page apart' bound
    obtain ⟨_, cleared⟩ := storeBytes_ensures _ _ u _ _ fork.cleared
    rw [Nat.add_zero, ← stored] at framed same
    have apart'' : ¬IsTable u.mem (t.proc np).pagetable (t.proc np).tf :=
      fun reached => apart' ((same _).mp reached)
    have bound' : 0 + (leBytes 8 0).length ≤ PGSIZE := by
      rw [leBytes_length]
      decide
    have final := framed.store page out' apart'' bound'
    have same' := isTable_store framed page apart'' bound'
    rw [Nat.add_zero, ← cleared] at final same'
    exact ⟨w, rest0, rest, table, grew, final, fun x => (same' x).trans (same x), page, source,
      out', fun reached => apart'' ((same' _).mp reached)⟩

end

end Gcgos.Kernel
