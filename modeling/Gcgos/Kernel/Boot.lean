import Gcgos.Kernel.KernelMap
import Gcgos.Kernel.References
import Gcgos.Kernel.Tree

/-!
# From clean memory to the first process

`boot` makes free pages of the memory behind the kernel, the kernel's table,
the process table and the first process. Each part of it takes a known number
of pages, so that the machine starts exactly when memory has room for the sum.
-/

set_option autoImplicit false

namespace Gcgos.Kernel

open Act ByteMap Radix

section

variable {link : Link}

/-! ## `kinit` -/

/-- A link leads to another cell or to the end. -/
theorem chain_next {next : Nat → Nat} {head : Nat} {cells : List Nat}
    (chain : Chain next head cells) {cell : Nat} (member : cell ∈ cells) :
    next cell = 0 ∨ next cell ∈ cells := by
  induction chain with
  | nil => cases member
  | @cons head rest nonzero tail ih =>
      rcases List.mem_cons.mp member with rfl | later
      · cases rest with
        | nil => exact Or.inl (tail.head_eq_zero.mpr rfl)
        | cons other rest =>
            rw [tail.uncons.1]
            exact Or.inr (List.mem_cons_of_mem _ List.mem_cons_self)
      · exact (ih later).imp_right (List.mem_cons_of_mem _)

/-- On clean memory `kinit` makes a clean free list of all pages. -/
theorem kinit_free {m : Mm} (zero : m.freelist = 0)
    (clean : ∀ pg, IsPage link pg → Clean m.mem pg) :
    Yields (kinit link) m fun _ t => ∃ pages, FreeList link t pages ∧
      ∀ pg, pg ∈ pages ↔ IsPage link pg := by
  refine (kinit_yields zero).mono ?_
  rintro _ t ⟨pages, listed, members, same⟩
  refine ⟨pages, ⟨listed, fun pg member k bound => ?_⟩, members⟩
  have page := listed.page pg member
  by_cases first : k = 0
  · -- The first word is a link, and a page is aligned.
    rw [first, Nat.mul_zero, Nat.add_zero]
    rcases chain_next listed.chain member with last | next
    · rw [last]
    · have aligned := (listed.page _ next).aligned
      simp only [PGSIZE] at aligned
      omega
  · have kept : word t.mem (pg + 8 * k) = word m.mem (pg + 8 * k) := by
      refine leNat_congr fun a lower upper => same a fun other page' => ?_
      by_cases own : other = pg
      · subst own
        omega
      · have apart := page.apart page' (Ne.symm own)
        simp only [PGSIZE] at apart
        omega
    rw [kept]
    exact clean pg page k bound

/-- How many pages there are. -/
theorem pages_length {pages : List Nat} (distinct : pages.Nodup)
    (members : ∀ pg, pg ∈ pages ↔ IsPage link pg) :
    link.base + pages.length * PGSIZE = PHYSTOP := by
  have aligned := link.base_aligned
  have top := link.base_le.2
  have same : pages.Perm
      ((List.range ((PHYSTOP - link.base) / PGSIZE)).map fun k => link.base + PGSIZE * k) := by
    refine (List.perm_ext_iff_of_nodup distinct (List.nodup_range.map ?_)).mpr fun pg => ?_
    · intro i j equal
      simp only [PGSIZE] at equal
      omega
    · rw [members, List.mem_map]
      constructor
      · rintro ⟨alignedPg, lower, upper⟩
        refine ⟨(pg - link.base) / PGSIZE, List.mem_range.mpr ?_, ?_⟩ <;>
          simp only [PGSIZE, PHYSTOP, KERNBASE] at * <;> omega
      · rintro ⟨k, bound, rfl⟩
        have inside := List.mem_range.mp bound
        constructor <;> simp only [PGSIZE, PHYSTOP, KERNBASE] at * <;> omega
  rw [same.length_eq, List.length_map, List.length_range]
  simp only [PGSIZE, PHYSTOP, KERNBASE] at *
  omega

/-! ## The first process -/

def trampRegion (link : Link) : Region :=
  ⟨TRAMPOLINE, link.trampoline, 2 * PGSIZE, PTE_NORMAL ||| PTE_AP_RW_EL1⟩

def frameRegion (tf : Nat) : Region := ⟨TRAPFRAME, tf, PGSIZE, PTE_NORMAL ||| PTE_AP_RW_EL1⟩

/-- What the kernel maps into every user table. -/
def procRegions (link : Link) (tf : Nat) : List Region := [trampRegion link, frameRegion tf]

theorem trampRegion_whole : (trampRegion link).Whole := by
  have sizes : TRAMPOLINE % PGSIZE = 0 ∧ 2 * PGSIZE % PGSIZE = 0 ∧ 2 * PGSIZE ≠ 0 ∧
      TRAMPOLINE + 2 * PGSIZE ≤ MAXVA := by decide
  exact ⟨sizes.1, sizes.2.1, sizes.2.2.1, sizes.2.2.2⟩

theorem frameRegion_whole (tf : Nat) : (frameRegion tf).Whole := by
  have sizes : TRAPFRAME % PGSIZE = 0 ∧ PGSIZE % PGSIZE = 0 ∧ PGSIZE ≠ 0 ∧
      TRAPFRAME + PGSIZE ≤ MAXVA := by decide
  exact ⟨sizes.1, sizes.2.1, sizes.2.2.1, sizes.2.2.2⟩

theorem trampRegion_paths (link : Link) : (trampRegion link).paths = tablePaths TRAMPOLINE := by
  have all : rangePaths TRAMPOLINE (2 * PGSIZE / PGSIZE) = tablePaths TRAMPOLINE := by
    decide +kernel
  exact all

theorem frameRegion_paths (tf : Nat) : (frameRegion tf).paths = tablePaths TRAMPOLINE := by
  have all : rangePaths TRAPFRAME (PGSIZE / PGSIZE) = tablePaths TRAMPOLINE := by
    decide +kernel
  exact all

/-- With four pages `proc_pagetable` makes the whole table: it takes one for
each of the three levels and one for the trapframe. -/
theorem procPagetable_maps {m : Mm} {free : List Nat} (list : FreeList link m free)
    (enough : 4 ≤ free.length) :
    Yields (procPagetable link) m fun made x => ∃ rest, rest.length + 4 = free.length ∧
      NewTable link m x free rest made.1 made.2 ∧
      (∀ a, a < MAXVA → translate x.mem made.1 a = mapOf (procRegions link made.2) a) ∧
      made.2 ∈ free ∧ made.2 ∉ rest ∧ ¬IsTable x.mem made.1 made.2 := by
  suffices returns : Yields (procPagetable link) m fun made x => ∃ rest,
      rest.length + 4 = free.length ∧ FreeList link x rest ∧
      (∀ a, a < MAXVA → translate x.mem made.1 a = mapOf (procRegions link made.2) a) ∧
      made.2 ∈ free ∧ made.2 ∉ rest ∧ ¬IsTable x.mem made.1 made.2 by
    refine (returns.both (procPagetable_ensures list)).mono ?_
    rintro made x ⟨⟨rest, count, free', others⟩, rest', table⟩
    obtain rfl : rest' = rest := free'.chain.unique table.space.list.chain
    exact ⟨rest', count, table, others⟩
  have cost : (tablePaths TRAMPOLINE \ ∅).card = 2 := by decide
  unfold procPagetable uvmcreat
  refine Yields.seq (kalloc_yields list) ?_
  rintro root u ⟨same, ⟨rfl, -, -⟩ | ⟨later, rfl, rest⟩⟩
  · exact absurd enough (by decide)
  · rw [List.length_cons] at enough
    refine Yields.seq ((TableOf.fresh list rest same).mappages_yields trampRegion_whole
      (fun _ none => absurd none List.not_mem_nil)
      (by rw [trampRegion_paths link, cost]; omega)) ?_
    rintro result v ⟨-, mid, count, grew, mapped⟩
    rw [trampRegion_paths, cost] at count
    refine Yields.seq (kalloc_yields mapped.space.list) ?_
    rintro tf w ⟨same', ⟨rfl, -, -⟩ | ⟨tail, rfl, list'⟩⟩
    · rw [List.length_nil] at count
      omega
    · have none : ((frameRegion tf).paths \ (∅ ∪ (trampRegion link).paths)).card = 0 := by
        rw [frameRegion_paths, trampRegion_paths, Finset.empty_union, Finset.sdiff_self,
          Finset.card_empty]
      have next := mapped.take list' (List.subset_cons_self tf tail) same'
      refine Yields.seq (next.mappages_yields (frameRegion_whole tf) ?_ (by omega)) ?_
      · intro q member
        rw [List.mem_singleton.mp member]
        exact Or.inl (by change TRAPFRAME + PGSIZE ≤ TRAMPOLINE; decide)
      · rintro result' x ⟨-, last, count', grew', mapped'⟩
        obtain rfl : last = tail := grew'.taken.eq_of_length (by omega)
        rw [List.length_cons] at count
        refine ⟨_, x, rfl, last, ?_, mapped'.space.list, mapped'.maps, ?_, ?_, fun table => ?_⟩
        · rw [List.length_cons]
          omega
        · exact List.mem_cons_of_mem _ (grew.taken.subset List.mem_cons_self)
        · exact (List.nodup_cons.mp mapped.space.list.distinct).1
        · have before : IsTable w.mem root tf := grew'.same_tables table
          rw [same'] at before
          exact mapped.space.held tf before List.mem_cons_self

/-- Without a page `proc_pagetable` does not return. -/
theorem procPagetable_out {m : Mm} (list : FreeList link m []) :
    Ensures (procPagetable link) m fun _ _ => False := by
  intro made x returned
  obtain ⟨rest, table⟩ := procPagetable_ensures list made x returned
  exact absurd (table.owned made.1 ⟨[], Nat.zero_le 2, descend_nil⟩) List.not_mem_nil

/-- The state in which `allocproc` calls `proc_pagetable` for the first slot. -/
def pidGiven (s : State) : State :=
  { s with nextpid := s.nextpid + 1 }.setProc initSlot { s.proc initSlot with pid := s.nextpid }

theorem allocproc_eq {s : State} (unused : ∀ p, (s.proc p).state = .UNUSED) :
    allocproc link s = (do
      let (pagetable, tf) ← onMm (procPagetable link)
      modifyProc initSlot fun proc => { proc with tf := tf, pagetable := pagetable }
      pure initSlot : Act Fault State (Fin NPROC)) (pidGiven s) := by
  unfold allocproc
  rw [Act.bind_of_ok (f := Act.reads unusedSlot) rfl, unusedSlot_first unused]
  rfl

/-- The first slot is taken when all are free. -/
theorem userinit_run {s : State} {x : Mm} {pagetable tf : Nat}
    (unused : ∀ p, (s.proc p).state = .UNUSED)
    (made : procPagetable link s.mm = .ok ((pagetable, tf), x)) :
    userinit link s = .ok ((), { s with
      mm := x
      nextpid := s.nextpid + 1
      proc := Function.update s.proc initSlot { s.proc initSlot with
        pid := s.nextpid
        state := .RUNNABLE
        pagetable := pagetable
        tf := tf
        ctx := Function.update (Function.update (s.proc initSlot).ctx ctxSp
          ((s.proc initSlot).kstack + PGSIZE)) ctxX30 link.forkret } }) := by
  have table : onMm (procPagetable link) (pidGiven s) =
      .ok ((pagetable, tf), { pidGiven s with mm := x }) := Act.zoom_of_ok made
  have allocated : allocproc link s = .ok (initSlot, { pidGiven s with mm := x }.setProc initSlot
      { (pidGiven s).proc initSlot with tf := tf, pagetable := pagetable }) := by
    rw [allocproc_eq unused, Act.bind_of_ok table]
    rfl
  unfold userinit
  rw [Act.bind_of_ok allocated]
  simp [modifyProc, pidGiven, State.setProc]

theorem userinit_stops {s : State} (unused : ∀ p, (s.proc p).state = .UNUSED)
    (out : Ensures (procPagetable link) s.mm fun _ _ => False) :
    Ensures (userinit link) s fun _ _ => False := by
  have stops : Ensures (allocproc link) s fun _ _ => False := by
    intro np t returned
    rw [allocproc_eq unused] at returned
    obtain ⟨made, v, zoomed, -⟩ := Act.bind_eq_ok.mp returned
    obtain ⟨x, inner, -⟩ := Act.zoom_eq_ok.mp zoomed
    exact out made x inner
  exact Ensures.seq stops fun _ _ impossible => impossible.elim

/-! ## Tables beside each other -/

/-- Tables stay while nothing is stored to them and the free list gets
shorter. -/
theorem Space.beside {m x : Mm} {root : Nat} {free rest : List Nat}
    (space : Space link m root free) (list : FreeList link x rest) (fewer : rest ⊆ free)
    (same : ∀ t, IsTable m.mem root t → SameOn m.mem x.mem t) : Space link x root rest := by
  have back : ∀ t, IsTable x.mem root t → IsTable m.mem root t := by
    rintro t ⟨q, short, there⟩
    rw [tables_congr same q short] at there
    exact ⟨q, short, there⟩
  refine ⟨list, ?_, fun t table => space.page t (back t table),
    fun t table member => space.held t (back t table) (fewer member)⟩
  apply Radix.Apart.congr _ space.apart
  intro p t bound there i
  exact child_congr (same t ⟨p, by omega, there⟩) i

/-- The kernel's table stays while nothing is stored to it. -/
theorem KernelTable.kept {m x : Mm} {root : Nat} {left free rest : List Nat}
    (table : KernelTable link root left free m) (list : FreeList link x rest)
    (fewer : rest ⊆ free) (same : ∀ t, IsTable m.mem root t → SameOn m.mem x.mem t) :
    KernelTable link root left rest x := by
  have space := table.space.beside list fewer same
  refine ⟨space, ?_, fun a low => ?_⟩
  · rintro t ⟨q, short, there⟩
    rw [tables_congr same q short] at there
    exact table.apart t ⟨q, short, there⟩
  · have before := table.maps a low
    rw [lookup_run table.space low] at before
    rw [lookup_run space low, translate_congr same, (Prod.mk.inj (Except.ok.inj before)).1]

/-- It stays when a process gets its own. -/
theorem KernelTable.beside {m x : Mm} {root upt tf : Nat} {left rest : List Nat}
    (table : KernelTable link root left (left.drop NPROC) m)
    (made : NewTable link m x (left.drop NPROC) rest upt tf) :
    KernelTable link root left rest x := by
  refine table.kept made.space.list made.taken.subset fun t reached => ?_
  exact made.kept t (table.space.page t reached)
    fun member => absurd member (table.space.held t reached)

/-! ## `boot` -/

/-- `boot` with `kernel_pagetable`. -/
def bootTable (link : Link) : Act Fault State Nat := do
  onMm (kinit link)
  let kernel_pagetable ← onMm (kvmmake link)
  procinit
  userinit link
  pure kernel_pagetable

theorem boot_table (link : Link) : boot link = bootTable link >>= fun _ => pure () := by
  unfold boot bootTable
  simp only [Act.bind_assoc, Act.pure_bind]
  rw [show (fun _ : Unit => (pure () : Act Fault State Unit)) = pure from rfl, Act.bind_pure]

/-- What a process looks like that `userinit` has made. -/
def firstProc (link : Link) (pagetable tf : Nat) : Proc :=
  { Proc.zero with
    pid := 1
    state := .RUNNABLE
    kstack := KSTACK 0
    pagetable := pagetable
    tf := tf
    ctx := Function.update (Function.update (fun _ => 0) ctxSp (KSTACK 0 + PGSIZE)) ctxX30
      link.forkret }

/-- What `boot` leaves. The kernel's tables, the pages `left` behind them, of
which the first ones are the stacks, and in these the tables and the trapframe of
the first process and the free pages are all different. -/
structure Up (link : Link) (root : Nat) (left rest : List Nat) (fs : Fs.State) (t : State) :
    Prop where
  pages : left.Nodup ∧ ∀ pg ∈ left, IsPage link pg
  count : link.base + (72 + left.length) * PGSIZE = PHYSTOP ∧ rest.length + NPROC + 4 = left.length
  taken : rest <:+ left.drop NPROC
  kernel : KernelTable link root left rest t.mm
  stack : ∀ p a, p < NPROC →
    (a / PGSIZE = KSTACK p / PGSIZE → lookup link root a t.mm =
      .ok (some (pteOf (left.getD p 0) (PTE_NORMAL ||| PTE_AP_RW_EL1)), t.mm)) ∧
    (a / PGSIZE + 1 = KSTACK p / PGSIZE → lookup link root a t.mm = .ok (none, t.mm))
  user : Space link t.mm (t.proc initSlot).pagetable rest
  owned : ∀ pg, IsTable t.mm.mem (t.proc initSlot).pagetable pg → pg ∈ left.drop NPROC
  maps : ∀ a, a < MAXVA → lookup link (t.proc initSlot).pagetable a t.mm =
    .ok (mapOf (procRegions link (t.proc initSlot).tf) a, t.mm)
  frame : (t.proc initSlot).tf ∈ left.drop NPROC ∧ (t.proc initSlot).tf ∉ rest ∧
    ¬IsTable t.mm.mem (t.proc initSlot).pagetable (t.proc initSlot).tf
  first : t.proc initSlot = firstProc link (t.proc initSlot).pagetable (t.proc initSlot).tf
  others : ∀ p, p ≠ initSlot → t.proc p = { Proc.zero with kstack := KSTACK p.val }
  kept : t.fs = fs ∧ (∀ e, t.fds e = Fd.zero) ∧ t.nextpid = 2

/-- The state between `procinit` and `userinit`. -/
def blank (fs : Fs.State) (mm : Mm) : State :=
  { State.loaded fs mm with
    proc := fun p => { Proc.zero with state := .UNUSED, kstack := KSTACK p.val } }

theorem procinit_blank (fs : Fs.State) (mm : Mm) :
    procinit (State.loaded fs mm) = .ok ((), blank fs mm) := rfl

theorem blank_unused (fs : Fs.State) (mm : Mm) (p : Fin NPROC) :
    ((blank fs mm).proc p).state = .UNUSED := rfl

/-- `userinit` with four pages behind the stacks. -/
theorem userinit_up {fs : Fs.State} {m mm : Mm} {root : Nat} {left free : List Nat}
    (list : FreeList link m free) (all : link.base + free.length * PGSIZE = PHYSTOP)
    (text : KERNBASE < link.etext) (suffix : left <:+ free)
    (count : left.length + 72 = free.length) (enough : NPROC + 4 ≤ left.length)
    (table : KernelTable link root left (left.drop NPROC) mm) :
    Yields (userinit link) (blank fs mm) fun _ t =>
      (∃ left rest, Up link root left rest fs t) ∧
        FdStart link t ∧ Started link t := by
  have below := list.etext_lt (by omega)
  have long : 4 ≤ (left.drop NPROC).length := by
    rw [List.length_drop]
    omega
  obtain ⟨⟨upt, tf⟩, x, made, rest, tail, fresh, maps, framed⟩ :=
    procPagetable_maps table.space.list long
  have run := userinit_run (s := blank fs mm) (blank_unused fs mm) made
  have kernel := table.beside fresh
  refine ⟨(), _, run, ⟨left, rest, ?_⟩, ?_, ?_⟩
  · constructor
    case pages =>
      exact ⟨list.distinct.sublist suffix.sublist,
        fun pg member => list.page pg (suffix.subset member)⟩
    case count =>
      rw [List.length_drop] at tail
      exact ⟨by rw [Nat.add_comm 72, count]; exact all, by omega⟩
    case taken => exact fresh.taken
    case kernel => exact kernel
    case stack =>
      intro p a slot
      obtain ⟨own, under⟩ := kernelMap_stack text below left slot a
      have top : KSTACK p = 274877898752 - (p + 1) * 2 * 4096 := rfl
      refine ⟨fun here => ?_, fun here => ?_⟩
      · rw [kernel.maps a (by simp only [top, PGSIZE, MAXVA] at *; omega), own here]
      · rw [kernel.maps a (by simp only [top, PGSIZE, MAXVA] at *; omega), under here]
    case user => exact fresh.space
    case owned => exact fresh.owned
    case maps =>
      intro a low
      have entry := lookup_run fresh.space low
      rw [maps a low] at entry
      exact entry
    case frame => exact framed
    case first => rfl
    case others =>
      intro p other
      exact Function.update_of_ne other _ _
    case kept => exact ⟨rfl, fun _ => rfl, rfl⟩
  · exact ⟨blank fs mm, fun p => ⟨rfl, fun _ => rfl⟩, fun _ => rfl, run⟩
  · exact ⟨blank fs mm, _, fun p => ⟨rfl, rfl⟩, rfl, run, Quiet.refl _⟩

theorem kinit_pages (fs : Fs.State) {mm : Mm} (zero : mm.freelist = 0)
    (clean : ∀ pg, IsPage link pg → Clean mm.mem pg) :
    Yields (onMm (kinit link)) (State.loaded fs mm) fun _ u => ∃ m pages,
      u = State.loaded fs m ∧ FreeList link m pages ∧
        link.base + pages.length * PGSIZE = PHYSTOP := by
  refine Yields.zoom ((kinit_free (m := mm) zero clean).mono ?_)
  rintro _ m ⟨pages, list, members⟩
  exact ⟨m, pages, rfl, list, pages_length list.distinct members⟩

theorem bootTable_yields (link : Link) (text : KERNBASE < link.etext) (fs : Fs.State) {mm : Mm}
    (zero : mm.freelist = 0) (clean : ∀ pg, IsPage link pg → Clean mm.mem pg)
    (room : link.base + 140 * PGSIZE ≤ PHYSTOP) :
    Yields (bootTable link) (State.loaded fs mm) fun root t =>
      (∃ left rest, Up link root left rest fs t) ∧ FdStart link t ∧ Started link t := by
  unfold bootTable
  refine Yields.seq (kinit_pages fs zero clean) ?_
  rintro _ _ ⟨m, pages, rfl, list, all⟩
  have table : Yields (onMm (kvmmake link)) (State.loaded fs m) fun root u => ∃ v left,
      u = State.loaded fs v ∧ left <:+ pages ∧ left.length + 72 = pages.length ∧
      KernelTable link root left (left.drop NPROC) v := by
    refine Yields.zoom (((kvmmake_maps link text list).1 ?_).mono ?_)
    · simp only [PGSIZE, PHYSTOP] at *
      omega
    · rintro root v ⟨left, suffix, count, table⟩
      exact ⟨v, left, rfl, suffix, count, table⟩
  refine Yields.seq table ?_
  rintro root _ ⟨v, left, rfl, suffix, count, table⟩
  refine Yields.step (procinit_blank fs v) ?_
  refine Yields.seq (userinit_up list all text suffix count ?_ table) ?_
  · simp only [PGSIZE, PHYSTOP, NPROC] at *
    omega
  · intro _ t up
    exact ⟨root, t, rfl, up⟩

theorem boot_yields (link : Link) (text : KERNBASE < link.etext) (fs : Fs.State) {mm : Mm}
    (zero : mm.freelist = 0) (clean : ∀ pg, IsPage link pg → Clean mm.mem pg)
    (room : link.base + 140 * PGSIZE ≤ PHYSTOP) :
    Yields (boot link) (State.loaded fs mm) fun _ t =>
      (∃ root left rest, Up link root left rest fs t) ∧ FdStart link t ∧ Started link t := by
  rw [boot_table]
  refine Yields.seq (bootTable_yields link text fs zero clean room) ?_
  rintro root t ⟨⟨left, rest, up⟩, start⟩
  exact ⟨(), t, rfl, ⟨root, left, rest, up⟩, start⟩

theorem boot_stops (link : Link) (text : KERNBASE < link.etext) (fs : Fs.State) {mm : Mm}
    (zero : mm.freelist = 0) (clean : ∀ pg, IsPage link pg → Clean mm.mem pg)
    (tight : PHYSTOP < link.base + 137 * PGSIZE) :
    Ensures (boot link) (State.loaded fs mm) fun _ _ => False := by
  unfold boot
  refine Ensures.seq (kinit_pages fs zero clean).ensures ?_
  rintro _ _ ⟨m, pages, rfl, list, all⟩
  have table : Ensures (onMm (kvmmake link)) (State.loaded fs m) fun root u => ∃ v,
      u = State.loaded fs v ∧ FreeList link v [] := by
    refine Ensures.zoom fun root v returned => ⟨v, rfl, ?_⟩
    rcases Nat.lt_or_ge pages.length 72 with few | many
    · exact ((kvmmake_maps link text list).2 few root v returned).elim
    · obtain ⟨left, -, count, table⟩ :=
        ((kvmmake_maps link text list).1 many).ensures root v returned
      have none : left.drop NPROC = [] := by
        rw [List.drop_eq_nil_iff]
        simp only [PGSIZE, PHYSTOP, NPROC] at *
        omega
      rw [← none]
      exact table.space.list
  refine Ensures.seq table ?_
  rintro root _ ⟨v, rfl, out⟩
  refine Ensures.step (procinit_blank fs v) ?_
  exact userinit_stops (blank_unused fs v) (procPagetable_out out)

/-- With 140 pages behind the kernel `boot` leaves the kernel's table, the stacks
and the first process complete and apart, and runs of calls can start. With fewer
than 137 it does not return. -/
theorem boot_up (link : Link) (text : KERNBASE < link.etext) (fs : Fs.State) {mm : Mm}
    (zero : mm.freelist = 0) (clean : ∀ pg, IsPage link pg → Clean mm.mem pg) :
    (link.base + 140 * PGSIZE ≤ PHYSTOP →
      Yields (boot link) (State.loaded fs mm) fun _ t =>
        (∃ root left rest, Up link root left rest fs t) ∧
          FdStart link t ∧ Started link t) ∧
    (PHYSTOP < link.base + 137 * PGSIZE →
      Ensures (boot link) (State.loaded fs mm) fun _ _ => False) :=
  ⟨boot_yields link text fs zero clean, boot_stops link text fs zero clean⟩

theorem zero_clean (pg : Nat) : Clean (fun _ => 0) pg := by
  intro k _
  simp [word, leNat]

/-- Zeroed memory behind a small kernel. -/
theorem boot_up_small : Yields (boot smallLink)
    (State.loaded (Fs.State.loaded fun _ => Fs.Block.zero) ⟨fun _ => 0, 0⟩) fun _ t =>
      (∃ root left rest, Up smallLink root left rest
        (Fs.State.loaded fun _ => Fs.Block.zero) t) ∧
      FdStart smallLink t ∧ Started smallLink t := by
  refine (boot_up smallLink (by decide) _ rfl fun pg _ => ?_).1 (by decide)
  exact zero_clean pg

end

end Gcgos.Kernel
