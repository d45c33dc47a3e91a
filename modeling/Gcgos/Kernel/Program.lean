import Gcgos.Kernel.ArgStack

/-!
# What a new program finds

After a call of `kexec` the process has a new page table and a new trapframe.
What its user code can read is behind the entries of that table: the pages of
the LOAD segments, and the stack page with the arguments, which `x1` and
`sp_el0` point to.
-/

set_option autoImplicit false

namespace Gcgos.Kernel

open Act ByteMap Fs Bio Radix

section

variable (s : State) (cp : Fin NPROC)

/-- The bytes that user code reads from `va` on. -/
def UserBytes (va : Nat) (bytes : List UInt8) : Prop :=
  ∀ k < bytes.length, ∃ pa, userByte s.mm.mem (s.proc cp).pagetable (va + k) = some pa ∧
    s.mm.mem pa = bytes.getD k 0

/-- The word that user code reads at `va`. -/
def UserWord (va value : Nat) : Prop :=
  ∃ pa, (∀ k < 8, userByte s.mm.mem (s.proc cp).pagetable (va + k) = some (pa + k)) ∧
    word s.mm.mem pa = value

/-- The argument block: the stack page is mapped at `sz`, all stores to it lie
in the page and apart, and the registers lead to the pointers to the strings. -/
structure ArgBlock (strings : List (List UInt8)) (stored : StackStores) : Prop where
  mapped : ∀ o < PGSIZE, userByte s.mm.mem (s.proc cp).pagetable ((s.proc cp).sz + o) =
    some (stored.page + o)
  regions : PageRegions stored.page stored.regions
  aligned : s.trapframe cp (.x .x1) % 16 = 0
  spEl0 : s.trapframe cp .sp_el0 = s.trapframe cp (.x .x1)
  pointers : ∀ i < strings.length, ∃ u < MAXVA, UserWord s cp (s.trapframe cp (.x .x1) + 8 * i) u ∧
    UserBytes s cp u (strings.getD i [] ++ [0])
  null : UserWord s cp (s.trapframe cp (.x .x1) + 8 * strings.length) 0

end

section

variable {link : Link}

/-- The registers are stored to the page of the trapframe. -/
theorem setTrapframe_frame (tf argv argc entry : Nat) (m : Mm) :
    Ensures (setTrapframe link tf argv argc entry) m fun _ t =>
      t.freelist = m.freelist ∧ ∀ a, a < tf ∨ tf + PGSIZE ≤ a → t.mem a = m.mem a := by
  have one : ∀ o value, o + 8 ≤ PGSIZE → ∀ u : Mm,
      (u.freelist = m.freelist ∧ ∀ a, a < tf ∨ tf + PGSIZE ≤ a → u.mem a = m.mem a) →
      Ensures (store64 link (tf + o) value) u fun _ t =>
        t.freelist = m.freelist ∧ ∀ a, a < tf ∨ tf + PGSIZE ≤ a → t.mem a = m.mem a := by
    rintro o value bound u ⟨list, same⟩
    refine (store64_ensures _ _ u).mono ?_
    rintro _ t ⟨-, rfl⟩
    refine ⟨by rw [Mm.store_freelist, list], fun a outside => ?_⟩
    rw [Mm.store_mem, putBytes_outside (by rw [leBytes_length]; omega)]
    exact same a outside
  unfold setTrapframe
  refine Ensures.seq (one 0x118 argv (by decide) m ⟨rfl, fun _ _ => rfl⟩) fun _ u kept => ?_
  refine Ensures.seq (one 0 argc (by decide) u kept) fun _ v kept => ?_
  refine Ensures.seq (one 8 argv (by decide) v kept) fun _ w kept => ?_
  exact one 0x110 entry (by decide) w kept

/-- User code reads the page of a read-write entry. -/
theorem userByte_mapped {mem : Nat → UInt8} {root a pg : Nat} (page : IsPage link pg)
    (maps : translate mem root a = some (pteOf pg PTE_AP_RW)) :
    userByte mem root a = some (pg + a % PGSIZE) := by
  have physical : pg < 2 ^ 48 := lt_of_lt_of_le (lt_of_lt_of_le (Nat.lt_add_of_pos_right
    (by decide)) page.upper) (by decide)
  obtain ⟨address, -⟩ := pteOf_parts page.aligned physical (by decide : PTE_AP_RW < 2 ^ 64)
    (by decide)
  have writable : pteOf pg PTE_AP_RW &&& PTE_AP_RW ≠ 0 := by
    intro none
    have bit := congrArg (Nat.testBit · 6) none
    simp only [Nat.testBit_and, pteOf_bits page.aligned] at bit
    have set : PTE_AP_RW.testBit 6 = true := by decide
    simp [set] at bit
  unfold userByte
  rw [maps, Option.bind_some, if_pos ⟨pteOf_valid _ _, writable⟩, address]

end

/-! ## A call on a clean free list -/

/-- The table and the segments of a call. -/
structure ExecLoaded (link : Link) (s : State) (dp : Fin NINODE) (data : Block) (trace : ExecTrace)
    (free mid rest : List Nat) : Prop where
  table : NewTable link s.mm trace.tabled free mid trace.root trace.tf
  segments : SegmentsLoaded link trace.begun trace.loaded (s.fs.inode dp) data trace.root 0
    (elfOf data).phnum mid rest trace.stored.segments

section

variable {link : Link} {cp : Fin NPROC} {dp : Fin NINODE} {data : Block} {args : List Arg}
  {s t : State} {trace : ExecTrace} {free mid rest last : List Nat}

theorem ExecTrace.Of.exec_loaded (run : trace.Of link cp dp data args s t)
    (list : FreeList link s.mm free) (one : OnePage data) :
    ∃ mid rest, ExecLoaded link s dp data trace free mid rest := by
  obtain ⟨mid, table⟩ := procPagetable_ensures list _ _ run.table
  have space : Space link trace.begun.mm trace.root mid := by
    rw [run.memory]
    exact table.space
  obtain ⟨rest, segments⟩ := loadSegmentsStored_ensures (s.fs.inode dp) data _ 0 0 space
    (fun k ph _ upper load => one k ph (by omega) load) _ _ run.segments
  exact ⟨mid, rest, table, segments⟩

/-- Pages in use keep their bytes. -/
theorem ExecLoaded.kept (loaded : ExecLoaded link s dp data trace free mid rest)
    (run : trace.Of link cp dp data args s t) {pg : Nat} (page : IsPage link pg) (out : pg ∉ free) :
    SameOn s.mm.mem trace.loaded.mm.mem pg := by
  have tabled := loaded.table.kept pg page fun member => absurd member out
  have apart : ¬IsTable trace.begun.mm.mem trace.root pg := by
    rw [run.memory]
    exact fun reached => out (loaded.table.owned pg reached)
  refine SameOn.trans ?_ (loaded.segments.grew.frame pg page apart fun member =>
    absurd (loaded.table.taken.subset member) out)
  rw [run.memory]
  exact tabled

/-- What the stores to the trapframe leave. -/
structure FrameOnly (link : Link) (trace : ExecTrace) (t : State) (mid last : List Nat) : Prop where
  some_page : last ≠ []
  head : trace.stacked.freelist ≠ 0
  list : FreeList link t.mm last
  source : IsPage link trace.tf
  frame : trace.tf ∉ mid
  maps : ∀ a, translate t.mm.mem trace.root a = translate trace.stacked.mem trace.root a
  others : ∀ pg, IsPage link pg → pg ≠ trace.tf → SameOn trace.stacked.mem t.mm.mem pg

theorem FrameOnly.suffix (only : FrameOnly link trace t mid last) (taken : rest <:+ mid) :
    FrameOnly link trace t rest last :=
  { only with frame := fun member => only.frame (taken.subset member) }

theorem ExecLoaded.frame_only (loaded : ExecLoaded link s dp data trace free mid rest)
    (run : trace.Of link cp dp data args s t)
    (grew : Grew link trace.loaded.mm trace.stacked trace.root rest last)
    (more : t.mm.freelist ≠ 0) : FrameOnly link trace t mid last := by
  obtain ⟨head, outside⟩ := setTrapframe_frame _ _ _ _ _ _ _ run.frame
  have some_page : last ≠ [] := by
    rintro rfl
    rw [head] at more
    exact more (grew.space.list.chain.head_eq_zero.mpr rfl)
  have before : mid ≠ [] := by
    rintro rfl
    obtain rfl : rest = [] := List.suffix_nil.mp loaded.segments.grew.taken
    exact some_page (List.suffix_nil.mp grew.taken)
  obtain ⟨page, -, out, apart⟩ := loaded.table.frame.resolve_left fun none => before none.1
  rw [← run.memory] at apart
  obtain ⟨-, out', apart'⟩ := loaded.segments.grew.other page apart out
  obtain ⟨-, -, apart''⟩ := grew.other page apart' out'
  have others : ∀ pg, IsPage link pg → pg ≠ trace.tf → SameOn trace.stacked.mem t.mm.mem pg := by
    intro pg page' different o bound
    apply outside
    have other := page'.apart page different
    omega
  refine ⟨some_page, head ▸ more, ?_, page, out, fun a => translate_congr ?_ a, others⟩
  · refine grew.space.list.congr head fun pg member => others pg (grew.space.list.page pg member) ?_
    rintro rfl
    exact out (loaded.segments.grew.taken.subset (grew.taken.subset member))
  intro u table
  refine others u (grew.space.page u table) ?_
  rintro rfl
  exact apart'' table

end

/-! ## The arguments -/

section

variable {link : Link} {cp : Fin NPROC} {dp : Fin NINODE} {data : Block} {args : List Arg}
  {s t : State} {trace : ExecTrace} {strings : List (List UInt8)} {rest last : List Nat}

/-- The page of the stack as the user sees it. -/
theorem StackBuilt.mapped (built : StackBuilt link trace.loaded.mm trace.stacked trace.root trace.sz
      strings rest last trace.stored.toStackStores)
    (only : FrameOnly link trace t rest last) (o : Nat) (bound : o < PGSIZE) :
    userByte t.mm.mem trace.root (trace.sz + o) = some (trace.stored.page + o) := by
  obtain ⟨w, added, -⟩ := built.added
  obtain ⟨aligned, low⟩ := built.low
  have here : (trace.sz + o) / PGSIZE = trace.sz / PGSIZE ∧ (trace.sz + o) % PGSIZE = o := by
    simp only [PGSIZE] at *
    omega
  rw [userByte_mapped added.page, here.2]
  rw [only.maps, added.maps.resolve_left only.some_page _ (by omega), if_pos here.1]

theorem StackBuilt.same (built : StackBuilt link trace.loaded.mm trace.stacked trace.root trace.sz
      strings rest last trace.stored.toStackStores)
    (only : FrameOnly link trace t rest last) :
    SameOn (storedBlock trace.loaded.mm.mem (trace.stored.page + PGSIZE) (trace.sz + PGSIZE) strings)
      t.mm.mem trace.stored.page := by
  obtain ⟨w, added, block⟩ := built.added
  rw [← block]
  refine added.filled.trans (only.others _ added.page ?_)
  rintro same
  exact only.frame (same ▸ added.source)

/-- The argument block of a stack that has been built. -/
theorem StackBuilt.argBlock (built : StackBuilt link trace.loaded.mm trace.stacked trace.root trace.sz
      strings rest last trace.stored.toStackStores)
    (only : FrameOnly link trace t rest last) (run : trace.Of link cp dp data args s t)
    (regions : trace.stored.regions = blockRegions (trace.stored.page + PGSIZE) strings)
    (count : args.length = strings.length) (good : GoodLengths strings)
    (fits : blockSize strings ≤ PGSIZE) : ArgBlock t cp strings trace.stored.toStackStores := by
  have mapped := built.mapped only
  have same := built.same only
  obtain ⟨w, added, -⟩ := built.added
  obtain ⟨whole, low⟩ := built.low
  have pageWhole := added.page.aligned
  have upper := added.page.upper
  obtain ⟨root, size, frame⟩ := run.proc
  obtain ⟨top, above⟩ : ∃ top, top = trace.stored.page + PGSIZE := ⟨_, rfl⟩
  obtain ⟨utop, uabove⟩ : ∃ utop, utop = trace.sz + PGSIZE := ⟨_, rfl⟩
  rw [← above] at regions
  rw [← above, ← uabove] at same
  have large : PGSIZE ≤ top ∧ PGSIZE ≤ utop := by omega
  have aligned : top % 16 = 0 ∧ top < 2 ^ 64 ∧ utop % 16 = 0 ∧ utop < 2 ^ 64 := by
    simp only [PGSIZE, PHYSTOP, KERNBASE, MAXVA] at *
    omega
  obtain ⟨aligned, small, ualigned, usmall⟩ := aligned
  have bounds := ustackAt_bounds aligned small strings good fits large.1
  have place := argv_eq aligned small ualigned usmall strings good fits large.1 large.2
  obtain ⟨pointers, texts⟩ := storedBlock_there aligned small trace.loaded.mm.mem ualigned usmall
    strings good fits large.1 large.2
  have argv := built.argv
  rw [← uabove] at argv
  rw [← argv] at place
  have filled := setTrapframe_fills trace.tf (argv ▸ alignDown_lt _ _)
    (by simp only [PGSIZE] at *; omega) (leNat_lt data.byte 24 8) _ _ _ run.frame
  have x1 : t.trapframe cp (.x .x1) = trace.stored.argv := by
    unfold State.trapframe
    rw [frame]
    exact filled.x1
  have spEl0 : t.trapframe cp .sp_el0 = trace.stored.argv := by
    unfold State.trapframe
    rw [frame]
    exact filled.spEl0
  -- A place in the page, as the user sees it and in memory.
  have user : ∀ va pa size, va + top = pa + utop → top ≤ pa + PGSIZE → pa + size ≤ top →
      ∀ k < size, userByte t.mm.mem (t.proc cp).pagetable (va + k) = some (pa + k) := by
    intro va pa size counted lower inside k bound
    have seen := mapped (pa + k - trace.stored.page) (by omega)
    rw [root]
    rw [show trace.sz + (pa + k - trace.stored.page) = va + k by omega,
      show trace.stored.page + (pa + k - trace.stored.page) = pa + k by omega] at seen
    exact seen
  have entry : ∀ k ≤ strings.length,
      UserWord t cp (trace.stored.argv + 8 * k) ((ustackOf utop strings).getD k 0) := by
    intro k bound
    refine ⟨ustackAt top strings + 8 * k, user _ _ 8 (by omega) (by omega) (by omega), ?_⟩
    rw [← pointers k bound]
    have kept := same.word_eq (o := ustackAt top strings + 8 * k - trace.stored.page) (by omega)
    rw [show trace.stored.page + (ustackAt top strings + 8 * k - trace.stored.page) =
      ustackAt top strings + 8 * k by omega] at kept
    exact kept
  refine ⟨?_, regions ▸ (blockRegions_iff aligned small above strings fits).mpr good, ?_,
    spEl0.trans x1.symm, ?_, ?_⟩
  · intro o bound
    rw [root, size]
    exact mapped o bound
  · rw [x1]
    omega
  · intro i bound
    have index : i < (ustackOf utop strings).length := by
      rw [ustackOf_length]
      exact bound
    obtain ⟨d, counted, lower, ends, bytes⟩ := (List.forall₂_iff_get.mp texts).2 i index bound
    rw [List.get_eq_getElem, ← List.getD_eq_getElem _ 0 index] at counted
    rw [List.get_eq_getElem, ← List.getD_eq_getElem _ [] bound] at ends bytes
    have length : (strings.getD i [] ++ [0]).length = (strings.getD i []).length + 1 := by
      rw [List.length_append, List.length_singleton]
    rw [x1]
    refine ⟨(ustackOf utop strings).getD i 0, by omega, entry i bound.le, fun k short => ?_⟩
    refine ⟨d + k, user _ _ _ counted lower (by rw [length]; omega) k short, ?_⟩
    rw [← bytes k short]
    have kept := same (d + k - trace.stored.page) (by omega)
    rw [show trace.stored.page + (d + k - trace.stored.page) = d + k by omega] at kept
    exact kept
  · rw [x1]
    have null := entry strings.length le_rfl
    rw [List.getD_eq_default _ _ (by rw [ustackOf_length])] at null
    exact null

/-- The arguments are read as they were before the call. -/
theorem ExecLoaded.outcome {free mid : List Nat} (loaded : ExecLoaded link s dp data trace free mid rest)
    (run : trace.Of link cp dp data args s t)
    (reads : List.Forall₂ (fun arg string => arg.Reads link s.mm.mem string) args strings)
    (apart : ∀ pg, Arg.page pg ∈ args → pg ∉ free) :
    StackOutcome link trace.loaded.mm trace.stacked trace.root trace.sz strings rest
      trace.stored.toStackStores := by
  refine buildStackStored_ensures loaded.segments.grew.space ?_ ?_ _ _ run.stack
  · have both := (List.forall₂_and_left (p := fun arg => ∀ pg, arg = .page pg → pg ∉ free) args
      strings).mpr ⟨fun arg member pg same => apart pg (same ▸ member), reads⟩
    exact both.imp fun arg string ⟨out, read⟩ =>
      read.congr fun pg same page => loaded.kept run page (out pg same)
  · intro pg member there
    refine apart pg member (loaded.table.taken.subset ?_)
    exact loaded.segments.grew.taken.subset there

/-- A call behind its checks lays out the block, unless the lengths are bad. -/
theorem kexecLoadStored_block {buf : Fin NBUF} {free : List Nat} (list : FreeList link s.mm free)
    (one : OnePage data)
    (reads : List.Forall₂ (fun arg string => arg.Reads link s.mm.mem string) args strings)
    (apart : ∀ pg, Arg.page pg ∈ args → pg ∉ free) (fits : blockSize strings ≤ PGSIZE) :
    Ensures (kexecLoadStored link cp dp buf data args) s fun stored t => t.mm.freelist ≠ 0 →
      (ArgBlock t cp strings stored.toStackStores ↔
        link.spare args.length = true ∧ GoodLengths strings) := by
  intro stored t returned more
  obtain ⟨trace, run, rfl⟩ := kexecLoadStored_trace dp buf data args s stored t returned
  obtain ⟨mid, rest, loaded⟩ := run.exec_loaded list one
  have outcome := loaded.outcome run reads apart
  have top := outcome.aligned
  have small := outcome.small
  have lengths : PageRegions trace.stored.page (blockRegions (trace.stored.page + PGSIZE) strings) ↔
      GoodLengths strings := by
    refine blockRegions_iff ?_ (by omega) rfl strings fits
    simp only [PGSIZE] at *
    omega
  constructor
  · intro block
    refine ⟨buildStackStored_spare _ _ _ _ _ _ run.stack, ?_⟩
    rw [← lengths, ← (outcome.built block.regions.inside).1]
    exact block.regions
  · rintro ⟨-, good⟩
    have fits' : StackFits strings := by
      refine (blockRegions_inside_iff ?_ (by omega) rfl small strings).mp (lengths.mpr good).inside
      simp only [PGSIZE] at *
      omega
    obtain ⟨regions, last, built⟩ := outcome.built (outcome.inside.mpr fits')
    obtain ⟨w, added, -⟩ := built.added
    have only := (loaded.frame_only run added.grew more).suffix loaded.segments.grew.taken
    exact built.argBlock only run regions reads.length_eq good fits

/-- `kexec` builds a correct argument block exactly when the null pointer has a
place behind `ustack`, the number of arguments is odd and no string has a length
that is a multiple of 16. -/
theorem exec_block_iff {path : List UInt8} {result : Int} {free : List Nat}
    (list : FreeList link s.mm free)
    (one : ∀ opened u, kexecOpen path s = .ok (opened, u) → OnePage opened.2.2)
    (reads : List.Forall₂ (fun arg string => arg.Reads link s.mm.mem string) args strings)
    (apart : ∀ pg, Arg.page pg ∈ args → pg ∉ free) (fits : blockSize strings ≤ PGSIZE)
    (returned : kexec link cp path args s = .ok (result, t)) (more : t.mm.freelist ≠ 0) :
    (∃ stored, kexecStored link cp path args s = .ok (stored, t) ∧ ArgBlock t cp strings stored.toStackStores) ↔
      link.spare args.length = true ∧ GoodLengths strings := by
  rw [kexec_stored] at returned
  obtain ⟨stored, u, call, last⟩ := Act.bind_eq_ok.mp returned
  cases last
  have opened := call
  unfold kexecStored at opened
  obtain ⟨⟨dp, buf, data⟩, v, open_, load⟩ := Act.bind_eq_ok.mp opened
  have memory : v.mm = s.mm := kexecOpen_memory path s.mm s rfl _ v open_
  rw [← memory] at list reads
  have iff := kexecLoadStored_block list (one _ v open_) reads apart fits stored t load more
  constructor
  · rintro ⟨stored', same, block⟩
    obtain rfl : stored' = stored := by
      rw [call] at same
      cases same
      rfl
    exact iff.mp block
  · exact fun good => ⟨stored, call, iff.mpr good⟩

end

/-- A kernel with the program `a`, before its first process. -/
def smallProgram : State := State.loaded (Fs.State.loaded smallCard) (smallMm 20)

theorem smallProgram_run :
    (kexecOpen [97, 0] smallProgram).toOption.map (fun opened => (elfOf opened.1.2.2).phnum) = some 0 ∧
    (kexec smallLink initSlot [97, 0] [.text [97]]).returns smallProgram = true ∧
    ((kexec smallLink initSlot [97, 0] [.text [97]]).after smallProgram).mm.freelist ≠ 0 := by
  decide +kernel

/-- The program is started with one argument. -/
theorem exec_block_one : ∃ t,
    kexec smallLink initSlot [97, 0] [.text [97]] smallProgram = .ok (0, t) ∧
    ∃ stored, kexecStored smallLink initSlot [97, 0] [.text [97]] smallProgram = .ok (stored, t) ∧
      ArgBlock t initSlot [[97]] stored.toStackStores := by
  obtain ⟨headers, runs, more⟩ := smallProgram_run
  obtain ⟨result, returned⟩ := returns_after _ smallProgram runs
  obtain rfl : result = 0 := by
    rw [kexec_stored] at returned
    obtain ⟨_, _, _, last⟩ := Act.bind_eq_ok.mp returned
    cases last
    rfl
  have read : Arg.Reads smallLink smallProgram.mm.mem [97] (.text [97]) := rfl
  refine ⟨_, returned, (exec_block_iff
    (smallMm_freeList (by decide : 20 ≠ 0) (by decide) : FreeList smallLink smallProgram.mm _)
    ?_ (List.Forall₂.cons read List.Forall₂.nil) ?_ (by decide) returned more).mpr ⟨rfl, by decide⟩⟩
  · intro opened u open_ i ph bound
    rw [open_] at headers
    change some (elfOf opened.2.2).phnum = some 0 at headers
    have none := Option.some_inj.mp headers
    omega
  · intro pg member
    cases member with
    | tail _ member => cases member

theorem smallProgram_empty :
    (kexec smallLink initSlot [97, 0] [.text []]).returns smallProgram = true ∧
    (kexecStored smallLink initSlot [97, 0] [.text []] smallProgram).toOption.map
      (fun stored => (stored.1.page, stored.1.regions)) = some (1064960, [(1069040, 16), (1069056, 1)]) := by
  decide +kernel

/-- The NUL of an empty argument is stored behind the stack page. -/
theorem exec_block_empty : blockSize [[]] ≤ PGSIZE ∧
    ∃ result t, kexec smallLink initSlot [97, 0] [.text []] smallProgram = .ok (result, t) ∧
      ¬∃ stored, kexecStored smallLink initSlot [97, 0] [.text []] smallProgram =
          .ok (stored, t) ∧ ArgBlock t initSlot [[]] stored.toStackStores := by
  obtain ⟨runs, stores⟩ := smallProgram_empty
  obtain ⟨result, returned⟩ := returns_after _ smallProgram runs
  refine ⟨by decide, result, _, returned, ?_⟩
  rintro ⟨stored, call, block⟩
  rw [call] at stores
  change some (stored.page, stored.regions) = some _ at stores
  obtain ⟨page, regions⟩ := Prod.mk.inj (Option.some_inj.mp stores)
  have inside := block.regions.inside
  rw [page, regions] at inside
  have last := (inside (1069056, 1) (by simp)).2
  simp only [PGSIZE] at last
  omega

end Gcgos.Kernel
