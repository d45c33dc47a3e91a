import Gcgos.Kernel.Boot
import Gcgos.Kernel.Launch

/-!
# The way to user mode

After `boot` the scheduler takes up the first process, whose context leads to
`forkret`: it loads `init`, and the code of `userret` puts the words of the
trapframe into the registers. The next trap goes back to the table that `kvmmake`
has built, and this table is still what it was.
-/

set_option autoImplicit false

namespace Gcgos.Kernel

open Act ByteMap Fs Bio Arm Radix

section

variable (link : Link)

/-- The first process that `scheduler` finds. -/
def runnableSlot (s : State) : Option (Fin NPROC) :=
  (List.finRange NPROC).find? fun p => (s.proc p).state = .RUNNABLE

/-- The loop of `scheduler` over the table up to the first process that it takes
up. -/
def schedulerPick : Act Fault State (Option (Fin NPROC)) := do
  let picked ← Act.reads runnableSlot
  match picked with
  | none => pure none
  | some p => do
      modifyProc p fun proc => { proc with state := .RUNNING }
      pure (some p)

/-- `"init"`. -/
def initName : List UInt8 := [105, 110, 105, 116]

/-- What `forkret` has put into `sp_el0` and `elr_el1`, and the argument of
`userret`. -/
structure UserEntry where
  sp_el0 : Nat
  elr_el1 : Nat
  x0 : Nat

/-- `forkret` up to the jump to `userret`; `first` is its static variable. -/
def forkret (cp : Fin NPROC) (ttbr : Nat) (first : Bool) : Act Fault State UserEntry := do
  if first then do
    let _ ← kexec link cp (initName ++ [0]) [.text initName]
    pure ()
  else pure ()
  let (sp_el0, elr_el1) ← prepareReturn link cp ttbr
  let p ← procAt cp
  pure ⟨sp_el0, elr_el1, p.pagetable⟩

/-- `kernel_main` on the first processor, up to user mode. `kvminithart` and
`trapinithart` put `kernel_pagetable` into `ttbr0_el1`, where `prepare_return`
finds it. The context that `swtch` takes up has the address of `forkret` in
`x30`. -/
def kernelMain : Act Fault State (Option UserEntry) := do
  let ttbr0_el1 ← bootTable link
  let picked ← schedulerPick
  match picked with
  | none => pure none
  | some p => do
      let entry ← forkret link p ttbr0_el1 true
      pure (some entry)

end

/-! ## What the kernel keeps in the trapframe -/

section

variable {link : Link} {cp : Fin NPROC} {t u : State} {free left : List Nat} {bytes : List UInt8}
  {strings : List (List UInt8)}

/-- From `t` to `u` only the two words that the kernel keeps in the trapframe of
this process were stored. -/
structure KernelWords (t u : State) (cp : Fin NPROC) : Prop where
  proc : u.proc cp = t.proc cp
  list : u.mm.freelist = t.mm.freelist
  same : ∀ a, a < (t.proc cp).tf + 0x100 ∨ (t.proc cp).tf + 0x110 ≤ a → u.mm.mem a = t.mm.mem a

theorem KernelWords.others (words : KernelWords t u cp) (page : IsPage link (t.proc cp).tf) {pg : Nat}
    (page' : IsPage link pg) (different : pg ≠ (t.proc cp).tf) : SameOn t.mm.mem u.mm.mem pg := by
  intro o bound
  apply words.same
  have apart := page'.apart page different
  simp only [PGSIZE] at *
  omega

theorem KernelWords.trapframe (words : KernelWords t u cp) {field : TrapframeField}
    (outside : field.offset + 8 ≤ 0x100 ∨ 0x110 ≤ field.offset) :
    u.trapframe cp field = t.trapframe cp field := by
  unfold State.trapframe word
  rw [words.proc]
  apply leNat_congr
  intro i lower upper
  apply words.same
  omega

theorem Launched.userByte_eq (launched : Launched link t cp free left bytes strings)
    (words : KernelWords t u cp) (va : Nat) :
    userByte u.mm.mem (u.proc cp).pagetable va = userByte t.mm.mem (t.proc cp).pagetable va := by
  obtain ⟨page, -, -, apart⟩ := launched.frame
  unfold userByte
  rw [words.proc, translate_congr fun pg table => words.others page (launched.space.page pg table) ?_]
  rintro rfl
  exact apart table

/-- What user code reads is not in the trapframe. -/
theorem Launched.byte_eq (launched : Launched link t cp free left bytes strings)
    (words : KernelWords t u cp) {va pa : Nat} (low : va < MAXVA)
    (seen : userByte t.mm.mem (t.proc cp).pagetable va = some pa) : u.mm.mem pa = t.mm.mem pa := by
  obtain ⟨-, pg, own, lower, upper⟩ := launched.confined va pa low seen
  have same := words.others launched.frame.1 own.page own.frame (pa - pg) (by omega)
  rwa [Nat.add_sub_cancel' lower] at same

/-- User code reads nothing that reaches beyond the last address. -/
theorem Launched.inside (launched : Launched link t cp free left bytes strings) {va count : Nat}
    (low : va < MAXVA)
    (seen : ∀ k < count, ∃ pa, userByte t.mm.mem (t.proc cp).pagetable (va + k) = some pa) :
    va + count ≤ MAXVA := by
  by_contra beyond
  obtain ⟨pa, last⟩ := seen (MAXVA - 1 - va) (by omega)
  rw [show va + (MAXVA - 1 - va) = MAXVA - 1 by omega] at last
  obtain ⟨below, -⟩ := launched.confined _ pa (by decide) last
  exact absurd below (by decide)

theorem Launched.userBytes (launched : Launched link t cp free left bytes strings)
    (words : KernelWords t u cp) {va : Nat} {run : List UInt8} (low : va < MAXVA)
    (reads : UserBytes t cp va run) : UserBytes u cp va run := by
  have inside := launched.inside low fun k bound => (reads k bound).imp fun _ both => both.1
  intro k bound
  obtain ⟨pa, seen, byte⟩ := reads k bound
  refine ⟨pa, (launched.userByte_eq words _).trans seen, ?_⟩
  rw [launched.byte_eq words (by omega) seen]
  exact byte

theorem Launched.userWord (launched : Launched link t cp free left bytes strings)
    (words : KernelWords t u cp) {va value : Nat} (low : va + 8 ≤ MAXVA)
    (reads : UserWord t cp va value) : UserWord u cp va value := by
  obtain ⟨pa, seen, word⟩ := reads
  refine ⟨pa, fun k bound => (launched.userByte_eq words _).trans (seen k bound), ?_⟩
  rw [← word]
  apply leNat_congr
  intro i lower upper
  have byte := launched.byte_eq words (by omega) (seen (i - pa) (by omega))
  rwa [Nat.add_sub_cancel' lower] at byte

theorem Launched.argBlock (launched : Launched link t cp free left bytes strings)
    (words : KernelWords t u cp) {stored : StackStores} (block : ArgBlock t cp strings stored) :
    ArgBlock u cp strings stored := by
  obtain ⟨-, pointers, high⟩ := launched.pointers
  have x1 : u.trapframe cp (.x .x1) = t.trapframe cp (.x .x1) := words.trapframe (by decide)
  have top : TRAPFRAME ≤ MAXVA := by decide
  constructor
  case mapped =>
    intro o bound
    rw [launched.userByte_eq words, words.proc]
    exact block.mapped o bound
  case regions => exact block.regions
  case aligned =>
    rw [x1]
    exact block.aligned
  case spEl0 => rw [words.trapframe (by decide), x1, block.spEl0]
  case pointers =>
    intro i bound
    obtain ⟨v, low, entry, string⟩ := block.pointers i bound
    rw [x1]
    exact ⟨v, low, launched.userWord words (by omega) entry, launched.userBytes words low string⟩
  case null =>
    rw [x1]
    exact launched.userWord words (by omega) block.null

/-- The two words are not for the program. -/
theorem Launched.stored (launched : Launched link t cp free left bytes strings)
    (words : KernelWords t u cp) (low : ∀ i ph, i < (elfOf (headOf bytes)).phnum →
      IsLoad (headOf bytes) i ph → ph.vaddr < MAXVA) :
    Launched link u cp free left bytes strings := by
  obtain ⟨page, source, out, apart⟩ := launched.frame
  have tables : ∀ pg, IsTable t.mm.mem (t.proc cp).pagetable pg → SameOn t.mm.mem u.mm.mem pg := by
    intro pg table
    refine words.others page (launched.space.page pg table) ?_
    rintro rfl
    exact apart table
  have isTable : ∀ pg, IsTable u.mm.mem (u.proc cp).pagetable pg →
      IsTable t.mm.mem (t.proc cp).pagetable pg := by
    rintro pg ⟨q, short, there⟩
    rw [words.proc, tables_congr tables q short] at there
    exact ⟨q, short, there⟩
  constructor
  case taken => exact launched.taken
  case space =>
    rw [words.proc]
    refine launched.space.congr words.list (fun pg member => ?_) tables
    refine words.others page (launched.space.list.page pg member) ?_
    rintro rfl
    exact out member
  case frame =>
    rw [words.proc]
    exact ⟨page, source, out, fun table => apart (isTable _ (by rw [words.proc]; exact table))⟩
  case kernel =>
    intro va lower upper
    rw [words.proc, translate_congr tables]
    exact launched.kernel va lower upper
  case confined =>
    intro va pa upper seen
    rw [launched.userByte_eq words] at seen
    obtain ⟨below, pg, own, place⟩ := launched.confined va pa upper seen
    refine ⟨below, pg, ⟨own.page, own.source, own.out, ?_, fun table => own.table (isTable pg table)⟩,
      place⟩
    rw [words.proc]
    exact own.frame
  case segments =>
    intro i ph bound load
    exact launched.userBytes words (low i ph bound load) (launched.segments i ph bound load)
  case block =>
    obtain ⟨stored, block⟩ := launched.block
    exact ⟨stored, launched.argBlock words block⟩
  case pointers =>
    rw [words.proc, words.trapframe (by decide)]
    exact launched.pointers
  case x0 => exact (words.trapframe (by decide)).trans launched.x0
  case elr => exact (words.trapframe (by decide)).trans launched.elr

/-- The two words lie in a page that was taken. -/
theorem TakenOnly.words {s : State} (only : TakenOnly s t free left) (words : KernelWords t u cp)
    (launched : Launched link t cp free left bytes strings) : TakenOnly s u free left := by
  intro a apart
  obtain ⟨-, source, out, -⟩ := launched.frame
  have outside := apart _ source out
  rw [words.same a (by simp only [PGSIZE] at outside; omega)]
  exact only a apart

/-- `prepare_return` of a process that has been launched. -/
theorem Launched.returns (launched : Launched link t cp free left bytes strings)
    (program : Program bytes) {ttbr : Nat} (small : ttbr < 2 ^ 64)
    (stack : (t.proc cp).kstack + PGSIZE < 2 ^ 64) :
    Yields (prepareReturn link cp ttbr) t fun regs u => Launched link u cp free left bytes strings ∧
      KernelWords t u cp ∧ u.proc = t.proc ∧ regs = (u.trapframe cp (.x .x1), (elfOf (headOf bytes)).entry) ∧
      u.trapframe cp .kernel_ttbr = ttbr ∧
      u.trapframe cp .kernel_sp = (t.proc cp).kstack + PGSIZE := by
  obtain ⟨page, -, -, -⟩ := launched.frame
  have inside := fun o (bound : o + 8 ≤ PGSIZE) => page.inRam bound
  have offsets : TrapframeField.kernel_ttbr.offset = 0x100 ∧
      TrapframeField.kernel_sp.offset = 0x108 ∧ TrapframeField.elr_el1.offset = 0x110 ∧
      TrapframeField.sp_el0.offset = 0x118 := by decide
  obtain ⟨ttbrAt, spAt, elrAt, spEl0At⟩ := offsets
  obtain ⟨tf, same⟩ : ∃ tf, (t.proc cp).tf = tf := ⟨_, rfl⟩
  rw [same] at inside
  obtain ⟨m, stored⟩ : ∃ m, m = (t.mm.store (tf + 0x100) (leBytes 8 ttbr)).store (tf + 0x108)
    (leBytes 8 ((t.proc cp).kstack + PGSIZE)) := ⟨_, rfl⟩
  have words : KernelWords t { t with mm := m } cp := by
    refine ⟨rfl, by rw [stored]; rfl, fun a outside => ?_⟩
    rw [same] at outside
    simp only [stored, Mm.store]
    rw [putBytes_outside (by rw [leBytes_length]; omega),
      putBytes_outside (by rw [leBytes_length]; omega)]
  have final := launched.stored words fun i ph bound load => by
    have low := (program.fits i ph bound load).low
    simp only [TRAPFRAME, TRAMPOLINE, MAXVA, PGSIZE] at *
    omega
  have spEl0 : word m.mem (tf + 0x118) = State.trapframe { t with mm := m } cp (.x .x1) := by
    obtain ⟨_, block⟩ := final.block
    have equal := block.spEl0
    unfold State.trapframe at equal ⊢
    rw [spEl0At] at equal
    simp only at equal ⊢
    rw [same] at equal ⊢
    exact equal
  have elr : word m.mem (tf + 0x110) = (elfOf (headOf bytes)).entry := by
    have equal := final.elr
    unfold State.trapframe at equal
    rw [elrAt] at equal
    simp only at equal
    rw [same] at equal
    exact equal
  unfold prepareReturn
  refine Yields.step (a := t.proc cp) rfl ?_
  rw [same, ttbrAt, spAt, elrAt, spEl0At]
  have run : (do
      store64 link (tf + 0x100) ttbr
      store64 link (tf + 0x108) ((t.proc cp).kstack + PGSIZE)
      let sp_el0 ← load64 link (tf + 0x118)
      let elr_el1 ← load64 link (tf + 0x110)
      pure (sp_el0, elr_el1) : Act Fault Mm (Nat × Nat)) t.mm =
      .ok ((word m.mem (tf + 0x118), word m.mem (tf + 0x110)), m) := by
    rw [Act.bind_of_ok (store64_run (inside 0x100 (by decide)) _ _),
      Act.bind_of_ok (store64_run (inside 0x108 (by decide)) _ _), ← stored,
      Act.bind_of_ok (load64_run (inside 0x118 (by decide)) m),
      Act.bind_of_ok (load64_run (inside 0x110 (by decide)) m)]
    rfl
  refine ⟨_, _, Act.zoom_of_ok run, final, words, rfl, ?_, ?_, ?_⟩
  · rw [spEl0, elr]
  · change word m.mem ((t.proc cp).tf + TrapframeField.kernel_ttbr.offset) = ttbr
    rw [same, ttbrAt, stored]
    simp only [Mm.store]
    rw [word_store_apart _ _ (by omega)]
    exact word_store_same _ _ small
  · change word m.mem ((t.proc cp).tf + TrapframeField.kernel_sp.offset) = _
    rw [same, spAt, stored]
    simp only [Mm.store]
    exact word_store_same _ _ stack

end

/-! ## The kernel stack of a process -/

section

variable {link : Link}

/-- The process has its kernel stack at `kstack`. -/
def StackAt (cp : Fin NPROC) (kstack : Nat) (s : State) : Prop := (s.proc cp).kstack = kstack

variable {cp : Fin NPROC} {kstack : Nat}

theorem Calm.stackAt {s t : State} (calm : Calm s t) (here : StackAt cp kstack s) :
    StackAt cp kstack t := by
  unfold StackAt at *
  rcases calm.proc cp with same | ⟨_, woken⟩
  · rw [same]
    exact here
  · rw [woken]
    exact here

theorem onMm_stackAt {α : Type} (inner : Act Fault Mm α) :
    Keeps (onMm inner) (StackAt cp kstack) :=
  fun s here => (onMm_calm inner s).mono fun _ _ calm => calm.stackAt here

theorem onFs_stackAt {α : Type} (inner : Act Fault Fs.State α) :
    Keeps (onFs inner) (StackAt cp kstack) :=
  fun s here => (onFs_calm inner s).mono fun _ _ calm => calm.stackAt here

theorem modifyProc_stackAt (p : Fin NPROC) {change : Proc → Proc}
    (same : ∀ proc, (change proc).kstack = proc.kstack) :
    Keeps (modifyProc p change) (StackAt cp kstack) := by
  refine Keeps.modify fun s here => ?_
  unfold StackAt State.setProc at *
  by_cases own : cp = p
  · subst own
    simp only [Function.update_self]
    rw [same]
    exact here
  · simp only [Function.update_of_ne own]
    exact here

theorem loadSectors_stackAt (dp : Inode) (pa count i j : Nat) :
    Keeps (loadSectors link dp pa count i j) (StackAt cp kstack) := by
  induction count generalizing i j with
  | zero =>
      rw [loadSectors_zero]
      exact Keeps.pure
  | succ count ih =>
      rw [loadSectors_succ]
      refine Keeps.seq (onFs_stackAt (Fs.onBio (kexecSector dp i))) fun data => ?_
      exact Keeps.seq (onMm_stackAt _) fun _ => ih (i + 1) (j + 1)

theorem loadSegments_stackAt (dp : Inode) (pagetable : Nat) (data : Block) (count i sz : Nat) :
    Keeps (loadSegments link dp pagetable data count i sz) (StackAt cp kstack) := by
  induction count generalizing i sz with
  | zero => exact Keeps.pure
  | succ count ih =>
      unfold loadSegments
      cases proghdrOf data (elfOf data).phoff i with
      | none => exact Keeps.fail
      | some ph =>
          apply Keeps.ite (ih _ _)
          refine Keeps.seq ?_ fun _ => ih _ _
          unfold loadSegment
          refine Keeps.seq (onMm_stackAt _) fun pa => ?_
          refine Keeps.seq Keeps.stopIf fun _ => ?_
          refine Keeps.seq (loadSectors_stackAt dp pa _ _ _) fun _ => ?_
          exact Keeps.seq (onMm_stackAt _) fun _ => Keeps.pure

/-- `kexec` gives no process another kernel stack. -/
theorem kexec_stackAt (p : Fin NPROC) (path : List UInt8) (args : List Arg) :
    Keeps (kexec link p path args) (StackAt cp kstack) := by
  unfold kexec kexecOpen kexecLoad onBio
  refine Keeps.seq ?_ ?_
  · refine Keeps.seq (onFs_stackAt _) fun dp => ?_
    cases dp with
    | none => exact Keeps.fail
    | some dp =>
        refine Keeps.seq (onFs_stackAt _) fun inode => ?_
        refine Keeps.seq (onFs_stackAt _) fun buf => ?_
        refine Keeps.seq (onFs_stackAt _) fun data => ?_
        exact Keeps.seq Keeps.stopIf fun _ => Keeps.pure
  · rintro ⟨dp, buf, data⟩
    refine Keeps.seq (onMm_stackAt _) ?_
    rintro ⟨pagetable, tf⟩
    refine Keeps.seq (modifyProc_stackAt p fun _ => rfl) fun _ => ?_
    refine Keeps.seq (onFs_stackAt _) fun inode => ?_
    refine Keeps.seq (loadSegments_stackAt inode pagetable data _ _ _) fun last => ?_
    refine Keeps.seq (onMm_stackAt _) fun argv => ?_
    refine Keeps.seq (modifyProc_stackAt p fun _ => rfl) fun _ => ?_
    refine Keeps.seq (onMm_stackAt _) fun _ => ?_
    refine Keeps.seq (modifyProc_stackAt p fun _ => rfl) fun _ => ?_
    exact Keeps.seq (onFs_stackAt _) fun _ => Keeps.pure

end

/-! ## `userret` -/

section

variable {link : Link} {cp : Fin NPROC} {t : State} {free left : List Nat} {bytes : List UInt8}
  {strings : List (List UInt8)}

/-- The processor sees this memory. -/
def Sees (k : Cpu) (mem : Nat → UInt8) : Prop := ∀ a, a < 2 ^ 64 → k.mem (UInt64.ofNat a) = mem a

/-- In the address space of this table the processor walks the table. -/
def Walks (mmu : (ttbr va : UInt64) → UInt64) (mem : Nat → UInt8) (root : Nat) : Prop :=
  ∀ va pte, va < MAXVA → translate mem root va = some pte →
    mmu (UInt64.ofNat root) (UInt64.ofNat va) = UInt64.ofNat (PTE2PA pte + va % PGSIZE)

/-- The trapframe is where `userret` looks for it. -/
theorem Launched.frame_mapped (launched : Launched link t cp free left bytes strings)
    {mmu : (ttbr va : UInt64) → UInt64} (walks : Walks mmu t.mm.mem (t.proc cp).pagetable) :
    Arm.Mapped mmu (UInt64.ofNat (t.proc cp).pagetable) (UInt64.ofNat TRAPFRAME)
      (UInt64.ofNat (t.proc cp).tf) PGSIZE := by
  intro i bound
  obtain ⟨page, -, -, -⟩ := launched.frame
  have place : TRAPFRAME ≤ TRAPFRAME + i ∧ TRAPFRAME + i < MAXVA ∧
      (TRAPFRAME + i) / PGSIZE = TRAPFRAME / PGSIZE ∧ (TRAPFRAME + i) % PGSIZE = i := by
    simp only [TRAPFRAME, TRAMPOLINE, MAXVA, PGSIZE] at *
    omega
  obtain ⟨lower, upper, here, offset⟩ := place
  have entry : translate t.mm.mem (t.proc cp).pagetable (TRAPFRAME + i) =
      some (pteOf (t.proc cp).tf (PTE_NORMAL ||| PTE_AP_RW_EL1)) := by
    rw [launched.kernel _ lower upper, kernelEntry, here, if_neg (by decide), if_pos rfl]
  have physical : (t.proc cp).tf < 2 ^ 48 := by
    have top := page.upper
    simp only [PHYSTOP, KERNBASE, PGSIZE] at top
    omega
  obtain ⟨address, -⟩ := pteOf_parts page.aligned physical
    (by decide : PTE_NORMAL ||| PTE_AP_RW_EL1 < 2 ^ 64) (by decide)
  rw [← UInt64.ofNat_add, walks _ _ upper entry, address, offset, UInt64.ofNat_add]

/-- `userret` puts the trapframe into the registers. -/
theorem Launched.registers (launched : Launched link t cp free left bytes strings)
    {mmu : (ttbr va : UInt64) → UInt64} {k : Cpu} (sees : Sees k t.mm.mem)
    (walks : Walks mmu t.mm.mem (t.proc cp).pagetable)
    (x0 : k.x .x0 = UInt64.ofNat (t.proc cp).pagetable) {r : Reg} (real : r ≠ .x31) :
    (exec mmu userret k).x r = UInt64.ofNat (t.trapframe cp (.x r)) := by
  have mapped := launched.frame_mapped walks
  have inside := register_inside real
  have top := launched.frame.1.upper
  rw [userret_restores real]
  have frame := loadAt_frame (c := { k with sys := Function.update k.sys .ttbr0_el1 (k.x .x0) })
    (by simp only [Function.update_self]; rw [x0]; exact mapped) (.x r)
    (by simp only [PGSIZE]; omega)
  rw [frame]
  unfold frameWord State.trapframe word
  refine congrArg UInt64.ofNat (leNat_shift fun i bound => ?_)
  rw [← UInt64.ofNat_add, ← Nat.add_assoc]
  apply sees
  simp only [PHYSTOP, KERNBASE, PGSIZE] at top
  omega

end

/-! ## From `boot` to the first process -/

section

variable {link : Link}

/-- A process that enters user mode: what the processor then has in its
registers, and where its next trap leads. -/
structure Enters (t : State) (cp : Fin NPROC) (ttbr : Nat) (entry : UserEntry) (argc pc : Nat) :
    Prop where
  elr : entry.elr_el1 = pc
  x0 : entry.x0 = (t.proc cp).pagetable
  trap : t.trapframe cp .kernel_ttbr = ttbr ∧ t.trapframe cp .kernel_sp = KSTACK cp + PGSIZE
  registers : ∀ (mmu : (ttbr va : UInt64) → UInt64) (k : Cpu), Sees k t.mm.mem →
    Walks mmu t.mm.mem (t.proc cp).pagetable → k.x .x0 = UInt64.ofNat entry.x0 →
      (exec mmu userret k).x .x0 = UInt64.ofNat argc ∧
        (exec mmu userret k).x .x1 = UInt64.ofNat entry.sp_el0

/-- The first process of a volume with a program `init`. -/
theorem forkret_enters {tree : List UInt8 → Option UInt32} {cp : Fin NPROC} {s : State} {a : Volume}
    (shown : VolumeShown tree s.fs a) (ready : s.fs.bio.Ready 2) (few : a.opened.card < NINODE)
    {n : UInt32} (named : tree initName = some n) {bytes : List UInt8}
    (there : a.bytes n = some bytes) (program : Program bytes) {free : List Nat}
    (list : FreeList link s.mm free)
    (enough : 8 + 3 * ((elfOf (headOf bytes)).phnum + 1) < free.length)
    (spare : link.spare 1 = true) {ttbr : Nat} (small : ttbr < 2 ^ 64)
    (stack : (s.proc cp).kstack = KSTACK cp) :
    Yields (forkret link cp ttbr true) s fun entry t => (∃ left,
      Launched link t cp free left bytes [initName] ∧ TakenOnly s t free left) ∧
        Enters t cp ttbr entry 1 (elfOf (headOf bytes)).entry := by
  have high : KSTACK cp + PGSIZE < 2 ^ 64 := by
    simp only [KSTACK, TRAMPOLINE, MAXVA, PGSIZE]
    omega
  have reads : Arg.Reads link s.mm.mem initName (.text initName) := rfl
  have loads : Yields (kexec link cp (initName ++ 0 :: []) [.text initName]) s fun r t =>
      (r = 0 ∧ ∃ left, Launched link t cp free left bytes [initName] ∧ TakenOnly s t free left) ∧
        StackAt cp (KSTACK cp) t :=
    (kexec_launched shown ready [] (by decide) few named there program list enough
      (List.Forall₂.cons reads List.Forall₂.nil)
      (by simp) (by decide) spare (by decide)).both (kexec_stackAt cp _ _ s stack)
  unfold forkret
  rw [if_pos rfl]
  refine Yields.seq loads ?_
  rintro _ t ⟨⟨-, left, launched, only⟩, own⟩
  have top : (t.proc cp).kstack = KSTACK cp := own
  refine Yields.seq (launched.returns program small (by rw [top]; exact high)) ?_
  rintro _ u ⟨final, words, same, rfl, ttbrAt, spAt⟩
  refine ⟨_, u, rfl, ⟨left, final, only.words words launched⟩, ?_⟩
  constructor
  case elr => rfl
  case x0 => rfl
  case trap => exact ⟨ttbrAt, by rw [spAt, top]⟩
  case registers =>
    intro mmu k sees walks x0
    have argc := final.x0
    rw [final.registers sees walks x0 (by decide), final.registers sees walks x0 (by decide), argc]
    exact ⟨rfl, rfl⟩

theorem schedulerPick_first {s : State} (runnable : (s.proc initSlot).state = .RUNNABLE) :
    schedulerPick s =
      .ok (some initSlot, s.setProc initSlot { s.proc initSlot with state := .RUNNING }) := by
  have first : runnableSlot s = some initSlot := by
    unfold runnableSlot
    rw [List.finRange_succ, List.find?_cons_of_pos]
    exact decide_eq_true runnable
  unfold schedulerPick
  rw [Act.bind_of_ok (f := Act.reads runnableSlot) rfl, first]
  rfl

/-- With 149 pages behind the kernel, and three for each program header and the
stack, the kernel gets from clean memory to user mode in `init`. -/
theorem kernelMain_enters (text : KERNBASE < link.etext) {fs : Fs.State} {mm : Mm}
    (zero : mm.freelist = 0) (clean : ∀ pg, IsPage link pg → Clean mm.mem pg)
    {tree : List UInt8 → Option UInt32} {a : Volume} (shown : VolumeShown tree fs a)
    (ready : fs.bio.Ready 2) (few : a.opened.card < NINODE) {n : UInt32}
    (named : tree initName = some n) {bytes : List UInt8} (there : a.bytes n = some bytes)
    (program : Program bytes) (spare : link.spare 1 = true)
    (room : link.base + (149 + 3 * ((elfOf (headOf bytes)).phnum + 1)) * PGSIZE ≤ PHYSTOP) :
    Yields (kernelMain link) (State.loaded fs mm) fun picked t => ∃ entry root own free left,
      picked = some entry ∧ Launched link t initSlot free left bytes [initName] ∧
        KernelTable link root own left t.mm ∧
        Enters t initSlot root entry 1 (elfOf (headOf bytes)).entry := by
  have pages : link.base + 140 * PGSIZE ≤ PHYSTOP :=
    le_trans (Nat.add_le_add_left (Nat.mul_le_mul_right _ (by omega)) _) room
  unfold kernelMain
  refine Yields.seq (bootTable_yields link text fs zero clean pages) ?_
  rintro root t ⟨⟨own, rest, up⟩, -, -⟩
  have runnable : (t.proc initSlot).state = .RUNNABLE := by rw [up.first]; rfl
  refine Yields.step (schedulerPick_first runnable) ?_
  obtain ⟨base, count⟩ := up.count
  obtain ⟨files, -, -⟩ := up.kept
  have enough : 8 + 3 * ((elfOf (headOf bytes)).phnum + 1) < rest.length := by
    simp only [NPROC, PGSIZE] at base count room
    omega
  rw [← files] at shown ready
  have stack : ((t.setProc initSlot { t.proc initSlot with state := .RUNNING }).proc initSlot).kstack =
      KSTACK initSlot := by
    unfold State.setProc
    rw [up.first]
    simp only [Function.update_self]
    rfl
  have page := up.kernel.space.page root ⟨[], Nat.zero_le 2, Radix.descend_nil⟩
  have small : root < 2 ^ 64 := by
    have upper := page.upper
    simp only [PHYSTOP, KERNBASE, PGSIZE] at upper
    omega
  refine Yields.seq (forkret_enters (s := t.setProc initSlot _) shown ready few named there program
    up.kernel.space.list enough spare small stack) ?_
  rintro entry u ⟨⟨left, launched, only⟩, enters⟩
  refine ⟨_, u, rfl, entry, root, own, rest, left, rfl, launched, ?_, enters⟩
  exact up.kernel.kept launched.space.list launched.taken.subset fun table reached =>
    only.same (up.kernel.space.list) (up.kernel.space.page table reached)
      (up.kernel.space.held table reached)

end

end Gcgos.Kernel
