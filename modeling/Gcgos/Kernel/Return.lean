import Gcgos.Kernel.Fork
import Gcgos.Kernel.Locks
import Gcgos.Kernel.Trap

/-!
# The return from a system call

The end of `syscall` stores the result of the call to `x0` of the trapframe,
and `prepare_return` stores the two words that the next trap needs. After an
`exec` the trapframe is the one that `kexec` has filled for the new program.
-/

set_option autoImplicit false

namespace Gcgos.Kernel

open Act ByteMap Fs Arm

/-- A field of a process's trapframe. -/
def State.trapframe (s : State) (cp : Fin NPROC) (field : TrapframeField) : Nat :=
  word s.mm.mem ((s.proc cp).tf + field.offset)

section

variable (link : Link)

/-- `syscall` around the call that its `switch` selects. `ret` is an `int` and
`x0` a `uint64`. -/
def syscall (cp : Fin NPROC) (call : Act Fault State Int) : Act Fault State Unit := do
  let ret ← call
  let p ← procAt cp
  onMm (store64 link (p.tf + (TrapframeField.x .x0).offset) (sext64 ret))

/-- `prepare_return` on a processor with `ttbr` in `ttbr0_el1`: the values it
puts into `sp_el0` and `elr_el1`. -/
def prepareReturn (cp : Fin NPROC) (ttbr : Nat) : Act Fault State (Nat × Nat) := do
  let p ← procAt cp
  onMm do
    store64 link (p.tf + TrapframeField.kernel_ttbr.offset) ttbr
    store64 link (p.tf + TrapframeField.kernel_sp.offset) (p.kstack + PGSIZE)
    let sp_el0 ← load64 link (p.tf + TrapframeField.sp_el0.offset)
    let elr_el1 ← load64 link (p.tf + TrapframeField.elr_el1.offset)
    pure (sp_el0, elr_el1)

/-- An `exec` system call up to its return to user mode. -/
def execCall (cp : Fin NPROC) (ttbr : Nat) : Act Fault State (Nat × Nat) := do
  syscall link cp (sysExec link cp)
  prepareReturn link cp ttbr

/-- What `kexec` has built: the number of arguments, the user address of the
array of pointers to them, and the entry point of the program. -/
structure ExecBuilt where
  argc : Nat
  argv : Nat
  entry : Nat

/-- `kexecLoad` with what it has built as its result. -/
def kexecLoadBuilt (cp : Fin NPROC) (dp : Fin NINODE) (buf : Fin NBUF) (data : Block)
    (args : List Arg) : Act Fault State ExecBuilt := do
  let (pagetable, tf) ← onMm (procPagetable link)
  modifyProc cp fun proc => { proc with tf := tf }
  let inode ← onFs (inodeAt dp)
  let last ← loadSegments link inode pagetable data (elfOf data).phnum 0 0
  let sz := PGROUNDUP last + PGSIZE
  let argv ← onMm (buildStack link pagetable sz args)
  modifyProc cp fun proc => { proc with pagetable := pagetable, sz := sz }
  onMm (setTrapframe link tf argv args.length (elfOf data).entry)
  modifyProc cp fun proc => { proc with state := .RUNNABLE }
  onBio (brelse buf)
  pure ⟨args.length, argv, (elfOf data).entry⟩

/-- `sysExec` with what `kexec` has built as its result. -/
def sysExecBuilt (cp : Fin NPROC) : Act Fault State ExecBuilt := do
  let exe_name ← argaddr link cp 0 DIRSIZ
  let args ← argaddr link cp 1 512
  let pages ← execArgs link cp (argWords args)
  let (dp, buf, data) ← kexecOpen exe_name
  kexecLoadBuilt link cp dp buf data ((pages.takeWhile fun page => page ≠ 0).map Arg.page)

end

section

variable {link : Link}

theorem kexecLoad_built (cp : Fin NPROC) (dp : Fin NINODE) (buf : Fin NBUF) (data : Block)
    (args : List Arg) :
    kexecLoad link cp dp buf data args = kexecLoadBuilt link cp dp buf data args >>= fun _ => pure 0 := by
  unfold kexecLoad kexecLoadBuilt
  simp only [Act.bind_assoc]
  rfl

theorem sysExec_built (cp : Fin NPROC) :
    sysExec link cp = sysExecBuilt link cp >>= fun _ => pure 0 := by
  unfold sysExec sysExecBuilt kexec
  simp only [Act.bind_assoc]
  refine congrArg (argaddr link cp 0 DIRSIZ >>= ·) (funext fun exe_name => ?_)
  refine congrArg (argaddr link cp 1 512 >>= ·) (funext fun args => ?_)
  refine congrArg (execArgs link cp (argWords args) >>= ·) (funext fun pages => ?_)
  refine congrArg (kexecOpen exe_name >>= ·) (funext fun opened => ?_)
  rw [kexecLoad_built, Act.bind_assoc]
  rfl

/-- The registers that the new program starts with. -/
structure ExecContract (s : State) (cp : Fin NPROC) (built : ExecBuilt) : Prop where
  x0 : s.trapframe cp (.x .x0) = built.argc
  x1 : s.trapframe cp (.x .x1) = built.argv
  spEl0 : s.trapframe cp .sp_el0 = built.argv
  elr : s.trapframe cp .elr_el1 = built.entry

/-! ## What `kexec` leaves in the trapframe -/

theorem word_store_apart (mem : Nat → UInt8) {addr field : Nat} (value : Nat)
    (apart : field + 8 ≤ addr ∨ addr + 8 ≤ field) :
    word (putBytes mem addr (leBytes 8 value)) field = word mem field :=
  leNat_putBytes_apart (by rw [leBytes_length]; exact apart)

theorem store64_ensures (addr value : Nat) (m : Mm) :
    Ensures (store64 link addr value) m fun _ t =>
      InRam link addr 8 ∧ t = m.store addr (leBytes 8 value) := by
  have stored : Ensures (storeBytes link addr (leBytes 8 value)) m _ :=
    storeBytes_ensures addr (leBytes 8 value) m
  rw [leBytes_length] at stored
  exact stored

/-- The four words of a trapframe that `kexec` fills, in memory that the
kernel may access. -/
structure FilledFrame (link : Link) (m : Mm) (tf : Nat) (built : ExecBuilt) : Prop where
  low : link.base ≤ tf
  high : tf + 0x120 ≤ PHYSTOP
  x0 : word m.mem tf = built.argc
  x1 : word m.mem (tf + 8) = built.argv
  spEl0 : word m.mem (tf + 0x118) = built.argv
  elr : word m.mem (tf + 0x110) = built.entry

theorem setTrapframe_fills (tf : Nat) {argv argc entry : Nat} (argvFits : argv < 2 ^ 64)
    (argcFits : argc < 2 ^ 64) (entryFits : entry < 2 ^ 64) (m : Mm) :
    Ensures (setTrapframe link tf argv argc entry) m fun _ t =>
      FilledFrame link t tf ⟨argc, argv, entry⟩ := by
  unfold setTrapframe
  refine Ensures.seq (store64_ensures _ _ m) ?_
  rintro _ m1 ⟨top, rfl⟩
  refine Ensures.seq (store64_ensures _ _ _) ?_
  rintro _ m2 ⟨bottom, rfl⟩
  refine Ensures.seq (store64_ensures _ _ _) ?_
  rintro _ m3 ⟨_, rfl⟩
  refine (store64_ensures _ _ _).mono ?_
  rintro _ m4 ⟨_, rfl⟩
  refine ⟨?_, ?_, ?_, ?_, ?_, ?_⟩
  · rcases bottom with zero | ⟨lower, _⟩
    · cases zero
    · exact lower
  · rcases top with zero | ⟨_, upper⟩
    · cases zero
    · omega
  all_goals simp only [Mm.store]
  · rw [word_store_apart _ _ (by omega), word_store_apart _ _ (by omega),
      word_store_same _ _ argcFits]
  · rw [word_store_apart _ _ (by omega), word_store_same _ _ argvFits]
  · rw [word_store_apart _ _ (by omega), word_store_apart _ _ (by omega),
      word_store_apart _ _ (by omega), word_store_same _ _ argvFits]
  · rw [word_store_same _ _ entryFits]

theorem alignDown_lt (x n : Nat) : alignDown x n < 2 ^ 64 := by
  unfold alignDown
  omega

theorem buildStack_fits (pagetable sz : Nat) (args : List Arg) (m : Mm) :
    Ensures (buildStack link pagetable sz args) m fun argv _ => argv < 2 ^ 64 := by
  unfold buildStack
  refine Ensures.seq (m := fun _ _ => True) (fun _ _ _ => trivial) fun sp m1 _ => ?_
  refine Ensures.seq (m := fun _ _ => True) (fun _ _ _ => trivial) fun stack m2 _ => ?_
  refine Ensures.seq (m := fun argv _ => argv < 2 ^ 64) ?_ fun argv m3 fits => ?_
  · unfold pushUstack
    refine Ensures.guard fun _ => ?_
    refine Ensures.seq (m := fun _ _ => True) (fun _ _ _ => trivial) fun _ m4 _ => ?_
    exact Ensures.pure (alignDown_lt _ _)
  · refine Ensures.seq (m := fun _ _ => True) (fun _ _ _ => trivial) fun _ m5 _ => ?_
    exact Ensures.pure fits

/-- The process has its trapframe at `tf`. -/
def FrameAt (cp : Fin NPROC) (tf : Nat) (s : State) : Prop := (s.proc cp).tf = tf

theorem Calm.frameAt {s t : State} (calm : Calm s t) {cp : Fin NPROC} {tf : Nat}
    (here : FrameAt cp tf s) : FrameAt cp tf t := by
  unfold FrameAt at *
  rcases calm.proc cp with same | ⟨_, woken⟩
  · rw [same]
    exact here
  · rw [woken]
    exact here

theorem onMm_frameAt {α : Type} (inner : Act Fault Mm α) (cp : Fin NPROC) (tf : Nat) :
    Keeps (onMm inner) (FrameAt cp tf) :=
  fun s here => (onMm_calm inner s).mono fun _ _ calm => calm.frameAt here

theorem onFs_frameAt {α : Type} (inner : Act Fault Fs.State α) (cp : Fin NPROC) (tf : Nat) :
    Keeps (onFs inner) (FrameAt cp tf) :=
  fun s here => (onFs_calm inner s).mono fun _ _ calm => calm.frameAt here

theorem onFs_memory {α : Type} (inner : Act Fault Fs.State α) (m : Mm) :
    Keeps (onFs inner) fun s => s.mm = m :=
  fun _ same => (onFs_ensures (p := fun _ _ => True) fun _ _ _ => trivial).mono
    fun _ _ done => done.2.1.trans same

theorem onBio_frameAt {α : Type} (inner : Act Fault Bio α) (cp : Fin NPROC) (tf : Nat) :
    Keeps (onBio inner) (FrameAt cp tf) := onFs_frameAt (Fs.onBio inner) cp tf

theorem loadSectors_zero (dp : Inode) (pa i j : Nat) :
    loadSectors link dp pa 0 i j = pure () := rfl

theorem loadSectors_succ (dp : Inode) (pa count i j : Nat) :
    loadSectors link dp pa (count + 1) i j = (do
      let data ← onBio (kexecSector dp i)
      onMm (storeBytes link (pa + 512 * j) (getBytes data.byte 0 512))
      loadSectors link dp pa count (i + 1) (j + 1)) := (rfl)

theorem loadSectors_frameAt (dp : Inode) (pa : Nat) (cp : Fin NPROC) (tf count i j : Nat) :
    Keeps (loadSectors link dp pa count i j) (FrameAt cp tf) := by
  induction count generalizing i j with
  | zero =>
      rw [loadSectors_zero]
      exact Keeps.pure
  | succ count ih =>
      rw [loadSectors_succ]
      apply Keeps.seq (onBio_frameAt (kexecSector dp i) cp tf)
      intro data
      apply Keeps.seq (onMm_frameAt (storeBytes link (pa + 512 * j) (getBytes data.byte 0 512)) cp tf)
      intro _
      exact ih (i + 1) (j + 1)

theorem loadSegments_frameAt (dp : Inode) (pagetable : Nat) (data : Block) (cp : Fin NPROC)
    (tf count i sz : Nat) :
    Keeps (loadSegments link dp pagetable data count i sz) (FrameAt cp tf) := by
  induction count generalizing i sz with
  | zero => exact Keeps.pure
  | succ count ih =>
      unfold loadSegments
      cases proghdrOf data (elfOf data).phoff i with
      | none => exact Keeps.fail
      | some ph =>
          apply Keeps.ite (ih _ _)
          refine Keeps.seq ?_ fun _ => ih _ _
          unfold loadSegment
          refine Keeps.seq (onMm_frameAt _ cp tf) fun pa => ?_
          refine Keeps.seq Keeps.stopIf fun _ => ?_
          refine Keeps.seq (loadSectors_frameAt dp pa cp tf _ _ _) fun _ => ?_
          exact Keeps.seq (onMm_frameAt _ cp tf) fun _ => Keeps.pure

theorem kexecLoadBuilt_fills (cp : Fin NPROC) (dp : Fin NINODE) (buf : Fin NBUF) (data : Block)
    {args : List Arg} (few : args.length < 2 ^ 64) (s : State) :
    Ensures (kexecLoadBuilt link cp dp buf data args) s fun built t =>
      built.argc = args.length ∧ FilledFrame link t.mm (t.proc cp).tf built := by
  unfold kexecLoadBuilt
  refine Ensures.seq (m := fun _ _ => True) (fun _ _ _ => trivial) ?_
  rintro ⟨pagetable, tf⟩ t1 -
  refine Ensures.seq (m := fun _ => FrameAt cp tf) (Ensures.modify ?_) fun _ t2 here => ?_
  · simp [FrameAt, State.setProc]
  refine Ensures.seq (onFs_frameAt _ cp tf t2 here) fun inode t3 here => ?_
  refine Ensures.seq (loadSegments_frameAt inode pagetable data cp tf _ _ _ t3 here)
    fun last t4 here => ?_
  refine Ensures.seq (m := fun argv t => argv < 2 ^ 64 ∧ FrameAt cp tf t) ?_ ?_
  · intro argv t returned
    refine ⟨?_, onMm_frameAt _ cp tf t4 here argv t returned⟩
    obtain ⟨mm, ran, -⟩ := Act.zoom_eq_ok.mp returned
    exact buildStack_fits pagetable _ args t4.mm argv mm ran
  rintro argv t5 ⟨argvFits, here⟩
  refine Ensures.seq (m := fun _ => FrameAt cp tf) (Ensures.modify ?_) fun _ t6 here => ?_
  · simpa [FrameAt, State.setProc] using here
  refine Ensures.seq (m := fun _ t => FrameAt cp tf t ∧ FilledFrame link t.mm tf
    ⟨args.length, argv, (elfOf data).entry⟩) ?_ ?_
  · intro _ t returned
    refine ⟨onMm_frameAt _ cp tf t6 here _ t returned, ?_⟩
    obtain ⟨mm, ran, rfl⟩ := Act.zoom_eq_ok.mp returned
    exact setTrapframe_fills tf argvFits few (leNat_lt data.byte 24 8) t6.mm _ mm ran
  rintro _ t7 ⟨here, filled⟩
  refine Ensures.seq (m := fun _ t => FrameAt cp tf t ∧ FilledFrame link t.mm tf
    ⟨args.length, argv, (elfOf data).entry⟩) (Ensures.modify ⟨?_, filled⟩) ?_
  · simpa [FrameAt, State.setProc] using here
  rintro _ t8 ⟨here, filled⟩
  refine Ensures.seq (m := fun _ t => FrameAt cp tf t ∧ t.mm = t8.mm) ?_ ?_
  · intro _ t returned
    exact ⟨onBio_frameAt _ cp tf t8 here _ t returned, onFs_memory _ t8.mm t8 rfl _ t returned⟩
  rintro _ t9 ⟨here, memory⟩
  refine Ensures.pure ⟨rfl, ?_⟩
  rw [memory, show (t9.proc cp).tf = tf from here]
  exact filled

/-! ## The number of arguments -/

theorem onMm_look {α : Type} {inner : Act Fault Mm α} {s : State}
    (looks : Ensures inner s.mm fun _ m => m = s.mm) :
    Ensures (onMm inner) s fun _ t => t = s := by
  apply Ensures.zoom
  intro value m returned
  rw [looks value m returned]

theorem userAddr_look (cp : Fin NPROC) (uva : Nat) (s : State) :
    Ensures (userAddr link cp uva) s fun _ t => t = s := by
  unfold userAddr
  refine Ensures.step rfl ?_
  refine Ensures.seq (onMm_look ?_) ?_
  · unfold walkaddr
    refine Ensures.seq (walk_keeps _ _ s.mm) ?_
    rintro pte _ rfl
    cases pte with
    | none => exact Ensures.fail
    | some pte =>
        refine Ensures.seq (load64_ensures _ s.mm) ?_
        rintro entry _ ⟨_, _, rfl⟩
        exact Ensures.pure rfl
  · rintro pa t rfl
    exact Ensures.pure rfl

theorem argaddr_look (cp : Fin NPROC) (n : Nat) (max : Int) (s : State) :
    Ensures (argaddr link cp n max) s fun _ t => t = s := by
  unfold argaddr
  refine Ensures.seq (argraw_ensures cp n s) ?_
  rintro uva t ⟨_, rfl⟩
  refine Ensures.seq (userAddr_look cp _ t) ?_
  rintro source u rfl
  apply onMm_look
  unfold loadBytes
  exact Ensures.guard fun _ => Ensures.reads rfl

/-- There are no free pages. -/
def NoPages (s : State) : Prop := s.mm.freelist = 0

theorem onMm_noPages {α : Type} {inner : Act Fault Mm α}
    (keeps : Keeps inner fun m => m.freelist = 0) : Keeps (onMm inner) NoPages := by
  intro s none
  apply Ensures.zoom
  intro value m returned
  exact keeps s.mm none value m returned

theorem kalloc_noPages : Keeps (kalloc link) fun m => m.freelist = 0 := by
  intro m none
  unfold kalloc
  refine Ensures.step rfl ?_
  rw [none, if_pos rfl]
  exact Ensures.pure none

theorem fetchLoop_freelist (size d s : Nat) (m : Mm) :
    Ensures (fetchLoop link size d s) m fun _ t => t.freelist = m.freelist := by
  have look : ∀ (a : Nat) (n : Mm), Ensures (loadBytes link a 1) n fun _ t => t = n := by
    intro a n
    unfold loadBytes
    exact Ensures.guard fun _ => Ensures.reads rfl
  induction size generalizing d s m with
  | zero =>
      unfold fetchLoop
      refine Ensures.seq (look s m) ?_
      rintro byte t rfl
      exact Ensures.pure rfl
  | succ size ih =>
      unfold fetchLoop
      refine Ensures.seq (look s m) ?_
      rintro byte t rfl
      apply Ensures.ite
      · exact fun _ => Ensures.pure rfl
      · intro _
        refine Ensures.seq (storeBytes_ensures d byte t) ?_
        rintro _ u ⟨_, rfl⟩
        exact ih (d + 1) (s + 1) _

theorem fetchaddr_noPages (cp : Fin NPROC) (uva ip size : Nat) :
    Keeps (fetchaddr link cp uva ip size) NoPages := by
  intro s none
  unfold fetchaddr
  refine Ensures.seq (userAddr_look cp uva s) ?_
  rintro source t rfl
  exact onMm_noPages (fun m none => (fetchLoop_freelist size ip source m).mono
    fun _ _ same => same.trans none) t none

theorem execArgs_noPages (cp : Fin NPROC) (words : List Nat) :
    Keeps (execArgs link cp words) NoPages := by
  induction words with
  | nil => exact Keeps.fail
  | cons uva rest ih =>
      unfold execArgs
      apply Keeps.ite Keeps.pure
      apply Keeps.seq (onMm_noPages kalloc_noPages)
      intro page
      apply Keeps.seq (fetchaddr_noPages cp uva page PGSIZE)
      intro _
      exact Keeps.seq ih fun _ => Keeps.pure

/-- A null pointer that `kalloc` has returned leaves no page to go on with. -/
theorem execArgs_first (cp : Fin NPROC) {uva : Nat} (present : uva ≠ 0) (rest : List Nat)
    (s : State) :
    Ensures (execArgs link cp (uva :: rest)) s fun pages t =>
      ∃ page others, pages = page :: others ∧ (page = 0 → NoPages t) := by
  unfold execArgs
  rw [if_neg present]
  refine Ensures.seq (m := fun page t => page = 0 → NoPages t) ?_ ?_
  · apply Ensures.zoom
    unfold kalloc
    refine Ensures.step rfl ?_
    apply Ensures.ite
    · exact fun none => Ensures.pure fun _ => none
    · intro some
      refine Ensures.seq (m := fun _ _ => True) (fun _ _ _ => trivial) fun next m _ => ?_
      refine Ensures.seq (m := fun _ _ => True) (fun _ _ _ => trivial) fun _ m _ => ?_
      exact Ensures.pure fun zero => absurd zero some
  intro page t zero
  refine Ensures.seq (m := fun _ t => page = 0 → NoPages t) ?_ ?_
  · intro value u returned null
    exact fetchaddr_noPages cp uva page PGSIZE t (zero null) value u returned
  intro _ u zero
  refine Ensures.seq (m := fun _ t => page = 0 → NoPages t) ?_ ?_
  · intro value v returned null
    exact execArgs_noPages cp rest u (zero null) value v returned
  intro others v zero
  exact Ensures.pure ⟨page, others, rfl, zero⟩

theorem procPagetable_noPages {m : Mm} (none : m.freelist = 0) :
    Ensures (procPagetable link) m fun _ _ => False := by
  unfold procPagetable uvmcreat
  refine Ensures.seq (m := fun root _ => root = 0) ?_ ?_
  · unfold kalloc
    refine Ensures.step rfl ?_
    rw [none, if_pos rfl]
    exact Ensures.pure rfl
  rintro _ t rfl
  refine Ensures.seq (mappages_null _ _ _ (by decide) t) fun _ _ impossible => impossible.elim

/-- The first word of the bytes that `sys_exec` copies from its second
argument: the user address of the first argument string. -/
def firstArg (args : List UInt8) : Nat := leNat (fun a => args.getD a 0) 0 8

theorem argWords_cons (args : List UInt8) : ∃ rest, argWords args = firstArg args :: rest :=
  ⟨_, by unfold argWords; rw [show MAXARG = 31 + 1 from rfl, List.range_succ_eq_map]; rfl⟩

theorem argWords_length (args : List UInt8) : (argWords args).length = MAXARG := by
  simp [argWords]

theorem kexecOpen_memory (path : List UInt8) (m : Mm) :
    Keeps (kexecOpen path) fun s => s.mm = m := by
  unfold kexecOpen
  apply Keeps.seq (onFs_memory _ m)
  intro dp
  cases dp with
  | none => exact Keeps.fail
  | some dp =>
      apply Keeps.seq (onFs_memory _ m)
      intro inode
      apply Keeps.seq (onFs_memory _ m)
      intro buf
      apply Keeps.seq (onFs_memory _ m)
      intro data
      exact Keeps.seq Keeps.stopIf fun _ => Keeps.pure

theorem sysExecBuilt_fills {cp : Fin NPROC} {s : State} {args : List UInt8}
    (vector : argaddr link cp 1 512 s = .ok (args, s)) :
    Ensures (sysExecBuilt link cp) s fun built t =>
      FilledFrame link t.mm (t.proc cp).tf built ∧ (built.argc = 0 ↔ firstArg args = 0) := by
  unfold sysExecBuilt
  refine Ensures.seq (argaddr_look cp 0 DIRSIZ s) ?_
  rintro exe_name t rfl
  refine Ensures.step vector ?_
  obtain ⟨rest, words⟩ := argWords_cons args
  refine Ensures.seq (m := fun pages u => (pages.takeWhile fun page => page ≠ 0).length < 2 ^ 64 ∧
    ((pages.takeWhile fun page => page ≠ 0).length = 0 ↔ firstArg args = 0) ∨ NoPages u) ?_ ?_
  · intro pages u returned
    have length := execArgs_length (argWords args) t pages u returned
    have few : (pages.takeWhile fun page => page ≠ 0).length < 2 ^ 64 := by
      have shorter := (List.takeWhile_prefix (l := pages) fun page => page ≠ 0).length_le
      have fewer := (List.takeWhile_prefix (l := argWords args) fun word => word ≠ 0).length_le
      rw [argWords_length] at fewer
      have bound : MAXARG < 2 ^ 64 := by decide
      omega
    by_cases null : firstArg args = 0
    · left
      refine ⟨few, fun _ => null, fun _ => ?_⟩
      rw [words, null, List.takeWhile_cons_of_neg (by simp), List.length_nil] at length
      rw [List.eq_nil_of_length_eq_zero length]
      rfl
    · rw [words] at returned
      obtain ⟨page, others, rfl, zero⟩ := execArgs_first cp null rest t pages u returned
      by_cases empty : page = 0
      · exact Or.inr (zero empty)
      · left
        refine ⟨few, ?_⟩
        rw [List.takeWhile_cons_of_pos (by simpa using empty)]
        simp [null]
  intro pages u counted
  refine Ensures.seq (kexecOpen_memory exe_name u.mm u rfl) ?_
  rintro ⟨dp, buf, data⟩ v memory
  rcases counted with ⟨few, argc⟩ | none
  · refine (kexecLoadBuilt_fills cp dp buf data (by rwa [List.length_map]) v).mono ?_
    rintro built w ⟨count, filled⟩
    rw [List.length_map] at count
    exact ⟨filled, by rw [count]; exact argc⟩
  · unfold kexecLoadBuilt
    refine Ensures.seq (m := fun _ _ => False) ?_ fun _ _ impossible => impossible.elim
    apply Ensures.zoom
    rw [memory]
    exact procPagetable_noPages none

/-- What the end of the call leaves of the filled trapframe. -/
theorem return_stores {cp : Fin NPROC} (ttbr : Nat) {u : State} {built : ExecBuilt}
    (filled : FilledFrame link u.mm (u.proc cp).tf built) :
    Yields (do
      onMm (store64 link ((u.proc cp).tf + (TrapframeField.x .x0).offset) (sext64 0))
      prepareReturn link cp ttbr) u fun _ t =>
        t.trapframe cp (.x .x0) = 0 ∧ t.trapframe cp (.x .x1) = built.argv ∧
          t.trapframe cp .sp_el0 = built.argv ∧ t.trapframe cp .elr_el1 = built.entry := by
  have low := filled.low
  have high := filled.high
  have offsets : (TrapframeField.x .x0).offset = 0 ∧ (TrapframeField.x .x1).offset = 8 ∧
      TrapframeField.kernel_ttbr.offset = 0x100 ∧ TrapframeField.kernel_sp.offset = 0x108 ∧
      TrapframeField.elr_el1.offset = 0x110 ∧ TrapframeField.sp_el0.offset = 0x118 := by decide
  obtain ⟨x0At, x1At, ttbrAt, spAt, elrAt, spEl0At⟩ := offsets
  have inside (o : Nat) (bound : o ≤ 0x118) : InRam link ((u.proc cp).tf + o) 8 :=
    Or.inr ⟨by omega, by omega⟩
  refine Yields.step (Act.zoom_of_ok (store64_run (inside _ (by decide)) _ u.mm)) ?_
  unfold prepareReturn
  refine Yields.step (a := u.proc cp) rfl ?_
  apply Yields.zoom
  refine Yields.step (store64_run (inside _ (by decide)) _ _) ?_
  refine Yields.step (store64_run (inside _ (by decide)) _ _) ?_
  refine Yields.step (load64_run (inside _ (by decide)) _) ?_
  refine Yields.step (load64_run (inside _ (by decide)) _) ?_
  refine ⟨_, _, rfl, ?_⟩
  simp only [State.trapframe, Mm.store, x0At, x1At, ttbrAt, spAt, elrAt, spEl0At, Nat.add_zero]
  refine ⟨?_, ?_, ?_, ?_⟩
  · rw [word_store_apart _ _ (by omega), word_store_apart _ _ (by omega)]
    exact word_store_same _ _ (by decide)
  · rw [word_store_apart _ _ (by omega), word_store_apart _ _ (by omega),
      word_store_apart _ _ (by omega), filled.x1]
  · rw [word_store_apart _ _ (by omega), word_store_apart _ _ (by omega),
      word_store_apart _ _ (by omega), filled.spEl0]
  · rw [word_store_apart _ _ (by omega), word_store_apart _ _ (by omega),
      word_store_apart _ _ (by omega), filled.elr]

theorem exec_registers_iff {cp : Fin NPROC} (ttbr : Nat) {s u : State} {args : List UInt8}
    {built : ExecBuilt} (vector : argaddr link cp 1 512 s = .ok (args, s))
    (returned : sysExecBuilt link cp s = .ok (built, u)) :
    Yields (execCall link cp ttbr) s fun _ t => ExecContract t cp built ↔ firstArg args = 0 := by
  obtain ⟨filled, argc⟩ := sysExecBuilt_fills vector built u returned
  have exec : sysExec link cp s = .ok (0, u) := by
    rw [sysExec_built, Act.bind_of_ok returned]
    rfl
  unfold execCall syscall
  rw [Act.bind_assoc]
  refine Yields.step exec ?_
  rw [Act.bind_assoc]
  refine Yields.step (a := u.proc cp) (t := u) rfl ?_
  refine (return_stores ttbr filled).mono ?_
  rintro regs t ⟨x0, x1, spEl0, elr⟩
  rw [← argc]
  constructor
  · intro contract
    rw [← contract.x0, x0]
  · intro none
    exact ⟨by rw [x0, none], x1, spEl0, elr⟩

end

/-- The caller of `smallExecReady` with a vector of no arguments. -/
def smallExecBare : State :=
  { smallExecReady with
    mm := smallExecReady.mm.store ((smallExecReady.proc initSlot).tf + 8) (leBytes 8 (PGSIZE + 24)) }

theorem smallExecBare_run :
    (sysExecBuilt smallLink initSlot).returns smallExecBare = true ∧
    ((argaddr smallLink initSlot 1 512 smallExecBare).toOption.map fun pair => firstArg pair.1) =
      some 0 := by
  decide +kernel

theorem exec_registers_bare :
    ∃ args built u, argaddr smallLink initSlot 1 512 smallExecBare = .ok (args, smallExecBare) ∧
      sysExecBuilt smallLink initSlot smallExecBare = .ok (built, u) ∧
      Yields (execCall smallLink initSlot 0) smallExecBare fun _ t =>
        ExecContract t initSlot built := by
  obtain ⟨runs, first⟩ := smallExecBare_run
  obtain ⟨built, returned⟩ := returns_after _ smallExecBare runs
  obtain ⟨⟨args, t⟩, copied, none⟩ := Option.map_eq_some_iff.mp first
  have vector := ok_of_toOption copied
  have same := argaddr_look initSlot 1 512 smallExecBare args t vector
  rw [same] at vector
  refine ⟨args, built, _, vector, returned, ?_⟩
  refine (exec_registers_iff 0 vector returned).mono ?_
  intro _ t iff
  exact iff.mpr none

theorem smallExec_registers :
    (execCall smallLink initSlot 0).returns smallExecReady = true ∧
    ((execCall smallLink initSlot 0).after smallExecReady).trapframe initSlot (.x .x0) = 0 ∧
    ((sysExecBuilt smallLink initSlot smallExecReady).toOption.map fun pair => pair.1.argc) =
      some 1 := by
  decide +kernel

/-- A program that was given one argument starts with `x0` zero. -/
theorem exec_loses_argc :
    ∃ built u regs t, sysExecBuilt smallLink initSlot smallExecReady = .ok (built, u) ∧
      execCall smallLink initSlot 0 smallExecReady = .ok (regs, t) ∧
      ¬ExecContract t initSlot built := by
  obtain ⟨runs, x0, count⟩ := smallExec_registers
  obtain ⟨regs, returned⟩ := returns_after _ smallExecReady runs
  obtain ⟨⟨built, u⟩, copied, one⟩ := Option.map_eq_some_iff.mp count
  have exec := ok_of_toOption copied
  refine ⟨built, u, regs, _, exec, returned, ?_⟩
  intro contract
  have argc := contract.x0
  rw [x0] at argc
  change built.argc = 1 at one
  omega

end Gcgos.Kernel
