import Gcgos.Fs.Read
import Gcgos.Kernel.Arrays

/-!
# Transfers between the kernel and user memory

User memory is what the caller's page table shows at EL0: byte `d` of a buffer
is behind the entry of its own page. `sys_write` and `sys_read` translate the
first byte only and go on in physical memory from there, and neither looks
whether an entry is valid.
-/

set_option autoImplicit false

namespace Gcgos.Kernel

open Act ByteMap Fs

/-- The physical address of a byte that EL0 can access. -/
def userByte (mem : Nat → UInt8) (root va : Nat) : Option Nat :=
  (translate mem root va).bind fun pte =>
    if pte % 4 = 3 ∧ pte &&& PTE_AP_RW ≠ 0 then some (PTE2PA pte + va % PGSIZE) else none

section

variable (link : Link) (s : State) (cp : Fin NPROC)

/-- The physical address of byte `d` of the user's buffer. -/
def State.place (d : Nat) : Option Nat :=
  userByte s.mm.mem (s.proc cp).pagetable (s.pointer cp 1 + d)

/-- The length that the user passes. -/
def State.count : Nat := (s.register cp 2).toNat

/-- All of the user's buffer is there. -/
def Mapped : Prop := ∀ d < s.count cp, (s.place cp d).isSome

/-- The bytes of the buffer in user memory. -/
def virtualBytes : List UInt8 :=
  (List.range (s.count cp)).map fun d => s.mm.mem ((s.place cp d).getD 0)

end

section

variable (link : Link)

/-- A store to a user address. -/
def storeUser (place : Option Nat) (run : List UInt8) : Act Fault Mm Unit :=
  match place with
  | some pa => storeBytes link pa run
  | none => Act.fail .abort

/-- Byte `k` goes to its own place. -/
def storeEach (place : Nat → Option Nat) : (k : Nat) → (run : List UInt8) → Act Fault Mm Unit
  | _, [] => pure ()
  | k, byte :: rest => do
      storeUser link (place k) [byte]
      storeEach place (k + 1) rest

/-- `pipe_read` into user memory. -/
def pipeReadUser (page : Nat) (place : Nat → Option Nat) : (count i : Nat) → Act Fault Mm Unit
  | 0, _ => pure ()
  | count + 1, i => do
      let readp ← load32 link (page + 8)
      let source := (page : Int) + 16 + readp
      Act.stopIf (source < 0) .abort
      let byte ← loadBytes link source.toNat 1
      storeUser link (place i) byte
      store32 link (page + 8) ((readp + 1) % 2 ^ 32).toNat
      pipeReadUser page place count (i + 1)

/-- `fd_read` into user memory: the byte that is transferred as number `k` goes
to place `k`. -/
def fdReadUser (e : Fin NFD) (place : Nat → Option Nat) (n : Int) : Act Fault State Int := do
  let fd ← fdAt e
  if fd.readable = false then pure (-1)
  else
    match fd.type, fd.ip with
    | .FD_PIPE, _ => onMm do
        pipeReadUser link fd.pipe place n.toNat 0
        pure (-1)
    | .FD_FILE, some ip => do
        let (cc, stores) ← onFs (Fs.readi ip fd.off (n % 2 ^ 32).toNat)
        onMm (storeEach link place 0 (stores.map Prod.snd))
        modifyFd e (Fd.advance cc)
        pure cc
    | .FD_FILE, none => Act.fail .abort
    | _, _ => pure (-1)

/-- `sys_read` as the user understands it. -/
def sysReadUser (cp : Fin NPROC) : Act Fault State Int := do
  let fd ← argraw link cp 0
  let n ← argraw link cp 2
  let place ← Act.reads fun s => s.place cp
  let slot ← fdSlot fd
  let e ← fdEntry cp slot
  fdReadUser link e place n

end

section

variable (link : Link) (s : State) (cp : Fin NPROC)

/-- A call with a descriptor, an address below 2^31 and a length that fits the
buffer of `sys_write`, from a process whose user pages are pages of their
own. -/
structure UserTransfer : Prop where
  caller : Caller link s cp
  fd : 0 ≤ s.register cp 0 ∧ s.register cp 0 < NOFILE
  uva : 0 ≤ s.register cp 1
  length : 0 ≤ s.register cp 2 ∧ s.register cp 2 ≤ 512
  user : ∀ va pte, va < 2 ^ 32 → translate s.mm.mem (s.proc cp).pagetable va = some pte →
    pte % 4 = 3 ∧ pte &&& PTE_AP_RW ≠ 0 ∧ IsPage link (PTE2PA pte) ∧
      PTE2PA pte ≠ (s.proc cp).tf ∧ ¬IsTable s.mm.mem (s.proc cp).pagetable (PTE2PA pte)

/-- The same kernel over another memory. -/
def State.withMem (mem : Nat → UInt8) : State := { s with mm := { s.mm with mem := mem } }

/-- The trapframe and the tables are the same. -/
structure SameTables (mem : Nat → UInt8) : Prop where
  tf : SameOn s.mm.mem mem (s.proc cp).tf
  tables : ∀ t, IsTable s.mm.mem (s.proc cp).pagetable t → SameOn s.mm.mem mem t

/-- The same call in any other kernel with an open descriptor. -/
structure SameCall (t : State) : Prop where
  pagetable : (t.proc cp).pagetable = (s.proc cp).pagetable
  frame : (t.proc cp).tf = (s.proc cp).tf
  same : SameTables s cp t.mm.mem
  opened : OpenFd t cp (t.register cp 0)

/-- What both calls promise, whatever user memory holds. -/
structure TransferLaw (stack : Nat → UInt8) : Prop where
  write : ∀ mem, SameTables s cp mem → Mapped s cp →
    argaddr link cp 1 (s.register cp 2) (s.withMem mem) =
      .ok (virtualBytes (s.withMem mem) cp, s.withMem mem)
  read : ∀ mem, SameTables s cp mem → Mapped s cp →
    sysRead link cp (s.withMem mem) = sysReadUser link cp (s.withMem mem)
  refuse : ∀ t, SameCall s cp t → ¬Mapped s cp →
    sysWrite link cp stack t = .ok (-1, t) ∧ sysRead link cp t = .ok (-1, t)

/-- The walk for the first byte ends at an entry, and the buffer is mapped to
one run of physical memory. -/
def Adjacent : Prop :=
  ∃ pa, s.source cp (s.pointer cp 1) = some pa ∧ ∀ d < s.count cp, s.place cp d = some (pa + d)

/-- A read from a file stays within one of its blocks, or does not return. -/
def OnePiece : Prop :=
  ∀ (slot : Fin NOFILE) e ip, (slot.val : Int) = s.register cp 0 →
    (s.proc cp).fds slot = some e → (s.fds e).readable = true → (s.fds e).type = .FD_FILE →
    (s.fds e).ip = some ip →
      OneBlock (s.fs.inode ip) (s.fds e).off (s.count cp) ∨
        ∀ result t, readi ip (s.fds e).off (s.count cp) s.fs ≠ .ok (result, t)

end

section

variable {link : Link} {s : State} {cp : Fin NPROC}

theorem register_congr {t : State} (tf : (t.proc cp).tf = (s.proc cp).tf)
    (same : SameOn s.mm.mem t.mm.mem (s.proc cp).tf) {n : Nat} (bound : n < 8) :
    t.register cp n = s.register cp n := by
  unfold State.register
  rw [tf, same.slot (by omega : n < 512)]

/-- The call reads the same registers and tables. -/
theorem SameTables.caller {t : State} (same : SameTables s cp t.mm.mem)
    (pagetable : (t.proc cp).pagetable = (s.proc cp).pagetable)
    (tf : (t.proc cp).tf = (s.proc cp).tf) (caller : Caller link s cp) : Caller link t cp := by
  constructor
  · rw [tf]
    exact caller.tf
  · rintro table ⟨q, short, there⟩
    rw [pagetable, tables_congr same.tables q short] at there
    exact caller.tables table ⟨q, short, there⟩

section

variable {mem : Nat → UInt8} (same : SameTables s cp mem)

include same

theorem SameTables.register {n : Nat} (bound : n < 8) :
    (s.withMem mem).register cp n = s.register cp n := by
  have tf : ((s.withMem mem).proc cp).tf = (s.proc cp).tf := rfl
  have frame : SameOn s.mm.mem (s.withMem mem).mm.mem (s.proc cp).tf := same.tf
  exact register_congr tf frame bound

theorem SameTables.pointer : (s.withMem mem).pointer cp 1 = s.pointer cp 1 :=
  congrArg sext64 (same.register (by omega))

theorem SameTables.count : (s.withMem mem).count cp = s.count cp :=
  congrArg Int.toNat (same.register (by omega))

theorem SameTables.source (uva : Nat) : (s.withMem mem).source cp uva = s.source cp uva :=
  congrArg (Option.map fun pte => PTE2PA pte + uva % PGSIZE) (lastEntry_congr same.tables uva)

theorem SameTables.place : (s.withMem mem).place cp = s.place cp := by
  funext d
  unfold State.place userByte
  rw [same.pointer]
  exact congrArg (fun entry => Option.bind entry _) (translate_congr same.tables _)

end

theorem UserTransfer.pointer_lt (transfer : UserTransfer link s cp) :
    s.pointer cp 1 < 2 ^ 31 := by
  have positive := transfer.uva
  have small : s.register cp 1 < 2 ^ 31 := by
    unfold State.register asInt32 asInt
    split <;> omega
  unfold State.pointer sext64
  omega

theorem UserTransfer.count_le (transfer : UserTransfer link s cp) :
    s.count cp ≤ 512 ∧ (s.count cp : Int) = s.register cp 2 := by
  have length := transfer.length
  unfold State.count
  omega

/-- A byte of the buffer lies in a page that is no table and no trapframe. -/
theorem UserTransfer.page (transfer : UserTransfer link s cp) {d q : Nat} (bound : d < 512)
    (there : s.place cp d = some q) :
    ∃ pg o, q = pg + o ∧ o < PGSIZE ∧ IsPage link pg ∧ pg ≠ (s.proc cp).tf ∧
      ¬IsTable s.mm.mem (s.proc cp).pagetable pg := by
  have low := transfer.pointer_lt
  unfold State.place userByte at there
  obtain ⟨pte, entry, rest⟩ := Option.bind_eq_some_iff.mp there
  obtain ⟨_, _, page, frame, table⟩ := transfer.user _ pte (by omega) entry
  split at rest
  · cases rest
    exact ⟨PTE2PA pte, _, rfl, Nat.mod_lt _ (by decide), page, frame, table⟩
  · cases rest

/-- Whatever is stored to a byte of the buffer, the tables stay. -/
theorem UserTransfer.vary (transfer : UserTransfer link s cp) {d q : Nat} (bound : d < 512)
    (there : s.place cp d = some q) (value : UInt8) :
    SameTables s cp (putBytes s.mm.mem q [value]) := by
  obtain ⟨pg, o, rfl, inside, page, frame, table⟩ := transfer.page bound there
  constructor
  · exact page.store_other transfer.caller.tf (Ne.symm frame) inside _
  · intro t tables
    have different : t ≠ pg := fun same => table (same ▸ tables)
    exact page.store_other (transfer.caller.tables t tables) different inside _

/-- A buffer in one run of physical memory is memory the kernel maps. -/
theorem UserTransfer.inRam (transfer : UserTransfer link s cp) {pa : Nat}
    (run : ∀ d < s.count cp, s.place cp d = some (pa + d)) : InRam link pa (s.count cp) := by
  have short := transfer.count_le.1
  by_cases empty : s.count cp = 0
  · exact Or.inl empty
  · obtain ⟨pg, o, first, _, page, _, _⟩ := transfer.page (by omega) (run 0 (by omega))
    obtain ⟨pg', o', last, inside, page', _, _⟩ :=
      transfer.page (d := s.count cp - 1) (by omega) (run _ (by omega))
    have lower := page.lower
    have upper := page'.upper
    exact Or.inr ⟨by omega, by omega⟩

/-- What `sys_write` copies is physical memory from the first byte on. -/
theorem UserTransfer.argaddr_run (transfer : UserTransfer link s cp) {mem : Nat → UInt8}
    (same : SameTables s cp mem) {pa : Nat} (found : s.source cp (s.pointer cp 1) = some pa)
    (inside : InRam link pa (s.count cp)) :
    argaddr link cp 1 (s.register cp 2) (s.withMem mem) =
      .ok (getBytes mem pa (s.count cp), s.withMem mem) := by
  have low := transfer.pointer_lt
  have caller : Caller link (s.withMem mem) cp :=
    SameTables.caller (t := s.withMem mem) same rfl rfl transfer.caller
  apply Kernel.argaddr_run caller (by omega)
  change (s.withMem mem).userBytes link cp ((s.withMem mem).pointer cp 1) (s.count cp) = _
  rw [same.pointer]
  unfold State.userBytes
  rw [if_neg (by simp only [MAXVA]; omega), same.source, found, Option.bind_some, if_pos inside]
  rfl

theorem virtualBytes_adjacent {mem : Nat → UInt8} (same : SameTables s cp mem) {pa : Nat}
    (run : ∀ d < s.count cp, s.place cp d = some (pa + d)) :
    virtualBytes (s.withMem mem) cp = getBytes mem pa (s.count cp) := by
  unfold virtualBytes getBytes
  rw [same.count, same.place]
  apply List.map_congr_left
  intro d bound
  rw [run d (List.mem_range.mp bound), Option.getD_some]
  rfl

/-- The copy starts at the first byte, and goes on in physical memory. -/
theorem UserTransfer.argaddr_returned (transfer : UserTransfer link s cp) {mem : Nat → UInt8}
    (same : SameTables s cp mem) {bytes : List UInt8} {t : State}
    (returned : argaddr link cp 1 (s.register cp 2) (s.withMem mem) = .ok (bytes, t)) :
    ∃ pa, s.source cp (s.pointer cp 1) = some pa ∧ bytes = getBytes mem pa (s.count cp) := by
  have caller : Caller link (s.withMem mem) cp :=
    SameTables.caller (t := s.withMem mem) same rfl rfl transfer.caller
  have there := (Kernel.argaddr_returned caller (by omega) returned).1
  change (s.withMem mem).userBytes link cp ((s.withMem mem).pointer cp 1) (s.count cp) = _ at there
  rw [same.pointer] at there
  unfold State.userBytes at there
  split at there
  · cases there
  · obtain ⟨pa, found, rest⟩ := Option.bind_eq_some_iff.mp there
    rw [same.source] at found
    split at rest
    · exact ⟨pa, found, (Option.some_inj.mp rest).symm⟩
    · cases rest

/-- If every memory is copied faithfully, the buffer is one run. -/
theorem UserTransfer.adjacent (transfer : UserTransfer link s cp) (mapped : Mapped s cp)
    (write : ∀ mem, SameTables s cp mem →
      argaddr link cp 1 (s.register cp 2) (s.withMem mem) =
        .ok (virtualBytes (s.withMem mem) cp, s.withMem mem)) : Adjacent s cp := by
  have short := transfer.count_le.1
  have itself : SameTables s cp s.mm.mem := ⟨SameOn.refl _ _, fun t _ => SameOn.refl _ t⟩
  obtain ⟨pa, found, _⟩ := transfer.argaddr_returned itself (write _ itself)
  refine ⟨pa, found, ?_⟩
  intro d bound
  obtain ⟨q, there⟩ := Option.isSome_iff_exists.mp (mapped d bound)
  by_contra apart
  have elsewhere : pa + d ≠ q := fun here => apart (here ▸ there)
  -- A value at the user's byte that the byte at `pa + d` does not have.
  have same := transfer.vary (by omega) there (s.mm.mem (pa + d) + 1)
  obtain ⟨pa', found', copied⟩ := transfer.argaddr_returned same (write _ same)
  obtain rfl : pa = pa' := Option.some_inj.mp (found.symm.trans found')
  have byte := congrArg (fun run : List UInt8 => run.getD d 0) copied
  simp only [virtualBytes] at byte
  rw [getBytes_getD _ _ _ _ bound, putBytes_outside (by simp; omega), same.count, same.place,
    List.getD_eq_getElem _ _ (by simpa using bound), List.getElem_map, List.getElem_range, there,
    Option.getD_some] at byte
  change putBytes s.mm.mem q [s.mm.mem (pa + d) + 1] q = _ at byte
  rw [putBytes_inside le_rfl (by simp), Nat.sub_self] at byte
  exact absurd byte (by simp)

/-- A file-system operation of the whole is one of the file system. -/
theorem onFs_returned {α : Type} {inner : Act Fault Fs.State α} {t : State} {value : α}
    (returned : onFs inner s = .ok (value, t)) :
    t.mm = s.mm ∧ ∃ fs, inner s.fs = .ok (value, fs) := by
  obtain ⟨_, memory, fs, ran, _⟩ :=
    onFs_ensures (p := fun value fs => inner s.fs = .ok (value, fs)) (fun _ _ ran => ran) _ _
      returned
  exact ⟨memory, fs, ran⟩

section

variable {place : Nat → Option Nat} {buf n : Nat} (run : ∀ d < n, place d = some (buf + d))

include run

theorem storeEach_eq (stores : List (Nat × UInt8)) (i : Nat)
    (distances : stores.map Prod.fst = List.range' i stores.length)
    (bound : i + stores.length ≤ n) :
    storeEach link place i (stores.map Prod.snd) = storeAll link buf stores := by
  induction stores generalizing i with
  | nil => rfl
  | cons store rest ih =>
      obtain ⟨distance, byte⟩ := store
      rw [List.length_cons] at bound
      rw [List.map_cons, List.length_cons, List.range'_succ, List.cons.injEq] at distances
      obtain ⟨rfl, later⟩ := distances
      rw [List.map_cons, storeEach, storeAll, ih (distance + 1) later (by omega),
        run distance (by omega)]
      rfl

theorem pipeReadUser_eq (page count i : Nat) (bound : i + count ≤ n) :
    pipeReadUser link page place count i = pipeReadLoop link page buf count i := by
  induction count generalizing i with
  | zero => rfl
  | succ count ih =>
      rw [pipeReadUser, pipeReadLoop, ih (i + 1) (by omega), run i (by omega)]
      rfl

end

/-- `fd_read` stores to user memory when the buffer is one run and the bytes
come in one piece. -/
theorem fdReadUser_eq {place : Nat → Option Nat} {buf : Nat} {n : Int} (e : Fin NFD) (s : State)
    (length : 0 ≤ n ∧ n ≤ 512) (run : ∀ d < n.toNat, place d = some (buf + d))
    (piece : ∀ ip, (s.fds e).readable = true → (s.fds e).type = .FD_FILE → (s.fds e).ip = some ip →
      OneBlock (s.fs.inode ip) (s.fds e).off n.toNat ∨
        ∀ result t, readi ip (s.fds e).off n.toNat s.fs ≠ .ok (result, t)) :
    fdReadUser link e place n s = fdRead link e buf n s := by
  have unsigned : (n % 2 ^ 32).toNat = n.toNat := by omega
  unfold fdReadUser fdRead
  rw [Act.bind_of_ok (f := fdAt e) rfl, Act.bind_of_ok (f := fdAt e) rfl, unsigned]
  by_cases shut : (s.fds e).readable = false
  · rw [if_pos shut, if_pos shut]
  · rw [if_neg shut, if_neg shut]
    rw [Bool.not_eq_false] at shut
    cases type : (s.fds e).type with
    | FD_PIPE =>
        simp only [pipeRead]
        rw [pipeReadUser_eq run _ _ _ (by omega)]
    | FD_FILE =>
        cases inode : (s.fds e).ip with
        | none => rfl
        | some ip =>
            simp only
            rw [Act.bind_run, Act.bind_run]
            cases outcome : onFs (readi ip (s.fds e).off n.toNat) s with
            | error stop => rfl
            | ok pair =>
                obtain ⟨⟨cc, stores⟩, t⟩ := pair
                obtain ⟨_, fs, returned⟩ := onFs_returned outcome
                have block := (piece ip shut type inode).resolve_right
                  fun stops => stops _ _ returned
                obtain ⟨count, bound, distances⟩ :=
                  readi_contiguous ip (by omega) block _ _ returned
                have size : stores.length = count := by
                  simpa using congrArg List.length distances
                rw [← size, List.range_eq_range'] at distances
                simp only
                rw [storeEach_eq run stores 0 distances (by omega)]
    | FD_CLOSE => rfl
    | FD_NONE => rfl

/-- The end of both calls: what they do with the entry behind `p->fds[fd]`. -/
def onFd (cp : Fin NPROC) (fd : Int) (call : Fin NFD → Act Fault State Int) :
    Act Fault State Int := do
  let slot ← fdSlot fd
  let e ← fdEntry cp slot
  call e

theorem sysRead_run (caller : Caller link s cp) (low : s.pointer cp 1 < MAXVA) {pa : Nat}
    (found : s.source cp (s.pointer cp 1) = some pa) :
    sysRead link cp s =
      onFd cp (s.register cp 0) (fun e => fdRead link e pa (s.register cp 2)) s := by
  have address : userAddr link cp (sext64 (s.register cp 1)) s = .ok (pa, s) := by
    have run := userAddr_run caller low
    rw [found] at run
    exact run
  unfold sysRead onFd
  rw [Act.bind_of_ok (argraw_run caller (by omega)), Act.bind_of_ok (argraw_run caller (by omega)),
    Act.bind_of_ok (argraw_run caller (by omega)), Act.bind_of_ok address]

theorem sysReadUser_run (caller : Caller link s cp) :
    sysReadUser link cp s =
      onFd cp (s.register cp 0)
        (fun e => fdReadUser link e (s.place cp) (s.register cp 2)) s := by
  unfold sysReadUser onFd
  rw [Act.bind_of_ok (argraw_run caller (by omega)), Act.bind_of_ok (argraw_run caller (by omega)),
    Act.bind_of_ok (Act.reads_run _ s)]

theorem onFd_run {fd : Int} {slot : Fin NOFILE} {e : Fin NFD} (index : (slot.val : Int) = fd)
    (there : (s.proc cp).fds slot = some e) (read : Fin NFD → Act Fault State Int) :
    onFd cp fd read s = read e s := by
  have bound := slot.isLt
  have inside : 0 ≤ fd ∧ fd < NOFILE := by omega
  have same : (⟨fd.toNat, by omega⟩ : Fin NOFILE) = slot := by
    apply Fin.ext
    simp only
    omega
  have entry : fdEntry cp slot s = .ok (e, s) := by
    unfold fdEntry
    rw [Act.bind_of_ok (f := procAt cp) rfl, there]
    rfl
  unfold onFd fdSlot
  rw [dif_pos inside, Act.bind_of_ok (Act.pure_run _ s), same, Act.bind_of_ok entry]

theorem onFd_congr {fd : Int} {read read' : Fin NFD → Act Fault State Int}
    (agree : ∀ (slot : Fin NOFILE) e, (slot.val : Int) = fd → (s.proc cp).fds slot = some e →
      read e s = read' e s) : onFd cp fd read s = onFd cp fd read' s := by
  by_cases inside : 0 ≤ fd ∧ fd < NOFILE
  · have index : ((⟨fd.toNat, by omega⟩ : Fin NOFILE).val : Int) = fd := by
      simp only
      omega
    cases there : (s.proc cp).fds ⟨fd.toNat, by omega⟩ with
    | some e =>
        rw [onFd_run index there, onFd_run index there, agree _ e index there]
    | none =>
        have empty : fdEntry cp ⟨fd.toNat, by omega⟩ s = .error .abort := by
          unfold fdEntry
          rw [Act.bind_of_ok (f := procAt cp) rfl, there]
          rfl
        unfold onFd fdSlot
        rw [dif_pos inside, Act.bind_of_ok (Act.pure_run _ s), Act.bind_of_ok (Act.pure_run _ s),
          Act.bind_of_error empty, Act.bind_of_error empty]
  · unfold onFd fdSlot
    rw [dif_neg inside]
    rfl

/-- Both calls on a memory with the same tables. -/
theorem UserTransfer.sysRead_run (transfer : UserTransfer link s cp) {mem : Nat → UInt8}
    (same : SameTables s cp mem) {pa : Nat} (found : s.source cp (s.pointer cp 1) = some pa) :
    sysRead link cp (s.withMem mem) =
      onFd cp (s.register cp 0) (fun e => fdRead link e pa (s.register cp 2))
        (s.withMem mem) := by
  have low := transfer.pointer_lt
  have caller : Caller link (s.withMem mem) cp :=
    SameTables.caller (t := s.withMem mem) same rfl rfl transfer.caller
  rw [Kernel.sysRead_run caller (by rw [same.pointer]; simp only [MAXVA]; omega)
    (by rw [same.pointer, same.source]; exact found), same.register (by omega),
    same.register (by omega)]

theorem UserTransfer.sysReadUser_run (transfer : UserTransfer link s cp) {mem : Nat → UInt8}
    (same : SameTables s cp mem) :
    sysReadUser link cp (s.withMem mem) =
      onFd cp (s.register cp 0)
        (fun e => fdReadUser link e (s.place cp) (s.register cp 2)) (s.withMem mem) := by
  have caller : Caller link (s.withMem mem) cp :=
    SameTables.caller (t := s.withMem mem) same rfl rfl transfer.caller
  rw [Kernel.sysReadUser_run caller, same.register (by omega), same.register (by omega),
    same.place]

/-- A buffer in one run and a read in one piece are enough for `sys_read`. -/
theorem UserTransfer.read_faithful (transfer : UserTransfer link s cp) {mem : Nat → UInt8}
    (same : SameTables s cp mem) (adjacent : Adjacent s cp) (piece : OnePiece s cp) :
    sysRead link cp (s.withMem mem) = sysReadUser link cp (s.withMem mem) := by
  obtain ⟨pa, found, run⟩ := adjacent
  rw [transfer.sysRead_run same found, transfer.sysReadUser_run same]
  apply onFd_congr
  intro slot e index there
  exact (fdReadUser_eq e (s.withMem mem) transfer.length run fun ip readable file inode =>
    piece slot e ip index there readable file inode).symm

/-- Stores that miss a byte leave it. -/
theorem storeAll_misses {buf a : Nat} (stores : List (Nat × UInt8)) (m : Mm)
    (missed : ∀ store ∈ stores, buf + store.1 ≠ a) :
    Ensures (storeAll link buf stores) m fun _ t => t.mem a = m.mem a := by
  induction stores generalizing m with
  | nil => exact Ensures.pure rfl
  | cons store rest ih =>
      obtain ⟨distance, byte⟩ := store
      have apart := missed _ List.mem_cons_self
      refine Ensures.seq (storeBytes_ensures (buf + distance) [byte] m) ?_
      rintro _ t ⟨_, rfl⟩
      refine (ih (m.store (buf + distance) [byte]) fun store member =>
        missed store (List.mem_cons_of_mem _ member)).mono ?_
      intro _ u kept
      rw [kept]
      exact putBytes_outside (by simp only [List.length_singleton] at *; omega)

/-- Every byte reaches its place in one run of memory. -/
theorem storeEach_yields {place : Nat → Option Nat} {buf n : Nat}
    (run : ∀ d < n, place d = some (buf + d)) (inside : InRam link buf n) (bytes : List UInt8)
    (i : Nat) (bound : i + bytes.length ≤ n) (m : Mm) :
    Yields (storeEach link place i bytes) m fun _ t =>
      (∀ a, a < buf + i → t.mem a = m.mem a) ∧
        ∀ k, k < bytes.length → t.mem (buf + i + k) = bytes.getD k 0 := by
  induction bytes generalizing i m with
  | nil => exact ⟨(), m, rfl, fun _ _ => rfl, fun k bound => absurd bound (by simp)⟩
  | cons byte rest ih =>
      rw [List.length_cons] at bound
      have ram : InRam link (buf + i) [byte].length := by
        rcases inside with zero | ⟨lower, upper⟩
        · omega
        · exact Or.inr ⟨by omega, by simp only [List.length_singleton]; omega⟩
      have stored : storeUser link (place i) [byte] m = .ok ((), m.store (buf + i) [byte]) := by
        rw [run i (by omega)]
        exact storeBytes_run ram m
      refine Yields.step stored ?_
      refine (ih (i + 1) (by omega) (m.store (buf + i) [byte])).mono ?_
      rintro _ t ⟨below, later⟩
      constructor
      · intro a lower
        rw [below a (by omega)]
        exact putBytes_outside (by omega)
      · intro k within
        cases k with
        | zero =>
            rw [below _ (by omega)]
            change putBytes m.mem (buf + i) [byte] (buf + i) = byte
            rw [putBytes_inside le_rfl (by simp), Nat.sub_self]
            rfl
        | succ k =>
            have next := later k (by simpa using within)
            rw [show buf + i + (k + 1) = buf + (i + 1) + k by omega, next]
            rfl

/-- `fd_read` from a file is `readi` and the stores. -/
theorem fdRead_file {e : Fin NFD} {ip : Fin NINODE} {t : State} {cc : Int}
    {stores : List (Nat × UInt8)} (n : Int) (buf : Nat) (readable : (s.fds e).readable = true)
    (file : (s.fds e).type = .FD_FILE) (inode : (s.fds e).ip = some ip)
    (returned : onFs (readi ip (s.fds e).off (n % 2 ^ 32).toNat) s = .ok ((cc, stores), t)) :
    fdRead link e buf n s =
      (do
        onMm (storeAll link buf stores)
        modifyFd e (Fd.advance cc)
        pure cc : Act Fault State Int) t := by
  unfold fdRead
  rw [Act.bind_of_ok (f := fdAt e) rfl, if_neg (by simp [readable]), file, inode]
  exact Act.bind_of_ok returned

theorem fdReadUser_file {e : Fin NFD} {ip : Fin NINODE} {t : State} {cc : Int}
    {stores : List (Nat × UInt8)} (n : Int) (place : Nat → Option Nat)
    (readable : (s.fds e).readable = true) (file : (s.fds e).type = .FD_FILE)
    (inode : (s.fds e).ip = some ip)
    (returned : onFs (readi ip (s.fds e).off (n % 2 ^ 32).toNat) s = .ok ((cc, stores), t)) :
    fdReadUser link e place n s =
      (do
        onMm (storeEach link place 0 (stores.map Prod.snd))
        modifyFd e (Fd.advance cc)
        pure cc : Act Fault State Int) t := by
  unfold fdReadUser
  rw [Act.bind_of_ok (f := fdAt e) rfl, if_neg (by simp [readable]), file, inode]
  exact Act.bind_of_ok returned

/-- If every memory is read into faithfully, a file is read in one piece. -/
theorem UserTransfer.onePiece (transfer : UserTransfer link s cp) (adjacent : Adjacent s cp)
    (read : ∀ mem, SameTables s cp mem →
      sysRead link cp (s.withMem mem) = sysReadUser link cp (s.withMem mem)) :
    OnePiece s cp := by
  obtain ⟨pa, found, run⟩ := adjacent
  obtain ⟨short, length⟩ := transfer.count_le
  have unsigned : (s.register cp 2 % 2 ^ 32).toNat = s.count cp := by omega
  intro slot e ip index there readable file inode
  by_contra neither
  obtain ⟨across, completes⟩ := not_or.mp neither
  push Not at completes
  obtain ⟨⟨cc, stores⟩, fs, returned⟩ := completes
  obtain ⟨past, within, gap⟩ := readi_gap ip across _ _ returned
  generalize 512 - (s.fds e).off % 512 = k at past gap
  simp only at past within gap
  -- The place behind the first piece gets a value that is not the file's.
  obtain ⟨mem, same, different⟩ : ∃ mem, SameTables s cp mem ∧
      mem (pa + k) ≠ (stores.map Prod.snd).getD k 0 := by
    refine ⟨_, transfer.vary (by omega) (run k (by omega))
      ((stores.map Prod.snd).getD k 0 + 1), ?_⟩
    rw [putBytes_inside le_rfl (by simp), Nat.sub_self]
    simp
  obtain ⟨t, ran⟩ := onFs_run (s := s.withMem mem) returned
  have memory := (onFs_returned ran).1
  rw [← unsigned] at ran
  have both := read mem same
  rw [transfer.sysRead_run same found, transfer.sysReadUser_run same,
    onFd_run (s := s.withMem mem) index there, onFd_run (s := s.withMem mem) index there,
    fdRead_file (s := s.withMem mem) _ pa readable file inode ran,
    fdReadUser_file (s := s.withMem mem) _ (s.place cp) readable file inode ran] at both
  obtain ⟨_, m, stored, _, bytes⟩ := storeEach_yields run (transfer.inRam run)
    (stores.map Prod.snd) 0 (by simpa using within) t.mm
  have wrote : onMm (storeEach link (s.place cp) 0 (stores.map Prod.snd)) t =
      .ok ((), { t with mm := m }) := Act.zoom_of_ok stored
  rw [Act.bind_of_ok wrote] at both
  change _ = Except.ok (cc, State.setFd { t with mm := m } e (Fd.advance cc (t.fds e))) at both
  obtain ⟨_, u, direct, rest⟩ := Act.bind_eq_ok.mp both
  obtain ⟨m', code, rfl⟩ := Act.zoom_eq_ok.mp direct
  have kept := storeAll_misses stores t.mm (a := pa + k)
    (fun store member same => gap store member (by omega)) _ _ code
  have reached := bytes k (by simpa using past)
  cases rest
  rw [Nat.add_zero] at reached
  exact different (((congrFun (congrArg Mm.mem memory) (pa + k)).symm.trans kept.symm).trans reached)

/-- The same call where the descriptor is the console. -/
def consoleCall (s : State) (cp : Fin NPROC) (slot : Fin NOFILE) (e : Fin NFD) (ip : Fin NINODE) :
    State :=
  { s with
    proc := Function.update s.proc cp
      { s.proc cp with fds := Function.update (s.proc cp).fds slot (some e) }
    fds := Function.update s.fds e
      { s.fds e with type := .FD_FILE, writeable := true, ip := some ip }
    fs := s.fs.setInode ip { s.fs.inode ip with type := T_DEV, major := CONSOLE } }

theorem consoleCall_sameCall {slot : Fin NOFILE} (index : (slot.val : Int) = s.register cp 0) (e : Fin NFD) (ip : Fin NINODE) :
    SameCall s cp (consoleCall s cp slot e ip) := by
  have proc : (consoleCall s cp slot e ip).proc cp =
      { s.proc cp with fds := Function.update (s.proc cp).fds slot (some e) } := by
    simp [consoleCall]
  have same : SameTables s cp (consoleCall s cp slot e ip).mm.mem :=
    ⟨SameOn.refl _ _, fun t _ => SameOn.refl _ t⟩
  refine ⟨by rw [proc], by rw [proc], same, slot, ?_, ?_⟩
  · rw [register_congr (by rw [proc]) same.tf (by omega)]
    exact index
  · rw [proc]
    simp

/-- The console takes whatever it is given. -/
theorem fdWrite_console {e : Fin NFD} {ip : Fin NINODE} (buf : List UInt8) (stack : Nat → UInt8)
    {n : Int} (positive : 0 ≤ n) (writeable : (s.fds e).writeable = true)
    (file : (s.fds e).type = .FD_FILE) (inode : (s.fds e).ip = some ip)
    (device : (s.fs.inode ip).type = T_DEV) (major : (s.fs.inode ip).major = CONSOLE) :
    Ensures (fdWrite link e buf stack n) s fun r _ => r = (buf.take n.toNat).length := by
  unfold fdWrite
  refine Ensures.step (a := s.fds e) rfl ?_
  rw [if_neg (by simp [writeable]), file, inode]
  simp only
  refine Ensures.seq (m := fun (r : Int) _ => r = (buf.take n.toNat).length) ?_ ?_
  · intro r t returned
    obtain ⟨_, fs, ran⟩ := onFs_returned returned
    have there : hasDevice (s.fs.inode ip).major := by
      rw [major]
      decide
    unfold writeiBuf writei consoleWrite at ran
    rw [Act.bind_of_ok (f := inodeAt ip) rfl, if_neg (by omega), if_neg (by omega),
      Act.bind_of_ok (f := inodeAt ip) rfl, if_pos device, if_pos there,
      Act.bind_of_ok (f := Act.modify _) rfl] at ran
    cases ran
    rfl
  · intro r t same
    refine Ensures.step rfl ?_
    exact Ensures.pure same

/-- `sys_write` to the console answers with the length of the buffer, mapped or
not. -/
theorem sysWrite_console (caller : Caller link s cp) (stack : Nat → UInt8) {slot : Fin NOFILE}
    {e : Fin NFD} {ip : Fin NINODE} (positive : 0 ≤ s.register cp 2)
    (index : (slot.val : Int) = s.register cp 0) (there : (s.proc cp).fds slot = some e)
    (writeable : (s.fds e).writeable = true) (file : (s.fds e).type = .FD_FILE)
    (inode : (s.fds e).ip = some ip) (device : (s.fs.inode ip).type = T_DEV)
    (major : (s.fs.inode ip).major = CONSOLE) :
    Ensures (sysWrite link cp stack) s fun r _ => r = s.register cp 2 := by
  unfold sysWrite
  refine Ensures.step (argraw_run caller (by omega)) ?_
  refine Ensures.step (argraw_run caller (by omega)) ?_
  refine Ensures.seq (m := fun bytes t => bytes.length = s.count cp ∧ t = s) ?_ ?_
  · exact (argaddr_ensures_iff caller (by omega) _).mpr fun bytes found =>
      ⟨userBytes_length found, rfl⟩
  · intro bytes t copied
    obtain ⟨size, rfl⟩ := copied
    apply Ensures.guard
    intro _ r u returned
    have run := onFd_run index there fun e => fdWrite link e bytes stack (t.register cp 2)
    unfold onFd at run
    beta_reduce at run
    rw [run] at returned
    have answer := fdWrite_console bytes stack positive writeable file inode device major r u returned
    rw [answer, List.length_take, size]
    unfold State.count
    omega

/-- A buffer that is not there is not refused. -/
theorem UserTransfer.mapped (transfer : UserTransfer link s cp) {stack : Nat → UInt8}
    (refuse : ∀ t, SameCall s cp t → ¬Mapped s cp → sysWrite link cp stack t = .ok (-1, t)) :
    Mapped s cp := by
  by_contra missing
  have inside := transfer.fd
  have length := transfer.length
  have index : ((⟨(s.register cp 0).toNat, by omega⟩ : Fin NOFILE).val : Int) =
      s.register cp 0 := by
    simp only
    omega
  have call := consoleCall_sameCall index ⟨0, by decide⟩ ⟨0, by decide⟩
  have caller := call.same.caller call.pagetable call.frame transfer.caller
  have registers : ∀ n < 8, _ = s.register cp n :=
    fun n bound => register_congr call.frame call.same.tf bound
  have answer := sysWrite_console caller stack (e := ⟨0, by decide⟩)
    (by rw [registers 2 (by omega)]; exact length.1) (by rw [registers 0 (by omega)]; exact index)
    (by simp [consoleCall]) (by simp [consoleCall]) (by simp [consoleCall])
    (by simp [consoleCall]; rfl) (by simp [consoleCall]) (by simp [consoleCall]) _ _
    (refuse _ call missing)
  rw [registers 2 (by omega)] at answer
  omega

/-- The kernel moves bytes between its buffers and user memory exactly when the
buffer lies in one run of physical memory, and a file is read in one piece. -/
theorem transfer_law_iff {link : Link} {s : State} {cp : Fin NPROC}
    (transfer : UserTransfer link s cp) (stack : Nat → UInt8) :
    TransferLaw link s cp stack ↔ Adjacent s cp ∧ OnePiece s cp := by
  constructor
  · intro law
    have mapped := transfer.mapped fun t call missing => (law.refuse t call missing).1
    have adjacent := transfer.adjacent mapped fun mem same => law.write mem same mapped
    exact ⟨adjacent, transfer.onePiece adjacent fun mem same => law.read mem same mapped⟩
  · rintro ⟨adjacent, piece⟩
    obtain ⟨pa, found, run⟩ := adjacent
    have mapped : Mapped s cp := fun d bound => by rw [run d bound]; rfl
    constructor
    · intro mem same _
      rw [virtualBytes_adjacent same run]
      exact transfer.argaddr_run same found (transfer.inRam run)
    · intro mem same _
      exact transfer.read_faithful same ⟨pa, found, run⟩ piece
    · intro t call missing
      exact absurd mapped missing

theorem smallUser_transfer (cp : Fin NPROC) (entries : List Nat) (fd uva n : Nat)
    (small : ∀ entry ∈ entries, entry < 2 ^ 64)
    (user : ∀ entry ∈ entries, entry % 4 = 3 ∧ entry &&& PTE_AP_RW ≠ 0 ∧
      IsPage smallLink (PTE2PA entry) ∧ 0x103000 < PTE2PA entry)
    (registers : 0 ≤ (smallUser cp entries [fd, uva, n]).register cp 0 ∧
      (smallUser cp entries [fd, uva, n]).register cp 0 < NOFILE ∧
      0 ≤ (smallUser cp entries [fd, uva, n]).register cp 1 ∧
      0 ≤ (smallUser cp entries [fd, uva, n]).register cp 2 ∧
      (smallUser cp entries [fd, uva, n]).register cp 2 ≤ 512) :
    UserTransfer smallLink (smallUser cp entries [fd, uva, n]) cp := by
  obtain ⟨lower, upper, address, positive, fits⟩ := registers
  refine ⟨smallUser_caller cp entries _, ⟨lower, upper⟩, address, ⟨positive, fits⟩, ?_⟩
  intro va pte _ there
  rw [smallUser_proc] at there
  obtain ⟨valid, access, page, apart⟩ := user pte (smallTables_translate small there)
  rw [smallUser_proc]
  refine ⟨valid, access, page, by simp only; omega, ?_⟩
  intro table
  rcases smallTables_isTable table with same | same | same <;> omega

/-- A buffer inside one page. -/
theorem transfer_law_one_page :
    TransferLaw smallLink (smallUser 0 [0x105447] [0, 0, 16]) 0 fun _ => 0 := by
  refine (transfer_law_iff (smallUser_transfer 0 [0x105447] 0 0 16 (by decide) ?_
    (by decide +kernel)) _).mpr ⟨⟨0x105000, by decide +kernel, by decide +kernel⟩, ?_⟩
  · rintro entry member
    obtain rfl := List.mem_singleton.mp member
    exact ⟨by decide, by decide, ⟨by decide, by decide, by decide⟩, by decide⟩
  · intro slot e ip _ there
    rw [smallUser_proc] at there
    cases there

/-- A buffer over two pages whose second one lies below the first. -/
theorem two_pages_break_transfer_law :
    UserTransfer smallLink (smallUser 0 [0x105447, 0x104447] [0, 0xff8, 16]) 0 ∧
      Mapped (smallUser 0 [0x105447, 0x104447] [0, 0xff8, 16]) 0 ∧
      ¬TransferLaw smallLink (smallUser 0 [0x105447, 0x104447] [0, 0xff8, 16]) 0 fun _ => 0 := by
  have transfer : UserTransfer smallLink (smallUser 0 [0x105447, 0x104447] [0, 0xff8, 16]) 0 := by
    refine smallUser_transfer 0 _ 0 0xff8 16 (by decide) ?_ (by decide +kernel)
    intro entry member
    rcases List.mem_cons.mp member with rfl | rest
    · exact ⟨by decide, by decide, ⟨by decide, by decide, by decide⟩, by decide⟩
    · obtain rfl := List.mem_singleton.mp rest
      exact ⟨by decide, by decide, ⟨by decide, by decide, by decide⟩, by decide⟩
  have mapped : Mapped (smallUser 0 [0x105447, 0x104447] [0, 0xff8, 16]) 0 := by
    unfold Mapped
    decide +kernel
  refine ⟨transfer, mapped, ?_⟩
  intro law
  obtain ⟨pa, _, run⟩ := transfer.adjacent mapped fun mem same => law.write mem same mapped
  have first := (run 0 (by decide +kernel)).symm.trans (by decide +kernel : _ = some 0x105ff8)
  have later := (run 8 (by decide +kernel)).symm.trans (by decide +kernel : _ = some 0x104000)
  rw [Option.some_inj] at first later
  omega

end

end Gcgos.Kernel
