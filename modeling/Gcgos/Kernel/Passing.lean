import Gcgos.Kernel.Return
import Gcgos.Kernel.Transfer
import Mathlib.Data.List.Forall2
import Mathlib.Data.List.TakeWhile

/-!
# How `sys_exec` passes its arguments

`sys_exec` copies every argument string to a page of its own and hands the
pages to `kexec`, which measures the strings in them. The copy stops in front
of the NUL. What ends the string in its new page is the byte that the page had
behind it.
-/

set_option autoImplicit false

namespace Gcgos.Kernel

open Act ByteMap Radix

/-- The part of `sys_exec` that builds `argv`. -/
def execVector (link : Link) (cp : Fin NPROC) : Act Fault State (List Arg) := do
  let args ← argaddr link cp 1 512
  let pages ← execArgs link cp (argWords args)
  pure ((pages.takeWhile fun page => page ≠ 0).map Arg.page)

theorem sysExec_vector (link : Link) (cp : Fin NPROC) :
    sysExec link cp = (do
      let exe_name ← argaddr link cp 0 Fs.DIRSIZ
      let args ← execVector link cp
      let _ ← kexec link cp exe_name args
      pure 0) := by
  unfold sysExec execVector
  simp only [Act.bind_assoc, Act.pure_bind]

/-- The bytes from `addr` on are this string; it has no NUL of its own. -/
structure StringAt (mem : Nat → UInt8) (addr : Nat) (string : List UInt8) : Prop where
  plain : 0 ∉ string
  bytes : ∀ k < string.length, mem (addr + k) = string.getD k 0

namespace StringAt

variable {mem mem' : Nat → UInt8} {addr : Nat} {byte : UInt8} {string : List UInt8}

theorem head (there : StringAt mem addr (byte :: string)) : mem addr = byte ∧ byte ≠ 0 := by
  refine ⟨there.bytes 0 (by simp), ?_⟩
  rintro rfl
  exact there.plain List.mem_cons_self

theorem tail (there : StringAt mem addr (byte :: string)) : StringAt mem (addr + 1) string := by
  refine ⟨fun member => there.plain (List.mem_cons_of_mem _ member), ?_⟩
  intro k bound
  have next := there.bytes (k + 1) (by simpa using bound)
  rw [show addr + (k + 1) = addr + 1 + k by omega] at next
  exact next

theorem congr (there : StringAt mem addr string)
    (same : ∀ k < string.length, mem' (addr + k) = mem (addr + k)) :
    StringAt mem' addr string :=
  ⟨there.plain, fun k bound => (same k bound).trans (there.bytes k bound)⟩

end StringAt

section

variable {link : Link}

/-- Looking at one byte. -/
theorem loadByte_run {addr : Nat} (inside : InRam link addr 1) (m : Mm) :
    loadBytes link addr 1 m = .ok ([m.mem addr], m) := by
  rw [loadBytes_run inside]
  rfl

theorem cstring_run (fuel addr : Nat) {m : Mm} (string : List UInt8)
    (there : StringAt m.mem addr string) (nul : m.mem (addr + string.length) = 0)
    (inside : InRam link addr (string.length + 1)) (enough : string.length < fuel) :
    cstring link fuel addr m = .ok (string, m) := by
  induction string generalizing fuel addr with
  | nil =>
      obtain ⟨fuel, rfl⟩ := Nat.exists_eq_succ_of_ne_zero (Nat.ne_of_gt enough)
      unfold cstring
      rw [Act.bind_of_ok (loadByte_run inside m), show m.mem addr = 0 from nul, if_pos rfl]
      rfl
  | cons byte rest ih =>
      rw [List.length_cons] at enough inside nul
      obtain ⟨fuel, rfl⟩ := Nat.exists_eq_succ_of_ne_zero (Nat.ne_of_gt (Nat.zero_lt_of_lt enough))
      obtain ⟨first, some⟩ := there.head
      have bounds := inside.resolve_left (by omega)
      have tail := ih fuel (addr + 1) there.tail
        (by rw [show addr + 1 + rest.length = addr + (rest.length + 1) by omega]; exact nul)
        (Or.inr ⟨by omega, by omega⟩) (by omega)
      unfold cstring
      rw [Act.bind_of_ok (loadByte_run (Or.inr ⟨bounds.1, by omega⟩) m), first,
        if_neg (by simpa using some), Act.bind_of_ok tail]
      rfl

end

/-- An argument of the user: its address, the string there, and the page that
the string lies in. -/
structure UserArg where
  uva : Nat
  string : List UInt8
  page : Nat

/-- The string and its NUL lie in one page that the user can access. -/
structure UserArg.Valid (link : Link) (s : State) (cp : Fin NPROC) (arg : UserArg) : Prop where
  low : arg.uva < MAXVA
  mapped : userByte s.mm.mem (s.proc cp).pagetable arg.uva = some (arg.page + arg.uva % PGSIZE)
  isPage : IsPage link arg.page
  inside : arg.uva % PGSIZE + arg.string.length < PGSIZE
  there : StringAt s.mm.mem (arg.page + arg.uva % PGSIZE) arg.string
  nul : s.mm.mem (arg.page + arg.uva % PGSIZE + arg.string.length) = 0

/-- Nothing that a call depends on is on the free list. -/
structure Apart (link : Link) (s : State) (cp : Fin NPROC) (free : List Nat) : Prop where
  caller : Caller link s cp
  listed : Listed link s.mm free
  tf : (s.proc cp).tf ∉ free
  tables : ∀ t, IsTable s.mm.mem (s.proc cp).pagetable t → t ∉ free

/-- The argument strings are there, on no free page. -/
structure ArgsThere (link : Link) (s : State) (cp : Fin NPROC) (args : List UserArg)
    (free : List Nat) : Prop extends Apart link s cp free where
  strings : ∀ arg ∈ args, arg.Valid link s cp ∧ arg.page ∉ free

section

variable {link : Link} {s t : State} {cp : Fin NPROC} {args : List UserArg} {free : List Nat}

theorem UserArg.Valid.inRam {arg : UserArg} (valid : arg.Valid link s cp) :
    InRam link (arg.page + arg.uva % PGSIZE) (arg.string.length + 1) :=
  valid.isPage.inRam (by have inside := valid.inside; omega)

/-- A string is kept together with its page and the tables. -/
theorem UserArg.Valid.congr {arg : UserArg} (valid : arg.Valid link s cp)
    (pagetable : (t.proc cp).pagetable = (s.proc cp).pagetable)
    (tables : ∀ table, IsTable s.mm.mem (s.proc cp).pagetable table →
      SameOn s.mm.mem t.mm.mem table)
    (same : SameOn s.mm.mem t.mm.mem arg.page) : arg.Valid link t cp := by
  have inside := valid.inside
  have byte : ∀ k ≤ arg.string.length, t.mm.mem (arg.page + arg.uva % PGSIZE + k) =
      s.mm.mem (arg.page + arg.uva % PGSIZE + k) := by
    intro k bound
    rw [Nat.add_assoc]
    exact same _ (by omega)
  refine ⟨valid.low, ?_, valid.isPage, inside, ?_, ?_⟩
  · unfold userByte
    rw [pagetable, translate_congr tables]
    exact valid.mapped
  · exact valid.there.congr fun k bound => byte k bound.le
  · rw [byte _ le_rfl]
    exact valid.nul

/-- The tables of the caller are on no page that changes. -/
theorem Apart.kept (apart : Apart link s cp free)
    (same : ∀ other, IsPage link other → other ∉ free.head? → SameOn s.mm.mem t.mm.mem other) :
    SameTables s cp t.mm.mem := by
  constructor
  · exact same _ apart.caller.tf fun head => apart.tf (List.mem_of_mem_head? head)
  · intro table reached
    exact same _ (apart.caller.tables table reached) fun head =>
      apart.tables table reached (List.mem_of_mem_head? head)

/-- A free page is taken, if there is one, and filled. -/
theorem Apart.next (apart : Apart link s cp free) (proc : t.proc cp = s.proc cp)
    (listed : Listed link t.mm free.tail)
    (same : ∀ other, IsPage link other → other ∉ free.head? → SameOn s.mm.mem t.mm.mem other) :
    Apart link t cp free.tail := by
  have kept := apart.kept same
  refine ⟨kept.caller (by rw [proc]) (by rw [proc]) apart.caller, listed, ?_, ?_⟩
  · rw [proc]
    exact fun member => apart.tf (List.mem_of_mem_tail member)
  · rintro table ⟨q, short, reached⟩ member
    rw [proc, tables_congr kept.tables q short] at reached
    exact apart.tables table ⟨q, short, reached⟩ (List.mem_of_mem_tail member)

/-- A free page is taken and filled. -/
theorem ArgsThere.next {pg : Nat} (there : ArgsThere link s cp args (pg :: free))
    (proc : t.proc cp = s.proc cp) (listed : Listed link t.mm free)
    (same : ∀ other, IsPage link other → other ≠ pg → SameOn s.mm.mem t.mm.mem other) :
    ArgsThere link t cp args free := by
  have others : ∀ other, IsPage link other → other ∉ (pg :: free).head? →
      SameOn s.mm.mem t.mm.mem other := by
    intro other page differs
    refine same other page ?_
    rintro rfl
    exact differs rfl
  refine ⟨there.toApart.next proc listed others, ?_⟩
  intro arg member
  obtain ⟨valid, apart⟩ := there.strings arg member
  refine ⟨valid.congr (by rw [proc]) (there.toApart.kept others).tables
    (same _ valid.isPage ?_), ?_⟩
  · intro equal
    rw [equal] at apart
    exact apart List.mem_cons_self
  · exact fun listed => apart (List.mem_cons_of_mem _ listed)

end

/-- A call of `sys_exec` with an argument vector that lies, as its strings do,
in one page of the user. -/
structure UserVector (link : Link) (s : State) (cp : Fin NPROC) (args : List UserArg)
    (page : Nat) (free : List Nat) : Prop extends ArgsThere link s cp args free where
  low : s.pointer cp 1 < MAXVA
  mapped : userByte s.mm.mem (s.proc cp).pagetable (s.pointer cp 1) =
    some (page + s.pointer cp 1 % PGSIZE)
  isPage : IsPage link page
  few : args.length < MAXARG
  inside : s.pointer cp 1 % PGSIZE + 8 * (args.length + 1) ≤ PGSIZE
  words : ∀ i (bound : i < args.length),
    word s.mm.mem (page + s.pointer cp 1 % PGSIZE + 8 * i) = args[i].uva
  present : ∀ arg ∈ args, arg.uva ≠ 0
  null : word s.mm.mem (page + s.pointer cp 1 % PGSIZE + 8 * args.length) = 0

section

variable {link : Link} {s : State} {cp : Fin NPROC} {args : List UserArg} {page : Nat}
  {free : List Nat}

/-- The words behind the array. -/
theorem argWords_getBytes (mem : Nat → UInt8) (pa : Nat) :
    argWords (getBytes mem pa 512) = (List.range MAXARG).map fun i => word mem (pa + 8 * i) := by
  unfold argWords
  apply List.map_congr_left
  intro i member
  have bound := List.mem_range.mp member
  apply leNat_shift
  intro k inside
  simp only [MAXARG] at bound
  rw [getBytes_getD _ _ _ _ (by omega), Nat.add_assoc]

/-- The pointers up to the null pointer. -/
theorem UserVector.pointers (vector : UserVector link s cp args page free) :
    ∃ tail, argWords (getBytes s.mm.mem (page + s.pointer cp 1 % PGSIZE) 512) =
      args.map UserArg.uva ++ 0 :: tail := by
  have few := vector.few
  have front : (List.range args.length).map
      (fun i => word s.mm.mem (page + s.pointer cp 1 % PGSIZE + 8 * i)) =
        args.map UserArg.uva := by
    apply List.ext_getElem
    · simp
    · intro i left right
      rw [List.length_map] at right
      simp only [List.getElem_map, List.getElem_range]
      exact vector.words i right
  rw [argWords_getBytes, show MAXARG = args.length + (MAXARG - args.length - 1 + 1) by omega,
    List.range_add, List.map_append, front, List.range_succ_eq_map, List.map_cons, List.map_cons,
    Nat.add_zero, vector.null]
  exact ⟨_, rfl⟩

end

end Gcgos.Kernel
