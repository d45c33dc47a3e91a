import Gcgos.Kernel.Syscall
import Gcgos.Kernel.Tables

/-!
# The kernel's way into user memory

`argraw` reads a register of the trapframe, and `argaddr` reads bytes at an
address that a register holds. It walks the page table for the first byte,
takes whatever the last-level entry holds for the address of a page, and reads
on from there in physical memory. What it returns depends on nothing but the
trapframe, the tables and these bytes.
-/

set_option autoImplicit false

namespace Gcgos.Kernel

open Act ByteMap Radix

/-- A process as its system calls find it: its trapframe and its tables are
pages. -/
structure Caller (link : Link) (s : State) (cp : Fin NPROC) : Prop where
  tf : IsPage link (s.proc cp).tf
  tables : ∀ t, IsTable s.mm.mem (s.proc cp).pagetable t → IsPage link t

/-- Register `n` of the trapframe, as an `int`. -/
def State.register (s : State) (cp : Fin NPROC) (n : Nat) : Int :=
  asInt32 (word s.mm.mem ((s.proc cp).tf + 8 * n))

/-- The word that the walk for an address ends at, valid or not. -/
def lastEntry (mem : Nat → UInt8) (root va : Nat) : Option Nat :=
  (descend (child mem) root (leafPath va)).map fun leaf => word mem (leaf + 8 * px 0 va)

/-- Where the kernel looks for the byte at a user address. -/
def State.source (s : State) (cp : Fin NPROC) (uva : Nat) : Option Nat :=
  (lastEntry s.mm.mem (s.proc cp).pagetable uva).map fun pte => PTE2PA pte + uva % PGSIZE

/-- The bytes that `argaddr` copies from a user address. -/
def State.userBytes (link : Link) (s : State) (cp : Fin NPROC) (uva count : Nat) :
    Option (List UInt8) :=
  if MAXVA ≤ uva then none
  else (s.source cp uva).bind fun pa =>
    if InRam link pa count then some (getBytes s.mm.mem pa count) else none

theorem px_pageStart (level va : Nat) : px level (PGROUNDDOWN va) = px level va := by
  apply Fin.ext
  show PX level (PGROUNDDOWN va) = PX level va
  rw [PX_eq, PX_eq, Nat.pow_add, ← Nat.div_div_eq_div_mul, ← Nat.div_div_eq_div_mul]
  have page : PGROUNDDOWN va / 2 ^ 12 = va / 2 ^ 12 := by
    simp only [PGROUNDDOWN, PGSIZE]
    omega
  rw [page]

theorem lastEntry_pageStart (mem : Nat → UInt8) (root va : Nat) :
    lastEntry mem root (PGROUNDDOWN va) = lastEntry mem root va := by
  unfold lastEntry leafPath
  rw [px_pageStart, px_pageStart, px_pageStart]

/-- The entry is the same as long as the tables are. -/
theorem lastEntry_congr {mem mem' : Nat → UInt8} {root : Nat}
    (same : ∀ t, IsTable mem root t → SameOn mem mem' t) (va : Nat) :
    lastEntry mem' root va = lastEntry mem root va := by
  unfold lastEntry
  rw [tables_congr same (leafPath va) (leafPath_length va).le]
  cases there : descend (child mem) root (leafPath va) with
  | none => rw [Option.map_none, Option.map_none]
  | some t =>
      rw [Option.map_some, Option.map_some,
        (same t ⟨leafPath va, (leafPath_length va).le, there⟩).slot (px 0 va).isLt]

section

variable {link : Link} {s : State} {cp : Fin NPROC}

/-- Memory that is only read stays as it is. -/
theorem onMm_run {α : Type} {inner : Act Fault Mm α} {value : α}
    (returned : inner s.mm = .ok (value, s.mm)) : onMm inner s = .ok (value, s) :=
  Act.zoom_of_ok returned

theorem onMm_error {α : Type} {inner : Act Fault Mm α} {stop : Fault}
    (stopped : inner s.mm = .error stop) : onMm inner s = .error stop := by
  simp [onMm, Act.zoom, stopped]

theorem argraw_run (caller : Caller link s cp) {n : Nat} (bound : n < 8) :
    argraw link cp n s = .ok (s.register cp n, s) := by
  have inside : InRam link ((s.proc cp).tf + 8 * n) 8 := by
    apply caller.tf.inRam
    simp only [PGSIZE]
    omega
  unfold argraw
  rw [Act.bind_of_ok (show procAt cp s = .ok (s.proc cp, s) from rfl),
    Act.bind_of_ok (onMm_run (load64_run inside s.mm))]
  rfl

theorem walkaddr_run (caller : Caller link s cp) {va : Nat} (low : va < MAXVA) :
    walkaddr link (s.proc cp).pagetable va s.mm =
      match lastEntry s.mm.mem (s.proc cp).pagetable va with
      | some pte => .ok (PTE2PA pte, s.mm)
      | none => .error .abort := by
  unfold walkaddr lastEntry
  rw [Act.bind_of_ok (walk_run caller.tables low)]
  cases there : descend (child s.mm.mem) (s.proc cp).pagetable (leafPath va) with
  | none => rfl
  | some leaf =>
      have inside : InRam link (leaf + 8 * px 0 va) 8 := by
        apply (caller.tables leaf ⟨leafPath va, (leafPath_length va).le, there⟩).inRam
        have bound := (px 0 va).isLt
        simp only [PGSIZE]
        omega
      simp only [Option.map_some]
      rw [Act.bind_of_ok (load64_run inside s.mm)]
      rfl

/-- The address is translated by the entry of its page. -/
theorem userAddr_run (caller : Caller link s cp) {uva : Nat} (low : uva < MAXVA) :
    userAddr link cp uva s =
      match s.source cp uva with
      | some pa => .ok (pa, s)
      | none => .error .abort := by
  have down : PGROUNDDOWN uva ≤ uva := Nat.div_mul_le_self uva PGSIZE
  have run := walkaddr_run caller (lt_of_le_of_lt down low)
  rw [lastEntry_pageStart] at run
  unfold userAddr State.source
  rw [Act.bind_of_ok (show procAt cp s = .ok (s.proc cp, s) from rfl)]
  cases entry : lastEntry s.mm.mem (s.proc cp).pagetable uva with
  | none =>
      rw [entry] at run
      exact Act.bind_of_error (onMm_error run)
  | some pte =>
      rw [entry] at run
      rw [Act.bind_of_ok (onMm_run run)]
      have offset : PTE2PA pte + uva - PGROUNDDOWN uva = PTE2PA pte + uva % PGSIZE := by
        simp only [PGROUNDDOWN, PGSIZE]
        omega
      rw [offset]
      rfl

theorem userAddr_high {uva : Nat} (high : MAXVA ≤ uva) :
    userAddr link cp uva s = .error (.panic "walk") := by
  have top : MAXVA ≤ PGROUNDDOWN uva := by
    simp only [PGROUNDDOWN, MAXVA, PGSIZE] at *
    omega
  unfold userAddr
  rw [Act.bind_of_ok (show procAt cp s = .ok (s.proc cp, s) from rfl)]
  apply Act.bind_of_error
  apply onMm_error
  unfold walkaddr walk
  exact Act.bind_of_error (Act.bind_of_error (Act.stopIf_of _ _ top))

/-- `argaddr` copies the bytes, and stops where there are none. -/
theorem argaddr_run (caller : Caller link s cp) {n : Nat} (bound : n < 8) (max : Int)
    {bytes : List UInt8}
    (there : s.userBytes link cp (sext64 (s.register cp n)) max.toNat = some bytes) :
    argaddr link cp n max s = .ok (bytes, s) := by
  unfold State.userBytes at there
  split at there
  · cases there
  · rename_i low
    obtain ⟨pa, found, rest⟩ := Option.bind_eq_some_iff.mp there
    split at rest
    · rename_i inside
      cases rest
      have run := userAddr_run caller (Nat.not_le.mp low)
      rw [found] at run
      unfold argaddr
      rw [Act.bind_of_ok (argraw_run caller bound), Act.bind_of_ok run]
      exact onMm_run (loadBytes_run inside s.mm)
    · cases rest

theorem argaddr_stops (caller : Caller link s cp) {n : Nat} (bound : n < 8) (max : Int)
    (missing : s.userBytes link cp (sext64 (s.register cp n)) max.toNat = none) :
    ∃ stop ≠ .bounds, argaddr link cp n max s = .error stop := by
  unfold argaddr
  rw [Act.bind_of_ok (argraw_run caller bound)]
  unfold State.userBytes at missing
  split at missing
  · rename_i high
    exact ⟨_, by simp, Act.bind_of_error (userAddr_high high)⟩
  · rename_i low
    have run := userAddr_run caller (Nat.not_le.mp low)
    cases found : s.source cp (sext64 (s.register cp n)) with
    | none =>
        rw [found] at run
        exact ⟨_, by simp, Act.bind_of_error run⟩
    | some pa =>
        rw [found] at run
        rw [found, Option.bind_some] at missing
        rw [Act.bind_of_ok run]
        split at missing
        · cases missing
        · rename_i outside
          exact ⟨.abort, by simp, onMm_error (Act.bind_of_error (Act.stopIf_of _ _ outside))⟩

theorem argaddr_returned (caller : Caller link s cp) {n : Nat} (bound : n < 8) {max : Int}
    {bytes : List UInt8} {t : State} (returned : argaddr link cp n max s = .ok (bytes, t)) :
    s.userBytes link cp (sext64 (s.register cp n)) max.toNat = some bytes ∧ t = s := by
  cases there : s.userBytes link cp (sext64 (s.register cp n)) max.toNat with
  | none =>
      obtain ⟨stop, -, stopped⟩ := argaddr_stops caller bound max there
      rw [stopped] at returned
      cases returned
  | some copied =>
      rw [argaddr_run caller bound max there] at returned
      cases returned
      exact ⟨rfl, rfl⟩

/-- What every returning `argaddr` meets. -/
theorem argaddr_ensures_iff (caller : Caller link s cp) {n : Nat} (bound : n < 8) (max : Int)
    {post : List UInt8 → State → Prop} :
    Ensures (argaddr link cp n max) s post ↔
      ∀ bytes, s.userBytes link cp (sext64 (s.register cp n)) max.toNat = some bytes →
        post bytes s := by
  constructor
  · intro met bytes there
    exact met bytes s (argaddr_run caller bound max there)
  · intro met bytes t returned
    obtain ⟨there, rfl⟩ := argaddr_returned caller bound returned
    exact met bytes there

/-- The tables of a root, level by level. -/
theorem isTable_cases {mem : Nat → UInt8} {root t : Nat} (table : IsTable mem root t) :
    t = root ∨ ∃ i t1, child mem root i = some t1 ∧ (t = t1 ∨ ∃ j, child mem t1 j = some t) := by
  obtain ⟨q, short, there⟩ := table
  rcases q with _ | ⟨i, _ | ⟨j, _ | ⟨k, rest⟩⟩⟩
  · rw [descend_nil, Option.some_inj] at there
    exact Or.inl there.symm
  · rw [descend_cons i descend_nil] at there
    exact Or.inr ⟨i, t, there, Or.inl rfl⟩
  · obtain ⟨t1, first, second⟩ := descend_parent there
    rw [descend_cons j descend_nil] at first
    exact Or.inr ⟨j, t1, first, Or.inr ⟨i, second⟩⟩
  · simp only [List.length_cons] at short
    omega

end

/-- A root table and a table below it, with one entry each. -/
def upperTables : Nat → UInt8 :=
  putBytes (putBytes (fun _ => 0) 0x100000 (leBytes 8 0x101003)) 0x101000 (leBytes 8 0x102003)

/-- The last table with these entries behind them, and a trapframe. -/
def smallTables (entries registers : List Nat) : Nat → UInt8 :=
  putBytes (putBytes upperTables 0x102000 (entries.flatMap (leBytes 8))) 0x103000
    (registers.flatMap (leBytes 8))

/-- A process over them, with nothing else in the kernel. -/
def smallUser (cp : Fin NPROC) (entries registers : List Nat) : State :=
  (State.loaded (Fs.State.loaded fun _ => Fs.Block.zero) ⟨smallTables entries registers, 0⟩).setProc
    cp { Proc.zero with state := .RUNNING, pagetable := 0x100000, tf := 0x103000 }

theorem word_zero (addr : Nat) : word (fun _ => 0) addr = 0 := by
  simp [word, leNat]

/-- Only the first entry of a table is valid, and it leads to the next page. -/
theorem word_upperTables {t : Nat} (i : Fin 512) (upper : t = 0x100000 ∨ t = 0x101000) :
    word upperTables (t + 8 * i) = if i.val = 0 then t + PGSIZE + 3 else 0 := by
  have bound := i.isLt
  unfold upperTables
  by_cases first : i.val = 0
  · rw [if_pos first, first, Nat.mul_zero, Nat.add_zero]
    rcases upper with rfl | rfl
    · exact (leNat_putBytes_apart (Or.inl (by decide))).trans
        (word_store_same _ 0x100000 (by decide))
    · exact word_store_same _ 0x101000 (by decide)
  · rw [if_neg first]
    refine Eq.trans ?_ (word_zero (t + 8 * i))
    refine (leNat_putBytes_apart ?_).trans (leNat_putBytes_apart ?_)
    · rw [leBytes_length]
      omega
    · rw [leBytes_length]
      omega

theorem upperTables_child {t u : Nat} {i : Fin 512} (upper : t = 0x100000 ∨ t = 0x101000)
    (there : child upperTables t i = some u) : u = t + PGSIZE := by
  rw [child, word_upperTables i upper] at there
  by_cases first : i.val = 0
  · rw [if_pos first] at there
    rcases upper with rfl | rfl
    · exact Option.some_inj.mp (there.symm.trans (by decide : _ = some 0x101000))
    · exact Option.some_inj.mp (there.symm.trans (by decide : _ = some 0x102000))
  · rw [if_neg first, if_neg (by decide)] at there
    cases there

theorem smallTables_child (entries registers : List Nat) {t : Nat} (i : Fin 512)
    (upper : t + PGSIZE ≤ 0x102000) :
    child (smallTables entries registers) t i = child upperTables t i := by
  have bound := i.isLt
  simp only [PGSIZE] at upper
  unfold child smallTables word
  rw [leNat_putBytes_apart (by omega), leNat_putBytes_apart (by omega)]

theorem smallTables_isTable {entries registers : List Nat} {t : Nat}
    (table : IsTable (smallTables entries registers) 0x100000 t) :
    t = 0x100000 ∨ t = 0x101000 ∨ t = 0x102000 := by
  rcases isTable_cases table with rfl | ⟨i, t1, first, rest⟩
  · exact Or.inl rfl
  · rw [smallTables_child entries registers i (by decide)] at first
    have one := upperTables_child (Or.inl rfl) first
    subst one
    rcases rest with rfl | ⟨j, second⟩
    · exact Or.inr (Or.inl rfl)
    · rw [smallTables_child entries registers j (by decide)] at second
      exact Or.inr (Or.inr (upperTables_child (Or.inr rfl) second))

theorem smallUser_proc (cp : Fin NPROC) (entries registers : List Nat) :
    (smallUser cp entries registers).proc cp =
      { Proc.zero with state := .RUNNING, pagetable := 0x100000, tf := 0x103000 } := by
  simp [smallUser, State.setProc]

theorem smallUser_caller (cp : Fin NPROC) (entries registers : List Nat) :
    Caller smallLink (smallUser cp entries registers) cp := by
  constructor
  · rw [smallUser_proc]
    exact ⟨by decide, by decide, by decide⟩
  · intro t table
    rw [smallUser_proc] at table
    rcases smallTables_isTable table with rfl | rfl | rfl
    · exact ⟨by decide, by decide, by decide⟩
    · exact ⟨by decide, by decide, by decide⟩
    · exact ⟨by decide, by decide, by decide⟩

theorem flatMap_leBytes_length (values : List Nat) :
    (values.flatMap (leBytes 8)).length = 8 * values.length := by
  induction values with
  | nil => rfl
  | cons value rest ih =>
      rw [List.flatMap_cons, List.length_append, leBytes_length, ih, List.length_cons]
      omega

/-- The words of an array that was stored whole. -/
theorem word_putBytes_words (mem : Nat → UInt8) (addr : Nat) (entries : List Nat) {k : Nat}
    (bound : k < entries.length) :
    word (putBytes mem addr (entries.flatMap (leBytes 8))) (addr + 8 * k) =
      entries.getD k 0 % 2 ^ 64 := by
  have parts : entries.flatMap (leBytes 8) =
      (entries.take k).flatMap (leBytes 8) ++ leBytes 8 (entries.getD k 0) ++
        (entries.drop (k + 1)).flatMap (leBytes 8) := by
    rw [← List.flatMap_singleton (leBytes 8) (entries.getD k 0), ← List.flatMap_append,
      ← List.flatMap_append, List.getD_eq_getElem _ _ bound, List.append_assoc,
      List.singleton_append, List.cons_getElem_drop_succ, List.take_append_drop]
  have front : ((entries.take k).flatMap (leBytes 8)).length = 8 * k := by
    rw [flatMap_leBytes_length, List.length_take, Nat.min_eq_left (by omega)]
  rw [← front]
  exact leNat_putBytes_field mem addr 8 _ parts

/-- The entries of the last table. -/
theorem word_smallTables (entries registers : List Nat) {k : Nat} (bound : k < 512) :
    word (smallTables entries registers) (0x102000 + 8 * k) =
      if k < entries.length then entries.getD k 0 % 2 ^ 64 else 0 := by
  have size := flatMap_leBytes_length entries
  refine (leNat_putBytes_apart (Or.inl (by omega))).trans ?_
  split
  · rename_i inside
    exact word_putBytes_words upperTables 0x102000 entries inside
  · rename_i outside
    refine (leNat_putBytes_apart (Or.inr (by omega))).trans ?_
    refine (leNat_putBytes_apart (Or.inr ?_)).trans ((leNat_putBytes_apart (Or.inr ?_)).trans
      (word_zero _))
    · rw [leBytes_length]
      omega
    · rw [leBytes_length]
      omega

/-- The valid entries are those of the last table. -/
theorem smallTables_translate {entries registers : List Nat} {va pte : Nat}
    (small : ∀ entry ∈ entries, entry < 2 ^ 64)
    (there : translate (smallTables entries registers) 0x100000 va = some pte) :
    pte ∈ entries := by
  obtain ⟨leaf, path, rest⟩ := Option.bind_eq_some_iff.mp there
  obtain ⟨t1, first, second⟩ := descend_parent path
  rw [descend_cons _ descend_nil, smallTables_child entries registers _ (by decide)] at first
  obtain rfl : t1 = 0x101000 := upperTables_child (Or.inl rfl) first
  rw [smallTables_child entries registers _ (by decide)] at second
  obtain rfl : leaf = 0x102000 := upperTables_child (Or.inr rfl) second
  have bound := (px 0 va).isLt
  split at rest
  · cases rest
  · rename_i valid
    have entry := word_smallTables entries registers bound
    have found := Option.some_inj.mp rest
    rw [entry] at valid found
    split at found
    · rename_i inside
      have member : entries.getD (px 0 va) 0 ∈ entries := by
        rw [List.getD_eq_getElem _ _ inside]
        exact List.getElem_mem inside
      rw [Nat.mod_eq_of_lt (small _ member)] at found
      exact found ▸ member
    · rename_i outside
      rw [if_neg outside] at valid
      exact absurd rfl valid

end Gcgos.Kernel
