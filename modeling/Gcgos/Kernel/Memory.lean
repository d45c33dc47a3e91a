import Gcgos.Fault
import Gcgos.Lib.Act

/-!
# Physical memory, the page allocator and page tables

`kernel/kalloc.c` and `kernel/vm.c` over the bytes of physical memory. The
pages the allocator hands out, the tables in them and the link words of the
free list are all bytes of one map, so that a stale entry in a recycled page
is seen by whoever uses the page next.

The kernel's own text and data lie below the first page of the allocator and
are not part of the map: the globals are fields of the kernel's state. An
access outside the allocator's pages stops the call. It is a null pointer, or
an address the kernel does not map, or the kernel image, whose text is
read-only.
-/

set_option autoImplicit false

namespace Gcgos.Kernel

open Act ByteMap

abbrev PGSIZE : Nat := 4096
abbrev KERNBASE : Nat := 0x80000
abbrev PHYSTOP : Nat := KERNBASE + 128 * 1024 * 1024
abbrev MAXVA : Nat := 2 ^ 38
abbrev TRAMPOLINE : Nat := MAXVA - 2 * PGSIZE
abbrev TRAPFRAME : Nat := TRAMPOLINE - PGSIZE
def KSTACK (p : Nat) : Nat := TRAMPOLINE - (p + 1) * 2 * PGSIZE

/-- `((sz) + PGSIZE - 1) & ~(PGSIZE - 1)` on a 64-bit word. -/
def PGROUNDUP (sz : Nat) : Nat := (sz + PGSIZE - 1) % 2 ^ 64 / PGSIZE * PGSIZE

def PGROUNDDOWN (sz : Nat) : Nat := sz / PGSIZE * PGSIZE

/-- What the tools fix. The linker gives the end of the kernel, the page of the
trampoline, the array `fds` and the functions whose addresses are stored. The
compiler leaves a spare word behind the array `ustack` of `kexec` or does not,
for each length of the array. -/
structure Link where
  kend : Nat
  etext : Nat
  trampoline : Nat
  fds : Nat
  forkret : Nat
  spare : Nat → Bool
  image : KERNBASE ≤ kend ∧ kend ≤ PHYSTOP
  text : etext ≤ kend ∧ etext % PGSIZE = 0
  page : trampoline % PGSIZE = 0
  below : trampoline + 2 * PGSIZE ≤ kend

/-- The first page of the allocator. -/
def Link.base (link : Link) : Nat := PGROUNDUP link.kend

/-- The memory and `kmem.freelist`. -/
structure Mm where
  mem : Nat → UInt8
  freelist : Nat

def Mm.store (m : Mm) (addr : Nat) (run : List UInt8) : Mm :=
  { m with mem := putBytes m.mem addr run }

@[simp] theorem Mm.store_mem (m : Mm) (addr : Nat) (run : List UInt8) :
    (m.store addr run).mem = putBytes m.mem addr run := rfl

@[simp] theorem Mm.store_freelist (m : Mm) (addr : Nat) (run : List UInt8) :
    (m.store addr run).freelist = m.freelist := rfl

/-- The little-endian word at an address. -/
def word (mem : Nat → UInt8) (addr : Nat) : Nat := leNat mem addr 8

section

variable (link : Link)

/-- `len` bytes from `addr` on lie in the allocator's pages. An access to no
bytes is none. -/
def InRam (addr len : Nat) : Prop := len = 0 ∨ (link.base ≤ addr ∧ addr + len ≤ PHYSTOP)

instance (addr len : Nat) : Decidable (InRam link addr len) :=
  inferInstanceAs (Decidable (_ ∨ _))

/-- Read a word. -/
def load64 (addr : Nat) : Act Fault Mm Nat := do
  Act.stopIf (¬InRam link addr 8) .abort
  Act.reads fun m => word m.mem addr

/-- Read bytes. -/
def loadBytes (addr count : Nat) : Act Fault Mm (List UInt8) := do
  Act.stopIf (¬InRam link addr count) .abort
  Act.reads fun m => getBytes m.mem addr count

/-- Store bytes, the first one first. -/
def storeBytes (addr : Nat) (run : List UInt8) : Act Fault Mm Unit := do
  Act.stopIf (¬InRam link addr run.length) .abort
  Act.modify fun m => m.store addr run

def store64 (addr value : Nat) : Act Fault Mm Unit := storeBytes link addr (leBytes 8 value)

/-- `while (j-- > 0) *d++ = *s++;`. The callers copy between pages, which are
the same page or do not meet. -/
def copyMem (d s count : Nat) : Act Fault Mm Unit := do
  let run ← loadBytes link s count
  storeBytes link d run

def kfree (pa : Nat) : Act Fault Mm Unit := do
  Act.stopIf (pa % PGSIZE ≠ 0 ∨ pa < link.kend ∨ PHYSTOP ≤ pa) (.panic "kfree")
  let next ← Act.reads Mm.freelist
  store64 link pa next
  Act.modify fun m => { m with freelist := pa }

/-- A null pointer is zero. -/
def kalloc : Act Fault Mm Nat := do
  let r ← Act.reads Mm.freelist
  if r = 0 then pure 0
  else do
    let next ← load64 link r
    Act.modify fun m => { m with freelist := next }
    pure r

/-- The loop of `freerange` over `count` pages. -/
def freerange : (count p : Nat) → Act Fault Mm Unit
  | 0, _ => pure ()
  | count + 1, p => do
      kfree link p
      freerange count (p + PGSIZE)

def kinit : Act Fault Mm Unit :=
  freerange link ((PHYSTOP - link.base) / PGSIZE) link.base

abbrev PTE_VALID : Nat := 1
abbrev PTE_TABLE : Nat := 2
abbrev PTE_V : Nat := 3
abbrev PTE_DEVICE : Nat := 0
abbrev PTE_NORMAL : Nat := 4
abbrev PTE_AP_RW_EL1 : Nat := 0
abbrev PTE_AP_RW : Nat := 0x40
abbrev PTE_AP_RO_EL1 : Nat := 0x80
abbrev PTE_AP_RO : Nat := 0xc0
abbrev PTE_AF : Nat := 0x400
abbrev PTE_PXN : Nat := 2 ^ 53
abbrev PTE_XN : Nat := PTE_PXN + 2 ^ 54

def PA2PTE (pa : Nat) : Nat := pa >>> 12 <<< 12
def PTE2PA (pte : Nat) : Nat := pte &&& 0x0000FFFFFFFFF000
def PTE_FLAGS (pte : Nat) : Nat := pte &&& 0x3FF
def PX (level va : Nat) : Nat := va >>> (12 + 9 * level) &&& 0x1FF

/-- One turn of `walk`: the table that an entry of this level leads to. -/
def walkLevel (pagetable va level : Nat) (alloc : Bool) : Act Fault Mm (Option Nat) := do
  let pte ← load64 link (pagetable + 8 * PX level va)
  if pte &&& PTE_VALID ≠ 0 ∧ pte &&& PTE_TABLE ≠ 0 then pure (some (PTE2PA pte))
  else if alloc = false then pure none
  else do
    let page ← kalloc link
    if page = 0 then pure none
    else do
      store64 link (pagetable + 8 * PX level va) (PA2PTE page ||| PTE_VALID ||| PTE_TABLE)
      pure (some page)

/-- The address of the last-level entry; none is a null pointer. -/
def walk (pagetable va : Nat) (alloc : Bool) : Act Fault Mm (Option Nat) := do
  Act.stopIf (MAXVA ≤ va) (.panic "walk")
  let level1 ← walkLevel link pagetable va 2 alloc
  match level1 with
  | none => pure none
  | some level1 => do
      let level0 ← walkLevel link level1 va 1 alloc
      match level0 with
      | none => pure none
      | some level0 => pure (some (level0 + 8 * PX 0 va))

/-- One turn of `mappages`: whether it goes on. -/
def mapPage (pagetable a pa perm : Nat) : Act Fault Mm Bool := do
  let pte ← walk link pagetable a true
  match pte with
  | none => pure false
  | some pte => do
      let old ← load64 link pte
      Act.stopIf (old &&& PTE_V ≠ 0) (.panic "mappages:remap")
      store64 link pte (PA2PTE pa ||| perm ||| PTE_AF ||| PTE_V)
      pure true

/-- The loop of `mappages`, with `count` pages left. -/
def mappagesLoop (pagetable perm : Nat) : (count a pa : Nat) → Act Fault Mm Int
  | 0, _, _ => pure 0
  | count + 1, a, pa => do
      let mapped ← mapPage link pagetable a pa perm
      if mapped = true then mappagesLoop pagetable perm count (a + PGSIZE) (pa + PGSIZE)
      else pure (-1)

def mappages (pagetable va pa size perm : Nat) : Act Fault Mm Int := do
  Act.stopIf (va % PGSIZE ≠ 0) (.panic "mappages: va not aligned")
  Act.stopIf (size % PGSIZE ≠ 0) (.panic "mappages: size not aligned")
  Act.stopIf (size = 0) (.panic "mappages: size")
  mappagesLoop link pagetable perm (size / PGSIZE) va pa

/-- The callee's null pointer is read through. -/
def walkaddr (pagetable va : Nat) : Act Fault Mm Nat := do
  let pte ← walk link pagetable va false
  match pte with
  | none => Act.fail .abort
  | some pte => do
      let entry ← load64 link pte
      pure (PTE2PA entry)

def uvmcreat : Act Fault Mm Nat := kalloc link

def kvmmap (kpgtbl va pa sz perm : Nat) : Act Fault Mm Unit := do
  let mapped ← mappages link kpgtbl va pa sz perm
  Act.stopIf (mapped ≠ 0) (.panic "kvmmap")

/-- The loop of `proc_mapstacks` over `count` slots, from slot `i` on. -/
def procMapstacks (kpgtbl : Nat) : (count i : Nat) → Act Fault Mm Unit
  | 0, _ => pure ()
  | count + 1, i => do
      let pa ← kalloc link
      kvmmap link kpgtbl (KSTACK i) pa PGSIZE (PTE_NORMAL ||| PTE_AP_RW_EL1)
      procMapstacks kpgtbl count (i + 1)

abbrev GICD_BASE : Nat := 0xFF841000
abbrev PL011_BASE : Nat := 0xFE201000
abbrev SDCARD : Nat := 0xFE300000

def kvmmake : Act Fault Mm Nat := do
  let kpgtbl ← kalloc link
  kvmmap link kpgtbl GICD_BASE GICD_BASE (4 * PGSIZE) (PTE_DEVICE ||| PTE_XN ||| PTE_AP_RW_EL1)
  kvmmap link kpgtbl PL011_BASE PL011_BASE PGSIZE (PTE_DEVICE ||| PTE_XN ||| PTE_AP_RW_EL1)
  kvmmap link kpgtbl SDCARD SDCARD PGSIZE (PTE_DEVICE ||| PTE_XN ||| PTE_AP_RW_EL1)
  kvmmap link kpgtbl KERNBASE KERNBASE (link.etext - KERNBASE) (PTE_NORMAL ||| PTE_AP_RO_EL1)
  kvmmap link kpgtbl link.etext link.etext (PHYSTOP - link.etext) (PTE_NORMAL ||| PTE_XN)
  kvmmap link kpgtbl TRAMPOLINE link.trampoline (2 * PGSIZE) (PTE_NORMAL ||| PTE_AP_RO)
  procMapstacks link kpgtbl NPROC 0
  pure kpgtbl

end

end Gcgos.Kernel
