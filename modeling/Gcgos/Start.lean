import Gcgos.Capacity
import Gcgos.Card
import Gcgos.Kernel.Entry

/-!
# From the files to the first process

The files that `mkfs` was given are the ones that `kexec` loads: a kernel that
starts on a card with a program `init` gets to that program's first instruction,
with the bytes of the file in the memory of the process.
-/

set_option autoImplicit false

namespace Gcgos

open Fs Mkfs Act ByteMap Bio

/-! ## A program of one sector -/

/-- The fields of the ELF header and of its one program header: a LOAD segment
of the whole file at address zero. -/
def initHeader : List UInt8 :=
  [0x7f, 0x45, 0x4c, 0x46] ++ List.replicate 28 0 ++ [64] ++ List.replicate 23 0 ++ [1] ++
    List.replicate 7 0 ++ [1, 0, 0, 0, 5] ++ List.replicate 27 0 ++ [0, 2] ++ List.replicate 6 0 ++
    [0, 2]

def initProgram : List UInt8 := initHeader ++ List.replicate 406 0

/-- `"u/init"`. -/
def initFile : Input := ⟨[117, 47] ++ Kernel.initName, some initProgram⟩

theorem initProgram_length : initProgram.length = 512 := by
  simp only [initProgram, initHeader, List.length_append, List.length_replicate, List.length_cons,
    List.length_nil]

theorem initProgram_elf : Kernel.elfOf (Kernel.headOf initProgram) = ⟨0x464c457f, 0, 64, 1⟩ := by
  have magic : (Kernel.headOf initProgram).u32 0 = 0x464c457f := rfl
  have entry : leNat (Kernel.headOf initProgram).byte 24 8 = 0 := rfl
  have phoff : leNat (Kernel.headOf initProgram).byte 32 8 = 64 := rfl
  have phnum : leNat (Kernel.headOf initProgram).byte 56 2 = 1 := rfl
  rw [Kernel.elfOf, magic, entry, phoff, phnum]

theorem initProgram_header :
    Kernel.proghdrOf (Kernel.headOf initProgram) 64 0 = some ⟨1, 0, 0, 512⟩ := rfl

theorem initProgram_program : Kernel.Program initProgram := by
  have elf := initProgram_elf
  constructor
  case long => exact initProgram_length.ge
  case magic => rw [elf]
  case present =>
    intro i bound
    rw [elf] at bound ⊢
    obtain rfl : i = 0 := Nat.lt_one_iff.mp bound
    exact ⟨_, initProgram_header⟩
  case fits =>
    intro i ph bound load
    rw [elf] at bound
    obtain rfl : i = 0 := Nat.lt_one_iff.mp bound
    obtain ⟨header, -⟩ := load
    rw [elf] at header
    obtain rfl := Option.some_inj.mp (initProgram_header.symm.trans header)
    have memory : Kernel.memszOf (Kernel.headOf initProgram) 0 = 512 := rfl
    refine ⟨rfl, ?_, by decide, by decide, ?_, rfl, by decide⟩
    · exact initProgram_length.ge
    · rw [memory]
      decide
  case ascending =>
    intro i j _ _ before bound
    rw [elf] at bound
    exact absurd before (by simp only at bound; omega)

theorem initFile_proper : ∀ input ∈ [initFile], Input.Proper input := by
  intro input member
  rw [List.mem_singleton.mp member]
  exact ⟨by decide, by decide, by decide, by decide, by decide, by decide, by decide⟩

theorem initFile_completes :
    ∃ m, main Block.zero [initFile] initial = .ok ((), m) := by
  have fits : FitsImage [initFile] := by
    constructor
    case named =>
      intro input given
      rw [List.mem_singleton.mp given]
      exact ⟨by decide, by decide⟩
    case limit =>
      intro input given
      rw [List.mem_singleton.mp given]
      exact initProgram_length.le.trans (by decide)
    case room =>
      have width : (initFile.contents.getD []).length = 512 := initProgram_length
      simp only [blocksNeeded, List.map_cons, List.map_nil, width]
      decide
  obtain ⟨⟨⟩, m, completes, -⟩ := main_yields Block.zero (by decide) fits
  exact ⟨m, completes⟩

theorem initFile_shown {m : Mkfs.State}
    (completes : main Block.zero [initFile] initial = .ok ((), m)) {s : Kernel.State}
    (booted : Booted m.image s) :
    Kernel.SystemShown (cardTree [initFile]) s (cardFiles m [initFile]) :=
  card_shown completes (by decide) initFile_proper booted

theorem cardFiles_bytes (m : Mkfs.State) (inputs : List Input) :
    (cardFiles m inputs).bytes = cardBytes inputs := rfl

theorem initFile_contents : [initFile][0].contents.getD [] = initProgram := rfl

theorem initFile_named : cardTree [initFile] Kernel.initName = some (UInt32.ofNat (0 + 2)) :=
  cardTree_name initFile_proper (List.nodup_singleton _) Nat.zero_lt_one

theorem initFile_bytes (m : Mkfs.State) :
    (cardFiles m [initFile]).bytes (UInt32.ofNat (0 + 2)) = some initProgram := by
  have found := @cardBytes_name [initFile] 0 (by decide) Nat.zero_lt_one
    (initProgram_length.le.trans (by decide))
  rw [initFile_contents] at found
  rw [cardFiles_bytes, found]

/-- A card without faults, and all buffers free. -/
theorem started_ready_two (image : Nat → Block) : (started image).bio.Ready 2 := by
  refine ⟨rfl, ?_⟩
  have all : (started image).bio.freeCount = NBUF := by
    simp [Bio.freeCount, Bio.busy, started]
  rw [all]
  decide

/-- No file is open on a card before the first call. -/
theorem cardFiles_opened (m : Mkfs.State) (inputs : List Input) :
    (cardFiles m inputs).opened.card < NINODE := by
  rw [Kernel.FileSystem.opened_empty fun _ => rfl]
  decide

/-! ## Programs under the kernel -/

/-- In a file system that shows a program under a name, `exec` on that name
starts it, whatever was done to the files before. -/
theorem program_starts (link : Kernel.Link) (cp : Fin NPROC)
    {tree : List UInt8 → Option UInt32} {s : Kernel.State} {a : Kernel.FileSystem}
    (shown : Kernel.SystemShown tree s a) (ready : s.fs.bio.Ready 2)
    (few : a.opened.card < NINODE) {path : List UInt8} (behind : List UInt8) (noNul : 0 ∉ path)
    {n : UInt32} (named : tree path = some n) {bytes : List UInt8} (there : a.bytes n = some bytes)
    (program : Kernel.Program bytes) {free : List Nat} (list : Kernel.FreeList link s.mm free)
    (enough : 8 + 3 * ((Kernel.elfOf (Kernel.headOf bytes)).phnum + 1) < free.length)
    {args : List Kernel.Arg} {strings : List (List UInt8)}
    (reads : List.Forall₂ (fun arg string => arg.Reads link s.mm.mem string) args strings)
    (apart : ∀ pg, Kernel.Arg.page pg ∈ args → pg ∉ free) (good : Kernel.GoodLengths strings)
    (spare : link.spare strings.length = true) (fits : Kernel.blockSize strings ≤ Kernel.PGSIZE) :
    Yields (Kernel.kexec link cp (path ++ 0 :: behind) args) s fun r t => r = 0 ∧
      ∃ left, Kernel.Launched link t cp free left bytes strings ∧
        Kernel.TakenOnly s t free left :=
  Kernel.kexec_launched shown.volume ready behind noNul few named there program list enough reads
    apart good spare fits

theorem program_starts_init :
    ∃ m : Mkfs.State, main Block.zero [initFile] initial = .ok ((), m) ∧
      Yields (Kernel.kexec Kernel.smallLink Kernel.initSlot (Kernel.initName ++ 0 :: [])
        [.text Kernel.initName, .text [45], .text [104]])
        (Kernel.State.loaded (started m.image) (Kernel.smallMm 30)) fun r t => r = 0 ∧
          ∃ left, Kernel.Launched Kernel.smallLink t Kernel.initSlot
              (Kernel.linkedPages 0x100000 30) left initProgram
              [Kernel.initName, [45], [104]] ∧
            Kernel.TakenOnly (Kernel.State.loaded (started m.image) (Kernel.smallMm 30)) t
              (Kernel.linkedPages 0x100000 30) left := by
  obtain ⟨m, completes⟩ := initFile_completes
  refine ⟨m, completes, ?_⟩
  have shown := initFile_shown completes (Booted.of_memory m.image (Kernel.smallMm 30))
  have enough : 8 + 3 * ((Kernel.elfOf (Kernel.headOf initProgram)).phnum + 1) <
      (Kernel.linkedPages 0x100000 30).length := by
    rw [initProgram_elf, Kernel.linkedPages_length]
    decide
  have first : Kernel.Arg.Reads Kernel.smallLink (Kernel.smallMm 30).mem Kernel.initName
      (.text Kernel.initName) := rfl
  have second : Kernel.Arg.Reads Kernel.smallLink (Kernel.smallMm 30).mem [45] (.text [45]) := rfl
  have third : Kernel.Arg.Reads Kernel.smallLink (Kernel.smallMm 30).mem [104] (.text [104]) := rfl
  exact program_starts Kernel.smallLink Kernel.initSlot shown (started_ready_two m.image)
    (cardFiles_opened m [initFile]) [] (by decide) initFile_named (initFile_bytes m)
    initProgram_program (Kernel.smallMm_freeList (by decide) (by decide)) enough
    (List.Forall₂.cons first (List.Forall₂.cons second (List.Forall₂.cons third List.Forall₂.nil)))
    (by simp) (by decide) rfl (by decide)

/-- A kernel that starts in clean memory, on a card that `mkfs` has made with a
program `init`, gets to user mode in that program, with the way back to its own
table. -/
theorem card_starts_init (behind : Block) (inputs : List Input) (m : Mkfs.State)
    (completes : main behind inputs initial = .ok ((), m)) (few : inputs.length ≤ 98)
    (proper : ∀ input ∈ inputs, Input.Proper input) (distinct : (inputs.map nameOf).Nodup)
    {i : Nat} (bound : i < inputs.length) (name : nameOf inputs[i] = Kernel.initName)
    (small : (inputs[i].contents.getD []).length ≤ NDIRECT * BSIZE)
    (program : Kernel.Program (inputs[i].contents.getD [])) (link : Kernel.Link)
    (text : Kernel.KERNBASE < link.etext) (spare : link.spare 1 = true) {fs : Fs.State}
    {mm : Kernel.Mm}
    (booted : Booted m.image (Kernel.State.loaded fs mm)) (ready : fs.bio.Ready 2)
    (zero : mm.freelist = 0) (clean : ∀ pg, Kernel.IsPage link pg → Kernel.Clean mm.mem pg)
    (room : link.base + (149 + 3 * ((Kernel.elfOf (Kernel.headOf
      (inputs[i].contents.getD []))).phnum + 1)) * Kernel.PGSIZE ≤ Kernel.PHYSTOP) :
    Yields (Kernel.kernelMain link) (Kernel.State.loaded fs mm) fun picked t =>
      ∃ entry root own free left, picked = some entry ∧
        Kernel.Launched link t Kernel.initSlot free left (inputs[i].contents.getD [])
          [Kernel.initName] ∧
        Kernel.KernelTable link root own left t.mm ∧
        Kernel.Enters t Kernel.initSlot root entry 1
          (Kernel.elfOf (Kernel.headOf (inputs[i].contents.getD []))).entry := by
  have shown := card_shown completes few proper booted
  have named := cardTree_name proper distinct bound
  rw [name] at named
  exact Kernel.kernelMain_enters text zero clean shown.volume ready
    (cardFiles_opened m inputs) named (cardBytes_name few bound small) program spare
    room

theorem card_starts_init_alone :
    ∃ m : Mkfs.State, main Block.zero [initFile] initial = .ok ((), m) ∧
      Yields (Kernel.kernelMain Kernel.smallLink)
        (Kernel.State.loaded (started m.image) ⟨fun _ => 0, 0⟩) fun picked t =>
          ∃ entry root own free left, picked = some entry ∧
            Kernel.Launched Kernel.smallLink t Kernel.initSlot free left initProgram
              [Kernel.initName] ∧
            Kernel.KernelTable Kernel.smallLink root own left t.mm ∧
            Kernel.Enters t Kernel.initSlot root entry 1 0 := by
  obtain ⟨m, completes⟩ := initFile_completes
  refine ⟨m, completes, ?_⟩
  have room : Kernel.smallLink.base + (149 + 3 * ((Kernel.elfOf (Kernel.headOf
      initProgram)).phnum + 1)) * Kernel.PGSIZE ≤ Kernel.PHYSTOP := by
    rw [initProgram_elf]
    decide
  have zeroed : Booted m.image (Kernel.State.loaded (started m.image) ⟨fun _ => 0, 0⟩) :=
    Booted.of_memory m.image ⟨fun _ => 0, 0⟩
  have name : nameOf [initFile][0] = Kernel.initName := rfl
  have runs := card_starts_init Block.zero [initFile] m completes (by decide) initFile_proper
    (List.nodup_singleton _) (i := 0) Nat.zero_lt_one name
  rw [initFile_contents] at runs
  refine (runs (initProgram_length.le.trans (by decide)) initProgram_program Kernel.smallLink
    (by decide) rfl zeroed (started_ready_two m.image) rfl
    (fun pg _ => Kernel.zero_clean pg) room).mono ?_
  rintro picked t ⟨entry, root, own, free, left, rfl, launched, table, enters⟩
  rw [initProgram_elf] at enters
  exact ⟨entry, root, own, free, left, rfl, launched, table, enters⟩

end Gcgos
