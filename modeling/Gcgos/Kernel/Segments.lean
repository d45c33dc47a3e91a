import Gcgos.Kernel.Outside
import Gcgos.Kernel.Program
import Gcgos.Kernel.SegmentPages

/-!
# The LOAD segments of a new program

`kexec` copies whole sectors, from the one that holds byte `off` of the file to
the one that holds byte `off + filesz`, to the start of the page. What user code
finds at `vaddr` is therefore the file from a sector boundary on, then the rest
of the last sector, then what the page held before.
-/

set_option autoImplicit false

namespace Gcgos.Kernel

open Act ByteMap Fs Bio Radix

/-- `ph->memsz`, which `kexec` does not look at. -/
def memszOf (data : Block) (i : Nat) : Nat :=
  leNat data.byte (((elfOf data).phoff + proghdrSize * i) % 2 ^ 64 + 40) 8

/-- LOAD segments in pages of their own, with bytes of the file. -/
structure SegmentsAllowed (data : Block) : Prop where
  aligned : ∀ i ph, i < (elfOf data).phnum → IsLoad data i ph → ph.vaddr % PGSIZE = 0
  ascending : ∀ i j ph ph', i < j → j < (elfOf data).phnum → IsLoad data i ph →
    IsLoad data j ph' → ph.vaddr < ph'.vaddr
  sizes : ∀ i ph, i < (elfOf data).phnum → IsLoad data i ph →
    ph.filesz ≤ memszOf data i ∧ memszOf data i ≤ PGSIZE
  stored : ∀ i ph, i < (elfOf data).phnum → IsLoad data i ph → ph.off + ph.filesz ≤ MAXFILE * BSIZE

/-- What the program expects at `vaddr`: bytes of the file, and zeros. -/
def segmentBytes (disk : Nat → Block) (addrs : Addrs) (ph : Proghdr) (memsz : Nat) : List UInt8 :=
  (List.range ph.filesz).map (fun x => storedByte disk addrs (ph.off + x)) ++
    List.replicate (memsz - ph.filesz) 0

/-- The program is in memory as its headers say, and `kexec` has stored to the
pages that it took from the pool only: what fills a page stays in that page. -/
structure LoadsExactly (link : Link) (s t : State) (cp : Fin NPROC) (disk : Nat → Block)
    (addrs : Addrs) (data : Block) (free : List Nat) (stored : ExecStores) : Prop where
  bytes : ∀ i ph, i < (elfOf data).phnum → IsLoad data i ph →
    UserBytes t cp ph.vaddr (segmentBytes disk addrs ph (memszOf data i))
  segments : ∀ seg ∈ stored.segments, seg.Inside
  stack : stored.Inside
  outside : ∃ left, Listed link t.mm left ∧ left <:+ free ∧
    ∀ a, (∀ pg ∈ free, pg ∉ left → a < pg ∨ pg + PGSIZE ≤ a) → t.mm.mem a = s.mm.mem a

/-- A copy by sectors is exact: it fits the page, the file has the same bytes
from the sector boundary on as from `off` on, and zeros follow, in the last
sector and in the page behind it. -/
structure SegmentCopied (disk : Nat → Block) (addrs : Addrs) (before : Nat → UInt8) (ph : Proghdr)
    (memsz page : Nat) : Prop where
  sectors : ph.sectors ≤ 8
  file : ∀ x < ph.filesz, storedByte disk addrs (512 * (ph.off / 512) + x) =
    storedByte disk addrs (ph.off + x)
  tail : ∀ x, ph.filesz ≤ x → x < memsz → x < 512 * ph.sectors →
    storedByte disk addrs (512 * (ph.off / 512) + x) = 0
  stale : ∀ x, ph.filesz ≤ x → x < memsz → 512 * ph.sectors ≤ x → before (page + x) = 0

/-- Segments from sector boundaries need no luck with the file. -/
theorem sector_aligned {disk : Nat → Block} {addrs : Addrs} {ph : Proghdr} (aligned : ph.off % 512 = 0)
    (x : Nat) : storedByte disk addrs (512 * (ph.off / 512) + x) = storedByte disk addrs (ph.off + x) := by
  rw [show 512 * (ph.off / 512) + x = ph.off + x by omega]

/-- The sectors of a segment of a file. -/
theorem Proghdr.sectors_stored {ph : Proghdr} (stored : ph.off + ph.filesz ≤ MAXFILE * BSIZE) :
    ph.firstSector.toNat = ph.off / 512 ∧ ph.filesz < 512 * ph.sectors := by
  have short : ∀ n < 2 ^ 31, asInt32 n = n := by
    intro n bound
    unfold asInt32 asInt
    rw [Nat.mod_eq_of_lt (by omega), if_pos bound]
  have limit : MAXFILE * BSIZE < 2 ^ 31 := by decide
  have whole : (ph.off + ph.filesz) % 2 ^ 64 = ph.off + ph.filesz := Nat.mod_eq_of_lt (by omega)
  have first : ph.firstSector = (ph.off / 512 : Nat) := short _ (by omega)
  have last : ph.lastSector = ((ph.off + ph.filesz) / 512 : Nat) := by
    unfold Proghdr.lastSector
    rw [whole]
    exact short _ (by omega)
  unfold Proghdr.sectors
  rw [first, last]
  omega

section

variable {link : Link} {cp : Fin NPROC} {dp : Fin NINODE} {data : Block} {args : List Arg}
  {s t : State} {trace : ExecTrace} {strings : List (List UInt8)} {free mid rest last : List Nat}

/-- Where a segment is at the end of the call. -/
structure SegmentFinal (s t : State) (dp : Fin NINODE) (root : Nat) (ph : Proghdr) (page : Nat) :
    Prop where
  mapped : ∀ o < PGSIZE, userByte t.mm.mem root (ph.vaddr + o) = some (page + o)
  copied : ∀ x < PGSIZE, x < 512 * ph.sectors → t.mm.mem (page + x) =
    storedByte s.fs.disk (s.fs.inode dp).addrs (512 * (ph.off / 512) + x)
  stale : ∀ x < PGSIZE, 512 * ph.sectors ≤ x → t.mm.mem (page + x) = s.mm.mem (page + x)

/-- The stack and the registers leave the segments alone. -/
theorem ExecLoaded.segment_final (loaded : ExecLoaded link s dp data trace free mid rest)
    (run : trace.Of link cp dp data args s t)
    (built : StackBuilt link trace.loaded.mm trace.stacked trace.root trace.sz strings rest last
      trace.stored.toStackStores)
    (only : FrameOnly link trace t mid last) (reads : NoFaults s) (allowed : SegmentsAllowed data)
    {seg : SegmentStores} (member : seg ∈ trace.stored.segments) {ph : Proghdr}
    (load : IsLoad data seg.header ph) : SegmentFinal s t dp trace.root ph seg.page := by
  obtain ⟨w, added, -⟩ := built.added
  have record := loadSegmentsStored_listed _ _ _ _ _ _ _ _ _ run.segments
  obtain ⟨-, bound, -⟩ := record.load seg member
  rw [Nat.zero_add] at bound
  have some_page : rest ≠ [] := by
    rintro rfl
    exact only.some_page (List.suffix_nil.mp added.grew.taken)
  have distinct : ∀ k l ph ph', 0 ≤ k → k < l → l < 0 + (elfOf data).phnum → IsLoad data k ph →
      IsLoad data l ph' → ph.vaddr / PGSIZE ≠ ph'.vaddr / PGSIZE := by
    intro k l ph ph' _ below upper load load'
    have less := allowed.ascending k l ph ph' below (by omega) load load'
    have aligned := allowed.aligned k ph (by omega) load
    have aligned' := allowed.aligned l ph' (by omega) load'
    simp only [PGSIZE] at *
    omega
  have there := loaded.segments.there some_page distinct seg member ph load
  obtain ⟨first, -⟩ := Proghdr.sectors_stored (allowed.stored _ ph bound load)
  obtain ⟨aligned, low⟩ := there.low
  obtain ⟨kept, -, -⟩ := added.grew.other there.page there.apart there.out
  have frame : seg.page ≠ trace.tf := by
    intro same
    exact only.frame (same ▸ there.source)
  have same : SameOn trace.loaded.mm.mem t.mm.mem seg.page :=
    kept.trans (only.others _ there.page frame)
  have fresh := built.fresh.resolve_left only.head
  constructor
  · intro o bound
    have here : (ph.vaddr + o) / PGSIZE = ph.vaddr / PGSIZE ∧ (ph.vaddr + o) % PGSIZE = o := by
      simp only [PGSIZE] at *
      omega
    have maps := there.maps (ph.vaddr + o) (by omega) here.1
    rw [userByte_mapped there.page, here.2]
    rw [only.maps, added.maps.resolve_left only.some_page _ (by omega), if_neg, maps]
    intro stack
    have twice := there.maps trace.sz (by have := built.low; simp only [PGSIZE] at *; omega)
      (stack.symm.trans here.1)
    rw [fresh] at twice
    cases twice
  · intro x bound inside
    have start : NoFaults trace.begun := by
      unfold NoFaults
      rw [run.files]
      exact reads
    rw [same x bound, there.loaded start x bound inside, first]
    unfold State.disk
    rw [run.files]
  · intro x bound behind
    rw [same x bound, there.stale x bound behind, run.memory]
    exact loaded.table.kept _ there.page (fun _ => there.source) x bound

theorem segmentBytes_length (disk : Nat → Block) (addrs : Addrs) (ph : Proghdr) {memsz : Nat}
    (size : ph.filesz ≤ memsz) : (segmentBytes disk addrs ph memsz).length = memsz := by
  unfold segmentBytes
  rw [List.length_append, List.length_map, List.length_range, List.length_replicate]
  omega

theorem segmentBytes_getD (disk : Nat → Block) (addrs : Addrs) (ph : Proghdr) {memsz k : Nat}
    (bound : k < memsz) : (segmentBytes disk addrs ph memsz).getD k 0 =
      if k < ph.filesz then storedByte disk addrs (ph.off + k) else 0 := by
  have files : ((List.range ph.filesz).map fun x => storedByte disk addrs (ph.off + x)).length =
      ph.filesz := by
    rw [List.length_map, List.length_range]
  unfold segmentBytes
  by_cases inside : k < ph.filesz
  · rw [List.getD_append _ _ _ _ (by omega), if_pos inside, List.getD_eq_getElem _ _ (by omega),
      List.getElem_map, List.getElem_range]
  · rw [List.getD_append_right _ _ _ _ (by omega), if_neg inside, files]
    exact List.getD_replicate _ (by omega)

/-- The user finds the segment exactly when the copy by sectors is exact. -/
theorem SegmentFinal.bytes_iff {root page memsz : Nat} {ph : Proghdr}
    (final : SegmentFinal s t dp root ph page) (table : (t.proc cp).pagetable = root)
    (one : ph.sectors ≤ 8) (covered : ph.filesz < 512 * ph.sectors)
    (sizes : ph.filesz ≤ memsz ∧ memsz ≤ PGSIZE) :
    UserBytes t cp ph.vaddr (segmentBytes s.fs.disk (s.fs.inode dp).addrs ph memsz) ↔
      SegmentCopied s.fs.disk (s.fs.inode dp).addrs s.mm.mem ph memsz page := by
  have byte : UserBytes t cp ph.vaddr (segmentBytes s.fs.disk (s.fs.inode dp).addrs ph memsz) ↔
      ∀ k < memsz, t.mm.mem (page + k) =
        if k < ph.filesz then storedByte s.fs.disk (s.fs.inode dp).addrs (ph.off + k) else 0 := by
    unfold UserBytes
    rw [segmentBytes_length _ _ _ sizes.1, table]
    refine forall₂_congr fun k bound => ?_
    rw [segmentBytes_getD _ _ _ bound, final.mapped k (by omega)]
    constructor
    · rintro ⟨pa, same, read⟩
      obtain rfl := Option.some_inj.mp same
      exact read
    · exact fun read => ⟨_, rfl, read⟩
  rw [byte]
  constructor
  · intro exact_
    refine ⟨one, fun x inside => ?_, fun x behind inside sector => ?_, fun x behind inside past => ?_⟩
    · have read := exact_ x (by omega)
      rw [if_pos inside, final.copied x (by omega) (by omega)] at read
      exact read
    · have read := exact_ x inside
      rw [if_neg (by omega), final.copied x (by omega) sector] at read
      exact read
    · have read := exact_ x inside
      rw [if_neg (by omega), final.stale x (by omega) past] at read
      exact read
  · intro copied k bound
    by_cases inside : k < ph.filesz
    · rw [if_pos inside, final.copied k (by omega) (by omega)]
      exact copied.file k inside
    · rw [if_neg inside]
      by_cases sector : k < 512 * ph.sectors
      · rw [final.copied k (by omega) sector]
        exact copied.tail k (by omega) bound sector
      · rw [final.stale k (by omega) (by omega)]
        exact copied.stale k (by omega) bound (by omega)

/-- Bytes outside of the pages that the call took are as before. -/
theorem ExecLoaded.outside (loaded : ExecLoaded link s dp data trace free mid rest)
    (run : trace.Of link cp dp data args s t)
    (grew : Grew link trace.loaded.mm trace.stacked trace.root rest last)
    (only : FrameOnly link trace t mid last) {a : Nat}
    (apart : ∀ pg ∈ free, pg ∉ last → a < pg ∨ pg + PGSIZE ≤ a) : t.mm.mem a = s.mm.mem a := by
  have lower := only.source.lower
  have upper := only.source.upper
  by_cases ram : a < link.base ∨ PHYSTOP ≤ a
  · have begun : KeptOutside link s.mm.mem trace.begun.mm := by
      rw [run.memory]
      exact procPagetable_outside s.mm.mem s.mm (fun _ _ => rfl) _ _ run.table
    have segments : Ensures (loadSegments link (s.fs.inode dp) trace.root data (elfOf data).phnum 0 0)
        trace.begun fun _ u => KeptOutside link s.mm.mem u.mm :=
      loadSegments_outside s.mm.mem _ _ _ _ _ _ trace.begun begun
    rw [loadSegments_stored] at segments
    have stacked : Ensures (buildStack link trace.root trace.sz args) trace.loaded.mm
        fun _ u => KeptOutside link s.mm.mem u :=
      buildStack_outside s.mm.mem _ _ _ _ (segments.of_map _ _ run.segments)
    rw [buildStack_stored] at stacked
    obtain ⟨-, frame⟩ := setTrapframe_frame _ _ _ _ _ _ _ run.frame
    rw [frame a (by omega)]
    exact stacked.of_map _ _ run.stack a ram
  · obtain ⟨pg, page, o, bound, rfl⟩ : ∃ pg, IsPage link pg ∧ ∃ o < PGSIZE, a = pg + o := by
      have base := link.base_aligned
      refine ⟨a / PGSIZE * PGSIZE, ⟨Nat.mul_mod_left _ _, ?_, ?_⟩, a % PGSIZE,
        Nat.mod_lt _ (by decide), (Nat.div_add_mod' a PGSIZE).symm⟩
      · simp only [PGSIZE] at *
        omega
      · simp only [PGSIZE, PHYSTOP, KERNBASE] at *
        omega
    have still : pg ∈ free → pg ∈ last := by
      intro member
      by_contra out
      have := apart pg member out
      omega
    have inRest : pg ∈ free → pg ∈ rest := fun member => grew.taken.subset (still member)
    have inMid : pg ∈ free → pg ∈ mid := fun member =>
      loaded.segments.grew.taken.subset (inRest member)
    have noTable : ¬IsTable trace.begun.mm.mem trace.root pg := by
      rw [run.memory]
      intro table
      exact loaded.table.space.held pg table (inMid (loaded.table.owned pg table))
    have noTable' : ¬IsTable trace.loaded.mm.mem trace.root pg := by
      intro table
      rcases loaded.segments.grew.owned pg table with old | new
      · exact noTable old
      · exact loaded.segments.grew.space.held pg table (inRest (loaded.table.taken.subset new))
    have frame : pg ≠ trace.tf := by
      rintro rfl
      rcases loaded.table.frame with ⟨-, null⟩ | ⟨-, member, -⟩
      · exact page.pos null
      · exact only.frame (inMid member)
    have tabled := loaded.table.kept pg page inMid
    rw [← run.memory] at tabled
    have first := loaded.segments.grew.frame pg page noTable fun member =>
      inRest (loaded.table.taken.subset member)
    have second := grew.frame pg page noTable' fun member =>
      still (loaded.table.taken.subset (loaded.segments.grew.taken.subset member))
    exact (((tabled.trans first).trans second).trans (only.others pg page frame)) o bound

/-- What the segments and the arguments must be like, with these pages on the
free list. -/
structure LoadsWell (s : State) (dp : Fin NINODE) (data : Block) (strings : List (List UInt8))
    (free : List Nat) : Prop where
  segments : ∀ i ph, i < (elfOf data).phnum → IsLoad data i ph →
    SegmentCopied s.fs.disk (s.fs.inode dp).addrs s.mm.mem ph (memszOf data i)
      (free.getD (segmentPlace data i) 0)
  stack : StackFits strings

/-- The pages of the segments, from the free list before the call. -/
theorem ExecLoaded.places (loaded : ExecLoaded link s dp data trace free mid rest)
    (run : trace.Of link cp dp data args s t) (list : FreeList link s.mm free) (one : OnePage data)
    (some_page : rest ≠ []) : ∀ seg ∈ trace.stored.segments,
      free.getD (segmentPlace data seg.header) 0 = seg.page := by
  have more : trace.loaded.mm.freelist ≠ 0 :=
    fun none => some_page (loaded.segments.grew.space.list.chain.head_eq_zero.mp none)
  have mid_page : mid ≠ [] := by
    rintro rfl
    exact some_page (List.suffix_nil.mp loaded.segments.grew.taken)
  have tabled : trace.tabled.freelist ≠ 0 :=
    fun none => mid_page (loaded.table.space.list.chain.head_eq_zero.mp none)
  obtain ⟨first, space, placed⟩ := procPagetable_placed list _ _ run.table tabled
  rw [← run.memory] at space placed
  exact loadSegmentsStored_places _ _ 0 0 space placed
    (fun k ph _ upper => one k ph (by omega)) _ _ run.segments more

/-- A call behind its checks. -/
theorem kexecLoadStored_loads {buf : Fin NBUF} (list : FreeList link s.mm free) (reads : NoFaults s)
    (allowed : SegmentsAllowed data)
    (texts : List.Forall₂ (fun arg string => arg.Reads link s.mm.mem string) args strings)
    (apart : ∀ pg, Arg.page pg ∈ args → pg ∉ free) :
    Ensures (kexecLoadStored link cp dp buf data args) s fun stored t => t.mm.freelist ≠ 0 →
      (LoadsExactly link s t cp s.fs.disk (s.fs.inode dp).addrs data free stored ↔
        LoadsWell s dp data strings free) := by
  intro stored t returned more
  obtain ⟨trace, run, rfl⟩ := kexecLoadStored_trace dp buf data args s stored t returned
  have record := loadSegmentsStored_listed _ _ _ _ _ _ _ _ _ run.segments
  have final : OnePage data → trace.stored.Inside → ∃ left, Listed link t.mm left ∧ left <:+ free ∧
      (∀ a, (∀ pg ∈ free, pg ∉ left → a < pg ∨ pg + PGSIZE ≤ a) → t.mm.mem a = s.mm.mem a) ∧
      ∀ i ph, i < (elfOf data).phnum → IsLoad data i ph →
        (UserBytes t cp ph.vaddr (segmentBytes s.fs.disk (s.fs.inode dp).addrs ph (memszOf data i)) ↔
          SegmentCopied s.fs.disk (s.fs.inode dp).addrs s.mm.mem ph (memszOf data i)
            (free.getD (segmentPlace data i) 0)) := by
    intro one inside
    obtain ⟨mid, rest, loaded⟩ := run.exec_loaded list one
    obtain ⟨-, last, built⟩ := (loaded.outcome run texts apart).built inside
    obtain ⟨w, added, -⟩ := built.added
    have only := loaded.frame_only run added.grew more
    have some_page : rest ≠ [] := by
      rintro rfl
      exact only.some_page (List.suffix_nil.mp added.grew.taken)
    refine ⟨last, only.list.toListed, ?_, fun a => loaded.outside run added.grew only, ?_⟩
    · exact (added.grew.taken.trans loaded.segments.grew.taken).trans loaded.table.taken
    · intro i ph bound load
      obtain ⟨seg, member, rfl⟩ := record.listed i ph (Nat.zero_le i) (by omega) load
      rw [loaded.places run list one some_page seg member]
      exact (loaded.segment_final run built only reads allowed member load).bytes_iff run.proc.1
        (one _ ph bound load) (Proghdr.sectors_stored (allowed.stored _ ph bound load)).2
        (allowed.sizes _ ph bound load)
  constructor
  · intro exact_
    have one := record.inside_iff.mp exact_.segments
    obtain ⟨left, -, -, -, bytes⟩ := final one exact_.stack
    obtain ⟨mid, rest, loaded⟩ := run.exec_loaded list one
    refine ⟨fun i ph bound load => ?_, (loaded.outcome run texts apart).inside.mp exact_.stack⟩
    exact (bytes i ph bound load).mp (exact_.bytes i ph bound load)
  · intro well
    have one : OnePage data := fun i ph bound load => (well.segments i ph bound load).sectors
    obtain ⟨mid, rest, loaded⟩ := run.exec_loaded list one
    have inside := (loaded.outcome run texts apart).inside.mpr well.stack
    obtain ⟨left, listed, taken, outside, bytes⟩ := final one inside
    refine ⟨fun i ph bound load => ?_, record.inside_iff.mpr one, inside, left, listed, taken, outside⟩
    exact (bytes i ph bound load).mpr (well.segments i ph bound load)

/-- `kexec` loads a program exactly when every copy by sectors is exact and the
arguments stay in the stack page. -/
theorem exec_loads_iff {path : List UInt8} {result : Int} {u : State} {buf : Fin NBUF}
    (list : FreeList link s.mm free) (opened : kexecOpen path s = .ok ((dp, buf, data), u))
    (reads : NoFaults u) (allowed : SegmentsAllowed data)
    (texts : List.Forall₂ (fun arg string => arg.Reads link s.mm.mem string) args strings)
    (apart : ∀ pg, Arg.page pg ∈ args → pg ∉ free)
    (returned : kexec link cp path args s = .ok (result, t)) (more : t.mm.freelist ≠ 0) :
    ∃ stored, kexecStored link cp path args s = .ok (stored, t) ∧
      (LoadsExactly link s t cp u.fs.disk (u.fs.inode dp).addrs data free stored ↔
        LoadsWell u dp data strings free) := by
  rw [kexec_stored] at returned
  obtain ⟨stored, v, call, last⟩ := Act.bind_eq_ok.mp returned
  cases last
  refine ⟨stored, call, ?_⟩
  unfold kexecStored at call
  rw [Act.bind_of_ok opened] at call
  have memory : u.mm = s.mm := kexecOpen_memory path s.mm s rfl _ u opened
  rw [← memory] at list texts
  have iff := kexecLoadStored_loads list reads allowed texts apart stored t call more
  rw [← iff]
  constructor
  · rintro ⟨bytes, segments, stack, outside⟩
    rw [← memory] at outside
    exact ⟨bytes, segments, stack, outside⟩
  · rintro ⟨bytes, segments, stack, outside⟩
    rw [memory] at outside
    exact ⟨bytes, segments, stack, outside⟩

end

/-- A program with one LOAD segment. -/
theorem SegmentsAllowed.one_segment {data : Block} {ph : Proghdr} (count : (elfOf data).phnum = 1)
    (header : proghdrOf data (elfOf data).phoff 0 = some ph) (aligned : ph.vaddr % PGSIZE = 0)
    (sizes : ph.filesz ≤ memszOf data 0 ∧ memszOf data 0 ≤ PGSIZE)
    (stored : ph.off + ph.filesz ≤ MAXFILE * BSIZE) : SegmentsAllowed data := by
  have only : ∀ i ph', i < (elfOf data).phnum → IsLoad data i ph' → i = 0 ∧ ph' = ph := by
    intro i ph' bound load
    obtain rfl : i = 0 := by omega
    exact ⟨rfl, Option.some_inj.mp (load.1.symm.trans header)⟩
  constructor
  · intro i ph' bound load
    obtain ⟨rfl, rfl⟩ := only i ph' bound load
    exact aligned
  · intro i j _ _ below bound
    omega
  · intro i ph' bound load
    obtain ⟨rfl, rfl⟩ := only i ph' bound load
    exact sizes
  · intro i ph' bound load
    obtain ⟨rfl, rfl⟩ := only i ph' bound load
    exact stored

/-- `smallCard` with a program of one LOAD segment at address zero. -/
def loadCard (off filesz memsz : Nat) (sector : Nat) : Block :=
  if sector = 6 then
    (((Block.zero.putU32 0 ELF_MAGIC).put 32 (leBytes 8 64)).put 56 (leBytes 2 1)).put 64
      (leBytes 8 1 ++ leBytes 8 off ++ leBytes 8 0 ++ leBytes 8 0 ++ leBytes 8 filesz ++
        leBytes 8 memsz)
  else smallCard sector

def loadProgram (off filesz memsz : Nat) : State :=
  State.loaded (Fs.State.loaded (loadCard off filesz memsz)) (smallMm 20)

/-- What the two programs below have in common. -/
def loadProgramHeader (off filesz memsz : Nat) : Option (Nat × Option Proghdr × Nat × List Bool) :=
  (kexecOpen [97, 0] (loadProgram off filesz memsz)).toOption.map fun opened =>
    ((elfOf opened.1.2.2).phnum, proghdrOf opened.1.2.2 (elfOf opened.1.2.2).phoff 0,
      memszOf opened.1.2.2 0, opened.2.fs.bio.sd.faults)

theorem loadProgram_opened {off filesz memsz : Nat} {ph : Proghdr}
    (header : loadProgramHeader off filesz memsz = some (1, some ph, memsz, [])) :
    ∃ dp buf data u, kexecOpen [97, 0] (loadProgram off filesz memsz) = .ok ((dp, buf, data), u) ∧
      NoFaults u ∧ (elfOf data).phnum = 1 ∧ proghdrOf data (elfOf data).phoff 0 = some ph ∧
      memszOf data 0 = memsz := by
  obtain ⟨⟨⟨dp, buf, data⟩, u⟩, opened, same⟩ := Option.map_eq_some_iff.mp header
  have run := ok_of_toOption opened
  simp only [Prod.mk.injEq] at same
  exact ⟨dp, buf, data, u, run, same.2.2.2, same.1, same.2.1, same.2.2.1⟩

theorem loadProgram_aligned :
    loadProgramHeader 0 4 4 = some (1, some ⟨1, 0, 0, 4⟩, 4, []) ∧
    (kexec smallLink initSlot [97, 0] [.text [97]]).returns (loadProgram 0 4 4) = true ∧
    ((kexec smallLink initSlot [97, 0] [.text [97]]).after (loadProgram 0 4 4)).mm.freelist ≠ 0 := by
  decide +kernel

/-- The first four bytes of the file as a segment. -/
theorem exec_loads_four : ∃ (dp : Fin NINODE) (data : Block) (u t : State) (stored : ExecStores)
    (free : List Nat),
    kexecStored smallLink initSlot [97, 0] [.text [97]] (loadProgram 0 4 4) = .ok (stored, t) ∧
      LoadsExactly smallLink (loadProgram 0 4 4) t initSlot u.fs.disk (u.fs.inode dp).addrs data free
        stored := by
  obtain ⟨header, runs, more⟩ := loadProgram_aligned
  obtain ⟨dp, buf, data, u, opened, reads, count, first, size⟩ := loadProgram_opened header
  obtain ⟨result, returned⟩ := returns_after _ (loadProgram 0 4 4) runs
  have read : Arg.Reads smallLink (loadProgram 0 4 4).mm.mem [97] (.text [97]) := rfl
  have allowed : SegmentsAllowed data :=
    SegmentsAllowed.one_segment count first (by decide) (by rw [size]; decide) (by decide)
  obtain ⟨stored, call, iff⟩ := exec_loads_iff
    (smallMm_freeList (by decide : 20 ≠ 0) (by decide) : FreeList smallLink (loadProgram 0 4 4).mm _)
    opened reads allowed (List.Forall₂.cons read List.Forall₂.nil)
    (fun pg member => by cases member with | tail _ member => cases member) returned more
  refine ⟨dp, data, u, _, stored, _, call, iff.mpr ⟨?_, ⟨by decide, List.cons_ne_nil _ _, ?_⟩⟩⟩
  · intro i ph bound load
    obtain rfl : i = 0 := by omega
    obtain rfl : ph = ⟨1, 0, 0, 4⟩ := Option.some_inj.mp (load.1.symm.trans first)
    rw [size]
    refine ⟨by decide, fun x _ => sector_aligned rfl x, fun x behind inside => ?_,
      fun x behind inside => ?_⟩
    · exact absurd behind (Nat.not_le.mpr inside)
    · exact absurd behind (Nat.not_le.mpr inside)
  · intro last member
    obtain rfl : last = [97] := by simpa using member.symm
    decide

/-- After a program whose only segment is the byte at offset 1. -/
def shiftedAfter : State :=
  (kexec smallLink initSlot [97, 0] [.text [97]]).after (loadProgram 1 1 1)

theorem loadProgram_shifted :
    loadProgramHeader 1 1 1 = some (1, some ⟨1, 1, 0, 1⟩, 1, []) ∧
    (kexec smallLink initSlot [97, 0] [.text [97]]).returns (loadProgram 1 1 1) = true ∧
    (userByte shiftedAfter.mm.mem (shiftedAfter.proc initSlot).pagetable 0).map shiftedAfter.mm.mem =
      some 127 ∧
    (kexecOpen [97, 0] (loadProgram 1 1 1)).toOption.map (fun opened =>
      storedByte opened.2.fs.disk (opened.2.fs.inode opened.1.1).addrs 1) = some 69 := by
  decide +kernel

/-- A segment of one byte at offset 1 of the file: the user finds byte 0. -/
theorem exec_loads_shifted : ∃ (dp : Fin NINODE) (buf : Fin NBUF) (data : Block) (u t : State)
    (result : Int),
    kexecOpen [97, 0] (loadProgram 1 1 1) = .ok ((dp, buf, data), u) ∧ SegmentsAllowed data ∧
      kexec smallLink initSlot [97, 0] [.text [97]] (loadProgram 1 1 1) = .ok (result, t) ∧
      ∀ free stored, ¬LoadsExactly smallLink (loadProgram 1 1 1) t initSlot u.fs.disk
        (u.fs.inode dp).addrs data free stored := by
  obtain ⟨header, runs, found, expected⟩ := loadProgram_shifted
  obtain ⟨dp, buf, data, u, opened, -, count, first, size⟩ := loadProgram_opened header
  obtain ⟨result, returned⟩ := returns_after _ (loadProgram 1 1 1) runs
  refine ⟨dp, buf, data, u, shiftedAfter, result, opened, SegmentsAllowed.one_segment count first (by decide)
    (by rw [size]; decide) (by decide), returned, ?_⟩
  intro free stored loads
  obtain ⟨pa, seen, byte⟩ := loads.bytes 0 _ (by omega) ⟨first, rfl⟩ 0
    (by rw [segmentBytes_length _ _ _ (by rw [size]), size]; decide)
  rw [opened] at expected
  rw [segmentBytes_getD _ _ _ (by rw [size]; decide)] at byte
  have expected : storedByte u.fs.disk (u.fs.inode dp).addrs 1 = 69 := Option.some_inj.mp expected
  simp only [Nat.add_zero] at seen
  rw [seen] at found
  have found := Option.some_inj.mp found
  rw [byte] at found
  simp [expected] at found

end Gcgos.Kernel
