import Gcgos.Kernel.Return

/-!
# The stores of `kexec`

The same calls with a record of the stores: for every LOAD segment, and for the
stack, the page that `kalloc` returned and the regions that were stored to.
Without the record they are the calls of the source.
-/

set_option autoImplicit false

namespace Gcgos.Kernel

open Act ByteMap Fs

/-- A page and what was stored to fill it: where a store begins and how long it
is. -/
structure PageStores where
  page : Nat
  regions : List (Nat × Nat)

/-- The regions lie in a page. -/
def InPage (pg : Nat) (regions : List (Nat × Nat)) : Prop :=
  ∀ region ∈ regions, pg ≤ region.1 ∧ region.1 + region.2 ≤ pg + PGSIZE

theorem inPage_cons {pg : Nat} {region : Nat × Nat} {regions : List (Nat × Nat)} :
    InPage pg (region :: regions) ↔
      (pg ≤ region.1 ∧ region.1 + region.2 ≤ pg + PGSIZE) ∧ InPage pg regions :=
  List.forall_mem_cons

/-- The stores stay in the page. -/
def PageStores.Inside (stored : PageStores) : Prop := InPage stored.page stored.regions

/-- The page of the LOAD segment of a program header. -/
structure SegmentStores extends PageStores where
  header : Nat

/-- The stack page, and the address of `argv`. -/
structure StackStores extends PageStores where
  argv : Nat

/-- The pages of a program. -/
structure ExecStores extends StackStores where
  segments : List SegmentStores

section

variable (link : Link)

/-- `loadSectors` with the regions that it stores to. -/
def loadSectorsStored (dp : Inode) (pa : Nat) : (count i j : Nat) → Act Fault State (List (Nat × Nat))
  | 0, _, _ => pure []
  | count + 1, i, j => do
      let data ← onBio (kexecSector dp i)
      onMm (storeBytes link (pa + 512 * j) (getBytes data.byte 0 512))
      let regions ← loadSectorsStored dp pa count (i + 1) (j + 1)
      pure ((pa + 512 * j, (getBytes data.byte 0 512).length) :: regions)

/-- `loadSegment` with its stores. -/
def loadSegmentStored (dp : Inode) (pagetable : Nat) (ph : Proghdr) : Act Fault State PageStores := do
  let pa ← onMm (kalloc link)
  Act.stopIf (ph.firstSector < 0 ∧ 0 < ph.sectors) .bounds
  let regions ← loadSectorsStored link dp pa ph.sectors ph.firstSector.toNat 0
  let _ ← onMm (mappages link pagetable ph.vaddr pa PGSIZE PTE_AP_RW)
  pure ⟨pa, regions⟩

/-- `loadSegments` with its stores. -/
def loadSegmentsStored (dp : Inode) (pagetable : Nat) (data : Block) :
    (count i sz : Nat) → Act Fault State (Nat × List SegmentStores)
  | 0, _, sz => pure (sz, [])
  | count + 1, i, sz =>
      match proghdrOf data (elfOf data).phoff i with
      | none => Act.fail .bounds
      | some ph =>
          if ph.type ≠ ELF_PROG_LOAD then loadSegmentsStored dp pagetable data count (i + 1) sz
          else do
            let stored ← loadSegmentStored link dp pagetable ph
            let (last, rest) ← loadSegmentsStored dp pagetable data count (i + 1) ph.vaddr
            pure (last, ⟨stored, i⟩ :: rest)

/-- `pushArg` with the region that it stores to. -/
def pushArgStored (stack : ArgStack) (arg : Arg) : Act Fault Mm (ArgStack × (Nat × Nat)) := do
  let bytes ← arg.bytes link
  let dsp := alignDown stack.dsp bytes.length
  let align_sz := alignDown stack.align_sz (bytes.length + 1)
  storeBytes link dsp (bytes ++ [0])
  pure (⟨dsp, align_sz, align_sz :: stack.ustack⟩, (dsp, (bytes ++ [0]).length))

/-- `pushArgs` with the regions that it stores to. -/
def pushArgsStored : (stack : ArgStack) → (args : List Arg) →
    Act Fault Mm (ArgStack × List (Nat × Nat))
  | stack, [] => pure (stack, [])
  | stack, arg :: rest => do
      let (stack, regions) ← pushArgsStored stack rest
      let (stack, region) ← pushArgStored link stack arg
      pure (stack, region :: regions)

/-- `buildStack` with its stores. -/
def buildStackStored (pagetable sz : Nat) (args : List Arg) : Act Fault Mm StackStores := do
  let sp ← kalloc link
  let (stack, regions) ← pushArgsStored link ⟨sp + PGSIZE, sz + PGSIZE, []⟩ args
  let argv ← pushUstack link stack args.length
  let _ ← mappages link pagetable sz sp PGSIZE PTE_AP_RW
  pure ⟨⟨sp, (alignDown stack.dsp (8 * args.length), 8 * (stack.ustack ++ [0]).length) :: regions⟩,
    argv⟩

/-- `kexecLoad` with its stores. -/
def kexecLoadStored (cp : Fin NPROC) (dp : Fin NINODE) (buf : Fin NBUF) (data : Block)
    (args : List Arg) : Act Fault State ExecStores := do
  let (pagetable, tf) ← onMm (procPagetable link)
  modifyProc cp fun proc => { proc with tf := tf }
  let inode ← onFs (inodeAt dp)
  let (last, segments) ← loadSegmentsStored link inode pagetable data (elfOf data).phnum 0 0
  let sz := PGROUNDUP last + PGSIZE
  let stack ← onMm (buildStackStored link pagetable sz args)
  modifyProc cp fun proc => { proc with pagetable := pagetable, sz := sz }
  onMm (setTrapframe link tf stack.argv args.length (elfOf data).entry)
  modifyProc cp fun proc => { proc with state := .RUNNABLE }
  onBio (brelse buf)
  pure ⟨stack, segments⟩

def kexecStored (cp : Fin NPROC) (path : List UInt8) (args : List Arg) :
    Act Fault State ExecStores := do
  let (dp, buf, data) ← kexecOpen path
  kexecLoadStored link cp dp buf data args

end

section

variable {link : Link}

theorem loadSectorsStored_zero (dp : Inode) (pa i j : Nat) :
    loadSectorsStored link dp pa 0 i j = pure [] := rfl

theorem loadSectorsStored_succ (dp : Inode) (pa count i j : Nat) :
    loadSectorsStored link dp pa (count + 1) i j = (do
      let data ← onBio (kexecSector dp i)
      onMm (storeBytes link (pa + 512 * j) (getBytes data.byte 0 512))
      let regions ← loadSectorsStored link dp pa count (i + 1) (j + 1)
      pure ((pa + 512 * j, (getBytes data.byte 0 512).length) :: regions)) := (rfl)

theorem loadSectors_stored (dp : Inode) (pa count i j : Nat) :
    loadSectors link dp pa count i j =
      loadSectorsStored link dp pa count i j >>= fun _ => pure () := by
  induction count generalizing i j with
  | zero => rw [loadSectors_zero, loadSectorsStored_zero, Act.pure_bind]
  | succ count ih =>
      rw [loadSectors_succ, loadSectorsStored_succ]
      simp only [ih, Act.bind_assoc, Act.pure_bind]

theorem loadSegment_stored (dp : Inode) (pagetable : Nat) (ph : Proghdr) :
    loadSegment link dp pagetable ph =
      loadSegmentStored link dp pagetable ph >>= fun _ => pure () := by
  unfold loadSegment loadSegmentStored
  simp only [loadSectors_stored, Act.bind_assoc, Act.pure_bind]

theorem loadSegments_stored (dp : Inode) (pagetable : Nat) (data : Block) (count i sz : Nat) :
    loadSegments link dp pagetable data count i sz =
      loadSegmentsStored link dp pagetable data count i sz >>= fun stored => pure stored.1 := by
  induction count generalizing i sz with
  | zero => rfl
  | succ count ih =>
      unfold loadSegments loadSegmentsStored
      cases proghdrOf data (elfOf data).phoff i with
      | none => rfl
      | some ph =>
          by_cases other : ph.type ≠ ELF_PROG_LOAD
          · simp only [if_pos other, ih]
          · simp only [if_neg other, loadSegment_stored, ih, Act.bind_assoc, Act.pure_bind]

theorem pushArgs_stored (stack : ArgStack) (args : List Arg) :
    pushArgs link stack args = pushArgsStored link stack args >>= fun stored => pure stored.1 := by
  induction args with
  | nil => rfl
  | cons arg rest ih =>
      unfold pushArgs pushArgsStored pushArg pushArgStored
      rw [ih]
      simp only [Act.bind_assoc, Act.pure_bind]

theorem buildStack_stored (pagetable sz : Nat) (args : List Arg) :
    buildStack link pagetable sz args =
      buildStackStored link pagetable sz args >>= fun stored => pure stored.argv := by
  unfold buildStack buildStackStored
  simp only [pushArgs_stored, Act.bind_assoc, Act.pure_bind]

/-- A call of `kexec` is the same call with its stores. -/
theorem kexec_stored (cp : Fin NPROC) (path : List UInt8) (args : List Arg) :
    kexec link cp path args = kexecStored link cp path args >>= fun _ => pure 0 := by
  unfold kexec kexecStored kexecLoad kexecLoadStored onMm
  simp only [buildStack_stored, loadSegments_stored, Act.zoom_map, Act.bind_assoc, Act.pure_bind]

/-! ## The regions of the segments -/

/-- The regions of a segment of so many sectors. -/
def sectorRegions (pa count j : Nat) : List (Nat × Nat) :=
  (List.range count).map fun k => (pa + 512 * (j + k), 512)

theorem sectorRegions_cons (pa count j : Nat) :
    sectorRegions pa (count + 1) j = (pa + 512 * j, 512) :: sectorRegions pa count (j + 1) := by
  unfold sectorRegions
  rw [List.range_succ_eq_map, List.map_cons, List.map_map, Nat.add_zero]
  refine congrArg _ (List.map_congr_left fun k _ => ?_)
  simp only [Function.comp, Nat.succ_eq_add_one, Nat.add_assoc, Nat.add_comm 1 k]

theorem loadSectorsStored_regions (dp : Inode) (pa count i j : Nat) (s : State) :
    Ensures (loadSectorsStored link dp pa count i j) s fun regions _ =>
      regions = sectorRegions pa count j := by
  induction count generalizing i j s with
  | zero =>
      rw [loadSectorsStored_zero]
      exact Ensures.pure rfl
  | succ count ih =>
      rw [loadSectorsStored_succ]
      refine Ensures.seq (m := fun _ _ => True) (fun _ _ _ => trivial) fun data t _ => ?_
      refine Ensures.seq (m := fun _ _ => True) (fun _ _ _ => trivial) fun _ u _ => ?_
      refine Ensures.seq (ih (i + 1) (j + 1) u) ?_
      rintro regions v rfl
      refine Ensures.pure ?_
      rw [ByteMap.getBytes_length, sectorRegions_cons]

/-- Eight sectors fill a page. -/
theorem sectorRegions_inside (pa count : Nat) :
    PageStores.Inside ⟨pa, sectorRegions pa count 0⟩ ↔ count ≤ 8 := by
  unfold PageStores.Inside InPage sectorRegions
  simp only [List.mem_map, List.mem_range, forall_exists_index, and_imp]
  constructor
  · intro inside
    by_contra many
    have last := inside _ 8 (by omega) rfl
    simp only [PGSIZE] at last
    omega
  · rintro few _ k bound rfl
    simp only [PGSIZE]
    omega

/-- The program header of this number is a LOAD segment. -/
def IsLoad (data : Block) (i : Nat) (ph : Proghdr) : Prop :=
  proghdrOf data (elfOf data).phoff i = some ph ∧ ph.type = ELF_PROG_LOAD

theorem IsLoad.unique {data : Block} {i : Nat} {ph ph' : Proghdr} (load : IsLoad data i ph)
    (load' : IsLoad data i ph') : ph = ph' :=
  Option.some_inj.mp (load.1.symm.trans load'.1)

theorem loadSegmentStored_regions (dp : Inode) (root : Nat) (ph : Proghdr) (s : State) :
    Ensures (loadSegmentStored link dp root ph) s fun stored _ =>
      stored.regions = sectorRegions stored.page ph.sectors 0 := by
  unfold loadSegmentStored
  refine Ensures.seq (m := fun _ _ => True) (fun _ _ _ => trivial) fun pa t _ => ?_
  refine Ensures.guard fun _ => ?_
  refine Ensures.seq (loadSectorsStored_regions dp pa _ _ 0 t) ?_
  rintro regions u rfl
  refine Ensures.seq (m := fun _ _ => True) (fun _ _ _ => trivial) fun _ v _ => ?_
  exact Ensures.pure rfl

/-- The record has the LOAD segments, with all of their sectors. -/
structure SegmentsListed (data : Block) (i count : Nat) (segments : List SegmentStores) : Prop where
  load : ∀ seg ∈ segments, i ≤ seg.header ∧ seg.header < i + count ∧
    ∃ ph, IsLoad data seg.header ph ∧ seg.regions = sectorRegions seg.page ph.sectors 0
  listed : ∀ k ph, i ≤ k → k < i + count → IsLoad data k ph → ∃ seg ∈ segments, seg.header = k

theorem loadSegmentsStored_listed (dp : Inode) (root : Nat) (data : Block) (count i sz : Nat)
    (s : State) : Ensures (loadSegmentsStored link dp root data count i sz) s fun stored _ =>
      SegmentsListed data i count stored.2 := by
  induction count generalizing i sz s with
  | zero =>
      refine Ensures.pure ⟨List.forall_mem_nil _, fun k ph lower upper => ?_⟩
      omega
  | succ count ih =>
      unfold loadSegmentsStored
      cases header : proghdrOf data (elfOf data).phoff i with
      | none => exact Ensures.fail
      | some ph =>
          apply Ensures.ite
          · intro other
            refine (ih (i + 1) sz s).mono ?_
            rintro stored t ⟨load, listed⟩
            refine ⟨fun seg member => ?_, fun k ph' lower upper isLoad => ?_⟩
            · obtain ⟨lower, upper, is⟩ := load seg member
              exact ⟨by omega, by omega, is⟩
            · refine listed k ph' (Nat.succ_le_of_lt (lt_of_le_of_ne lower ?_)) (by omega) isLoad
              rintro rfl
              obtain rfl : ph = ph' := Option.some_inj.mp (header.symm.trans isLoad.1)
              exact other isLoad.2
          · intro type
            refine Ensures.seq (loadSegmentStored_regions dp root ph s) ?_
            intro stored u regions
            refine Ensures.seq (ih (i + 1) ph.vaddr u) ?_
            rintro ⟨last, rest⟩ t ⟨load, listed⟩
            refine Ensures.pure ⟨?_, fun k ph' lower upper isLoad => ?_⟩
            · refine List.forall_mem_cons.mpr ⟨⟨le_rfl, by simp only; omega, ph,
                ⟨header, not_not.mp type⟩, regions⟩, fun seg member => ?_⟩
              obtain ⟨lower, upper, is⟩ := load seg member
              exact ⟨by omega, by omega, is⟩
            · rcases Nat.lt_or_ge i k with above | here
              · obtain ⟨seg, member, same⟩ := listed k ph' above (by omega) isLoad
                exact ⟨seg, List.mem_cons_of_mem _ member, same⟩
              · exact ⟨_, List.mem_cons_self, by simp only; omega⟩

/-- Every LOAD segment fits its page. -/
def OnePage (data : Block) : Prop :=
  ∀ i ph, i < (elfOf data).phnum → IsLoad data i ph → ph.sectors ≤ 8

/-- The stores of the segments stay in their pages when no segment has more
sectors than a page. -/
theorem SegmentsListed.inside_iff {data : Block} {segments : List SegmentStores}
    (record : SegmentsListed data 0 (elfOf data).phnum segments) :
    (∀ seg ∈ segments, seg.Inside) ↔ OnePage data := by
  have shape : ∀ seg ∈ segments, ∀ ph, IsLoad data seg.header ph →
      (seg.Inside ↔ ph.sectors ≤ 8) := by
    intro seg member ph load
    obtain ⟨-, -, ph', load', regions⟩ := record.load seg member
    obtain rfl := load.unique load'
    rw [← sectorRegions_inside seg.page, ← regions]
  constructor
  · intro inside i ph bound load
    obtain ⟨seg, member, rfl⟩ := record.listed i ph (Nat.zero_le i) (by omega) load
    exact (shape seg member ph load).mp (inside seg member)
  · intro one seg member
    obtain ⟨-, upper, ph, load, -⟩ := record.load seg member
    exact (shape seg member ph load).mpr (one _ ph (by omega) load)

end

end Gcgos.Kernel
