import Gcgos.Kernel.FileSystem
import Gcgos.Kernel.Segments

/-!
# Programs that start

With enough pages and buffers `kexec` of a program whose headers are in order
returns, for any number of segments. What the new process then finds is what the
file holds: this is said of the string that the volume shows, not of blocks.
-/

set_option autoImplicit false

namespace Gcgos.Kernel

open Act ByteMap Fs Bio Radix

section

variable {link : Link}

/-! ## Reading sectors -/

/-- A sector among the direct blocks is read with one buffer. -/
theorem kexecSector_yields {b : Bio} (ready : b.Ready 1) (dp : Inode) {i : Nat}
    (direct : i < NDIRECT) :
    Yields (kexecSector dp i) b fun data c =>
      data = b.sd.block (dp.addrs (addrSlot i)).toNat ∧ Settled b c b.sd.block := by
  unfold kexecSector kexecBlock
  rw [if_pos direct]
  refine Yields.step rfl ?_
  simp only
  refine Yields.seq (bread_yields _ _ ready) ?_
  intro sec c held
  refine Yields.seq (bufData_yields held) ?_
  rintro data _ ⟨rfl, rfl⟩
  refine Yields.seq (brelse_yields held.free held.busy (by rw [held.sd])) ?_
  intro _ d settled
  rw [held.sd] at settled
  refine Yields.seq (brelse_again held.free settled) ?_
  intro _ e settled
  exact ⟨_, e, rfl, rfl, settled⟩

/-- What is done with the buffers shows in the buffers only. -/
theorem onBio_yields {α : Type} {inner : Act Fault Bio α} {s : State} {p : α → Bio → Prop}
    (met : Yields inner s.fs.bio p) :
    Yields (onBio inner) s fun value t =>
      t.mm = s.mm ∧ t.fs.inode = s.fs.inode ∧ p value t.fs.bio := by
  have files : Yields (Fs.onBio inner) s.fs fun value fs =>
      fs.inode = s.fs.inode ∧ p value fs.bio :=
    Yields.zoom (met.mono fun _ _ kept => ⟨rfl, kept⟩)
  refine (onFs_yields files).mono ?_
  rintro value t ⟨-, memory, fs, kept, same⟩
  refine ⟨memory, ?_⟩
  rw [same]
  exact kept

/-- From `s` to `t` sectors were read and nothing is held. -/
def SettledRead (s t : State) : Prop := Settled s.fs.bio t.fs.bio s.fs.disk

theorem SettledRead.trans {s t u : State} (left : SettledRead s t) (right : SettledRead t u) :
    SettledRead s u := by
  have same : t.fs.disk = s.fs.disk := left.disk
  have whole := Settled.trans left right
  rw [same] at whole
  exact whole

/-- Sectors of the direct blocks go to memory that the kernel maps. -/
theorem loadSectorsStored_yields (dp : Inode) (pa count i j : Nat) {s : State}
    (ready : s.fs.bio.Ready 1) (direct : i + count ≤ NDIRECT)
    (inside : ∀ k, k < count → InRam link (pa + 512 * (j + k)) 512) :
    Yields (loadSectorsStored link dp pa count i j) s fun _ t => SettledRead s t := by
  induction count generalizing i j s with
  | zero => exact ⟨[], s, rfl, Settled.refl s.fs.bio⟩
  | succ count ih =>
      rw [loadSectorsStored_succ]
      refine Yields.seq (onBio_yields (kexecSector_yields ready dp (by omega))) ?_
      rintro data t ⟨-, -, -, settled⟩
      have stored : storeBytes link (pa + 512 * j) (getBytes data.byte 0 512) t.mm =
          .ok ((), t.mm.store (pa + 512 * j) (getBytes data.byte 0 512)) := by
        refine storeBytes_run ?_ t.mm
        rw [ByteMap.getBytes_length]
        exact inside 0 (Nat.succ_pos count)
      refine Yields.step (Act.zoom_of_ok stored) ?_
      have later := ih (i + 1) (j + 1)
        (s := { t with mm := t.mm.store (pa + 512 * j) (getBytes data.byte 0 512) })
        (settled.ready ready) (by omega) fun k bound => by
          have there := inside (k + 1) (Nat.succ_lt_succ bound)
          rwa [show j + (k + 1) = j + 1 + k by omega] at there
      refine Yields.seq later ?_
      intro regions u last
      exact ⟨_, u, rfl, SettledRead.trans (t := { t with mm := _ }) settled last⟩

/-! ## One segment -/

/-- A segment that `kexec` can load: it begins and ends in the direct blocks, and
its sectors fit a page. -/
structure Loadable (ph : Proghdr) : Prop where
  first : 0 ≤ ph.firstSector
  direct : ph.firstSector.toNat + ph.sectors ≤ NDIRECT
  sectors : ph.sectors ≤ 8
  aligned : ph.vaddr % PGSIZE = 0
  low : ph.vaddr + PGSIZE ≤ MAXVA

/-- A segment takes its page and at most two tables. -/
theorem loadSegmentStored_yields {s : State} {root : Nat} {free : List Nat}
    (space : Space link s.mm root free) (some_page : free ≠ []) (ready : s.fs.bio.Ready 1)
    (dp : Inode) {ph : Proghdr} (loadable : Loadable ph)
    (unmapped : translate s.mm.mem root ph.vaddr = none) :
    Yields (loadSegmentStored link dp root ph) s fun _ t => SettledRead s t ∧
      Spent link t.mm free 3 := by
  have taken : Yields (onMm (kalloc link)) s fun pg u => u.fs = s.fs ∧ u.mm.mem = s.mm.mem ∧
      ∃ tail, free = pg :: tail ∧ FreeList link u.mm tail := by
    refine Yields.zoom ((kalloc_yields space.list).mono ?_)
    rintro pg m ⟨same, ⟨rfl, -, -⟩ | popped⟩
    · exact absurd rfl some_page
    · exact ⟨rfl, same, popped⟩
  unfold loadSegmentStored
  refine Yields.seq taken ?_
  rintro pg u ⟨files, same, tail, rfl, list⟩
  have page := space.list.page pg List.mem_cons_self
  have first := loadable.first
  refine Yields.step (Act.stopIf_of_not _ u (by omega)) ?_
  have copied := (loadSectorsStored_yields dp pg ph.sectors ph.firstSector.toNat 0 (s := u)
    (by rw [files]; exact ready) loadable.direct fun k bound => by
      have few := loadable.sectors
      refine page.inRam ?_
      simp only [PGSIZE]
      omega).both (loadSectorsStored_ensures dp pg _ _ 0 u)
  refine Yields.seq copied ?_
  rintro _ v ⟨settled, head, outside, -⟩
  have others : ∀ q, IsPage link q → q ≠ pg → SameOn s.mm.mem v.mm.mem q := by
    intro q page' different o bound
    have few := loadable.sectors
    have apart := page'.apart page different
    rw [← same]
    refine outside _ ?_
    simp only [PGSIZE] at *
    omega
  obtain ⟨filled, -, fill⟩ := space.fill list same head others
  obtain ⟨result, m, mapped, -⟩ := mappages_one filled.space loadable.aligned loadable.low
    ((fill _).trans unmapped) pg PTE_AP_RW
  refine Yields.step (Act.zoom_of_ok mapped) ?_
  refine ⟨_, _, rfl, ?_, ?_⟩
  · unfold SettledRead at settled ⊢
    rw [files] at settled
    exact settled
  · intro rest listed
    have spent := mappages_spends filled.space _ _ _ _ _ _ mapped rest listed
    simp only [PGSIZE, List.length_cons] at *
    omega

/-! ## All segments -/

/-- The headers from `i` on: they lie in the first sector, and their LOAD
segments can be loaded to pages of their own. -/
structure HeadersFrom (data : Block) (i count : Nat) : Prop where
  present : ∀ k, i ≤ k → k < i + count → ∃ ph, proghdrOf data (elfOf data).phoff k = some ph
  loadable : ∀ k ph, i ≤ k → k < i + count → IsLoad data k ph → Loadable ph
  distinct : ∀ k l ph ph', i ≤ k → k < l → l < i + count → IsLoad data k ph →
    IsLoad data l ph' → ph.vaddr / PGSIZE ≠ ph'.vaddr / PGSIZE

theorem HeadersFrom.next {data : Block} {i count : Nat} (headers : HeadersFrom data i (count + 1)) :
    HeadersFrom data (i + 1) count where
  present k lower upper := headers.present k (by omega) (by omega)
  loadable k ph lower upper := headers.loadable k ph (by omega) (by omega)
  distinct k l ph ph' lower between upper :=
    headers.distinct k l ph ph' (by omega) between (by omega)

/-- With three pages for each header the loop returns. -/
theorem loadSegmentsStored_yields {root : Nat} (dp : Inode) (data : Block) (count i sz : Nat)
    {s : State} {free : List Nat} (space : Space link s.mm root free)
    (ready : s.fs.bio.Ready 1) (enough : 3 * count < free.length)
    (headers : HeadersFrom data i count)
    (unmapped : ∀ k ph, i ≤ k → k < i + count → IsLoad data k ph →
      translate s.mm.mem root ph.vaddr = none) :
    Yields (loadSegmentsStored link dp root data count i sz) s fun _ t => SettledRead s t ∧
      Spent link t.mm free (3 * count) := by
  induction count generalizing i sz s free with
  | zero => exact ⟨_, s, rfl, Settled.refl s.fs.bio, space.spent le_rfl⟩
  | succ count ih =>
      obtain ⟨ph, header⟩ := headers.present i le_rfl (by omega)
      unfold loadSegmentsStored
      rw [header]
      simp only
      by_cases other : ph.type ≠ ELF_PROG_LOAD
      · rw [if_pos other]
        refine (ih (i + 1) sz space ready (by omega) headers.next fun k ph' lower upper =>
          unmapped k ph' (by omega) (by omega)).mono ?_
        rintro _ t ⟨settled, spent⟩
        refine ⟨settled, fun rest listed => ?_⟩
        have few := spent rest listed
        omega
      · rw [if_neg other]
        have load : IsLoad data i ph := ⟨header, not_not.mp other⟩
        have loadable := headers.loadable i ph le_rfl (by omega) load
        have some_page : free ≠ [] := by
          rintro rfl
          exact absurd enough (by simp)
        refine Yields.seq ((loadSegmentStored_yields space some_page ready dp loadable
          (unmapped i ph le_rfl (by omega) load)).both
          (loadSegmentStored_ensures space dp loadable.sectors)) ?_
        rintro stored u ⟨⟨settled, spent⟩, -, mid, grew, page⟩
        have few := spent mid grew.space.list.toListed
        have later : mid ≠ [] := by
          rintro rfl
          rw [List.length_nil] at few
          omega
        obtain ⟨w, added⟩ := (page later).added
        refine Yields.seq (ih (i + 1) ph.vaddr grew.space (settled.ready ready) (by omega)
          headers.next fun k ph' lower upper load' => ?_) ?_
        · have low := (headers.loadable k ph' (by omega) (by omega) load').low
          rw [added.maps.resolve_left later _ (by simp only [PGSIZE] at low; omega), if_neg]
          · exact unmapped k ph' (by omega) (by omega) load'
          · exact (headers.distinct i k ph ph' le_rfl (by omega) (by omega) load load').symm
        · rintro ⟨last, segments⟩ t ⟨settled', spent'⟩
          refine ⟨_, t, rfl, settled.trans settled', fun rest listed => ?_⟩
          have few' := spent' rest listed
          omega

/-- `sz` ends as the address of the last LOAD segment. -/
theorem loadSegmentsStored_last (dp : Inode) (root : Nat) (data : Block) (count i sz : Nat)
    (s : State) : Ensures (loadSegmentsStored link dp root data count i sz) s fun stored _ =>
      (stored.1 = sz ∨ ∃ k ph, i ≤ k ∧ k < i + count ∧ IsLoad data k ph ∧ stored.1 = ph.vaddr) ∧
      ∀ k ph, i ≤ k → k < i + count → IsLoad data k ph →
        ∃ l ph', k ≤ l ∧ l < i + count ∧ IsLoad data l ph' ∧ stored.1 = ph'.vaddr := by
  induction count generalizing i sz s with
  | zero =>
      refine Ensures.pure ⟨Or.inl rfl, fun k ph lower upper => ?_⟩
      omega
  | succ count ih =>
      unfold loadSegmentsStored
      cases header : proghdrOf data (elfOf data).phoff i with
      | none => exact Ensures.fail
      | some ph =>
          apply Ensures.ite
          · intro other
            refine (ih (i + 1) sz s).mono ?_
            rintro stored t ⟨from_, last⟩
            refine ⟨from_.imp_right ?_, fun k ph' lower upper load => ?_⟩
            · rintro ⟨k, ph', lower, upper, there⟩
              exact ⟨k, ph', by omega, by omega, there⟩
            · have different : k ≠ i := by
                rintro rfl
                obtain rfl : ph = ph' := Option.some_inj.mp (header.symm.trans load.1)
                exact other load.2
              obtain ⟨l, ph'', above, below, there⟩ := last k ph' (by omega) (by omega) load
              exact ⟨l, ph'', above, by omega, there⟩
          · intro type
            have load : IsLoad data i ph := ⟨header, not_not.mp type⟩
            refine Ensures.seq (m := fun _ _ => True) (fun _ _ _ => trivial) fun stored u _ => ?_
            refine Ensures.seq (ih (i + 1) ph.vaddr u) ?_
            rintro ⟨end_, segments⟩ t ⟨from_, last⟩
            have found : ∃ l ph', i ≤ l ∧ l < i + (count + 1) ∧ IsLoad data l ph' ∧
                end_ = ph'.vaddr := by
              rcases from_ with same | ⟨k, ph', lower, upper, load', same⟩
              · exact ⟨i, ph, le_rfl, by omega, load, same⟩
              · exact ⟨k, ph', by omega, by omega, load', same⟩
            refine Ensures.pure ⟨Or.inr found, fun k ph' lower upper load' => ?_⟩
            by_cases here : k = i
            · subst here
              exact found
            · obtain ⟨l, ph'', above, below, there⟩ := last k ph' (by omega) (by omega) load'
              exact ⟨l, ph'', above, by omega, there⟩

/-! ## The stack -/

theorem inRam_of_inPage {pg : Nat} (page : IsPage link pg) {region : Nat × Nat}
    (inside : pg ≤ region.1 ∧ region.1 + region.2 ≤ pg + PGSIZE) :
    InRam link region.1 region.2 := by
  have lower := page.lower
  have upper := page.upper
  exact Or.inr ⟨by omega, by omega⟩

/-- The strings are stored when their regions lie in the page. -/
theorem pushArgsStored_yields {sp top utop : Nat} (page : IsPage link sp) {args : List Arg}
    {strings : List (List UInt8)} {m : Mm}
    (reads : List.Forall₂ (fun arg string => arg.Reads link m.mem string) args strings)
    (apart : ∀ pg, Arg.page pg ∈ args → IsPage link pg → pg + PGSIZE ≤ sp ∨ sp + PGSIZE ≤ pg)
    (inside : InPage sp (stringRegions top strings)) :
    Yields (pushArgsStored link ⟨top, utop, []⟩ args) m fun _ _ => True := by
  induction reads with
  | nil => exact ⟨_, m, rfl, trivial⟩
  | @cons arg string args strings read reads ih =>
      obtain ⟨here, rest⟩ := inPage_cons.mp inside
      have others := fun pg member => apart pg (List.mem_cons_of_mem arg member)
      unfold pushArgsStored
      refine Yields.seq ((ih others rest).both
        (pushArgsStored_ensures sp top utop reads others)) ?_
      rintro ⟨stack, regions⟩ t ⟨-, ⟨-, rfl, -, -, stored⟩ | ⟨out, -⟩⟩
      · have still : arg.Reads link t.mem string := by
          refine read.congr fun pg same page' o bound => ?_
          rw [stored]
          apply storedStrings_outside _ _ rest
          have other := apart pg (same ▸ List.mem_cons_self) page'
          omega
        have fits : InRam link (alignDown (lowered 0 top strings) string.length)
            (string ++ [0]).length := by
          have region := inRam_of_inPage page here
          rw [lowered, Nat.add_zero] at region
          rw [List.length_append, List.length_singleton]
          exact region
        have pushed : ∃ pair u, pushArgStored link
            ⟨lowered 0 top strings, lowered 1 utop strings, ustackOf utop strings⟩ arg t =
            .ok (pair, u) := by
          unfold pushArgStored
          rw [Act.bind_of_ok still.run, Act.bind_of_ok (storeBytes_run fits t)]
          exact ⟨_, _, rfl⟩
        obtain ⟨pair, u, run⟩ := pushed
        exact Yields.step run ⟨_, u, rfl, trivial⟩
      · exact absurd rest out

/-- A block with good lengths and room does not leave its page. -/
theorem GoodLengths.fits {strings : List (List UInt8)} (good : GoodLengths strings)
    (room : blockSize strings ≤ PGSIZE) : StackFits strings := by
  have aligned : (PGSIZE + PGSIZE) % 16 = 0 ∧ PGSIZE + PGSIZE < 2 ^ 63 := by decide
  have regions := (blockRegions_iff aligned.1 (by omega) rfl strings room).mpr good
  exact (blockRegions_inside_iff aligned.1 (by omega) rfl aligned.2 strings).mp regions.inside

/-- The stack takes a page and at most two tables. -/
theorem buildStackStored_yields {m : Mm} {root sz : Nat} {free : List Nat}
    (space : Space link m root free) (some_page : free ≠ []) {args : List Arg}
    {strings : List (List UInt8)}
    (reads : List.Forall₂ (fun arg string => arg.Reads link m.mem string) args strings)
    (apart : ∀ pg, Arg.page pg ∈ args → pg ∉ free) (good : GoodLengths strings)
    (spare : link.spare strings.length = true) (fits : blockSize strings ≤ PGSIZE)
    (aligned : sz % PGSIZE = 0) (low : sz + PGSIZE ≤ MAXVA)
    (unmapped : translate m.mem root sz = none) :
    Yields (buildStackStored link root sz args) m fun _ x => Spent link x free 3 := by
  unfold buildStackStored
  refine Yields.seq (kalloc_yields space.list) ?_
  rintro sp u ⟨same, ⟨rfl, -, -⟩ | ⟨tail, rfl, list⟩⟩
  · exact absurd rfl some_page
  have page := space.list.page sp List.mem_cons_self
  have others : ∀ pg, Arg.page pg ∈ args → IsPage link pg →
      pg + PGSIZE ≤ sp ∨ sp + PGSIZE ≤ pg := by
    intro pg member other
    refine other.apart page ?_
    rintro rfl
    exact apart pg member List.mem_cons_self
  have bounds : (sp + PGSIZE) % 16 = 0 ∧ sp + PGSIZE < 2 ^ 64 := by
    have whole := page.aligned
    have upper := page.upper
    simp only [PGSIZE, PHYSTOP, KERNBASE] at *
    omega
  have regions := (blockRegions_iff bounds.1 bounds.2 rfl strings fits).mpr good
  obtain ⟨pointers, texts⟩ := inPage_cons.mp regions.inside
  rw [← same] at reads
  refine Yields.seq ((pushArgsStored_yields page reads others texts).both
    (pushArgsStored_ensures sp (sp + PGSIZE) (sz + PGSIZE) reads others)) ?_
  rintro ⟨stack, stored⟩ v ⟨-, ⟨-, rfl, -, head, strings_stored⟩ | ⟨out, -⟩⟩
  · have pushed : Yields (pushUstack link ⟨lowered 0 (sp + PGSIZE) strings,
        lowered 1 (sz + PGSIZE) strings, ustackOf (sz + PGSIZE) strings⟩ strings.length) v
        fun _ _ => True := by
      have room := inRam_of_inPage page pointers
      rw [← ustack_length (sz + PGSIZE) strings] at room
      unfold pushUstack
      refine Yields.step (Act.stopIf_of_not _ v (by rw [spare]; decide)) ?_
      exact ⟨_, _, Act.bind_of_ok (storeBytes_run room v), trivial⟩
    rw [reads.length_eq]
    refine Yields.seq (pushed.both
      (pushUstack_ensures (sp + PGSIZE) (sz + PGSIZE) strings strings_stored)) ?_
    rintro argv w ⟨-, -, -, -, head', block⟩
    have rest_same : ∀ q, IsPage link q → q ≠ sp → SameOn m.mem w.mem q := by
      intro q page' different o bound
      rw [block, same]
      apply storedBlock_outside _ _ strings regions.inside
      have other := page'.apart page different
      omega
    obtain ⟨filled, -, fill⟩ := space.fill list same (head'.trans head) rest_same
    obtain ⟨result, x, mapped, -⟩ := mappages_one filled.space aligned low
      ((fill _).trans unmapped) sp PTE_AP_RW
    refine Yields.step mapped ⟨_, x, rfl, fun rest listed => ?_⟩
    have spent := mappages_spends filled.space _ _ _ _ _ _ mapped rest listed
    simp only [PGSIZE, List.length_cons] at *
    omega
  · exact absurd texts out

theorem setTrapframe_yields {tf : Nat} (page : IsPage link tf) (argv argc entry : Nat) (m : Mm) :
    Yields (setTrapframe link tf argv argc entry) m fun _ t => t.freelist = m.freelist := by
  have whole := fun o (bound : o + 8 ≤ PGSIZE) => page.inRam bound
  have first : InRam link tf 8 := whole 0 (by decide)
  unfold setTrapframe
  refine Yields.step (store64_run (whole 0x118 (by decide)) argv m) ?_
  refine Yields.step (store64_run first argc _) ?_
  refine Yields.step (store64_run (whole 8 (by decide)) argv _) ?_
  exact ⟨(), _, store64_run (whole 0x110 (by decide)) entry _, rfl⟩

/-! ## The call -/

/-- The first sector of a program whose segments `kexec` can load. -/
structure Launchable (data : Block) : Prop where
  headers : HeadersFrom data 0 (elfOf data).phnum
  ascending : ∀ i j ph ph', i < j → j < (elfOf data).phnum → IsLoad data i ph →
    IsLoad data j ph' → ph.vaddr < ph'.vaddr
  low : ∀ i ph, i < (elfOf data).phnum → IsLoad data i ph → ph.vaddr + 3 * PGSIZE ≤ TRAPFRAME

/-- Nothing is mapped below the trapframe at first. -/
theorem NewTable.unmapped {m v : Mm} {free rest : List Nat} {root tf a : Nat}
    (table : NewTable link m v free rest root tf) (left : rest ≠ []) (low : a < TRAPFRAME) :
    translate v.mem root a = none := by
  rw [table.maps.resolve_left left a (by simp only [TRAPFRAME, TRAMPOLINE, MAXVA, PGSIZE] at *; omega)]
  unfold kernelEntry
  rw [if_neg, if_neg]
  · simp only [TRAPFRAME, TRAMPOLINE, MAXVA, PGSIZE] at *
    omega
  · simp only [TRAPFRAME, TRAMPOLINE, MAXVA, PGSIZE] at *
    omega

/-- The stack comes behind the last segment. -/
theorem Launchable.last {data : Block} (launchable : Launchable data) {last : Nat}
    (from_ : last = 0 ∨ ∃ k ph, 0 ≤ k ∧ k < 0 + (elfOf data).phnum ∧ IsLoad data k ph ∧
      last = ph.vaddr)
    (ends : ∀ k ph, 0 ≤ k → k < 0 + (elfOf data).phnum → IsLoad data k ph →
      ∃ l ph', k ≤ l ∧ l < 0 + (elfOf data).phnum ∧ IsLoad data l ph' ∧ last = ph'.vaddr) :
    last % PGSIZE = 0 ∧ last + 3 * PGSIZE ≤ TRAPFRAME ∧
      ∀ k ph, k < (elfOf data).phnum → IsLoad data k ph → ph.vaddr ≤ last := by
  have order : ∀ k ph, k < (elfOf data).phnum → IsLoad data k ph → ph.vaddr ≤ last := by
    intro k ph bound load
    obtain ⟨l, ph', later, upper, load', same⟩ := ends k ph (Nat.zero_le k) (by omega) load
    rw [same]
    rcases Nat.lt_or_ge k l with before | here
    · exact (launchable.ascending k l ph ph' before (by omega) load load').le
    · obtain rfl : k = l := by omega
      rw [load.unique load']
  rcases from_ with rfl | ⟨k, ph, lower, upper, load, rfl⟩
  · exact ⟨rfl, by decide, order⟩
  · exact ⟨(launchable.headers.loadable k ph lower upper load).aligned,
      launchable.low k ph (by omega) load, order⟩

theorem modifyProc_yields (cp : Fin NPROC) (change : Proc → Proc) (s : State) :
    Yields (modifyProc cp change) s fun _ t => t.fs = s.fs ∧ t.mm = s.mm :=
  ⟨(), _, rfl, rfl, rfl⟩

/-- With eight pages for the table, and three for each header and the stack,
`kexec` behind its checks returns, and a page is left. -/
theorem kexecLoadStored_yields {cp : Fin NPROC} {s : State} {free : List Nat}
    (list : FreeList link s.mm free) (ready : s.fs.bio.Ready 1) (dp : Fin NINODE) (buf : Fin NBUF)
    {data : Block} (launchable : Launchable data)
    (enough : 8 + 3 * ((elfOf data).phnum + 1) < free.length) {args : List Arg}
    {strings : List (List UInt8)}
    (reads : List.Forall₂ (fun arg string => arg.Reads link s.mm.mem string) args strings)
    (apart : ∀ pg, Arg.page pg ∈ args → pg ∉ free) (good : GoodLengths strings)
    (spare : link.spare strings.length = true) (fits : blockSize strings ≤ PGSIZE) :
    Yields (kexecLoadStored link cp dp buf data args) s fun _ t => t.mm.freelist ≠ 0 := by
  have table : Yields (onMm (procPagetable link)) s fun made u => u.fs = s.fs ∧
      ∃ mid, NewTable link s.mm u.mm free mid made.1 made.2 :=
    Yields.zoom ((procPagetable_yields list (by omega)).mono fun _ _ made => ⟨rfl, made⟩)
  unfold kexecLoadStored
  refine Yields.seq table ?_
  rintro ⟨root, tf⟩ s1 ⟨files, mid, made⟩
  have few := made.few
  have left : mid ≠ [] := by
    rintro rfl
    rw [List.length_nil] at few
    omega
  refine Yields.seq (modifyProc_yields cp _ s1) ?_
  rintro _ s2 ⟨files2, memory2⟩
  rw [files] at files2
  have looked : Yields (Fs.inodeAt dp) s2.fs fun value fs => value = s.fs.inode dp ∧ fs = s.fs :=
    ⟨_, _, rfl, by rw [files2], files2⟩
  refine Yields.seq (onFs_yields looked) ?_
  rintro inode s3 ⟨-, memory3, fs, ⟨rfl, rfl⟩, files3⟩
  rw [← memory2, ← memory3] at made
  have space := made.space
  have loads := loadSegmentsStored_yields (s.fs.inode dp) data (elfOf data).phnum 0 0 space
    (by rw [files3]; exact ready) (by omega) launchable.headers fun k ph _ upper load => by
      have low := launchable.low k ph (by omega) load
      exact made.unmapped left (by simp only [PGSIZE] at low; omega)
  have one : ∀ k ph, 0 ≤ k → k < 0 + (elfOf data).phnum → IsLoad data k ph → ph.sectors ≤ 8 :=
    fun k ph lower upper load => (launchable.headers.loadable k ph lower upper load).sectors
  refine Yields.seq ((loads.both (loadSegmentsStored_ensures _ data _ 0 0 space one)).both
    (loadSegmentsStored_last _ root data _ 0 0 s3)) ?_
  rintro ⟨last, segments⟩ s4 ⟨⟨⟨-, spent⟩, rest, loaded⟩, from_, ends⟩
  have few' := spent rest loaded.grew.space.list.toListed
  have some_page : rest ≠ [] := by
    rintro rfl
    rw [List.length_nil] at few'
    omega
  obtain ⟨aligned, low, above⟩ := launchable.last from_ ends
  have place : PGROUNDUP last = last := by
    simp only [PGROUNDUP, PGSIZE, TRAPFRAME, TRAMPOLINE, MAXVA] at *
    omega
  have unmapped : translate s4.mm.mem root (PGROUNDUP last + PGSIZE) = none := by
    rw [place, loaded.maps some_page _ (by simp only [PGSIZE, TRAPFRAME, TRAMPOLINE, MAXVA] at *; omega)]
    · exact made.unmapped left (by simp only [PGSIZE] at *; omega)
    · intro k ph _ upper load same
      have order := above k ph (by omega) load
      simp only [PGSIZE] at *
      omega
  have kept : ∀ pg, IsPage link pg → pg ∉ free → SameOn s.mm.mem s4.mm.mem pg := by
    intro pg page out
    refine (made.kept pg page fun member => absurd member out).trans ?_
    exact loaded.grew.frame pg page (fun reached => out (made.owned pg reached)) fun member =>
      absurd (made.taken.subset member) out
  have texts : List.Forall₂ (fun arg string => arg.Reads link s4.mm.mem string) args strings := by
    have both := (List.forall₂_and_left (p := fun arg => ∀ pg, arg = .page pg → pg ∉ free) args
      strings).mpr ⟨fun arg member pg same => apart pg (same ▸ member), reads⟩
    refine both.imp fun arg string held => ?_
    obtain ⟨out, read⟩ := held
    exact read.congr fun pg same page => kept pg page (out pg same)
  have out : ∀ pg, Arg.page pg ∈ args → pg ∉ rest := fun pg member there =>
    apart pg member (made.taken.subset (loaded.grew.taken.subset there))
  have stack : Yields (onMm (buildStackStored link root (PGROUNDUP last + PGSIZE) args)) s4
      fun _ t => t.mm.freelist ≠ 0 := by
    refine Yields.zoom (((buildStackStored_yields loaded.grew.space some_page texts out good spare
      fits (by simp only [PGSIZE] at *; omega) ?_ unmapped).both
      (buildStackStored_ensures loaded.grew.space texts out)).mono ?_)
    · simp only [PGSIZE, TRAPFRAME, TRAMPOLINE, MAXVA] at *
      omega
    · rintro stored x ⟨spent', outcome⟩
      obtain ⟨-, tail, built⟩ := outcome.built (outcome.inside.mpr (good.fits fits))
      obtain ⟨w, added, -⟩ := built.added
      have listed := added.grew.space.list
      have enough' := spent' tail listed.toListed
      intro empty
      rw [listed.chain.head_eq_zero.mp empty, List.length_nil] at enough'
      omega
  refine Yields.seq stack ?_
  intro stored s5 more
  refine Yields.seq (modifyProc_yields cp _ s5) ?_
  rintro _ s6 ⟨-, memory6⟩
  have page := (made.frame.resolve_left fun none => left none.1).1
  have frame : Yields (onMm (setTrapframe link tf stored.argv args.length (elfOf data).entry)) s6
      fun _ t => t.mm.freelist = s6.mm.freelist :=
    Yields.zoom (setTrapframe_yields page _ _ _ _)
  refine Yields.seq frame ?_
  intro _ s7 kept7
  refine Yields.seq (modifyProc_yields cp _ s7) ?_
  rintro _ s8 ⟨-, memory8⟩
  have release : Yields (brelse buf) s8.fs.bio fun _ _ => True := ⟨(), _, rfl, trivial⟩
  refine Yields.seq (onBio_yields release) ?_
  rintro _ t ⟨memory, -, -⟩
  have same : t.mm.freelist = s5.mm.freelist := by rw [memory, memory8, kept7, memory6]
  exact ⟨_, t, rfl, fun none => more (same.symm.trans none)⟩

/-! ## A program as a string -/

/-- The first sector of a file. -/
def headOf (bytes : List UInt8) : Block := Block.ofBytes fun i => bytes.getD i 0

/-- A LOAD segment that arrives as the file has it: it begins at a sector
boundary of the file and at the start of a page, and leaves a byte of both the
page and the direct blocks, since the sector behind it is read too. -/
structure SegmentFits (bytes : List UInt8) (i : Nat) (ph : Proghdr) : Prop where
  sector : ph.off % BSIZE = 0
  inside : ph.off + ph.filesz ≤ bytes.length
  direct : ph.off + ph.filesz < NDIRECT * BSIZE
  page : ph.filesz < PGSIZE
  memory : ph.filesz ≤ memszOf (headOf bytes) i ∧ memszOf (headOf bytes) i ≤ PGSIZE
  aligned : ph.vaddr % PGSIZE = 0
  low : ph.vaddr + 3 * PGSIZE ≤ TRAPFRAME

/-- A string that `kexec` can start: an ELF file whose program headers lie in the
first sector, with its LOAD segments in ascending order. -/
structure Program (bytes : List UInt8) : Prop where
  long : BSIZE ≤ bytes.length
  magic : (elfOf (headOf bytes)).magic = ELF_MAGIC
  present : ∀ i, i < (elfOf (headOf bytes)).phnum →
    ∃ ph, proghdrOf (headOf bytes) (elfOf (headOf bytes)).phoff i = some ph
  fits : ∀ i ph, i < (elfOf (headOf bytes)).phnum → IsLoad (headOf bytes) i ph →
    SegmentFits bytes i ph
  ascending : ∀ i j ph ph', i < j → j < (elfOf (headOf bytes)).phnum →
    IsLoad (headOf bytes) i ph → IsLoad (headOf bytes) j ph' → ph.vaddr < ph'.vaddr

/-! ## What the program finds -/

/-- A page that user code may have: it came from the pool, and is neither free,
nor a table, nor the trapframe. -/
structure OwnPage (link : Link) (t : State) (cp : Fin NPROC) (free left : List Nat) (pg : Nat) :
    Prop where
  page : IsPage link pg
  source : pg ∈ free
  out : pg ∉ left
  frame : pg ≠ (t.proc cp).tf
  table : ¬IsTable t.mm.mem (t.proc cp).pagetable pg

/-- The process that a call of `kexec` leaves. Its code finds the LOAD segments
of this file and the arguments, starts with these registers and reaches its own
pages only; `left` are the pages that are still free. -/
structure Launched (link : Link) (t : State) (cp : Fin NPROC) (free left : List Nat)
    (bytes : List UInt8) (strings : List (List UInt8)) : Prop where
  taken : left <:+ free
  space : Space link t.mm (t.proc cp).pagetable left
  frame : IsPage link (t.proc cp).tf ∧ (t.proc cp).tf ∈ free ∧ (t.proc cp).tf ∉ left ∧
    ¬IsTable t.mm.mem (t.proc cp).pagetable (t.proc cp).tf
  kernel : ∀ va, TRAPFRAME ≤ va → va < MAXVA →
    translate t.mm.mem (t.proc cp).pagetable va = kernelEntry link (t.proc cp).tf va
  confined : ∀ va pa, va < MAXVA → userByte t.mm.mem (t.proc cp).pagetable va = some pa →
    va < TRAPFRAME ∧ ∃ pg, OwnPage link t cp free left pg ∧ pg ≤ pa ∧ pa < pg + PGSIZE
  segments : ∀ i ph, i < (elfOf (headOf bytes)).phnum → IsLoad (headOf bytes) i ph →
    UserBytes t cp ph.vaddr (stretch bytes ph.off ph.filesz)
  block : ∃ stored, ArgBlock t cp strings stored
  pointers : (t.proc cp).sz ≤ t.trapframe cp (.x .x1) ∧
    t.trapframe cp (.x .x1) + 8 * (strings.length + 1) ≤ (t.proc cp).sz + PGSIZE ∧
    (t.proc cp).sz + PGSIZE ≤ TRAPFRAME
  x0 : t.trapframe cp (.x .x0) = strings.length
  elr : t.trapframe cp .elr_el1 = (elfOf (headOf bytes)).entry

/-- Outside of the pages that were taken the memory is as before. -/
def TakenOnly (s t : State) (free left : List Nat) : Prop :=
  ∀ a, (∀ pg ∈ free, pg ∉ left → a < pg ∨ pg + PGSIZE ≤ a) → t.mm.mem a = s.mm.mem a

/-- Pages that were not free keep their bytes. -/
theorem TakenOnly.same {s t : State} {free left : List Nat} (only : TakenOnly s t free left)
    (list : FreeList link s.mm free) {pg : Nat} (page : IsPage link pg) (held : pg ∉ free) :
    SameOn s.mm.mem t.mm.mem pg := by
  intro o bound
  refine only _ fun other member _ => ?_
  have apart := page.apart (list.page other member) fun same => held (same ▸ member)
  omega

/-- What the kernel maps into every table is not for user code. -/
theorem kernelEntry_private {tf a pte : Nat} (page : tf % PGSIZE = 0)
    (entry : kernelEntry link tf a = some pte) : TRAPFRAME ≤ a ∧ pte &&& PTE_AP_RW = 0 := by
  have closed : ∀ pa, pa % PGSIZE = 0 →
      pteOf pa (PTE_NORMAL ||| PTE_AP_RW_EL1) &&& PTE_AP_RW = 0 := by
    intro pa aligned
    apply Nat.eq_of_testBit_eq
    intro i
    have only : ∀ j, PTE_AP_RW.testBit j = true → j = 6 := by
      intro j set
      rw [show PTE_AP_RW = 2 ^ 6 from rfl, Nat.testBit_two_pow] at set
      simpa using (of_decide_eq_true set).symm
    rw [Nat.testBit_and, pteOf_bits aligned, Nat.zero_testBit]
    by_cases bit : PTE_AP_RW.testBit i = true
    · obtain rfl := only i bit
      have below : pa.testBit 6 = false := by
        rw [Nat.testBit_eq_decide_div_mod_eq]
        simp only [PGSIZE] at aligned
        simp only [decide_eq_false_iff_not]
        omega
      have mode : (PTE_NORMAL ||| PTE_AP_RW_EL1).testBit 6 = false := by decide
      rw [below, mode]
      rfl
    · simp [bit]
  have whole := link.page
  unfold kernelEntry at entry
  split at entry
  · rename_i top
    cases entry
    refine ⟨?_, closed _ ?_⟩
    · simp only [TRAPFRAME, TRAMPOLINE, MAXVA, PGSIZE] at *
      omega
    · simp only [PGSIZE] at *
      omega
  · split at entry
    · rename_i here
      cases entry
      refine ⟨?_, closed tf page⟩
      simp only [TRAPFRAME, TRAMPOLINE, MAXVA, PGSIZE] at *
      omega
    · cases entry

theorem userByte_pte {mem : Nat → UInt8} {root va pa : Nat} (seen : userByte mem root va = some pa) :
    ∃ pte, translate mem root va = some pte ∧ pte &&& PTE_AP_RW ≠ 0 := by
  obtain ⟨pte, there, kept⟩ := Option.bind_eq_some_iff.mp seen
  split at kept
  · rename_i open_
    exact ⟨pte, there, open_.2⟩
  · cases kept

section

variable {cp : Fin NPROC} {dp : Fin NINODE} {data : Block} {args : List Arg} {s t : State}
  {trace : ExecTrace} {strings : List (List UInt8)} {free mid rest last : List Nat}

/-- The table is in order when the registers have been stored. -/
theorem ExecLoaded.space_final (loaded : ExecLoaded link s dp data trace free mid rest)
    (run : trace.Of link cp dp data args s t)
    (grew : Grew link trace.loaded.mm trace.stacked trace.root rest last)
    (only : FrameOnly link trace t mid last) :
    Space link t.mm trace.root last ∧ ¬IsTable t.mm.mem trace.root trace.tf ∧
      ∀ pg, IsTable t.mm.mem trace.root pg → IsTable trace.stacked.mem trace.root pg := by
  have before : mid ≠ [] := by
    rintro rfl
    obtain rfl : rest = [] := List.suffix_nil.mp loaded.segments.grew.taken
    exact only.some_page (List.suffix_nil.mp grew.taken)
  obtain ⟨page, -, out, apart⟩ := loaded.table.frame.resolve_left fun none => before none.1
  rw [← run.memory] at apart
  obtain ⟨-, out', apart'⟩ := loaded.segments.grew.other page apart out
  obtain ⟨-, out'', apart''⟩ := grew.other page apart' out'
  have tables : ∀ pg, IsTable trace.stacked.mem trace.root pg →
      SameOn trace.stacked.mem t.mm.mem pg := by
    intro pg table
    refine only.others pg (grew.space.page pg table) ?_
    rintro rfl
    exact apart'' table
  have back : ∀ pg, IsTable t.mm.mem trace.root pg → IsTable trace.stacked.mem trace.root pg := by
    rintro pg ⟨q, short, there⟩
    rw [tables_congr tables q short] at there
    exact ⟨q, short, there⟩
  obtain ⟨head, -⟩ := setTrapframe_frame _ _ _ _ _ _ _ run.frame
  refine ⟨grew.space.congr head (fun pg member => ?_) tables, fun table => apart'' (back _ table),
    back⟩
  refine only.others pg (grew.space.list.page pg member) ?_
  rintro rfl
  exact out'' member

/-- User code reaches the pages of its segments and its stack. -/
theorem ExecLoaded.confined (loaded : ExecLoaded link s dp data trace free mid rest)
    (run : trace.Of link cp dp data args s t)
    (built : StackBuilt link trace.loaded.mm trace.stacked trace.root trace.sz strings rest last
      trace.stored.toStackStores)
    (only : FrameOnly link trace t mid last) (launchable : Launchable data)
    (high : trace.sz + PGSIZE ≤ TRAPFRAME) {va pa : Nat} (low : va < MAXVA)
    (seen : userByte t.mm.mem trace.root va = some pa) :
    va < TRAPFRAME ∧ ∃ pg, OwnPage link t cp free last pg ∧ pg ≤ pa ∧ pa < pg + PGSIZE := by
  obtain ⟨w, added, -⟩ := built.added
  obtain ⟨-, -, back⟩ := loaded.space_final run added.grew only
  obtain ⟨root, -, frame⟩ := run.proc
  have some_page : rest ≠ [] := by
    rintro rfl
    exact only.some_page (List.suffix_nil.mp added.grew.taken)
  have before : mid ≠ [] := by
    rintro rfl
    exact some_page (List.suffix_nil.mp loaded.segments.grew.taken)
  have maps := (only.maps va).trans (added.maps.resolve_left only.some_page va low)
  have own : ∀ pg, IsPage link pg → pg ∈ mid → pg ∉ last → ¬IsTable trace.stacked.mem trace.root pg →
      translate t.mm.mem trace.root va = some (pteOf pg PTE_AP_RW) →
      ∃ pg, OwnPage link t cp free last pg ∧ pg ≤ pa ∧ pa < pg + PGSIZE := by
    intro pg page source out apart there
    have place := userByte_mapped page there
    rw [seen, Option.some_inj] at place
    have inside : va % PGSIZE < PGSIZE := Nat.mod_lt _ (by decide)
    refine ⟨pg, ⟨page, loaded.table.taken.subset source, out, ?_, ?_⟩, by omega, by omega⟩
    · rw [frame]
      rintro rfl
      exact only.frame source
    · rw [root]
      exact fun table => apart (back pg table)
  by_cases stack : va / PGSIZE = trace.sz / PGSIZE
  · rw [if_pos stack] at maps
    have whole := built.low.1
    refine ⟨by simp only [PGSIZE] at *; omega, own _ added.page ?_ added.out added.apart maps⟩
    exact loaded.segments.grew.taken.subset added.source
  rw [if_neg stack] at maps
  by_cases segment : ∃ k ph, k < (elfOf data).phnum ∧ IsLoad data k ph ∧
      va / PGSIZE = ph.vaddr / PGSIZE
  · obtain ⟨k, ph, bound, load, here⟩ := segment
    have record := loadSegmentsStored_listed _ _ _ _ _ _ _ _ _ run.segments
    obtain ⟨seg, member, rfl⟩ := record.listed k ph (Nat.zero_le k) (by omega) load
    have there := loaded.segments.there some_page launchable.headers.distinct seg member ph load
    obtain ⟨-, out, apart⟩ := added.grew.other there.page there.apart there.out
    rw [there.maps va low here] at maps
    have beyond := launchable.low _ ph bound load
    have whole := there.low.1
    exact ⟨by simp only [PGSIZE] at *; omega, own _ there.page there.source out apart maps⟩
  · -- Nothing but the kernel's own entries is left.
    rw [loaded.segments.maps some_page va low fun k ph _ upper load here =>
      segment ⟨k, ph, by omega, load, here⟩, run.memory,
      loaded.table.maps.resolve_left before va low] at maps
    obtain ⟨pte, there, user⟩ := userByte_pte seen
    rw [maps] at there
    exact absurd (kernelEntry_private only.source.aligned there).2 user

end

/-- A file whose LOAD segments begin at sector boundaries. -/
structure FileSegments (disk : Nat → Block) (addrs : Addrs) (data : Block) (bytes : List UInt8) :
    Prop where
  allowed : SegmentsAllowed data
  sector : ∀ i ph, i < (elfOf data).phnum → IsLoad data i ph → ph.off % 512 = 0 ∧
    ph.off + ph.filesz ≤ bytes.length
  reads : ∀ x, x < bytes.length → storedByte disk addrs x = bytes.getD x 0

theorem kexecLoadStored_launched {cp : Fin NPROC} {s : State} {free : List Nat}
    (list : FreeList link s.mm free) (ready : NoFaults s) (dp : Fin NINODE) (buf : Fin NBUF)
    {bytes : List UInt8} (launchable : Launchable (headOf bytes))
    (file : FileSegments s.fs.disk (s.fs.inode dp).addrs (headOf bytes) bytes) {args : List Arg}
    {strings : List (List UInt8)}
    (reads : List.Forall₂ (fun arg string => arg.Reads link s.mm.mem string) args strings)
    (apart : ∀ pg, Arg.page pg ∈ args → pg ∉ free) (good : GoodLengths strings)
    (fits : blockSize strings ≤ PGSIZE) :
    Ensures (kexecLoadStored link cp dp buf (headOf bytes) args) s fun _ t =>
      t.mm.freelist ≠ 0 → ∃ left, Launched link t cp free left bytes strings ∧
        TakenOnly s t free left := by
  have one : OnePage (headOf bytes) := fun i ph bound load =>
    (launchable.headers.loadable i ph (Nat.zero_le i) (by omega) load).sectors
  intro stored t returned more
  obtain ⟨trace, run, rfl⟩ := kexecLoadStored_trace dp buf (headOf bytes) args s stored t returned
  have block := (kexecLoadStored_block list one reads apart fits _ t returned more).mpr
    ⟨buildStackStored_spare _ _ _ _ _ _ run.stack, good⟩
  obtain ⟨mid, rest, loaded⟩ := run.exec_loaded list one
  have outcome := loaded.outcome run reads apart
  obtain ⟨-, last, built⟩ := outcome.built (outcome.inside.mpr (good.fits fits))
  obtain ⟨w, added, -⟩ := built.added
  have only := loaded.frame_only run added.grew more
  have record := loadSegmentsStored_listed _ _ _ _ _ _ _ _ _ run.segments
  obtain ⟨root, size, frame⟩ := run.proc
  have count := reads.length_eq
  have small : args.length < 2 ^ 64 := by
    unfold blockSize up16 at fits
    simp only [PGSIZE] at fits
    omega
  have filled := setTrapframe_fills trace.tf (built.argv ▸ alignDown_lt _ _) small
    (leNat_lt (headOf bytes).byte 24 8) _ _ _ run.frame
  obtain ⟨space, held, -⟩ := loaded.space_final run added.grew only
  obtain ⟨from_, ends⟩ := loadSegmentsStored_last _ _ _ _ _ _ _ _ _ run.segments
  obtain ⟨whole, low, above⟩ := launchable.last from_ ends
  have place : trace.sz = trace.last + PGSIZE := by
    unfold ExecTrace.sz PGROUNDUP
    simp only [PGSIZE, TRAPFRAME, TRAMPOLINE, MAXVA] at *
    omega
  have high : trace.sz + PGSIZE ≤ TRAPFRAME := by
    simp only [PGSIZE] at *
    omega
  have before : mid ≠ [] := by
    rintro rfl
    obtain rfl : rest = [] := List.suffix_nil.mp loaded.segments.grew.taken
    exact only.some_page (List.suffix_nil.mp added.grew.taken)
  have some_page : rest ≠ [] := by
    rintro rfl
    exact only.some_page (List.suffix_nil.mp added.grew.taken)
  refine ⟨last, ?_, fun a => loaded.outside run added.grew only⟩
  constructor
  case taken => exact (added.grew.taken.trans loaded.segments.grew.taken).trans loaded.table.taken
  case space => exact root ▸ space
  case frame =>
    obtain ⟨page, source, out, -⟩ := loaded.table.frame.resolve_left fun none => before none.1
    rw [frame, root]
    refine ⟨page, source, fun member => out ?_, held⟩
    exact loaded.segments.grew.taken.subset (added.grew.taken.subset member)
  case kernel =>
    intro va lower upper
    rw [root, frame, only.maps, added.maps.resolve_left only.some_page va upper, if_neg,
      loaded.segments.maps some_page va upper, run.memory]
    · exact loaded.table.maps.resolve_left before va upper
    · intro k ph _ bound load here
      have beyond := launchable.low k ph (by omega) load
      simp only [PGSIZE] at *
      omega
    · intro here
      have aligned := built.low.1
      simp only [PGSIZE] at *
      omega
  case confined =>
    intro va pa upper seen
    rw [root] at seen
    exact loaded.confined run built only launchable high upper seen
  case segments =>
    intro i ph bound load
    obtain ⟨seg, member, rfl⟩ := record.listed i ph (Nat.zero_le i) (by omega) load
    have final := loaded.segment_final run built only ready file.allowed member load
    obtain ⟨sector, stored⟩ := file.sector _ ph bound load
    obtain ⟨few, large⟩ := file.allowed.sizes _ ph bound load
    obtain ⟨-, all⟩ := Proghdr.sectors_stored (file.allowed.stored _ ph bound load)
    intro k inside
    rw [stretch, List.length_take, List.length_drop] at inside
    have short : k < ph.filesz := by omega
    refine ⟨seg.page + k, ?_, ?_⟩
    · rw [root]
      exact final.mapped k (by omega)
    · rw [final.copied k (by omega) (by omega), sector_aligned sector, file.reads _ (by omega)]
      unfold stretch
      rw [List.getD_eq_getElem?_getD, List.getD_eq_getElem?_getD, List.getElem?_take_of_lt short,
        List.getElem?_drop]
  case block => exact ⟨_, block⟩
  case pointers =>
    have x1 : t.trapframe cp (.x .x1) = trace.stored.argv := by
      unfold State.trapframe
      rw [frame]
      exact filled.x1
    have aligned : (trace.sz + PGSIZE) % 16 = 0 ∧ trace.sz + PGSIZE < 2 ^ 64 := by
      have page := built.low.1
      simp only [TRAPFRAME, TRAMPOLINE, MAXVA, PGSIZE] at *
      omega
    have bounds := ustackAt_bounds aligned.1 aligned.2 strings good fits (Nat.le_add_left _ _)
    have argv := argv_eq aligned.1 aligned.2 aligned.1 aligned.2 strings good fits
      (Nat.le_add_left _ _) (Nat.le_add_left _ _)
    rw [x1, size, built.argv]
    omega
  case x0 =>
    unfold State.trapframe
    rw [frame, ← count]
    exact filled.x0
  case elr =>
    unfold State.trapframe
    rw [frame]
    exact filled.elr

/-- The sectors of a segment of the direct blocks. -/
theorem Proghdr.sectors_direct {ph : Proghdr} (direct : ph.off + ph.filesz < NDIRECT * BSIZE) :
    ph.firstSector = (ph.off / BSIZE : Nat) ∧
      ph.off / BSIZE + ph.sectors = (ph.off + ph.filesz) / BSIZE + 1 := by
  have short : ∀ n < 2 ^ 31, asInt32 n = n := by
    intro n bound
    unfold asInt32 asInt
    rw [Nat.mod_eq_of_lt (by omega), if_pos bound]
  simp only [NDIRECT, BSIZE] at direct
  have first : ph.firstSector = (ph.off / 512 : Nat) := short _ (by omega)
  have last : ph.lastSector = ((ph.off + ph.filesz) / 512 : Nat) := by
    unfold Proghdr.lastSector
    rw [Nat.mod_eq_of_lt (by omega)]
    exact short _ (by omega)
  refine ⟨first, ?_⟩
  unfold Proghdr.sectors
  rw [first, last]
  simp only [BSIZE]
  omega

theorem SegmentFits.loadable {bytes : List UInt8} {i : Nat} {ph : Proghdr}
    (segment : SegmentFits bytes i ph) : Loadable ph := by
  obtain ⟨sector, -, direct, page, -, aligned, low⟩ := segment
  obtain ⟨first, count⟩ := Proghdr.sectors_direct direct
  simp only [NDIRECT, BSIZE, PGSIZE] at *
  constructor
  case first => omega
  case direct =>
    rw [first]
    simp only [NDIRECT]
    omega
  case sectors => omega
  case aligned => exact aligned
  case low =>
    simp only [TRAPFRAME, TRAMPOLINE, MAXVA, PGSIZE] at *
    omega

section

variable {bytes : List UInt8}

theorem Program.launchable (program : Program bytes) : Launchable (headOf bytes) := by
  have order : ∀ k l ph ph', k < l → l < (elfOf (headOf bytes)).phnum →
      IsLoad (headOf bytes) k ph → IsLoad (headOf bytes) l ph' →
        ph.vaddr / PGSIZE ≠ ph'.vaddr / PGSIZE := by
    intro k l ph ph' before upper load load'
    have below := program.ascending k l ph ph' before upper load load'
    have whole := (program.fits k ph (by omega) load).aligned
    have whole' := (program.fits l ph' upper load').aligned
    simp only [PGSIZE] at *
    omega
  constructor
  case headers =>
    exact ⟨fun k _ upper => program.present k (by omega),
      fun k ph _ upper load => (program.fits k ph (by omega) load).loadable,
      fun k l ph ph' _ before upper => order k l ph ph' before (by omega)⟩
  case ascending => exact program.ascending
  case low => exact fun i ph bound load => (program.fits i ph bound load).low

/-- A file that holds a program. -/
theorem Program.fileSegments (program : Program bytes) {disk : Nat → Block} {ip : Inode}
    (file : FileShown disk ip bytes) : FileSegments disk ip.addrs (headOf bytes) bytes := by
  constructor
  case allowed =>
    refine ⟨fun i ph bound load => (program.fits i ph bound load).aligned, program.ascending,
      fun i ph bound load => (program.fits i ph bound load).memory, fun i ph bound load => ?_⟩
    have direct := (program.fits i ph bound load).direct
    simp only [MAXFILE, NINDIRECT, NDIRECT, BSIZE] at *
    omega
  case sector =>
    intro i ph bound load
    obtain ⟨sector, inside, -⟩ := program.fits i ph bound load
    exact ⟨sector, inside⟩
  case reads =>
    intro x inside
    have small := file.small
    rw [← file.reads x inside]
    unfold storedByte fileByte
    rw [blockOf_direct (by simp only [NDIRECT, BSIZE] at *; omega)]

/-- The first sector of a file with a program. -/
theorem Program.head (program : Program bytes) {disk : Nat → Block} {ip : Inode}
    (file : FileShown disk ip bytes) :
    disk (ip.addrs (addrSlot 0)).toNat = headOf bytes := by
  refine Block.ext_byte fun i bound => ?_
  have long := program.long
  have byte := file.reads i (by omega)
  unfold fileByte at byte
  simp only [BSIZE] at bound
  rw [Nat.div_eq_of_lt bound, Nat.mod_eq_of_lt bound] at byte
  rw [byte]
  simp [headOf, Block.ofBytes, Block.byte, bound]

/-- The file is found, and its first sector stays in a buffer. -/
theorem kexecOpen_yields {tree : List UInt8 → Option UInt32} {s : State} {a : Volume}
    (shown : VolumeShown tree s.fs a) (ready : s.fs.bio.Ready 2) {path : List UInt8}
    (behind : List UInt8) (noNul : 0 ∉ path) (few : a.opened.card < NINODE) {n : UInt32}
    (named : tree path = some n) (there : a.bytes n = some bytes) (program : Program bytes) :
    Yields (kexecOpen (path ++ 0 :: behind)) s fun opened t => opened.2.2 = headOf bytes ∧
      t.mm = s.mm ∧ t.fs.bio.Ready 1 ∧ FileShown t.fs.disk (t.fs.inode opened.1) bytes := by
  unfold kexecOpen
  refine Yields.seq (onFs_yields (shown.namei path behind noNul few)) ?_
  rintro result t ⟨-, memory, fs, ⟨resolved, -⟩, same⟩
  rw [named] at resolved
  obtain ⟨dp, rfl, holding⟩ := resolved
  simp only
  have table : t.fs.inode dp = fs.inode dp := by rw [same]
  have bio : Settled s.fs.bio t.fs.bio s.fs.disk := by
    rw [same]
    exact holding.bio
  have file : FileShown t.fs.disk (t.fs.inode dp) bytes := by
    have disk : t.fs.disk = s.fs.disk := bio.disk
    rw [disk, table]
    refine (shown.file n bytes there).2.of_dinode ?_
    rw [holding.slot]
    rfl
  refine Yields.seq (onFs_yields (p := fun value v => value = t.fs.inode dp ∧ v = t.fs)
    ⟨_, _, rfl, rfl, rfl⟩) ?_
  rintro _ u ⟨-, memory', v, ⟨rfl, rfl⟩, same'⟩
  have bio' : u.fs.bio = t.fs.bio := by rw [same']
  have table' : u.fs.inode = t.fs.inode := by rw [same']
  rw [← bio'] at bio
  have free := bio.ready ready
  refine Yields.seq (onBio_yields (bread_yields (t.fs.inode dp).dev
    ((t.fs.inode dp).addrs (addrSlot 0)).toNat ⟨free.reads, by have := free.free; omega⟩)) ?_
  rintro buf w ⟨memory'', table'', held⟩
  refine Yields.seq (onBio_yields (bufData_yields held)) ?_
  rintro data x ⟨memory3, table3, rfl, bio3⟩
  have head : u.fs.bio.sd.block ((t.fs.inode dp).addrs (addrSlot 0)).toNat = headOf bytes := by
    rw [bio']
    exact program.head file
  rw [head]
  refine Yields.step (Act.stopIf_of_not _ x (not_not.mpr program.magic)) ?_
  refine ⟨_, x, rfl, rfl, ?_, ⟨?_, ?_⟩, ?_⟩
  · rw [memory3, memory'', memory', memory]
  · rw [bio3, held.sd]
    exact free.reads
  · have one := freeCount_hold held.free held.busy
    have two := free.free
    rw [bio3]
    omega
  · have disk : x.fs.disk = t.fs.disk := by
      unfold Fs.State.disk
      rw [bio3, held.sd, bio']
    rw [disk, table3, table'', table']
    exact file

/-- A program that the volume shows is started. -/
theorem kexec_launched {tree : List UInt8 → Option UInt32} {cp : Fin NPROC} {s : State}
    {a : Volume} (shown : VolumeShown tree s.fs a) (ready : s.fs.bio.Ready 2) {path : List UInt8}
    (behind : List UInt8) (noNul : 0 ∉ path) (few : a.opened.card < NINODE) {n : UInt32}
    (named : tree path = some n) (there : a.bytes n = some bytes) (program : Program bytes)
    {free : List Nat} (list : FreeList link s.mm free)
    (enough : 8 + 3 * ((elfOf (headOf bytes)).phnum + 1) < free.length) {args : List Arg}
    {strings : List (List UInt8)}
    (reads : List.Forall₂ (fun arg string => arg.Reads link s.mm.mem string) args strings)
    (apart : ∀ pg, Arg.page pg ∈ args → pg ∉ free) (good : GoodLengths strings)
    (spare : link.spare strings.length = true) (fits : blockSize strings ≤ PGSIZE) :
    Yields (kexec link cp (path ++ 0 :: behind) args) s fun r t => r = 0 ∧
      ∃ left, Launched link t cp free left bytes strings ∧ TakenOnly s t free left := by
  have stored : Yields (kexecStored link cp (path ++ 0 :: behind) args) s fun _ t =>
      ∃ left, Launched link t cp free left bytes strings ∧ TakenOnly s t free left := by
    unfold kexecStored
    refine Yields.seq
      (kexecOpen_yields shown ready behind noNul few named there program) ?_
    rintro ⟨dp, buf, data⟩ u ⟨rfl, memory, one, file⟩
    rw [← memory] at list reads
    refine ((kexecLoadStored_yields list one dp buf program.launchable enough reads apart good
      spare fits).both (kexecLoadStored_launched list one.reads dp buf program.launchable
        (program.fileSegments file) reads apart good fits)).mono ?_
    rintro _ t ⟨more, launched⟩
    obtain ⟨left, done, only⟩ := launched more
    unfold TakenOnly at only
    rw [memory] at only
    exact ⟨left, done, only⟩
  rw [kexec_stored]
  exact Yields.seq stored fun _ t done => ⟨0, t, rfl, rfl, done⟩

end

end

end Gcgos.Kernel
