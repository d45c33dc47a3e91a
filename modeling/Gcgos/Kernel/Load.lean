import Gcgos.Kernel.Stores
import Gcgos.Kernel.Passing
import Gcgos.Kernel.Mapping
import Gcgos.BlockMap

/-!
# `kexec` step by step

A call of `kexec` that returns has made a table, filled and mapped a page for
every LOAD segment, laid out the stack, and stored to the new trapframe. As
long as every segment fits its page, all of it goes to pages of the free list,
and what was elsewhere in memory is as before.
-/

set_option autoImplicit false

namespace Gcgos.Kernel

open Act ByteMap Fs Bio Radix

/-- What a call of `kexecLoad` passes through: the new table and trapframe, the
memory after they were made, the states around the loop over the headers, the
memory with the stack in it, and what was stored. -/
structure ExecTrace where
  root : Nat
  tf : Nat
  tabled : Mm
  begun : State
  last : Nat
  loaded : State
  stacked : Mm
  stored : ExecStores

/-- The address of the stack page. -/
def ExecTrace.sz (trace : ExecTrace) : Nat := PGROUNDUP trace.last + PGSIZE

/-- The steps of a call that takes `s` to `t`. -/
structure ExecTrace.Of (link : Link) (cp : Fin NPROC) (dp : Fin NINODE) (data : Block)
    (args : List Arg) (s t : State) (trace : ExecTrace) : Prop where
  table : procPagetable link s.mm = .ok ((trace.root, trace.tf), trace.tabled)
  memory : trace.begun.mm = trace.tabled
  files : trace.begun.fs = { s.fs with wakeups := [] }
  segments : loadSegmentsStored link (s.fs.inode dp) trace.root data (elfOf data).phnum 0 0
    trace.begun = .ok ((trace.last, trace.stored.segments), trace.loaded)
  stack : buildStackStored link trace.root trace.sz args trace.loaded.mm =
    .ok (trace.stored.toStackStores, trace.stacked)
  frame : setTrapframe link trace.tf trace.stored.argv args.length (elfOf data).entry trace.stacked =
    .ok ((), t.mm)
  proc : (t.proc cp).pagetable = trace.root ∧ (t.proc cp).sz = trace.sz ∧
    (t.proc cp).tf = trace.tf

section

variable {link : Link} {cp : Fin NPROC}

/-- What a woken process keeps. -/
theorem Proc.Stirred.space {before after : Proc} (stirred : before.Stirred after) :
    after.pagetable = before.pagetable ∧ after.sz = before.sz ∧ after.tf = before.tf := by
  rcases stirred with rfl | ⟨_, rfl⟩ <;> exact ⟨rfl, rfl, rfl⟩

/-- A call that returns has passed through these steps. -/
theorem kexecLoadStored_trace (dp : Fin NINODE) (buf : Fin NBUF) (data : Block) (args : List Arg)
    (s : State) :
    Ensures (kexecLoadStored link cp dp buf data args) s fun stored t =>
      ∃ trace : ExecTrace, trace.Of link cp dp data args s t ∧ trace.stored = stored := by
  intro stored t returned
  unfold kexecLoadStored at returned
  obtain ⟨⟨root, tf⟩, s1, made, returned⟩ := Act.bind_eq_ok.mp returned
  obtain ⟨tabled, table, rfl⟩ := Act.zoom_eq_ok.mp made
  obtain ⟨_, s2, framed, returned⟩ := Act.bind_eq_ok.mp returned
  obtain ⟨sameFs, sameMm, newFrame⟩ : s2.fs = s.fs ∧ s2.mm = tabled ∧ (s2.proc cp).tf = tf := by
    cases framed
    exact ⟨rfl, rfl, by simp [State.setProc]⟩
  obtain ⟨inode, s3, looked, returned⟩ := Act.bind_eq_ok.mp returned
  obtain ⟨calm, memory, fs, ⟨rfl, rfl⟩, files⟩ :=
    onFs_ensures (p := fun value fs => value = s2.fs.inode dp ∧ fs = s2.fs)
      (Ensures.reads ⟨rfl, rfl⟩) inode s3 looked
  rw [sameFs] at files returned
  rw [sameMm] at memory
  have frameAt : (s3.proc cp).tf = tf := by
    rw [(calm.proc cp).space.2.2, newFrame]
  obtain ⟨⟨last, pages⟩, s4, segments, returned⟩ := Act.bind_eq_ok.mp returned
  have frameAt' : (s4.proc cp).tf = tf := by
    have kept : Ensures (loadSegments link (s.fs.inode dp) root data (elfOf data).phnum 0 0) s3
        fun _ => FrameAt cp tf := loadSegments_frameAt _ _ _ cp tf _ _ _ s3 frameAt
    rw [loadSegments_stored] at kept
    exact kept.of_map _ s4 segments
  obtain ⟨laid, s5, built, returned⟩ := Act.bind_eq_ok.mp returned
  obtain ⟨stacked, stack, rfl⟩ := Act.zoom_eq_ok.mp built
  obtain ⟨_, s6, placed, returned⟩ := Act.bind_eq_ok.mp returned
  cases placed
  obtain ⟨_, s7, registers, returned⟩ := Act.bind_eq_ok.mp returned
  obtain ⟨filled, frame, rfl⟩ := Act.zoom_eq_ok.mp registers
  obtain ⟨_, s8, ready, returned⟩ := Act.bind_eq_ok.mp returned
  cases ready
  obtain ⟨_, s9, released, returned⟩ := Act.bind_eq_ok.mp returned
  cases returned
  obtain ⟨calm', memory', -⟩ :=
    onFs_ensures (p := fun _ _ => True) (fun _ _ _ => trivial) _ _ released
  refine ⟨⟨root, tf, tabled, s3, last, s4, stacked, ⟨laid, pages⟩⟩,
    ⟨table, memory, files, segments, stack, ?_, ?_⟩, rfl⟩
  · rw [memory']
    exact frame
  · rw [(calm'.proc cp).space.1, (calm'.proc cp).space.2.1, (calm'.proc cp).space.2.2]
    simp [State.setProc, frameAt', ExecTrace.sz]

end

/-! ## One segment -/

/-- Byte `x` of a file, by its block numbers. -/
def storedByte (disk : Nat → Block) (addrs : Addrs) (x : Nat) : UInt8 :=
  (disk (blockOf disk addrs (x / BSIZE))).byte (x % BSIZE)

/-- A buffer that has been released is released once more. -/
theorem brelse_again {b c : Bio} {i : Fin NBUF} {disk : Nat → Block} (free : b.busy i = false)
    (settled : Settled b c disk) : Yields (brelse i) c fun _ d => Settled b d disk := by
  refine ⟨(), _, rfl, ?_, settled.disk, settled.faults⟩
  simp [settled.busy, ← free]

/-- No read of the card fails from here on. -/
def NoFaults (s : State) : Prop := s.fs.bio.sd.faults = []

theorem kexecSector_ensures {b : Bio} (reads : b.sd.faults = []) (dp : Inode) (i : Nat) :
    Ensures (kexecSector dp i) b fun data c =>
      data = b.sd.block (blockOf b.sd.block dp.addrs i) ∧ Settled b c b.sd.block := by
  unfold kexecSector kexecBlock
  by_cases direct : i < NDIRECT
  · rw [if_pos direct]
    refine Ensures.step rfl ?_
    simp only
    refine Ensures.seq (bread_ensures reads _ _) ?_
    intro sec c held
    refine Ensures.seq (bufData_yields held).ensures ?_
    rintro data _ ⟨rfl, rfl⟩
    refine Ensures.seq (brelse_yields held.free held.busy (by rw [held.sd])).ensures ?_
    intro _ d settled
    rw [held.sd] at settled
    refine Ensures.seq (brelse_again held.free settled).ensures ?_
    intro _ e settled
    refine Ensures.pure ⟨?_, settled⟩
    rw [blockOf_direct direct]
  · rw [if_neg direct]
    simp only [Act.bind_assoc]
    refine Ensures.seq (bread_ensures reads _ _) ?_
    intro table c held
    refine Ensures.seq (bufData_yields held).ensures ?_
    rintro entries _ ⟨rfl, rfl⟩
    refine Ensures.guard fun _ => ?_
    refine Ensures.guard fun _ => ?_
    refine Ensures.step rfl ?_
    simp only [Option.getD_some]
    refine Ensures.seq (bread_ensures (by rw [held.sd]; exact reads) _ _) ?_
    intro sec d taken
    refine Ensures.seq (bufData_yields taken).ensures ?_
    rintro data _ ⟨rfl, rfl⟩
    have other : sec ≠ table := by
      rintro rfl
      have free := taken.free
      rw [held.busy, Function.update_self] at free
      cases free
    have free : b.busy sec = false := by
      have free := taken.free
      rw [held.busy, Function.update_of_ne other] at free
      exact free
    refine Ensures.step rfl ?_
    refine Ensures.seq (brelse_yields (s := b) free ?_ ?_).ensures ?_
    · rw [Bio.setBuf_busy, taken.busy, held.busy, Function.update_comm other,
        Function.update_idem, ← held.free, Function.update_eq_self]
    · rw [Bio.setBuf_sd, taken.sd, held.sd]
    · intro _ e settled
      rw [Bio.setBuf_sd, taken.sd, held.sd] at settled
      refine Ensures.pure ⟨?_, settled⟩
      rw [blockOf_indirect (Nat.not_lt.mp direct), held.sd]

/-- One sector goes to memory. -/
def loadSector (link : Link) (dp : Inode) (pa i : Nat) : Act Fault State Unit := do
  let data ← onBio (kexecSector dp i)
  onMm (storeBytes link pa (getBytes data.byte 0 512))

section

variable {link : Link}

theorem loadSectors_cons (dp : Inode) (pa count i j : Nat) :
    loadSectors link dp pa (count + 1) i j = (do
      loadSector link dp (pa + 512 * j) i
      loadSectors link dp pa count (i + 1) (j + 1)) := by
  rw [loadSectors_succ, loadSector, Act.bind_assoc]

theorem loadSector_ensures (dp : Inode) (pa i : Nat) (s : State) :
    Ensures (loadSector link dp pa i) s fun _ t =>
      t.mm.freelist = s.mm.freelist ∧
      (∀ a, a < pa ∨ pa + 512 ≤ a → t.mm.mem a = s.mm.mem a) ∧
      (NoFaults s → t.fs.disk = s.fs.disk ∧ NoFaults t ∧
        ∀ x < 512, t.mm.mem (pa + x) = storedByte s.fs.disk dp.addrs (512 * i + x)) := by
  unfold loadSector
  refine Ensures.seq (m := fun data t => t.mm = s.mm ∧ (NoFaults s →
    t.fs.disk = s.fs.disk ∧ NoFaults t ∧
      data = s.fs.disk (blockOf s.fs.disk dp.addrs i))) ?_ ?_
  · intro data t returned
    refine ⟨onFs_memory _ s.mm s rfl data t returned, fun reads => ?_⟩
    obtain ⟨-, -, fs, ⟨rfl, settled⟩, files⟩ := onFs_ensures
      (p := fun data fs => data = s.fs.disk (blockOf s.fs.disk dp.addrs i) ∧
        Settled s.fs.bio fs.bio s.fs.disk)
      (Ensures.zoom (kexecSector_ensures reads dp i)) data t returned
    rw [files]
    refine ⟨settled.disk, ?_, rfl⟩
    unfold NoFaults
    rw [files]
    exact settled.faults.trans reads
  · rintro data t ⟨memory, read⟩
    apply Ensures.zoom
    refine (storeBytes_ensures pa _ t.mm).mono ?_
    rintro _ m ⟨-, rfl⟩
    have count : (getBytes data.byte 0 512).length = 512 := ByteMap.getBytes_length _ _ _
    refine ⟨by rw [← memory]; rfl, ?_, ?_⟩
    · intro a outside
      rw [← memory]
      exact putBytes_outside (by rw [count]; exact outside)
    · intro reads
      obtain ⟨disk, still, rfl⟩ := read reads
      refine ⟨disk, still, fun x bound => ?_⟩
      change putBytes t.mm.mem pa _ (pa + x) = _
      rw [putBytes_inside (by omega) (by rw [count]; omega), Nat.add_sub_cancel_left,
        getBytes_getD _ _ _ _ bound, Nat.zero_add]
      unfold storedByte
      rw [show (512 * i + x) / BSIZE = i by simp only [BSIZE]; omega,
        show (512 * i + x) % BSIZE = x by simp only [BSIZE]; omega]

/-- The sectors of a segment, one behind the other. -/
theorem loadSectors_ensures (dp : Inode) (pa count i j : Nat) (s : State) :
    Ensures (loadSectors link dp pa count i j) s fun _ t =>
      t.mm.freelist = s.mm.freelist ∧
      (∀ a, a < pa + 512 * j ∨ pa + 512 * (j + count) ≤ a → t.mm.mem a = s.mm.mem a) ∧
      (NoFaults s → t.fs.disk = s.fs.disk ∧ NoFaults t ∧
        ∀ x < 512 * count, t.mm.mem (pa + 512 * j + x) =
          storedByte s.fs.disk dp.addrs (512 * i + x)) := by
  induction count generalizing i j s with
  | zero =>
      rw [loadSectors_zero]
      refine Ensures.pure ⟨rfl, fun _ _ => rfl, fun reads => ⟨rfl, reads, fun x below => ?_⟩⟩
      omega
  | succ count ih =>
      rw [loadSectors_cons]
      refine Ensures.seq (loadSector_ensures dp (pa + 512 * j) i s) ?_
      rintro _ t ⟨list, outside, first⟩
      refine (ih (i + 1) (j + 1) t).mono ?_
      rintro _ u ⟨list', outside', later⟩
      refine ⟨list'.trans list, ?_, ?_⟩
      · intro a apart
        rw [show j + (count + 1) = j + 1 + count by omega] at apart
        rw [outside' a (by omega), outside a (by omega)]
      · intro reads
        obtain ⟨disk, reads', bytes⟩ := first reads
        obtain ⟨disk', reads'', bytes'⟩ := later reads'
        refine ⟨disk'.trans disk, reads'', fun x bound => ?_⟩
        by_cases here : x < 512
        · rw [outside' _ (by omega)]
          exact bytes x here
        · have byte := bytes' (x - 512) (by omega)
          rw [show pa + 512 * (j + 1) + (x - 512) = pa + 512 * j + x by omega, disk,
            show 512 * (i + 1) + (x - 512) = 512 * i + x by omega] at byte
          exact byte

theorem loadSectorsStored_ensures (dp : Inode) (pa count i j : Nat) (s : State) :
    Ensures (loadSectorsStored link dp pa count i j) s fun _ t =>
      t.mm.freelist = s.mm.freelist ∧
      (∀ a, a < pa + 512 * j ∨ pa + 512 * (j + count) ≤ a → t.mm.mem a = s.mm.mem a) ∧
      (NoFaults s → t.fs.disk = s.fs.disk ∧ NoFaults t ∧
        ∀ x < 512 * count, t.mm.mem (pa + 512 * j + x) =
          storedByte s.fs.disk dp.addrs (512 * i + x)) := by
  have plain : Ensures (loadSectors link dp pa count i j) s _ :=
    loadSectors_ensures dp pa count i j s
  rw [loadSectors_stored] at plain
  exact plain.of_map

/-- A page is mapped below `MAXVA`. -/
theorem mappages_low (root va pa perm : Nat) (m : Mm) :
    Ensures (mappages link root va pa PGSIZE perm) m fun _ _ =>
      va % PGSIZE = 0 ∧ va + PGSIZE ≤ MAXVA := by
  unfold mappages
  refine Ensures.guard fun aligned => ?_
  refine Ensures.guard fun _ => ?_
  refine Ensures.guard fun _ => ?_
  have one : PGSIZE / PGSIZE = 0 + 1 := by decide
  rw [one]
  unfold mappagesLoop mapPage walk
  refine Ensures.seq (m := fun _ _ => va % PGSIZE = 0 ∧ va + PGSIZE ≤ MAXVA) ?_
    fun _ _ low _ _ _ => low
  refine Ensures.seq (m := fun _ _ => va % PGSIZE = 0 ∧ va + PGSIZE ≤ MAXVA) ?_
    fun _ _ low _ _ _ => low
  refine Ensures.guard fun low _ _ _ => ⟨not_not.mp aligned, ?_⟩
  simp only [PGSIZE, MAXVA] at *
  omega

/-- A page is mapped where nothing was mapped before. -/
theorem mappages_unmapped {m : Mm} {root : Nat} {free : List Nat} (space : Space link m root free)
    (va pa perm : Nat) : Ensures (mappages link root va pa PGSIZE perm) m fun _ v =>
      v.freelist = 0 ∨ translate m.mem root va = none := by
  unfold mappages
  refine Ensures.guard fun _ => ?_
  refine Ensures.guard fun _ => ?_
  refine Ensures.guard fun _ => ?_
  have one : PGSIZE / PGSIZE = 0 + 1 := by decide
  rw [one]
  unfold mappagesLoop
  refine Ensures.seq (mapPage_ensures space va pa perm) ?_
  rintro mapped v ⟨rest, grew, ⟨rfl, rfl, -⟩ | ⟨rfl, -, none, -⟩⟩
  · exact Ensures.pure (Or.inl (grew.space.list.chain.head_eq_zero.mpr rfl))
  · exact Ensures.pure (Or.inr none)

/-- The page of a segment: the sectors from its start on, and behind them what
the page held before. -/
structure SegmentPage (link : Link) (s t : State) (dp : Inode) (root : Nat) (ph : Proghdr)
    (free rest : List Nat) (pg : Nat) : Prop where
  added : ∃ w, Added link s.mm w t.mm root ph.vaddr pg PTE_AP_RW free rest
  behind : TablesBehind link s.mm t.mm root ph.vaddr pg free rest
  low : ph.vaddr % PGSIZE = 0 ∧ ph.vaddr + PGSIZE ≤ MAXVA
  stale : ∀ x < PGSIZE, 512 * ph.sectors ≤ x → t.mm.mem (pg + x) = s.mm.mem (pg + x)
  loaded : NoFaults s → ∀ x < 512 * ph.sectors,
    t.mm.mem (pg + x) = storedByte s.fs.disk dp.addrs (512 * ph.firstSector.toNat + x)

/-- The disk is read, and the buffers are free again. -/
def OnlyRead (s t : State) : Prop :=
  NoFaults s → t.fs.disk = s.fs.disk ∧ NoFaults t

/-- A segment that fits its page. -/
theorem loadSegmentStored_ensures {s : State} {root : Nat} {free : List Nat}
    (space : Space link s.mm root free) (dp : Inode) {ph : Proghdr} (one : ph.sectors ≤ 8) :
    Ensures (loadSegmentStored link dp root ph) s fun stored t => OnlyRead s t ∧
      ∃ rest, Grew link s.mm t.mm root free rest ∧
        (rest ≠ [] → SegmentPage link s t dp root ph free rest stored.page) := by
  unfold loadSegmentStored
  refine Ensures.seq (m := fun pg u => u.fs = s.fs ∧ u.mm.mem = s.mm.mem ∧
    ((free = [] ∧ pg = 0 ∧ FreeList link u.mm []) ∨
      ∃ tail, free = pg :: tail ∧ FreeList link u.mm tail)) ?_ ?_
  · apply Ensures.zoom
    refine (kalloc_yields space.list).ensures.mono ?_
    rintro pg m ⟨same, popped⟩
    exact ⟨rfl, same, popped⟩
  rintro pg u ⟨files, same, popped⟩
  refine Ensures.guard fun _ => ?_
  refine Ensures.seq (loadSectorsStored_ensures dp pg _ _ 0 u) ?_
  rintro _ v ⟨list, outside, content⟩
  simp only [Nat.mul_zero, Nat.add_zero, Nat.zero_add] at outside content
  unfold NoFaults at content
  rw [files] at content
  -- The last call maps the page.
  refine Ensures.seq (m := fun result t => t.fs = v.fs ∧
    mappages link root ph.vaddr pg PGSIZE PTE_AP_RW v.mm = .ok (result, t.mm)) ?_ ?_
  · intro result t returned
    obtain ⟨m, ran, rfl⟩ := Act.zoom_eq_ok.mp returned
    exact ⟨rfl, ran⟩
  rintro result t ⟨filesAfter, mapped⟩
  refine Ensures.pure ⟨?_, ?_⟩
  · intro reads
    unfold NoFaults
    rw [filesAfter]
    obtain ⟨disk, still, -⟩ := content reads
    exact ⟨disk, still⟩
  have others : ∀ q, IsPage link q → q ≠ pg → (pg = 0 ∨ IsPage link pg) →
      SameOn s.mm.mem v.mm.mem q := by
    intro q page different target o bound
    rw [← same]
    apply outside
    rcases target with rfl | page'
    · have base := link.base_pos
      have lower := page.lower
      simp only [KERNBASE] at base
      omega
    · have apart := page.apart page' different
      simp only [PGSIZE] at *
      omega
  rcases popped with ⟨rfl, rfl, empty⟩ | ⟨tail, rfl, tailList⟩
  · have begun : Grew link s.mm v.mm root [] [] := by
      have listed : s.mm.freelist = u.mm.freelist := by
        rw [space.list.chain.head_eq_zero.mpr rfl, empty.chain.head_eq_zero.mpr rfl]
      refine Grew.of_same space (list.trans listed.symm) fun q page => ?_
      exact others q page page.pos (Or.inl rfl)
    obtain ⟨rest, grew, -⟩ := mappages_ensures begun.space _ _ _ _ _ _ mapped
    obtain rfl : rest = [] := List.suffix_nil.mp grew.taken
    exact ⟨[], begun.trans grew, fun some_page => absurd rfl some_page⟩
  · have page := space.list.page pg List.mem_cons_self
    have rest_same : ∀ q, IsPage link q → q ≠ pg → SameOn s.mm.mem v.mm.mem q :=
      fun q page' different => others q page' different (Or.inr page)
    obtain ⟨filled, -, -⟩ := space.fill tailList same list rest_same
    obtain ⟨rest, added⟩ := space.add tailList same list rest_same
      (mappages_ensures filled.space _ _ _ _ _ _ mapped)
      (mappages_spends filled.space _ _ _ _ _ _ mapped)
    have low := mappages_low _ _ _ _ _ _ _ mapped
    have behind : rest ≠ [] → TablesBehind link s.mm t.mm root ph.vaddr pg (pg :: tail) rest := by
      intro some_page
      have more : t.mm.freelist ≠ 0 :=
        fun none => some_page (added.grew.space.list.chain.head_eq_zero.mp none)
      obtain ⟨rest', after, behind⟩ :=
        space.behind tailList same list rest_same low.2 pg PTE_AP_RW result t.mm mapped more
      obtain rfl : rest' = rest := added.grew.space.list.toListed.unique after.list.toListed
      exact behind
    refine ⟨rest, added.grew, fun some_page => ⟨⟨_, added⟩, behind some_page, low, ?_, ?_⟩⟩
    · intro x bound behind
      rw [added.filled x bound, outside _ (Or.inr (by omega)), same]
    · intro reads x inside
      have bound : x < PGSIZE := by
        simp only [PGSIZE]
        omega
      rw [added.filled x bound]
      exact (content reads).2.2 x inside

/-- The segment is in a page of its own. -/
structure SegmentThere (link : Link) (s t : State) (dp : Inode) (root : Nat) (ph : Proghdr)
    (free rest : List Nat) (pg : Nat) : Prop where
  page : IsPage link pg
  source : pg ∈ free
  out : pg ∉ rest
  apart : ¬IsTable t.mm.mem root pg
  low : ph.vaddr % PGSIZE = 0 ∧ ph.vaddr + PGSIZE ≤ MAXVA
  maps : ∀ a < MAXVA, a / PGSIZE = ph.vaddr / PGSIZE →
    translate t.mm.mem root a = some (pteOf pg PTE_AP_RW)
  stale : ∀ x < PGSIZE, 512 * ph.sectors ≤ x → t.mm.mem (pg + x) = s.mm.mem (pg + x)
  loaded : NoFaults s → ∀ x < PGSIZE, x < 512 * ph.sectors →
    t.mm.mem (pg + x) = storedByte s.fs.disk dp.addrs (512 * ph.firstSector.toNat + x)

section

variable {s t u : State} {dp : Inode} {root pg : Nat} {ph : Proghdr} {free mid rest : List Nat}

theorem SegmentPage.there (loaded : SegmentPage link s t dp root ph free rest pg)
    (some_page : rest ≠ []) : SegmentThere link s t dp root ph free rest pg := by
  obtain ⟨w, added⟩ := loaded.added
  refine ⟨added.page, added.source, added.out, added.apart, loaded.low, ?_, loaded.stale,
    fun reads x _ inside => loaded.loaded reads x inside⟩
  intro a low here
  rw [added.maps.resolve_left some_page a low, if_pos here]

/-- A page that has left the free list without becoming a table is left alone. -/
theorem Grew.other {m n : Mm} (grew : Grew link m n root mid rest) (page : IsPage link pg)
    (apart : ¬IsTable m.mem root pg) (out : pg ∉ mid) :
    SameOn m.mem n.mem pg ∧ pg ∉ rest ∧ ¬IsTable n.mem root pg := by
  refine ⟨grew.frame pg page apart fun member => absurd member out,
    fun member => out (grew.taken.subset member), ?_⟩
  intro table
  rcases grew.owned pg table with old | new
  · exact apart old
  · exact out new

/-- What follows a segment leaves it alone. -/
theorem SegmentThere.later (there : SegmentThere link s t dp root ph free mid pg)
    (grew : Grew link t.mm u.mm root mid rest)
    (same : ∀ a < MAXVA, a / PGSIZE = ph.vaddr / PGSIZE →
      translate u.mm.mem root a = translate t.mm.mem root a) :
    SegmentThere link s u dp root ph free rest pg := by
  obtain ⟨kept, out, apart⟩ := grew.other there.page there.apart there.out
  refine ⟨there.page, there.source, out, apart, there.low, ?_, ?_, ?_⟩
  · intro a low here
    rw [same a low here]
    exact there.maps a low here
  · intro x bound behind
    rw [kept x bound]
    exact there.stale x bound behind
  · intro reads x bound inside
    rw [kept x bound]
    exact there.loaded reads x bound inside

/-- What went before a segment did not touch the page that it is given. -/
theorem SegmentThere.earlier (there : SegmentThere link t u dp root ph mid rest pg)
    (grew : Grew link s.mm t.mm root free mid) (read : OnlyRead s t) :
    SegmentThere link s u dp root ph free rest pg := by
  have member := grew.taken.subset there.source
  have same : SameOn s.mm.mem t.mm.mem pg := by
    refine grew.frame pg there.page ?_ fun _ => there.source
    intro table
    exact grew.space.held pg (grew.kept pg table) there.source
  refine ⟨there.page, member, there.out, there.apart, there.low, there.maps, ?_, ?_⟩
  · intro x bound behind
    rw [there.stale x bound behind, same x bound]
  · intro reads x bound inside
    obtain ⟨disk, reads'⟩ := read reads
    rw [there.loaded reads' x bound inside, disk]

end

/-- What the loop has done for the headers from `i` on. -/
structure SegmentsLoaded (link : Link) (s t : State) (dp : Inode) (data : Block) (root i count : Nat)
    (free rest : List Nat) (segments : List SegmentStores) : Prop where
  read : OnlyRead s t
  grew : Grew link s.mm t.mm root free rest
  maps : rest ≠ [] → ∀ a < MAXVA,
    (∀ k ph, i ≤ k → k < i + count → IsLoad data k ph → a / PGSIZE ≠ ph.vaddr / PGSIZE) →
    translate t.mm.mem root a = translate s.mm.mem root a
  there : rest ≠ [] →
    (∀ k l ph ph', i ≤ k → k < l → l < i + count → IsLoad data k ph → IsLoad data l ph' →
      ph.vaddr / PGSIZE ≠ ph'.vaddr / PGSIZE) →
    ∀ seg ∈ segments, ∀ ph, IsLoad data seg.header ph →
      SegmentThere link s t dp root ph free rest seg.page

theorem loadSegmentsStored_ensures {root : Nat} (dp : Inode) (data : Block) (count i sz : Nat)
    {s : State} {free : List Nat} (space : Space link s.mm root free)
    (one : ∀ k ph, i ≤ k → k < i + count → IsLoad data k ph → ph.sectors ≤ 8) :
    Ensures (loadSegmentsStored link dp root data count i sz) s fun stored t =>
      ∃ rest, SegmentsLoaded link s t dp data root i count free rest stored.2 := by
  induction count generalizing i sz s free with
  | zero =>
      exact Ensures.pure ⟨free, fun reads => ⟨rfl, reads⟩, Grew.refl space, fun _ _ _ _ => rfl,
        fun _ _ => List.forall_mem_nil _⟩
  | succ count ih =>
      unfold loadSegmentsStored
      cases header : proghdrOf data (elfOf data).phoff i with
      | none => exact Ensures.fail
      | some ph =>
          have later : ∀ k ph, i + 1 ≤ k → k < i + 1 + count → IsLoad data k ph →
              ph.sectors ≤ 8 := fun k ph lower upper => one k ph (by omega) (by omega)
          apply Ensures.ite
          · intro other
            refine (ih (i + 1) sz space later).mono ?_
            rintro stored t ⟨rest, done⟩
            refine ⟨rest, done.read, done.grew, ?_, ?_⟩
            · intro some_page a low apart
              exact done.maps some_page a low fun k ph' lower upper =>
                apart k ph' (by omega) (by omega)
            · intro some_page distinct
              exact done.there some_page fun k l ph ph' lower below upper =>
                distinct k l ph ph' (by omega) below (by omega)
          · intro type
            have load : IsLoad data i ph := ⟨header, not_not.mp type⟩
            refine Ensures.seq (loadSegmentStored_ensures space dp (one i ph le_rfl (by omega) load)) ?_
            rintro stored u ⟨read, mid, grew, page⟩
            refine Ensures.seq (m := fun result t => SegmentsListed data (i + 1) count result.2 ∧
              ∃ rest, SegmentsLoaded link u t dp data root (i + 1) count mid rest result.2) ?_ ?_
            · intro result t returned
              exact ⟨loadSegmentsStored_listed dp root data count (i + 1) ph.vaddr u result t returned,
                ih (i + 1) ph.vaddr grew.space later result t returned⟩
            rintro ⟨last, segments⟩ t ⟨record, rest, done⟩
            refine Ensures.pure ?_
            have before : rest ≠ [] → mid ≠ [] := by
              rintro some_page rfl
              exact some_page (List.suffix_nil.mp done.grew.taken)
            refine ⟨rest, ?_, grew.trans done.grew, ?_, ?_⟩
            · intro reads
              obtain ⟨disk, reads'⟩ := read reads
              obtain ⟨disk', reads''⟩ := done.read reads'
              exact ⟨disk'.trans disk, reads''⟩
            · intro some_page a low apart
              have loaded := page (before some_page)
              obtain ⟨w, added⟩ := loaded.added
              rw [done.maps some_page a low fun k ph' lower upper =>
                  apart k ph' (by omega) (by omega),
                added.maps.resolve_left (before some_page) a low,
                if_neg (apart i ph le_rfl (by omega) load)]
            · intro some_page distinct
              refine List.forall_mem_cons.mpr ⟨fun ph' load' => ?_, fun seg member ph' load' => ?_⟩
              · obtain rfl := load.unique load'
                have loaded := page (before some_page)
                refine (loaded.there (before some_page)).later done.grew ?_
                intro a low same
                refine done.maps some_page a low fun l ph'' above upper load'' => ?_
                rw [same]
                exact distinct i l ph ph'' le_rfl (by omega) (by omega) load load''
              · have there := done.there some_page (fun k l ph ph' lower below upper =>
                  distinct k l ph ph' (by omega) below (by omega)) seg member ph' load'
                exact there.earlier grew read

end

end Gcgos.Kernel
