import Gcgos.Fs.Table
import Gcgos.Lib.Run

/-!
# Who holds the buffers

An operation of `kernel/fs.c` that returns leaves the buffers that are taken
as they were, whatever the card answers, with one exception: `bmap` never
gives back the buffer of an indirect block. As long as no block behind the
direct ones is asked for, one free buffer is enough for ever.
-/

set_option autoImplicit false

namespace Gcgos.Fs

open Act Bio

/-- From `s` to `t` the buffer `i` was taken. -/
structure Taken (s t : Bio) (i : Fin NBUF) : Prop where
  free : s.busy i = false
  busy : t.busy = Function.update s.busy i true

/-- With a free buffer in `s`, no wait for one. -/
def NoSpin (s : Bio) (stop : Fault) : Prop := 1 ≤ s.freeCount → stop ≠ .spin

section

variable {s t : Bio}

theorem sdReadblock_busy (sector : Nat) (b : Fin NBUF) (t : Bio) :
    Ends (sdReadblock sector b) t (fun _ u => u.busy = t.busy) (NoSpin s) := by
  refine Ends.of_returned rfl ?_
  have same : Function.update t.busy b (t.buf b).busy = t.busy := Function.update_eq_self b t.busy
  beta_reduce
  split
  · rfl
  · exact (setBuf_busy t b _).trans same
  · exact (setBuf_busy t b _).trans same

theorem bread_takes (dev : UInt32) (sector : Nat) (even : t.busy = s.busy) :
    Ends (bread dev sector) t (fun i u => Taken s u i) (NoSpin s) := by
  unfold bread
  refine Ends.seq (m := fun i u => Taken s u i) ?_ fun i u taken => ?_
  · unfold Ends getblk
    cases found : (List.finRange NBUF).find? fun i => !(t.buf i).busy with
    | some i =>
        have first : (t.buf i).busy = false := by simpa using List.find?_some found
        refine ⟨?_, ?_⟩
        · rw [← even]
          exact first
        · rw [setBuf_busy, even]
    | none =>
        intro room
        obtain ⟨i, member⟩ := Finset.card_pos.mp room
        have clear : s.busy i = false := by simpa using member
        have taken := List.find?_eq_none.mp found i (List.mem_finRange i)
        rw [← even] at clear
        simp [Bio.busy] at clear
        simp [clear] at taken
  · refine Ends.seq (sdReadblock_busy sector i u) fun _ v same => ?_
    exact Ends.pure ⟨taken.free, same.trans taken.busy⟩

theorem Taken.setBufData {i : Fin NBUF} (taken : Taken s t i) (data : Block) :
    Ends (setBufData i data) t (fun _ u => Taken s u i) (NoSpin s) := by
  refine Ends.of_returned rfl ⟨taken.free, ?_⟩
  rw [setBuf_busy, ← taken.busy]
  exact Function.update_eq_self i t.busy

theorem Taken.bwrite {i : Fin NBUF} (taken : Taken s t i) (dev : UInt32) (b : Fin NBUF)
    (sector : Nat) : Ends (bwrite dev b sector) t (fun _ u => Taken s u i) (NoSpin s) :=
  Ends.of_returned rfl ⟨taken.free, taken.busy⟩

theorem Taken.brelse {i : Fin NBUF} (taken : Taken s t i) :
    Ends (brelse i) t (fun _ u => u.busy = s.busy) (NoSpin s) := by
  refine Ends.of_returned rfl ?_
  simp [taken.busy, ← taken.free]

theorem Taken.bstore {i : Fin NBUF} (taken : Taken s t i) (dev : UInt32) (data : Block)
    (sector : Nat) : Ends (bstore dev i data sector) t (fun _ u => u.busy = s.busy) (NoSpin s) := by
  unfold Fs.bstore
  refine Ends.seq (taken.setBufData data) fun _ u taken => ?_
  exact Ends.seq (taken.bwrite dev i sector) fun _ v taken => taken.brelse

/-- A read that is released at once. -/
theorem readDinode_even (dev inum : UInt32) (even : t.busy = s.busy) :
    Ends (do
      let bp ← bread dev (IBLOCK inum.toNat)
      let data ← bufData bp
      brelse bp
      pure (data.dinode (inum.toNat % IPB)) : Act Fault Bio Dinode) t
      (fun _ u => u.busy = s.busy) (NoSpin s) := by
  refine Ends.seq (bread_takes dev _ even) fun bp u taken => ?_
  refine Ends.look ?_
  exact Ends.seq taken.brelse fun _ v even => Ends.pure even

/-! ## The bitmap -/

theorem ballocTurn_takes (dev ninodes : UInt32) (b : Nat) {bp : Fin NBUF} (taken : Taken s t bp) :
    Ends (ballocTurn dev ninodes b bp) t (fun i u => Taken s u i) (NoSpin s) := by
  unfold ballocTurn
  apply Ends.ite
  · intro _
    exact Ends.seq taken.brelse fun _ u even => bread_takes dev _ even
  · intro _
    exact Ends.pure taken

theorem ballocScan_takes (dev ninodes : UInt32) (fuel b : Nat) {bp : Fin NBUF}
    (taken : Taken s t bp) :
    Ends (ballocScan dev ninodes fuel b bp) t (fun result u => Taken s u result.2) (NoSpin s) := by
  induction fuel generalizing b bp t with
  | zero => exact Ends.pure taken
  | succ fuel ih =>
      unfold ballocScan
      refine Ends.seq (ballocTurn_takes dev ninodes b taken) fun bp u taken => ?_
      refine Ends.look ?_
      apply Ends.ite
      · exact fun _ => Ends.pure taken
      · exact fun _ => ih (b + 1) taken

theorem balloc_even (dev : UInt32) (even : t.busy = s.busy) :
    Ends (balloc dev) t (fun _ u => u.busy = s.busy) (NoSpin s) := by
  unfold balloc
  refine Ends.seq (bread_takes dev 1 even) fun bp u taken => ?_
  refine Ends.look ?_
  refine Ends.seq (ballocScan_takes dev _ _ 0 taken) ?_
  rintro ⟨b, bp⟩ v taken
  refine Ends.guard (fun _ _ => by simp) fun _ => ?_
  refine Ends.look ?_
  exact Ends.seq (taken.bstore dev _ _) fun _ w even => Ends.pure even

theorem bfree_even (dev b : UInt32) (even : t.busy = s.busy) :
    Ends (bfree dev b) t (fun _ u => u.busy = s.busy) (NoSpin s) := by
  unfold bfree
  refine Ends.seq (bread_takes dev 1 even) fun bp u taken => ?_
  refine Ends.look ?_
  refine Ends.seq taken.brelse fun _ v even => ?_
  refine Ends.seq (bread_takes dev _ even) fun bp w taken => ?_
  refine Ends.look ?_
  exact taken.bstore dev _ _

/-! ## Inodes -/

theorem iupdate_even (ip : Inode) (even : t.busy = s.busy) :
    Ends (iupdate ip) t (fun _ u => u.busy = s.busy) (NoSpin s) := by
  unfold iupdate
  refine Ends.seq (bread_takes ip.dev _ even) fun bp u taken => ?_
  refine Ends.look ?_
  exact taken.bstore ip.dev _ _

/-- Where the scan of `ialloc` ends, the buffer it points to is held, or was
given back. -/
def ScanEnd (s u : Bio) (last : Option (Fin NBUF × Nat)) : Prop :=
  match last with
  | none => u.busy = s.busy
  | some (bp, _) => Taken s u bp ∨ s.busy bp = false ∧ u.busy = s.busy

theorem iallocScan_ends (dev : UInt32) (fuel inum : Nat) {last : Option (Fin NBUF × Nat)}
    (even : t.busy = s.busy) (known : ∀ bp slot, last = some (bp, slot) → s.busy bp = false) :
    Ends (iallocScan dev fuel inum last) t (fun result u => ScanEnd s u result.2) (NoSpin s) := by
  induction fuel generalizing inum last t with
  | zero =>
      refine Ends.pure ?_
      cases last with
      | none => exact even
      | some pair => exact Or.inr ⟨known _ _ rfl, even⟩
  | succ fuel ih =>
      unfold iallocScan
      refine Ends.seq (bread_takes dev _ even) fun bp u taken => ?_
      refine Ends.look ?_
      apply Ends.ite
      · exact fun _ => Ends.pure (Or.inl taken)
      · intro _
        refine Ends.seq taken.brelse fun _ v even => ih (inum + 1) even ?_
        intro bp' slot same
        cases same
        exact taken.free

theorem iallocDisk_even (dev : UInt32) (type : UInt16) (even : t.busy = s.busy) :
    Ends (iallocDisk dev type) t (fun _ u => u.busy = s.busy) (NoSpin s) := by
  unfold iallocDisk
  refine Ends.seq (bread_takes dev 1 even) fun bp u taken => ?_
  refine Ends.look ?_
  refine Ends.seq taken.brelse fun _ v even => ?_
  refine Ends.seq (iallocScan_ends dev _ 1 even (by rintro _ _ ⟨⟩)) ?_
  rintro ⟨inum, dip⟩ w ended
  cases dip with
  | none => exact Ends.fail fun _ => by simp
  | some pair =>
      obtain ⟨bp, slot⟩ := pair
      refine Ends.look ?_
      refine Ends.seq (m := fun _ u => u.busy = s.busy) ?_ fun _ x even => Ends.pure even
      rcases ended with taken | ⟨free, even⟩
      · exact taken.bstore dev _ _
      · -- `ialloc` found no inode: it writes to a buffer that it no longer holds
        refine Ends.of_returned rfl ?_
        simp [even, ← free]

theorem bmap_even (ip : Inode) {bn : Nat} (direct : bn < NDIRECT) (even : t.busy = s.busy) :
    Ends (bmap ip bn) t (fun _ u => u.busy = s.busy) (NoSpin s) := by
  unfold bmap
  rw [if_pos direct]
  exact Ends.pure even

theorem bmap_taken (ip : Inode) {bn : Nat} (direct : bn < NDIRECT) {i : Fin NBUF}
    (taken : Taken s t i) : Ends (bmap ip bn) t (fun _ u => Taken s u i) (NoSpin s) := by
  unfold bmap
  rw [if_pos direct]
  exact Ends.pure taken

/-! ## Files and directories -/

/-- The bytes to read, if there are any, lie in the direct blocks. -/
def ReadsDirect (ip : Inode) (off n : Nat) : Prop :=
  n = 0 ∨ ip.size.toNat ≤ off ∨ min (off + n) ip.size.toNat ≤ NDIRECT * BSIZE

theorem readiLoop_even (ip : Inode) (fuel off n dst : Nat) (even : t.busy = s.busy)
    (direct : ReadsDirect ip off n) :
    Ends (readiLoop ip fuel off n dst) t (fun _ u => u.busy = s.busy) (NoSpin s) := by
  induction fuel generalizing off n dst t with
  | zero => exact Ends.pure even
  | succ fuel ih =>
      unfold readiLoop
      apply Ends.ite
      · rintro ⟨some, inside⟩
        have low : min (off + n) ip.size.toNat ≤ NDIRECT * BSIZE := by
          rcases direct with none | behind | low
          · omega
          · omega
          · exact low
        have bound : off / 512 < NDIRECT := by
          simp only [NDIRECT, BSIZE] at *
          omega
        refine Ends.seq (bmap_even ip bound even) fun blk u even => ?_
        refine Ends.seq (bread_takes ip.dev _ even) fun bp v taken => ?_
        refine Ends.look ?_
        refine Ends.seq taken.brelse fun _ w even => ?_
        refine Ends.seq (ih _ _ _ even (Or.inr (Or.inr ?_))) fun _ x even => Ends.pure even
        omega
      · exact fun _ => Ends.pure even

theorem writeiStore_even (ip : Inode) {off : Nat} (piece : List UInt8)
    (direct : off / BSIZE < NDIRECT) (even : t.busy = s.busy) :
    Ends (writeiStore ip off piece) t (fun _ u => u.busy = s.busy) (NoSpin s) := by
  unfold writeiStore
  refine Ends.seq (bmap_even ip direct even) fun source u even => ?_
  refine Ends.seq (bread_takes ip.dev _ even) fun bp v taken => ?_
  refine Ends.look ?_
  refine Ends.seq (taken.setBufData _) fun _ w taken => ?_
  refine Ends.seq (bmap_taken ip direct taken) fun target x taken => ?_
  exact Ends.seq (taken.bwrite ip.dev bp _) fun _ y taken => taken.brelse

theorem liftExcept_ends {α : Type} {result : Except Fault α} {post : α → Bio → Prop}
    (met : ∀ value, result = .ok value → post value t)
    (stops : ∀ stop, result = .error stop → stop ≠ .spin) :
    Ends (liftExcept result) t post (NoSpin s) := by
  cases result with
  | ok value => exact met value rfl
  | error stop => exact fun _ => stops stop rfl

theorem nameMatch_stops (name cp : List UInt8) {stop : Fault}
    (stopped : nameMatch name cp = .error stop) : stop = .bounds := by
  unfold nameMatch at stopped
  split at stopped
  · cases stopped
    rfl
  · split at stopped
    · cases stopped
      rfl
    · split at stopped <;> cases stopped

theorem direntScan_stops (data : Block) (cp : List UInt8) (fuel k : Nat) {stop : Fault}
    (stopped : direntScan data cp fuel k = .error stop) : stop = .bounds := by
  induction fuel generalizing k with
  | zero => cases stopped
  | succ fuel ih =>
      unfold direntScan at stopped
      split at stopped
      · exact ih _ stopped
      · split at stopped
        · next matched =>
            cases stopped
            exact nameMatch_stops _ _ matched
        · cases stopped
        · exact ih _ stopped

theorem nameBytes_stops (fuel : Nat) (path : List UInt8) {stop : Fault}
    (stopped : nameBytes fuel path = .error stop) : stop = .bounds := by
  induction fuel generalizing path with
  | zero => cases stopped
  | succ fuel ih =>
      cases path with
      | nil =>
          cases stopped
          rfl
      | cons c path =>
          unfold nameBytes at stopped
          split at stopped
          · cases stopped
          · split at stopped
            · cases stopped
            · next failed =>
                cases stopped
                exact ih _ failed

/-- The card answers every read. -/
abbrev Answers (b : Bio) : Prop := b.sd.faults = []

/-- What a read holds on a card that answers. -/
theorem bread_reads (dev : UInt32) (sector : Nat) (even : t.busy = s.busy) (answers : Answers t) :
    Ends (bread dev sector) t (fun i u => Taken s u i ∧ (u.buf i).data = t.sd.block sector ∧
      u.sd = t.sd) (NoSpin s) := by
  have takes := bread_takes (s := s) dev sector even
  unfold Ends at takes ⊢
  cases outcome : bread dev sector t with
  | error stop =>
      rw [outcome] at takes
      exact takes
  | ok pair =>
      obtain ⟨i, u⟩ := pair
      rw [outcome] at takes
      refine ⟨takes, ?_⟩
      obtain ⟨j, v, found, read⟩ := Act.bind_eq_ok.mp outcome
      have card : v.sd = t.sd := by
        unfold getblk at found
        split at found
        · cases found
          rfl
        · cases found
      obtain ⟨_, w, stored, same⟩ := Act.bind_eq_ok.mp read
      rw [sdReadblock_run sector j (by rw [card]; exact answers)] at stored
      cases stored
      cases same
      simp [card]

theorem dirScan_even (dp : Inode) (cp : List UInt8) (fuel off : Nat)
    (direct : dp.size.toNat ≤ NDIRECT * BSIZE) (even : t.busy = s.busy) (answers : Answers t) :
    Ends (dirScan dp cp fuel off) t (fun _ u => u.busy = s.busy ∧ u.sd = t.sd) (NoSpin s) := by
  induction fuel generalizing off t with
  | zero => exact Ends.pure ⟨even, rfl⟩
  | succ fuel ih =>
      unfold dirScan
      apply Ends.ite
      · intro inside
        have bound : off / 512 < NDIRECT := by
          simp only [NDIRECT, BSIZE] at *
          omega
        have blk := bmap_direct dp bound t
        refine Ends.seq (m := fun _ u => u = t) (Ends.of_returned blk rfl) ?_
        rintro blk _ rfl
        refine Ends.seq (bread_reads dp.dev _ even answers) ?_
        rintro bp u ⟨taken, -, card⟩
        refine Ends.look ?_
        refine Ends.seq (m := fun _ v => v = u)
          (liftExcept_ends (fun _ _ => rfl) fun stop stopped => ?_) ?_
        · rw [direntScan_stops _ _ _ _ stopped]
          simp
        · rintro found v rfl
          refine Ends.seq (m := fun _ w => w.busy = s.busy ∧ w.sd = v.sd)
            (Ends.of_returned rfl ⟨by simp [taken.busy, ← taken.free], rfl⟩) ?_
          rintro _ w ⟨even, card'⟩
          cases found with
          | some hit => exact Ends.pure ⟨even, card'.trans card⟩
          | none =>
              refine (ih (off + 512) even (by rw [Answers, card', card]; exact answers)).mono ?_
              rintro _ x ⟨even, last⟩
              exact ⟨even, last.trans (card'.trans card)⟩
      · exact fun _ => Ends.pure ⟨even, rfl⟩

theorem mknodScan_takes (dp : Inode) (fuel off : Nat) (direct : dp.size.toNat ≤ NDIRECT * BSIZE)
    (even : t.busy = s.busy) :
    Ends (mknodScan dp fuel off) t (fun hit u =>
      ∀ place k bp, hit = some (place, k, bp) → place / 512 < NDIRECT ∧ Taken s u bp) (NoSpin s) := by
  induction fuel generalizing off t with
  | zero => exact Ends.pure (by rintro _ _ _ ⟨⟩)
  | succ fuel ih =>
      unfold mknodScan
      apply Ends.ite
      · intro inside
        have bound : off / 512 < NDIRECT := by
          simp only [NDIRECT, BSIZE] at *
          omega
        refine Ends.seq (bmap_even dp bound even) fun blk u even => ?_
        refine Ends.seq (bread_takes dp.dev _ even) fun bp v taken => ?_
        refine Ends.look ?_
        split
        · refine Ends.pure ?_
          rintro _ _ _ ⟨⟩
          exact ⟨bound, taken⟩
        · exact Ends.seq taken.brelse fun _ w even => ih (off + 512) even
      · exact fun _ => Ends.pure (by rintro _ _ _ ⟨⟩)

theorem mknodEnter_even (dp : Inode) (inum : UInt32) (path : List UInt8)
    (direct : dp.size.toNat ≤ NDIRECT * BSIZE) (even : t.busy = s.busy) :
    Ends (mknodEnter dp inum path) t (fun _ u => u.busy = s.busy) (NoSpin s) := by
  unfold mknodEnter
  refine Ends.seq (mknodScan_takes dp _ 0 direct even) ?_
  intro hit u found
  match hit with
  | none => exact Ends.fail fun _ => by simp
  | some (off, k, bp) =>
      obtain ⟨bound, taken⟩ := found off k bp rfl
      refine Ends.look ?_
      refine Ends.seq (m := fun _ v => v = u)
        (liftExcept_ends (fun _ _ => rfl) fun stop stopped => ?_) ?_
      · rw [nameBytes_stops _ _ stopped]
        simp
      · rintro name _ rfl
        refine Ends.seq (taken.setBufData _) fun _ w taken => ?_
        refine Ends.seq (bmap_taken dp bound taken) fun target x taken => ?_
        exact Ends.seq (taken.bwrite dp.dev bp _) fun _ y taken => taken.brelse

end

section

variable {b : Bio} {s : State}

theorem onBio_ends {α : Type} {inner : Act Fault Bio α} {p : α → Bio → Prop}
    (ends : Ends inner s.bio p (NoSpin b)) :
    Ends (onBio inner) s (fun value t => p value t.bio ∧ t.inode = s.inode) (NoSpin b) :=
  Ends.zoom (ends.mono fun _ _ met => ⟨met, rfl⟩)

theorem onBio_even {α : Type} {inner : Act Fault Bio α}
    (ends : Ends inner s.bio (fun _ u => u.busy = b.busy) (NoSpin b)) :
    Ends (onBio inner) s (fun _ t => t.bio.busy = b.busy) (NoSpin b) :=
  (onBio_ends ends).mono fun _ _ met => met.1

theorem iupdateSlot_even (i : Fin NINODE) (even : s.bio.busy = b.busy) :
    Ends (iupdateSlot i) s (fun _ t => t.bio.busy = b.busy ∧ t.inode = s.inode) (NoSpin b) :=
  Ends.look (onBio_ends (iupdate_even (s.inode i) even))

/-- `iget` touches the slot it returns and no other. -/
theorem iget_even (dev inum : UInt32) (even : s.bio.busy = b.busy) :
    Ends (iget dev inum) s (fun i t => t.bio.busy = b.busy ∧ ∀ j, j ≠ i → t.inode j = s.inode j)
      (NoSpin b) := by
  unfold iget
  refine Ends.look ?_
  have others : ∀ (t : State) (i : Fin NINODE) (ip : Inode), ∀ j, j ≠ i →
      (t.setInode i ip).inode j = t.inode j := by
    intro t i ip j different
    simp [different]
  simp only [id]
  cases findSlot s dev inum with
  | some i =>
      unfold igetHit
      refine Ends.look ?_
      refine Ends.guard (fun _ _ => by simp) fun _ => ?_
      exact Ends.change (Ends.pure ⟨even, others _ i _⟩)
  | none =>
      cases freeSlot s with
      | none => exact Ends.fail fun _ => by simp
      | some i =>
          unfold igetMiss
          refine Ends.change ?_
          unfold igetLoad
          rw [Act.bind_assoc]
          refine Ends.seq (onBio_ends (readDinode_even dev inum even)) ?_
          rintro din u ⟨even, slots⟩
          refine Ends.change (Ends.pure ⟨even, ?_⟩)
          intro j different
          rw [others _ i _ j different, slots, others _ i _ j different]

theorem ialloc_even (dev : UInt32) (type : UInt16) (even : s.bio.busy = b.busy) :
    Ends (ialloc dev type) s (fun i t => t.bio.busy = b.busy ∧ ∀ j, j ≠ i → t.inode j = s.inode j)
      (NoSpin b) := by
  unfold ialloc
  refine Ends.seq (onBio_ends (iallocDisk_even dev type even)) ?_
  rintro inum t ⟨even, slots⟩
  refine (iget_even dev _ even).mono ?_
  rintro i u ⟨even, same⟩
  refine ⟨even, ?_⟩
  intro j different
  rw [same j different, slots]

theorem mknod_even (dp : Fin NINODE) (path : List UInt8) (type major minor : UInt16)
    (direct : (s.inode dp).size.toNat ≤ NDIRECT * BSIZE) (even : s.bio.busy = b.busy) :
    Ends (mknod dp path type major minor) s (fun _ t => t.bio.busy = b.busy) (NoSpin b) := by
  unfold mknod
  refine Ends.look ?_
  refine Ends.seq (ialloc_even _ type even) ?_
  rintro i t ⟨even, same⟩
  -- the directory's slot is another one, or now holds the new inode
  have small : ∀ ip : Inode, ip.size = 0 →
      ((t.setInode i ip).inode dp).size.toNat ≤ NDIRECT * BSIZE := by
    intro ip empty
    by_cases here : dp = i
    · subst here
      simp [empty]
    · simp only [State.setInode_inode, Function.update_of_ne here, same dp here]
      exact direct
  refine Ends.change ?_
  refine Ends.seq (iupdateSlot_even i even) ?_
  rintro _ u ⟨even, slots⟩
  refine Ends.look ?_
  refine Ends.look ?_
  refine Ends.seq (onBio_even (mknodEnter_even _ _ path (by rw [slots]; exact small _ rfl) even))
    fun _ v even => ?_
  refine Ends.change ?_
  exact Ends.seq (iupdateSlot_even dp even) fun _ w met => Ends.pure met.1

theorem consoleReadLoop_stops (fuel i : Nat) (cons : Cons) {stop : Fault}
    (stopped : consoleReadLoop fuel i cons = .error stop) : stop = .bounds := by
  induction fuel generalizing i cons with
  | zero => cases stopped
  | succ fuel ih =>
      unfold consoleReadLoop at stopped
      split at stopped
      · split at stopped
        · cases stopped
        · simp only at stopped
          split at stopped
          · cases stopped
          · next failed =>
              cases stopped
              exact ih _ _ failed
      · cases stopped
        rfl

theorem consoleRead_even (n : Nat) (even : s.bio.busy = b.busy) :
    Ends (consoleRead n) s (fun _ t => t.bio.busy = b.busy) (NoSpin b) := by
  unfold Ends consoleRead
  by_cases empty : s.cons.r = s.cons.w
  · rw [if_pos empty]
    exact fun _ => by simp
  · rw [if_neg empty]
    cases outcome : consoleReadLoop (asInt n).toNat 0 s.cons with
    | ok pair => exact even
    | error stop =>
        intro _
        rw [consoleReadLoop_stops _ _ _ outcome]
        simp

theorem readi_even (i : Fin NINODE) (off n : Nat) (even : s.bio.busy = b.busy)
    (direct : (s.inode i).type = T_DEV ∨ ReadsDirect (s.inode i) off n) :
    Ends (readi i off n) s (fun _ t => t.bio.busy = b.busy) (NoSpin b) := by
  unfold readi
  refine Ends.look ?_
  apply Ends.ite
  · intro _
    apply Ends.ite
    · intro _
      exact consoleRead_even n even
    · exact fun _ => Ends.pure even
  · intro file
    refine Ends.seq (onBio_even (readiLoop_even _ _ _ _ _ even (direct.resolve_left file))) ?_
    rintro ⟨left, stores⟩ t even
    exact Ends.pure even

theorem addrsAlloc_even (i : Fin NINODE) (k : Fin (NDIRECT + 1)) (even : s.bio.busy = b.busy) :
    Ends (addrsAlloc i k) s (fun _ t => t.bio.busy = b.busy) (NoSpin b) := by
  unfold addrsAlloc
  refine Ends.look ?_
  apply Ends.ite
  · intro _
    exact Ends.seq (onBio_even (balloc_even _ even)) fun _ t even => Ends.of_returned rfl even
  · exact fun _ => Ends.pure even

theorem writeiLoop_even (i : Fin NINODE) (fuel off : Nat) (src : List UInt8)
    (direct : InDirect off src) (even : s.bio.busy = b.busy) :
    Ends (writeiLoop i fuel off src) s (fun _ t => t.bio.busy = b.busy) (NoSpin b) := by
  induction fuel generalizing off src s with
  | zero => exact Ends.pure even
  | succ fuel ih =>
      unfold writeiLoop
      apply Ends.ite
      · exact fun _ => Ends.pure even
      · intro some
        have bound := direct.block some
        refine Ends.seq (m := fun _ t => t.bio.busy = b.busy) ?_ fun _ t even => ?_
        · unfold writeiMap
          rw [if_pos bound]
          exact addrsAlloc_even i _ even
        refine Ends.look ?_
        refine Ends.seq (onBio_even (writeiStore_even _ _ bound even)) fun _ u even => ?_
        exact ih _ _ direct.rest even

theorem writei_even (i : Fin NINODE) (src : List UInt8) (off : Nat) (even : s.bio.busy = b.busy)
    (direct : (s.inode i).type = T_FILE → InDirect off src) :
    Ends (writei i src off) s (fun _ t => t.bio.busy = b.busy) (NoSpin b) := by
  unfold writei
  refine Ends.look ?_
  apply Ends.ite
  · intro _
    apply Ends.ite
    · exact fun _ => Ends.of_returned rfl even
    · exact fun _ => Ends.pure even
  · intro _
    apply Ends.ite
    · intro file
      unfold writeiFile
      refine Ends.seq (writeiLoop_even i _ off src (direct file) even) fun reached t even => ?_
      refine Ends.change ?_
      exact Ends.seq (iupdateSlot_even i even) fun _ v met => Ends.pure met.1
    · exact fun _ => Ends.fail fun _ => by simp

end

/-! ## Paths -/

/-- Every directory that a path can lead to keeps to its direct blocks. -/
structure SmallDirs (s : State) : Prop where
  disk : ∀ n, n < 2 ^ 16 → (dinodeAt s.disk n).type = T_DIR →
    (dinodeAt s.disk n).size.toNat ≤ NDIRECT * BSIZE
  table : ∀ i, 0 < (s.inode i).count → (s.inode i).type = T_DIR →
    (s.inode i).size.toNat ≤ NDIRECT * BSIZE

/-- What the walk of `namei` keeps. -/
structure Walking (b : Bio) (s : State) : Prop where
  even : s.bio.busy = b.busy
  card : s.bio.sd = b.sd
  small : SmallDirs s

section

variable {b : Bio} {s : State}

/-- A change of one slot keeps small directories small. -/
theorem Walking.setInode (walking : Walking b s) {i : Fin NINODE} {ip : Inode}
    (small : 0 < ip.count → ip.type = T_DIR → ip.size.toNat ≤ NDIRECT * BSIZE) :
    Walking b (s.setInode i ip) := by
  refine ⟨walking.even, walking.card, walking.small.disk, ?_⟩
  intro j held dir
  by_cases here : j = i
  · subst here
    simp only [State.setInode_inode, Function.update_self] at held dir ⊢
    exact small held dir
  · simp only [State.setInode_inode, Function.update_of_ne here] at held dir ⊢
    exact walking.small.table j held dir

theorem readDinode_reads {t : Bio} (dev inum : UInt32) (even : t.busy = b.busy)
    (answers : Answers t) :
    Ends (do
      let bp ← bread dev (IBLOCK inum.toNat)
      let data ← bufData bp
      brelse bp
      pure (data.dinode (inum.toNat % IPB)) : Act Fault Bio Dinode) t
      (fun din u => din = dinodeAt t.sd.block inum.toNat ∧ u.busy = b.busy ∧ u.sd = t.sd)
      (NoSpin b) := by
  refine Ends.seq (bread_reads dev _ even answers) ?_
  rintro bp u ⟨taken, data, card⟩
  refine Ends.look ?_
  refine Ends.change (Ends.pure ⟨?_, ?_, card⟩)
  · rw [data]
    rfl
  · simp [taken.busy, ← taken.free]

theorem iget_walks (walking : Walking b s) (answers : Answers b) (dev : UInt32) {inum : UInt32}
    (low : inum.toNat < 2 ^ 16) :
    Ends (iget dev inum) s (fun i t => Walking b t ∧ 0 < (t.inode i).count) (NoSpin b) := by
  unfold iget
  refine Ends.look ?_
  simp only [id]
  cases found : findSlot s dev inum with
  | some i =>
      have held := (findSlot_some found).1
      unfold igetHit
      refine Ends.look ?_
      refine Ends.guard (fun _ _ => by simp) fun _ => ?_
      refine Ends.change (Ends.pure ⟨walking.setInode fun _ => walking.small.table i held, ?_⟩)
      simp only [State.setInode_inode, Function.update_self]
      omega
  | none =>
      cases freeSlot s with
      | none => exact Ends.fail fun _ => by simp
      | some i =>
          unfold igetMiss
          refine Ends.change ?_
          unfold igetLoad
          rw [Act.bind_assoc]
          have card : Answers s.bio := by
            rw [Answers, walking.card]
            exact answers
          refine Ends.seq (onBio_ends (readDinode_reads dev inum walking.even card)) ?_
          rintro din u ⟨⟨rfl, even, sd⟩, slots⟩
          refine Ends.change (Ends.pure ⟨?_, ?_⟩)
          · -- only the loaded slot is new, and it was read from the disk
            refine ⟨even, sd.trans walking.card, ?_, ?_⟩
            · intro n bound dir
              have same : u.bio.sd.block = s.disk := by
                rw [sd]
                rfl
              change (dinodeAt u.bio.sd.block n).type = T_DIR at dir
              change (dinodeAt u.bio.sd.block n).size.toNat ≤ _
              rw [same] at dir ⊢
              exact walking.small.disk n bound dir
            · intro j held dir
              by_cases here : j = i
              · subst here
                simp only [State.setInode_inode, Function.update_self] at dir ⊢
                exact walking.small.disk _ low dir
              · simp only [State.setInode_inode, Function.update_of_ne here, slots] at held dir ⊢
                exact walking.small.table j held dir
          · simp [slots]

theorem iput_walks (walking : Walking b s) (i : Fin NINODE) :
    Ends (iput i) s (fun _ t => Walking b t) (NoSpin b) := by
  have changed : Walking b (s.setInode i
      { s.inode i with count := (s.inode i).count - 1, busy := false }) := by
    apply walking.setInode
    intro held
    exact walking.small.table i (by simp only at held; omega)
  exact Ends.of_returned rfl ⟨changed.even, changed.card, changed.small.disk, changed.small.table⟩

theorem nameiWalk_even (walking : Walking b s) (answers : Answers b) (fuel : Nat)
    {dp : Fin NINODE} (held : 0 < (s.inode dp).count) (cp : List UInt8) :
    Ends (nameiWalk fuel dp cp) s (fun _ t => t.bio.busy = b.busy) (NoSpin b) := by
  induction fuel generalizing s dp cp with
  | zero => exact Ends.fail fun _ => by simp
  | succ fuel ih =>
      cases cp with
      | nil => exact Ends.fail fun _ => by simp
      | cons c cp =>
          unfold nameiWalk
          apply Ends.ite
          · exact fun _ => Ends.pure walking.even
          · intro _
            refine Ends.look ?_
            apply Ends.ite
            · intro _
              exact Ends.seq (iput_walks walking dp) fun _ t walking => Ends.pure walking.even
            · intro dir
              have small := walking.small.table dp held (not_not.mp dir)
              have card : Answers s.bio := by
                rw [Answers, walking.card]
                exact answers
              refine Ends.seq (onBio_ends (dirScan_even _ _ _ 0 small walking.even card)) ?_
              rintro hit t ⟨⟨even, sd⟩, slots⟩
              have walkingT : Walking b t := by
                refine ⟨even, sd.trans walking.card, ?_, ?_⟩
                · have same : t.disk = s.disk := congrArg Sd.block sd
                  rw [same]
                  exact walking.small.disk
                · rw [slots]
                  exact walking.small.table
              refine Ends.seq (iput_walks walkingT dp) fun _ u walkingU => ?_
              cases hit with
              | none => exact Ends.pure walkingU.even
              | some pair =>
                  obtain ⟨ninum, i⟩ := pair
                  have low : (UInt32.ofNat ninum.toNat).toNat < 2 ^ 16 := by
                    have bound := ninum.toNat_lt
                    rw [UInt32.toNat_ofNat_of_lt' (by simp only [UInt32.size]; omega)]
                    exact bound
                  refine Ends.seq (iget_walks walkingU answers _ low) ?_
                  rintro next v ⟨walkingV, heldV⟩
                  exact ih walkingV heldV _

theorem namei_even (path : List UInt8) (even : s.bio.busy = b.busy) (small : SmallDirs s)
    (answers : Answers s.bio) (same : s.bio.sd = b.sd) :
    Ends (namei path) s (fun _ t => t.bio.busy = b.busy) (NoSpin b) := by
  unfold namei
  have answersB : Answers b := by
    rw [Answers, ← same]
    exact answers
  refine Ends.seq (iget_walks ⟨even, same, small⟩ answersB rootdev (by decide)) ?_
  rintro dp t ⟨walking, held⟩
  exact nameiWalk_even walking answersB _ held _

end

/-! ## Runs -/

/-- The operations that take buffers, with their arguments. -/
inductive BufferOp where
  | balloc (dev : UInt32)
  | bfree (dev b : UInt32)
  | iget (dev inum : UInt32)
  | ialloc (dev : UInt32) (type : UInt16)
  | iupdate (i : Fin NINODE)
  | bmap (i : Fin NINODE) (bn : Nat)
  | readi (i : Fin NINODE) (off n : Nat)
  | writei (i : Fin NINODE) (src : List UInt8) (off : Nat)
  | namei (path : List UInt8)
  | mknod (dp : Fin NINODE) (path : List UInt8) (type major minor : UInt16)

namespace BufferOp

def run : BufferOp → Act Fault State Unit
  | .balloc dev => do let _ ← onBio (Fs.balloc dev)
  | .bfree dev b => onBio (Fs.bfree dev b)
  | .iget dev inum => do let _ ← Fs.iget dev inum
  | .ialloc dev type => do let _ ← Fs.ialloc dev type
  | .iupdate i => iupdateSlot i
  | .bmap i bn => do
      let ip ← inodeAt i
      let _ ← onBio (Fs.bmap ip bn)
  | .readi i off n => do let _ ← Fs.readi i off n
  | .writei i src off => do let _ ← Fs.writei i src off
  | .namei path => do let _ ← Fs.namei path
  | .mknod dp path type major minor => do let _ ← Fs.mknod dp path type major minor

/-- The operation asks for no block behind the direct ones. -/
def Direct (s : State) : BufferOp → Prop
  | .bmap _ bn => bn < NDIRECT
  | .readi i off n => (s.inode i).type = T_DEV ∨ ReadsDirect (s.inode i) off n
  | .writei i src off => (s.inode i).type = T_FILE → InDirect off src
  | .namei _ => SmallDirs s ∧ Answers s.bio
  | .mknod dp _ _ _ _ => (s.inode dp).size.toNat ≤ NDIRECT * BSIZE
  | _ => True

theorem even {s : State} {op : BufferOp} (direct : op.Direct s) :
    Ends op.run s (fun _ t => t.bio.busy = s.bio.busy) (NoSpin s.bio) := by
  cases op with
  | balloc dev => exact Ends.seq (onBio_even (balloc_even dev rfl)) fun _ _ even => Ends.pure even
  | bfree dev b => exact onBio_even (bfree_even dev b rfl)
  | iget dev inum => exact Ends.seq (iget_even dev inum rfl) fun _ _ met => Ends.pure met.1
  | ialloc dev type => exact Ends.seq (ialloc_even dev type rfl) fun _ _ met => Ends.pure met.1
  | iupdate i => exact (iupdateSlot_even i rfl).mono fun _ _ met => met.1
  | bmap i bn =>
      exact Ends.look (Ends.seq (onBio_even (bmap_even _ direct rfl)) fun _ _ even => Ends.pure even)
  | readi i off n => exact Ends.seq (readi_even i off n rfl direct) fun _ _ even => Ends.pure even
  | writei i src off => exact Ends.seq (writei_even i src off rfl direct) fun _ _ even => Ends.pure even
  | namei path =>
      exact Ends.seq (namei_even path rfl direct.1 direct.2 rfl) fun _ _ even => Ends.pure even
  | mknod dp path type major minor =>
      exact Ends.seq (mknod_even dp path type major minor direct rfl) fun _ _ even => Ends.pure even

end BufferOp

/-- One operation that asks for direct blocks only, or anything else that
leaves the flags of the buffers alone. -/
def BufferMove (s t : State) : Prop :=
  (∃ op : BufferOp, op.Direct s ∧ op.run s = .ok ((), t)) ∨ t.bio.busy = s.bio.busy

/-! ## Blocks behind the direct ones

The flags are ordered slot by slot: a larger map has more buffers taken. -/

theorem Taken.lt {s t : Bio} {i : Fin NBUF} (taken : Taken s t i) : s.busy < t.busy := by
  rw [taken.busy, lt_update_self_iff, taken.free]
  decide

/-- An indirect block stays in its buffer. -/
theorem bmap_keeps_buffer (ip : Inode) {bn : Nat} (indirect : NDIRECT ≤ bn) (s : Bio) :
    Ensures (bmap ip bn) s fun _ t => s.busy < t.busy := by
  unfold bmap
  rw [if_neg (Nat.not_lt.mpr indirect)]
  refine Ensures.seq (bread_takes (s := s) _ _ rfl).ensures fun i u taken => ?_
  refine Ensures.seq (m := fun _ t => t = u) (Ensures.reads rfl) ?_
  rintro buf _ rfl
  split
  · exact Ensures.pure taken.lt
  · exact Ensures.fail

theorem bmap_grows (ip : Inode) (bn : Nat) (s : Bio) :
    Ensures (bmap ip bn) s fun _ t => s.busy ≤ t.busy := by
  by_cases direct : bn < NDIRECT
  · exact (bmap_even ip direct rfl).ensures.mono fun _ _ even => even.ge
  · exact (bmap_keeps_buffer ip (Nat.not_lt.mp direct) s).mono fun _ _ more => more.le

theorem readiLoop_grows (ip : Inode) (fuel off n dst : Nat) (s : Bio) :
    Ensures (readiLoop ip fuel off n dst) s fun _ t => s.busy ≤ t.busy := by
  induction fuel generalizing off n dst s with
  | zero => exact Ensures.pure le_rfl
  | succ fuel ih =>
      unfold readiLoop
      apply Ensures.ite
      · intro _
        refine Ensures.seq (bmap_grows ip _ s) fun blk u more => ?_
        refine Ensures.seq (bread_takes (s := u) ip.dev _ rfl).ensures fun bp v taken => ?_
        refine Ensures.seq (m := fun _ w => w = v) (Ensures.reads rfl) ?_
        rintro data _ rfl
        refine Ensures.seq taken.brelse.ensures fun _ w even => ?_
        refine Ensures.seq (ih _ _ _ w) fun _ x grown => Ensures.pure ?_
        exact (more.trans_eq even.symm).trans grown
      · exact fun _ => Ensures.pure le_rfl

theorem readiLoop_leaks (ip : Inode) {fuel off n : Nat} (dst : Nat) (enough : n ≤ fuel)
    (behind : ¬ReadsDirect ip off n) (s : Bio) :
    Ensures (readiLoop ip fuel off n dst) s fun _ t => s.busy < t.busy := by
  induction fuel generalizing off n dst s with
  | zero => exact absurd (Or.inl (Nat.le_zero.mp enough)) behind
  | succ fuel ih =>
      simp only [ReadsDirect, not_or, not_le] at behind
      obtain ⟨some, inside, far⟩ := behind
      unfold readiLoop
      rw [if_pos ⟨Nat.pos_of_ne_zero some, inside⟩]
      by_cases direct : off / 512 < NDIRECT
      · -- the piece ends in the direct blocks, so the rest reaches behind them
        refine Ensures.seq (bmap_even (s := s) ip direct rfl).ensures fun blk u even => ?_
        refine Ensures.seq (bread_takes (s := s) ip.dev _ even).ensures fun bp v taken => ?_
        refine Ensures.seq (m := fun _ w => w = v) (Ensures.reads rfl) ?_
        rintro data _ rfl
        refine Ensures.seq taken.brelse.ensures fun _ w even => ?_
        have rest : ¬ReadsDirect ip (off + min (min n (ip.size.toNat - off)) (512 - off % 512))
            (n - min (min n (ip.size.toNat - off)) (512 - off % 512)) := by
          simp only [ReadsDirect, NDIRECT, BSIZE, not_or, not_le] at direct far ⊢
          omega
        refine Ensures.seq (ih _ ?_ rest w) fun _ x more => Ensures.pure ?_
        · omega
        · rw [← even]
          exact more
      · refine Ensures.seq (bmap_keeps_buffer ip (Nat.not_lt.mp direct) s) fun blk u more => ?_
        refine Ensures.seq (bread_takes (s := u) ip.dev _ rfl).ensures fun bp v taken => ?_
        refine Ensures.seq (m := fun _ w => w = v) (Ensures.reads rfl) ?_
        rintro data _ rfl
        refine Ensures.seq taken.brelse.ensures fun _ w even => ?_
        refine Ensures.seq (readiLoop_grows ip _ _ _ _ w) fun _ x grown => Ensures.pure ?_
        exact (more.trans_eq even.symm).trans_le grown

theorem readi_leaks {s : State} {i : Fin NINODE} {off n : Nat} (file : (s.inode i).type ≠ T_DEV)
    (behind : ¬ReadsDirect (s.inode i) off n) :
    Ensures (readi i off n) s fun _ t => s.bio.busy < t.bio.busy := by
  unfold readi
  refine Ensures.step (a := s.inode i) (t := s) rfl ?_
  rw [if_neg file]
  refine Ensures.seq (m := fun _ t => s.bio.busy < t.bio.busy)
    (Ensures.zoom (readiLoop_leaks (s.inode i) 0 (Nat.le_refl n) behind s.bio)) ?_
  rintro ⟨left, stores⟩ t more
  exact Ensures.pure more

theorem entryAlloc_taken {s t : Bio} {i : Fin NBUF} (dev : UInt32) (data : Block) (k : Nat)
    (taken : Taken s t i) : Ensures (entryAlloc dev data k) t fun _ u => Taken s u i := by
  unfold entryAlloc
  apply Ensures.ite
  · intro _
    refine Ensures.seq (balloc_even (s := t) dev rfl).ensures fun _ u even => Ensures.pure ?_
    exact ⟨taken.free, even.trans taken.busy⟩
  · exact fun _ => Ensures.pure taken

/-- The blocks are found evenly, also behind the direct ones. -/
theorem writeiMap_even (i : Fin NINODE) (lbn : Nat) (s : State) :
    Ensures (writeiMap i lbn) s fun _ t => t.bio.busy = s.bio.busy := by
  unfold writeiMap
  apply Ensures.ite
  · exact fun _ => (addrsAlloc_even i _ rfl).ensures
  · intro _
    unfold writeiIndirect
    refine Ensures.guard fun _ => ?_
    refine Ensures.seq (addrsAlloc_even (b := s.bio) i _ rfl).ensures fun _ t even => ?_
    refine Ensures.step (a := t.inode i) (t := t) rfl ?_
    refine Ensures.zoom ?_
    refine Ensures.seq (bread_takes (s := s.bio) _ _ even).ensures fun bp u taken => ?_
    refine Ensures.guard fun _ => ?_
    refine Ensures.step (a := (u.buf bp).data) (t := u) rfl ?_
    refine Ensures.seq (entryAlloc_taken _ _ _ taken) fun data v taken => ?_
    exact (taken.bstore _ _ _).ensures

theorem writeiStore_grows (ip : Inode) (off : Nat) (piece : List UInt8) (s : Bio) :
    Ensures (writeiStore ip off piece) s fun _ t =>
      s.busy ≤ t.busy ∧ (NDIRECT ≤ off / BSIZE → s.busy < t.busy) := by
  unfold writeiStore
  have mapped : Ensures (bmap ip (off / BSIZE)) s fun _ t =>
      s.busy ≤ t.busy ∧ (NDIRECT ≤ off / BSIZE → s.busy < t.busy) := by
    intro blk t returned
    exact ⟨bmap_grows ip _ s blk t returned,
      fun indirect => bmap_keeps_buffer ip indirect s blk t returned⟩
  refine Ensures.seq mapped fun source u found => ?_
  refine Ensures.seq (bread_takes (s := u) ip.dev _ rfl).ensures fun bp v taken => ?_
  refine Ensures.step (a := (v.buf bp).data) (t := v) rfl ?_
  refine Ensures.seq (taken.setBufData _).ensures fun _ w taken => ?_
  refine Ensures.seq (bmap_grows ip _ w) fun target x more => ?_
  refine Ensures.seq (m := fun _ y => y.busy = x.busy) (by rintro _ _ ⟨⟩; rfl) fun _ y same => ?_
  -- only the buffer of the block itself is given back
  have kept : u.busy ≤ Function.update y.busy bp false := by
    rw [same]
    refine le_update_iff.mpr ⟨taken.free.le, fun j different => ?_⟩
    have before : u.busy j = w.busy j := by
      rw [taken.busy, Function.update_of_ne different]
    rw [before]
    exact more j
  rintro _ _ ⟨⟩
  rw [setBuf_busy]
  exact ⟨found.1.trans kept, fun indirect => (found.2 indirect).trans_le kept⟩

theorem writeiLoop_grows (i : Fin NINODE) {fuel : Nat} (off : Nat) (src : List UInt8)
    (enough : src.length ≤ fuel) (s : State) :
    Ensures (writeiLoop i fuel off src) s fun _ t =>
      s.bio.busy ≤ t.bio.busy ∧ (¬InDirect off src → s.bio.busy < t.bio.busy) := by
  induction fuel generalizing off src s with
  | zero =>
      have nothing : src = [] := List.length_eq_zero_iff.mp (Nat.le_zero.mp enough)
      exact Ensures.pure ⟨le_rfl, fun behind => absurd (Or.inl nothing) behind⟩
  | succ fuel ih =>
      unfold writeiLoop
      apply Ensures.ite
      · intro nothing
        exact Ensures.pure ⟨le_rfl, fun behind => absurd (Or.inl nothing) behind⟩
      · intro some
        have positive : 0 < src.length := List.length_pos_iff.mpr some
        refine Ensures.seq (writeiMap_even i _ s) fun _ t even => ?_
        refine Ensures.step (a := t.inode i) (t := t) rfl ?_
        refine Ensures.seq (m := fun _ u => t.bio.busy ≤ u.bio.busy ∧
          (NDIRECT ≤ off / BSIZE → t.bio.busy < u.bio.busy))
          (Ensures.zoom (writeiStore_grows _ _ _ t.bio)) fun _ u stored => ?_
        rw [even] at stored
        refine (ih _ _ ?_ u).mono fun _ v rest => ⟨stored.1.trans rest.1, fun behind => ?_⟩
        · rw [List.length_drop]
          have piece : 0 < BSIZE - off % BSIZE := Nat.sub_pos_of_lt (Nat.mod_lt _ (by decide))
          omega
        · by_cases direct : off / BSIZE < NDIRECT
          · -- the piece ends in the direct blocks, so the rest reaches behind them
            refine stored.1.trans_lt (rest.2 ?_)
            simp only [InDirect, NDIRECT, BSIZE, not_or, not_le, List.drop_eq_nil_iff,
              List.length_drop] at direct behind ⊢
            omega
          · exact (stored.2 (Nat.not_lt.mp direct)).trans_le rest.1

theorem writei_leaks {s : State} {i : Fin NINODE} {src : List UInt8} {off : Nat}
    (file : (s.inode i).type = T_FILE) (behind : ¬InDirect off src) :
    Ensures (writei i src off) s fun _ t => s.bio.busy < t.bio.busy := by
  unfold writei
  refine Ensures.step (a := s.inode i) (t := s) rfl ?_
  have plain : (s.inode i).type ≠ T_DEV := by
    rw [file]
    decide
  rw [if_neg plain, if_pos file]
  unfold writeiFile
  refine Ensures.seq (writeiLoop_grows i off src le_rfl s) fun reached t grown => ?_
  refine Ensures.seq (m := fun _ u => u.bio = t.bio) (Ensures.modify rfl) fun _ u same => ?_
  refine Ensures.seq (iupdateSlot_even (b := u.bio) i rfl).ensures fun _ v even => Ensures.pure ?_
  rw [even.1, same]
  exact grown.2 behind

/-- The operations other than the two that look through directories. -/
def BufferOp.Plain : BufferOp → Prop
  | .namei _ => False
  | .mknod _ _ _ _ _ => False
  | _ => True

theorem BufferOp.leaks {s t : State} {op : BufferOp} (plain : op.Plain) (behind : ¬op.Direct s)
    (returned : op.run s = .ok ((), t)) : t.bio.busy ≠ s.bio.busy := by
  cases op with
  | bmap i bn =>
      obtain ⟨_, u, looked, rest⟩ := Act.bind_eq_ok.mp returned
      cases looked
      obtain ⟨_, v, mapped, last⟩ := Act.bind_eq_ok.mp rest
      cases last
      obtain ⟨w, found, rfl⟩ := Act.zoom_eq_ok.mp mapped
      exact (bmap_keeps_buffer _ (Nat.not_lt.mp behind) _ _ w found).ne'
  | readi i off n =>
      obtain ⟨file, behind⟩ := not_or.mp behind
      obtain ⟨_, u, read, last⟩ := Act.bind_eq_ok.mp returned
      cases last
      exact (readi_leaks file behind _ _ read).ne'
  | writei i src off =>
      obtain ⟨file, behind⟩ := Classical.not_imp.mp behind
      obtain ⟨_, u, written, last⟩ := Act.bind_eq_ok.mp returned
      cases last
      exact (writei_leaks file behind _ _ written).ne'
  | namei path => exact plain.elim
  | mknod dp path type major minor => exact plain.elim
  | balloc _ => exact absurd trivial behind
  | bfree _ _ => exact absurd trivial behind
  | iget _ _ => exact absurd trivial behind
  | ialloc _ _ => exact absurd trivial behind
  | iupdate _ => exact absurd trivial behind

/-- While only direct blocks are asked for, every operation that returns gives
back the buffers it has taken, and none waits for a buffer for ever. Apart
from the two that look through directories, an operation that returns gives
back what it has taken for direct blocks alone. -/
theorem buffers_balance (op : BufferOp) (s : State) :
    (∀ n, ReachIn (fun s : State => 1 ≤ s.bio.freeCount) BufferMove n s → op.Direct s →
      (∀ t, op.run s = .ok ((), t) → t.bio.busy = s.bio.busy) ∧ op.run s ≠ .error .spin) ∧
    (op.Plain → ∀ t, op.run s = .ok ((), t) → (t.bio.busy = s.bio.busy ↔ op.Direct s)) := by
  constructor
  · intro n run direct
    have room : 1 ≤ s.bio.freeCount := by
      refine run.invariant (h := fun s : State => 1 ≤ s.bio.freeCount) (fun _ start => start) ?_
      rintro s t room (⟨op, direct, returned⟩ | same)
      · have even := (BufferOp.even direct).ensures () t returned
        rw [freeCount_congr even]
        exact room
      · rw [freeCount_congr same]
        exact room
    have ends := BufferOp.even direct
    exact ⟨fun t returned => ends.ensures () t returned,
      fun stopped => ends.stopped stopped room rfl⟩
  · intro plain t returned
    constructor
    · intro even
      by_contra behind
      exact BufferOp.leaks plain behind returned even
    · intro direct
      exact (BufferOp.even direct).ensures () t returned

/-- A file of 32 blocks in the first slot, all buffers free. -/
def longFile : State :=
  (State.loaded fun _ => Block.zero).setInode ⟨0, NINODE_pos⟩
    { Inode.zero with
      dev := 1, inum := 1, count := 1, type := T_FILE, size := 16384
      addrs := fun k => UInt32.ofNat (40 + k.val) }

/-- The same byte of the last block of a file, over and over. -/
def rereads : Nat → Act Fault State Unit
  | 0 => pure ()
  | n + 1 => do
      (BufferOp.readi ⟨0, NINODE_pos⟩ 15872 1).run
      rereads n

theorem buffers_balance_longFile :
    BufferOp.run (.readi ⟨0, NINODE_pos⟩ 0 15872) longFile ≠ .error .spin := by
  have start : ReachIn (fun s : State => 1 ≤ s.bio.freeCount) BufferMove 0 longFile :=
    .start (by decide +kernel)
  exact ((buffers_balance (.readi ⟨0, NINODE_pos⟩ 0 15872) longFile).1 0 start
    (Or.inr (Or.inr (Or.inr (by decide +kernel))))).2

/-- One byte read from the last block of a file leaves a buffer taken; the
tenth such read waits for a buffer for ever. -/
theorem readi_takes_the_buffers :
    (∃ t, (BufferOp.readi ⟨0, NINODE_pos⟩ 15872 1).run longFile = .ok ((), t) ∧
      t.bio.busy ≠ longFile.bio.busy) ∧
    longFile.bio.freeCount = NBUF ∧ rereads NBUF longFile = .error .spin := by
  have facts : (BufferOp.run (.readi ⟨0, NINODE_pos⟩ 15872 1)).returns longFile = true ∧
      ((BufferOp.run (.readi ⟨0, NINODE_pos⟩ 15872 1)).after longFile).bio.busy ≠
        longFile.bio.busy ∧ longFile.bio.freeCount = NBUF ∧
      (rereads NBUF).stopOf longFile = some .spin := by
    decide +kernel
  obtain ⟨returned, changed, free, stuck⟩ := facts
  obtain ⟨_, same⟩ := Act.returns_after _ _ returned
  exact ⟨⟨_, same, changed⟩, free, Act.error_of_stopOf stuck⟩

end Gcgos.Fs
