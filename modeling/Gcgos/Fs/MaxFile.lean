import Gcgos.Fs.File
import Gcgos.Fs.Table

/-!
# The largest file

`writei` compares the index into the indirect block with `NINDIRECT` by `>`,
in every turn of its loop. The index `NINDIRECT` itself passes the check. So a
write stops with the panic before it leaves the indirect block exactly when it
starts behind the block at `MAXFILE`; one that reaches that block from below or
starts in it never stops with the panic.
-/

set_option autoImplicit false

namespace Gcgos.Fs

open Act Bio

/-- The write has a byte behind the largest file. -/
def PastLimit (off n : Nat) : Prop := 0 < n ∧ MAXFILE * BSIZE < off + n

/-- A write of `src` at `off` that reaches past the largest file stops with the
panic, and none leaves the indirect block. -/
def KeepsLimit (s : State) (i : Fin NINODE) (src : List UInt8) (off : Nat) : Prop :=
  (PastLimit off src.length → writei i src off s = .error (.panic "writei:MAXFILE")) ∧
    writei i src off s ≠ .error .bounds

/-- Neither the check in front of the indirect block nor an index outside of
it is what ended the call. -/
def Elsewhere (stop : Fault) : Prop := stop ≠ .panic "writei:MAXFILE" ∧ stop ≠ .bounds

theorem bread_elsewhere (dev : UInt32) (sector : Nat) (s : Bio) :
    Ends (bread dev sector) s (fun _ _ => True) Elsewhere := by
  unfold bread
  refine Ends.seq (m := fun _ _ => True) ?_ fun b t _ => Ends.of_returned rfl trivial
  unfold Ends getblk
  cases (List.finRange NBUF).find? fun i => !(s.buf i).busy with
  | some i => trivial
  | none => exact ⟨by simp, by simp⟩

theorem ballocScan_elsewhere (dev ninodes : UInt32) (fuel b : Nat) (bp : Fin NBUF) (s : Bio) :
    Ends (ballocScan dev ninodes fuel b bp) s (fun _ _ => True) Elsewhere := by
  induction fuel generalizing b bp s with
  | zero => exact Ends.pure trivial
  | succ fuel ih =>
      unfold ballocScan
      refine Ends.seq (m := fun _ _ => True) ?_ fun bp t _ => ?_
      · unfold ballocTurn
        apply Ends.ite
        · exact fun _ => bread_elsewhere dev _ _
        · exact fun _ => Ends.pure trivial
      · refine Ends.look ?_
        apply Ends.ite
        · exact fun _ => Ends.pure trivial
        · exact fun _ => ih (b + 1) bp t

theorem balloc_elsewhere (dev : UInt32) (s : Bio) :
    Ends (balloc dev) s (fun _ _ => True) Elsewhere := by
  unfold balloc
  refine Ends.seq (bread_elsewhere dev 1 s) fun bp t _ => ?_
  refine Ends.look ?_
  refine Ends.seq (ballocScan_elsewhere dev _ _ 0 bp t) fun found u _ => ?_
  refine Ends.guard (fun _ => ⟨by simp, by simp⟩) fun _ => ?_
  exact Ends.of_returned rfl trivial

theorem addrsAlloc_elsewhere (i : Fin NINODE) (k : Fin (NDIRECT + 1)) (s : State) :
    Ends (addrsAlloc i k) s (fun _ _ => True) Elsewhere := by
  unfold addrsAlloc
  refine Ends.look ?_
  apply Ends.ite
  · intro _
    refine Ends.seq (m := fun _ _ => True) (Ends.zoom (balloc_elsewhere _ s.bio)) ?_
    exact fun b t _ => Ends.of_returned rfl trivial
  · exact fun _ => Ends.pure trivial

/-- The indirect half for an index that the panic does not stop. It returns
only when the index is inside the block. -/
theorem writeiIndirect_ends (i : Fin NINODE) {k : Nat} (bound : k ≤ NINDIRECT) (s : State) :
    Ends (writeiIndirect i k) s (fun _ _ => k < NINDIRECT) fun stop =>
      stop ≠ .panic "writei:MAXFILE" ∧ (k < NINDIRECT → stop ≠ .bounds) := by
  have wider : ∀ stop, Elsewhere stop →
      stop ≠ .panic "writei:MAXFILE" ∧ (k < NINDIRECT → stop ≠ .bounds) :=
    fun _ away => ⟨away.1, fun _ => away.2⟩
  unfold writeiIndirect
  refine Ends.guard (fun past => absurd past (by omega)) fun _ => ?_
  refine Ends.seq ((addrsAlloc_elsewhere i indirectSlot s).weaken wider) fun _ t _ => ?_
  refine Ends.look (Ends.zoom ?_)
  refine Ends.seq ((bread_elsewhere _ _ t.bio).weaken wider) fun bp u _ => ?_
  refine Ends.guard (fun past => ⟨by simp, fun inside => absurd inside (by omega)⟩) fun inside => ?_
  refine Ends.look ?_
  refine Ends.seq (m := fun _ _ => True) ?_ fun data v _ =>
    Ends.of_returned rfl (Nat.not_le.mp inside)
  unfold entryAlloc
  apply Ends.ite
  · intro _
    refine Ends.seq ((balloc_elsewhere _ _).weaken wider) fun b v _ => Ends.pure trivial
  · exact fun _ => Ends.pure trivial

/-- A block of the file up to the one at `MAXFILE`. -/
theorem writeiMap_ends (i : Fin NINODE) {lbn : Nat} (bound : lbn ≤ MAXFILE) (s : State) :
    Ends (writeiMap i lbn) s (fun _ _ => lbn < MAXFILE) fun stop =>
      stop ≠ .panic "writei:MAXFILE" ∧ (lbn < MAXFILE → stop ≠ .bounds) := by
  simp only [MAXFILE] at *
  unfold writeiMap
  apply Ends.ite
  · intro direct
    refine ((addrsAlloc_elsewhere i _ s).weaken fun _ away => ⟨away.1, fun _ => away.2⟩).mono ?_
    intro _ _ _
    omega
  · intro indirect
    refine ((writeiIndirect_ends i (k := lbn - NDIRECT) (by omega) s).weaken ?_).mono ?_
    · rintro stop ⟨checked, inside⟩
      exact ⟨checked, fun low => inside (by omega)⟩
    · intro _ _ inside
      omega

theorem bmap_elsewhere (ip : Inode) {bn : Nat} (bound : bn < MAXFILE) (s : Bio) :
    Ends (bmap ip bn) s (fun _ _ => True) Elsewhere := by
  unfold bmap
  apply Ends.ite
  · exact fun _ => Ends.pure trivial
  · intro _
    refine Ends.seq (bread_elsewhere ip.dev _ s) fun b t _ => ?_
    refine Ends.look ?_
    have there : ∃ x, (t.buf b).word (bn - NDIRECT) = some x := by
      unfold Buf.word
      simp only [MAXFILE] at bound
      by_cases first : bn - NDIRECT = 0
      · exact ⟨_, if_pos first⟩
      · rw [if_neg first, if_pos (by omega)]
        exact ⟨_, rfl⟩
    obtain ⟨x, word⟩ := there
    rw [word]
    exact Ends.pure trivial

theorem writeiStore_elsewhere (ip : Inode) {off : Nat} (piece : List UInt8)
    (bound : off / BSIZE < MAXFILE) (s : Bio) :
    Ends (writeiStore ip off piece) s (fun _ _ => True) Elsewhere := by
  unfold writeiStore
  refine Ends.seq (bmap_elsewhere ip bound s) fun source t _ => ?_
  refine Ends.seq (bread_elsewhere ip.dev _ t) fun bp u _ => ?_
  refine Ends.look (Ends.change ?_)
  exact Ends.seq (bmap_elsewhere ip bound _) fun target v _ => Ends.of_returned rfl trivial

/-- A loop that starts below the block behind `MAXFILE` never sees the panic,
and leaves the indirect block only when it reaches past the largest file. -/
theorem writeiLoop_ends (i : Fin NINODE) (fuel off : Nat) (src : List UInt8)
    (low : src ≠ [] → off < (MAXFILE + 1) * BSIZE) (s : State) :
    Ends (writeiLoop i fuel off src) s (fun _ _ => True) fun stop =>
      stop ≠ .panic "writei:MAXFILE" ∧ (¬PastLimit off src.length → stop ≠ .bounds) := by
  induction fuel generalizing off src s with
  | zero => exact Ends.pure trivial
  | succ fuel ih =>
      unfold writeiLoop
      apply Ends.ite
      · exact fun _ => Ends.pure trivial
      · intro some
        have positive : 0 < src.length := List.length_pos_iff.mpr some
        have start := low some
        have block : off / BSIZE ≤ MAXFILE := by
          simp only [MAXFILE, BSIZE] at *
          omega
        have inside : ¬PastLimit off src.length → off / BSIZE < MAXFILE := by
          unfold PastLimit
          simp only [MAXFILE, BSIZE] at *
          omega
        refine Ends.seq ((writeiMap_ends i block s).weaken ?_) fun _ t below => ?_
        · rintro stop ⟨checked, index⟩
          exact ⟨checked, fun within => index (inside within)⟩
        refine Ends.look ?_
        refine Ends.seq (m := fun _ _ => True)
          (Ends.zoom ((writeiStore_elsewhere _ _ below t.bio).weaken ?_)) fun _ u _ => ?_
        · exact fun _ away => ⟨away.1, fun _ => away.2⟩
        · refine (ih _ _ (fun _ => ?_) u).weaken ?_
          · simp only [MAXFILE, BSIZE] at *
            omega
          · rintro stop ⟨checked, index⟩
            refine ⟨checked, fun within => index fun past => within ⟨positive, ?_⟩⟩
            have reach := past.2
            rw [List.length_drop] at reach
            omega

theorem iupdateSlot_elsewhere (i : Fin NINODE) (s : State) :
    Ends (iupdateSlot i) s (fun _ _ => True) Elsewhere := by
  unfold iupdateSlot
  refine Ends.look (Ends.zoom ?_)
  unfold iupdate
  exact Ends.seq (bread_elsewhere _ _ _) fun bp t _ => Ends.of_returned rfl trivial

section

variable {s : State} {i : Fin NINODE}

theorem writei_file (file : (s.inode i).type = T_FILE) (src : List UInt8) (off : Nat) :
    writei i src off s = writeiFile i src off s := by
  unfold writei
  rw [Act.bind_of_ok (f := inodeAt i) rfl, if_neg (by rw [file]; decide), if_pos file]

/-- A write that starts below the block behind `MAXFILE`. -/
theorem writei_ends (file : (s.inode i).type = T_FILE) {src : List UInt8} {off : Nat}
    (low : src ≠ [] → off < (MAXFILE + 1) * BSIZE) :
    Ends (writei i src off) s (fun _ _ => True) fun stop =>
      stop ≠ .panic "writei:MAXFILE" ∧ (¬PastLimit off src.length → stop ≠ .bounds) := by
  refine Ends.congr (writei_file file src off) ?_
  unfold writeiFile
  refine Ends.seq (writeiLoop_ends i _ off src low s) fun reached t _ => ?_
  refine Ends.change ?_
  refine Ends.seq ((iupdateSlot_elsewhere i _).weaken ?_) fun _ u _ => Ends.pure trivial
  exact fun _ away => ⟨away.1, fun _ => away.2⟩

/-- Behind that block the first turn panics. -/
theorem writei_panics (file : (s.inode i).type = T_FILE) {src : List UInt8} {off : Nat}
    (some : src ≠ []) (high : (MAXFILE + 1) * BSIZE ≤ off) :
    writei i src off s = .error (.panic "writei:MAXFILE") := by
  have loop : ∀ fuel, src.length ≤ fuel →
      writeiLoop i fuel off src s = .error (.panic "writei:MAXFILE") := by
    intro fuel enough
    obtain ⟨fuel, rfl⟩ : ∃ less, fuel = less + 1 := by
      have positive : 0 < src.length := List.length_pos_iff.mpr some
      exact ⟨fuel - 1, by omega⟩
    have mapped : writeiMap i (off / BSIZE) s = .error (.panic "writei:MAXFILE") := by
      simp only [MAXFILE, NDIRECT, NINDIRECT, BSIZE] at high
      unfold writeiMap writeiIndirect
      rw [if_neg (by simp only [NDIRECT, BSIZE]; omega)]
      exact Act.bind_of_error (Act.stopIf_of _ s (by simp only [NDIRECT, NINDIRECT, BSIZE]; omega))
    unfold writeiLoop
    rw [if_neg some]
    exact Act.bind_of_error mapped
  rw [writei_file file]
  unfold writeiFile
  exact Act.bind_of_error (loop _ le_rfl)

/-- The limit is kept by the writes that stay below it and by those that start
behind the first block above it. -/
theorem writei_limit_iff (file : (s.inode i).type = T_FILE) (src : List UInt8) (off : Nat) :
    KeepsLimit s i src off ↔
      src = [] ∨ off + src.length ≤ MAXFILE * BSIZE ∨ (MAXFILE + 1) * BSIZE ≤ off := by
  constructor
  · rintro ⟨panics, -⟩
    by_contra apart
    obtain ⟨some, reaches, low⟩ : src ≠ [] ∧ MAXFILE * BSIZE < off + src.length ∧
        off < (MAXFILE + 1) * BSIZE := by
      simpa only [not_or, Nat.not_le] using apart
    have panicked := panics ⟨List.length_pos_iff.mpr some, reaches⟩
    exact ((writei_ends file fun _ => low).stopped panicked).1 rfl
  · by_cases behind : src ≠ [] ∧ (MAXFILE + 1) * BSIZE ≤ off
    · intro _
      have panicked := writei_panics file behind.1 behind.2
      exact ⟨fun _ => panicked, by rw [panicked]; simp⟩
    · intro kept
      have within : ¬PastLimit off src.length := by
        rintro ⟨positive, reaches⟩
        rcases kept with none | below | high
        · rw [none] at positive
          exact absurd positive (Nat.lt_irrefl 0)
        · omega
        · exact behind ⟨List.length_pos_iff.mp positive, high⟩
      refine ⟨fun past => absurd past within, fun stopped => ?_⟩
      have low : src ≠ [] → off < (MAXFILE + 1) * BSIZE :=
        fun some => Nat.not_le.mp fun high => behind ⟨some, high⟩
      exact ((writei_ends file low).stopped stopped).2 within rfl

end

/-- A file in slot 0 with an indirect block at 50. -/
def indirectFile : State :=
  (State.loaded fun _ => Block.zero).setInode ⟨0, NINODE_pos⟩
    { Inode.zero with
      dev := 1, inum := 1, count := 1, type := T_FILE
      addrs := fun k => if k = indirectSlot then 50 else 0 }

/-- The byte right behind the largest file: its block number would be the word
behind the indirect block. -/
theorem writei_limit_overrun :
    (indirectFile.inode 0).type = T_FILE ∧ writei 0 [7] 81408 indirectFile = .error .bounds ∧
      ¬KeepsLimit indirectFile 0 [7] 81408 := by
  have overrun : writei 0 [7] 81408 indirectFile = .error .bounds :=
    Act.error_of_stopOf (by decide +kernel)
  exact ⟨by decide +kernel, overrun, fun kept => kept.2 overrun⟩

/-- One block further on the write stops with the panic. -/
theorem writei_limit_behind : KeepsLimit indirectFile 0 [7] 81920 :=
  (writei_limit_iff (by decide +kernel) [7] 81920).mpr (Or.inr (Or.inr (by decide)))

end Gcgos.Fs
