import Gcgos.Fs.File

/-!
# Where `readi` stores

The destination cursor of `readi` moves twice over every piece. A read within
one block of the file stores byte `k` at distance `k`. A read over several
blocks leaves a gap as long as the first piece behind it.
-/

set_option autoImplicit false

namespace Gcgos.Fs

open Act Bio

/-- The bytes that `readi` finds in a file of this size. -/
def available (size off n : Nat) : Nat := min n (size - off)

/-- The bytes of the first piece. -/
def firstPiece (size off n : Nat) : Nat := min (available size off n) (512 - off % 512)

theorem readiLoop_done (ip : Inode) (fuel : Nat) {off n : Nat} (dst : Nat) (b : Bio)
    (done : available ip.size.toNat off n = 0) :
    readiLoop ip fuel off n dst b = .ok ((n, []), b) := by
  cases fuel with
  | zero => rfl
  | succ fuel =>
      unfold available at done
      rw [readiLoop, if_neg (by omega)]
      rfl

/-- One turn: the first piece, and what the rest of the loop stores. -/
theorem readiLoop_step (ip : Inode) (fuel off n dst : Nat) (b : Bio)
    (more : 0 < available ip.size.toNat off n) {post : Nat × List (Nat × UInt8) → Bio → Prop}
    (rest : ∀ (piece : List (Nat × UInt8)) (c : Bio),
      piece.map Prod.fst = (List.range (firstPiece ip.size.toNat off n)).map (dst + ·) →
      Ensures (readiLoop ip fuel (off + firstPiece ip.size.toNat off n)
          (n - firstPiece ip.size.toNat off n) (dst + 2 * firstPiece ip.size.toNat off n)) c
        fun result t => post (result.1, piece ++ result.2) t) :
    Ensures (readiLoop ip (fuel + 1) off n dst) b post := by
  have entered : 0 < n ∧ off < ip.size.toNat := by
    unfold available at more
    omega
  rw [readiLoop, if_pos entered]
  refine Ensures.seq (m := fun _ _ => True) (fun _ _ _ => trivial) ?_
  intro blk c _
  refine Ensures.seq (m := fun _ _ => True) (fun _ _ _ => trivial) ?_
  intro bp c _
  refine Ensures.seq (m := fun _ _ => True) (fun _ _ _ => trivial) ?_
  intro data c _
  refine Ensures.seq (m := fun _ _ => True) (fun _ _ _ => trivial) ?_
  intro _ c _
  have turn := rest ((List.range (firstPiece ip.size.toNat off n)).map fun k =>
    (dst + k, data.byte (off % 512 + k))) c (by rw [List.map_map]; rfl)
  rw [Nat.two_mul, ← Nat.add_assoc] at turn
  refine Ensures.seq turn ?_
  rintro ⟨left, stores⟩ t met
  exact Ensures.pure met

/-- What `readi` copies is what the file has. -/
theorem readiLoop_length (ip : Inode) (fuel off n dst : Nat) (b : Bio) (enough : n ≤ fuel) :
    Ensures (readiLoop ip fuel off n dst) b fun result _ =>
      result.2.length = available ip.size.toNat off n := by
  induction fuel generalizing off n dst b with
  | zero =>
      apply Ensures.pure
      unfold available
      rw [show n = 0 by omega, Nat.zero_min]
      rfl
  | succ fuel ih =>
      by_cases more : 0 < available ip.size.toNat off n
      · refine readiLoop_step ip fuel off n dst b more ?_
        intro piece c distances
        have size : piece.length = firstPiece ip.size.toNat off n := by
          simpa using congrArg List.length distances
        unfold firstPiece available at *
        refine (ih _ _ _ c (by omega)).mono ?_
        intro result _ rest
        rw [List.length_append, size, rest]
        omega
      · intro result t returned
        rw [readiLoop_done ip (fuel + 1) dst b (by omega)] at returned
        cases returned
        rw [List.length_nil]
        omega

theorem readiLoop_behind (ip : Inode) (fuel off n dst : Nat) (b : Bio) :
    Ensures (readiLoop ip fuel off n dst) b fun result _ =>
      ∀ store ∈ result.2, dst ≤ store.1 := by
  induction fuel generalizing off n dst b with
  | zero =>
      apply Ensures.pure
      simp
  | succ fuel ih =>
      by_cases more : 0 < available ip.size.toNat off n
      · refine readiLoop_step ip fuel off n dst b more ?_
        intro piece c distances
        refine (ih _ _ _ c).mono ?_
        intro result _ behind store member
        rcases List.mem_append.mp member with first | later
        · have distance : store.1 ∈ piece.map Prod.fst := List.mem_map_of_mem first
          rw [distances] at distance
          obtain ⟨k, _, same⟩ := List.mem_map.mp distance
          omega
        · have bound := behind store later
          omega
      · intro result t returned
        rw [readiLoop_done ip (fuel + 1) dst b (by omega)] at returned
        cases returned
        simp

/-- A read within one block stores its bytes one after the other. -/
theorem readiLoop_one_block (ip : Inode) (fuel off n dst : Nat) (b : Bio) (enough : n ≤ fuel)
    (inside : off % 512 + available ip.size.toNat off n ≤ 512) :
    Ensures (readiLoop ip fuel off n dst) b fun result _ =>
      result.2.map Prod.fst = (List.range (available ip.size.toNat off n)).map (dst + ·) := by
  by_cases more : 0 < available ip.size.toNat off n
  · obtain ⟨fuel, rfl⟩ : ∃ less, fuel = less + 1 := by
      refine ⟨fuel - 1, ?_⟩
      unfold available at more
      omega
    have whole : firstPiece ip.size.toNat off n = available ip.size.toNat off n := by
      unfold firstPiece
      omega
    refine readiLoop_step ip fuel off n dst b more ?_
    rw [whole]
    intro piece c distances result t returned
    rw [readiLoop_done ip fuel _ c (by unfold available; omega)] at returned
    cases returned
    rw [List.append_nil, distances]
  · intro result t returned
    have none : available ip.size.toNat off n = 0 := by omega
    rw [readiLoop_done ip fuel dst b none] at returned
    cases returned
    rw [none]
    rfl

/-- A read over several blocks stores nothing right behind the first piece. -/
theorem readiLoop_gap (ip : Inode) (fuel off n dst : Nat) (b : Bio) (enough : n ≤ fuel)
    (across : 512 < off % 512 + available ip.size.toNat off n) :
    Ensures (readiLoop ip fuel off n dst) b fun result _ =>
      ∀ store ∈ result.2, store.1 ≠ dst + (512 - off % 512) := by
  obtain ⟨fuel, rfl⟩ : ∃ less, fuel = less + 1 := by
    refine ⟨fuel - 1, ?_⟩
    unfold available at across
    omega
  have whole : firstPiece ip.size.toNat off n = 512 - off % 512 := by
    unfold firstPiece
    omega
  refine readiLoop_step ip fuel off n dst b (by omega) ?_
  rw [whole]
  intro piece c distances
  refine (readiLoop_behind ip fuel _ _ _ c).mono ?_
  intro result _ behind store member
  rcases List.mem_append.mp member with first | later
  · have distance : store.1 ∈ piece.map Prod.fst := List.mem_map_of_mem first
    rw [distances] at distance
    obtain ⟨k, bound, same⟩ := List.mem_map.mp distance
    have below := List.mem_range.mp bound
    omega
  · have bound := behind store later
    omega

theorem consoleReadLoop_length {fuel i : Nat} {cons after : Cons} {bytes : List UInt8}
    (returned : consoleReadLoop fuel i cons = .ok (bytes, after)) : bytes.length ≤ fuel := by
  induction fuel generalizing i cons bytes with
  | zero =>
      cases returned
      exact le_rfl
  | succ fuel ih =>
      unfold consoleReadLoop at returned
      split at returned
      · split at returned
        · cases returned
          exact Nat.zero_le _
        · dsimp only at returned
          split at returned
          · rename_i more rest loop
            cases returned
            exact Nat.succ_le_succ (ih loop)
          · cases returned
      · cases returned

/-- The read stays within one block of the file, or goes to a device. -/
def OneBlock (ip : Inode) (off n : Nat) : Prop :=
  ip.type = T_DEV ∨ off % 512 + available ip.size.toNat off n ≤ 512

/-- Byte `k` is stored at distance `k`. -/
theorem readi_contiguous {s : State} (i : Fin NINODE) {off n : Nat} (small : n < 2 ^ 31)
    (block : OneBlock (s.inode i) off n) :
    Ensures (readi i off n) s fun result _ =>
      ∃ count ≤ n, result.2.map Prod.fst = List.range count := by
  unfold readi
  refine Ensures.step (a := s.inode i) (t := s) rfl ?_
  apply Ensures.ite
  · intro _
    apply Ensures.ite
    · intro _ result t returned
      unfold consoleRead at returned
      split at returned
      · cases returned
      · split at returned
        · rename_i bytes cons loop
          cases returned
          have short := consoleReadLoop_length loop
          rw [asInt, if_pos small, Int.toNat_natCast] at short
          refine ⟨bytes.length, short, ?_⟩
          exact List.map_fst_zip (by simp)
        · cases returned
    · intro _
      exact Ensures.pure ⟨0, Nat.zero_le n, rfl⟩
  · intro file
    have inside := block.resolve_left file
    refine Ensures.seq (m := fun result _ => result.2.map Prod.fst =
      (List.range (available (s.inode i).size.toNat off n)).map (0 + ·)) ?_ ?_
    · exact Ensures.zoom ((readiLoop_one_block (s.inode i) n off n 0 s.bio le_rfl inside).mono
        fun _ _ same => same)
    · rintro ⟨left, stores⟩ t distances
      apply Ensures.pure
      refine ⟨available (s.inode i).size.toNat off n, by unfold available; omega, ?_⟩
      simpa using distances

/-- The byte behind the first piece is stored further on. -/
theorem readi_gap {s : State} (i : Fin NINODE) {off n : Nat}
    (across : ¬OneBlock (s.inode i) off n) :
    Ensures (readi i off n) s fun result _ =>
      512 - off % 512 < result.2.length ∧ result.2.length ≤ n ∧
        ∀ store ∈ result.2, store.1 ≠ 512 - off % 512 := by
  obtain ⟨file, outside⟩ := not_or.mp across
  have past := Nat.not_le.mp outside
  unfold readi
  refine Ensures.step (a := s.inode i) (t := s) rfl ?_
  rw [if_neg file]
  refine Ensures.seq (m := fun result _ =>
    result.2.length = available (s.inode i).size.toNat off n ∧
      ∀ store ∈ result.2, store.1 ≠ 0 + (512 - off % 512)) ?_ ?_
  · apply Ensures.zoom
    intro result t returned
    exact ⟨readiLoop_length (s.inode i) n off n 0 s.bio le_rfl result t returned,
      readiLoop_gap (s.inode i) n off n 0 s.bio le_rfl past result t returned⟩
  · rintro ⟨left, stores⟩ t ⟨length, gap⟩
    apply Ensures.pure
    rw [Nat.zero_add] at gap
    have within : available (s.inode i).size.toNat off n ≤ n := Nat.min_le_left _ _
    simp only at length
    exact ⟨by simp only; omega, by simp only; omega, gap⟩

end Gcgos.Fs
