import Gcgos.Kernel.Stores

/-!
# The layout of the argument block

`kexec` lays the argument strings and the pointers to them out below the top of
the stack page. It goes down with two cursors: `dsp`, where it stores, and
`align_sz`, the address that the user will see. The cursors move by the length
of a string and by that length with its NUL. This is arithmetic on lengths: when
the two agree, and when what is stored at them stays apart.
-/

set_option autoImplicit false

namespace Gcgos.Kernel

open Act ByteMap

/-- The next multiple of 16. -/
def up16 (n : Nat) : Nat := (n + 15) / 16 * 16

/-- A cursor that starts at `top` and goes down by the length of each string and
`extra` bytes; the last string comes first. -/
def lowered (extra top : Nat) : (strings : List (List UInt8)) → Nat
  | [] => top
  | string :: rest => alignDown (lowered extra top rest) (string.length + extra)

/-- How far the cursor has gone down. -/
def depth (extra : Nat) (strings : List (List UInt8)) : Nat :=
  (strings.map fun string => up16 (string.length + extra)).sum

/-- The entries of `ustack` before the null pointer. -/
def ustackOf (top : Nat) : (strings : List (List UInt8)) → List Nat
  | [] => []
  | string :: rest => lowered 1 top (string :: rest) :: ustackOf top rest

/-- The strings as they are stored, each with its NUL: where a store begins and
how long it is. -/
def stringRegions (top : Nat) : (strings : List (List UInt8)) → List (Nat × Nat)
  | [] => []
  | string :: rest => (lowered 0 top (string :: rest), string.length + 1) :: stringRegions top rest

/-- Where `ustack` is copied to. -/
def ustackAt (top : Nat) (strings : List (List UInt8)) : Nat :=
  alignDown (lowered 0 top strings) (8 * strings.length)

/-- All that is stored below `top`, the pointers and the strings. -/
def blockRegions (top : Nat) (strings : List (List UInt8)) : List (Nat × Nat) :=
  (ustackAt top strings, 8 * (strings.length + 1)) :: stringRegions top strings

/-- The strings with their NULs, the padding, and the pointers. -/
def blockSize (strings : List (List UInt8)) : Nat :=
  depth 1 strings + up16 (8 * (strings.length + 1))

/-- Two regions do not meet. -/
def RegionsApart (left right : Nat × Nat) : Prop :=
  left.1 + left.2 ≤ right.1 ∨ right.1 + right.2 ≤ left.1

/-- What is stored lies in the page, and nothing is stored twice. -/
structure PageRegions (pg : Nat) (regions : List (Nat × Nat)) : Prop where
  inside : InPage pg regions
  apart : regions.Pairwise RegionsApart

/-- The lengths for which the block comes out right: both cursors move by the
same steps, and the null pointer falls into the padding. -/
def GoodLengths (strings : List (List UInt8)) : Prop :=
  strings.length % 2 = 1 ∧ ∀ string ∈ strings, string.length % 16 ≠ 0

/-- The block stays in its page: it has room there, there is an argument, and
the NUL of the last one falls into its padding. -/
structure StackFits (strings : List (List UInt8)) : Prop where
  room : depth 0 strings + up16 (8 * strings.length) ≤ PGSIZE
  some_string : strings ≠ []
  padded : ∀ last ∈ strings.getLast?, last.length % 16 ≠ 0

instance (strings : List (List UInt8)) : Decidable (GoodLengths strings) :=
  inferInstanceAs (Decidable (_ ∧ _))

theorem alignDown_eq {x n : Nat} (aligned : x % 16 = 0) (small : x < 2 ^ 64) (room : n ≤ x) :
    alignDown x n = x - up16 n := by
  unfold alignDown up16
  have whole : n % 2 ^ 64 = n := Nat.mod_eq_of_lt (by omega)
  rw [whole]
  omega

theorem depth_cons (extra : Nat) (string : List UInt8) (rest : List (List UInt8)) :
    depth extra (string :: rest) = up16 (string.length + extra) + depth extra rest := by
  simp [depth]

theorem depth_mod (extra : Nat) (strings : List (List UInt8)) : depth extra strings % 16 = 0 := by
  induction strings with
  | nil => rfl
  | cons string rest ih =>
      rw [depth_cons]
      unfold up16
      omega

/-- Without the NULs the cursor goes down less. -/
theorem depth_le (strings : List (List UInt8)) : depth 0 strings ≤ depth 1 strings := by
  induction strings with
  | nil => exact le_rfl
  | cons string rest ih =>
      rw [depth_cons, depth_cons]
      unfold up16
      omega

/-- With lengths that are no multiples of 16 the NULs fall into the padding. -/
theorem depth_eq {strings : List (List UInt8)} (lengths : ∀ string ∈ strings, string.length % 16 ≠ 0) :
    depth 0 strings = depth 1 strings := by
  induction strings with
  | nil => rfl
  | cons string rest ih =>
      have first := lengths string List.mem_cons_self
      rw [depth_cons, depth_cons, ih fun other member => lengths other (List.mem_cons_of_mem _ member)]
      unfold up16
      omega

/-- A last string with padding takes some room. -/
theorem depth_of_padded (strings : List (List UInt8)) (some_string : strings ≠ [])
    (padded : ∀ last ∈ strings.getLast?, last.length % 16 ≠ 0) : 16 ≤ depth 0 strings := by
  induction strings with
  | nil => exact absurd rfl some_string
  | cons string rest ih =>
      rw [depth_cons, Nat.add_zero]
      cases rest with
      | nil =>
          have last := padded string rfl
          unfold up16
          omega
      | cons next more =>
          rw [List.getLast?_cons_cons] at padded
          have later := ih (List.cons_ne_nil _ _) padded
          omega

section

variable {top : Nat} (aligned : top % 16 = 0) (small : top < 2 ^ 64)

include aligned small

theorem lowered_eq (extra : Nat) (strings : List (List UInt8)) (room : depth extra strings ≤ top) :
    lowered extra top strings + depth extra strings = top := by
  induction strings with
  | nil => rfl
  | cons string rest ih =>
      rw [depth_cons] at room ⊢
      have before := ih (by omega)
      have whole := depth_mod extra rest
      have enough : string.length + extra ≤ up16 (string.length + extra) := by
        unfold up16
        omega
      unfold lowered
      rw [alignDown_eq (by omega) (by omega) (by omega)]
      omega

/-- Every string is stored above the cursor. -/
theorem stringRegions_lower (strings : List (List UInt8)) (room : depth 0 strings ≤ top)
    {region : Nat × Nat} (member : region ∈ stringRegions top strings) :
    lowered 0 top strings ≤ region.1 := by
  induction strings with
  | nil => cases member
  | cons string rest ih =>
      have here := lowered_eq aligned small 0 (string :: rest) room
      rw [depth_cons] at here room
      have before := lowered_eq aligned small 0 rest (by omega)
      rcases List.mem_cons.mp member with rfl | later
      · exact le_rfl
      · have above := ih (by omega) later
        omega

/-- The strings stay below the top and apart when no length is a multiple of 16. -/
theorem stringRegions_iff (strings : List (List UInt8)) (room : depth 0 strings ≤ top) :
    ((∀ region ∈ stringRegions top strings, region.1 + region.2 ≤ top) ∧
      (stringRegions top strings).Pairwise RegionsApart) ↔
      ∀ string ∈ strings, string.length % 16 ≠ 0 := by
  induction strings with
  | nil => simp [stringRegions]
  | cons string rest ih =>
      have here := lowered_eq aligned small 0 (string :: rest) room
      rw [depth_cons, Nat.add_zero] at here room
      have before := lowered_eq aligned small 0 rest (by omega)
      have step : lowered 0 top (string :: rest) + (string.length + 1) ≤ lowered 0 top rest ↔
          string.length % 16 ≠ 0 := by
        unfold up16 at here
        omega
      rw [stringRegions, List.forall_mem_cons, List.pairwise_cons, List.forall_mem_cons, ← step,
        ← ih (by omega)]
      constructor
      · rintro ⟨⟨below, inside⟩, apart, others⟩
        refine ⟨?_, inside, others⟩
        cases rest with
        | nil => exact below
        | cons next more =>
            -- The next string is stored where this one must have ended.
            have met := apart (lowered 0 top (next :: more), next.length + 1) List.mem_cons_self
            unfold RegionsApart up16 at *
            simp only at met
            omega
      · rintro ⟨ends, inside, others⟩
        refine ⟨⟨by simp only; omega, inside⟩, ?_, others⟩
        intro region member
        have above := stringRegions_lower aligned small rest (by omega) member
        exact Or.inl (by simp only; omega)

/-- The block comes out right exactly for good lengths. -/
theorem blockRegions_iff {pg : Nat} (above : top = pg + PGSIZE) (strings : List (List UInt8))
    (fits : blockSize strings ≤ PGSIZE) :
    PageRegions pg (blockRegions top strings) ↔ GoodLengths strings := by
  have shallow := depth_le strings
  unfold blockSize at fits
  have pointers : 8 * strings.length ≤ up16 (8 * (strings.length + 1)) := by
    unfold up16
    omega
  have here := lowered_eq aligned small 0 strings (by omega)
  have whole := depth_mod 0 strings
  have place : ustackAt top strings = lowered 0 top strings - up16 (8 * strings.length) := by
    unfold ustackAt
    exact alignDown_eq (by omega) (by omega) (by omega)
  have lower : top ≤ ustackAt top strings + PGSIZE := by
    rw [place]
    unfold up16 at *
    omega
  have parity : ustackAt top strings + 8 * (strings.length + 1) ≤ lowered 0 top strings ↔
      strings.length % 2 = 1 := by
    rw [place]
    unfold up16 at *
    omega
  have strings_iff := stringRegions_iff aligned small strings (by omega)
  unfold GoodLengths
  rw [← strings_iff, ← parity]
  constructor
  · rintro ⟨inside, apart⟩
    rw [blockRegions, inPage_cons, ← above] at inside
    rw [blockRegions, List.pairwise_cons] at apart
    refine ⟨?_, fun region member => above ▸ (inside.2 region member).2, apart.2⟩
    cases strings with
    | nil => exact inside.1.2
    | cons first rest =>
        have met := apart.1 (lowered 0 top (first :: rest), first.length + 1) List.mem_cons_self
        unfold RegionsApart at met
        simp only at met
        rw [place] at met ⊢
        omega
  · rintro ⟨below, inside, others⟩
    constructor
    · rw [blockRegions, inPage_cons]
      refine ⟨⟨by simp only; omega, by simp only; omega⟩, fun region member => ⟨?_, ?_⟩⟩
      · have later := stringRegions_lower aligned small strings (by omega) member
        omega
      · rw [← above]
        exact inside region member
    · rw [blockRegions, List.pairwise_cons]
      refine ⟨fun region member => Or.inl ?_, others⟩
      have later := stringRegions_lower aligned small strings (by omega) member
      simp only
      omega

/-- Strings that lie in the page have room there. -/
theorem depth_of_inside {pg : Nat} (above : top = pg + PGSIZE) (strings : List (List UInt8))
    (inside : InPage pg (stringRegions top strings)) : depth 0 strings ≤ PGSIZE := by
  induction strings with
  | nil => exact Nat.zero_le _
  | cons string rest ih =>
      rw [stringRegions, inPage_cons, lowered, Nat.add_zero] at inside
      obtain ⟨⟨lower, upper⟩, later⟩ := inside
      simp only at lower upper
      have room := ih later
      have before := lowered_eq aligned small 0 rest (by omega)
      have whole := depth_mod 0 rest
      have step : alignDown (lowered 0 top rest) string.length + up16 string.length =
          lowered 0 top rest := by
        unfold alignDown up16 at *
        simp only [PGSIZE] at *
        omega
      rw [depth_cons, Nat.add_zero]
      omega

/-- With room in the page, only the last string can leave it. -/
theorem stringRegions_inside_iff {pg : Nat} (above : top = pg + PGSIZE) (strings : List (List UInt8))
    (room : depth 0 strings ≤ PGSIZE) : InPage pg (stringRegions top strings) ↔
      ∀ last ∈ strings.getLast?, last.length % 16 ≠ 0 := by
  induction strings with
  | nil => simp [stringRegions, InPage]
  | cons string rest ih =>
      have here := lowered_eq aligned small 0 (string :: rest) (by omega)
      rw [depth_cons, Nat.add_zero] at here room
      have before := lowered_eq aligned small 0 rest (by omega)
      have whole := depth_mod 0 rest
      rw [stringRegions, inPage_cons, ih (by omega)]
      cases rest with
      | nil =>
          -- The first string that is stored ends in the padding below the top.
          simp only [List.getLast?_nil, Option.mem_def, reduceCtorEq, false_implies, implies_true,
            and_true, List.getLast?_singleton, Option.some_inj, forall_eq', depth, List.map_nil,
            List.sum_nil] at *
          unfold up16 at here room
          omega
      | cons next more =>
          rw [List.getLast?_cons_cons]
          refine ⟨fun both => both.2, fun padded => ⟨?_, padded⟩⟩
          have deep := depth_of_padded (next :: more) (List.cons_ne_nil _ _) padded
          unfold up16 at here room
          simp only
          omega

/-- The block lies in the page exactly when it fits. -/
theorem blockRegions_inside_iff {pg : Nat} (above : top = pg + PGSIZE) (low : top < 2 ^ 63)
    (strings : List (List UInt8)) : InPage pg (blockRegions top strings) ↔ StackFits strings := by
  constructor
  · intro inside
    rw [blockRegions, inPage_cons] at inside
    obtain ⟨⟨lower, upper⟩, texts⟩ := inside
    have room := depth_of_inside aligned small above strings texts
    have before := lowered_eq aligned small 0 strings (by omega)
    have whole := depth_mod 0 strings
    have padded := (stringRegions_inside_iff aligned small above strings room).mp texts
    unfold ustackAt at lower upper
    simp only at lower upper
    have step : alignDown (lowered 0 top strings) (8 * strings.length) + up16 (8 * strings.length) =
        lowered 0 top strings := by
      unfold alignDown up16 at *
      simp only [PGSIZE] at *
      omega
    refine ⟨by omega, ?_, padded⟩
    rintro rfl
    simp only [depth, List.map_nil, List.sum_nil, List.length_nil, up16] at *
    omega
  · rintro ⟨room, some_string, padded⟩
    have before := lowered_eq aligned small 0 strings (by omega)
    have deep := depth_of_padded strings some_string padded
    have whole := depth_mod 0 strings
    rw [blockRegions, inPage_cons]
    refine ⟨?_, (stringRegions_inside_iff aligned small above strings (by omega)).mpr padded⟩
    unfold ustackAt
    have pointers : 8 * strings.length ≤ up16 (8 * strings.length) := by
      unfold up16
      omega
    rw [alignDown_eq (by omega) (by omega) (by omega)]
    unfold up16 at *
    simp only
    omega

end

end Gcgos.Kernel
