import Gcgos.Kernel.ArgBlock
import Gcgos.Kernel.Load

/-!
# The argument block in memory

The user of a new program finds its arguments through the table that `kexec`
has built: `x1` and `sp_el0` hold the address of the array, whose words are the
addresses of the strings. What is in the stack page is what was stored there,
as long as the stores stay inside and do not meet.
-/

set_option autoImplicit false

namespace Gcgos.Kernel

open Act ByteMap Fs Radix

/-- The string that `kexec` measures at an argument. -/
def Arg.Reads (link : Link) (mem : Nat → UInt8) (string : List UInt8) : (arg : Arg) → Prop
  | .text bytes => bytes = string
  | .page pg => IsPage link pg ∧ string.length < PGSIZE ∧ StringAt mem pg string ∧
      mem (pg + string.length) = 0

/-- The memory after the strings have been stored, the last one first. -/
def storedStrings (mem : Nat → UInt8) (top : Nat) : (strings : List (List UInt8)) → Nat → UInt8
  | [] => mem
  | string :: rest =>
      putBytes (storedStrings mem top rest) (lowered 0 top (string :: rest)) (string ++ [0])

/-- And after the pointers. -/
def storedBlock (mem : Nat → UInt8) (top utop : Nat) (strings : List (List UInt8)) :
    Nat → UInt8 :=
  putBytes (storedStrings mem top strings) (ustackAt top strings)
    ((ustackOf utop strings ++ [0]).flatMap (leBytes 8))

section

variable {link : Link}

theorem Arg.Reads.run {m : Mm} {string : List UInt8} {arg : Arg}
    (reads : arg.Reads link m.mem string) : arg.bytes link m = .ok (string, m) := by
  cases arg with
  | text bytes =>
      obtain rfl : bytes = string := reads
      rfl
  | page pg =>
      obtain ⟨page, short, there, nul⟩ := reads
      refine cstring_run PHYSTOP pg string there nul (page.inRam (o := 0) (by omega)) ?_
      simp only [PGSIZE, PHYSTOP, KERNBASE] at *
      omega

theorem Arg.Reads.congr {mem mem' : Nat → UInt8} {string : List UInt8} {arg : Arg}
    (reads : arg.Reads link mem string)
    (same : ∀ pg, arg = .page pg → IsPage link pg → SameOn mem mem' pg) :
    arg.Reads link mem' string := by
  cases arg with
  | text bytes => exact reads
  | page pg =>
      obtain ⟨page, short, there, nul⟩ := reads
      have kept := same pg rfl page
      refine ⟨page, short, there.congr fun k bound => kept k (by omega), ?_⟩
      rw [kept _ short]
      exact nul

end

theorem ustackOf_length (utop : Nat) (strings : List (List UInt8)) :
    (ustackOf utop strings).length = strings.length := by
  induction strings with
  | nil => rfl
  | cons string rest ih => rw [ustackOf, List.length_cons, List.length_cons, ih]

theorem ustackOf_getD_lt (utop : Nat) (strings : List (List UInt8)) (k : Nat) :
    (ustackOf utop strings).getD k 0 < 2 ^ 64 := by
  induction strings generalizing k with
  | nil => exact Nat.two_pow_pos 64
  | cons string rest ih =>
      rw [ustackOf]
      cases k with
      | zero =>
          rw [List.getD_cons_zero, lowered]
          exact alignDown_lt _ _
      | succ k =>
          rw [List.getD_cons_succ]
          exact ih k

/-- The null pointer behind the pointers is what is read past their end. -/
theorem getD_append_zero (entries : List Nat) (k : Nat) :
    (entries ++ [0]).getD k 0 = entries.getD k 0 := by
  simp only [List.getD_eq_getElem?_getD, List.getElem?_append]
  split
  · rfl
  · rw [List.getElem?_eq_none (by omega : entries.length ≤ k)]
    cases k - entries.length <;> rfl

theorem ustack_length (utop : Nat) (strings : List (List UInt8)) :
    ((ustackOf utop strings ++ [0]).flatMap (leBytes 8)).length = 8 * (strings.length + 1) := by
  rw [flatMap_leBytes_length, List.length_append, ustackOf_length, List.length_singleton]

/-- Stores that stay in the page leave everything else. -/
theorem storedStrings_outside (mem : Nat → UInt8) {pg top : Nat} (strings : List (List UInt8))
    (inside : InPage pg (stringRegions top strings)) {a : Nat} (outside : a < pg ∨ pg + PGSIZE ≤ a) :
    storedStrings mem top strings a = mem a := by
  induction strings with
  | nil => rfl
  | cons string rest ih =>
      rw [stringRegions, inPage_cons] at inside
      obtain ⟨⟨lower, upper⟩, later⟩ := inside
      simp only at lower upper
      unfold storedStrings
      rw [putBytes_outside (by rw [List.length_append, List.length_singleton]; omega)]
      exact ih later

theorem storedBlock_outside (mem : Nat → UInt8) {pg top : Nat} (utop : Nat)
    (strings : List (List UInt8)) (inside : InPage pg (blockRegions top strings)) {a : Nat}
    (outside : a < pg ∨ pg + PGSIZE ≤ a) : storedBlock mem top utop strings a = mem a := by
  rw [blockRegions, inPage_cons] at inside
  obtain ⟨⟨lower, upper⟩, later⟩ := inside
  simp only at lower upper
  unfold storedBlock
  rw [putBytes_outside (by rw [ustack_length]; omega)]
  exact storedStrings_outside mem strings later outside

section

variable {top : Nat} (aligned : top % 16 = 0) (small : top < 2 ^ 64)

include aligned small

/-- Every string, with its NUL, is where its pointer says, counted from the top. -/
theorem storedStrings_there (mem : Nat → UInt8) {utop : Nat} (ualigned : utop % 16 = 0)
    (usmall : utop < 2 ^ 64) (strings : List (List UInt8)) (room : depth 1 strings ≤ top)
    (uroom : depth 1 strings ≤ utop) (lengths : ∀ string ∈ strings, string.length % 16 ≠ 0) :
    List.Forall₂ (fun u string => ∃ d, u + top = d + utop ∧ lowered 0 top strings ≤ d ∧
      d + string.length + 1 ≤ top ∧
      ∀ k < (string ++ [0]).length, storedStrings mem top strings (d + k) = (string ++ [0]).getD k 0)
      (ustackOf utop strings) strings := by
  induction strings with
  | nil => exact List.Forall₂.nil
  | cons string rest ih =>
      have later : ∀ other ∈ rest, other.length % 16 ≠ 0 :=
        fun other member => lengths other (List.mem_cons_of_mem _ member)
      have first := lengths string List.mem_cons_self
      have equal := depth_eq lengths
      have here := lowered_eq aligned small 0 (string :: rest) (by omega)
      have uhere := lowered_eq ualigned usmall 1 (string :: rest) (by omega)
      have split₀ := depth_cons 0 string rest
      have split₁ := depth_cons 1 string rest
      have before := lowered_eq aligned small 0 rest (by omega)
      have length : (string ++ [0]).length = string.length + 1 := by
        rw [List.length_append, List.length_singleton]
      have step : string.length + 1 ≤ up16 (string.length + 0) := by
        unfold up16
        omega
      refine List.Forall₂.cons ⟨lowered 0 top (string :: rest), by omega, le_rfl, by omega, ?_⟩ ?_
      · intro k bound
        unfold storedStrings
        rw [putBytes_inside (by omega) (by omega), Nat.add_sub_cancel_left]
      · refine (ih (by omega) (by omega) later).imp ?_
        rintro u other ⟨d, place, above, below, bytes⟩
        refine ⟨d, place, by omega, below, fun k bound => ?_⟩
        unfold storedStrings
        rw [putBytes_outside (by omega)]
        exact bytes k bound

/-- With good lengths the pointers lie in the page and below the strings. -/
theorem ustackAt_bounds (strings : List (List UInt8)) (good : GoodLengths strings)
    (fits : blockSize strings ≤ PGSIZE) (large : PGSIZE ≤ top) :
    top ≤ ustackAt top strings + PGSIZE ∧ ustackAt top strings % 16 = 0 ∧
      ustackAt top strings + 8 * (strings.length + 1) ≤ lowered 0 top strings ∧
      lowered 0 top strings ≤ top := by
  have shallow := depth_le strings
  have odd := good.1
  unfold blockSize up16 at fits
  have here := lowered_eq aligned small 0 strings (by omega)
  have whole := depth_mod 0 strings
  unfold ustackAt
  rw [alignDown_eq (by omega) (by omega) (by omega)]
  unfold up16
  omega

/-- The address of the pointers, counted from the top. -/
theorem argv_eq {utop : Nat} (ualigned : utop % 16 = 0) (usmall : utop < 2 ^ 64)
    (strings : List (List UInt8)) (good : GoodLengths strings) (fits : blockSize strings ≤ PGSIZE)
    (large : PGSIZE ≤ top) (ularge : PGSIZE ≤ utop) :
    alignDown (lowered 1 utop strings) (8 * strings.length) + top = ustackAt top strings + utop := by
  have equal := depth_eq good.2
  unfold blockSize up16 at fits
  have here := lowered_eq aligned small 0 strings (by omega)
  have uhere := lowered_eq ualigned usmall 1 strings (by omega)
  have whole := depth_mod 0 strings
  unfold ustackAt
  rw [alignDown_eq (by omega) (by omega) (by omega), alignDown_eq (by omega) (by omega) (by omega)]
  unfold up16
  omega

/-- The strings and the pointers are where the user looks for them. -/
theorem storedBlock_there (mem : Nat → UInt8) {utop : Nat} (ualigned : utop % 16 = 0)
    (usmall : utop < 2 ^ 64) (strings : List (List UInt8)) (good : GoodLengths strings)
    (fits : blockSize strings ≤ PGSIZE) (large : PGSIZE ≤ top) (ularge : PGSIZE ≤ utop) :
    (∀ k ≤ strings.length, word (storedBlock mem top utop strings) (ustackAt top strings + 8 * k) =
        (ustackOf utop strings).getD k 0) ∧
      List.Forall₂ (fun u string => ∃ d, u + top = d + utop ∧ top ≤ d + PGSIZE ∧
        d + string.length + 1 ≤ top ∧ ∀ k < (string ++ [0]).length,
          storedBlock mem top utop strings (d + k) = (string ++ [0]).getD k 0)
        (ustackOf utop strings) strings := by
  obtain ⟨lower, -, below, upper⟩ := ustackAt_bounds aligned small strings good fits large
  have equal := depth_eq good.2
  have count := ustack_length utop strings
  unfold blockSize at fits
  constructor
  · intro k bound
    unfold storedBlock
    rw [word_putBytes_words _ _ _ (by rw [List.length_append, ustackOf_length]; exact Nat.lt_succ_of_le bound),
      getD_append_zero, Nat.mod_eq_of_lt (ustackOf_getD_lt _ _ _)]
  · refine (storedStrings_there aligned small mem ualigned usmall strings (by omega) (by omega)
      good.2).imp ?_
    rintro u string ⟨d, place, above, ends, bytes⟩
    refine ⟨d, place, by omega, ends, fun k bound => ?_⟩
    unfold storedBlock
    rw [putBytes_outside (by rw [count]; omega)]
    exact bytes k bound

end

section

variable {link : Link}

/-- One turn of the loop. -/
theorem pushArgStored_ensures (mem : Nat → UInt8) (top utop : Nat) {string : List UInt8}
    (strings : List (List UInt8)) {arg : Arg} {t : Mm} (read : arg.Reads link t.mem string)
    (stored : t.mem = storedStrings mem top strings) :
    Ensures (pushArgStored link
      ⟨lowered 0 top strings, lowered 1 utop strings, ustackOf utop strings⟩ arg) t fun pushed u =>
      pushed.1 = ⟨lowered 0 top (string :: strings), lowered 1 utop (string :: strings),
        ustackOf utop (string :: strings)⟩ ∧
      pushed.2 = (lowered 0 top (string :: strings), string.length + 1) ∧
      u.freelist = t.freelist ∧ u.mem = storedStrings mem top (string :: strings) := by
  unfold pushArgStored
  refine Ensures.step read.run ?_
  refine Ensures.seq (storeBytes_ensures _ _ t) ?_
  rintro _ u ⟨-, rfl⟩
  refine Ensures.pure ⟨?_, ?_, Mm.store_freelist _ _ _, ?_⟩
  · simp only [lowered, ustackOf, Nat.add_zero]
  · simp only [lowered, List.length_append, List.length_singleton, Nat.add_zero]
  · rw [Mm.store_mem, storedStrings, stored, lowered, Nat.add_zero]

/-- The loop over the arguments stores the strings, unless it leaves the page. -/
theorem pushArgsStored_ensures (sp top utop : Nat) {args : List Arg} {strings : List (List UInt8)}
    {m : Mm} (reads : List.Forall₂ (fun arg string => arg.Reads link m.mem string) args strings)
    (apart : ∀ pg, Arg.page pg ∈ args → IsPage link pg → pg + PGSIZE ≤ sp ∨ sp + PGSIZE ≤ pg) :
    Ensures (pushArgsStored link ⟨top, utop, []⟩ args) m fun stored t =>
      (InPage sp (stringRegions top strings) ∧
        stored.1 = ⟨lowered 0 top strings, lowered 1 utop strings, ustackOf utop strings⟩ ∧
        stored.2 = stringRegions top strings ∧
        t.freelist = m.freelist ∧ t.mem = storedStrings m.mem top strings) ∨
      (¬InPage sp (stringRegions top strings) ∧ ¬InPage sp stored.2) := by
  induction reads with
  | nil => exact Ensures.pure (Or.inl ⟨List.forall_mem_nil _, rfl, rfl, rfl, rfl⟩)
  | @cons arg string args strings read _ ih =>
      unfold pushArgsStored
      refine Ensures.seq (ih fun pg member => apart pg (List.mem_cons_of_mem _ member)) ?_
      rintro ⟨stack, regions⟩ t (⟨inside, rfl, rfl, list, stored⟩ | ⟨out, left⟩)
      · have still : arg.Reads link t.mem string := by
          refine read.congr fun pg same page o bound => ?_
          rw [stored]
          apply storedStrings_outside _ _ inside
          have other := apart pg (same ▸ List.mem_cons_self) page
          omega
        refine Ensures.seq (pushArgStored_ensures m.mem top utop strings still stored) ?_
        rintro ⟨stack, region⟩ u ⟨rfl, rfl, list', stored'⟩
        apply Ensures.pure
        by_cases fits : InPage sp (stringRegions top (string :: strings))
        · exact Or.inl ⟨fits, rfl, rfl, list'.trans list, stored'⟩
        · exact Or.inr ⟨fits, fits⟩
      · refine Ensures.seq (m := fun _ _ => True) (fun _ _ _ => trivial) ?_
        intro pushed u _
        exact Ensures.pure (Or.inr ⟨fun all => out (inPage_cons.mp all).2,
          fun all => left (inPage_cons.mp all).2⟩)

/-- The pointers go below the strings, when the null pointer has a place. -/
theorem pushUstack_ensures (top utop : Nat) (strings : List (List UInt8)) {t : Mm} {mem : Nat → UInt8}
    (stored : t.mem = storedStrings mem top strings) :
    Ensures (pushUstack link ⟨lowered 0 top strings, lowered 1 utop strings, ustackOf utop strings⟩
      strings.length) t fun argv u => link.spare strings.length = true ∧
      argv = alignDown (lowered 1 utop strings) (8 * strings.length) ∧
        InRam link (ustackAt top strings) (8 * (strings.length + 1)) ∧
        u.freelist = t.freelist ∧ u.mem = storedBlock mem top utop strings := by
  unfold pushUstack
  refine Ensures.guard fun spare => ?_
  refine Ensures.seq (storeBytes_ensures _ _ t) ?_
  rintro _ u ⟨inside, rfl⟩
  refine Ensures.pure ⟨Bool.eq_true_of_not_eq_false spare, rfl, ?_, Mm.store_freelist _ _ _, ?_⟩
  · rw [ustack_length] at inside
    exact inside
  · rw [Mm.store_mem, storedBlock, ustackAt, stored]

/-- No stack is built without a place for the null pointer. -/
theorem buildStackStored_spare (root sz : Nat) (args : List Arg) (m : Mm) :
    Ensures (buildStackStored link root sz args) m fun _ _ => link.spare args.length = true := by
  unfold buildStackStored pushUstack
  refine Ensures.seq (m := fun _ _ => True) (fun _ _ _ => trivial) fun sp u _ => ?_
  refine Ensures.seq (m := fun _ _ => True) (fun _ _ _ => trivial) fun pushed v _ => ?_
  refine Ensures.seq (m := fun _ _ => link.spare args.length = true) ?_ ?_
  · exact Ensures.guard fun spare _ _ _ => Bool.eq_true_of_not_eq_false spare
  · intro argv w spare
    refine Ensures.seq (m := fun _ _ => True) (fun _ _ _ => trivial) fun _ x _ => ?_
    exact Ensures.pure spare

/-- The stack page has been filled with the block and mapped at `sz`. -/
structure StackBuilt (link : Link) (m x : Mm) (root sz : Nat) (strings : List (List UInt8))
    (free rest : List Nat) (stored : StackStores) : Prop where
  added : ∃ w, Added link m w x root sz stored.page PTE_AP_RW free rest ∧
    w.mem = storedBlock m.mem (stored.page + PGSIZE) (sz + PGSIZE) strings
  low : sz % PGSIZE = 0 ∧ sz + PGSIZE ≤ MAXVA
  fresh : x.freelist = 0 ∨ translate m.mem root sz = none
  argv : stored.argv = alignDown (lowered 1 (sz + PGSIZE) strings) (8 * strings.length)

/-- The stack is built when the block lies in its page. Otherwise a store
leaves the page. -/
structure StackOutcome (link : Link) (m x : Mm) (root sz : Nat) (strings : List (List UInt8))
    (free : List Nat) (stored : StackStores) : Prop where
  aligned : stored.page % PGSIZE = 0
  small : stored.page + PGSIZE < 2 ^ 63
  inside : stored.Inside ↔ StackFits strings
  built : stored.Inside → stored.regions = blockRegions (stored.page + PGSIZE) strings ∧
    ∃ rest, StackBuilt link m x root sz strings free rest stored

theorem buildStackStored_ensures {m : Mm} {root sz : Nat} {free : List Nat}
    (space : Space link m root free) {args : List Arg} {strings : List (List UInt8)}
    (reads : List.Forall₂ (fun arg string => arg.Reads link m.mem string) args strings)
    (apart : ∀ pg, Arg.page pg ∈ args → pg ∉ free) :
    Ensures (buildStackStored link root sz args) m
      (fun stored x => StackOutcome link m x root sz strings free stored) := by
  unfold buildStackStored
  refine Ensures.seq (kalloc_yields space.list).ensures ?_
  rintro sp u ⟨same, popped⟩
  -- The page is the null page or one of the allocator.
  have bounds : sp % PGSIZE = 0 ∧ sp + PGSIZE < 2 ^ 63 ∧ ∀ pg, Arg.page pg ∈ args → IsPage link pg →
      pg + PGSIZE ≤ sp ∨ sp + PGSIZE ≤ pg := by
    rcases popped with ⟨rfl, rfl, -⟩ | ⟨tail, rfl, -⟩
    · refine ⟨rfl, by decide, fun pg _ page => Or.inr ?_⟩
      have base := link.base_pos
      have lower := page.lower
      simp only [KERNBASE, PGSIZE] at *
      omega
    · have page := space.list.page sp List.mem_cons_self
      refine ⟨page.aligned, lt_of_le_of_lt page.upper (by decide), fun pg member other => ?_⟩
      refine other.apart page ?_
      rintro rfl
      exact apart pg member List.mem_cons_self
  obtain ⟨whole, small, others⟩ := bounds
  obtain ⟨top, above⟩ : ∃ top, top = sp + PGSIZE := ⟨_, rfl⟩
  have aligned : top % 16 = 0 := by
    simp only [PGSIZE] at *
    omega
  have fits_iff := blockRegions_inside_iff aligned (by omega) above (by omega) strings
  rw [← same] at reads
  rw [← above]
  refine Ensures.seq (pushArgsStored_ensures sp top (sz + PGSIZE) reads others) ?_
  rintro ⟨stack, regions⟩ v (⟨inside, rfl, rfl, list, stored⟩ | ⟨out, left⟩)
  · rw [reads.length_eq]
    refine Ensures.seq (pushUstack_ensures top (sz + PGSIZE) strings stored) ?_
    rintro argv w ⟨-, rfl, accessible, list', block⟩
    refine Ensures.seq
      (m := fun result x => mappages link root sz sp PGSIZE PTE_AP_RW w = .ok (result, x))
      (fun result x returned => returned) ?_
    intro result x mapped
    apply Ensures.pure
    have regions : (alignDown (lowered 0 top strings) (8 * strings.length),
        8 * (ustackOf (sz + PGSIZE) strings ++ [0]).length) :: stringRegions top strings =
        blockRegions top strings := by
      rw [blockRegions, ustackAt, List.length_append, ustackOf_length, List.length_singleton]
    simp only [regions]
    refine ⟨whole, small, fits_iff, fun fits => ⟨by rw [← above], ?_⟩⟩
    have here : InPage sp (blockRegions top strings) := fits
    have pointers := here (ustackAt top strings, 8 * (strings.length + 1)) List.mem_cons_self
    simp only at pointers
    rcases popped with ⟨rfl, rfl, -⟩ | ⟨tail, rfl, tailList⟩
    · -- A store near the null page aborts.
      have base := link.base_pos
      unfold InRam at accessible
      simp only [KERNBASE, PGSIZE] at *
      omega
    · have rest_same : ∀ q, IsPage link q → q ≠ sp → SameOn m.mem w.mem q := by
        intro q page different o bound
        rw [block, same]
        apply storedBlock_outside _ _ strings here
        have other := page.apart (space.list.page sp List.mem_cons_self) different
        omega
      have head : w.freelist = u.freelist := list'.trans list
      obtain ⟨filled, -, fill⟩ := space.fill tailList same head rest_same
      have fresh := mappages_unmapped filled.space _ _ _ _ _ mapped
      rw [fill] at fresh
      obtain ⟨rest, added⟩ := space.add tailList same head rest_same
        (mappages_ensures filled.space _ _ _ _ _ _ mapped)
        (mappages_spends filled.space _ _ _ _ _ _ mapped)
      refine ⟨rest, ⟨w, added, ?_⟩, mappages_low _ _ _ _ _ _ _ mapped, fresh, rfl⟩
      rw [block, same, above]
  · refine Ensures.seq (m := fun _ _ => True) (fun _ _ _ => trivial) ?_
    intro argv w _
    refine Ensures.seq (m := fun _ _ => True) (fun _ _ _ => trivial) ?_
    intro result x _
    apply Ensures.pure
    have leaves : ∀ region, ¬InPage sp (region :: regions) :=
      fun region all => left (inPage_cons.mp all).2
    refine ⟨whole, small, ⟨fun all => absurd all (leaves _), fun fits => ?_⟩,
      fun all => absurd all (leaves _)⟩
    exact absurd (inPage_cons.mp (fits_iff.mpr fits)).2 out

end

end Gcgos.Kernel
