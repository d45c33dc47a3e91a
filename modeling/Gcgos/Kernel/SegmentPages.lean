import Gcgos.Kernel.Load

/-!
# The page of a segment

A call of `kexec` takes its pages from the free list in this order: the root of
the new table, the tables for the trampoline, the trapframe, and then for every
LOAD segment its page and the tables that its address is the first one to need.
So the headers in front of a segment say which of the free pages it gets.
-/

set_option autoImplicit false

namespace Gcgos.Kernel

open Act ByteMap Fs Radix

/-- The addresses of the LOAD segments in front of header `i`. -/
def loadsBefore (data : Block) : (i : Nat) → List Nat
  | 0 => []
  | i + 1 =>
      match proghdrOf data (elfOf data).phoff i with
      | none => loadsBefore data i
      | some ph =>
          if ph.type ≠ ELF_PROG_LOAD then loadsBefore data i else ph.vaddr :: loadsBefore data i

/-- The tables of a user table with segments at these addresses: the root, those
for the trampoline and the trapframe, and those for the segments. -/
def tablesFor : (vas : List Nat) → Finset (List (Fin 512))
  | [] => {[]} ∪ rangePaths TRAMPOLINE 2 ∪ tablePaths TRAPFRAME
  | va :: vas => tablesFor vas ∪ tablePaths va

/-- The number of pages that are taken before the page for header `i`: the
trapframe, the pages of the segments in front, and the tables. -/
def segmentPlace (data : Block) (i : Nat) : Nat :=
  1 + (loadsBefore data i).length + (tablesFor (loadsBefore data i)).card

section

variable {link : Link} {data : Block} {i : Nat} {ph : Proghdr}

theorem loadsBefore_load (load : IsLoad data i ph) :
    loadsBefore data (i + 1) = ph.vaddr :: loadsBefore data i := by
  rw [loadsBefore, load.1]
  exact if_neg (not_not.mpr load.2)

theorem loadsBefore_other (header : proghdrOf data (elfOf data).phoff i = some ph)
    (other : ph.type ≠ ELF_PROG_LOAD) : loadsBefore data (i + 1) = loadsBefore data i := by
  rw [loadsBefore, header]
  exact if_pos other

/-- `proc_pagetable` takes the root, the tables and the trapframe. -/
theorem procPagetable_placed {m : Mm} {free : List Nat} (list : FreeList link m free) :
    Ensures (procPagetable link) m fun result x => x.freelist ≠ 0 → ∃ rest,
      Space link x result.1 rest ∧ Placed x.mem result.1 (tablesFor []) 1 free rest := by
  unfold procPagetable uvmcreat
  refine Ensures.seq (kalloc_yields list).ensures ?_
  rintro root u ⟨same, ⟨-, rfl, -⟩ | ⟨later, rfl, rest⟩⟩
  · exact Ensures.seq (mappages_null _ _ _ (by decide) u) fun _ _ impossible => impossible.elim
  obtain ⟨space, -⟩ := Space.fresh list rest same
  have clean : Clean u.mem root := by
    rw [same]
    exact list.clean root List.mem_cons_self
  refine Ensures.seq (m := fun _ v => ∃ mid, Grew link u v root later mid ∧ (mid ≠ [] →
    Placed v.mem root ({[]} ∪ rangePaths TRAMPOLINE 2) 0 (root :: later) mid)) ?_ ?_
  · intro result v run
    obtain ⟨mid, grew, -⟩ := mappages_ensures space _ _ _ _ _ _ run
    refine ⟨mid, grew, fun some_page => ?_⟩
    have made := mappages_made space (by decide) _ _ result v run
      fun none => some_page (grew.space.list.chain.head_eq_zero.mp none)
    exact (Placed.fresh clean later).made (fun q => rangePaths_short _) grew.taken grew.space made
  rintro result v ⟨mid, grew, placed⟩
  refine Ensures.seq (kalloc_yields grew.space.list).ensures ?_
  rintro tf w ⟨kept, ⟨rfl, -, empty⟩ | ⟨tail, rfl, rest'⟩⟩
  · -- Without a page for the trapframe none is left at the end.
    have head : w.freelist = v.freelist := by
      rw [empty.chain.head_eq_zero.mpr rfl, grew.space.list.chain.head_eq_zero.mpr rfl]
    have still : Grew link v w root [] [] := Grew.of_same grew.space head fun q _ => by
      rw [kept]
      exact SameOn.refl _ q
    refine Ensures.seq (mappages_ensures still.space _ _ _ _) ?_
    rintro result' x ⟨last, after, -⟩
    refine Ensures.pure fun more => absurd (after.space.list.chain.head_eq_zero.mpr ?_) more
    exact List.suffix_nil.mp after.taken
  · have others : ∀ q, IsPage link q → q ≠ tf → SameOn v.mem w.mem q := by
      rw [kept]
      exact fun q _ _ => SameOn.refl _ q
    refine Ensures.seq (grew.space.behind rest' kept rfl others (by decide) _ _) ?_
    intro result' x mapped
    refine Ensures.pure fun more => ?_
    obtain ⟨last, space', behind⟩ := mapped more
    exact ⟨last, space', ((placed (List.cons_ne_nil _ _)).behind space' behind).2⟩

/-- Every LOAD segment gets the free page at its place. -/
theorem loadSegmentsStored_places {root : Nat} (dp : Inode) (count i sz : Nat) {s : State}
    {free mid : List Nat} (space : Space link s.mm root mid)
    (placed : Placed s.mm.mem root (tablesFor (loadsBefore data i))
      (1 + (loadsBefore data i).length) free mid)
    (one : ∀ k ph, i ≤ k → k < i + count → IsLoad data k ph → ph.sectors ≤ 8) :
    Ensures (loadSegmentsStored link dp root data count i sz) s fun stored t =>
      t.mm.freelist ≠ 0 → ∀ seg ∈ stored.2, free.getD (segmentPlace data seg.header) 0 = seg.page := by
  induction count generalizing i sz s mid with
  | zero => exact Ensures.pure fun _ => List.forall_mem_nil _
  | succ count ih =>
      have later : ∀ k ph, i + 1 ≤ k → k < i + 1 + count → IsLoad data k ph → ph.sectors ≤ 8 :=
        fun k ph lower upper => one k ph (by omega) (by omega)
      unfold loadSegmentsStored
      cases header : proghdrOf data (elfOf data).phoff i with
      | none => exact Ensures.fail
      | some ph =>
          apply Ensures.ite
          · intro other
            refine ih (i + 1) sz space ?_ later
            rw [loadsBefore_other header other]
            exact placed
          · intro type
            have load : IsLoad data i ph := ⟨header, not_not.mp type⟩
            refine Ensures.seq (loadSegmentStored_ensures space dp (one i ph le_rfl (by omega) load)) ?_
            rintro stored u ⟨-, rest, grew, page⟩
            refine Ensures.seq (m := fun result t => t.mm.freelist ≠ 0 → rest ≠ [] ∧
              ∀ seg ∈ result.2, free.getD (segmentPlace data seg.header) 0 = seg.page) ?_ ?_
            · intro result t run more
              obtain ⟨left, done⟩ :=
                loadSegmentsStored_ensures dp data count (i + 1) ph.vaddr grew.space later result t run
              have some_page : rest ≠ [] := by
                rintro rfl
                exact more (done.grew.space.list.chain.head_eq_zero.mpr
                  (List.suffix_nil.mp done.grew.taken))
              have next := (placed.behind grew.space (page some_page).behind).2
              refine ⟨some_page, ih (i + 1) ph.vaddr grew.space ?_ later result t run more⟩
              rw [loadsBefore_load load, List.length_cons, ← Nat.add_assoc]
              exact next
            · rintro ⟨last, segments⟩ t others
              refine Ensures.pure fun more => ?_
              obtain ⟨some_page, pages⟩ := others more
              exact List.forall_mem_cons.mpr
                ⟨(placed.behind grew.space (page some_page).behind).1, pages⟩

end

end Gcgos.Kernel
