import Gcgos.Kernel.Return

/-!
# Memory outside of the pages

The kernel's own image lies below the pages of the allocator. The accesses of
`kexec` outside of the pages abort, so a call that returns leaves that memory
as it was.
-/

set_option autoImplicit false

namespace Gcgos.Kernel

open Act ByteMap Fs

/-- The memory that `kalloc` does not hand out is as in `before`. -/
def KeptOutside (link : Link) (before : Nat → UInt8) (m : Mm) : Prop :=
  ∀ a, a < link.base ∨ PHYSTOP ≤ a → m.mem a = before a

section

variable {link : Link} (before : Nat → UInt8)

theorem load64_outside (addr : Nat) : Keeps (load64 link addr) (KeptOutside link before) :=
  Keeps.seq Keeps.stopIf fun _ => Keeps.reads

theorem storeBytes_outside (addr : Nat) (run : List UInt8) :
    Keeps (storeBytes link addr run) (KeptOutside link before) := by
  intro m kept
  refine (storeBytes_ensures addr run m).mono ?_
  rintro _ t ⟨inside, rfl⟩ a outside
  rw [Mm.store_mem, putBytes_outside]
  · exact kept a outside
  · unfold InRam at inside
    omega

theorem kalloc_outside : Keeps (kalloc link) (KeptOutside link before) := by
  unfold kalloc
  refine Keeps.seq Keeps.reads fun r => Keeps.ite Keeps.pure ?_
  refine Keeps.seq (load64_outside before r) fun next => ?_
  exact Keeps.seq (Keeps.modify fun _ kept => kept) fun _ => Keeps.pure

theorem walkLevel_outside (root va level : Nat) (alloc : Bool) :
    Keeps (walkLevel link root va level alloc) (KeptOutside link before) := by
  unfold walkLevel
  refine Keeps.seq (load64_outside before _) fun pte => Keeps.ite Keeps.pure ?_
  refine Keeps.ite Keeps.pure (Keeps.seq (kalloc_outside before) fun page => ?_)
  refine Keeps.ite Keeps.pure (Keeps.seq (storeBytes_outside before _ _) fun _ => Keeps.pure)

theorem walk_outside (root va : Nat) (alloc : Bool) :
    Keeps (walk link root va alloc) (KeptOutside link before) := by
  unfold walk
  refine Keeps.seq Keeps.stopIf fun _ => ?_
  refine Keeps.seq (walkLevel_outside before _ _ _ _) fun level1 => ?_
  cases level1 with
  | none => exact Keeps.pure
  | some level1 =>
      refine Keeps.seq (walkLevel_outside before _ _ _ _) fun level0 => ?_
      cases level0 with
      | none => exact Keeps.pure
      | some level0 => exact Keeps.pure

theorem mapPage_outside (root a pa perm : Nat) :
    Keeps (mapPage link root a pa perm) (KeptOutside link before) := by
  unfold mapPage
  refine Keeps.seq (walk_outside before _ _ _) fun pte => ?_
  cases pte with
  | none => exact Keeps.pure
  | some pte =>
      refine Keeps.seq (load64_outside before _) fun old => ?_
      refine Keeps.seq Keeps.stopIf fun _ => ?_
      exact Keeps.seq (storeBytes_outside before _ _) fun _ => Keeps.pure

theorem mappages_outside (root va pa size perm : Nat) :
    Keeps (mappages link root va pa size perm) (KeptOutside link before) := by
  have loop : ∀ count a pa, Keeps (mappagesLoop link root perm count a pa)
      (KeptOutside link before) := by
    intro count
    induction count with
    | zero => exact fun _ _ => Keeps.pure
    | succ count ih =>
        intro a pa
        unfold mappagesLoop
        refine Keeps.seq (mapPage_outside before _ _ _ _) fun mapped => ?_
        exact Keeps.ite (ih _ _) Keeps.pure
  unfold mappages
  refine Keeps.seq Keeps.stopIf fun _ => Keeps.seq Keeps.stopIf fun _ => ?_
  exact Keeps.seq Keeps.stopIf fun _ => loop _ _ _

theorem procPagetable_outside : Keeps (procPagetable link) (KeptOutside link before) := by
  unfold procPagetable uvmcreat
  refine Keeps.seq (kalloc_outside before) fun root => ?_
  refine Keeps.seq (mappages_outside before _ _ _ _ _) fun _ => ?_
  refine Keeps.seq (kalloc_outside before) fun tf => ?_
  exact Keeps.seq (mappages_outside before _ _ _ _ _) fun _ => Keeps.pure

/-- Segments as a whole. -/
theorem loadSegments_outside (dp : Inode) (root : Nat) (data : Block) (count i sz : Nat) :
    Keeps (loadSegments link dp root data count i sz) fun s => KeptOutside link before s.mm := by
  have memory : ∀ {α : Type} {inner : Act Fault Mm α}, Keeps inner (KeptOutside link before) →
      Keeps (onMm inner) fun s => KeptOutside link before s.mm := by
    intro α inner keeps s kept
    apply Ensures.zoom
    exact keeps s.mm kept
  have sectors : ∀ pa count i j, Keeps (loadSectors link dp pa count i j)
      fun s => KeptOutside link before s.mm := by
    intro pa count
    induction count with
    | zero =>
        intro i j
        rw [loadSectors_zero]
        exact Keeps.pure
    | succ count ih =>
        intro i j
        rw [loadSectors_succ]
        refine Keeps.seq (fun s kept data t read => ?_) fun data => ?_
        · change KeptOutside link before t.mm
          rw [onFs_memory _ s.mm s rfl data t read]
          exact kept
        · exact Keeps.seq (memory (storeBytes_outside before _ _)) fun _ => ih _ _
  induction count generalizing i sz with
  | zero => exact Keeps.pure
  | succ count ih =>
      unfold loadSegments
      cases proghdrOf data (elfOf data).phoff i with
      | none => exact Keeps.fail
      | some ph =>
          refine Keeps.ite (ih _ _) (Keeps.seq ?_ fun _ => ih _ _)
          unfold loadSegment
          refine Keeps.seq (memory (kalloc_outside before)) fun pa => ?_
          refine Keeps.seq Keeps.stopIf fun _ => ?_
          refine Keeps.seq (sectors _ _ _ _) fun _ => ?_
          exact Keeps.seq (memory (mappages_outside before _ _ _ _ _)) fun _ => Keeps.pure

theorem cstring_outside (fuel addr : Nat) :
    Keeps (cstring link fuel addr) (KeptOutside link before) := by
  induction fuel generalizing addr with
  | zero => exact Keeps.fail
  | succ fuel ih =>
      unfold cstring
      refine Keeps.seq (Keeps.seq Keeps.stopIf fun _ => Keeps.reads) fun byte => ?_
      exact Keeps.ite Keeps.pure (Keeps.seq (ih _) fun _ => Keeps.pure)

theorem buildStack_outside (root sz : Nat) (args : List Arg) :
    Keeps (buildStack link root sz args) (KeptOutside link before) := by
  have push : ∀ args stack, Keeps (pushArgs link stack args) (KeptOutside link before) := by
    intro args
    induction args with
    | nil => exact fun _ => Keeps.pure
    | cons arg rest ih =>
        intro stack
        unfold pushArgs pushArg
        refine Keeps.seq (ih stack) fun stack => Keeps.seq ?_ fun bytes => ?_
        · cases arg with
          | text bytes => exact Keeps.pure
          | page pg => exact cstring_outside before _ _
        · exact Keeps.seq (storeBytes_outside before _ _) fun _ => Keeps.pure
  unfold buildStack pushUstack
  refine Keeps.seq (kalloc_outside before) fun sp => Keeps.seq (push _ _) fun stack => ?_
  refine Keeps.seq (Keeps.seq Keeps.stopIf fun _ =>
    Keeps.seq (storeBytes_outside before _ _) fun _ => Keeps.pure) fun argv => ?_
  exact Keeps.seq (mappages_outside before _ _ _ _ _) fun _ => Keeps.pure

end

end Gcgos.Kernel
