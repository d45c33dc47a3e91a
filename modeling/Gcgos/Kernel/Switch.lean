import Gcgos.Kernel.Trap

/-!
# Context switches

`kernel/swtch.S`, instruction by instruction up to its `ret`. The restoring
half loads the saved stack pointer into `x18` to move it to `sp`, and then the
same pair once more, so that `x18` is left with the stack pointer. Every other
register that `struct context` has comes back, through any number of switches
and any other code that do not write to the context.
-/

set_option autoImplicit false

namespace Gcgos.Kernel

open Arm ByteMap

/-- The fields of `struct context`. -/
inductive ContextField where
  | sp
  | x (r : Reg)
deriving DecidableEq

/-- The order in which the structure declares them. -/
def contextFields : List ContextField :=
  [.sp, .x .x18, .x .x19, .x .x20, .x .x21, .x .x22, .x .x23, .x .x24, .x .x25, .x .x26,
    .x .x27, .x .x28, .x .x29, .x .x30]

/-- Every field is a `uint64`. -/
def ContextField.offset (field : ContextField) : Nat := 8 * contextFields.idxOf field

/-- `sizeof(struct context)`. -/
abbrev contextSize : Nat := 112

/-- What a register of the processor holds. -/
def ContextField.value (c : Cpu) : ContextField → UInt64
  | .sp => c.sp
  | .x r => c.x r

/-- The pairs that both halves go through, with the offsets in the code. -/
def swtchPairs : List Pair :=
  [(.x19, .x20, 0x10), (.x21, .x22, 0x20), (.x23, .x24, 0x30), (.x25, .x26, 0x40),
    (.x27, .x28, 0x50), (.x29, .x30, 0x60)]

/-- The half that saves to the context at `x0`. -/
def swtchSave : List Instr :=
  saves (.reg .x0) swtchPairs ++
    [.movFromSp .x19,
      .stp .x19 .x18 (.reg .x0) 0]

/-- The half that restores from the context at `x1`. -/
def swtchRestore : List Instr :=
  [.ldp .x18 .x19 (.reg .x1) 0,
    .movToSp .x18,
    .ldp .x18 .x19 (.reg .x1) 0] ++
    restores (.reg .x1) swtchPairs

/-- `swtch(x0, x1)` in front of its `ret`, which goes on at the address in
`x30`. -/
def swtch : List Instr := swtchSave ++ swtchRestore

example : saves (.reg .x0) swtchPairs =
    [.stp .x19 .x20 (.reg .x0) 0x10, .stp .x21 .x22 (.reg .x0) 0x20,
      .stp .x23 .x24 (.reg .x0) 0x30, .stp .x25 .x26 (.reg .x0) 0x40,
      .stp .x27 .x28 (.reg .x0) 0x50, .stp .x29 .x30 (.reg .x0) 0x60] := rfl

/-- Execution goes on with every register of `struct context` as it was. -/
def Resumes (before after : Cpu) : Prop :=
  ∀ field ∈ contextFields, field.value after = field.value before

section

variable (translate : (ttbr va : UInt64) → UInt64)

/-- The context at `a` holds what the registers of `c` held. -/
def ContextHolds (c : Cpu) (a : UInt64) (d : Cpu) : Prop :=
  ∀ field ∈ contextFields, d.loadAt translate a field.offset = field.value c

/-- The processor's address space and the bytes of the context at `a` are the
same. -/
structure ContextKept (a : UInt64) (c d : Cpu) : Prop where
  ttbr : d.sys .ttbr0_el1 = c.sys .ttbr0_el1
  bytes : ∀ i, i < contextSize → d.bytesAt translate a i = c.bytesAt translate a i

/-- The contexts at `b` and `a` have no byte in common. -/
def ContextsApart (ttbr b a : UInt64) : Prop :=
  ∀ i j, i < contextSize → j < contextSize →
    translate ttbr (b + UInt64.ofNat i) ≠ translate ttbr (a + UInt64.ofNat j)

/-- What happens while the owner of the context at `a` does not run: other
code, which leaves that context alone, and switches that save elsewhere. -/
inductive Meanwhile (a : UInt64) (start : Cpu) : Cpu → Prop where
  | here : Meanwhile a start start
  | code {c d : Cpu} : Meanwhile a start c → ContextKept translate a c d → Meanwhile a start d
  | call {c : Cpu} : Meanwhile a start c →
      ContextsApart translate (c.sys .ttbr0_el1) (c.x .x0) a →
      Meanwhile a start (exec translate swtch c)

end

section

variable {translate : (ttbr va : UInt64) → UInt64}

theorem ContextKept.trans {a : UInt64} {c d e : Cpu} (left : ContextKept translate a c d)
    (right : ContextKept translate a d e) : ContextKept translate a c e :=
  ⟨right.ttbr.trans left.ttbr, fun i bound => (right.bytes i bound).trans (left.bytes i bound)⟩

theorem contextField_inside {field : ContextField} (member : field ∈ contextFields) :
    field.offset + 8 ≤ contextSize := by
  revert member
  unfold contextFields
  simp only [List.mem_cons, List.not_mem_nil, or_false]
  rintro (rfl | rfl | rfl | rfl | rfl | rfl | rfl | rfl | rfl | rfl | rfl | rfl | rfl | rfl) <;>
    decide

/-- A context that has been kept holds the same registers. -/
theorem ContextKept.holds {a : UInt64} {b c d : Cpu} (kept : ContextKept translate a c d)
    (holds : ContextHolds translate b a c) : ContextHolds translate b a d := by
  intro field member
  have inside := contextField_inside member
  rw [← holds field member]
  exact Cpu.loadAt_congr fun i _ upper => kept.bytes i (by omega)

/-- Apart from the first two fields, a field is the word of one of the pairs. -/
theorem contextField_cases {field : ContextField} (member : field ∈ contextFields) :
    field = .sp ∨ field = .x .x18 ∨ ∃ slot ∈ slots swtchPairs,
      field = .x slot.1 ∧ field.offset = slot.2 ∧ slot.1 ≠ .x31 := by
  revert member
  unfold contextFields
  simp only [List.mem_cons, List.not_mem_nil, or_false]
  rintro (rfl | rfl | rfl | rfl | rfl | rfl | rfl | rfl | rfl | rfl | rfl | rfl | rfl | rfl)
  · exact Or.inl rfl
  · exact Or.inr (Or.inl rfl)
  all_goals exact Or.inr (Or.inr (by decide))

theorem swtchPairs_laid : Laid contextSize swtchPairs := ⟨by decide, by decide⟩

/-- The saving half behind its run of stores. -/
theorem swtchSave_run (c : Cpu) : exec translate swtchSave c =
    step translate (step translate (exec translate (saves (.reg .x0) swtchPairs) c)
      (.movFromSp .x19)) (.stp .x19 .x18 (.reg .x0) 0) := by
  unfold swtchSave
  rw [exec_append, exec_cons, exec_cons]
  rfl

/-- The saving half leaves all registers but `x19`. -/
theorem swtchSave_registers (c : Cpu) :
    (exec translate swtchSave c).sys = c.sys ∧
      ∀ r, r ≠ .x19 → (exec translate swtchSave c).x r = c.x r := by
  obtain ⟨x, -, sys⟩ := exec_saves_registers c (.reg .x0) swtchPairs
  rw [swtchSave_run]
  generalize exec translate (saves (.reg .x0) swtchPairs) c = d at x sys
  rw [← x, ← sys]
  exact ⟨Cpu.setReg_sys d .x19 d.sp, fun r other => Cpu.setReg_other d d.sp other⟩

/-- After the saving half the context at `x0` holds the registers. -/
theorem swtchSave_holds {c : Cpu} {a : UInt64} (here : c.x .x0 = a)
    (area : Area translate (c.sys .ttbr0_el1) a contextSize) :
    ContextHolds translate c a (exec translate swtchSave c) := by
  have base : c.base (.reg .x0) = a := here
  have saved : Saved translate c (exec translate (saves (.reg .x0) swtchPairs) c) a contextSize
      swtchPairs := by
    rw [← base] at area ⊢
    exact exec_saves (.reg .x0) area swtchPairs_laid
  rw [swtchSave_run]
  generalize exec translate (saves (.reg .x0) swtchPairs) c = d at saved
  obtain ⟨e, moved⟩ : ∃ e, e = step translate d (.movFromSp .x19) := ⟨_, rfl⟩
  have sys : e.sys = c.sys := by
    rw [moved, step, Cpu.setReg_sys, saved.sys]
  have x19 : e.x .x19 = c.sp := by
    rw [moved, step, Cpu.setReg_same _ _ (by decide), saved.sp]
  have others : ∀ r, r ≠ .x19 → e.x r = c.x r := by
    intro r other
    rw [moved, step, Cpu.setReg_other _ _ other, saved.x]
  have words : ∀ offset, e.loadAt translate a offset = d.loadAt translate a offset := by
    intro offset
    apply Cpu.loadAt_of_mem
    · rw [moved, step, Cpu.setReg_mem]
    · rw [sys, saved.sys]
  have pointer : e.base (.reg .x0) = a := (others .x0 (by decide)).trans here
  have last : Saved translate e (step translate e (.stp .x19 .x18 (.reg .x0) 0)) a contextSize
      [(.x19, .x18, 0)] := by
    have fits : Area translate (e.sys .ttbr0_el1) (e.base (.reg .x0)) contextSize := by
      rw [pointer, sys]
      exact area
    rw [← pointer]
    exact step_stp .x19 .x18 0 fits (by decide)
  rw [← moved]
  intro field member
  rcases contextField_cases member with rfl | rfl | ⟨slot, there, rfl, offset, real⟩
  · have word := last.words (.x19, 0) (by decide)
    rw [Cpu.reg_of_real _ (by decide), x19] at word
    exact word
  · have word := last.words (.x18, 8) (by decide)
    rw [Cpu.reg_of_real _ (by decide), others .x18 (by decide)] at word
    exact word
  · have place : 16 ≤ slot.2 ∧ slot.2 + 8 ≤ contextSize := by
      revert slot
      decide
    rw [offset, last.others slot.2 place.2 ?_, words, saved.words slot there,
      Cpu.reg_of_real _ real]
    · rfl
    · intro pair only
      rw [List.mem_singleton.mp only]
      exact Or.inr place.1

/-- The saving half leaves the other contexts. -/
theorem swtchSave_keeps {c : Cpu} {a : UInt64}
    (apart : ContextsApart translate (c.sys .ttbr0_el1) (c.x .x0) a) :
    ContextKept translate a c (exec translate swtchSave c) := by
  refine ⟨by rw [(swtchSave_registers c).1], fun i bound => ?_⟩
  have away : ∀ k, k < contextSize → translate (c.sys .ttbr0_el1)
      (c.base (.reg .x0) + UInt64.ofNat k) ≠ translate (c.sys .ttbr0_el1) (a + UInt64.ofNat i) :=
    fun k inside => apart k i inside bound
  have pairs : (exec translate (saves (.reg .x0) swtchPairs) c).mem
      (translate (c.sys .ttbr0_el1) (a + UInt64.ofNat i)) =
        c.mem (translate (c.sys .ttbr0_el1) (a + UInt64.ofNat i)) :=
    exec_saves_mem (.reg .x0) swtchPairs_laid.inside away
  obtain ⟨x, sp, sys⟩ := exec_saves_registers c (.reg .x0) swtchPairs
  unfold Cpu.bytesAt
  rw [(swtchSave_registers c).1, ← pairs, swtchSave_run]
  generalize exec translate (saves (.reg .x0) swtchPairs) c = d at x sp sys
  obtain ⟨e, moved⟩ : ∃ e, e = step translate d (.movFromSp .x19) := ⟨_, rfl⟩
  have base : e.base (.reg .x0) = c.base (.reg .x0) := by
    rw [moved, ← base_congr x sp (.reg .x0)]
    exact Cpu.setReg_other d d.sp (by decide)
  have last : (exec translate (saves (.reg .x0) [(.x19, .x18, 0)]) e).mem
      (translate (c.sys .ttbr0_el1) (a + UInt64.ofNat i)) =
        e.mem (translate (c.sys .ttbr0_el1) (a + UInt64.ofNat i)) := by
    have fits : ∀ pair ∈ [((.x19, .x18, 0) : Pair)], pair.2.2 + 16 ≤ contextSize := by decide
    refine exec_saves_mem (.reg .x0) fits ?_
    rw [base, moved, step, Cpu.setReg_sys, sys]
    exact away
  rw [← moved]
  refine last.trans ?_
  rw [moved]
  exact congrFun (Cpu.setReg_mem d .x19 d.sp) _

/-- What the restoring half leaves. -/
structure SwtchRestored (translate : (ttbr va : UInt64) → UInt64) (c d : Cpu) (a : UInt64) :
    Prop where
  fields : ∀ field ∈ contextFields, field ≠ .x .x18 →
    field.value d = c.loadAt translate a field.offset
  x18 : d.x .x18 = c.loadAt translate a 0
  sys : d.sys = c.sys
  mem : d.mem = c.mem

theorem swtchRestore_restores {c : Cpu} {a : UInt64} (here : c.x .x1 = a) :
    SwtchRestored translate c (exec translate swtchRestore c) a := by
  have base : c.base (.reg .x1) = a := here
  obtain ⟨d, loaded⟩ : ∃ d, d = step translate c (.ldp .x18 .x19 (.reg .x1) 0) := ⟨_, rfl⟩
  have head : Restored translate c d a [(.x18, .x19, 0)] := by
    rw [loaded, ← base]
    exact step_ldp c (.reg .x1) .x18 .x19 0 (by decide)
  obtain ⟨e, moved⟩ : ∃ e, e = step translate d (.movToSp .x18) := ⟨_, rfl⟩
  have pointer : e.base (.reg .x1) = a := by
    rw [moved]
    exact (head.others .x1 (by decide)).trans here
  have words : ∀ offset, e.loadAt translate a offset = c.loadAt translate a offset := by
    intro offset
    rw [← head.loadAt_eq a offset]
    exact Cpu.loadAt_of_mem (by rw [moved]; rfl) (by rw [moved]; rfl) a offset
  have sp : e.sp = c.loadAt translate a 0 := by
    rw [moved]
    exact (Cpu.reg_of_real d (by decide)).trans (head.words (.x18, 0) (by decide) (by decide))
  obtain ⟨f, again⟩ : ∃ f, f = step translate e (.ldp .x18 .x19 (.reg .x1) 0) := ⟨_, rfl⟩
  have second : Restored translate e f a [(.x18, .x19, 0)] := by
    rw [again, ← pointer]
    exact step_ldp e (.reg .x1) .x18 .x19 0 (by decide)
  have pointer' : f.base (.reg .x1) = a := (second.others .x1 (by decide)).trans pointer
  have kept : (Base.reg .x1).Kept swtchPairs := by
    intro r same
    cases same
    decide
  have rest : Restored translate f (exec translate (restores (.reg .x1) swtchPairs) f) a
      swtchPairs := by
    rw [← pointer']
    exact exec_restores (.reg .x1) kept (by decide)
  have whole : exec translate swtchRestore c =
      exec translate (restores (.reg .x1) swtchPairs) f := by
    rw [again, moved, loaded]
    rfl
  rw [whole]
  refine ⟨?_, ?_, ?_, ?_⟩
  · intro field member other
    rcases contextField_cases member with rfl | rfl | ⟨slot, there, rfl, offset, real⟩
    · exact rest.sp.trans (second.sp.trans sp)
    · exact absurd rfl other
    · rw [offset, ← words, ← second.loadAt_eq]
      exact rest.words slot there real
  · rw [rest.others .x18 (by decide), second.words (.x18, 0) (by decide) (by decide), words]
  · rw [rest.sys, second.sys, moved]
    exact head.sys
  · rw [rest.mem, second.mem, moved]
    exact head.mem

/-- The restoring half leaves every context. -/
theorem swtch_keeps_saved (c : Cpu) (a : UInt64) :
    ContextKept translate a (exec translate swtchSave c) (exec translate swtch c) := by
  have restored : SwtchRestored translate (exec translate swtchSave c) (exec translate swtch c)
      ((exec translate swtchSave c).x .x1) := by
    unfold swtch
    rw [exec_append]
    exact swtchRestore_restores rfl
  refine ⟨by rw [restored.sys], fun i bound => ?_⟩
  unfold Cpu.bytesAt
  rw [restored.sys, restored.mem]

/-- A switch leaves the contexts that it does not save to. -/
theorem swtch_keeps {c : Cpu} {a : UInt64}
    (apart : ContextsApart translate (c.sys .ttbr0_el1) (c.x .x0) a) :
    ContextKept translate a c (exec translate swtch c) :=
  (swtchSave_keeps apart).trans (swtch_keeps_saved c a)

theorem Meanwhile.kept {a : UInt64} {start c : Cpu} (run : Meanwhile translate a start c) :
    ContextKept translate a start c := by
  induction run with
  | here => exact ⟨rfl, fun _ _ => rfl⟩
  | code _ kept ih => exact ih.trans kept
  | call _ apart ih => exact ih.trans (swtch_keeps apart)

/-- After the switch back every field but `x18` has its word. -/
theorem swtch_returns {c : Cpu} {a : UInt64} (back : c.x .x1 = a)
    (apart : ContextsApart translate (c.sys .ttbr0_el1) (c.x .x0) a) :
    (∀ field ∈ contextFields, field ≠ .x .x18 →
      field.value (exec translate swtch c) = c.loadAt translate a field.offset) ∧
    (exec translate swtch c).x .x18 = c.loadAt translate a 0 := by
  have saved := swtchSave_keeps apart
  have target : (exec translate swtchSave c).x .x1 = a :=
    ((swtchSave_registers c).2 .x1 (by decide)).trans back
  have words : ∀ offset, offset + 8 ≤ contextSize →
      (exec translate swtchSave c).loadAt translate a offset = c.loadAt translate a offset :=
    fun offset inside => Cpu.loadAt_congr fun i _ upper => saved.bytes i (by omega)
  have restored : SwtchRestored translate (exec translate swtchSave c) (exec translate swtch c) a := by
    unfold swtch
    rw [exec_append]
    exact swtchRestore_restores target
  refine ⟨fun field member other => ?_, ?_⟩
  · rw [restored.fields field member other, words _ (contextField_inside member)]
  · rw [restored.x18, words 0 (by decide)]

/-- The switch back resumes with every register exactly when `x18` held the
stack pointer. -/
theorem swtch_resumes_iff {c d : Cpu} {a : UInt64} (save : c.x .x0 = a)
    (area : Area translate (c.sys .ttbr0_el1) a contextSize)
    (run : Meanwhile translate a (exec translate swtch c) d) (back : d.x .x1 = a)
    (apart : ContextsApart translate (d.sys .ttbr0_el1) (d.x .x0) a) :
    Resumes c (exec translate swtch d) ↔ c.x .x18 = c.sp := by
  have holds : ContextHolds translate c a d :=
    ((swtch_keeps_saved c a).trans run.kept).holds (swtchSave_holds save area)
  obtain ⟨others, x18⟩ := swtch_returns back apart
  have pointer : (exec translate swtch d).x .x18 = c.sp := x18.trans (holds .sp (by decide))
  constructor
  · intro resumes
    exact (resumes (.x .x18) (by decide)).symm.trans pointer
  · intro same field member
    by_cases scratch : field = .x .x18
    · rw [scratch]
      exact pointer.trans same.symm
    · rw [others field member scratch]
      exact holds field member

end

/-- A thread calls `swtch` from the context at 0x1000 to the one at 0x2000. -/
def switching (x18 : UInt64) : Cpu where
  x := fun r => if r = .x0 then 0x1000 else if r = .x1 then 0x2000 else if r = .x18 then x18 else 7
  sp := 0x90000
  sys := fun _ => 3
  mem := fun _ => 0

/-- The other thread calls `swtch` the other way round. -/
def switchingBack (x18 : UInt64) : Cpu :=
  { exec flat swtch (switching x18) with
    x := fun r => if r = .x0 then 0x2000 else if r = .x1 then 0x1000 else 9 }

theorem switchingBack_meanwhile (x18 : UInt64) :
    Meanwhile flat 0x1000 (exec flat swtch (switching x18)) (switchingBack x18) :=
  .code .here ⟨rfl, fun _ _ => rfl⟩

theorem switching_apart (ttbr : UInt64) : ContextsApart flat ttbr 0x2000 0x1000 := by
  intro i j inside inside' same
  have places := congrArg UInt64.toNat same
  unfold flat at places
  simp only [contextSize] at inside inside'
  have first : (UInt64.ofNat i).toNat = i := UInt64.toNat_ofNat_of_lt' (inside.trans (by decide))
  have second : (UInt64.ofNat j).toNat = j := UInt64.toNat_ofNat_of_lt' (inside'.trans (by decide))
  rw [UInt64.toNat_add, UInt64.toNat_add, first, second] at places
  change (0x2000 + i) % 2 ^ 64 = (0x1000 + j) % 2 ^ 64 at places
  omega

/-- A thread that keeps its stack pointer in `x18` too. -/
theorem swtch_resumes_pointer :
    Resumes (switching 0x90000) (exec flat swtch (switchingBack 0x90000)) :=
  (swtch_resumes_iff rfl (Mapped.area (fun _ _ => rfl) (by decide)) (switchingBack_meanwhile _) rfl
    (switching_apart _)).mpr rfl

/-- A thread with another value in `x18` loses it. -/
theorem swtch_loses_x18 :
    Meanwhile flat 0x1000 (exec flat swtch (switching 7)) (switchingBack 7) ∧
      (exec flat swtch (switchingBack 7)).x .x18 = 0x90000 ∧
      ¬Resumes (switching 7) (exec flat swtch (switchingBack 7)) := by
  have lost : (exec flat swtch (switchingBack 7)).x .x18 = 0x90000 := by
    decide +kernel
  refine ⟨switchingBack_meanwhile 7, lost, fun resumes => ?_⟩
  have kept : (exec flat swtch (switchingBack 7)).x .x18 = 7 := resumes (.x .x18) (by decide)
  rw [lost] at kept
  exact absurd kept (by decide)

end Gcgos.Kernel
