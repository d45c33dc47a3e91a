import Gcgos.Lib.Bytes
import Mathlib.Data.List.Nodup

/-!
# Straight-line AArch64 code

The moves, loads and stores that code for saving and restoring registers is
made of, over the general registers, the stack pointer, some system registers
and a byte-addressed memory behind a translation of addresses. Two rules carry
the proofs: a run of `stp` puts registers into the words of an area, and a run
of `ldp` takes them out again.
-/

set_option autoImplicit false

namespace Arm

open ByteMap

/-- The operands `x0` to `x31`. As an operand of a move, a load or a store,
`x31` is the zero register. -/
inductive Reg where
  | x0 | x1 | x2 | x3 | x4 | x5 | x6 | x7 | x8 | x9 | x10 | x11 | x12 | x13 | x14 | x15
  | x16 | x17 | x18 | x19 | x20 | x21 | x22 | x23 | x24 | x25 | x26 | x27 | x28 | x29 | x30 | x31
deriving DecidableEq

inductive SysReg where
  | elr_el1 | spsr_el1 | sp_el0 | ttbr0_el1 | esr_el1 | CurrentEL
deriving DecidableEq

structure Cpu where
  x : Reg → UInt64
  sp : UInt64
  sys : SysReg → UInt64
  mem : UInt64 → UInt8

/-- The register an address is relative to. -/
inductive Base where
  | reg (r : Reg)
  | sp
deriving DecidableEq

inductive Instr where
  /-- `mov sp, src` -/
  | movToSp (src : Reg)
  /-- `mov dst, sp` -/
  | movFromSp (dst : Reg)
  | mov (dst src : Reg)
  /-- `mov dst, #value` and `ldr dst, =value` -/
  | movValue (dst : Reg) (value : UInt64)
  | mrs (dst : Reg) (src : SysReg)
  | msr (dst : SysReg) (src : Reg)
  | ldr (dst : Reg) (base : Base) (offset : Nat)
  | str (src : Reg) (base : Base) (offset : Nat)
  | ldp (first second : Reg) (base : Base) (offset : Nat)
  | stp (first second : Reg) (base : Base) (offset : Nat)
  /-- `sub sp, sp, #size` -/
  | subSp (size : UInt64)
  /-- `add sp, sp, #size` -/
  | addSp (size : UInt64)
  /-- `dsb`, `isb` and `tlbi`, which order accesses and touch no register. -/
  | barrier
deriving DecidableEq

namespace Cpu

def reg (c : Cpu) (r : Reg) : UInt64 := if r = .x31 then 0 else c.x r

def setReg (c : Cpu) (r : Reg) (value : UInt64) : Cpu :=
  if r = .x31 then c else { c with x := Function.update c.x r value }

def setSys (c : Cpu) (r : SysReg) (value : UInt64) : Cpu :=
  { c with sys := Function.update c.sys r value }

def base (c : Cpu) : Base → UInt64
  | .reg r => c.reg r
  | .sp => c.sp

end Cpu

section

variable (translate : (ttbr va : UInt64) → UInt64)

namespace Cpu

/-- The bytes from `base` on, as the address space in `ttbr0_el1` shows them. -/
def bytesAt (c : Cpu) (base : UInt64) (i : Nat) : UInt8 :=
  c.mem (translate (c.sys .ttbr0_el1) (base + UInt64.ofNat i))

def loadAt (c : Cpu) (base : UInt64) (offset : Nat) : UInt64 :=
  UInt64.ofNat (leNat (c.bytesAt translate base) offset 8)

def storeAt (c : Cpu) (base : UInt64) (offset : Nat) (value : UInt64) : Cpu :=
  { c with
    mem := fun a =>
      match (List.range 8).find? fun i =>
          decide (translate (c.sys .ttbr0_el1) (base + UInt64.ofNat (offset + i)) = a) with
      | some i => (leBytes 8 value.toNat).getD i 0
      | none => c.mem a }

end Cpu

def step (c : Cpu) : Instr → Cpu
  | .movToSp src => { c with sp := c.reg src }
  | .movFromSp dst => c.setReg dst c.sp
  | .mov dst src => c.setReg dst (c.reg src)
  | .movValue dst value => c.setReg dst value
  | .mrs dst src => c.setReg dst (c.sys src)
  | .msr dst src => c.setSys dst (c.reg src)
  | .ldr dst base offset => c.setReg dst (c.loadAt translate (c.base base) offset)
  | .str src base offset => c.storeAt translate (c.base base) offset (c.reg src)
  | .ldp first second base offset =>
      (c.setReg first (c.loadAt translate (c.base base) offset)).setReg second
        (c.loadAt translate (c.base base) (offset + 8))
  | .stp first second base offset =>
      (c.storeAt translate (c.base base) offset (c.reg first)).storeAt translate (c.base base)
        (offset + 8) (c.reg second)
  | .subSp size => { c with sp := c.sp - size }
  | .addSp size => { c with sp := c.sp + size }
  | .barrier => c

def exec (prog : List Instr) (c : Cpu) : Cpu := prog.foldl (step translate) c

/-- Different offsets below `size` are different places of memory. -/
def Area (ttbr base : UInt64) (size : Nat) : Prop :=
  ∀ i j, i < size → j < size →
    translate ttbr (base + UInt64.ofNat i) = translate ttbr (base + UInt64.ofNat j) → i = j

/-- The `size` bytes from `va` on are those from `frame` on. -/
def Mapped (ttbr va frame : UInt64) (size : Nat) : Prop :=
  ∀ i, i < size → translate ttbr (va + UInt64.ofNat i) = frame + UInt64.ofNat i

end

namespace Cpu

@[simp] theorem setReg_sp (c : Cpu) (r : Reg) (value : UInt64) : (c.setReg r value).sp = c.sp := by
  unfold setReg
  split <;> rfl

@[simp] theorem setReg_sys (c : Cpu) (r : Reg) (value : UInt64) :
    (c.setReg r value).sys = c.sys := by
  unfold setReg
  split <;> rfl

@[simp] theorem setReg_mem (c : Cpu) (r : Reg) (value : UInt64) :
    (c.setReg r value).mem = c.mem := by
  unfold setReg
  split <;> rfl

theorem setReg_same (c : Cpu) {r : Reg} (value : UInt64) (real : r ≠ .x31) :
    (c.setReg r value).x r = value := by
  simp [setReg, real]

theorem setReg_other (c : Cpu) {r q : Reg} (value : UInt64) (different : q ≠ r) :
    (c.setReg r value).x q = c.x q := by
  unfold setReg
  split
  · rfl
  · exact Function.update_of_ne different _ _

theorem reg_of_real (c : Cpu) {r : Reg} (real : r ≠ .x31) : c.reg r = c.x r := if_neg real

end Cpu

section

variable {translate : (ttbr va : UInt64) → UInt64}

theorem exec_append (left right : List Instr) (c : Cpu) :
    exec translate (left ++ right) c = exec translate right (exec translate left c) :=
  List.foldl_append

theorem exec_cons (i : Instr) (prog : List Instr) (c : Cpu) :
    exec translate (i :: prog) c = exec translate prog (step translate c i) := rfl

theorem Mapped.area {ttbr va frame : UInt64} {size : Nat}
    (mapped : Mapped translate ttbr va frame size) (small : size ≤ UInt64.size) :
    Area translate ttbr va size := by
  intro i j iBound jBound same
  rw [mapped i iBound, mapped j jBound] at same
  have offsets := congrArg UInt64.toNat ((UInt64.add_right_inj frame).mp same)
  rw [UInt64.toNat_ofNat_of_lt' (by omega), UInt64.toNat_ofNat_of_lt' (by omega)] at offsets
  exact offsets

namespace Cpu

@[simp] theorem storeAt_x (c : Cpu) (base : UInt64) (offset : Nat) (value : UInt64) :
    (c.storeAt translate base offset value).x = c.x := rfl

@[simp] theorem storeAt_sys (c : Cpu) (base : UInt64) (offset : Nat) (value : UInt64) :
    (c.storeAt translate base offset value).sys = c.sys := rfl

/-- A stored word is seen at its offset, and nowhere else in the area. -/
theorem bytesAt_storeAt {c : Cpu} {base : UInt64} {size : Nat}
    (area : Area translate (c.sys .ttbr0_el1) base size) {offset : Nat} (value : UInt64)
    (fits : offset + 8 ≤ size) {i : Nat} (bound : i < size) :
    (c.storeAt translate base offset value).bytesAt translate base i =
      putBytes (c.bytesAt translate base) offset (leBytes 8 value.toNat) i := by
  have place : ∀ k, k < 8 →
      (translate (c.sys .ttbr0_el1) (base + UInt64.ofNat (offset + k)) =
        translate (c.sys .ttbr0_el1) (base + UInt64.ofNat i) ↔ offset + k = i) := by
    intro k small
    exact ⟨area _ _ (by omega) bound, fun same => by rw [same]⟩
  unfold bytesAt storeAt putBytes
  simp only [leBytes_length]
  by_cases inside : offset ≤ i ∧ i < offset + 8
  · rw [if_pos inside]
    have found : (List.range 8).find? (fun k =>
        decide (translate (c.sys .ttbr0_el1) (base + UInt64.ofNat (offset + k)) =
          translate (c.sys .ttbr0_el1) (base + UInt64.ofNat i))) = some (i - offset) := by
      rw [List.find?_range_eq_some]
      refine ⟨decide_eq_true ((place _ (by omega)).mpr (by omega)), by
        rw [List.mem_range]; omega, ?_⟩
      intro k before
      have other : ¬offset + k = i := by omega
      simpa only [Bool.not_eq_true', decide_eq_false_iff_not, place k (by omega)] using other
    rw [found]
  · rw [if_neg inside]
    have missing : (List.range 8).find? (fun k =>
        decide (translate (c.sys .ttbr0_el1) (base + UInt64.ofNat (offset + k)) =
          translate (c.sys .ttbr0_el1) (base + UInt64.ofNat i))) = none := by
      rw [List.find?_eq_none]
      intro k member
      rw [List.mem_range] at member
      simp only [decide_eq_true_eq, place k member]
      omega
    rw [missing]

theorem loadAt_storeAt {c : Cpu} {base : UInt64} {size : Nat}
    (area : Area translate (c.sys .ttbr0_el1) base size) {offset : Nat} (value : UInt64)
    (fits : offset + 8 ≤ size) :
    (c.storeAt translate base offset value).loadAt translate base offset = value := by
  have bytes : leNat ((c.storeAt translate base offset value).bytesAt translate base) offset 8 =
      value.toNat := by
    have stored := leNat_putBytes_leBytes (c.bytesAt translate base) offset 8 value.toNat
    rw [Nat.mod_eq_of_lt (show value.toNat < 256 ^ 8 from value.toNat_lt)] at stored
    rw [← stored]
    exact leNat_congr fun i _ upper => bytesAt_storeAt area value fits (by omega)
  unfold loadAt
  rw [bytes, UInt64.ofNat_toNat]

theorem loadAt_storeAt_apart {c : Cpu} {base : UInt64} {size : Nat}
    (area : Area translate (c.sys .ttbr0_el1) base size) {offset other : Nat} (value : UInt64)
    (fits : offset + 8 ≤ size) (fitsOther : other + 8 ≤ size)
    (apart : other + 8 ≤ offset ∨ offset + 8 ≤ other) :
    (c.storeAt translate base offset value).loadAt translate base other =
      c.loadAt translate base other := by
  have bytes : leNat ((c.storeAt translate base offset value).bytesAt translate base) other 8 =
      leNat (c.bytesAt translate base) other 8 := by
    apply leNat_congr
    intro i lower upper
    rw [bytesAt_storeAt area value fits (by omega)]
    exact putBytes_outside (by rw [leBytes_length]; omega)
  unfold loadAt
  rw [bytes]

/-- What a word reads depends on its eight bytes. -/
theorem loadAt_congr {c d : Cpu} {base base' : UInt64} {offset : Nat}
    (same : ∀ i, offset ≤ i → i < offset + 8 →
      c.bytesAt translate base i = d.bytesAt translate base' i) :
    c.loadAt translate base offset = d.loadAt translate base' offset := by
  unfold loadAt
  rw [leNat_congr same]

theorem loadAt_of_mem {c d : Cpu} (mem : c.mem = d.mem)
    (ttbr : c.sys .ttbr0_el1 = d.sys .ttbr0_el1) (base : UInt64) (offset : Nat) :
    c.loadAt translate base offset = d.loadAt translate base offset := by
  apply loadAt_congr
  intro i _ _
  unfold bytesAt
  rw [mem, ttbr]

end Cpu

/-! ## Saving and restoring -/

/-- Two registers and the offset of the first of their two words. -/
abbrev Pair : Type := Reg × Reg × Nat

def saves (base : Base) (pairs : List Pair) : List Instr :=
  pairs.map fun pair => .stp pair.1 pair.2.1 base pair.2.2

def restores (base : Base) (pairs : List Pair) : List Instr :=
  pairs.map fun pair => .ldp pair.1 pair.2.1 base pair.2.2

/-- The word of each register. -/
def slots (pairs : List Pair) : List (Reg × Nat) :=
  pairs.flatMap fun pair => [(pair.1, pair.2.2), (pair.2.1, pair.2.2 + 8)]

/-- The words of the pairs are apart and inside the area. -/
structure Laid (size : Nat) (pairs : List Pair) : Prop where
  apart : pairs.Pairwise fun p q => p.2.2 + 16 ≤ q.2.2 ∨ q.2.2 + 16 ≤ p.2.2
  inside : ∀ pair ∈ pairs, pair.2.2 + 16 ≤ size

end

section

variable (translate : (ttbr va : UInt64) → UInt64)

/-- What a run of `stp` leaves: every register in its word, and the other words
of the area as they were. -/
structure Saved (c d : Cpu) (start : UInt64) (size : Nat) (pairs : List Pair) : Prop where
  x : d.x = c.x
  sp : d.sp = c.sp
  sys : d.sys = c.sys
  words : ∀ slot ∈ slots pairs, d.loadAt translate start slot.2 = c.reg slot.1
  others : ∀ offset, offset + 8 ≤ size →
    (∀ pair ∈ pairs, offset + 8 ≤ pair.2.2 ∨ pair.2.2 + 16 ≤ offset) →
      d.loadAt translate start offset = c.loadAt translate start offset

/-- What a run of `ldp` leaves: every register has its word. -/
structure Restored (c d : Cpu) (start : UInt64) (pairs : List Pair) : Prop where
  sp : d.sp = c.sp
  sys : d.sys = c.sys
  mem : d.mem = c.mem
  words : ∀ slot ∈ slots pairs, slot.1 ≠ .x31 → d.x slot.1 = c.loadAt translate start slot.2
  others : ∀ r, r ∉ (slots pairs).map Prod.fst → d.x r = c.x r

end

section

variable {translate : (ttbr va : UInt64) → UInt64}

theorem base_congr {c d : Cpu} (x : d.x = c.x) (sp : d.sp = c.sp) (base : Base) :
    d.base base = c.base base := by
  cases base with
  | reg r => simp only [Cpu.base, Cpu.reg, x]
  | sp => exact sp

theorem step_stp {c : Cpu} {base : Base} {size : Nat} (first second : Reg) (offset : Nat)
    (area : Area translate (c.sys .ttbr0_el1) (c.base base) size) (fits : offset + 16 ≤ size) :
    Saved translate c (step translate c (.stp first second base offset)) (c.base base) size
      [(first, second, offset)] := by
  rw [step]
  have areaMid : Area translate ((c.storeAt translate (c.base base) offset (c.reg first)).sys
      .ttbr0_el1) (c.base base) size := area
  refine ⟨rfl, rfl, rfl, ?_, ?_⟩
  · intro slot member
    simp only [slots, List.flatMap_cons, List.flatMap_nil, List.append_nil, List.mem_cons,
      List.not_mem_nil, or_false] at member
    rcases member with rfl | rfl
    · rw [Cpu.loadAt_storeAt_apart areaMid _ (by omega) (by omega) (by omega),
        Cpu.loadAt_storeAt area _ (by omega)]
    · rw [Cpu.loadAt_storeAt areaMid _ (by omega)]
  · intro other bound apart
    have away := apart _ List.mem_cons_self
    simp only at away
    rw [Cpu.loadAt_storeAt_apart areaMid _ (by omega) (by omega) (by omega),
      Cpu.loadAt_storeAt_apart area _ (by omega) (by omega) (by omega)]

theorem exec_saves {c : Cpu} (base : Base) {size : Nat} {pairs : List Pair}
    (area : Area translate (c.sys .ttbr0_el1) (c.base base) size) (laid : Laid size pairs) :
    Saved translate c (exec translate (saves base pairs) c) (c.base base) size pairs := by
  induction pairs generalizing c with
  | nil => exact ⟨rfl, rfl, rfl, fun _ member => by simp [slots] at member, fun _ _ _ => rfl⟩
  | cons pair pairs ih =>
      obtain ⟨first, second, offset⟩ := pair
      have apart := List.pairwise_cons.mp laid.apart
      have head := step_stp first second offset area (laid.inside _ List.mem_cons_self)
      have same := base_congr head.x head.sp base
      have tail := ih (c := step translate c (.stp first second base offset))
        (by rw [same, head.sys]; exact area)
        ⟨apart.2, fun p member => laid.inside p (List.mem_cons_of_mem _ member)⟩
      rw [same] at tail
      rw [show saves base ((first, second, offset) :: pairs) =
        .stp first second base offset :: saves base pairs from rfl, exec_cons]
      refine ⟨tail.x.trans head.x, tail.sp.trans head.sp, tail.sys.trans head.sys, ?_, ?_⟩
      · intro slot member
        simp only [slots, List.flatMap_cons, List.mem_append] at member
        rcases member with here | there
        · have fits := laid.inside _ List.mem_cons_self
          have inside : offset ≤ slot.2 ∧ slot.2 + 8 ≤ offset + 16 := by
            simp only [List.mem_cons, List.not_mem_nil, or_false] at here
            rcases here with rfl | rfl
            · simp
            · simp
          refine (tail.others slot.2 (by simp only at fits; omega) ?_).trans
            (head.words slot (by simpa [slots] using here))
          intro p member
          have away := apart.1 p member
          simp only at away
          omega
        · rw [tail.words slot there, Cpu.reg, Cpu.reg, head.x]
      · intro other bound away
        exact (tail.others other bound fun p member => away p (List.mem_cons_of_mem _ member)).trans
          (head.others other bound fun p member => by
            rw [List.mem_singleton] at member
            rw [member]
            exact away _ List.mem_cons_self)

/-- A store leaves the places that it does not name. -/
theorem Cpu.storeAt_mem_other (c : Cpu) (base : UInt64) (offset : Nat) (value : UInt64)
    {place : UInt64} (apart : ∀ k, offset ≤ k → k < offset + 8 →
      translate (c.sys .ttbr0_el1) (base + UInt64.ofNat k) ≠ place) :
    (c.storeAt translate base offset value).mem place = c.mem place := by
  have missing : (List.range 8).find? (fun i =>
      decide (translate (c.sys .ttbr0_el1) (base + UInt64.ofNat (offset + i)) = place)) = none := by
    rw [List.find?_eq_none]
    intro i member
    rw [List.mem_range] at member
    simpa only [decide_eq_true_eq] using apart (offset + i) (by omega) (by omega)
  unfold Cpu.storeAt
  simp only [missing]

/-- A run of `stp` leaves every register. -/
theorem exec_saves_registers (c : Cpu) (base : Base) (pairs : List Pair) :
    (exec translate (saves base pairs) c).x = c.x ∧
      (exec translate (saves base pairs) c).sp = c.sp ∧
      (exec translate (saves base pairs) c).sys = c.sys := by
  induction pairs generalizing c with
  | nil => exact ⟨rfl, rfl, rfl⟩
  | cons pair pairs ih => exact ih (step translate c (.stp pair.1 pair.2.1 base pair.2.2))

/-- A run of `stp` leaves the places outside of its area. -/
theorem exec_saves_mem {c : Cpu} (base : Base) {size : Nat} {pairs : List Pair}
    (inside : ∀ pair ∈ pairs, pair.2.2 + 16 ≤ size) {place : UInt64}
    (apart : ∀ k, k < size →
      translate (c.sys .ttbr0_el1) (c.base base + UInt64.ofNat k) ≠ place) :
    (exec translate (saves base pairs) c).mem place = c.mem place := by
  induction pairs generalizing c with
  | nil => rfl
  | cons pair pairs ih =>
      obtain ⟨first, second, offset⟩ := pair
      have fits := inside _ List.mem_cons_self
      have same := base_congr (d := step translate c (.stp first second base offset)) rfl rfl base
      rw [show saves base ((first, second, offset) :: pairs) =
        .stp first second base offset :: saves base pairs from rfl, exec_cons]
      rw [ih (fun p member => inside p (List.mem_cons_of_mem _ member)) (by rw [same]; exact apart)]
      simp only at fits
      have low : (c.storeAt translate (c.base base) offset (c.reg first)).mem place = c.mem place :=
        Cpu.storeAt_mem_other c _ _ _ fun k _ _ => apart k (by omega)
      rw [← low]
      exact Cpu.storeAt_mem_other _ (c.base base) (offset + 8) _ fun k _ _ => apart k (by omega)

/-- A base that none of the loads overwrites. -/
def Base.Kept (base : Base) (pairs : List Pair) : Prop :=
  ∀ r, base = .reg r → r ∉ (slots pairs).map Prod.fst

theorem step_ldp (c : Cpu) (base : Base) (first second : Reg) (offset : Nat)
    (different : first ≠ second) :
    Restored translate c (step translate c (.ldp first second base offset)) (c.base base)
      [(first, second, offset)] := by
  refine ⟨by simp [step], by simp [step], by simp [step], ?_, ?_⟩
  · intro slot member real
    simp only [slots, List.flatMap_cons, List.flatMap_nil, List.append_nil, List.mem_cons,
      List.not_mem_nil, or_false] at member
    rcases member with rfl | rfl
    · exact (Cpu.setReg_other _ _ different).trans (Cpu.setReg_same _ _ real)
    · exact Cpu.setReg_same _ _ real
  · intro r away
    simp only [slots, List.flatMap_cons, List.flatMap_nil, List.append_nil, List.map_cons,
      List.map_nil, List.mem_cons, List.not_mem_nil, or_false, not_or] at away
    exact (Cpu.setReg_other _ _ away.2).trans (Cpu.setReg_other _ _ away.1)

theorem Restored.base_eq {c d : Cpu} {start : UInt64} {pairs : List Pair}
    (restored : Restored translate c d start pairs) {base : Base} (kept : base.Kept pairs) :
    d.base base = c.base base := by
  cases base with
  | reg r => simp only [Cpu.base, Cpu.reg, restored.others r (kept r rfl)]
  | sp => exact restored.sp

theorem Restored.loadAt_eq {c d : Cpu} {start : UInt64} {pairs : List Pair}
    (restored : Restored translate c d start pairs) (base : UInt64) (offset : Nat) :
    d.loadAt translate base offset = c.loadAt translate base offset :=
  Cpu.loadAt_of_mem restored.mem (by rw [restored.sys]) base offset

theorem exec_restores {c : Cpu} (base : Base) {pairs : List Pair} (kept : base.Kept pairs)
    (distinct : ((slots pairs).map Prod.fst).Nodup) :
    Restored translate c (exec translate (restores base pairs) c) (c.base base) pairs := by
  induction pairs generalizing c with
  | nil => exact ⟨rfl, rfl, rfl, fun _ member => by simp [slots] at member, fun _ _ => rfl⟩
  | cons pair pairs ih =>
      obtain ⟨first, second, offset⟩ := pair
      have split : (slots ((first, second, offset) :: pairs)).map Prod.fst =
          first :: second :: (slots pairs).map Prod.fst := rfl
      rw [split, List.nodup_cons, List.nodup_cons] at distinct
      obtain ⟨firstNew, secondNew, rest⟩ := distinct
      have head : Restored translate c (step translate c (.ldp first second base offset))
          (c.base base) [(first, second, offset)] :=
        step_ldp c base first second offset fun same => firstNew (same ▸ List.mem_cons_self)
      have same := head.base_eq fun r is hit => kept r is (by
        rw [split]
        simp only [slots, List.flatMap_cons, List.flatMap_nil, List.append_nil, List.map_cons,
          List.map_nil, List.mem_cons, List.not_mem_nil, or_false] at hit
        simp only [List.mem_cons]
        exact hit.elim Or.inl fun there => Or.inr (Or.inl there))
      have tail := ih (c := step translate c (.ldp first second base offset)) (fun r is hit =>
        kept r is (List.mem_cons_of_mem _ (List.mem_cons_of_mem _ hit))) rest
      rw [same] at tail
      rw [show restores base ((first, second, offset) :: pairs) =
        .ldp first second base offset :: restores base pairs from rfl, exec_cons]
      refine ⟨tail.sp.trans head.sp, tail.sys.trans head.sys, tail.mem.trans head.mem, ?_, ?_⟩
      · intro slot member real
        simp only [slots, List.flatMap_cons, List.mem_append] at member
        rcases member with here | there
        · have name : slot.1 = first ∨ slot.1 = second := by
            simp only [List.mem_cons, List.not_mem_nil, or_false] at here
            rcases here with rfl | rfl
            · exact Or.inl rfl
            · exact Or.inr rfl
          refine (tail.others slot.1 ?_).trans (head.words slot (by simpa [slots] using here) real)
          rcases name with name | name
          · rw [name]
            exact fun hit => firstNew (List.mem_cons_of_mem _ hit)
          · rw [name]
            exact secondNew
        · exact (tail.words slot there real).trans (head.loadAt_eq _ _)
      · intro r away
        rw [split] at away
        simp only [List.mem_cons, not_or] at away
        refine (tail.others r away.2.2).trans (head.others r ?_)
        simp only [slots, List.flatMap_cons, List.flatMap_nil, List.append_nil, List.map_cons,
          List.map_nil, List.mem_cons, List.not_mem_nil, or_false, not_or]
        exact ⟨away.1, away.2.1⟩

end

end Arm
