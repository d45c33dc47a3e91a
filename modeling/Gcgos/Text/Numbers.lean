import Gcgos.Text.Rendered

/-!
# Numbers in full

Reading the characters of a numeric directive back gives its argument in all
directives but two. The branch for `%x` takes `%p` as well and fetches 32 bits,
so a pointer from 2^32 on loses its upper half. And `%b` stores up to 64 binary
digits in a buffer of 20 cells.
-/

set_option autoImplicit false

namespace Gcgos.Text

open Act Numeral

/-- The argument a directive reads, at the width and the sign of its type. -/
def Number.argument : Number → UInt64 → Int
  | .d, slot => slot.toUInt32.toInt32.toInt
  | .u, slot | .x, slot => slot.toUInt32.toNat
  | .b, slot | .ld, slot | .lld, slot => slot.toInt64.toInt
  | .lu, slot | .llu, slot | .lx, slot | .llx, slot | .p, slot => slot.toNat

def readSigned (base : Nat) : List UInt8 → Option Int
  | [] => none
  | c :: rest =>
      if c = '-'.toUInt8 then (readNumeral base rest).map fun n : Nat => -(n : Int)
      else (readNumeral base (c :: rest)).map Int.ofNat

/-- A pointer may have `0x` in front. -/
def readPointer (text : List UInt8) : Option Int :=
  if text.take 2 = ['0', 'x'].map Char.toUInt8 then (readNumeral 16 (text.drop 2)).map Int.ofNat
  else (readNumeral 16 text).map Int.ofNat

/-- The number that the characters of a directive stand for in its base. -/
def Number.reads : Number → List UInt8 → Option Int
  | .p, text => readPointer text
  | .d, text | .ld, text | .lld, text | .u, text | .lu, text | .llu, text => readSigned 10 text
  | .x, text | .lx, text | .llx, text => readSigned 16 text
  | .b, text => readSigned 2 text

/-- The turn at a numeric directive fetches one argument, stays inside the
digit buffer, and what it sends reads as the argument. -/
def PrintsInFull (who : Version) (args : Arguments) (fmt : CString) (i : Nat) (kind : Number)
    (t : Printed) : Prop :=
  ∃ text next, percent who args fmt i t = .ok (some next, ⟨t.out ++ text, t.taken + 1⟩) ∧
    kind.reads text = some (kind.argument (args.slot t.taken))

section

variable {base : Nat}

/-- What a numeral starts with is one of its digits. -/
theorem numeral_cons (two : 2 ≤ base) (n : Nat) :
    ∃ d rest, numeral base n = d :: rest ∧ d < base := by
  obtain ⟨d, rest, shape⟩ := List.exists_cons_of_ne_nil (numeral_spells two n).nonempty
  exact ⟨d, rest, shape, numeral_digit two n d (by simp [shape])⟩

theorem digitChar_ne {c : UInt8} (none : digitValue c = none) {d : Nat} (small : d < 16) :
    digitChar d ≠ c := by
  rintro rfl
  rw [digitValue_digitChar small] at none
  cases none

theorem readSigned_numberText (two : 2 ≤ base) (small : base ≤ 16) (xx : Int64) (sign : Bool) :
    readSigned base (numberText base xx sign) =
      some (if sign then xx.toInt else (xx.toUInt64.toNat : Int)) := by
  have below : xx < 0 ↔ xx.toInt < 0 := Int64.lt_iff_toInt_lt
  have read := readNumeral_numeral two small (magnitude xx sign)
  obtain ⟨d, rest, shape, digit⟩ := numeral_cons two (magnitude xx sign)
  have plain : digitChar d ≠ '-'.toUInt8 := digitChar_ne (by decide) (by omega)
  rw [numberText, minus]
  by_cases negative : (sign && decide (xx < 0)) = true
  · obtain ⟨rfl, lower⟩ : sign = true ∧ xx.toInt < 0 := by simpa [below] using negative
    have value : magnitude xx true = xx.toInt.natAbs := rfl
    rw [if_pos negative, List.singleton_append, readSigned, if_pos rfl, read, Option.map_some,
      value, if_pos rfl]
    congr 1
    omega
  · rw [if_neg negative, List.nil_append, shape, List.map_cons, readSigned, if_neg plain,
      ← List.map_cons, ← shape, read, Option.map_some]
    congr 1
    cases sign with
    | false => rfl
    | true =>
        have upper : ¬xx.toInt < 0 := by simpa [below] using negative
        simp only [magnitude, if_true]
        exact Int.natAbs_of_nonneg (by omega)

theorem readPointer_numberText (xx : Int64) :
    readPointer (numberText 16 xx false) = some (xx.toUInt64.toNat : Int) := by
  have two : 2 ≤ 16 := by omega
  have read := readNumeral_numeral two (le_refl 16) (magnitude xx false)
  have plain : ((numeral 16 (magnitude xx false)).map digitChar).take 2 ≠
      ['0', 'x'].map Char.toUInt8 := by
    intro same
    have member : 'x'.toUInt8 ∈ (numeral 16 (magnitude xx false)).map digitChar := by
      apply List.mem_of_mem_take (i := 2)
      rw [same]
      decide
    obtain ⟨d, there, isX⟩ := List.mem_map.mp member
    exact digitChar_ne (by decide) (numeral_digit two _ d there) isX
  rw [numberText, minus, Bool.false_and, if_neg Bool.false_ne_true, List.nil_append, readPointer,
    if_neg plain, read]
  rfl

end

/-- All directives but `%p` print the whole argument; `%p` prints its lower
half. -/
theorem Number.reads_text (kind : Number) (slot : UInt64) :
    kind.reads (kind.text slot) = some (kind.argument slot) ↔
      (kind = .p → slot.toNat < 2 ^ 32) := by
  have decimal := readSigned_numberText (show 2 ≤ 10 by omega) (show 10 ≤ 16 by omega)
  have hexadecimal := readSigned_numberText (show 2 ≤ 16 by omega) (show 16 ≤ 16 by omega)
  have binary := readSigned_numberText (show 2 ≤ 2 by omega) (show 2 ≤ 16 by omega)
  have other {k : Number} (different : k ≠ .p)
      (reads : k.reads (k.text slot) = some (k.argument slot)) :
      k.reads (k.text slot) = some (k.argument slot) ↔ (k = .p → slot.toNat < 2 ^ 32) :=
    iff_of_true reads fun same => absurd same different
  cases kind with
  | d =>
      refine other (by decide) ((decimal (asInt slot) true).trans ?_)
      rw [if_pos rfl, asInt, Int32.toInt_toInt64]
      rfl
  | b => exact other (by decide) (binary slot.toInt64 true)
  | ld => exact other (by decide) (decimal slot.toInt64 true)
  | lld => exact other (by decide) (decimal slot.toInt64 true)
  | u => exact other (by decide) (decimal (asUint32 slot) false)
  | lu => exact other (by decide) (decimal slot.toInt64 false)
  | llu => exact other (by decide) (decimal slot.toInt64 false)
  | x => exact other (by decide) (hexadecimal (asUint32 slot) false)
  | lx => exact other (by decide) (hexadecimal slot.toInt64 false)
  | llx => exact other (by decide) (hexadecimal slot.toInt64 false)
  | p =>
      have low : slot.toUInt32.toNat = slot.toNat % 2 ^ 32 := UInt64.toNat_toUInt32 slot
      have text : Number.p.reads (Number.p.text slot) = some (slot.toUInt32.toNat : Int) :=
        readPointer_numberText (asUint32 slot)
      have argument : Number.p.argument slot = slot.toNat := rfl
      rw [text, argument, low, Option.some_inj]
      constructor
      · intro same _
        omega
      · intro small
        have := small rfl
        omega

/-- A numeric directive prints its argument in full exactly when a pointer is
below 2^32 and the binary digits fit the buffer. -/
theorem prints_in_full_iff (who : Version) (args : Arguments) (fmt : CString) (i : Nat)
    (kind : Number) (rest : List UInt8)
    (there : fmt.bytes.drop i = '%'.toUInt8 :: ((Directive.number kind).letters ++ rest))
    (t : Printed) :
    PrintsInFull who args fmt i kind t ↔
      (kind = .p → (args.slot t.taken).toNat < 2 ^ 32) ∧
        (kind = .b → BinaryFits (args.slot t.taken)) := by
  have fits := (Directive.number kind).fits_iff (args.slot t.taken)
  rw [Directive.number.injEq] at fits
  rw [← Number.reads_text, ← fits]
  have ran := percent_run who args t there
  rw [bind_run, directive_value_run] at ran
  constructor
  · rintro ⟨text, next, returned, reads⟩
    rw [ran] at returned
    by_cases fit : (Directive.number kind).Fits (args.slot t.taken)
    · rw [if_pos fit] at returned
      have sent : t.out ++ kind.text (args.slot t.taken) = t.out ++ text :=
        congrArg Printed.out (Prod.mk.inj (Except.ok.inj returned)).2
      rw [List.append_cancel_left sent]
      exact ⟨reads, fit⟩
    · rw [if_neg fit] at returned
      cases returned
  · rintro ⟨reads, fit⟩
    rw [if_pos fit] at ran
    exact ⟨kind.text (args.slot t.taken), _, ran, reads⟩

def formatOf (kind : Number) : CString where
  bytes := '%'.toUInt8 :: (Directive.number kind).letters
  noNul := by cases kind <;> decide

theorem prints_in_full_decimal :
    (formatOf .d).bytes.drop 0 = '%'.toUInt8 :: ((Directive.number .d).letters ++ []) ∧
      (PrintsInFull .user (constantArguments 0xffffffff) (formatOf .d) 0 .d ⟨[], 0⟩ ↔
        (Number.d = .p → (0xffffffff : UInt64).toNat < 2 ^ 32) ∧
          (Number.d = .b → BinaryFits 0xffffffff)) :=
  ⟨rfl, prints_in_full_iff .user (constantArguments 0xffffffff) (formatOf .d) 0 .d [] rfl ⟨[], 0⟩⟩

/-- `%p` prints the pointer 2^32 as a zero, and `%b` stores the 21 digits of
2^20. -/
theorem pointer_cut_binary_overrun :
    printf .kernel (formatOf .p) (constantArguments 0x100000000) ⟨[], 0⟩ =
        .ok ((), ⟨['0'.toUInt8], 1⟩) ∧
      Number.p.reads ['0'.toUInt8] ≠ some (Number.p.argument 0x100000000) ∧
      ¬PrintsInFull .kernel (constantArguments 0x100000000) (formatOf .p) 0 .p ⟨[], 0⟩ ∧
      printf .kernel (formatOf .b) (constantArguments 0x100000) ⟨[], 0⟩ = .error .pastBuffer ∧
      ¬PrintsInFull .kernel (constantArguments 0x100000) (formatOf .b) 0 .b ⟨[], 0⟩ := by
  have cut : percent .kernel (constantArguments 0x100000000) (formatOf .p) 0 ⟨[], 0⟩ =
      .ok (some 2, ⟨['0'.toUInt8], 1⟩) := by decide +kernel
  have stopped : percent .kernel (constantArguments 0x100000) (formatOf .b) 0 ⟨[], 0⟩ =
      .error .pastBuffer := by decide +kernel
  have wrong : Number.p.reads ['0'.toUInt8] ≠ some (Number.p.argument 0x100000000) := by decide
  refine ⟨by decide +kernel, wrong, ?_, by decide +kernel, ?_⟩
  · rintro ⟨text, next, returned, reads⟩
    rw [cut] at returned
    have sent : ['0'.toUInt8] = text :=
      congrArg Printed.out (Prod.mk.inj (Except.ok.inj returned)).2
    exact wrong (sent ▸ reads)
  · rintro ⟨text, next, returned, -⟩
    rw [stopped] at returned
    cases returned

end Gcgos.Text
