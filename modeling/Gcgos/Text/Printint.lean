import Gcgos.Lib.Act
import Gcgos.Lib.Numeral

/-!
# Printing one number

`kernel/printf.c` and `user/printf.c` are one text with two ways to send a
character. `printint` divides until nothing is left, stores the digits from
the last to the first in a buffer of 20 cells and sends them in reverse. A
store behind the buffer stops the run. In the bases 10 and 16 every 64-bit
argument fits, and what is sent is its one numeral without leading zeros.
-/

set_option autoImplicit false

namespace Gcgos.Text

open Act Numeral

/-- `consputc` of the kernel and `putc` of the user library. -/
inductive Version where
  | kernel
  | user

inductive Stop where
  /-- A read behind the NUL that ends a string. -/
  | pastString
  /-- A store behind the last cell of `buf`. -/
  | pastBuffer
  | running
deriving DecidableEq

/-- What was sent so far, and how many variadic arguments were fetched. -/
structure Printed where
  out : List UInt8
  taken : Nat
deriving DecidableEq

abbrev BACKSPACE : UInt32 := 0x100

def Version.sent : Version → UInt32 → List UInt8
  | .kernel, c => if c = BACKSPACE then [8, 32, 8] else [c.toUInt8]
  | .user, c => [c.toUInt8]

def Printed.send (t : Printed) (bytes : List UInt8) : Printed := { t with out := t.out ++ bytes }

def putc (who : Version) (c : UInt32) : Act Stop Printed Unit :=
  Act.modify fun t => t.send (who.sent c)

def putBytes (who : Version) : List UInt8 → Act Stop Printed Unit
  | [] => pure ()
  | c :: rest => do
      putc who c.toUInt32
      putBytes who rest

def digits : List UInt8 :=
  ['0', '1', '2', '3', '4', '5', '6', '7', '8', '9', 'a', 'b', 'c', 'd', 'e', 'f'].map
    Char.toUInt8

def digitChar (d : Nat) : UInt8 := digits.getD d 0

abbrev BUFSIZE : Nat := 20

/-- `buf[i++] = c`, with the cell filled last in front. -/
def store (buf : List UInt8) (c : UInt8) : Act Stop Printed (List UInt8) := do
  Act.stopIf (BUFSIZE ≤ buf.length) .pastBuffer
  pure (c :: buf)

def printintLoop (base : UInt64) : Nat → UInt64 → List UInt8 → Act Stop Printed (List UInt8)
  | 0, _, _ => Act.fail .running
  | fuel + 1, x, buf => do
      let buf ← store buf (digitChar (x % base).toNat)
      if x / base ≠ 0 then printintLoop base fuel (x / base) buf else pure buf

def printint (who : Version) (xx : Int64) (base : UInt64) (sign : Bool) :
    Act Stop Printed Unit := do
  let negative := sign && decide (xx < 0)
  let buf ← printintLoop base 64 (if negative then (-xx).toUInt64 else xx.toUInt64) []
  let buf ← if negative then store buf '-'.toUInt8 else pure buf
  putBytes who buf

def printptrLoop (who : Version) : Nat → UInt64 → Act Stop Printed Unit
  | 0, _ => pure ()
  | n + 1, x => do
      putc who (digitChar (x >>> 60).toNat).toUInt32
      printptrLoop who n (x <<< 4)

def printptr (who : Version) (x : UInt64) : Act Stop Printed Unit := do
  putc who '0'.val
  putc who 'x'.val
  printptrLoop who 16 x

/-! ## What a number is printed as -/

def magnitude (xx : Int64) (sign : Bool) : Nat :=
  if sign then xx.toInt.natAbs else xx.toUInt64.toNat

def minus (xx : Int64) (sign : Bool) : List UInt8 :=
  if sign && decide (xx < 0) then ['-'.toUInt8] else []

def numberText (base : Nat) (xx : Int64) (sign : Bool) : List UInt8 :=
  minus xx sign ++ (numeral base (magnitude xx sign)).map digitChar

@[simp] theorem send_nil (t : Printed) : t.send [] = t := by
  simp [Printed.send]

@[simp] theorem send_send (t : Printed) (first second : List UInt8) :
    (t.send first).send second = t.send (first ++ second) := by
  simp [Printed.send]

@[simp] theorem send_out (t : Printed) (bytes : List UInt8) :
    (t.send bytes).out = t.out ++ bytes := rfl

@[simp] theorem send_taken (t : Printed) (bytes : List UInt8) :
    (t.send bytes).taken = t.taken := rfl

/-- No byte is the backspace code of the console. -/
theorem sent_byte (who : Version) (c : UInt8) : who.sent c.toUInt32 = [c] := by
  have plain : c.toUInt32 ≠ BACKSPACE := by
    intro same
    have bound := c.toNat_lt
    have value : c.toNat = 256 := congrArg UInt32.toNat same
    omega
  cases who with
  | kernel => rw [Version.sent, if_neg plain, UInt8.toUInt8_toUInt32]
  | user => rw [Version.sent, UInt8.toUInt8_toUInt32]

theorem putc_byte (who : Version) (c : UInt8) (t : Printed) :
    putc who c.toUInt32 t = .ok ((), t.send [c]) := by
  rw [putc, modify_run, sent_byte]

theorem putBytes_run (who : Version) (bytes : List UInt8) (t : Printed) :
    putBytes who bytes t = .ok ((), t.send bytes) := by
  induction bytes generalizing t with
  | nil => rw [putBytes, send_nil, pure_run]
  | cons c rest ih => rw [putBytes, bind_of_ok (putc_byte who c t), ih, send_send,
      List.singleton_append]

theorem store_run (buf : List UInt8) (c : UInt8) (t : Printed) :
    store buf c t = if buf.length < BUFSIZE then .ok (c :: buf, t) else .error .pastBuffer := by
  unfold store
  by_cases full : BUFSIZE ≤ buf.length
  · rw [bind_of_error (stopIf_of _ t full), if_neg (by omega)]
  · rw [bind_of_ok (stopIf_of_not _ t full), if_pos (by omega), pure_run]

/-- The loop stores the whole numeral, or stops at the end of the buffer. -/
theorem printintLoop_run {base : UInt64} (two : 2 ≤ base.toNat) (fuel : Nat) {x : UInt64}
    (some : 0 < fuel) (fits : x.toNat < 2 ^ fuel) (buf : List UInt8) (t : Printed) :
    printintLoop base fuel x buf t =
      if buf.length + (numeral base.toNat x.toNat).length ≤ BUFSIZE then
        .ok ((numeral base.toNat x.toNat).map digitChar ++ buf, t)
      else .error .pastBuffer := by
  induction fuel generalizing x buf with
  | zero => omega
  | succ fuel ih =>
      have quotient : (x / base).toNat = x.toNat / base.toNat := UInt64.toNat_div x base
      have remainder : (x % base).toNat = x.toNat % base.toNat := UInt64.toNat_mod x base
      have halved : x.toNat / base.toNat ≤ x.toNat / 2 := Nat.div_le_div_left two (by omega)
      rw [printintLoop, bind_run, store_run, remainder]
      by_cases last : x / base = 0
      · have small : x.toNat < base.toNat := by
          rw [last] at quotient
          exact (Nat.div_eq_zero_iff_lt (by omega)).mp quotient.symm
        rw [numeral_of_lt small, Nat.mod_eq_of_lt small]
        by_cases room : buf.length < BUFSIZE
        · have whole : buf.length + [x.toNat].length ≤ BUFSIZE := room
          rw [if_pos room, if_pos whole]
          simp [last]
        · have full : ¬buf.length + [x.toNat].length ≤ BUFSIZE := room
          rw [if_neg room, if_neg full]
      · have positive : 0 < x.toNat / base.toNat := by
          rw [← quotient]
          exact Nat.pos_of_ne_zero fun zero => last (UInt64.toNat_inj.mp zero)
        have large : base.toNat ≤ x.toNat := by
          by_contra small
          rw [Nat.div_eq_of_lt (by omega)] at positive
          omega
        have bound : x.toNat / base.toNat < 2 ^ fuel := by
          rw [Nat.pow_succ] at fits
          omega
        have left : 0 < fuel := by
          by_contra none
          rw [show fuel = 0 by omega] at bound
          omega
        have rest := numeral_length_pos two (x.toNat / base.toNat)
        rw [numeral_of_le two large, List.length_append, List.length_singleton]
        by_cases room : buf.length < BUFSIZE
        · rw [if_pos room]
          simp only [ne_eq, last, not_false_eq_true, if_true]
          rw [ih left (by rw [quotient]; exact bound), quotient, List.length_cons]
          by_cases whole : buf.length + 1 + (numeral base.toNat (x.toNat / base.toNat)).length ≤
              BUFSIZE
          · rw [if_pos whole, if_pos (by omega)]
            simp
          · rw [if_neg whole, if_neg (by omega)]
        · rw [if_neg room, if_neg (by omega)]

/-- The division loop starts from the magnitude: the negation wraps at the
least value, and as an unsigned number that is the magnitude again. -/
theorem toNat_magnitude (xx : Int64) (sign : Bool) :
    (if sign && decide (xx < 0) then (-xx).toUInt64 else xx.toUInt64).toNat =
      magnitude xx sign := by
  have signed : xx.toInt = if 2 * xx.toUInt64.toNat < 2 ^ 64 then (xx.toUInt64.toNat : Int)
      else (xx.toUInt64.toNat : Int) - (2 ^ 64 : Nat) := BitVec.toInt_eq_toNat_cond xx.toBitVec
  have below : xx < 0 ↔ xx.toInt < 0 := Int64.lt_iff_toInt_lt
  have negated : (-xx).toUInt64.toNat = (2 ^ 64 - xx.toUInt64.toNat) % 2 ^ 64 :=
    BitVec.toNat_neg xx.toBitVec
  have bound := xx.toUInt64.toNat_lt
  unfold magnitude
  cases sign with
  | false => simp
  | true =>
      simp only [Bool.true_and, decide_eq_true_eq, if_true, below]
      by_cases negative : xx.toInt < 0
      · rw [if_pos negative, negated]
        split at signed <;> omega
      · rw [if_neg negative]
        split at signed <;> omega

/-- `printint` sends the number, or stops when it needs more cells than there
are. -/
theorem printint_run (who : Version) (xx : Int64) {base : UInt64} (two : 2 ≤ base.toNat)
    (sign : Bool) (t : Printed) :
    printint who xx base sign t =
      if (numberText base.toNat xx sign).length ≤ BUFSIZE then
        .ok ((), t.send (numberText base.toNat xx sign))
      else .error .pastBuffer := by
  have looped := printintLoop_run two 64 (by omega)
    ((if sign && decide (xx < 0) then (-xx).toUInt64 else xx.toUInt64).toNat_lt) [] t
  rw [toNat_magnitude, List.length_nil, Nat.zero_add, List.append_nil] at looped
  unfold printint numberText minus
  simp only [bind_run, looped]
  by_cases negative : (sign && decide (xx < 0)) = true
  · simp only [negative, if_true, List.length_append, List.length_singleton, List.length_map]
    by_cases whole : (numeral base.toNat (magnitude xx sign)).length ≤ BUFSIZE
    · simp only [if_pos whole]
      rw [bind_run, store_run, List.length_map]
      by_cases room : (numeral base.toNat (magnitude xx sign)).length < BUFSIZE
      · rw [if_pos room, if_pos (by omega)]
        exact putBytes_run who _ t
      · rw [if_neg room, if_neg (by omega)]
    · rw [if_neg whole, if_neg (by omega)]
  · simp only [negative, Bool.false_eq_true, if_false, List.nil_append, List.length_map]
    by_cases whole : (numeral base.toNat (magnitude xx sign)).length ≤ BUFSIZE
    · simp only [if_pos whole]
      exact putBytes_run who _ t
    · rw [if_neg whole, if_neg whole]

/-! ## Reading a number -/

def digitValue (c : UInt8) : Option Nat :=
  if '0'.toUInt8 ≤ c ∧ c ≤ '9'.toUInt8 then some (c - '0'.toUInt8).toNat
  else if 'a'.toUInt8 ≤ c ∧ c ≤ 'f'.toUInt8 then some (c - 'a'.toUInt8 + 10).toNat
  else none

def readDigits (base : Nat) : Nat → List UInt8 → Option Nat
  | value, [] => some value
  | value, c :: rest =>
      match digitValue c with
      | some d => if d < base then readDigits base (base * value + d) rest else none
      | none => none

/-- The value of a text of at least one digit. -/
def readNumeral (base : Nat) (text : List UInt8) : Option Nat :=
  if text = [] then none else readDigits base 0 text

/-- A text that reads as `n` and has no leading zero. -/
structure Canonical (base n : Nat) (text : List UInt8) : Prop where
  reads : readNumeral base text = some n
  leading : text.head? = some '0'.toUInt8 → text = ['0'.toUInt8]

theorem digitValue_digitChar {d : Nat} (small : d < 16) : digitValue (digitChar d) = some d := by
  have all : ∀ k : Fin 16, digitValue (digitChar k) = some k.val := by decide
  exact all ⟨d, small⟩

theorem digitChar_of_value {c : UInt8} {d : Nat} (value : digitValue c = some d) :
    c = digitChar d := by
  have all : ∀ k : Fin 256, (digitValue (UInt8.ofNat k)).all fun d =>
    decide (UInt8.ofNat k = digitChar d) := by decide +kernel
  have this := all ⟨c.toNat, c.toNat_lt⟩
  simpa [value] using this

/-- The digits of a list are read one after the other onto what was read
before. -/
theorem readDigits_map {base : Nat} (small : base ≤ 16) (ds : List Nat)
    (digit : ∀ d ∈ ds, d < base) (value : Nat) :
    readDigits base value (ds.map digitChar) =
      some (Nat.ofDigits base ds.reverse + base ^ ds.length * value) := by
  induction ds generalizing value with
  | nil => simp [readDigits]
  | cons d rest ih =>
      have first : d < base := digit d List.mem_cons_self
      rw [List.map_cons, readDigits, digitValue_digitChar (by omega)]
      simp only [if_pos first]
      rw [ih (fun e member => digit e (List.mem_cons_of_mem _ member)), List.reverse_cons,
        Nat.ofDigits_append, Nat.ofDigits_singleton, List.length_reverse, List.length_cons]
      congr 1
      ring

theorem readDigits_spelled {base : Nat} (text : List UInt8) {value n : Nat}
    (read : readDigits base value text = some n) :
    ∃ ds : List Nat, text = ds.map digitChar ∧ ∀ d ∈ ds, d < base := by
  induction text generalizing value with
  | nil => exact ⟨[], rfl, by simp⟩
  | cons c rest ih =>
      rw [readDigits] at read
      cases there : digitValue c with
      | none => simp [there] at read
      | some d =>
          simp only [there] at read
          split at read
          · next inside =>
              obtain ⟨ds, rfl, digit⟩ := ih read
              refine ⟨d :: ds, by rw [List.map_cons, ← digitChar_of_value there], ?_⟩
              intro e member
              rcases List.mem_cons.mp member with rfl | member
              · exact inside
              · exact digit e member
          · cases read

theorem digitChar_inj {d e : Nat} (left : d < 16) (right : e < 16)
    (same : digitChar d = digitChar e) : d = e := by
  have values := congrArg digitValue same
  rw [digitValue_digitChar left, digitValue_digitChar right] at values
  exact Option.some.inj values

section

variable {base n : Nat}

theorem numeral_digit (two : 2 ≤ base) (n : Nat) : ∀ d ∈ numeral base n, d < base :=
  (numeral_spells two n).digit

theorem readNumeral_numeral (two : 2 ≤ base) (small : base ≤ 16) (n : Nat) :
    readNumeral base ((numeral base n).map digitChar) = some n := by
  have spells := numeral_spells two n
  rw [readNumeral, if_neg (by simp [spells.nonempty]), readDigits_map small _ spells.digit,
    spells.value, Nat.mul_zero, Nat.add_zero]

/-- The characters of a numeral are the one canonical text of its number. -/
theorem canonical_iff (two : 2 ≤ base) (small : base ≤ 16) {text : List UInt8} :
    Canonical base n text ↔ text = (numeral base n).map digitChar := by
  have zero : '0'.toUInt8 = digitChar 0 := by decide
  constructor
  · rintro ⟨reads, leading⟩
    unfold readNumeral at reads
    split at reads
    · cases reads
    · next some =>
        obtain ⟨ds, rfl, digit⟩ := readDigits_spelled text reads
        rw [readDigits_map small ds digit, Nat.mul_zero, Nat.add_zero] at reads
        have spells : Spells base n ds := by
          refine ⟨digit, Option.some.inj reads, fun none => some (by simp [none]), fun first => ?_⟩
          have single := leading (by simp [first, zero])
          obtain ⟨d, rfl⟩ : ∃ d, ds = [d] := by
            rw [← List.length_eq_one_iff, ← List.length_map (f := digitChar), single]
            rfl
          simpa using first
        rw [spells.unique two]
  · rintro rfl
    refine ⟨readNumeral_numeral two small n, fun first => ?_⟩
    have spells := numeral_spells two n
    obtain ⟨d, rest, shape⟩ := List.exists_cons_of_ne_nil spells.nonempty
    have digit : d < base := spells.digit d (by simp [shape])
    have isZero : d = 0 := by
      rw [shape, List.map_cons, List.head?_cons, zero] at first
      exact digitChar_inj (by omega) (by omega) (Option.some.inj first)
    rw [spells.canonical (by simp [shape, isZero]), zero]
    rfl

end

theorem magnitude_lt (xx : Int64) (sign : Bool) : magnitude xx sign < 2 ^ 64 := by
  rw [← toNat_magnitude]
  exact UInt64.toNat_lt _

theorem magnitude_of_negative {xx : Int64} (negative : xx < 0) : magnitude xx true ≤ 2 ^ 63 := by
  have below : xx.toInt < 0 := Int64.lt_iff_toInt_lt.mp negative
  have least : -2 ^ 63 ≤ xx.toInt := xx.le_toInt
  simp only [magnitude, if_true]
  omega

/-- From base 10 on the sign and the digits of every number fit the buffer. -/
theorem numberText_fits {base : Nat} (ten : 10 ≤ base) (xx : Int64) (sign : Bool) :
    (numberText base xx sign).length ≤ BUFSIZE := by
  have two : 2 ≤ base := by omega
  have room : ∀ k, 10 ^ k ≤ base ^ k := fun k => Nat.pow_le_pow_left ten k
  rw [numberText, List.length_append, List.length_map, minus]
  by_cases negative : (sign && decide (xx < 0)) = true
  · obtain ⟨rfl, below⟩ : sign = true ∧ xx < 0 := by simpa using negative
    have small : (numeral base (magnitude xx true)).length ≤ 19 := by
      rw [numeral_length_le_iff two (by omega)]
      exact lt_of_lt_of_le (lt_of_le_of_lt (magnitude_of_negative below) (by norm_num)) (room 19)
    rw [if_pos negative, List.length_singleton, BUFSIZE]
    omega
  · have small : (numeral base (magnitude xx sign)).length ≤ 20 := by
      rw [numeral_length_le_iff two (by omega)]
      exact lt_of_lt_of_le (lt_trans (magnitude_lt xx sign) (by norm_num)) (room 20)
    rw [if_neg negative, List.length_nil, BUFSIZE]
    omega

/-- In the bases 10 and 16 `printint` sends a minus exactly for a negative
signed argument, then the one canonical numeral of the magnitude, and stores no
more characters than the buffer has cells. -/
theorem printint_canonical (who : Version) (xx : Int64) (base : UInt64)
    (isBase : base = 10 ∨ base = 16) (sign : Bool) (t : Printed) :
    ∃ text,
      Canonical base.toNat (if sign then xx.toInt.natAbs else xx.toUInt64.toNat) text ∧
      (∀ other,
        Canonical base.toNat (if sign then xx.toInt.natAbs else xx.toUInt64.toNat) other →
          other = text) ∧
      printint who xx base sign t = .ok ((), t.send (minus xx sign ++ text)) ∧
      (minus xx sign ++ text).length ≤ 20 := by
  have range : 10 ≤ base.toNat ∧ base.toNat ≤ 16 := by
    rcases isBase with rfl | rfl <;> decide
  have two : 2 ≤ base.toNat := by omega
  have fits := numberText_fits range.1 xx sign
  have ran := printint_run who xx two sign t
  rw [if_pos fits] at ran
  exact ⟨_, (canonical_iff two range.2).mpr rfl,
    fun _ same => (canonical_iff two range.2).mp same, ran, fits⟩

theorem printint_canonical_least :
    ∃ text, Canonical 10 (2 ^ 63) text ∧
      printint .kernel Int64.minValue 10 true ⟨[], 0⟩ =
        .ok ((), ⟨'-'.toUInt8 :: text, 0⟩) := by
  obtain ⟨text, canonical, -, ran, -⟩ :=
    printint_canonical .kernel Int64.minValue 10 (Or.inl rfl) true ⟨[], 0⟩
  exact ⟨text, canonical, ran⟩

end Gcgos.Text
