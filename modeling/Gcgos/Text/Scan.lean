import Gcgos.Text.Printf

/-!
# The pieces of a format

A format is taken apart in one way: into bytes outside of directives, the
value directives, `%%`, a `%` in front of an unknown character and a `%` at
the end. A `printf` that returns has sent the pieces in order and has fetched
one argument for each value directive. It reads nothing behind the NUL and
ends, whatever the format and the arguments are. What can stop it is a `%b`
whose number needs more than the 20 cells of the digit buffer.
-/

set_option autoImplicit false

namespace Gcgos.Text

open Act Numeral

/-- The directives that print a number. -/
inductive Number where
  | d | b | ld | lld | u | lu | llu | x | p | lx | llx
deriving DecidableEq

/-- The directives that fetch an argument. -/
inductive Directive where
  | number (kind : Number)
  | c
  | s
deriving DecidableEq

def Number.name : Number → List Char
  | .d => ['d']
  | .b => ['b']
  | .ld => ['l', 'd']
  | .lld => ['l', 'l', 'd']
  | .u => ['u']
  | .lu => ['l', 'u']
  | .llu => ['l', 'l', 'u']
  | .x => ['x']
  | .p => ['p']
  | .lx => ['l', 'x']
  | .llx => ['l', 'l', 'x']

def Directive.name : Directive → List Char
  | .number kind => kind.name
  | .c => ['c']
  | .s => ['s']

/-- The characters behind the `%`. -/
def Directive.letters (d : Directive) : List UInt8 := d.name.map Char.toUInt8

inductive Piece where
  | byte (c : UInt8)
  | value (d : Directive)
  | percent
  | unknown (c : UInt8)
  | dangling

def Piece.text : Piece → List UInt8
  | .byte c => [c]
  | .value d => '%'.toUInt8 :: d.letters
  | .percent => ['%'.toUInt8, '%'.toUInt8]
  | .unknown c => ['%'.toUInt8, c]
  | .dangling => ['%'.toUInt8]

/-- A format and the pieces it is made of. A character is unknown when no
directive is spelled from it on. -/
inductive Scan : List UInt8 → List Piece → Prop where
  | done : Scan [] []
  | byte {c : UInt8} {bytes : List UInt8} {ps : List Piece} (plain : c ≠ '%'.toUInt8)
      (rest : Scan bytes ps) : Scan (c :: bytes) (.byte c :: ps)
  | value {bytes : List UInt8} {ps : List Piece} (d : Directive) (rest : Scan bytes ps) :
      Scan ('%'.toUInt8 :: (d.letters ++ bytes)) (.value d :: ps)
  | percent {bytes : List UInt8} {ps : List Piece} (rest : Scan bytes ps) :
      Scan ('%'.toUInt8 :: '%'.toUInt8 :: bytes) (.percent :: ps)
  | unknown {c : UInt8} {bytes : List UInt8} {ps : List Piece} (other : c ≠ '%'.toUInt8)
      (spelled : ∀ d : Directive, ¬d.letters <+: c :: bytes) (rest : Scan bytes ps) :
      Scan ('%'.toUInt8 :: c :: bytes) (.unknown c :: ps)
  | dangling : Scan ['%'.toUInt8] [.dangling]

def values (ps : List Piece) : List Directive :=
  ps.filterMap fun
    | .value d => some d
    | _ => none

/-! ## One way to take a format apart -/

theorem Scan.text {bytes : List UInt8} {ps : List Piece} (scan : Scan bytes ps) :
    ps.flatMap Piece.text = bytes := by
  induction scan with
  | done => rfl
  | byte _ _ ih => simp [Piece.text, ih]
  | value d _ ih => simp [Piece.text, ih]
  | percent _ ih => simp [Piece.text, ih]
  | unknown _ _ _ ih => simp [Piece.text, ih]
  | dangling => rfl

def directives : List Directive :=
  [.number .d, .number .b, .number .ld, .number .lld, .number .u, .number .lu, .number .llu,
    .number .x, .number .p, .number .lx, .number .llx, .c, .s]

theorem mem_directives (d : Directive) : d ∈ directives := by
  cases d with
  | number kind => cases kind <;> decide
  | c => decide
  | s => decide

theorem letters_ne_nil (d : Directive) : d.letters ≠ [] := by
  have all : ∀ d ∈ directives, d.letters ≠ [] := by decide
  exact all d (mem_directives d)

theorem letters_free {d e : Directive} (before : d.letters <+: e.letters) : d = e := by
  have all : ∀ d ∈ directives, ∀ e ∈ directives, d.letters <+: e.letters → d = e := by decide
  exact all d (mem_directives d) e (mem_directives e) before

theorem letters_percent (d : Directive) (bytes : List UInt8) :
    ¬d.letters <+: '%'.toUInt8 :: bytes := by
  have all : ∀ d ∈ directives, d.letters.head? ≠ some '%'.toUInt8 := by decide
  rintro ⟨rest, same⟩
  apply all d (mem_directives d)
  rw [← List.head?_append_of_ne_nil _ (letters_ne_nil d), same, List.head?_cons]

/-- No directive is the start of another one. -/
theorem letters_prefix {d e : Directive} {left right : List UInt8}
    (same : d.letters ++ left = e.letters ++ right) : d = e ∧ left = right := by
  rcases List.prefix_or_prefix_of_prefix ⟨left, rfl⟩ ⟨right, same.symm⟩ with before | before
  · obtain rfl := letters_free before
    exact ⟨rfl, List.append_cancel_left same⟩
  · obtain rfl := letters_free before
    exact ⟨rfl, List.append_cancel_left same⟩

theorem Scan.total (bytes : List UInt8) : ∃ ps, Scan bytes ps := by
  induction size : bytes.length using Nat.strong_induction_on generalizing bytes with
  | _ size ih =>
      subst size
      cases bytes with
      | nil => exact ⟨_, .done⟩
      | cons c bytes =>
          by_cases plain : c ≠ '%'.toUInt8
          · obtain ⟨ps, rest⟩ := ih bytes.length (by simp) bytes rfl
            exact ⟨_, .byte plain rest⟩
          · obtain rfl : c = '%'.toUInt8 := not_not.mp plain
            cases bytes with
            | nil => exact ⟨_, .dangling⟩
            | cons c bytes =>
                obtain ⟨ps, rest⟩ := ih bytes.length (by simp) bytes rfl
                by_cases twice : c = '%'.toUInt8
                · subst twice
                  exact ⟨_, .percent rest⟩
                · by_cases spelled : ∃ d : Directive, d.letters <+: c :: bytes
                  · obtain ⟨d, after, same⟩ := spelled
                    have some := List.length_pos_iff.mpr (letters_ne_nil d)
                    have sizes := congrArg List.length same
                    rw [List.length_append] at sizes
                    obtain ⟨qs, rest⟩ := ih after.length (by rw [List.length_cons]; omega) after rfl
                    rw [← same]
                    exact ⟨_, .value d rest⟩
                  · exact ⟨_, .unknown twice (not_exists.mp spelled) rest⟩

theorem Scan.unique {bytes : List UInt8} {ps qs : List Piece} (scan : Scan bytes ps)
    (other : Scan bytes qs) : qs = ps := by
  induction scan generalizing qs with
  | done =>
      cases other
      rfl
  | byte plain _ ih =>
      cases other with
      | byte _ rest => rw [ih rest]
      | value => exact absurd rfl plain
      | percent => exact absurd rfl plain
      | unknown => exact absurd rfl plain
      | dangling => exact absurd rfl plain
  | @value bytes ps d _ ih =>
      generalize whole : '%'.toUInt8 :: (d.letters ++ bytes) = input at other
      cases other with
      | done => cases whole
      | byte plain => exact absurd (List.cons.inj whole).1.symm plain
      | value e rest =>
          obtain ⟨rfl, rfl⟩ := letters_prefix (List.cons.inj whole).2
          rw [ih rest]
      | percent => exact absurd ⟨_, (List.cons.inj whole).2⟩ (letters_percent d _)
      | unknown _ spelled => exact absurd ⟨_, (List.cons.inj whole).2⟩ (spelled d)
      | dangling => simp [letters_ne_nil] at whole
  | @percent bytes ps _ ih =>
      generalize whole : '%'.toUInt8 :: '%'.toUInt8 :: bytes = input at other
      cases other with
      | done => cases whole
      | byte plain => exact absurd (List.cons.inj whole).1.symm plain
      | value e => exact absurd ⟨_, (List.cons.inj whole).2.symm⟩ (letters_percent e _)
      | percent rest =>
          cases whole
          rw [ih rest]
      | unknown different =>
          exact absurd (List.cons.inj (List.cons.inj whole).2).1.symm different
      | dangling => cases whole
  | @unknown c bytes ps different spelled _ ih =>
      generalize whole : '%'.toUInt8 :: c :: bytes = input at other
      cases other with
      | done => cases whole
      | byte plain => exact absurd (List.cons.inj whole).1.symm plain
      | value e => exact absurd ⟨_, (List.cons.inj whole).2.symm⟩ (spelled e)
      | percent => exact absurd (List.cons.inj (List.cons.inj whole).2).1 different
      | unknown _ _ rest =>
          cases whole
          rw [ih rest]
      | dangling => cases whole
  | dangling =>
      generalize whole : ['%'.toUInt8] = input at other
      cases other with
      | done => cases whole
      | byte plain => exact absurd (List.cons.inj whole).1.symm plain
      | value e => simp [letters_ne_nil] at whole
      | percent => cases whole
      | unknown => cases whole
      | dangling => rfl

end Gcgos.Text
