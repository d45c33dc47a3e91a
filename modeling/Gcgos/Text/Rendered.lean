import Mathlib.Data.List.GetD
import Gcgos.Text.Scan

/-!
# What a format prints

Each turn of the scanner deals with one piece of the format and leaves the
index at the next one. So a run over a whole format sends what its pieces
stand for, one after the other, and fetches one argument for each value
directive, unless one of them needs more cells than the digit buffer has.
-/

set_option autoImplicit false

namespace Gcgos.Text

open Act Numeral

/-- The argument as the `long long` that `printint` is called with. -/
def Number.fetch : Number → UInt64 → Int64
  | .d => asInt
  | .u | .x | .p => asUint32
  | .b | .ld | .lld | .lu | .llu | .lx | .llx => UInt64.toInt64

def Number.base : Number → UInt64
  | .b => 2
  | .d | .ld | .lld | .u | .lu | .llu => 10
  | .x | .p | .lx | .llx => 16

def Number.sign : Number → Bool
  | .d | .b | .ld | .lld => true
  | .u | .lu | .llu | .x | .p | .lx | .llx => false

def Number.text (kind : Number) (slot : UInt64) : List UInt8 :=
  numberText kind.base.toNat (kind.fetch slot) kind.sign

def Directive.text (who : Version) (args : Arguments) : Directive → UInt64 → List UInt8
  | .number kind, slot => kind.text slot
  | .c, slot => who.sent slot.toUInt32
  | .s, slot => args.shown slot

/-- The digit buffer is large enough for the argument. -/
def Directive.Fits : Directive → UInt64 → Prop
  | .number kind, slot => (kind.text slot).length ≤ BUFSIZE
  | .c, _ => True
  | .s, _ => True

instance (d : Directive) (slot : UInt64) : Decidable (d.Fits slot) :=
  match d with
  | .number kind => inferInstanceAs (Decidable ((kind.text slot).length ≤ BUFSIZE))
  | .c => isTrue trivial
  | .s => isTrue trivial

/-- What a piece sends when `k` arguments were fetched in front of it. -/
def Piece.shown (who : Version) (args : Arguments) (k : Nat) : Piece → List UInt8
  | .byte c => [c]
  | .value d => d.text who args (args.slot k)
  | .percent => ['%'.toUInt8]
  | .unknown c => ['%'.toUInt8, c]
  | .dangling => []

def Piece.takes : Piece → Nat
  | .value _ => 1
  | .byte _ | .percent | .unknown _ | .dangling => 0

def rendered (who : Version) (args : Arguments) : Nat → List Piece → List UInt8
  | _, [] => []
  | k, p :: ps => p.shown who args k ++ rendered who args (k + p.takes) ps

def Piece.Fits (args : Arguments) (k : Nat) : Piece → Prop
  | .value d => d.Fits (args.slot k)
  | .byte _ | .percent | .unknown _ | .dangling => True

def AllFit (args : Arguments) : Nat → List Piece → Prop
  | _, [] => True
  | k, p :: ps => p.Fits args k ∧ AllFit args (k + p.takes) ps

/-! ## One turn -/

section

variable {fmt : CString} {i : Nat} {c : UInt8} {after : List UInt8}

theorem CString.read_run {j : Nat} (inside : j ≤ fmt.bytes.length) (t : Printed) :
    fmt.read j t = .ok (fmt.bytes.getD j 0, t) := by
  rw [CString.read, bind_of_ok (stopIf_of_not _ t (by omega)), pure_run]

theorem CString.behind_run (fmt : CString) (j : Nat) (t : Printed) :
    fmt.behind (fmt.bytes.getD j 0) (j + 1) t = .ok (fmt.bytes.getD (j + 1) 0, t) := by
  unfold CString.behind
  by_cases inside : j < fmt.bytes.length
  · have here : fmt.bytes.getD j 0 = fmt.bytes[j] := List.getD_eq_getElem _ _ inside
    have some : fmt.bytes.getD j 0 ≠ 0 := by
      rw [here]
      exact fun zero => fmt.noNul (zero ▸ List.getElem_mem inside)
    rw [if_pos some, CString.read_run inside]
  · rw [List.getD_eq_default _ _ (by omega), List.getD_eq_default _ _ (by omega)]
    rfl

theorem CString.drop_cons (there : fmt.bytes.drop i = c :: after) :
    i < fmt.bytes.length ∧ fmt.bytes.getD i 0 = c ∧ fmt.bytes.drop (i + 1) = after ∧ c ≠ 0 := by
  have inside : i < fmt.bytes.length := by
    have size := congrArg List.length there
    rw [List.length_drop, List.length_cons] at size
    omega
  have split := List.drop_eq_getElem_cons inside
  rw [there] at split
  obtain ⟨same, rest⟩ := List.cons.inj split
  refine ⟨inside, by rw [List.getD_eq_getElem _ _ inside, same], rest.symm, ?_⟩
  intro zero
  exact fmt.noNul (zero ▸ same ▸ List.getElem_mem inside)

variable (who : Version) (args : Arguments) (fuel : Nat) (t : Printed)

theorem printfLoop_nul (there : fmt.bytes.drop i = []) (inside : i ≤ fmt.bytes.length) :
    printfLoop who args fmt (fuel + 1) i t = .ok ((), t) := by
  have size := List.drop_eq_nil_iff.mp there
  rw [printfLoop, bind_of_ok (CString.read_run inside t), List.getD_eq_default _ _ size, if_pos rfl,
    pure_run]

theorem printfLoop_byte (there : fmt.bytes.drop i = c :: after) (plain : c ≠ '%'.toUInt8) :
    printfLoop who args fmt (fuel + 1) i t =
      printfLoop who args fmt fuel (i + 1) (t.send [c]) := by
  obtain ⟨inside, here, -, some⟩ := CString.drop_cons there
  rw [printfLoop, bind_of_ok (CString.read_run inside.le t), here, if_neg some, if_pos plain,
    bind_of_ok (putc_byte who c t)]

/-- The characters behind the `%`, where nothing behind the NUL is looked
at. -/
theorem percent_run (there : fmt.bytes.drop i = '%'.toUInt8 :: after) :
    percent who args fmt i t =
      (directive who args (after.getD 0 0) (after.getD 1 0) (after.getD 2 0) >>= fun more =>
        pure (more.map fun more => i + 1 + more + 1)) t := by
  obtain ⟨inside, -, rest, -⟩ := CString.drop_cons there
  have at' : ∀ k, after.getD k 0 = fmt.bytes.getD (i + 1 + k) 0 := by
    intro k
    rw [← rest, List.getD_eq_getElem?_getD, List.getElem?_drop, List.getD_eq_getElem?_getD]
  rw [percent, bind_of_ok (CString.read_run inside t), bind_of_ok (CString.behind_run fmt _ t),
    bind_of_ok (CString.behind_run fmt _ t), at' 0, at' 1, at' 2]

theorem printfLoop_percent (there : fmt.bytes.drop i = '%'.toUInt8 :: after) :
    printfLoop who args fmt (fuel + 1) i t =
      (directive who args (after.getD 0 0) (after.getD 1 0) (after.getD 2 0) >>= fun more =>
        match more with
        | some more => printfLoop who args fmt fuel (i + 1 + more + 1)
        | none => pure ()) t := by
  obtain ⟨inside, here, -, some⟩ := CString.drop_cons there
  rw [printfLoop, bind_of_ok (CString.read_run inside.le t), here, if_neg some, if_neg (by simp),
    bind_run, percent_run who args t there, bind_run, bind_run]
  cases directive who args (after.getD 0 0) (after.getD 1 0) (after.getD 2 0) t with
  | error stop => rfl
  | ok pair =>
      obtain ⟨more, u⟩ := pair
      cases more with
      | none => rfl
      | some more => rfl

end

/-! ## The branches -/

section

variable (who : Version) (args : Arguments)

def Directive.perform : Directive → UInt64 → Act Stop Printed Unit
  | .number kind, slot => printint who (kind.fetch slot) kind.base kind.sign
  | .c, slot => putc who slot.toUInt32
  | .s, slot => putBytes who (args.shown slot)

/-- The branch of a value directive is the one for its letters. -/
theorem directive_value (d : Directive) (bytes : List UInt8) :
    directive who args ((d.letters ++ bytes).getD 0 0) ((d.letters ++ bytes).getD 1 0)
        ((d.letters ++ bytes).getD 2 0) =
      vaArg args >>= fun slot => d.perform who args slot >>= fun _ =>
        pure (some (d.letters.length - 1)) := by
  cases d with
  | number kind =>
      cases kind <;>
        simp +decide [directive, Directive.letters, Directive.name, Number.name, Directive.perform,
          Number.fetch, Number.base, Number.sign]
  | c => simp +decide [directive, Directive.letters, Directive.name, Directive.perform]
  | s => simp +decide [directive, Directive.letters, Directive.name, Directive.perform]

theorem directive_percent (c1 c2 : UInt8) :
    directive who args '%'.toUInt8 c1 c2 = putc who '%'.val >>= fun _ => pure (some 0) := by
  simp +decide [directive]

theorem directive_dangling (c1 c2 : UInt8) : directive who args 0 c1 c2 = pure none := by
  simp +decide [directive]

theorem of_getD {bytes : List UInt8} {c : UInt8} (some : c ≠ 0) (first : bytes.getD 0 0 = c) :
    ∃ rest, bytes = c :: rest := by
  cases bytes with
  | nil => exact absurd first.symm some
  | cons d rest => exact ⟨rest, by rw [← first]; rfl⟩

/-- Every test of the chain is for a directive or for `%` or the NUL, so an
unknown character comes to the last branch. -/
theorem directive_unknown {c : UInt8} {bytes : List UInt8} (other : c ≠ '%'.toUInt8) (some : c ≠ 0)
    (spelled : ∀ d : Directive, ¬d.letters <+: c :: bytes) :
    directive who args c (bytes.getD 0 0) (bytes.getD 1 0) =
      putc who '%'.val >>= fun _ => putc who c.toUInt32 >>= fun _ => pure (Option.some 0) := by
  have one : ∀ (d : Directive) (e : UInt8), d.letters = [e] → c ≠ e := by
    rintro d e single rfl
    exact spelled d (by rw [single]; exact ⟨bytes, rfl⟩)
  have two : ∀ (d : Directive) (e f : UInt8), d.letters = [e, f] → f ≠ 0 →
      ¬(c = e ∧ bytes.getD 0 0 = f) := by
    rintro d e f pair plain ⟨rfl, first⟩
    obtain ⟨rest, rfl⟩ := of_getD plain first
    exact spelled d (by rw [pair]; exact ⟨rest, rfl⟩)
  have three : ∀ (d : Directive) (e f g : UInt8), d.letters = [e, f, g] → f ≠ 0 → g ≠ 0 →
      ¬(c = e ∧ bytes.getD 0 0 = f ∧ bytes.getD 1 0 = g) := by
    rintro d e f g triple plain last ⟨rfl, first, second⟩
    obtain ⟨rest, rfl⟩ := of_getD plain first
    obtain ⟨rest, rfl⟩ := of_getD last (show rest.getD 0 0 = g from second)
    exact spelled d (by rw [triple]; exact ⟨rest, rfl⟩)
  rw [directive, if_neg (one (.number .d) _ rfl), if_neg (one (.number .b) _ rfl),
    if_neg (two (.number .ld) _ _ rfl (by decide)),
    if_neg (three (.number .lld) _ _ _ rfl (by decide) (by decide)),
    if_neg (one (.number .u) _ rfl), if_neg (two (.number .lu) _ _ rfl (by decide)),
    if_neg (three (.number .llu) _ _ _ rfl (by decide) (by decide)),
    if_neg (not_or.mpr ⟨one (.number .x) _ rfl, one (.number .p) _ rfl⟩),
    if_neg (two (.number .lx) _ _ rfl (by decide)),
    if_neg (three (.number .llx) _ _ _ rfl (by decide) (by decide)),
    if_neg (one (.number .p) _ rfl), if_neg (one .c _ rfl), if_neg (one .s _ rfl), if_neg other,
    if_neg some]

theorem Number.two_le_base (kind : Number) : 2 ≤ kind.base.toNat := by
  cases kind <;> decide

theorem Directive.perform_run (d : Directive) (slot : UInt64) (t : Printed) :
    d.perform who args slot t =
      if d.Fits slot then .ok ((), t.send (d.text who args slot)) else .error .pastBuffer := by
  cases d with
  | number kind => exact printint_run who _ kind.two_le_base kind.sign t
  | c => rfl
  | s => exact putBytes_run who _ t

/-- A value directive at the front of what is left of the format. -/
theorem directive_value_run (d : Directive) (bytes : List UInt8) (t : Printed) :
    directive who args ((d.letters ++ bytes).getD 0 0) ((d.letters ++ bytes).getD 1 0)
        ((d.letters ++ bytes).getD 2 0) t =
      if d.Fits (args.slot t.taken) then
        .ok (some (d.letters.length - 1),
          ⟨t.out ++ d.text who args (args.slot t.taken), t.taken + 1⟩)
      else .error .pastBuffer := by
  have fetched : vaArg args t = .ok (args.slot t.taken, { t with taken := t.taken + 1 }) := rfl
  rw [directive_value, bind_of_ok fetched, bind_run, Directive.perform_run]
  by_cases fits : d.Fits (args.slot t.taken)
  · rw [if_pos fits, if_pos fits]
    rfl
  · rw [if_neg fits, if_neg fits]

end

/-! ## A whole format -/

instance decidableFits (args : Arguments) (k : Nat) (p : Piece) : Decidable (p.Fits args k) :=
  match p with
  | .value d => inferInstanceAs (Decidable (d.Fits (args.slot k)))
  | .byte _ | .percent | .unknown _ | .dangling => isTrue trivial

instance decidableAllFit (args : Arguments) (k : Nat) (ps : List Piece) :
    Decidable (AllFit args k ps) :=
  match ps with
  | [] => isTrue trivial
  | p :: ps =>
      have := decidableAllFit args (k + p.takes) ps
      inferInstanceAs (Decidable (_ ∧ _))

/-- The rest of a run, from an index on that stands in front of a piece. -/
theorem printfLoop_run (who : Version) (args : Arguments) (fmt : CString) {bytes : List UInt8}
    {ps : List Piece} (scan : Scan bytes ps) (fuel i : Nat) (t : Printed)
    (there : fmt.bytes.drop i = bytes) (inside : i ≤ fmt.bytes.length)
    (enough : bytes.length < fuel) :
    printfLoop who args fmt fuel i t =
      if AllFit args t.taken ps then
        .ok ((), ⟨t.out ++ rendered who args t.taken ps, t.taken + (ps.map Piece.takes).sum⟩)
      else .error .pastBuffer := by
  induction scan generalizing fuel i t with
  | done =>
      obtain ⟨fuel, rfl⟩ := Nat.exists_eq_succ_of_ne_zero (Nat.ne_of_gt enough)
      rw [printfLoop_nul who args fuel t there inside]
      simp [AllFit, rendered]
  | @byte c bytes ps plain _ ih =>
      obtain ⟨fuel, rfl⟩ := Nat.exists_eq_succ_of_ne_zero (Nat.ne_of_gt (Nat.zero_lt_of_lt enough))
      obtain ⟨here, -, rest, -⟩ := CString.drop_cons there
      rw [printfLoop_byte who args fuel t there plain,
        ih fuel (i + 1) (t.send [c]) rest here (by simpa using enough)]
      simp [AllFit, rendered, Piece.Fits, Piece.shown, Piece.takes]
  | @value bytes ps d _ ih =>
      obtain ⟨fuel, rfl⟩ := Nat.exists_eq_succ_of_ne_zero (Nat.ne_of_gt (Nat.zero_lt_of_lt enough))
      obtain ⟨here, -, rest, -⟩ := CString.drop_cons there
      have some := List.length_pos_iff.mpr (letters_ne_nil d)
      have size := congrArg List.length rest
      rw [List.length_drop, List.length_append] at size
      have next : i + 1 + (d.letters.length - 1) + 1 = i + 1 + d.letters.length := by omega
      have behind : fmt.bytes.drop (i + 1 + d.letters.length) = bytes := by
        rw [← List.drop_drop, rest, List.drop_left]
      rw [printfLoop_percent who args fuel t there, bind_run, directive_value_run]
      by_cases fits : d.Fits (args.slot t.taken)
      · rw [if_pos fits]
        simp only [next]
        rw [ih fuel _ _ behind (by omega) (by simp at enough; omega)]
        simp [AllFit, rendered, Piece.Fits, Piece.shown, Piece.takes, fits, Nat.add_assoc]
      · rw [if_neg fits, if_neg fun all => fits all.1]
  | @percent bytes ps _ ih =>
      obtain ⟨fuel, rfl⟩ := Nat.exists_eq_succ_of_ne_zero (Nat.ne_of_gt (Nat.zero_lt_of_lt enough))
      obtain ⟨-, -, rest, -⟩ := CString.drop_cons there
      obtain ⟨here, -, behind, -⟩ := CString.drop_cons rest
      have sent : putc who '%'.val t = .ok ((), t.send ['%'.toUInt8]) :=
        putc_byte who '%'.toUInt8 t
      rw [printfLoop_percent who args fuel t there, List.getD_cons_zero, directive_percent]
      rw [bind_run, bind_of_ok sent, pure_run]
      simp only [Nat.add_zero]
      rw [ih fuel _ _ behind here (by simp at enough; omega)]
      simp [AllFit, rendered, Piece.Fits, Piece.shown, Piece.takes]
  | @unknown c bytes ps other spelled _ ih =>
      obtain ⟨fuel, rfl⟩ := Nat.exists_eq_succ_of_ne_zero (Nat.ne_of_gt (Nat.zero_lt_of_lt enough))
      obtain ⟨-, -, rest, -⟩ := CString.drop_cons there
      obtain ⟨here, -, behind, some⟩ := CString.drop_cons rest
      have sent : putc who '%'.val t = .ok ((), t.send ['%'.toUInt8]) :=
        putc_byte who '%'.toUInt8 t
      rw [printfLoop_percent who args fuel t there, List.getD_cons_zero, List.getD_cons_succ,
        List.getD_cons_succ, directive_unknown who args other some spelled]
      rw [bind_run, bind_of_ok sent, bind_of_ok (putc_byte who c _), pure_run]
      simp only [Nat.add_zero]
      rw [ih fuel _ _ behind here (by simp at enough; omega)]
      simp [AllFit, rendered, Piece.Fits, Piece.shown, Piece.takes]
  | dangling =>
      obtain ⟨fuel, rfl⟩ := Nat.exists_eq_succ_of_ne_zero (Nat.ne_of_gt (Nat.zero_lt_of_lt enough))
      rw [printfLoop_percent who args fuel t there, List.getD_nil, directive_dangling,
        bind_run, pure_run]
      simp [AllFit, rendered, Piece.Fits, Piece.shown, Piece.takes]

/-! ## The numbers that fit -/

/-- The range of a `%b` argument whose sign and binary digits fit the
buffer. -/
def BinaryFits (slot : UInt64) : Prop :=
  -2 ^ 19 < slot.toInt64.toInt ∧ slot.toInt64.toInt < 2 ^ 20

theorem numberText_two_fits (xx : Int64) :
    (numberText 2 xx true).length ≤ BUFSIZE ↔ -2 ^ 19 < xx.toInt ∧ xx.toInt < 2 ^ 20 := by
  have below : xx < 0 ↔ xx.toInt < 0 := Int64.lt_iff_toInt_lt
  have digits := fun k (some : 0 < k) =>
    numeral_length_le_iff (n := magnitude xx true) (le_refl 2) some
  rw [numberText, List.length_append, List.length_map, minus, BUFSIZE]
  simp only [magnitude, if_true, Bool.true_and, decide_eq_true_eq, below] at digits ⊢
  by_cases negative : xx.toInt < 0
  · rw [if_pos negative, List.length_singleton]
    have nineteen := digits 19 (by omega)
    omega
  · rw [if_neg negative, List.length_nil]
    have twenty := digits 20 (by omega)
    omega

theorem Directive.fits_iff (d : Directive) (slot : UInt64) :
    d.Fits slot ↔ (d = .number .b → BinaryFits slot) := by
  cases d with
  | number kind =>
      by_cases binary : kind = .b
      · subst binary
        exact (numberText_two_fits slot.toInt64).trans ⟨fun fits _ => fits, fun fits => fits rfl⟩
      · have ten : 10 ≤ kind.base.toNat := by
          revert binary
          cases kind <;> decide
        exact iff_of_true (numberText_fits ten _ _) fun same => absurd (number.inj same) binary
  | c => exact iff_of_true trivial (by simp)
  | s => exact iff_of_true trivial (by simp)

theorem allFit_iff (args : Arguments) (k : Nat) (ps : List Piece) :
    AllFit args k ps ↔
      ∀ j, (values ps)[j]? = some (.number .b) → BinaryFits (args.slot (k + j)) := by
  induction ps generalizing k with
  | nil => simp [AllFit, values]
  | cons p ps ih =>
      rw [AllFit, ih]
      cases p with
      | value d =>
          have shape : values (.value d :: ps) = d :: values ps := rfl
          rw [shape, Piece.Fits, Directive.fits_iff, Piece.takes]
          constructor
          · rintro ⟨first, rest⟩ j there
            cases j with
            | zero => exact first (Option.some.inj there)
            | succ j =>
                rw [show k + (j + 1) = k + 1 + j by omega]
                exact rest j there
          · intro all
            refine ⟨fun binary => all 0 (congrArg some binary), fun j there => ?_⟩
            rw [show k + 1 + j = k + (j + 1) by omega]
            exact all (j + 1) there
      | byte c => exact and_iff_right trivial
      | percent => exact and_iff_right trivial
      | unknown c => exact and_iff_right trivial
      | dangling => exact and_iff_right trivial

/-! ## Scanning is safe -/

/-- The call returns, has sent what the pieces stand for and has fetched the
arguments they take. -/
def PrintsPieces (who : Version) (fmt : CString) (args : Arguments) (out : List UInt8)
    (ps : List Piece) : Prop :=
  ∃ t, printf who fmt args ⟨out, 0⟩ = .ok ((), t) ∧
    t.out = out ++ rendered who args 0 ps ∧ t.taken = (ps.map Piece.takes).sum

/-- Every format is taken apart in one way, and a call never reads behind the
NUL and never runs on. It prints the pieces exactly when the binary digits of
every `%b` argument fit the buffer. -/
theorem printf_pieces_iff (who : Version) (fmt : CString) (args : Arguments)
    (out : List UInt8) :
    ∃ ps, Scan fmt.bytes ps ∧ (∀ qs, Scan fmt.bytes qs → qs = ps) ∧
      ps.flatMap Piece.text = fmt.bytes ∧
      (∀ stop, printf who fmt args ⟨out, 0⟩ = .error stop → stop = .pastBuffer) ∧
      (PrintsPieces who fmt args out ps ↔
        ∀ j, (values ps)[j]? = some (.number .b) → BinaryFits (args.slot j)) := by
  obtain ⟨ps, scan⟩ := Scan.total fmt.bytes
  have ran := printfLoop_run who args fmt scan (fmt.bytes.length + 1) 0 ⟨out, 0⟩ List.drop_zero
    (Nat.zero_le _) (Nat.lt_succ_self _)
  have condition := allFit_iff args 0 ps
  simp only [Nat.zero_add] at condition ran
  refine ⟨ps, scan, fun qs other => scan.unique other, scan.text, ?_, ?_⟩
  · intro stop stopped
    rw [printf, ran] at stopped
    split at stopped
    · cases stopped
    · exact (Except.error.inj stopped).symm
  · rw [← condition]
    constructor
    · rintro ⟨t, returned, -⟩
      by_contra large
      rw [printf, ran, if_neg large] at returned
      cases returned
    · intro fits
      exact ⟨_, ran.trans (if_pos fits), rfl, rfl⟩

/-- `%b` alone, with one argument for every slot. -/
def binaryFormat : CString := ⟨['%', 'b'].map Char.toUInt8, by decide⟩

def constantArguments (slot : UInt64) : Arguments := ⟨fun _ => slot, fun _ => ⟨[], by simp⟩⟩

/-- The 63 binary digits of the largest signed number run over the buffer. -/
theorem printf_binary_overrun :
    printf .kernel binaryFormat (constantArguments 0x7fffffffffffffff) ⟨[], 0⟩ =
        .error .pastBuffer ∧
      ¬∃ ps, Scan binaryFormat.bytes ps ∧
        PrintsPieces .kernel binaryFormat (constantArguments 0x7fffffffffffffff) [] ps := by
  have stopped : printf .kernel binaryFormat (constantArguments 0x7fffffffffffffff) ⟨[], 0⟩ =
      .error .pastBuffer := by decide +kernel
  refine ⟨stopped, ?_⟩
  rintro ⟨ps, -, t, returned, -⟩
  rw [stopped] at returned
  cases returned

end Gcgos.Text
