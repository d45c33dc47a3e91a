import Gcgos.Text.Printint

/-!
# The format scanner

`printf` walks over its format by index and looks at up to three characters
behind a `%` before it decides what the directive is. The model keeps the
order of its tests, so the test for `x` or `p` comes before the one for `p`
alone, and the index, so a read behind the NUL of the format stops the run.
-/

set_option autoImplicit false

namespace Gcgos.Text

open Act Numeral

/-- The bytes in front of the NUL that ends a string in memory. -/
structure CString where
  bytes : List UInt8
  noNul : 0 ∉ bytes

/-- `fmt[i]`, which may be the NUL and nothing behind it. -/
def CString.read (fmt : CString) (i : Nat) : Act Stop Printed UInt8 := do
  Act.stopIf (fmt.bytes.length < i) .pastString
  pure (fmt.bytes.getD i 0)

/-- The character at `j`, fetched only if `c` in front of it is not the NUL. -/
def CString.behind (fmt : CString) (c : UInt8) (j : Nat) : Act Stop Printed UInt8 :=
  if c ≠ 0 then fmt.read j else pure 0

/-- The variadic arguments, one slot of 64 bits each, and the strings that
pointers among them lead to. -/
structure Arguments where
  slot : Nat → UInt64
  string : UInt64 → CString

/-- `va_arg`: the next slot. -/
def vaArg (args : Arguments) : Act Stop Printed UInt64 := do
  let k ← Act.reads Printed.taken
  Act.modify fun t => { t with taken := t.taken + 1 }
  pure (args.slot k)

/-- `va_arg(ap, int)`, as the `long long` that `printint` takes. -/
def asInt (slot : UInt64) : Int64 := slot.toUInt32.toInt32.toInt64

/-- `va_arg(ap, uint32)`, as the `long long` that `printint` takes. -/
def asUint32 (slot : UInt64) : Int64 := slot.toUInt32.toUInt64.toInt64

def nullText : List UInt8 := ['(', 'n', 'u', 'l', 'l', ')'].map Char.toUInt8

/-- What `%s` sends for a pointer. -/
def Arguments.shown (args : Arguments) (s : UInt64) : List UInt8 :=
  if s = 0 then nullText else (args.string s).bytes

/-- The branches behind a `%`: how far the index moves on beyond the first
character, or `none` where the loop ends. -/
def directive (who : Version) (args : Arguments) (c0 c1 c2 : UInt8) :
    Act Stop Printed (Option Nat) :=
  if c0 = 'd'.toUInt8 then do
    printint who (asInt (← vaArg args)) 10 true
    pure (some 0)
  else if c0 = 'b'.toUInt8 then do
    printint who (← vaArg args).toInt64 2 true
    pure (some 0)
  else if c0 = 'l'.toUInt8 ∧ c1 = 'd'.toUInt8 then do
    printint who (← vaArg args).toInt64 10 true
    pure (some 1)
  else if c0 = 'l'.toUInt8 ∧ c1 = 'l'.toUInt8 ∧ c2 = 'd'.toUInt8 then do
    printint who (← vaArg args).toInt64 10 true
    pure (some 2)
  else if c0 = 'u'.toUInt8 then do
    printint who (asUint32 (← vaArg args)) 10 false
    pure (some 0)
  else if c0 = 'l'.toUInt8 ∧ c1 = 'u'.toUInt8 then do
    printint who (← vaArg args).toInt64 10 false
    pure (some 1)
  else if c0 = 'l'.toUInt8 ∧ c1 = 'l'.toUInt8 ∧ c2 = 'u'.toUInt8 then do
    printint who (← vaArg args).toInt64 10 false
    pure (some 2)
  else if c0 = 'x'.toUInt8 ∨ c0 = 'p'.toUInt8 then do
    printint who (asUint32 (← vaArg args)) 16 false
    pure (some 0)
  else if c0 = 'l'.toUInt8 ∧ c1 = 'x'.toUInt8 then do
    printint who (← vaArg args).toInt64 16 false
    pure (some 1)
  else if c0 = 'l'.toUInt8 ∧ c1 = 'l'.toUInt8 ∧ c2 = 'x'.toUInt8 then do
    printint who (← vaArg args).toInt64 16 false
    pure (some 2)
  else if c0 = 'p'.toUInt8 then do
    -- never taken: the branch for `x` has this test too
    printptr who (← vaArg args)
    pure (some 0)
  else if c0 = 'c'.toUInt8 then do
    putc who (← vaArg args).toUInt32
    pure (some 0)
  else if c0 = 's'.toUInt8 then do
    putBytes who (args.shown (← vaArg args))
    pure (some 0)
  else if c0 = '%'.toUInt8 then do
    putc who '%'.val
    pure (some 0)
  else if c0 = 0 then pure none
  else do
    putc who '%'.val
    putc who c0.toUInt32
    pure (some 0)

/-- A turn of the loop at a `%`: the index of the next one. -/
def percent (who : Version) (args : Arguments) (fmt : CString) (i : Nat) :
    Act Stop Printed (Option Nat) := do
  let i := i + 1
  let c0 ← fmt.read i
  let c1 ← fmt.behind c0 (i + 1)
  let c2 ← fmt.behind c1 (i + 2)
  let more ← directive who args c0 c1 c2
  pure (more.map fun more => i + more + 1)

def printfLoop (who : Version) (args : Arguments) (fmt : CString) :
    Nat → Nat → Act Stop Printed Unit
  | 0, _ => Act.fail .running
  | fuel + 1, i => do
      let cx ← fmt.read i
      if cx = 0 then pure ()
      else if cx ≠ '%'.toUInt8 then do
        putc who cx.toUInt32
        printfLoop who args fmt fuel (i + 1)
      else do
        match ← percent who args fmt i with
        | some next => printfLoop who args fmt fuel next
        | none => pure ()

/-- Every turn of the loop moves on, so one turn for each character and one
for the NUL are enough. -/
def printf (who : Version) (fmt : CString) (args : Arguments) : Act Stop Printed Unit :=
  printfLoop who args fmt (fmt.bytes.length + 1) 0

end Gcgos.Text
