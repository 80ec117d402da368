import TexFormula.Json
import TexFormula.Number.Double.Rounding

/-!
# JSON as it is written

The tree of a JSON text before its numerals and texts are given a value. A numeral can be beyond the
doubles, a text can hold half a surrogate pair, and values can nest as deeply as they like: all that
is refused only where a value is asked for. Numerals that are no 64 bit integers are taken the quick
way, by scaling their leading digits.
-/

namespace TexFormula.Json

/-- A numeral by its parts. -/
structure Numeral where
  negative : Bool
  whole : List Char
  /-- The digits after the point, if there is a point. -/
  fraction : Option (List Char) := none
  exponent : Option Int := none
deriving DecidableEq, Repr

/-- A text by its code units. A character that is not escaped is one unit. -/
abbrev Units : Type :=
  List Nat

inductive Written where
  | null
  | bool (value : Bool)
  | number (numeral : Numeral)
  | text (units : Units)
  | array (items : List Written)
  | object (members : List (Units × Written))
deriving Repr

/-! ### Numerals -/

namespace Numeral

/-- Goes on with a number by the digits that keep it within 64 bits, and tells how many digits are
left over. -/
def leadingDigits (n : Nat) : List Char → Nat × Nat
  | [] => (n, 0)
  | c :: cs =>
    let next := 10 * n + Digits.digitValue c
    if next < twoPow 64 then leadingDigits next cs else (n, cs.length + 1)

/-- The value of a numeral with a point or an exponent, or beyond 64 bits: its leading digits,
scaled. -/
def scaled? (numeral : Numeral) : Option Json := do
  let fraction := numeral.fraction.getD []
  let (n, wholeLeft) := leadingDigits 0 numeral.whole
  let (n, fractionLeft) := leadingDigits n fraction
  let places : Int :=
    numeral.exponent.getD 0 + wholeLeft - (fraction.length - fractionLeft : Nat)
  let magnitude ← (← Magnitude.ofNat? n).scaleByTen? places
  return .real (.finite numeral.negative magnitude)

/-- The value of a numeral without point and exponent, if it is an integer of 64 bits. Minus zero is
none. -/
def integer? (numeral : Numeral) : Option Int :=
  let n := Digits.value numeral.whole
  if numeral.negative then
    if n = 0 || twoPow 63 < n then none else some (-(n : Int))
  else
    if n < twoPow 64 then some n else none

/-- The value of a numeral. There is none beyond the greatest double. -/
def value? (numeral : Numeral) : Option Json :=
  if numeral.fraction.isNone && numeral.exponent.isNone then
    match numeral.integer? with
    | some n => some (.integer n)
    | none => numeral.scaled?
  else
    numeral.scaled?

end Numeral

/-! ### Texts -/

namespace Units

/-- The unit is the first half of a surrogate pair. -/
def isHighSurrogate (unit : Nat) : Bool :=
  0xD800 ≤ unit && unit < 0xDC00

/-- The unit is the second half of a surrogate pair. -/
def isLowSurrogate (unit : Nat) : Bool :=
  0xDC00 ≤ unit && unit < 0xE000

/-- The characters of code units. A surrogate must be half of a pair. -/
def characters? : Units → Option (List Char)
  | [] => some []
  | high :: low :: rest =>
    if isHighSurrogate high then
      if isLowSurrogate low then
        (characters? rest).map
          (Char.ofNat (0x10000 + (high - 0xD800) * 0x400 + (low - 0xDC00)) :: ·)
      else
        none
    else if isLowSurrogate high then
      none
    else
      (characters? (low :: rest)).map (Char.ofNat high :: ·)
  | [unit] =>
    if isHighSurrogate unit || isLowSurrogate unit then none else some [Char.ofNat unit]

/-- The text of code units. -/
def text? (units : Units) : Option String :=
  (characters? units).map String.ofList

end Units

/-! ### Values -/

namespace Written

/-- How deeply arrays and objects with values may nest. -/
def maxLevels : Nat := 127

/-- Arrays and objects may still open a level. -/
def deeper? : (levels : Nat) → Option Nat
  | 0 => none
  | levels + 1 => some levels

mutual

/-- The value of what is written, with at most the given number of levels of arrays and objects. -/
def value? (levels : Nat) : Written → Option Json
  | .null => some .null
  | .bool value => some (.bool value)
  | .number numeral => numeral.value?
  | .text units => units.text?.map .string
  | .array items => do
    let levels ← deeper? levels
    return .array (← values? levels items)
  | .object members => do
    let levels ← deeper? levels
    return .object (← memberValues? levels members)

def values? (levels : Nat) : List Written → Option (List Json)
  | [] => some []
  | item :: rest => do return (← value? levels item) :: (← values? levels rest)

def memberValues? (levels : Nat) : List (Units × Written) → Option (List (String × Json))
  | [] => some []
  | (key, inner) :: rest => do
    return (← key.text?, ← value? levels inner) :: (← memberValues? levels rest)

end

end Written

end TexFormula.Json
