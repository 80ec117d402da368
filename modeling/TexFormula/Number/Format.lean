import TexFormula.Number

/-!
# Numbers as LaTeX

How a number is written in a formula. Its digits are grouped by three away from the decimal marker,
a long fraction is shortened to a cycle of digits that repeats or cut off, and a power of ten may
follow. The digits of a double are its shortest ones; a decimal keeps its own.
-/

namespace TexFormula

/-- When a power of ten is written. -/
inductive NumberStyle where
  /-- Only for very great and very small numbers. -/
  | auto
  /-- One digit before the marker. -/
  | scientific
  /-- One to three digits before the marker, and an exponent that is a multiple of three. -/
  | engineering
deriving DecidableEq, Repr, Inhabited

/-- The wording of numbers. -/
structure NumberFormat where
  /-- A fraction shows at most one digit less than this. -/
  precision : Nat := 15
  decimalMarker : String := "."
  groupSeparator : String := "\\,"
  /-- What stands between the digits and the power of ten. -/
  exponentProduct : String := "\\cdot"
  beginRepeatingDigits : String := "\\overline\x7b"
  endRepeatingDigits : String := "\x7d"
  /-- What follows a fraction that is cut off. -/
  truncationMarker : String := "\\ldots"
  positiveInfinity : String := "\\infty"
  negativeInfinity : String := "-\\infty"
  notANumber : String := "\\operatorname\x7bNaN\x7d"
  style : NumberStyle := .auto
  /-- In automatic style, numbers from this power of ten on show it. -/
  largeExponent : Int := 21
  /-- In automatic style, numbers of this power of ten and less show it. -/
  smallExponent : Int := -7
deriving DecidableEq, Repr, Inhabited

/-- The leading digit is the first one that is not zero. -/
def Scientific.ofDecimal (d : Decimal) : Scientific :=
  let all := d.whole.toList ++ d.fraction.toList
  let significant := Digits.withoutLeadingZeros all
  let digits := Digits.withoutTrailingZeros significant
  if digits.isEmpty then
    .zero
  else
    let leadingZeros : Int := all.length - significant.length
    ⟨digits, d.whole.length + d.exponent.getD 0 - 1 - leadingZeros⟩

/-- The digits before and after the marker when the marker moves `shift` places to the right. -/
def Scientific.split (s : Scientific) (shift : Int) : List Char × List Char :=
  let width := shift + 1
  if width ≤ 0 then
    (['0'], Digits.zeros (-width).toNat ++ s.digits)
  else
    (s.digits.take width.toNat ++ Digits.zeros (width.toNat - s.digits.length),
      s.digits.drop width.toNat)

namespace NumberFormat

/-- Groups of three from the left; the last one may be shorter. -/
def triples : List Char → List (List Char)
  | a :: b :: c :: rest => [a, b, c] :: triples rest
  | [] => []
  | rest => [rest]

/-- Groups of three from the right; the first one may be shorter. -/
def triplesFromRight (digits : List Char) : List (List Char) :=
  let head := digits.length % 3
  if head = 0 then triples digits else digits.take head :: triples (digits.drop head)

variable (format : NumberFormat)

/-- Sets the group separator between groups. Up to three digits stay as they are. -/
def joinGroups (groups : List Char → List (List Char)) (digits : List Char) : List Char :=
  if format.groupSeparator = "" || digits.length ≤ 3 then digits
  else List.intercalate format.groupSeparator.toList (groups digits)

/-- The digits before the marker. -/
def whole (digits : List Char) : List Char :=
  format.joinGroups triplesFromRight digits

/-- The digits after the marker. -/
def fraction (digits : List Char) : List Char :=
  format.joinGroups triples digits

/-- The digits repeat their first `period` digits to the end. -/
def repeats (digits : List Char) (period : Nat) : Bool :=
  (digits.drop period).isPrefixOf digits

/-- The least period with which the digits repeat; it must occur twice and has at most two digits
more than the precision. -/
def period? (digits : List Char) (precision : Nat) : Option Nat :=
  ((List.range (min (precision + 2) (digits.length / 2))).map (· + 1)).find? (repeats digits)

/-- The digits before a cycle, and the cycle. The last digit may be a rounded one and does not
count; the digits that repeat must be as many as the precision. -/
def findCycle? (digits : List Char) (precision : Nat) : Option (List Char × List Char) :=
  let candidate := digits.take (digits.length - 1)
  (List.range (candidate.length + 1 - max precision 1)).findSome? fun offset =>
    (period? (candidate.drop offset) precision).map fun period =>
      (candidate.take offset, (candidate.drop offset).take period)

/-- How many digits a fraction may show. -/
def budget : Nat :=
  max (format.precision - 1) 1

/-- A cycle of digits between its marks. -/
def cycle (digits : List Char) : List Char :=
  format.beginRepeatingDigits.toList ++ digits ++ format.endRepeatingDigits.toList

/-- A fraction within the budget: whole, up to and with a cycle, or cut off. -/
def shortFraction (digits : List Char) : List Char :=
  if digits.length ≤ format.budget then
    format.fraction digits
  else
    match findCycle? digits format.precision with
    | some (before, ['0']) => format.fraction before
    | some (before, cycle) => format.fraction before ++ format.cycle cycle
    | none => format.fraction (digits.take format.budget) ++ format.truncationMarker.toList

/-- A power of ten. -/
def power (exponent : Int) : List Char :=
  ['1', '0', '^', '{'] ++ Digits.ofInt exponent ++ ['}']

/-- The text of a number from its parts. A mantissa of just 1 is left out before a power of ten. -/
def assemble (negative : Bool) (wholeDigits fractionDigits repeating : List Char)
    (exponent : Option Int) : List Char :=
  let fractionText :=
    if repeating.isEmpty then format.shortFraction fractionDigits
    else format.fraction fractionDigits ++ format.cycle repeating
  let mantissa := format.whole wholeDigits ++
    (if fractionText.isEmpty then [] else format.decimalMarker.toList ++ fractionText)
  let sign := if negative then ['-'] else []
  match exponent with
  | none => sign ++ mantissa
  | some n =>
    if mantissa = ['1'] then sign ++ power n
    else sign ++ mantissa ++ format.exponentProduct.toList ++ power n

/-- How far the marker moves to the right of the first digit. -/
def shift (exponent : Int) : Int :=
  match format.style with
  | .auto =>
    if format.smallExponent < exponent ∧ exponent < format.largeExponent then exponent else 0
  | .scientific => 0
  | .engineering => exponent % 3

/-- The text of a number from its significant digits. -/
def scientific (negative : Bool) (s : Scientific) : List Char :=
  let shift := format.shift s.exponent
  let (wholeDigits, fractionDigits) := s.split shift
  let exponent := s.exponent - shift
  format.assemble negative wholeDigits fractionDigits []
    (if exponent = 0 then none else some exponent)

/-- A double as LaTeX. -/
def double : Double → List Char
  | .nan => format.notANumber.toList
  | .infinity negative =>
    (if negative then format.negativeInfinity else format.positiveInfinity).toList
  | .finite negative m =>
    format.scientific (negative && !m.isZero) (m.shortest .upward)

/-- A decimal as LaTeX. In automatic style it keeps its digits and its exponent. -/
def decimal (d : Decimal) : List Char :=
  let negative := d.negative && !d.isZero
  if d.repeating = "" && format.style != .auto then
    format.scientific negative (.ofDecimal d)
  else
    let wholeDigits := Digits.withoutLeadingZeros d.whole.toList
    format.assemble negative (if wholeDigits.isEmpty then ['0'] else wholeDigits)
      d.fraction.toList d.repeating.toList (d.exponent.filter (· != 0))

/-- A number as LaTeX. -/
def write (number : Number) : String :=
  String.ofList <| match number with
    | .machine value => format.double value
    | .decimal value => format.decimal value

end NumberFormat

end TexFormula
