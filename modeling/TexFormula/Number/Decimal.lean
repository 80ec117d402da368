import TexFormula.Number.Digits
import TexFormula.Text.Blank

/-!
# Decimals

Exact decimals, kept as the digit runs they were written with. `Decimal.parse?` reads a payload such
as `-1234567.890e-123`, `012` or `0.1(6)`; `Decimal.text` writes one.
-/

namespace TexFormula

/-- An exact decimal. -/
structure Decimal where
  negative : Bool := false
  /-- The digits before the point, leading zeros included. -/
  whole : String := ""
  /-- The digits after the point, trailing zeros included. -/
  fraction : String := ""
  /-- The digits that repeat without end after `fraction`. -/
  repeating : String := ""
  exponent : Option Int := none
deriving DecidableEq, Repr, Inhabited

namespace Decimal

/-- The integer fits in 64 bits with a sign. -/
def fitsWord (n : Int) : Bool :=
  -(twoPow 63 : Int) ≤ n && n < twoPow 63

/-- Without one letter `n` or `d` at the end. -/
def withoutMark (cs : List Char) : List Char :=
  match cs.getLast? with
  | some c => if c == 'n' || c == 'd' then cs.dropLast else cs
  | none => cs

/-- Takes one sign off the front. -/
def splitSign : List Char → Bool × List Char
  | '-' :: cs => (true, cs)
  | '+' :: cs => (false, cs)
  | cs => (false, cs)

/-- The text before the first character of the class `p`, and the text after it if there is one. -/
def splitAt (p : Char → Bool) (cs : List Char) : List Char × Option (List Char) :=
  match cs.dropWhile (!p ·) with
  | [] => (cs, none)
  | _ :: rest => (cs.takeWhile (!p ·), some rest)

/-- The exponent after its letter, if it has one. -/
def exponent? : Option (List Char) → Option (Option Int)
  | none => some none
  | some cs => ((Digits.int? cs).filter fitsWord).map some

/-- The fraction and the repeating digits after the point. -/
def splitFraction? (cs : List Char) : Option (List Char × List Char) :=
  match splitAt (· == '(') cs with
  | (fraction, none) => some (fraction, [])
  | (fraction, some rest) =>
    if rest.getLast? = some ')' then some (fraction, rest.dropLast) else none

/-- Reads a payload. Blanks do not count. -/
def parse? (payload : String) : Option Decimal := do
  let (negative, unsigned) := splitSign (withoutMark (Text.withoutBlanks payload.toList))
  let (mantissa, power) := splitAt (fun c => c == 'e' || c == 'E') unsigned
  let exponent ← exponent? power
  let (whole, afterPoint) := splitAt (· == '.') mantissa
  let (fraction, repeating) ← splitFraction? (afterPoint.getD [])
  if Digits.areDigits whole && Digits.areDigits fraction && Digits.areDigits repeating &&
      !(whole.isEmpty && fraction.isEmpty && repeating.isEmpty) then
    some
      { negative
        whole := String.ofList whole
        fraction := String.ofList fraction
        repeating := String.ofList repeating
        exponent }
  else
    none

/-- All digits are zeros. -/
def isZero (d : Decimal) : Bool :=
  (d.whole.toList ++ d.fraction.toList ++ d.repeating.toList).all (· == '0')

/-- The payload of a decimal. -/
def text (d : Decimal) : String :=
  let sign := if d.negative then "-" else ""
  let fraction := if d.fraction = "" ∧ d.repeating = "" then "" else "." ++ d.fraction
  let repeating := if d.repeating = "" then "" else "(" ++ d.repeating ++ ")"
  let exponent := match d.exponent with
    | none => ""
    | some n => "e" ++ String.ofList (Digits.ofInt n)
  sign ++ d.whole ++ fraction ++ repeating ++ exponent

/-- The value, if it is written as a whole number that fits in 64 bits. The digits before the point
may have a sign of their own. -/
def toInt? (d : Decimal) : Option Int :=
  if d.exponent.isSome || d.repeating != "" || d.fraction.toList.any (· != '0') then
    none
  else
    let magnitude? := if d.whole = "" then some 0 else Digits.int? d.whole.toList
    (magnitude?.filter fitsWord).map fun n => if d.negative then -n else n

/-- The decimal with the other sign. -/
def neg (d : Decimal) : Decimal :=
  { d with negative := !d.negative }

end Decimal

end TexFormula
