import TexFormula.Number.Decimal
import TexFormula.Number.Double.Layout
import TexFormula.Number.Double.Rounding

/-!
# Numbers

A number is a double, or an exact decimal where a double would not keep what was written.
-/

namespace TexFormula

inductive Number where
  | machine (value : Double)
  | decimal (value : Decimal)
deriving DecidableEq, Repr, Inhabited

namespace Number

/-- Reads the payload of a number node. The names of the infinities and of "not a number" give
doubles; all else stays an exact decimal. -/
def ofPayload? (payload : String) : Option Number :=
  let name := String.ofList ((Text.withoutBlanks payload.toList).map Char.toLower)
  if name = "infinity" || name = "+infinity" then some (.machine (.infinity false))
  else if name = "-infinity" then some (.machine (.infinity true))
  else if name = "nan" then some (.machine .nan)
  else (Decimal.parse? payload).map .decimal

/-- The double that a literal denotes, if the literal is just how that double is written. -/
def machine? (literal : String) : Option Double :=
  match Double.ofText? literal with
  | some (.finite negative m) =>
    if Layout.plain.write (.finite negative m) = literal then some (.finite negative m) else none
  | _ => none

/-- Without one plus sign in front. -/
def withoutPlus (literal : String) : String :=
  match literal.toList with
  | '+' :: cs => String.ofList cs
  | _ => literal

/-- Reads a literal. It becomes a double only if it is just how that double is written. -/
def ofLiteral? (literal : String) : Option Number :=
  (Decimal.parse? literal).map fun decimal =>
    if decimal.repeating = "" then
      match machine? (withoutPlus literal) with
      | some value => .machine value
      | none => .decimal decimal
    else
      .decimal decimal

/-- The number is below zero. -/
def isNegative : Number → Bool
  | .machine value => value.isNegative
  | .decimal value => value.negative && !value.isZero

/-- The value as a whole number, if it is one. Doubles from nine quadrillion on do not count. -/
def toInt? : Number → Option Int
  | .machine value => value.toInt?.bind fun n => if n.natAbs < 9 * tenPow 15 then some n else none
  | .decimal value => value.toInt?

/-- The nearest double; nothing for a decimal with repeating digits. -/
def toDouble? : Number → Option Double
  | .machine value => some value
  | .decimal value => Double.ofText? value.text

/-- The number with the other sign. -/
def neg : Number → Number
  | .machine value => .machine value.neg
  | .decimal value => .decimal value.neg

end Number

end TexFormula
