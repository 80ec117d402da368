import TexFormula.Expression

/-!
# Products as signed quotients

A product is written with its sign in front and its reciprocal factors under a fraction bar.
`Product.ofFactors` sorts the factors: it counts the negative numbers, drops a leading -1 and moves
powers with negative exponents below the bar, with the exponents made positive.
-/

namespace TexFormula

/-- A sign, the factors above the fraction bar and those below it. -/
structure Product where
  negative : Bool
  numerator : List Expression
  denominator : List Expression

namespace Product

/-- The number, if the factor is one below zero. -/
def negativeNumber? (factor : Expression) : Option Number :=
  factor.number?.filter Number.isNegative

/-- The factor without its sign, if it is a negative number. -/
def unsigned (factor : Expression) : Expression :=
  match negativeNumber? factor with
  | some n => .number n.neg
  | none => factor

def isMinusOne (factor : Expression) : Bool :=
  (negativeNumber? factor).any fun n => n.toInt? == some (-1)

/-- The number of negative numbers among the factors is odd. -/
def oddSigns (factors : List Expression) : Bool :=
  factors.foldl (fun odd factor => odd != (negativeNumber? factor).isSome) false

/-- The factors without their signs. A -1 in front of other factors leaves nothing behind. -/
def magnitudes (factors : List Expression) : List Expression :=
  match factors with
  | first :: second :: rest =>
    if isMinusOne first then (second :: rest).map unsigned else factors.map unsigned
  | _ => factors.map unsigned

/-- `b` for a factor `b ^ (-1)`, and `b ^ n` for a factor `b ^ (-n)`. -/
def reciprocal? (factor : Expression) : Option Expression :=
  match factor with
  | .apply (.symbol "Power") [base, exponent] =>
    (negativeNumber? exponent).map fun n =>
      if n.neg.toInt? = some 1 then base
      else .function "Power" [base, .number n.neg]
  | _ => none

/-- Sorts the factors of a product. -/
def ofFactors (factors : List Expression) : Product where
  negative := oddSigns factors
  numerator := (magnitudes factors).filter fun f => (reciprocal? f).isNone
  denominator := (magnitudes factors).filterMap reciprocal?

end Product

end TexFormula
