import TexFormula.Proofs.Arithmetic.Writing
import TexFormula.Proofs.NumberReading
import TexFormula.Proofs.OperatorTable

/-!
# What arithmetic is read back as

`Rereads e p` says that `e` is written as `p` is, and that this is read as `p`. A reciprocal comes back
as a fraction, a power to one half as a root, a negative term as a difference, the signs of factors in
front of the product, and a chain that is the first operand of the same operator as a part of it.

Parentheses and times signs are set by the kind of a node and not by its text. So the rules ask that
what is read back is of the kind that was written, where it counts: `KeepsParentheses` for operands and
`KeepsPlace` for factors. An index or a factorial of a number is left out, since a sign in front of the
number is read as a part of it. Left out is also what is read by more than the token behind it: lists, as
digits that touch a comma continue the number in front of it, powers of ten, which are a part of the
number in front of them, what can be applied, as it takes up a parenthesis behind it, negations, as they
take up blanks behind their operand, bars, which open or close by what is waited for, and places that
are not filled, at which a product ends.
-/

namespace TexFormula

open TexFormula.Parser (extend)

namespace Expression

/-- A number that is not below zero stands in front. -/
def leadsWithNumber : Expression → Bool
  | .number n => !n.isNegative
  | .apply (.symbol name) arguments =>
    name == "Multiply" && arguments.head?.any fun a => a.number?.any fun n => !n.isNegative
  | _ => false

/-- A minus sign stands in front. -/
def isNegated : Expression → Bool
  | .number n => n.isNegative
  | .apply (.symbol name) arguments =>
    name == "Negate" ||
      (name == "Multiply" && arguments.head?.any fun a => a.number?.any Number.isNegative)
  | _ => false

/-- A quotient, which a times sign keeps apart from a number in front of it. -/
def isQuotient (e : Expression) : Bool :=
  e.headName? == some "Divide" || e.headName? == some "Rational"

/-- A power of the number that is written as ten. -/
def isPowerOfTen : Expression → Bool
  | .apply (.symbol name) [.number n, _] => name == "Power" && ({} : NumberFormat).write n == "10"
  | _ => false

/-- What the text of the first expression is read as behind a minus sign, which belongs to a number in
front of it. -/
inductive Opposite : Expression → Expression → Prop
  | number {n : Number} (hn : n.isNegative = false) (hneg : n.neg.isNegative = true) :
      Opposite (.number n) (.number n.neg)
  | product {n : Number} {others : List Expression} (hn : n.isNegative = false)
      (hneg : n.neg.isNegative = true) (hone : n.neg.toInt? ≠ some (-1))
      (hsigns : Product.oddSigns (.number n :: others) = false) :
      Opposite (.function "Multiply" (.number n :: others))
        (.function "Multiply" (.number n.neg :: others))
  | negate {e : Expression} (he : e.leadsWithNumber = false) : Opposite e (.function "Negate" [e])

theorem Opposite.isNegated {e p : Expression} (h : Opposite e p) : p.isNegated = true := by
  cases h with
  | number _ hneg => exact hneg
  | product _ hneg => exact hneg
  | negate => rfl

/-- What starts with a sign has no number in front, so one more sign is an operator. -/
theorem Opposite.eq_of_isNegated {e p : Expression} (h : Opposite e p) (he : e.isNegated = true) :
    p = .function "Negate" [e] := by
  cases h with
  | number hn => exact absurd (hn.symm.trans he) Bool.false_ne_true
  | product hn => exact absurd (hn.symm.trans he) Bool.false_ne_true
  | negate => rfl

/-- What the terms make of the sum in front of them, read from left to right. -/
inductive AddsUp : Expression → List Expression → Expression → Prop
  | done {sum : Expression} : AddsUp sum [] sum
  | plus {sum term total : Expression} {terms : List Expression} (hterm : term.isNegated = false)
      (h : AddsUp (extend "Add" (sum.headName? == some "Add") sum term) terms total) :
      AddsUp sum (term :: terms) total
  | minus {sum term negated total : Expression} {terms : List Expression}
      (hterm : Opposite term negated) (h : AddsUp (.function "Subtract" [sum, term]) terms total) :
      AddsUp sum (negated :: terms) total

/-- An operator between two operands, of which the first one can be a chain of it. -/
def linked (n : Notation) (lhs rhs : Expression) : Expression :=
  extend n.name (n.isVariadic && lhs.headName? == some n.name) lhs rhs

/-- What the operands behind the first one make of it, read from left to right. -/
def chained (n : Notation) (first : Expression) (others : List Expression) : Expression :=
  others.foldl (linked n) first

end Expression

namespace Product

/-- The product of some factors. -/
def whole : List Expression → Expression
  | [] => .number (.machine (.ofInt 1))
  | [factor] => factor
  | factors => .function "Multiply" factors

/-- The quotient of two products. -/
def quotient (numerator denominator : List Expression) : Expression :=
  if denominator.isEmpty then whole numerator
  else .function "Divide" [whole numerator, whole denominator]

end Product

/-- Both are in parentheses or none is, where an operand must bind as tightly as that. -/
def KeepsParentheses (loosest : Precedence) (e p : Expression) : Prop :=
  standardPrecedence e < loosest ↔ standardPrecedence p < loosest

instance (loosest : Precedence) (e p : Expression) : Decidable (KeepsParentheses loosest e p) :=
  inferInstanceAs (Decidable (_ ↔ _))

/-- A factor and what it is read back as, which are set apart from their neighbours alike. -/
structure KeepsPlace (e p : Expression) : Prop where
  parentheses : KeepsParentheses .multiplication e p
  number : e.isNumber = p.isNumber
  quotient : e.isQuotient = p.isQuotient
  nonnegative : Product.negativeNumber? p = none
  single : p.headName? ≠ some "Multiply"

/-- Factors and what they are read back as. Only the first one may be a power of ten, which behind a
number would belong to it. -/
structure KeepsFactors (factors : List (Expression × Expression)) : Prop where
  places : ∀ a ∈ factors, KeepsPlace a.1 a.2
  others : ∀ a ∈ factors.tail, a.2.isPowerOfTen = false

/-- The factors of a product above the fraction bar and below it, with what they are read back as. A
factor that stands there by itself is not in parentheses. -/
structure Product.SortsInto (es : List Expression) (above below : List (Expression × Expression)) :
    Prop where
  numerator : (Product.ofFactors es).numerator = above.map Prod.fst
  denominator : (Product.ofFactors es).denominator = below.map Prod.fst
  keepsAbove : KeepsFactors above
  keepsBelow : KeepsFactors below
  single : below ≠ [] → ∀ a, above = [a] ∨ below = [a] →
    .multiplication ≤ standardPrecedence a.2

open Expression

/-- What an expression is read back as. -/
inductive Rereads : Expression → Expression → Prop
  | number {m : Magnitude} (hm : m.IsPlain) (negative : Bool) :
      Rereads (.number (.machine (.finite negative m)))
        (.number (.machine (.finite (negative && !m.isZero) m)))
  /-- A decimal without a power of ten is read back as the number that its digits denote. -/
  | decimal {d : Decimal} {n : Number} (hd : d.WellFormed) (hexponent : d.shown.exponent = none)
      (hbudget : d.repeating ≠ "" ∨ d.fraction.length ≤ 14)
      (hn : Number.ofLiteral? d.shown.literal = some n) :
      Rereads (.number (.decimal d)) (.number n)
  | letter {c : Char} (hc : IsSymbolLetter c) :
      Rereads (.symbol (String.singleton c)) (.symbol (String.singleton c))
  | symbol {n : Notation} (hn : n ∈ Dictionary.letters) : Rereads (.symbol n.name) (.symbol n.name)
  /-- An elementary function of one argument. -/
  | call {n : Notation} {a p : Expression} (hn : n ∈ Dictionary.functions) (ha : Rereads a p) :
      Rereads (.function n.name [a]) (.function n.name [p])
  | squareRoot {a p : Expression} (ha : Rereads a p) :
      Rereads (.function "Sqrt" [a]) (.function "Sqrt" [p])
  | factorial {a p : Expression} (ha : Rereads a p) (hkeep : KeepsParentheses .trailing a p)
      (hnumber : p.isNumber = false) :
      Rereads (.function "Factorial" [a]) (.function "Factorial" [p])
  | divide {a b p q : Expression} (ha : Rereads a p) (hb : Rereads b q) :
      Rereads (.function "Divide" [a, b]) (.function "Divide" [p, q])
  | subscript {a b p q : Expression} (ha : Rereads a p) (hb : Rereads b q)
      (hkeep : KeepsParentheses Precedence.power.tighter a p) (hnumber : p.isNumber = false) :
      Rereads (.function "Subscript" [a, b]) (.function "Subscript" [p, q])
  | power {a b p q : Expression} (ha : Rereads a p) (hb : Rereads b q)
      (hkeep : KeepsParentheses Precedence.power.tighter a p) (hsuper : IsSuperscript b)
      (hsuper' : IsSuperscript q) :
      Rereads (.function "Power" [a, b]) (.function "Power" [p, q])
  | rootOfHalf {a b p : Expression} (ha : Rereads a p) (hnonnegative : Product.negativeNumber? b = none)
      (hhalf : Writers.rationalParts? b = some (1, 2)) :
      Rereads (.function "Power" [a, b]) (.function "Sqrt" [p])
  | inverseRoot {a b p : Expression} (ha : Rereads a p)
      (hnonnegative : Product.negativeNumber? b = none)
      (hhalf : Writers.rationalParts? b = some (-1, 2)) :
      Rereads (.function "Power" [a, b])
        (.function "Divide" [Product.whole [], .function "Sqrt" [p]])
  /-- A power with a negative exponent. -/
  | reciprocal {e r p : Expression} (hr : Product.reciprocal? e = some r) (h : Rereads r p) :
      Rereads e (.function "Divide" [Product.whole [], p])
  | negate {a p q : Expression} (ha : Rereads a p)
      (hkeep : KeepsParentheses Precedence.addition.tighter a p) (hq : Opposite p q) :
      Rereads (.function "Negate" [a]) q
  | subtract {a b p q : Expression} (ha : Rereads a p) (hb : Rereads b q)
      (hkeep : KeepsParentheses Precedence.addition.tighter b q) :
      Rereads (.function "Subtract" [a, b]) (.function "Subtract" [p, q])
  | add {first : Expression × Expression} {rest : List (Expression × Expression)} {p : Expression}
      (hne : rest ≠ []) (hfirst : Rereads first.1 first.2) (hrest : ∀ a ∈ rest, Rereads a.1 a.2)
      (hp : AddsUp first.2 (rest.map Prod.snd) p) :
      Rereads (.function "Add" (first.1 :: rest.map Prod.fst)) p
  | product {es : List Expression} {above below : List (Expression × Expression)}
      (hsorts : Product.SortsInto es above below) (h : ∀ a ∈ above ++ below, Rereads a.1 a.2)
      (hnegative : (Product.ofFactors es).negative = false) (hwhole : below = [] → 2 ≤ above.length) :
      Rereads (.function "Multiply" es)
        (Product.quotient (above.map Prod.snd) (below.map Prod.snd))
  | negativeProduct {es : List Expression} {above below : List (Expression × Expression)}
      {p : Expression} (hsorts : Product.SortsInto es above below)
      (h : ∀ a ∈ above ++ below, Rereads a.1 a.2)
      (hnegative : (Product.ofFactors es).negative = true) (hwhole : below = [] → above ≠ [])
      (hp : Opposite (Product.quotient (above.map Prod.snd) (below.map Prod.snd)) p) :
      Rereads (.function "Multiply" es) p
  /-- A relation between two operands, or a chain of them under an operator of logic. -/
  | chain {n : Notation} {first : Expression × Expression} {rest : List (Expression × Expression)}
      (hn : n ∈ Dictionary.looseOperators) (hne : rest ≠ [])
      (hsingle : n.isVariadic = false → rest.length = 1) (hfirst : Rereads first.1 first.2)
      (hrest : ∀ a ∈ rest, Rereads a.1 a.2)
      (hkeep : KeepsParentheses (leftPrecedence n) first.1 first.2)
      (hkeeps : ∀ a ∈ rest, KeepsParentheses (Parser.rightPrecedence n) a.1 a.2) :
      Rereads (.function n.name (first.1 :: rest.map Prod.fst))
        (chained n first.2 (rest.map Prod.snd))

end TexFormula
