import TexFormula.Number.Digits
import TexFormula.Number.Double

/-!
# The shortest digits of a double

Of all decimals that read back as a given double, those with the fewest digits are found on the
grids of 1, 2, ... 17 digits: the first grid on which a neighbour of the value lies among the
decimals that read back gives the answer. The nearer neighbour is taken; a `Tie` says what happens
if both are equally near.

All comparisons are made in quarters of a step, so that the ends of the interval, which lie half a
step away (a quarter below a power of two), are whole numbers.
-/

namespace TexFormula

/-- Which of two equally near decimals is taken. -/
inductive Tie where
  | upward
  | toEven
deriving DecidableEq, Repr

/-- The number `d.ddd * 10 ^ exponent` with the given digits. -/
structure Scientific where
  digits : List Char
  exponent : Int
deriving DecidableEq, Repr

namespace Scientific

def zero : Scientific :=
  ⟨['0'], 0⟩

/-- The number `coefficient * 10 ^ exponent`, without trailing zeros. -/
def ofCoefficient (coefficient : Nat) (exponent : Int) : Scientific :=
  let all := Digits.ofNat coefficient
  ⟨Digits.withoutTrailingZeros all, exponent + all.length - 1⟩

end Scientific

namespace Magnitude

/-- The value in quarters of a step. -/
def quarters (m : Magnitude) : Nat :=
  4 * m.significand

/-- The lower end of the decimals that read back as `m`, in quarters of a step. -/
def lowerEnd (m : Magnitude) : Nat :=
  if m.significand = twoPow 52 ∧ m.scale ≠ 0 then m.quarters - 1 else m.quarters - 2

/-- The upper end of the decimals that read back as `m`, in quarters of a step. -/
def upperEnd (m : Magnitude) : Nat :=
  m.quarters + 2

/-- The ends themselves read back as `m` if its significand is even. -/
def withEnds (m : Magnitude) : Bool :=
  m.significand % 2 = 0

/-- A quarter of a step as a quotient. -/
def quarterStep (m : Magnitude) : Nat × Nat :=
  if 1076 ≤ m.scale then (twoPow (m.scale - 1076), 1) else (1, twoPow (1076 - m.scale))

/-- The greatest `k` with `10 ^ k ≤ num / den`. -/
def leadingExponent (num den : Nat) : Int :=
  if den ≤ num then
    (Digits.count (num / den) : Int) - 1
  else
    -(Digits.count ((den + num - 1) / num - 1) : Int)

/-- The neighbours of a value on the grid of the multiples of a power of ten, all brought to one
denominator. -/
structure Grid where
  /-- The step of the grid. -/
  step : Nat
  /-- The value. -/
  value : Nat
  /-- The lower end of the interval. -/
  low : Nat
  /-- The upper end of the interval. -/
  high : Nat
  /-- The ends belong to the interval. -/
  withEnds : Bool

namespace Grid

/-- The `n`-th point of the grid lies in the interval. -/
def inside (g : Grid) (n : Nat) : Bool :=
  if g.withEnds then g.low ≤ n * g.step && n * g.step ≤ g.high
  else g.low < n * g.step && n * g.step < g.high

/-- The number of the grid point that stands for the value, if one of its neighbours is inside. -/
def nearest? (g : Grid) (tie : Tie) : Option Nat :=
  let lower := g.value / g.step
  let upper := lower + 1
  match g.inside lower, g.inside upper with
  | false, false => none
  | true, false => some lower
  | false, true => some upper
  | true, true =>
    let middle := (lower + upper) * g.step
    if 2 * g.value < middle then some lower
    else if middle < 2 * g.value then some upper
    else match tie with
      | .upward => some upper
      | .toEven => some (lower + lower % 2)

end Grid

/-- The multiples of `10 ^ exponent` around a magnitude. -/
def grid (m : Magnitude) (exponent : Int) : Grid :=
  let (num, den) := m.quarterStep
  let up := tenPow exponent.toNat
  let down := tenPow (-exponent).toNat
  { step := up * den
    value := m.quarters * num * down
    low := m.lowerEnd * num * down
    high := m.upperEnd * num * down
    withEnds := m.withEnds }

/-- The fewest digits that read back as `m`, and among those the nearest to it. -/
def shortest (m : Magnitude) (tie : Tie) : Scientific :=
  if m.isZero then
    .zero
  else
    let (num, den) := m.quarterStep
    let top := leadingExponent (m.quarters * num) den
    let found := (List.range 17).findSome? fun (n : Nat) =>
      let exponent := top - n
      ((m.grid exponent).nearest? tie).map fun c => Scientific.ofCoefficient c exponent
    found.getD .zero

end Magnitude

end TexFormula
