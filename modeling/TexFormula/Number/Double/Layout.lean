import TexFormula.Number.Double.Shortest

/-!
# Texts of doubles

A text form of doubles shows the shortest digits either with a point among them or with a power of
ten after them. A `Layout` holds the decisions of one form; `Layout.plain` is the form for which a
number literal counts as exact, and the one that answers show.
-/

namespace TexFormula

/-- The decisions of a text form of doubles. -/
structure Layout where
  /-- The least decimal exponent written without a power of ten. -/
  lowest : Int
  /-- The greatest decimal exponent written without a power of ten. -/
  highest : Int
  /-- Whole numbers end in `.0`. -/
  pointZero : Bool
  /-- A positive power of ten has a plus sign. -/
  plus : Bool
  /-- The sign of a negative zero is written. -/
  signedZero : Bool
  tie : Tie
deriving DecidableEq, Repr

namespace Layout

/-- Positional from 1e-6 to 1e20, no `.0`, one zero; of two equally near decimals the upper one. -/
def plain : Layout :=
  ⟨-6, 20, false, true, false, .upward⟩

/-- Positional from 1e-5 to 1e15 with `.0`, and powers of ten with a sign. -/
def json : Layout :=
  ⟨-5, 15, true, true, true, .toEven⟩

/-- As `json`, with a sign only at negative powers of ten. -/
def yaml : Layout :=
  { json with plus := false }

/-- The digits with the point among them. -/
def positional (layout : Layout) (s : Scientific) : List Char :=
  if s.exponent < 0 then
    '0' :: '.' :: (Digits.zeros (-s.exponent - 1).toNat ++ s.digits)
  else
    let width := (s.exponent + 1).toNat
    if s.digits.length ≤ width then
      s.digits ++ Digits.zeros (width - s.digits.length) ++
        (if layout.pointZero then ['.', '0'] else [])
    else
      s.digits.take width ++ '.' :: s.digits.drop width

/-- The digits with a power of ten after them. -/
def withPower (layout : Layout) (s : Scientific) : List Char :=
  let fraction := if s.digits.length ≤ 1 then [] else '.' :: s.digits.drop 1
  let sign := if s.exponent < 0 then ['-'] else if layout.plus then ['+'] else []
  s.digits.take 1 ++ fraction ++ 'e' :: (sign ++ Digits.ofNat s.exponent.natAbs)

/-- The text of a magnitude. -/
def magnitude (layout : Layout) (m : Magnitude) : List Char :=
  let s := m.shortest layout.tie
  if layout.lowest ≤ s.exponent ∧ s.exponent ≤ layout.highest then
    layout.positional s
  else
    layout.withPower s

/-- The text of a double. -/
def write (layout : Layout) : Double → String
  | .nan => "NaN"
  | .infinity negative => if negative then "-Infinity" else "Infinity"
  | .finite negative m =>
    let sign := if negative && (layout.signedZero || !m.isZero) then ['-'] else []
    String.ofList (sign ++ layout.magnitude m)

end Layout

end TexFormula
