import TexFormula.Number.Digits

/-!
# Doubles

The values of the 64 bit binary format. A finite magnitude is a whole number of steps of the size
`2 ^ (scale - 1074)`, kept in the one way the format has for it: the significand has 53 bits unless
the scale is the lowest one. Signs are apart, so there are two zeros; all payloads of "not a number"
are one value.
-/

namespace TexFormula

/-- The number `significand * 2 ^ (scale - 1074)`. -/
structure Magnitude where
  significand : Nat
  scale : Nat
  significand_lt : significand < twoPow 53
  scale_le : scale ≤ 2045
  normal : scale = 0 ∨ twoPow 52 ≤ significand
deriving DecidableEq, Repr

namespace Magnitude

def zero : Magnitude :=
  ⟨0, 0, by decide, by decide, Or.inl rfl⟩

instance : Inhabited Magnitude := ⟨zero⟩

/-- The magnitude with these parts, if the format has it. -/
def ofParts? (significand scale : Nat) : Option Magnitude :=
  if h : significand < twoPow 53 ∧ scale ≤ 2045 ∧ (scale = 0 ∨ twoPow 52 ≤ significand) then
    some ⟨significand, scale, h.1, h.2.1, h.2.2⟩
  else
    none

theorem ofParts?_eq (m : Magnitude) : ofParts? m.significand m.scale = some m :=
  dif_pos ⟨m.significand_lt, m.scale_le, m.normal⟩

def isZero (m : Magnitude) : Bool :=
  m.significand == 0

/-- The value, if it is a whole number. -/
def toNat? (m : Magnitude) : Option Nat :=
  if 1074 ≤ m.scale then
    some (m.significand * twoPow (m.scale - 1074))
  else if m.significand % twoPow (1074 - m.scale) = 0 then
    some (m.significand / twoPow (1074 - m.scale))
  else
    none

end Magnitude

/-- A value of the 64 bit binary format. -/
inductive Double where
  | nan
  | infinity (negative : Bool)
  | finite (negative : Bool) (magnitude : Magnitude)
deriving DecidableEq, Repr, Inhabited

namespace Double

/-- The value is below zero. Neither zero is. -/
def isNegative : Double → Bool
  | .nan => false
  | .infinity negative => negative
  | .finite negative m => negative && !m.isZero

def isFinite : Double → Bool
  | .finite _ _ => true
  | _ => false

/-- The value with the other sign. -/
def neg : Double → Double
  | .nan => .nan
  | .infinity negative => .infinity !negative
  | .finite negative m => .finite (!negative) m

theorem neg_neg (x : Double) : x.neg.neg = x := by
  cases x <;> simp [neg]

/-- The value, if it is a whole number; both zeros are 0. -/
def toInt? : Double → Option Int
  | .finite negative m => m.toNat?.map fun n => if negative then -(n : Int) else n
  | _ => none

/-- The value whose 64 bits, read as a number, are `bits`. -/
def ofBits (bits : Nat) : Double :=
  let negative := bits / twoPow 63 % 2 == 1
  let exponent := bits / twoPow 52 % twoPow 11
  let fraction := bits % twoPow 52
  if exponent = 2047 then
    if fraction = 0 then .infinity negative else .nan
  else if exponent = 0 then
    .finite negative ((Magnitude.ofParts? fraction 0).getD .zero)
  else
    .finite negative ((Magnitude.ofParts? (twoPow 52 + fraction) (exponent - 1)).getD .zero)

end Double

end TexFormula
