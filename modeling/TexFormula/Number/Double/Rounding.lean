import TexFormula.Number.Digits
import TexFormula.Number.Double

/-!
# Reading decimals as doubles

A decimal is read as the nearest double, and as the one with an even significand if two are equally
near. `Magnitude.ofRatio?` does so for a quotient of natural numbers; `Double.ofDecimal` and
`Double.ofText?` build on it.
-/

namespace TexFormula

/-- The whole number nearest to `num / den`; of two equally near ones the even one. -/
def roundHalfEven (num den : Nat) : Nat :=
  let q := num / den
  let twice := 2 * (num % den)
  if twice < den then q
  else if twice = den then q + q % 2
  else q + 1

/-- The magnitude nearest to `num / den`; nothing if that is beyond the greatest one. -/
def Magnitude.ofRatio? (num den : Nat) : Option Magnitude :=
  let steps := num * twoPow 1074
  let scale := (steps / den).log2 + 1 - 53
  let significand := roundHalfEven steps (den * twoPow scale)
  if significand < twoPow 53 then ofParts? significand scale else ofParts? (twoPow 52) (scale + 1)

namespace Double

/-- The double nearest to `digits * 10 ^ exponent`. -/
def ofDecimal (negative : Bool) (digits : Nat) (exponent : Int) : Double :=
  let top := exponent + Digits.count digits
  if digits = 0 || top < -325 then
    .finite negative .zero
  else if 310 < top then
    .infinity negative
  else
    let magnitude :=
      if 0 ≤ exponent then Magnitude.ofRatio? (digits * tenPow exponent.toNat) 1
      else Magnitude.ofRatio? digits (tenPow (-exponent).toNat)
    match magnitude with
    | some m => .finite negative m
    | none => .infinity negative

/-- The double nearest to an integer. -/
def ofInt (n : Int) : Double :=
  ofDecimal (n < 0) n.natAbs 0

/-- The exponent after a mantissa: nothing at all, or a letter and a signed digit run. -/
def exponentOfText? : List Char → Option Int
  | [] => some 0
  | c :: cs => if c == 'e' || c == 'E' then Digits.int? cs else none

/-- A decimal without sign: digits, perhaps with a point among or beside them, and perhaps an
exponent. -/
def unsignedOfText? (negative : Bool) (cs : List Char) : Option Double :=
  let whole := cs.takeWhile Char.isDigit
  let afterWhole := cs.dropWhile Char.isDigit
  let (fraction, afterFraction) :=
    match afterWhole with
    | '.' :: ds => (ds.takeWhile Char.isDigit, ds.dropWhile Char.isDigit)
    | _ => ([], afterWhole)
  if whole.isEmpty && fraction.isEmpty then
    none
  else
    (exponentOfText? afterFraction).map fun exponent =>
      ofDecimal negative (Digits.value (whole ++ fraction)) (exponent - fraction.length)

/-- The names of the values that have no digits, in small letters. -/
def special? (negative : Bool) (cs : List Char) : Option Double :=
  let name := String.ofList (cs.map Char.toLower)
  if name = "inf" || name = "infinity" then some (.infinity negative)
  else if name = "nan" then some .nan
  else none

/-- Reads a number text: a sign or none, then a decimal or the name of a special value. -/
def ofText? (text : String) : Option Double :=
  let (negative, cs) :=
    match text.toList with
    | '-' :: cs => (true, cs)
    | '+' :: cs => (false, cs)
    | cs => (false, cs)
  (special? negative cs).or (unsignedOfText? negative cs)

end Double

/-!
## Scaling by powers of ten

A quick way to read a decimal takes its leading digits as a whole number and multiplies or divides
it by a power of ten. The whole number, the power and the result are rounded one after the other,
so the result may be a neighbour of the nearest double.
-/

namespace Magnitude

/-- The magnitude nearest to a whole number. -/
def ofNat? (n : Nat) : Option Magnitude :=
  ofRatio? n 1

/-- The magnitude nearest to a product; nothing if it is beyond the greatest one. -/
def mul? (a b : Magnitude) : Option Magnitude :=
  ofRatio? (a.significand * twoPow a.scale * (b.significand * twoPow b.scale)) (twoPow 2148)

/-- The magnitude nearest to a quotient; nothing if it is beyond the greatest one. -/
def div? (a b : Magnitude) : Option Magnitude :=
  ofRatio? (a.significand * twoPow a.scale) (b.significand * twoPow b.scale)

/-- The magnitude nearest to a power of ten, which is at most the 308th. -/
def powerOfTen (exponent : Nat) : Magnitude :=
  (ofNat? (tenPow exponent)).getD .zero

/-- Divides by the greatest power of ten several times. -/
def shrink (m : Magnitude) : Nat → Magnitude
  | 0 => m
  | count + 1 => ((m.div? (powerOfTen 308)).getD .zero).shrink count

/-- A magnitude times a power of ten. A negative power beyond the greatest one is taken in steps of
that, and after two of them nothing is left. -/
def scaleByTen? (m : Magnitude) (exponent : Int) : Option Magnitude :=
  if 308 < exponent then
    if m.isZero then some m else none
  else if 0 ≤ exponent then
    m.mul? (powerOfTen exponent.toNat)
  else
    let places := (-exponent).toNat
    let steps := (places - 1) / 308
    (m.shrink (min steps 2)).div? (powerOfTen (places - 308 * steps))

end Magnitude

end TexFormula
