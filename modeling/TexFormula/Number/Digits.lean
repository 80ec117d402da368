/-!
# Digit runs and powers

Runs of ASCII digits as texts and the natural numbers they stand for, and the powers of two and ten.
-/

namespace TexFormula

/-- Two to the power `n`. -/
def twoPow (n : Nat) : Nat :=
  Nat.pow 2 n

/-- Ten to the power `n`. -/
def tenPow (n : Nat) : Nat :=
  Nat.pow 10 n

theorem twoPow_succ (n : Nat) : twoPow (n + 1) = twoPow n * 2 := rfl

theorem tenPow_succ (n : Nat) : tenPow (n + 1) = tenPow n * 10 := rfl

theorem twoPow_pos (n : Nat) : 0 < twoPow n :=
  Nat.pow_pos (by decide)

theorem tenPow_pos (n : Nat) : 0 < tenPow n :=
  Nat.pow_pos (by decide)

namespace Digits

/-- The text is a run of ASCII digits, perhaps empty. -/
def areDigits (cs : List Char) : Bool :=
  cs.all Char.isDigit

/-- The number one digit stands for. -/
def digitValue (c : Char) : Nat :=
  c.toNat - '0'.toNat

/-- The number a digit run stands for; zero for the empty run. -/
def value (cs : List Char) : Nat :=
  cs.foldl (fun n c => 10 * n + digitValue c) 0

/-- The number a nonempty digit run stands for. -/
def value? (cs : List Char) : Option Nat :=
  if !cs.isEmpty && areDigits cs then some (value cs) else none

/-- The decimal digits of a number, without leading zeros; `0` for zero. -/
def ofNat (n : Nat) : List Char :=
  Nat.toDigits 10 n

/-- How many decimal digits a number has; none for zero. -/
def count (n : Nat) : Nat :=
  if n = 0 then 0 else (ofNat n).length

/-- The decimal text of an integer. -/
def ofInt (n : Int) : List Char :=
  if n < 0 then '-' :: ofNat n.natAbs else ofNat n.natAbs

/-- A run of `n` zeros. -/
def zeros (n : Nat) : List Char :=
  List.replicate n '0'

/-- Without the zeros at the end. -/
def withoutTrailingZeros (cs : List Char) : List Char :=
  (cs.reverse.dropWhile (· == '0')).reverse

/-- Without the zeros at the front. -/
def withoutLeadingZeros (cs : List Char) : List Char :=
  cs.dropWhile (· == '0')

/-- An integer with at most one sign in front, as text. -/
def int? (cs : List Char) : Option Int :=
  match cs with
  | '+' :: ds => (value? ds).map fun n => (n : Int)
  | '-' :: ds => (value? ds).map fun n => -(n : Int)
  | ds => (value? ds).map fun n => (n : Int)

end Digits

end TexFormula
