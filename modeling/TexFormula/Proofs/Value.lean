import Mathlib.Algebra.BigOperators.Group.List.Basic
import Mathlib.Algebra.Order.Field.Rat
import Mathlib.Tactic.FieldSimp
import Mathlib.Tactic.Ring
import TexFormula.Expression
import TexFormula.Proofs.WholeDoubles

/-!
# The value of an expression

`Expression.value? σ e` is the rational number that an arithmetic expression stands for if its
symbols have the values `σ`. Quotients by zero have none, nor have negative powers of zero.
-/

namespace TexFormula

namespace Magnitude

def value (m : Magnitude) : ℚ :=
  (m.significand * twoPow m.scale : ℚ) / twoPow 1074

theorem significand_mul_of_toNat? {m : Magnitude} {n : Nat} (h : m.toNat? = some n) :
    m.significand * twoPow m.scale = n * twoPow 1074 := by
  unfold toNat? at h
  split at h
  · next hscale =>
    have hproduct : m.significand * twoPow (m.scale - 1074) = n := Option.some.inj h
    rw [twoPow_eq_mul (a := m.scale - 1074) (b := 1074) (c := m.scale) (by omega), ← Nat.mul_assoc,
      hproduct]
  · next hscale =>
    split at h
    · next hmod =>
      have hquotient : m.significand / twoPow (1074 - m.scale) = n := Option.some.inj h
      rw [twoPow_eq_mul (a := 1074 - m.scale) (b := m.scale) (c := 1074) (by omega),
        ← Nat.mul_assoc, ← hquotient, Nat.div_mul_cancel (Nat.dvd_of_mod_eq_zero hmod)]
    · cases h

theorem value_eq_of_toNat? {m : Magnitude} {n : Nat} (h : m.toNat? = some n) : m.value = n := by
  have hpos : (twoPow 1074 : ℚ) ≠ 0 := Nat.cast_ne_zero.mpr (Nat.ne_of_gt (twoPow_pos 1074))
  rw [value, div_eq_iff hpos]
  exact_mod_cast significand_mul_of_toNat? h

theorem isZero_of_toNat? {m : Magnitude} {n : Nat} (h : m.toNat? = some n) :
    m.isZero = (n == 0) := by
  have hvalue := significand_mul_of_toNat? h
  have hscale := twoPow_pos m.scale
  rw [isZero]
  rcases Nat.eq_zero_or_pos n with rfl | hn
  · rw [Nat.zero_mul] at hvalue
    rw [(Nat.mul_eq_zero.mp hvalue).resolve_right (Nat.ne_of_gt hscale)]
  · have hpos := Nat.mul_pos hn (twoPow_pos 1074)
    have hne : m.significand ≠ 0 := by
      intro hzero
      rw [hzero, Nat.zero_mul] at hvalue
      omega
    rw [beq_false_of_ne hne, beq_false_of_ne (Nat.ne_of_gt hn)]

end Magnitude

/-- The value with a sign in front. -/
def signed (negative : Bool) (q : ℚ) : ℚ :=
  if negative then -q else q

theorem signed_not (negative : Bool) (q : ℚ) : signed (!negative) q = -signed negative q := by
  cases negative <;> simp [signed]

theorem signed_xor (negative negative' : Bool) (q : ℚ) :
    signed (negative != negative') q = signed negative (signed negative' q) := by
  cases negative <;> cases negative' <;> simp [signed]

theorem signed_mul (negative : Bool) (q r : ℚ) : signed negative (q * r) = signed negative q * r := by
  cases negative <;> simp [signed]

def Double.value? : Double → Option ℚ
  | .finite negative m => some (signed negative m.value)
  | _ => none

/-- The digits that repeat make up a fraction of nines. -/
def Decimal.value (d : Decimal) : ℚ :=
  let digits := Digits.value (d.whole.toList ++ d.fraction.toList)
  let cycle := (Digits.value d.repeating.toList : ℚ) / (10 ^ d.repeating.length - 1)
  signed d.negative ((digits + cycle) / 10 ^ d.fraction.length * 10 ^ d.exponent.getD 0)

def Number.value? : Number → Option ℚ
  | .machine value => value.value?
  | .decimal value => some value.value

namespace Expression

/-- What the name of a function makes of the values of its arguments. -/
def operation? (name : String) (values : List ℚ) : Option ℚ :=
  match name, values with
  | "Add", values => some values.sum
  | "Multiply", values => some values.prod
  | "Subtract", [a, b] => some (a - b)
  | "Divide", [a, b] => if b = 0 then none else some (a / b)
  | "Negate", [a] => some (-a)
  | "Power", [a, b] => if b.den = 1 ∧ (0 ≤ b ∨ a ≠ 0) then some (a ^ b.num) else none
  | _, _ => none

mutual

def value? (σ : String → ℚ) : Expression → Option ℚ
  | .number n => n.value?
  | .symbol name => some (σ name)
  | .apply (.symbol name) arguments => (values? σ arguments).bind (operation? name)
  | _ => none

/-- The values of several expressions, if all of them have one. -/
def values? (σ : String → ℚ) : List Expression → Option (List ℚ)
  | [] => some []
  | e :: es => (value? σ e).bind fun v => (values? σ es).map (v :: ·)

end

variable {σ : String → ℚ} {e : Expression} {es : List Expression} {name : String}

theorem value?_function :
    (function name es).value? σ = (values? σ es).bind (operation? name) := by
  rw [function, value?]

theorem values?_append_singleton (es : List Expression) (e : Expression) :
    values? σ (es ++ [e]) = (values? σ es).bind fun vs => (value? σ e).map fun v => vs ++ [v] := by
  induction es with
  | nil => simp [values?]; cases value? σ e <;> rfl
  | cons a es ih =>
    rw [List.cons_append, values?, values?, ih]
    cases value? σ a <;> cases values? σ es <;> cases value? σ e <;> rfl

@[simp] theorem operation?_add (vs : List ℚ) : operation? "Add" vs = some vs.sum := rfl
@[simp] theorem operation?_multiply (vs : List ℚ) : operation? "Multiply" vs = some vs.prod := rfl
@[simp] theorem operation?_subtract (a b : ℚ) : operation? "Subtract" [a, b] = some (a - b) := rfl
@[simp] theorem operation?_negate (a : ℚ) : operation? "Negate" [a] = some (-a) := rfl
@[simp] theorem operation?_divide (a b : ℚ) :
    operation? "Divide" [a, b] = if b = 0 then none else some (a / b) := rfl
@[simp] theorem operation?_power (a b : ℚ) :
    operation? "Power" [a, b] =
      if b.den = 1 ∧ (0 ≤ b ∨ a ≠ 0) then some (a ^ b.num) else none := rfl

end Expression

end TexFormula
