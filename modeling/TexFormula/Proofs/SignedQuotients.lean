import Mathlib.Algebra.Order.Field.Power
import Mathlib.Tactic.NormNum
import Mathlib.Tactic.Positivity
import TexFormula.Notation.Writers
import TexFormula.Proofs.NumberTexts
import TexFormula.Proofs.SignedFactors

/-!
# Products as signed quotients

The product of the factors is the quotient of what `Product.ofFactors` puts above and below the bar,
with the sign that it puts in front (`Product.value_ofFactors_valueIn`). Factors are numbers, powers
with integer exponents, and others, whose values are arbitrary (`Expression.valueIn`). A power with an
exponent that is no integer is one of the others; below the bar it has the opposite exponent, so its
value there has to be the inverse.
-/

namespace TexFormula

/-! ### Values of numbers -/

theorem Magnitude.value_nonneg (m : Magnitude) : 0 ≤ m.value := by
  unfold value
  positivity

theorem Decimal.value_nonneg (d : Decimal) (h : d.negative = false) : 0 ≤ d.value := by
  have hnines : (0 : ℚ) ≤ 10 ^ d.repeating.length - 1 := sub_nonneg.mpr (one_le_pow₀ (by norm_num))
  have hcycle : (0 : ℚ) ≤ Digits.value d.repeating.toList / (10 ^ d.repeating.length - 1) :=
    div_nonneg (Nat.cast_nonneg _) hnines
  rw [value, h]
  show 0 ≤ _ / _ * _
  positivity

namespace Number

/-- The number has a value: it is a finite double, or a decimal that consists of digits. -/
def IsFinite : Number → Prop
  | .machine value => value.isFinite = true
  | .decimal value => value.WellFormed

/-- The value, if it is an integer, of whatever size. -/
def integer? (n : Number) : Option ℤ :=
  n.value?.bind fun q => if q.den = 1 then some q.num else none

variable {n : Number} {k : ℤ}

theorem value?_neg (n : Number) : n.neg.value? = n.value?.map (- ·) := by
  cases n with
  | machine value =>
    cases value with
    | finite negative m => exact congrArg some (signed_not negative m.value)
    | _ => rfl
  | decimal value => exact congrArg some (signed_not value.negative _)

theorem integer?_neg (n : Number) : n.neg.integer? = n.integer?.map (- ·) := by
  rw [integer?, integer?, value?_neg]
  cases n.value? with
  | none => rfl
  | some q =>
    show (if (-q).den = 1 then some (-q).num else none) = _
    rw [Rat.neg_den, Rat.neg_num]
    by_cases hden : q.den = 1 <;> simp [hden]

theorem integer?_of_value? (h : n.value? = some (k : ℚ)) : n.integer? = some k := by
  rw [integer?, h]
  rfl

theorem IsFinite.neg (h : n.IsFinite) : n.neg.IsFinite := by
  cases n with
  | machine value =>
    cases value with
    | finite => rfl
    | _ => cases h
  | decimal value => exact ⟨h.whole, h.fraction, h.repeating, h.nonempty, h.exponent⟩

theorem IsFinite.exists_value? (h : n.IsFinite) : ∃ q, n.value? = some q := by
  cases n with
  | machine value =>
    cases value with
    | finite => exact ⟨_, rfl⟩
    | _ => cases h
  | decimal value => exact ⟨_, rfl⟩

/-- A number that is not below zero has no negative value. -/
theorem nonneg_of_value? {q : ℚ} (hsign : n.isNegative = false) (h : n.value? = some q) : 0 ≤ q := by
  cases n with
  | machine value =>
    cases value with
    | finite negative m =>
      obtain rfl : signed negative m.value = q := Option.some.inj h
      cases negative with
      | false => exact m.value_nonneg
      | true =>
        have hzero : m.significand = 0 := by
          simpa [isNegative, Double.isNegative, Magnitude.isZero] using hsign
        have hvalue : m.value = 0 := by
          rw [Magnitude.value, hzero, Nat.cast_zero, zero_mul, zero_div]
        rw [hvalue]
        exact neg_zero.ge
    | _ => cases h
  | decimal value =>
    obtain rfl : value.value = q := Option.some.inj h
    cases hnegative : value.negative with
    | false => exact value.value_nonneg hnegative
    | true =>
      have hzero : value.isZero = true := by simpa [isNegative, hnegative] using hsign
      exact (Decimal.value_of_isZero hzero).ge

end Number

namespace Decimal

/-- Zeros behind the point do not count. -/
theorem value_of_whole {d : Decimal} (hexponent : d.exponent = none) (hrepeating : d.repeating = "")
    (hfraction : ∀ c ∈ d.fraction.toList, c = '0') :
    d.value = signed d.negative (Digits.value d.whole.toList) := by
  have hzeros : d.fraction.toList = Digits.zeros d.fraction.length :=
    List.eq_replicate_iff.mpr ⟨String.length_toList, hfraction⟩
  have hcycle : Digits.value [] = 0 := rfl
  rw [value, hexponent, hrepeating, hzeros, Digits.value_append_zeros, Nat.cast_mul, cast_tenPow]
  simp [hcycle]

/-- A decimal that is written as a whole number has that number as its value. -/
theorem WellFormed.value_of_toInt? {d : Decimal} {k : ℤ} (hd : d.WellFormed) (h : d.toInt? = some k) :
    d.value = k := by
  unfold toInt? at h
  split at h
  · cases h
  · next hplain =>
    simp only [Bool.or_eq_true, not_or, Bool.not_eq_true, Option.isSome_eq_false_iff,
      Option.isNone_iff_eq_none, bne_eq_false_iff_eq, List.any_eq_false] at hplain
    obtain ⟨⟨hexponent, hrepeating⟩, hfraction⟩ := hplain
    obtain ⟨m, hm, rfl⟩ := Option.map_eq_some_iff.mp h
    have hwhole : m = Digits.value d.whole.toList := by
      replace hm := (Option.filter_eq_some_iff.mp hm).1
      split at hm
      · next hempty =>
        rw [hempty]
        exact (Option.some.inj hm).symm
      · next hne =>
        rw [Digits.int?_of_areDigits (mt String.toList_eq_nil_iff.mp hne)
          (List.all_eq_true.mpr hd.whole)] at hm
        exact (Option.some.inj hm).symm
    rw [value_of_whole hexponent hrepeating fun c hc => by simpa using hfraction c hc, hwhole]
    cases d.negative <;> simp [signed]

end Decimal

namespace Number

/-- What is written as a whole number has that number as its value. -/
theorem IsFinite.value?_of_toInt? {n : Number} {k : ℤ} (hn : n.IsFinite) (h : n.toInt? = some k) :
    n.value? = some (k : ℚ) := by
  cases n with
  | machine value =>
    cases value with
    | finite negative m =>
      obtain ⟨j, hj, hbound⟩ := Option.bind_eq_some_iff.mp h
      obtain rfl : j = k := (Option.ite_none_right_eq_some.mp hbound).2 |> Option.some.inj
      cases hi : m.toNat? with
      | none => simp [Double.toInt?, hi] at hj
      | some i =>
        obtain rfl : (if negative then -(i : ℤ) else i) = j := by simpa [Double.toInt?, hi] using hj
        show some (signed negative m.value) = _
        rw [Magnitude.value_eq_of_toNat? hi]
        cases negative <;> simp [signed]
    | _ => cases hn
  | decimal value => exact congrArg some (hn.value_of_toInt? h)

end Number

/-! ### Values of factors -/

namespace Expression

/-- The value of a factor: a number has its own, a power with an integer exponent is that power of the
value of its base, and `v` gives the values of all other factors. -/
def valueIn (v : Expression → ℚ) : Expression → ℚ
  | .number n => n.value?.getD 0
  | .apply (.symbol "Power") [base, .number n] =>
    match n.integer? with
    | some k => base.valueIn v ^ k
    | none => v (.function "Power" [base, .number n])
  | e => v e

/-- Where the exponent is no integer, the power with the opposite exponent has the inverse value, too. -/
def InvertsPower (v : Expression → ℚ) (base : Expression) (n : Number) : Prop :=
  n.integer? = none →
    v (.function "Power" [base, .number n.neg]) = (v (.function "Power" [base, .number n]))⁻¹

variable {v : Expression → ℚ} {base e : Expression} {n : Number} {k : ℤ}

theorem valueIn_number (v : Expression → ℚ) (n : Number) :
    (number n).valueIn v = n.value?.getD 0 := by
  rw [valueIn]

theorem valueIn_power_of_integer? (h : n.integer? = some k) :
    (function "Power" [base, .number n]).valueIn v = base.valueIn v ^ k := by
  rw [function, valueIn, h]

theorem valueIn_power_of_not_integer? (h : n.integer? = none) :
    (function "Power" [base, .number n]).valueIn v = v (function "Power" [base, .number n]) := by
  rw [function, valueIn, h]
  rfl

theorem valueIn_neg (v : Expression → ℚ) (n : Number) :
    (number n.neg).valueIn v = -(number n).valueIn v := by
  rw [valueIn_number, valueIn_number, Number.value?_neg]
  cases n.value? with
  | none => exact neg_zero.symm
  | some q => rfl

theorem valueIn_power_neg (hv : InvertsPower v base n) :
    (function "Power" [base, .number n.neg]).valueIn v =
      ((function "Power" [base, .number n]).valueIn v)⁻¹ := by
  have hneg := Number.integer?_neg n
  cases hk : n.integer? with
  | none =>
    rw [hk] at hneg
    rw [valueIn_power_of_not_integer? hneg, valueIn_power_of_not_integer? hk, hv hk]
  | some k =>
    rw [hk] at hneg
    rw [valueIn_power_of_integer? hneg, valueIn_power_of_integer? hk, zpow_neg]

end Expression

/-! ### Sorted factors -/

namespace Product

open Expression (InvertsPower valueIn valueIn_number valueIn_neg valueIn_power_neg)

variable {v : Expression → ℚ} {e r : Expression} {es : List Expression} {n : Number}

theorem valueIn_eq_signed (v : Expression → ℚ) (e : Expression) :
    e.valueIn v = signed (negativeNumber? e).isSome ((unsigned e).valueIn v) := by
  unfold unsigned
  split
  · next n hn =>
    obtain ⟨rfl, -⟩ := eq_of_negativeNumber? hn
    rw [hn, valueIn_neg]
    exact (neg_neg _).symm
  · next hnone =>
    rw [hnone]
    rfl

theorem valueIn_unsigned_of_isMinusOne (hfinite : ∀ n, e = .number n → n.IsFinite)
    (h : isMinusOne e = true) : (unsigned e).valueIn v = 1 := by
  obtain ⟨n, hn, hone⟩ := (Option.any_eq_true _ _).mp h
  obtain ⟨rfl, -⟩ := eq_of_negativeNumber? hn
  have hvalue : n.value? = some ((-1 : ℤ) : ℚ) := (hfinite n rfl).value?_of_toInt? (eq_of_beq hone)
  have hunsigned : unsigned (.number n) = .number n.neg := by rw [unsigned, hn]
  rw [hunsigned, valueIn_neg, valueIn_number, hvalue]
  norm_num

/-- A factor below the bar is the inverse of the one it comes from. -/
theorem valueIn_eq_inv_of_reciprocal?
    (hfinite : ∀ base n, e = .function "Power" [base, .number n] → n.IsFinite)
    (hinverse : ∀ base n, e = .function "Power" [base, .number n] → n.isNegative →
      InvertsPower v base n)
    (h : reciprocal? e = some r) : e.valueIn v = (r.valueIn v)⁻¹ := by
  obtain ⟨base, n, rfl, hnegative, rfl⟩ := exists_of_reciprocal? h
  rw [← inv_inv ((Expression.function "Power" [base, .number n]).valueIn v),
    ← valueIn_power_neg (hinverse base n rfl hnegative)]
  split
  · next hone =>
    have hn : n.neg.IsFinite := (hfinite base n rfl).neg
    have hinteger := Number.integer?_of_value? (hn.value?_of_toInt? hone)
    rw [Expression.valueIn_power_of_integer? hinteger, zpow_one]
  · rfl

/-- The numbers above the bar have lost their signs. -/
theorem exists_nonneg_of_mem_numerator (hfinite : ∀ n, .number n ∈ es → n.IsFinite)
    (h : .number n ∈ (ofFactors es).numerator) : ∃ q, n.value? = some q ∧ 0 ≤ q := by
  obtain ⟨e, he, heq⟩ := exists_of_mem_numerator h
  have hsign : n.isNegative = false := by
    have hnone := negativeNumber?_unsigned e
    rw [← heq] at hnone
    simpa [negativeNumber?, Expression.number?] using hnone
  have hn : n.IsFinite := by
    unfold unsigned at heq
    split at heq
    · next m hm =>
      obtain ⟨rfl, -⟩ := eq_of_negativeNumber? hm
      obtain rfl := Expression.number.inj heq
      exact (hfinite m he).neg
    · exact hfinite n (heq ▸ he)
  obtain ⟨q, hq⟩ := hn.exists_value?
  exact ⟨q, hq, Number.nonneg_of_value? hsign hq⟩

/-- Nothing below the bar is zero, if no base is and no other factor is. -/
theorem valueIn_ne_zero_of_mem_denominator (hv : ∀ e, v e ≠ 0)
    (hbase : ∀ base n, .function "Power" [base, .number n] ∈ es → base.valueIn v ≠ 0)
    (h : r ∈ (ofFactors es).denominator) : r.valueIn v ≠ 0 := by
  obtain ⟨e, he, hr⟩ := exists_of_mem_denominator h
  obtain ⟨base, n, rfl, -, rfl⟩ := exists_of_reciprocal? hr
  split
  · exact hbase base n he
  · cases hk : n.neg.integer? with
    | none =>
      rw [Expression.valueIn_power_of_not_integer? hk]
      exact hv _
    | some k =>
      rw [Expression.valueIn_power_of_integer? hk]
      exact zpow_ne_zero k (hbase base n he)

/-- The sign and the factors above and below the bar have the value of all factors together, and no
number above the bar is negative. The quotient is one of nonzero values, if all bases and all factors
with arbitrary values are nonzero. -/
theorem value_ofFactors_valueIn (hnumbers : ∀ n, .number n ∈ es → n.IsFinite)
    (hexponents : ∀ base n, .function "Power" [base, .number n] ∈ es → n.IsFinite)
    (hinverse : ∀ base n, .function "Power" [base, .number n] ∈ es → n.isNegative →
      InvertsPower v base n) :
    (ofFactors es).value (valueIn v) = (es.map (valueIn v)).prod ∧
      (∀ n, .number n ∈ (ofFactors es).numerator → ∃ q, n.value? = some q ∧ 0 ≤ q) ∧
      ((∀ e, v e ≠ 0) →
        (∀ base n, .function "Power" [base, .number n] ∈ es → base.valueIn v ≠ 0) →
        ∀ r ∈ (ofFactors es).denominator, r.valueIn v ≠ 0) := by
  have hsorts (e : Expression) (he : e ∈ es) : Sorts (valueIn v) e :=
    { sign := valueIn_eq_signed v e
      unit := valueIn_unsigned_of_isMinusOne fun n heq => hnumbers n (heq ▸ he)
      inverse := valueIn_eq_inv_of_reciprocal? (fun base n heq => hexponents base n (heq ▸ he))
        fun base n heq => hinverse base n (heq ▸ he) }
  exact ⟨value_ofFactors hsorts, fun n => exists_nonneg_of_mem_numerator hnumbers,
    fun hother hbase r => valueIn_ne_zero_of_mem_denominator hother hbase⟩

/-- A -1 in front, a reciprocal, and negative powers with exponents that are integers or are not. -/
theorem value_ofFactors_valueIn_mixed :
    let v : Expression → ℚ := fun e => match e with
      | .symbol "x" => 2
      | .symbol "y" => -3
      | .apply _ [_, .number n] => if n.isNegative then 1 / 5 else 5
      | _ => 7
    let minusOne : Double := .finite true ⟨twoPow 52, 1022, by decide, by decide, Or.inr (by decide)⟩
    let minusTwo : Decimal := { negative := true, whole := "2" }
    let es : List Expression :=
      [.ofDouble minusOne, .function "Power" [.symbol "x", .ofDouble minusOne],
        .number (.decimal minusTwo), .function "Power" [.symbol "y", .number (.decimal minusTwo)],
        .function "Power" [.symbol "x", .ofDouble (.half true)], .symbol "z"]
    (ofFactors es).value (valueIn v) = (es.map (valueIn v)).prod ∧
      (∀ n, .number n ∈ (ofFactors es).numerator → ∃ q, n.value? = some q ∧ 0 ≤ q) ∧
      ∀ r ∈ (ofFactors es).denominator, r.valueIn v ≠ 0 := by
  intro v minusOne minusTwo es
  have htwo : minusTwo.WellFormed :=
    { whole := List.all_eq_true.mp (by decide)
      fraction := nofun
      repeating := nofun
      nonempty := by decide
      exponent := nofun }
  have hnumbers : ∀ n, .number n ∈ es → n.IsFinite := by
    intro n hn
    obtain rfl | rfl : n = .machine minusOne ∨ n = .decimal minusTwo := by
      simpa [es, Expression.ofDouble, Expression.function] using hn
    · rfl
    · exact htwo
  have hpowers {base : Expression} {n : Number} (hn : .function "Power" [base, .number n] ∈ es) :
      (base = .symbol "x" ∨ base = .symbol "y") ∧ n.IsFinite := by
    obtain ⟨rfl, rfl⟩ | ⟨rfl, rfl⟩ | ⟨rfl, rfl⟩ :
        base = .symbol "x" ∧ n = .machine minusOne ∨ base = .symbol "y" ∧ n = .decimal minusTwo ∨
          base = .symbol "x" ∧ n = .machine (.half true) := by
      simpa [es, Expression.ofDouble, Expression.function] using hn
    · exact ⟨.inl rfl, rfl⟩
    · exact ⟨.inr rfl, htwo⟩
    · exact ⟨.inl rfl, rfl⟩
  obtain ⟨hvalue, hnumerator, hdenominator⟩ := value_ofFactors_valueIn (v := v) hnumbers
    (fun base n hn => (hpowers hn).2) fun base n _ hnegative _ => by
      simp [v, Expression.function, hnegative, Number.isNegative_neg hnegative]
  refine ⟨hvalue, hnumerator, hdenominator (fun e => ?_) fun base n hn => ?_⟩
  · simp only [v]
    split
    · norm_num
    · norm_num
    · split <;> norm_num
    · norm_num
  · obtain ⟨rfl | rfl, -⟩ := hpowers hn <;> simp [v, Expression.valueIn]

/-- One over the root of `x` comes below the bar as the root of `x`, so the quotient is another one if
the values of the two have nothing to do with each other. -/
theorem not_value_ofFactors_eq_prod :
    ¬∀ (v : Expression → ℚ) (es : List Expression), es ≠ [] → (∀ e, v e ≠ 0) →
      (∀ n, .number n ∈ es → n.IsFinite) →
      (∀ base n, .function "Power" [base, .number n] ∈ es → n.IsFinite) →
      (ofFactors es).value (valueIn v) = (es.map (valueIn v)).prod := by
  intro h
  let v (e : Expression) : ℚ := if e.arguments.any fun a => (negativeNumber? a).isSome then 2 else 3
  let root (negative : Bool) : Expression :=
    .function "Power" [.symbol "x", .ofDouble (.half negative)]
  have hv : ∀ e, v e ≠ 0 := by
    intro e
    simp only [v]
    split <;> norm_num
  have hinteger (negative : Bool) : (Number.machine (.half negative)).integer? = none := by
    cases negative <;> decide +kernel
  have hroot (negative : Bool) : (root negative).valueIn v = if negative then 2 else 3 := by
    cases negative <;> exact Expression.valueIn_power_of_not_integer? (hinteger _)
  have hparts : ofFactors [root true, root false] = ⟨false, [root false], [root false]⟩ := rfl
  have hvalue := h v [root true, root false] (List.cons_ne_nil _ _) hv
    (fun n hn => by simp [root, Expression.function] at hn)
    (fun base n hn => by
      obtain ⟨-, rfl⟩ | ⟨-, rfl⟩ := by
        simpa [root, Expression.function, Expression.ofDouble] using hn
      · rfl
      · rfl)
  rw [hparts, value] at hvalue
  norm_num [hroot, signed] at hvalue

end Product

end TexFormula
