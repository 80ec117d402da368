import TexFormula.Proofs.NumberTexts

/-!
# The decimals that are written

Every finite number is written as the parts of a decimal (`NumberFormat.written?`): whole digits, a
fraction, digits that repeat and an exponent. A double shows its shortest digits and a decimal its
significant ones, with the point where the style sets it; in automatic style a decimal keeps the digits
that it has. The value stays the same (`NumberFormat.value_writtenDecimal`), and where the style sets the
point, the first digit of a number is not a zero (`NumberFormat.head?_whole_writtenDecimal`).
-/

namespace TexFormula

namespace Digits

theorem value_withoutLeadingZeros (cs : List Char) : value (withoutLeadingZeros cs) = value cs := by
  have h := value_withoutLeadingZeros_append cs []
  rwa [List.append_nil, List.append_nil] at h

theorem value_withoutTrailingZeros (cs : List Char) :
    value (withoutTrailingZeros cs) * tenPow (cs.length - (withoutTrailingZeros cs).length) =
      value cs := by
  rw [← value_append_zeros, withoutTrailingZeros_append_zeros]

theorem withoutTrailingZeros_prefix (cs : List Char) : withoutTrailingZeros cs <+: cs :=
  ⟨_, withoutTrailingZeros_append_zeros cs⟩

/-- Zeros that are taken off both ends do not come first. -/
theorem head?_withoutZeros_ne (cs : List Char) :
    (withoutTrailingZeros (withoutLeadingZeros cs)).head? ≠ some '0' := by
  intro hzero
  have hfilled := withoutTrailingZeros_append_zeros (withoutLeadingZeros cs)
  have hfirst : (withoutLeadingZeros cs).head? = some '0' := by
    rw [← hfilled, List.head?_append, hzero]
    rfl
  have hnot := List.head?_dropWhile_not (· == '0') cs
  rw [show cs.dropWhile (· == '0') = withoutLeadingZeros cs from rfl, hfirst] at hnot
  cases hnot

end Digits

namespace Scientific

variable {d : Decimal}

/-- The first significant digit is not zero, unless all of them are. -/
theorem ofDecimal_eq_zero_or (d : Decimal) :
    ofDecimal d = zero ∨ ∃ c cs, (ofDecimal d).digits = c :: cs ∧ c ≠ '0' := by
  unfold ofDecimal
  dsimp only
  split
  · exact .inl rfl
  · next hne =>
    rw [List.isEmpty_iff] at hne
    obtain ⟨c, cs, hdigits⟩ := List.exists_cons_of_ne_nil hne
    have hhead := Digits.head?_withoutZeros_ne (d.whole.toList ++ d.fraction.toList)
    rw [hdigits] at hhead
    exact .inr ⟨c, cs, hdigits, fun hc => hhead (congrArg some hc)⟩

theorem isDigit_of_mem_ofDecimal (hwhole : ∀ c ∈ d.whole.toList, c.isDigit = true)
    (hfraction : ∀ c ∈ d.fraction.toList, c.isDigit = true) :
    ∀ c ∈ (ofDecimal d).digits, c.isDigit = true := by
  unfold ofDecimal
  dsimp only
  split
  · exact List.all_eq_true.mp rfl
  · intro c hc
    have hmem := (List.dropWhile_suffix _).mem ((Digits.withoutTrailingZeros_prefix _).mem hc)
    exact (List.mem_append.mp hmem).elim (hwhole c) (hfraction c)

/-- The significant digits of a decimal make up its value. -/
theorem value_ofDecimal (h : d.repeating = "") :
    signed d.negative (ofDecimal d).value = d.value := by
  have hten : (10 : ℚ) ≠ 0 := by norm_num
  have hcycle : Digits.value [] = 0 := rfl
  rw [Decimal.value, h, String.toList_empty, hcycle, Nat.cast_zero, zero_div, add_zero]
  congr 1
  generalize hall : d.whole.toList ++ d.fraction.toList = all
  have hlength : all.length = d.whole.length + d.fraction.length := by
    rw [← hall, List.length_append, String.length_toList, String.length_toList]
  have hsignificant := Digits.value_withoutLeadingZeros all
  have hdigits := Digits.value_withoutTrailingZeros (Digits.withoutLeadingZeros all)
  have hle := (Digits.withoutTrailingZeros_prefix (Digits.withoutLeadingZeros all)).length_le
  unfold ofDecimal
  rw [hall]
  dsimp only
  generalize Digits.withoutLeadingZeros all = significant at *
  generalize Digits.withoutTrailingZeros significant = digits at *
  split
  · next hempty =>
    rw [List.isEmpty_iff.mp hempty, hcycle, Nat.zero_mul] at hdigits
    rw [← hsignificant, ← hdigits, Scientific.value, zero]
    simp [Digits.value, Digits.digitValue]
  · have hexponent : (d.whole.length + d.exponent.getD 0 - 1 -
          ((all.length : Int) - significant.length) + 1 - digits.length : Int) =
        (significant.length - digits.length : Nat) - (d.fraction.length : Int) +
          d.exponent.getD 0 := by
      omega
    rw [Scientific.value]
    dsimp only
    rw [hexponent, zpow_add₀ hten, zpow_sub₀ hten, zpow_natCast, zpow_natCast, ← hsignificant,
      ← hdigits, Nat.cast_mul, cast_tenPow]
    ring

/-- The point stands behind as many digits as the shift says. -/
theorem split_whole (s : Scientific) {shift : Int} (h : 0 ≤ shift) :
    (s.split shift).1.length = shift.toNat + 1 ∧
      (s.digits ≠ [] → (s.split shift).1.head? = s.digits.head?) := by
  rw [split_of_pos s (by omega)]
  obtain ⟨n, rfl⟩ := Int.eq_ofNat_of_zero_le h
  refine ⟨?_, fun hne => ?_⟩
  · rw [List.length_append, List.length_take, Digits.zeros, List.length_replicate]
    omega
  · obtain ⟨c, cs, hdigits⟩ := List.exists_cons_of_ne_nil hne
    rw [hdigits]
    rfl

end Scientific

theorem Decimal.signed_value_of_isZero {d : Decimal} {q : ℚ} (h : signed d.negative q = d.value) :
    signed (d.negative && !d.isZero) q = d.value := by
  cases hzero : d.isZero with
  | false => rwa [Bool.not_false, Bool.and_true]
  | true =>
    rw [value_of_isZero hzero] at h ⊢
    cases hnegative : d.negative <;> rw [hnegative] at h <;> simp_all [signed]

namespace NumberFormat

variable (format : NumberFormat)

/-- The decimal whose parts are written for a decimal. -/
def writtenDecimal (d : Decimal) : Decimal :=
  if d.repeating = "" ∧ format.style ≠ .auto then
    (Scientific.ofDecimal d).decimal (d.negative && !d.isZero)
      (format.shift (Scientific.ofDecimal d).exponent)
  else
    d.shown

/-- The decimal whose parts are written for a number; infinities and what is no number have none. -/
def written? : Number → Option Decimal
  | .machine (.finite negative m) =>
    some ((m.shortest .upward).decimal (negative && !m.isZero)
      (format.shift (m.shortest .upward).exponent))
  | .machine _ => none
  | .decimal d => some (format.writtenDecimal d)

theorem scientific_eq_spell (negative : Bool) (s : Scientific) :
    format.scientific negative s = format.spell (s.decimal negative (format.shift s.exponent)) := by
  rw [spell, Scientific.decimal, String.toList_ofList, String.toList_ofList]
  rfl

theorem decimal_eq_spell (d : Decimal) : format.decimal d = format.spell (format.writtenDecimal d) := by
  unfold decimal writtenDecimal
  by_cases h : d.repeating = "" ∧ format.style ≠ .auto
  · rw [if_pos h, ← scientific_eq_spell, if_pos (by simpa using h)]
  · rw [if_neg h, if_neg (by simpa using h), spell, Decimal.shown, String.toList_ofList]

variable {format} {n : Number} {d : Decimal}

theorem write_eq_spell (h : format.written? n = some d) :
    (format.write n).toList = format.spell d := by
  unfold write
  rw [String.toList_ofList]
  cases n with
  | decimal d' =>
    cases h
    exact format.decimal_eq_spell d'
  | machine value =>
    cases value with
    | nan => cases h
    | infinity negative => cases h
    | finite negative m =>
      cases h
      exact format.scientific_eq_spell _ _

/-- What is written has the value of the decimal. -/
theorem value_writtenDecimal (format : NumberFormat) (d : Decimal) :
    (format.writtenDecimal d).value = d.value := by
  unfold writtenDecimal
  split
  · next h =>
    rw [Scientific.value_decimal]
    exact Decimal.signed_value_of_isZero (Scientific.value_ofDecimal h.1)
  · exact d.value_shown

theorem whole_writtenDecimal_ne_empty (format : NumberFormat) (d : Decimal) :
    (format.writtenDecimal d).whole ≠ "" := by
  unfold writtenDecimal
  split
  · exact Scientific.whole_decimal_ne_empty _ _ _
  · exact d.whole_shown_ne_empty

theorem repeating_writtenDecimal (format : NumberFormat) (d : Decimal) :
    (format.writtenDecimal d).repeating = d.repeating := by
  unfold writtenDecimal
  split
  · next h => exact h.1.symm
  · rfl

theorem isDigit_of_mem_writtenDecimal (format : NumberFormat)
    (hwhole : ∀ c ∈ d.whole.toList, c.isDigit = true)
    (hfraction : ∀ c ∈ d.fraction.toList, c.isDigit = true) :
    (∀ c ∈ (format.writtenDecimal d).whole.toList, c.isDigit = true) ∧
      ∀ c ∈ (format.writtenDecimal d).fraction.toList, c.isDigit = true := by
  unfold writtenDecimal
  split
  · rw [Scientific.decimal, String.toList_ofList, String.toList_ofList]
    exact Scientific.isDigit_of_mem_split (Scientific.isDigit_of_mem_ofDecimal hwhole hfraction) _
  · refine ⟨?_, hfraction⟩
    rw [Decimal.shown, String.toList_ofList]
    split
    · exact List.all_eq_true.mp rfl
    · exact fun c hc => hwhole c ((List.dropWhile_suffix _).mem hc)

theorem shift_nonneg (h : format.style ≠ .auto) (e : Int) : 0 ≤ format.shift e := by
  unfold shift
  split
  · next hauto => exact absurd hauto h
  · exact Int.le_refl 0
  · exact Int.emod_nonneg e (by decide)

theorem shift_zero (format : NumberFormat) : format.shift 0 = 0 := by
  unfold shift
  split
  · split <;> rfl
  · rfl
  · rfl

section Styled

variable (hrepeating : d.repeating = "") (hstyle : format.style ≠ .auto)
include hrepeating hstyle

theorem writtenDecimal_of_style : format.writtenDecimal d =
    (Scientific.ofDecimal d).decimal (d.negative && !d.isZero)
      (format.shift (Scientific.ofDecimal d).exponent) :=
  if_pos ⟨hrepeating, hstyle⟩

/-- The exponent is what is left when the point is set. -/
theorem exponent_writtenDecimal : (format.writtenDecimal d).exponent.getD 0 =
    (Scientific.ofDecimal d).exponent - format.shift (Scientific.ofDecimal d).exponent := by
  rw [writtenDecimal_of_style hrepeating hstyle, Scientific.decimal]
  dsimp only
  split
  · next hnone => rw [hnone]; rfl
  · rfl

theorem length_whole_writtenDecimal : (format.writtenDecimal d).whole.length =
    (format.shift (Scientific.ofDecimal d).exponent).toNat + 1 := by
  rw [writtenDecimal_of_style hrepeating hstyle, Scientific.decimal, String.length_ofList]
  exact ((Scientific.ofDecimal d).split_whole (shift_nonneg hstyle _)).1

/-- A number that is not zero starts with a digit that is not zero. -/
theorem head?_whole_writtenDecimal (hzero : (format.writtenDecimal d).isZero = false) :
    (format.writtenDecimal d).whole.toList.head? ≠ some '0' := by
  rw [writtenDecimal_of_style hrepeating hstyle] at hzero ⊢
  rcases Scientific.ofDecimal_eq_zero_or d with hnull | ⟨c, cs, hdigits, hc⟩
  · rw [hnull, show Scientific.zero.exponent = 0 from rfl, shift_zero, Decimal.isZero,
      Scientific.decimal, String.toList_ofList, String.toList_ofList] at hzero
    cases hzero
  · have hhead := ((Scientific.ofDecimal d).split_whole
      (shift_nonneg hstyle (Scientific.ofDecimal d).exponent)).2
    rw [hdigits] at hhead
    rw [Scientific.decimal, String.toList_ofList, hhead (List.cons_ne_nil c cs)]
    exact fun h => hc (Option.some.inj h)

end Styled

end NumberFormat

end TexFormula
