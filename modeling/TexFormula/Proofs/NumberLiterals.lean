import TexFormula.Proofs.Payloads
import TexFormula.Proofs.ShortestDigits

/-!
# Literals

A literal is the text of a decimal up to its exponent (`Decimal.mantissa`) with a power of ten behind
it (`PowerText`). Literals are payloads, and so are read as the decimals they are written for
(`Decimal.parse?_literal`).
-/

namespace TexFormula

namespace Digits

theorem toLower_of_isDigit {c : Char} (h : c.isDigit = true) : c.toLower = c := by
  have hdigits : ∀ v ∈ List.range' 48 10, (Char.ofNat v).toLower = Char.ofNat v := by
    decide +kernel
  have hc := hdigits c.toNat (Text.toNat_mem_of_isDigit h)
  rw [Char.ofNat_toNat] at hc
  exact hc

theorem SpellsInt.ofInt (n : Int) : SpellsInt (Digits.ofInt n) n := by
  unfold Digits.ofInt
  split
  · next hneg =>
    have h := SpellsInt.minus (ofNat_ne_nil n.natAbs) isDigit_of_mem_ofNat
    rwa [value_ofNat, show -((n.natAbs : Nat) : Int) = n by omega] at h
  · next hnonneg =>
    have h := SpellsInt.plain (ofNat_ne_nil n.natAbs) isDigit_of_mem_ofNat
    rwa [value_ofNat, show ((n.natAbs : Nat) : Int) = n by omega] at h

end Digits

namespace Decimal

/-- The fraction of a decimal, and what repeats in parentheses. -/
def afterWhole (fraction repeating : List Char) : List Char :=
  if fraction = [] ∧ repeating = [] then []
  else '.' :: (fraction ++ if repeating = [] then [] else '(' :: (repeating ++ [')']))

/-- The text of a decimal up to its exponent. -/
def mantissa (d : Decimal) : List Char :=
  (if d.negative then ['-'] else []) ++
    (d.whole.toList ++ afterWhole d.fraction.toList d.repeating.toList)

/-- The text of a power of ten. -/
inductive PowerText : Option Int → List Char → Prop
  | none : PowerText none []
  | some {cs : List Char} {n : Int} (h : Digits.SpellsInt cs n) (hfits : fitsWord n = true) :
      PowerText (some n) ('e' :: cs)

variable {d : Decimal} {power : List Char}

theorem fractionText_afterWhole (fraction repeating : List Char) :
    FractionText (fun _ => True) fraction repeating (afterWhole fraction repeating) := by
  unfold afterWhole
  split
  · next h =>
    rw [h.1, h.2]
    exact .absent
  · by_cases h : repeating = []
    · rw [if_pos h, List.append_nil, h]
      exact .point fraction
    · rw [if_neg h]
      exact .block fraction trivial

theorem PowerText.mem {exponent : Option Int} (h : PowerText exponent power) :
    ∀ c ∈ power, c.isDigit = true ∨ c ∈ ['-', '+', 'e'] := by
  intro c hc
  cases h with
  | none => cases hc
  | some h _ =>
    rcases List.mem_cons.mp hc with rfl | hc
    · exact .inr (by decide)
    · rcases h.mem c hc with hdigit | rfl | rfl
      · exact .inl hdigit
      · exact .inr (by decide)
      · exact .inr (by decide)

/-- The characters of a literal. -/
theorem WellFormed.mem_literal (hd : d.WellFormed) (hpower : PowerText d.exponent power) :
    ∀ c ∈ d.mantissa ++ power, c.isDigit = true ∨ c ∈ ['-', '+', '.', '(', ')', 'e'] := by
  intro c hc
  rw [mantissa, List.mem_append, List.mem_append, List.mem_append] at hc
  rcases hc with (hc | hc | hc) | hc
  · split at hc
    · rw [List.mem_singleton.mp hc]
      exact .inr (by decide)
    · cases hc
  · exact .inl (hd.whole c hc)
  · refine ((fractionText_afterWhole _ _).mem hd.fraction hd.repeating c hc).imp_right fun hc => ?_
    exact (by simp : ∀ c ∈ ['.', '(', ')'], c ∈ ['-', '+', '.', '(', ')', 'e']) c hc
  · refine (hpower.mem c hc).imp_right fun hc => ?_
    exact (by simp : ∀ c ∈ ['-', '+', 'e'], c ∈ ['-', '+', '.', '(', ')', 'e']) c hc

theorem signText (negative : Bool) : SignText negative (if negative then ['-'] else []) := by
  cases negative
  · exact .unsigned
  · exact .minus

theorem PowerText.scaleText {exponent : Option Int} (h : PowerText exponent power) :
    ScaleText exponent power := by
  cases h with
  | none => exact .unscaled
  | some h hfits => exact .scaled (.inl rfl) h hfits

theorem splitSign_literal (hd : d.WellFormed) (power : List Char) :
    splitSign (d.mantissa ++ power) =
      (d.negative, d.whole.toList ++ afterWhole d.fraction.toList d.repeating.toList ++ power) := by
  rw [mantissa, List.append_assoc]
  exact splitSign_append hd (signText d.negative) (fractionText_afterWhole _ _) power

/-- A literal is read as the decimal that it was written for. -/
theorem parse?_literal (hd : d.WellFormed) (hpower : PowerText d.exponent power) :
    parse? (String.ofList (d.mantissa ++ power)) = some d := by
  have hblanks : Text.withoutBlanks (d.mantissa ++ power) = d.mantissa ++ power := by
    refine Text.withoutBlanks_of_forall fun c hc => ?_
    rcases hd.mem_literal hpower c hc with hdigit | hmark
    · exact Text.isBlank_of_isDigit hdigit
    · have hmarks : ['-', '+', '.', '(', ')', 'e'].any Text.isBlank = false := by decide
      simpa using List.any_eq_false.mp hmarks c hmark
  refine parse?_of_isPayload ⟨d.mantissa ++ power, [], ?_, by decide, hd, _, _, power,
    signText d.negative, fractionText_afterWhole _ _, hpower.scaleText, ?_⟩
  · rw [String.toList_ofList, hblanks, List.append_nil]
  · rw [mantissa, List.append_assoc]

/-- The text of an exponent behind the mantissa of a literal. -/
def powerText : Option Int → List Char
  | none => []
  | some n => 'e' :: Digits.ofInt n

theorem WellFormed.powerText (hd : d.WellFormed) : PowerText d.exponent (powerText d.exponent) := by
  cases hexponent : d.exponent with
  | none => exact .none
  | some n => exact .some (.ofInt n) (hd.exponent n hexponent)

/-- The literal of a decimal. -/
def literal (d : Decimal) : String :=
  String.ofList (d.mantissa ++ powerText d.exponent)

/-- The payload of a decimal is its literal. -/
theorem text_eq_literal (d : Decimal) : d.text = d.literal := by
  have hsign : (if d.negative then "-" else "").toList = if d.negative then ['-'] else [] := by
    cases d.negative <;> rfl
  have hcycle : (if d.repeating = "" then "" else "(" ++ d.repeating ++ ")").toList =
      if d.repeating.toList = [] then [] else '(' :: (d.repeating.toList ++ [')']) := by
    by_cases h : d.repeating = "" <;> simp [h]
  have hpoint : (if d.fraction = "" ∧ d.repeating = "" then "" else "." ++ d.fraction).toList ++
      (if d.repeating.toList = [] then [] else '(' :: (d.repeating.toList ++ [')'])) =
      afterWhole d.fraction.toList d.repeating.toList := by
    unfold afterWhole
    by_cases h : d.fraction = "" ∧ d.repeating = ""
    · simp [h.1, h.2]
    · simp [h]
  refine String.toList_inj.mp ?_
  unfold text literal mantissa
  simp only [String.toList_append, String.toList_ofList, hcycle]
  rw [← hpoint, hsign]
  cases d.exponent <;> simp [powerText]

/-- The payload of a decimal is read as it. -/
theorem parse?_text (hd : d.WellFormed) : parse? d.text = some d := by
  rw [text_eq_literal]
  exact parse?_literal hd hd.powerText

end Decimal

end TexFormula
