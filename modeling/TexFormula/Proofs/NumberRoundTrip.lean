import TexFormula.Proofs.NumberReading

/-!
# Reading numbers that have been written

`Number.ShowsDigits` holds of the numbers whose digits are all written. The text of such a number is
parsed as an expression of the same value (`parse_write_of_showsDigits`), and a double that is written
without a power of ten is read as itself.
-/

open TexFormula.Parser

namespace TexFormula

namespace NumberFormat

variable {d : Decimal} {n : Int}

/-- Without a mantissa of its own, a power of ten is its value. -/
theorem IsBarePower.value_eq (h : IsBarePower d n) (hwhole : d.whole ≠ "") :
    d.value = signed d.negative (10 ^ n) := by
  obtain ⟨hone, hfraction, hrepeating⟩ := h.eq hwhole
  have hdigit : Digits.value ['1'] = 1 := rfl
  have hnone : Digits.value [] = 0 := rfl
  have hlength : d.fraction.length = 0 := by rw [← String.length_toList, hfraction, List.length_nil]
  rw [Decimal.value, hone, hfraction, hrepeating, h.1, hlength]
  simp [hdigit, hnone]

/-- An exponent stands behind a caret. -/
theorem caret_mem_spelling (hbudget : d.repeating.toList ≠ [] ∨ d.fraction.toList.length ≤ 14)
    (h : d.exponent = some n) : '^' ∈ spelling d := by
  by_cases hbare : ∃ n, IsBarePower d n
  · obtain ⟨n, hbare⟩ := hbare
    rw [spelling_of_barePower hbudget hbare, power]
    simp
  · rw [spelling_eq hbudget fun n hn => hbare ⟨n, hn⟩, h, scaleText, power]
    simp

end NumberFormat

namespace Parser

variable {d : Decimal}

/-- The text of a decimal is parsed as an expression of its value, and without an exponent as the
number that its literal denotes. -/
theorem exists_parse_spelling (hd : d.WellFormed) (hwhole : d.whole ≠ "")
    (hbudget : d.repeating.toList ≠ [] ∨ d.fraction.toList.length ≤ 14) :
    ∃ e, parse .standard {} (String.ofList (NumberFormat.spelling d)) = .ok ⟨e, []⟩ ∧
      e.IsDecimal d.value ∧
      (d.exponent = none → ∀ value, Number.ofLiteral? d.literal = some value → e = .number value) := by
  let env : Env := ⟨String.ofList (NumberFormat.spelling d), .standard, {}⟩
  by_cases hbare : ∃ n, NumberFormat.IsBarePower d n
  · obtain ⟨n, hbare⟩ := hbare
    have hspells : Spells (NumberFormat.spelling d) (signTokens d.negative * tenTokens n) := by
      rw [NumberFormat.spelling_of_barePower hbudget hbare]
      exact (Spells.ten n).signed d.negative
    have hreads : Reads env (nested env 63) delimited .power EndsSum _ _ :=
      .signedTenPower ⟨rfl, rfl⟩ d.negative n
    obtain ⟨o, _, ⟨ho, -⟩, hparse⟩ := hreads.exists_parse_eq (by rwa [String.toList_ofList]) nofun
      nofun rfl fun _ _ h => h.2
    refine ⟨o.expression, hparse, hbare.value_eq hwhole ▸ ho, fun hnone => ?_⟩
    rw [hbare.1] at hnone
    cases hnone
  · obtain ⟨value, hvalue, hdecimal⟩ := Number.exists_ofLiteral? hd hwhole hd.powerText
    have hspells : Spells (NumberFormat.spelling d)
        (signTokens d.negative * magnitudeTokens d) := by
      rw [NumberFormat.spelling_eq hbudget fun n hn => hbare ⟨n, hn⟩]
      exact (Spells.magnitude hd hwhole).signed d.negative
    have hreads : Reads env (nested env 63) delimited .atomic (EndsSigned d.negative) _ _ :=
      .number hwhole hvalue
    have hends : EndsSum [] := nofun
    have hpresent (o : Operand) (chained : Option String)
        (ho : o = { expression := .number value } ∧ chained = none) :
        o.expression.isMissing = false := by
      rw [ho.1]
      rfl
    obtain ⟨_, _, ⟨rfl, -⟩, hparse⟩ := hreads.exists_parse_eq (by rwa [String.toList_ofList]) nofun
      (hends.endsSigned d.negative) rfl hpresent
    refine ⟨_, hparse, .number hdecimal, fun _ other hother => ?_⟩
    rw [Decimal.literal, hvalue] at hother
    rw [Option.some.inj hother]

end Parser

/-- The number is finite, and its digits are all written: a fraction is no longer than what is shown
of one, or goes on with digits that repeat. -/
inductive Number.ShowsDigits : Number → Prop
  | machine {negative : Bool} {m : Magnitude} (h : (m.shown negative).fraction.length ≤ 14) :
      ShowsDigits (.machine (.finite negative m))
  | decimal {d : Decimal} (hd : d.WellFormed) (h : d.repeating ≠ "" ∨ d.fraction.length ≤ 14) :
      ShowsDigits (.decimal d)

/-- A number whose digits are all written is read with the same value. Without a power of ten, a double
is read as itself, a zero without its sign. -/
theorem parse_write_of_showsDigits {n : Number} (h : n.ShowsDigits) :
    ∃ e q, parse .standard {} (({} : NumberFormat).write n) = .ok ⟨e, []⟩ ∧
      n.decimalValue? = some q ∧ e.IsDecimal q ∧
      ∀ negative m, n = .machine (.finite negative m) → '^' ∉ (({} : NumberFormat).write n).toList →
        e = .number (.machine (.finite (negative && !m.isZero) m)) := by
  cases h with
  | @decimal d hd h =>
    have hbudget : d.shown.repeating.toList ≠ [] ∨ d.shown.fraction.toList.length ≤ 14 :=
      h.imp (fun h hnil => h (String.toList_eq_nil_iff.mp hnil)) fun h => by
        rwa [Decimal.shown, String.length_toList]
    obtain ⟨e, hparse, he, -⟩ := exists_parse_spelling hd.shown d.whole_shown_ne_empty hbudget
    rw [← NumberFormat.decimal_eq_spelling] at hparse
    exact ⟨e, d.value, hparse, rfl, d.value_shown ▸ he, by rintro _ _ ⟨⟩⟩
  | @machine negative m h =>
    have hbudget : (m.shown negative).repeating.toList ≠ [] ∨
        (m.shown negative).fraction.toList.length ≤ 14 := .inr (by rwa [String.length_toList])
    obtain ⟨e, hparse, he, hsame⟩ := exists_parse_spelling (m.wellFormed_shown negative)
      (m.whole_shown_ne_empty negative) hbudget
    have hwrite : ({} : NumberFormat).write (.machine (.finite negative m)) =
        String.ofList (NumberFormat.spelling (m.shown negative)) :=
      congrArg String.ofList (NumberFormat.double_eq_spelling negative m)
    rw [hwrite]
    refine ⟨e, _, hparse, rfl, m.value_shown negative ▸ he, ?_⟩
    rintro _ _ ⟨⟩ hcaret
    rw [String.toList_ofList] at hcaret
    have hnone : (m.shown negative).exponent = none :=
      Option.eq_none_iff_forall_not_mem.mpr fun n hn =>
        hcaret (NumberFormat.caret_mem_spelling hbudget hn)
    exact hsame hnone _ (Magnitude.ofLiteral?_shown hnone)

/-- The decimal `-12345.67` with `89` repeating behind it, times the power of ten with exponent `-3`, and
the double `-12345.75`, which is read as itself. -/
theorem parse_write_of_showsDigits_repeating :
    let d : Decimal := ⟨true, "12345", "67", "89", some (-3)⟩
    let m : Magnitude := ⟨49383 * twoPow 37, 1035, by decide, by decide, .inr (by decide)⟩
    (∃ e q, parse .standard {} (({} : NumberFormat).write (.decimal d)) = .ok ⟨e, []⟩ ∧
      (Number.decimal d).decimalValue? = some q ∧ e.IsDecimal q) ∧
    ({} : NumberFormat).write (.machine (.finite true m)) = "-12\\,345.75" ∧
    ∃ q, parse .standard {} (({} : NumberFormat).write (.machine (.finite true m))) =
        .ok ⟨.number (.machine (.finite true m)), []⟩ ∧
      (Number.machine (.finite true m)).decimalValue? = some q := by
  intro d m
  have hd : d.WellFormed := ⟨List.all_eq_true.mp (by decide), List.all_eq_true.mp (by decide),
    List.all_eq_true.mp (by decide), by decide, by rintro _ ⟨⟩; decide⟩
  have hm : (m.shown true).fraction.length ≤ 14 := by decide +kernel
  have hwrite : ({} : NumberFormat).write (.machine (.finite true m)) = "-12\\,345.75" := by
    decide +kernel
  obtain ⟨e, q, hparse, hq, he, -⟩ := parse_write_of_showsDigits (.decimal hd (.inl (by decide)))
  obtain ⟨e', q', hparse', hq', -, hsame⟩ := parse_write_of_showsDigits (.machine hm)
  have hcaret : '^' ∉ (({} : NumberFormat).write (.machine (.finite true m))).toList := by
    rw [hwrite]
    decide
  rw [hsame true m rfl hcaret] at hparse'
  exact ⟨⟨e, q, hparse, hq, he⟩, hwrite, q', hparse', hq'⟩

end TexFormula
