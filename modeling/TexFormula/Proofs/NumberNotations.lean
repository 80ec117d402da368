import TexFormula.Proofs.VerbatimText
import TexFormula.Proofs.WrittenDecimals

/-!
# What the texts of numbers denote

`Decimal.ofWritten?` takes the text of a number, the spaces between its groups apart, for the digits,
the point and the power of ten that it shows; a power of ten alone is taken once. In every notation it
reads just the decimal that was written (`ofWritten?_spell`), so the text has the value of the number and
is in the normal form of its notation (`exists_ofWritten?_write`).
-/

namespace TexFormula

/-! ### Texts without the spaces between groups -/

namespace Text

variable {l r : List Char}

/-- The text without its thin spaces. -/
def withoutThinSpaces (cs : List Char) : List Char :=
  replace '\\' [','] [] cs

theorem withoutThinSpaces_append (h : '\\' ∉ l) (r : List Char) :
    withoutThinSpaces (l ++ r) = l ++ withoutThinSpaces r := by
  induction l with
  | nil => rfl
  | cons c cs ih =>
    rw [List.mem_cons, not_or] at h
    rw [List.cons_append, withoutThinSpaces, replace_cons_of_ne h.1]
    exact congrArg (c :: ·) (ih h.2)

theorem withoutThinSpaces_of_not_mem (h : '\\' ∉ l) : withoutThinSpaces l = l := by
  have happend := withoutThinSpaces_append h []
  rw [List.append_nil, withoutThinSpaces, withoutThinSpaces, replace_nil, List.append_nil] at happend
  exact happend

theorem withoutThinSpaces_mark (cs : List Char) :
    withoutThinSpaces ('\\' :: ',' :: cs) = withoutThinSpaces cs :=
  replace_of_some (stripFront?_append ['\\', ','] cs)

theorem withoutThinSpaces_groups {groups : List (List Char)} (h : ∀ g ∈ groups, '\\' ∉ g)
    (r : List Char) :
    withoutThinSpaces (groups.flatMap (['\\', ','] ++ ·) ++ r) =
      groups.flatten ++ withoutThinSpaces r := by
  induction groups with
  | nil => rfl
  | cons g groups ih =>
    obtain ⟨hg, hgroups⟩ := List.forall_mem_cons.mp h
    rw [List.flatMap_cons, List.flatten_cons, List.append_assoc, List.append_assoc, List.append_assoc]
    show withoutThinSpaces ('\\' :: ',' :: (g ++ _)) = _
    rw [withoutThinSpaces_mark, withoutThinSpaces_append hg, ih hgroups]

theorem eq_append_of_stripFront? {pattern cs rest : List Char}
    (h : stripFront? pattern cs = some rest) : cs = pattern ++ rest := by
  fun_induction stripFront? pattern cs with
  | case1 cs => exact Option.some.inj h
  | case2 => cases h
  | case3 p pattern cs ih => rw [ih h, List.cons_append]
  | case4 => cases h

end Text

/-! ### Reading -/

namespace Decimal

/-- The exponent of a power of ten. -/
def tenPower? (cs : List Char) : Option Int :=
  (Text.stripFront? "10^\x7b".toList cs).bind fun rest =>
    if rest.getLast? = some '\x7d' then Digits.int? rest.dropLast else none

/-- The digits behind the point, and the text after them. -/
def splitPoint : List Char → List Char × List Char
  | '.' :: cs => (cs.takeWhile Char.isDigit, cs.dropWhile Char.isDigit)
  | cs => ([], cs)

/-- The exponent of the power of ten that stands behind a mantissa, if there is one. -/
def scale? (cs : List Char) : Option (Option Int) :=
  if cs.isEmpty then some none
  else ((Text.stripFront? "\\cdot".toList cs).bind tenPower?).map some

/-- The decimal that is shown by the text of a number. -/
def ofWritten? (text : List Char) : Option Decimal :=
  let (negative, unsigned) := splitSign (Text.withoutThinSpaces text)
  match tenPower? unsigned with
  | some n => some { negative, whole := "1", exponent := some n }
  | none =>
    let (fraction, rest) := splitPoint (unsigned.dropWhile Char.isDigit)
    (scale? rest).map fun exponent =>
      { negative
        whole := String.ofList (unsigned.takeWhile Char.isDigit)
        fraction := String.ofList fraction
        exponent }

theorem tenPower?_power (n : Int) : tenPower? (NumberFormat.power n) = some n := by
  have hfront : NumberFormat.power n = "10^\x7b".toList ++ (Digits.ofInt n ++ ['\x7d']) := by
    simp [NumberFormat.power]
  rw [tenPower?, hfront, Text.stripFront?_append, Option.bind_some, List.getLast?_concat, if_pos rfl,
    List.dropLast_concat]
  exact (Digits.SpellsInt.ofInt n).int?

/-- In a power of ten a caret stands behind the digits. -/
theorem tenPower?_eq_none {ds r : List Char} (hds : ∀ c ∈ ds, c.isDigit = true)
    (hr : r.head?.any Char.isDigit = false) (hcaret : r.head? ≠ some '^') :
    tenPower? (ds ++ r) = none := by
  cases hstrip : Text.stripFront? "10^\x7b".toList (ds ++ r) with
  | none => rw [tenPower?, hstrip, Option.bind_none]
  | some rest =>
    have htext := Text.eq_append_of_stripFront? hstrip
    rw [show "10^\x7b".toList = ['1', '0'] ++ ['^', '\x7b'] from rfl, List.append_assoc] at htext
    have hten : ∀ c ∈ ['1', '0'], c.isDigit = true := List.all_eq_true.mp rfl
    have hdrop := congrArg (List.dropWhile Char.isDigit) htext
    rw [Text.dropWhile_append hds hr, Text.dropWhile_append hten rfl] at hdrop
    exact absurd (congrArg List.head? hdrop) hcaret

theorem scale?_scaleText (exponent : Option Int) :
    scale? (NumberFormat.scaleText exponent) = some exponent := by
  cases exponent with
  | none => rfl
  | some n =>
    rw [scale?, NumberFormat.scaleText, if_neg (by simp), Text.stripFront?_append, Option.bind_some,
      tenPower?_power]
    rfl

theorem splitPoint_afterWhole {fraction r : List Char} (h : ∀ c ∈ fraction, c.isDigit = true)
    (hr : r.head?.any Char.isDigit = false) (hpoint : r.head? ≠ some '.') :
    splitPoint (afterWhole fraction [] ++ r) = (fraction, r) := by
  unfold afterWhole
  split
  · next hempty =>
    rw [hempty.1, List.nil_append]
    unfold splitPoint
    split
    · exact absurd rfl hpoint
    · rfl
  · rw [if_pos rfl, List.append_nil]
    exact Prod.ext (Text.takeWhile_append h hr) (Text.dropWhile_append h hr)

end Decimal

/-! ### The decimal that was written -/

namespace NumberFormat

variable {d : Decimal}

theorem withoutThinSpaces_joinGroups {groups : List Char → List (List Char)} {digits : List Char}
    (hgroups : 3 < digits.length → ∃ first others, groups digits = first :: others ∧ others ≠ [] ∧
      first ++ others.flatten = digits ∧ ∀ g ∈ first :: others, g ≠ [])
    (hdigits : ∀ c ∈ digits, c.isDigit = true) (r : List Char) :
    Text.withoutThinSpaces (({} : NumberFormat).joinGroups groups digits ++ r) =
      digits ++ Text.withoutThinSpaces r := by
  by_cases hne : digits = []
  · rw [hne, joinGroups_nil]
    rfl
  · obtain ⟨first, others, heq, hflatten, -, -⟩ := joinGroups_eq hgroups hne
    have hgroup := isDigit_of_mem_groups hflatten hdigits
    have hslash : ∀ g ∈ first :: others, '\\' ∉ g := fun g hg hmem => by
      cases hgroup g hg _ hmem
    obtain ⟨hfirst, hothers⟩ := List.forall_mem_cons.mp hslash
    rw [heq, List.append_assoc, Text.withoutThinSpaces_append hfirst,
      Text.withoutThinSpaces_groups hothers, ← hflatten, List.append_assoc]

theorem backslash_not_mem_power (n : Int) : '\\' ∉ power n := by
  intro h
  have hint : '\\' ∉ Digits.ofInt n := fun hmem => by
    rcases (Digits.SpellsInt.ofInt n).mem _ hmem with h | h | h <;> cases h
  simp [power, hint] at h

theorem withoutThinSpaces_scaleText (exponent : Option Int) :
    Text.withoutThinSpaces (scaleText exponent) = scaleText exponent := by
  cases exponent with
  | none => exact Text.replace_nil
  | some n =>
    have hrest : '\\' ∉ "cdot".toList ++ power n := by
      rw [List.mem_append, not_or]
      exact ⟨by decide, backslash_not_mem_power n⟩
    show Text.replace '\\' [','] [] ('\\' :: ("cdot".toList ++ power n)) = _
    rw [Text.replace_of_none rfl]
    exact congrArg ('\\' :: ·) (Text.withoutThinSpaces_of_not_mem hrest)

theorem withoutThinSpaces_fractionText {fraction : List Char}
    (h : ∀ c ∈ fraction, c.isDigit = true) (r : List Char) :
    Text.withoutThinSpaces (fractionText fraction [] ++ r) =
      Decimal.afterWhole fraction [] ++ Text.withoutThinSpaces r := by
  unfold fractionText Decimal.afterWhole
  split
  · rfl
  · rw [if_pos rfl, if_pos rfl, List.append_nil, List.append_nil, List.cons_append,
      ← List.singleton_append, Text.withoutThinSpaces_append (by decide), NumberFormat.fraction,
      withoutThinSpaces_joinGroups exists_triples h]
    rfl

theorem withoutThinSpaces_sign (negative : Bool) (r : List Char) :
    Text.withoutThinSpaces ((if negative then ['-'] else []) ++ r) =
      (if negative then ['-'] else []) ++ Text.withoutThinSpaces r := by
  cases negative with
  | false => rfl
  | true => exact Text.withoutThinSpaces_append (by decide) r

/-- Neither a digit nor a point or a caret stands in front of the power of ten. -/
theorem head?_scaleText (exponent : Option Int) :
    (scaleText exponent).head?.any Char.isDigit = false ∧ (scaleText exponent).head? ≠ some '.' ∧
      (scaleText exponent).head? ≠ some '^' := by
  cases exponent with
  | none => exact ⟨rfl, nofun, nofun⟩
  | some n => exact ⟨rfl, by simp [scaleText], by simp [scaleText]⟩

/-- Neither a digit nor a caret stands behind the whole digits. -/
theorem head?_afterWhole_append (fraction : List Char) (exponent : Option Int) :
    (Decimal.afterWhole fraction [] ++ scaleText exponent).head?.any Char.isDigit = false ∧
      (Decimal.afterWhole fraction [] ++ scaleText exponent).head? ≠ some '^' := by
  obtain ⟨hdigit, -, hcaret⟩ := head?_scaleText exponent
  unfold Decimal.afterWhole
  split
  · exact ⟨hdigit, hcaret⟩
  · exact ⟨rfl, by simp⟩

/-- A power of ten shows a decimal with the one digit 1. -/
theorem ofWritten?_power (negative : Bool) (n : Int) :
    Decimal.ofWritten? ((if negative then ['-'] else []) ++ power n) =
      some { negative, whole := "1", exponent := some n } := by
  have hsign : Decimal.splitSign ((if negative then ['-'] else []) ++ power n) =
      (negative, power n) := by cases negative <;> rfl
  rw [Decimal.ofWritten?, withoutThinSpaces_sign,
    Text.withoutThinSpaces_of_not_mem (backslash_not_mem_power n), hsign]
  simp only [Decimal.tenPower?_power]

/-- A text without a bare power of ten shows the decimal, once its groups are put together. -/
theorem ofWritten?_of_mantissa (hwhole : ∀ c ∈ d.whole.toList, c.isDigit = true)
    (hfraction : ∀ c ∈ d.fraction.toList, c.isDigit = true) (hne : d.whole ≠ "")
    (hrepeating : d.repeating = "") {text : List Char}
    (htext : Text.withoutThinSpaces text = d.mantissa ++ scaleText d.exponent) :
    Decimal.ofWritten? text = some d := by
  have hnone : d.repeating.toList = [] := by rw [hrepeating]; rfl
  have hmantissa : ({ d with exponent := none } : Decimal).WellFormed :=
    ⟨hwhole, hfraction, by rw [hnone]; nofun, fun h => hne h.1, nofun⟩
  have hsign := Decimal.splitSign_literal hmantissa (scaleText d.exponent)
  have hplain : Decimal.splitSign (d.mantissa ++ scaleText d.exponent) =
      (d.negative, d.whole.toList ++ (Decimal.afterWhole d.fraction.toList [] ++
        scaleText d.exponent)) := by
    rw [← hnone, ← List.append_assoc]
    exact hsign
  obtain ⟨hdigit, hpoint, -⟩ := head?_scaleText d.exponent
  obtain ⟨hstops, hcaret⟩ := head?_afterWhole_append d.fraction.toList d.exponent
  rw [Decimal.ofWritten?, htext, hplain]
  simp only [Decimal.tenPower?_eq_none hwhole hstops hcaret, Text.takeWhile_append hwhole hstops,
    Text.dropWhile_append hwhole hstops, Decimal.splitPoint_afterWhole hfraction hdigit hpoint,
    Decimal.scale?_scaleText, Option.map_some, String.ofList_toList]
  rw [← hrepeating]

/-- The text of a decimal shows that decimal. -/
theorem ofWritten?_spell (precision : Nat) (style : NumberStyle)
    (hwhole : ∀ c ∈ d.whole.toList, c.isDigit = true)
    (hfraction : ∀ c ∈ d.fraction.toList, c.isDigit = true) (hne : d.whole ≠ "")
    (hrepeating : d.repeating = "")
    (hbudget : d.fraction.length ≤ ({ precision, style } : NumberFormat).budget) :
    Decimal.ofWritten? (({ precision, style } : NumberFormat).spell d) = some d := by
  rw [← String.length_toList] at hbudget
  by_cases hbare : ∃ n, IsBarePower d n
  · obtain ⟨n, hbare⟩ := hbare
    obtain ⟨hone, hempty, -⟩ := hbare.eq hne
    have hwhole' : d.whole = "1" := String.toList_inj.mp (hone : d.whole.toList = "1".toList)
    have hfraction' : d.fraction = "" := String.toList_eq_nil_iff.mp hempty
    have hd : d = ⟨d.negative, "1", "", "", some n⟩ := by
      calc d = ⟨d.negative, d.whole, d.fraction, d.repeating, d.exponent⟩ := rfl
        _ = _ := by rw [hwhole', hfraction', hrepeating, hbare.1]
    rw [spell_of_barePower precision style (.inr hbudget) hbare, ofWritten?_power]
    exact congrArg some hd.symm
  · have hnone : d.repeating.toList = [] := by rw [hrepeating]; rfl
    refine ofWritten?_of_mantissa hwhole hfraction hne hrepeating ?_
    rw [spell_eq precision style (.inr hbudget) fun n hn => hbare ⟨n, hn⟩, withoutThinSpaces_sign,
      NumberFormat.whole, withoutThinSpaces_joinGroups exists_triplesFromRight hwhole, hnone,
      withoutThinSpaces_fractionText hfraction, withoutThinSpaces_scaleText, Decimal.mantissa, hnone]
    simp only [List.append_assoc]

/-- In every notation the text of a decimal that is not cut off denotes the value of the decimal. With a
power of ten of its own, a number has one digit before the point, or up to three of them and an exponent
that is a multiple of three; none of these numbers starts with a zero. -/
theorem exists_ofWritten?_write (hd : d.WellFormed) (hrepeating : d.repeating = "") (precision : Nat)
    (style : NumberStyle)
    (hbudget : (({ precision, style } : NumberFormat).writtenDecimal d).fraction.length ≤
      ({ precision, style } : NumberFormat).budget) :
    ∃ shown, Decimal.ofWritten? (({ precision, style } : NumberFormat).write (.decimal d)).toList =
        some shown ∧
      shown.value = d.value ∧
      (style = .scientific → shown.isZero = false →
        ∃ c, shown.whole.toList = [c] ∧ c ≠ '0') ∧
      (style = .engineering → 3 ∣ shown.exponent.getD 0 ∧
        (shown.isZero = false → 1 ≤ shown.whole.length ∧ shown.whole.length ≤ 3 ∧
          shown.whole.toList.head? ≠ some '0')) := by
  generalize hformat : ({ precision, style } : NumberFormat) = format at hbudget ⊢
  have hstyle : format.style = style := by rw [← hformat]
  obtain ⟨hwhole, hfraction⟩ := isDigit_of_mem_writtenDecimal format hd.whole hd.fraction
  refine ⟨format.writtenDecimal d, ?_, value_writtenDecimal format d, ?_, ?_⟩
  · have hread := ofWritten?_spell precision style hwhole hfraction
      (whole_writtenDecimal_ne_empty format d)
      ((repeating_writtenDecimal format d).trans hrepeating) (hformat ▸ hbudget)
    rw [write_eq_spell rfl, ← hread, hformat]
  · rintro rfl hzero
    have hne : format.style ≠ .auto := by rw [hstyle]; decide
    have hlength := length_whole_writtenDecimal hrepeating hne
    have hshift : format.shift (Scientific.ofDecimal d).exponent = 0 := by rw [shift, hstyle]
    rw [hshift, ← String.length_toList] at hlength
    obtain ⟨c, hc⟩ := List.length_eq_one_iff.mp hlength
    have hhead := head?_whole_writtenDecimal hrepeating hne hzero
    rw [hc] at hhead
    exact ⟨c, hc, fun h => hhead (congrArg some h)⟩
  · rintro rfl
    have hne : format.style ≠ .auto := by rw [hstyle]; decide
    have hlength := length_whole_writtenDecimal hrepeating hne
    have hexponent := exponent_writtenDecimal hrepeating hne
    have hshift : format.shift (Scientific.ofDecimal d).exponent =
        (Scientific.ofDecimal d).exponent % 3 := by rw [shift, hstyle]
    rw [hshift] at hlength hexponent
    refine ⟨by omega, fun hzero => ⟨by omega, by omega, ?_⟩⟩
    exact head?_whole_writtenDecimal hrepeating hne hzero

/-- The decimal `-00.0012345600e-5` in engineering notation is `-12.345 6` times the power of ten with
exponent `-9`. -/
theorem exists_ofWritten?_write_engineering :
    let d : Decimal := ⟨true, "00", "0012345600", "", some (-5)⟩
    let format : NumberFormat := { precision := 5, style := .engineering }
    d.WellFormed ∧ d.repeating = "" ∧ (format.writtenDecimal d).fraction.length ≤ format.budget ∧
      format.write (.decimal d) = "-12.345\\,6\\cdot10^\x7b-9\x7d" ∧
      ∃ shown, Decimal.ofWritten? (format.write (.decimal d)).toList = some shown ∧
        shown.value = d.value ∧
        (NumberStyle.engineering = .scientific → shown.isZero = false →
          ∃ c, shown.whole.toList = [c] ∧ c ≠ '0') ∧
        (NumberStyle.engineering = .engineering → 3 ∣ shown.exponent.getD 0 ∧
          (shown.isZero = false → 1 ≤ shown.whole.length ∧ shown.whole.length ≤ 3 ∧
            shown.whole.toList.head? ≠ some '0')) := by
  have hd : (⟨true, "00", "0012345600", "", some (-5)⟩ : Decimal).WellFormed :=
    ⟨List.all_eq_true.mp (by decide), List.all_eq_true.mp (by decide),
      List.all_eq_true.mp (by decide), by decide, by rintro _ ⟨⟩; decide⟩
  have hbudget : (({ precision := 5, style := .engineering } : NumberFormat).writtenDecimal
      ⟨true, "00", "0012345600", "", some (-5)⟩).fraction.length ≤
      ({ precision := 5, style := .engineering } : NumberFormat).budget := by decide +kernel
  exact ⟨hd, rfl, hbudget, by decide +kernel, exists_ofWritten?_write hd rfl 5 .engineering hbudget⟩

end NumberFormat

end TexFormula
