import Mathlib.Data.List.DropRight
import TexFormula.Proofs.Numerals

/-!
# Texts of numbers and their tokens

Every finite number is written as a decimal: a double as the decimal of its shortest digits, a decimal
as the one without zeros in front (`Decimal.shown`). `NumberFormat.spelling d` is the text of a
decimal, and `numberTokens d` are its tokens: digits in groups, what repeats under a bar, and a
product with a power of ten.
-/

open TexFormula.Parser

namespace TexFormula

/-! ### What is written -/

theorem Digits.value_withoutLeadingZeros_append (cs ds : List Char) :
    value (withoutLeadingZeros cs ++ ds) = value (cs ++ ds) := by
  have hzeros : cs.takeWhile (· == '0') = zeros (cs.takeWhile (· == '0')).length :=
    List.eq_replicate_iff.mpr ⟨rfl, fun c hc => by simpa using List.mem_takeWhile_imp hc⟩
  conv_rhs => rw [← List.takeWhile_append_dropWhile (p := (· == '0')) (l := cs), hzeros,
    List.append_assoc, value_zeros_append]
  rfl

namespace Decimal

/-- The decimal that is written for a decimal: no zeros in front, no sign of a zero and no exponent
zero. -/
def shown (d : Decimal) : Decimal :=
  { d with
    negative := d.negative && !d.isZero
    whole := String.ofList (if (Digits.withoutLeadingZeros d.whole.toList).isEmpty then ['0']
      else Digits.withoutLeadingZeros d.whole.toList)
    exponent := d.exponent.filter (· != 0) }

theorem value_of_isZero {d : Decimal} (h : d.isZero = true) : d.value = 0 := by
  have hzeros : ∀ cs : List Char, cs.all (· == '0') = true → Digits.value cs = 0 := by
    intro cs hcs
    have hreplicate : cs = Digits.zeros cs.length :=
      List.eq_replicate_iff.mpr ⟨rfl, fun c hc => eq_of_beq (List.all_eq_true.mp hcs c hc)⟩
    rw [hreplicate, ← List.append_nil (Digits.zeros _), Digits.value_zeros_append]
    rfl
  rw [isZero, List.all_append, Bool.and_eq_true] at h
  rw [value, hzeros _ h.1, hzeros _ h.2]
  cases d.negative <;> simp [signed]

/-- What is written has the same value. -/
theorem value_shown (d : Decimal) : d.shown.value = d.value := by
  have hsign (q : ℚ) (h : d.value = signed d.negative q) :
      signed (d.negative && !d.isZero) q = signed d.negative q := by
    cases hzero : d.isZero with
    | true =>
      have hq := (value_of_isZero hzero).symm.trans h
      cases hneg : d.negative <;> rw [hneg] at hq <;> simp_all [signed]
    | false => rw [Bool.not_false, Bool.and_true]
  have hexponent : d.shown.exponent.getD 0 = d.exponent.getD 0 := by
    rw [shown]
    dsimp only
    cases d.exponent with
    | none => rfl
    | some n =>
      by_cases hn : n = 0
      · rw [hn]
        rfl
      · rw [Option.filter_some, if_pos (bne_iff_ne.mpr hn)]
  have hdigits : Digits.value (d.shown.whole.toList ++ d.shown.fraction.toList) =
      Digits.value (d.whole.toList ++ d.fraction.toList) := by
    rw [shown, String.toList_ofList, ← Digits.value_withoutLeadingZeros_append d.whole.toList]
    split
    · next hempty =>
      rw [List.isEmpty_iff.mp hempty]
      exact Digits.value_zeros_append 1 d.fraction.toList
    · rfl
  show signed (d.negative && !d.isZero) _ = d.value
  rw [hexponent, hdigits]
  exact hsign _ rfl

theorem whole_shown_ne_empty (d : Decimal) : d.shown.whole ≠ "" := by
  intro h
  have hlist := String.ofList_eq_empty_iff.mp h
  split at hlist
  · cases hlist
  · next hne => exact hne (by rw [hlist]; rfl)

theorem WellFormed.shown {d : Decimal} (hd : d.WellFormed) : d.shown.WellFormed := by
  refine ⟨?_, hd.fraction, hd.repeating, fun h => d.whole_shown_ne_empty h.1, ?_⟩
  · rw [Decimal.shown, String.toList_ofList]
    split
    · exact List.all_eq_true.mp (by decide)
    · exact fun c hc => hd.whole c ((List.dropWhile_suffix _).mem hc)
  · intro n hn
    exact hd.exponent n (Option.filter_eq_some_iff.mp hn).1

theorem all_withoutLeadingZeros (cs : List Char) :
    (Digits.withoutLeadingZeros cs).all (· == '0') = cs.all (· == '0') := by
  conv_rhs => rw [← List.takeWhile_append_dropWhile (p := (· == '0')) (l := cs), List.all_append,
    List.all_takeWhile, Bool.true_and]
  rfl

theorem isZero_shown (d : Decimal) : d.shown.isZero = d.isZero := by
  have hwhole : d.shown.whole.toList.all (· == '0') = d.whole.toList.all (· == '0') := by
    rw [shown, String.toList_ofList, ← all_withoutLeadingZeros d.whole.toList]
    split
    · next hempty =>
      rw [List.isEmpty_iff.mp hempty]
      rfl
    · rfl
  rw [isZero, isZero, List.all_append, List.all_append, hwhole, List.all_append, List.all_append]
  rfl

theorem whole_shown_shown (d : Decimal) : d.shown.shown.whole = d.shown.whole := by
  have hagain (cs : List Char) :
      Digits.withoutLeadingZeros (Digits.withoutLeadingZeros cs) = Digits.withoutLeadingZeros cs :=
    List.dropWhile_idempotent _ cs
  show String.ofList (if (Digits.withoutLeadingZeros d.shown.whole.toList).isEmpty then ['0']
    else Digits.withoutLeadingZeros d.shown.whole.toList) = d.shown.whole
  rw [shown, String.toList_ofList]
  split
  · rfl
  · next hne => rw [hagain, if_neg hne]

/-- What is written for a decimal is written for itself as well. -/
theorem shown_shown (d : Decimal) : d.shown.shown = d.shown := by
  have hnegative : d.shown.shown.negative = d.shown.negative := by
    show (d.shown.negative && !d.shown.isZero) = d.shown.negative
    rw [isZero_shown]
    show (d.negative && !d.isZero && !d.isZero) = (d.negative && !d.isZero)
    rw [Bool.and_assoc, Bool.and_self]
  have hexponent : d.shown.shown.exponent = d.shown.exponent := by
    show (d.exponent.filter (· != 0)).filter (· != 0) = d.exponent.filter (· != 0)
    cases d.exponent with
    | none => rfl
    | some n => by_cases hn : n = 0 <;> simp [Option.filter_some, hn]
  calc d.shown.shown
      = { d.shown with
          negative := d.shown.shown.negative
          whole := d.shown.shown.whole
          exponent := d.shown.shown.exponent } := rfl
    _ = d.shown := by rw [hnegative, d.whole_shown_shown, hexponent]

end Decimal

namespace NumberFormat

/-- The text of a decimal as it stands. -/
def spell (format : NumberFormat) (d : Decimal) : List Char :=
  format.assemble d.negative d.whole.toList d.fraction.toList d.repeating.toList d.exponent

/-- The text of a decimal as it stands, in the wording that formulas have. -/
def spelling (d : Decimal) : List Char :=
  ({} : NumberFormat).assemble d.negative d.whole.toList d.fraction.toList d.repeating.toList d.exponent

theorem double_eq_spelling (negative : Bool) (m : Magnitude) :
    ({} : NumberFormat).double (.finite negative m) = spelling (m.shown negative) := by
  rw [spelling, Magnitude.shown, Scientific.decimal, String.toList_ofList, String.toList_ofList]
  rfl

theorem decimal_eq_spelling (d : Decimal) : ({} : NumberFormat).decimal d = spelling d.shown := by
  rw [spelling, Decimal.shown, String.toList_ofList]
  exact if_neg (by simp)

/-- The text of a fraction from its point on. -/
def fractionText (fraction repeating : List Char) : List Char :=
  if fraction = [] ∧ repeating = [] then []
  else '.' :: (({} : NumberFormat).fraction fraction ++
    if repeating = [] then [] else ({} : NumberFormat).cycle repeating)

/-- The text behind the digits of a number. -/
def scaleText : Option Int → List Char
  | none => []
  | some n => "\\cdot".toList ++ power n

theorem joinGroups_nil (groups : List Char → List (List Char)) :
    ({} : NumberFormat).joinGroups groups [] = [] := by
  rw [joinGroups]
  exact if_pos rfl

theorem joinGroups_ne_nil {groups : List Char → List (List Char)} {digits : List Char}
    (hgroups : 3 < digits.length → ∃ first others, groups digits = first :: others ∧ others ≠ [] ∧
      first ++ others.flatten = digits ∧ ∀ g ∈ first :: others, g ≠ []) (hne : digits ≠ []) :
    ({} : NumberFormat).joinGroups groups digits ≠ [] := by
  obtain ⟨first, others, heq, -, hnonempty, -⟩ := joinGroups_eq hgroups hne
  rw [heq]
  exact fun h => hnonempty first List.mem_cons_self (List.append_eq_nil_iff.mp h).1

variable {d : Decimal}

/-- A fraction within the budget is written as a whole. -/
theorem assemble_eq (precision : Nat) (style : NumberStyle) {fraction repeating : List Char}
    (hbudget : repeating ≠ [] ∨ fraction.length ≤ ({ precision, style } : NumberFormat).budget)
    (negative : Bool) (whole : List Char) (exponent : Option Int) :
    let sign := if negative then ['-'] else []
    let mantissa := ({} : NumberFormat).whole whole ++ fractionText fraction repeating
    ({ precision, style } : NumberFormat).assemble negative whole fraction repeating exponent =
      match exponent with
      | none => sign ++ mantissa
      | some n =>
        if mantissa = ['1'] then sign ++ power n
        else sign ++ mantissa ++ "\\cdot".toList ++ power n := by
  generalize hformat : ({ precision, style } : NumberFormat) = format at hbudget ⊢
  have hwhole : format.whole whole = ({} : NumberFormat).whole whole := by rw [← hformat]; rfl
  have hfraction : format.fraction fraction = ({} : NumberFormat).fraction fraction := by
    rw [← hformat]; rfl
  have hcycle : format.cycle repeating = ({} : NumberFormat).cycle repeating := by rw [← hformat]; rfl
  have hpoint : format.decimalMarker = "." := by rw [← hformat]
  have hproduct : format.exponentProduct = "\\cdot" := by rw [← hformat]
  suffices htext : (if (if repeating.isEmpty then format.shortFraction fraction
        else format.fraction fraction ++ format.cycle repeating).isEmpty
      then [] else ".".toList ++ if repeating.isEmpty then format.shortFraction fraction
        else format.fraction fraction ++ format.cycle repeating) =
      fractionText fraction repeating by
    unfold assemble
    dsimp only
    cases exponent <;> rw [hpoint, hproduct, hwhole, htext]
  unfold fractionText
  by_cases hrepeating : repeating = []
  · have hshort : fraction.length ≤ format.budget := hbudget.resolve_left fun h => h hrepeating
    rw [hrepeating, List.isEmpty_nil, if_pos rfl, if_pos rfl, shortFraction, if_pos hshort,
      List.append_nil, hfraction, NumberFormat.fraction]
    by_cases hempty : fraction = []
    · rw [hempty, joinGroups_nil]
      rfl
    · have hne := joinGroups_ne_nil exists_triples hempty
      rw [List.isEmpty_eq_false_iff.mpr hne, if_neg Bool.false_ne_true,
        if_neg fun h => hempty h.1]
      rfl
  · have hne : ({} : NumberFormat).fraction fraction ++ ({} : NumberFormat).cycle repeating ≠ [] := by
      rw [cycle]
      exact List.append_ne_nil_of_right_ne_nil _ nofun
    rw [hfraction, hcycle, List.isEmpty_eq_false_iff.mpr hrepeating, if_neg Bool.false_ne_true,
      List.isEmpty_eq_false_iff.mpr hne, if_neg Bool.false_ne_true,
      if_neg fun h => hrepeating h.2, if_neg hrepeating]
    rfl

/-- A mantissa of just 1 in front of a power of ten is left out. -/
def IsBarePower (d : Decimal) (n : Int) : Prop :=
  d.exponent = some n ∧ ({} : NumberFormat).whole d.whole.toList ++
    fractionText d.fraction.toList d.repeating.toList = ['1']

/-- Just one digit is written for a single digit only. -/
theorem eq_of_joinGroups_eq_singleton {groups : List Char → List (List Char)} {digits : List Char}
    {c : Char} (hgroups : 3 < digits.length → ∃ first others, groups digits = first :: others ∧
      others ≠ [] ∧ first ++ others.flatten = digits ∧ ∀ g ∈ first :: others, g ≠ [])
    (hne : digits ≠ []) (h : ({} : NumberFormat).joinGroups groups digits = [c]) : digits = [c] := by
  obtain ⟨first, others, heq, hflatten, hnonempty, -⟩ := joinGroups_eq hgroups hne
  rw [heq] at h
  cases others with
  | nil =>
    rw [List.flatMap_nil, List.append_nil] at h
    rw [← hflatten, h]
    rfl
  | cons group others =>
    have hlength := congrArg List.length h
    have hfirst : first.length ≠ 0 := fun hzero =>
      hnonempty first List.mem_cons_self (List.length_eq_zero_iff.mp hzero)
    simp at hlength
    omega

theorem IsBarePower.eq {n : Int} (h : IsBarePower d n) (hwhole : d.whole ≠ "") :
    d.whole.toList = ['1'] ∧ d.fraction.toList = [] ∧ d.repeating.toList = [] := by
  have hne : d.whole.toList ≠ [] := fun hnil => hwhole (String.toList_eq_nil_iff.mp hnil)
  have htext := h.2
  have hwritten : ({} : NumberFormat).whole d.whole.toList ≠ [] :=
    joinGroups_ne_nil exists_triplesFromRight hne
  unfold fractionText at htext
  split at htext
  · next hempty =>
    rw [List.append_nil] at htext
    exact ⟨eq_of_joinGroups_eq_singleton exists_triplesFromRight hne htext, hempty⟩
  · have hlength := congrArg List.length htext
    have hpos := List.length_pos_iff.mpr hwritten
    simp at hlength
    omega

theorem spell_of_barePower (precision : Nat) (style : NumberStyle)
    (hbudget : d.repeating.toList ≠ [] ∨
      d.fraction.toList.length ≤ ({ precision, style } : NumberFormat).budget)
    {n : Int} (h : IsBarePower d n) :
    ({ precision, style } : NumberFormat).spell d = (if d.negative then ['-'] else []) ++ power n := by
  rw [spell, assemble_eq precision style hbudget, h.1]
  exact if_pos h.2

theorem spell_eq (precision : Nat) (style : NumberStyle)
    (hbudget : d.repeating.toList ≠ [] ∨
      d.fraction.toList.length ≤ ({ precision, style } : NumberFormat).budget)
    (h : ∀ n, ¬IsBarePower d n) :
    ({ precision, style } : NumberFormat).spell d =
      (if d.negative then ['-'] else []) ++ (({} : NumberFormat).whole d.whole.toList ++
        (fractionText d.fraction.toList d.repeating.toList ++ scaleText d.exponent)) := by
  rw [spell, assemble_eq precision style hbudget]
  split
  · next hexponent => rw [hexponent, scaleText, List.append_nil]
  · next n hexponent =>
    rw [if_neg fun hone => h n ⟨hexponent, hone⟩, hexponent, scaleText]
    simp only [List.append_assoc]

theorem spelling_of_barePower (hbudget : d.repeating.toList ≠ [] ∨ d.fraction.toList.length ≤ 14)
    {n : Int} (h : IsBarePower d n) :
    spelling d = (if d.negative then ['-'] else []) ++ power n :=
  spell_of_barePower 15 .auto hbudget h

theorem spelling_eq (hbudget : d.repeating.toList ≠ [] ∨ d.fraction.toList.length ≤ 14)
    (h : ∀ n, ¬IsBarePower d n) :
    spelling d = (if d.negative then ['-'] else []) ++ (({} : NumberFormat).whole d.whole.toList ++
      (fractionText d.fraction.toList d.repeating.toList ++ scaleText d.exponent)) :=
  spell_eq 15 .auto hbudget h

end NumberFormat

/-! ### Tokens -/

/-- The tokens of digits under a bar. -/
def barTokens (digits : List Char) : Language Token :=
  Token.one (.command "overline") * (Token.one .groupOpen *
    (Token.one (.digits (String.ofList digits)) * Token.one .groupClose))

/-- The tokens of a fraction from its point on. -/
def fractionTokens (fraction repeating : List Char) : Language Token :=
  if fraction = [] ∧ repeating = [] then 1
  else Token.one (.punct '.') * ((if fraction = [] then 1 else runTokens fraction) *
    (if repeating = [] then 1 else barTokens repeating))

/-- The tokens of an integer in one run of digits. -/
def integerTokens (n : Int) : Language Token :=
  (if n < 0 then Token.one (.punct '-') else 1) *
    Token.one (.digits (String.ofList (Digits.ofNat n.natAbs)))

/-- The tokens of a power of ten. -/
def tenTokens (n : Int) : Language Token :=
  Token.one (.digits "10") * (Token.one (.punct '^') *
    (Token.one .groupOpen * (integerTokens n * Token.one .groupClose)))

/-- The tokens of a product with a power of ten. -/
def scaleTokens : Option Int → Language Token
  | none => 1
  | some n => Token.one (.command "cdot") * tenTokens n

/-- The tokens of the digits of a decimal, its sign apart. -/
def magnitudeTokens (d : Decimal) : Language Token :=
  runTokens d.whole.toList *
    (fractionTokens d.fraction.toList d.repeating.toList * scaleTokens d.exponent)

def signTokens (negative : Bool) : Language Token :=
  if negative then Token.one (.punct '-') else 1

namespace Spells

variable {l r : List Char} {P Q : Language Token}

theorem run {groups : List Char → List (List Char)} {ds : List Char}
    (hgroups : 3 < ds.length → ∃ first others, groups ds = first :: others ∧ others ≠ [] ∧
      first ++ others.flatten = ds ∧ ∀ g ∈ first :: others, g ≠ []) (hne : ds ≠ [])
    (h : ∀ c ∈ ds, c.isDigit = true) :
    Spells (({} : NumberFormat).joinGroups groups ds) (runTokens ds) := by
  obtain ⟨first, others, heq, hflatten, hnonempty, -⟩ := NumberFormat.joinGroups_eq hgroups hne
  rw [heq]
  refine (Spells.groups hnonempty (NumberFormat.isDigit_of_mem_groups hflatten h)).mono ?_
  rintro _ ⟨t, rest, rfl, hkind, hgrouped, -⟩
  exact ⟨t, rest, first, others.flatten, rfl, hkind, hgrouped, hflatten⟩

theorem punct {c : Char} (h : ∀ r, Lexeme.read c r = .single (.punct c) c r) :
    Spells [c] (Token.one (.punct c)) :=
  .of_single rfl h

theorem minus : Spells ['-'] (Token.one (.punct '-')) :=
  .punct fun _ => rfl

theorem integer (n : Int) : Spells (Digits.ofInt n) (integerTokens n) := by
  have hdigits : Spells (Digits.ofNat n.natAbs) _ :=
    .digits (Digits.ofNat_ne_nil _) Digits.isDigit_of_mem_ofNat
  unfold Digits.ofInt integerTokens
  split
  · exact minus.mul hdigits (.of_ends rfl rfl _)
  · exact nil.mul hdigits (.of_ends rfl rfl _)

theorem ten (n : Int) : Spells (NumberFormat.power n) (tenTokens n) := by
  have hten : Spells "10".toList (Token.one (.digits "10")) :=
    @digits "10".toList (by decide) (List.all_eq_true.mp (by decide))
  have hcaret : Spells ['^'] (Token.one (.punct '^')) := .punct fun _ => rfl
  have hclosed : Spells (Digits.ofInt n ++ ['\x7d']) _ := (integer n).mul closing (.of_not rfl rfl _ _)
  have hgroup : Spells (['\x7b'] ++ (Digits.ofInt n ++ ['\x7d'])) _ :=
    opening.mul hclosed (.of_ends rfl rfl _)
  have hraised : Spells (['^'] ++ (['\x7b'] ++ (Digits.ofInt n ++ ['\x7d']))) _ :=
    hcaret.mul hgroup (.of_ends rfl rfl _)
  have hpower := hten.mul hraised (.of_not rfl rfl _ _)
  have htext : NumberFormat.power n =
      "10".toList ++ (['^'] ++ (['\x7b'] ++ (Digits.ofInt n ++ ['\x7d']))) := by
    simp [NumberFormat.power]
  rw [htext]
  exact hpower

theorem scale (exponent : Option Int) :
    Spells (NumberFormat.scaleText exponent) (scaleTokens exponent) := by
  cases exponent with
  | none => exact nil
  | some n =>
    have hcdot : Spells "\\cdot".toList (Token.one (.command "cdot")) :=
      @command "cdot".toList (by decide) (List.all_eq_true.mp (by decide))
    exact hcdot.mul (ten n) ⟨nofun, fun _ => by decide⟩

theorem bar {ds : List Char} (hne : ds ≠ []) (h : ∀ c ∈ ds, c.isDigit = true) :
    Spells (({} : NumberFormat).cycle ds) (barTokens ds) := by
  have hword : Spells "\\overline".toList (Token.one (.command "overline")) :=
    @command "overline".toList (by decide) (List.all_eq_true.mp (by decide))
  have hclosed : Spells (ds ++ ['\x7d']) _ := (digits hne h).mul closing (.of_not rfl rfl _ _)
  have hgroup : Spells (['\x7b'] ++ (ds ++ ['\x7d'])) _ := opening.mul hclosed (.of_ends rfl rfl _)
  exact hword.mul hgroup (.of_not rfl rfl _ _)

theorem fraction {ds cycle : List Char} (h : ∀ c ∈ ds, c.isDigit = true)
    (h' : ∀ c ∈ cycle, c.isDigit = true) :
    Spells (NumberFormat.fractionText ds cycle) (fractionTokens ds cycle) := by
  unfold NumberFormat.fractionText fractionTokens
  split
  · exact nil
  · have hpoint : Spells ['.'] (Token.one (.punct '.')) := .punct fun _ => rfl
    have hdigits : Spells (({} : NumberFormat).fraction ds) (if ds = [] then 1 else runTokens ds) := by
      split
      · next hempty =>
        rw [hempty, NumberFormat.fraction, NumberFormat.joinGroups_nil]
        exact nil
      · next hne => exact run NumberFormat.exists_triples hne h
    have hcycle : Spells (if cycle = [] then [] else ({} : NumberFormat).cycle cycle)
        (if cycle = [] then 1 else barTokens cycle) := by
      split
      · exact nil
      · next hne => exact bar hne h'
    have hsevers : Text.Severs (({} : NumberFormat).fraction ds)
        (if cycle = [] then [] else ({} : NumberFormat).cycle cycle) := by
      split
      · exact .nil _
      · exact .of_not rfl rfl _ _
    exact hpoint.mul (hdigits.mul hcycle hsevers) (.of_ends rfl rfl _)

/-- The text of a decimal that is no bare power of ten. -/
theorem magnitude {d : Decimal} (hd : d.WellFormed) (hwhole : d.whole ≠ "") :
    Spells (({} : NumberFormat).whole d.whole.toList ++
      (NumberFormat.fractionText d.fraction.toList d.repeating.toList ++
        NumberFormat.scaleText d.exponent)) (magnitudeTokens d) := by
  have hrun : Spells (({} : NumberFormat).whole d.whole.toList) (runTokens d.whole.toList) :=
    run NumberFormat.exists_triplesFromRight (fun h => hwhole (String.toList_eq_nil_iff.mp h)) hd.whole
  have hscale : ∀ l, Text.Severs l (NumberFormat.scaleText d.exponent) := by
    intro l
    cases d.exponent with
    | none => exact .nil l
    | some n => exact .of_not rfl rfl _ _
  have hbehind : ∀ l, Text.Severs l (NumberFormat.fractionText d.fraction.toList d.repeating.toList ++
      NumberFormat.scaleText d.exponent) := by
    intro l
    unfold NumberFormat.fractionText
    split
    · exact hscale l
    · exact .of_not rfl rfl _ _
  exact hrun.mul ((fraction hd.fraction hd.repeating).mul (scale d.exponent) (hscale _)) (hbehind _)

theorem signed (h : Spells l P) (negative : Bool) :
    Spells ((if negative then ['-'] else []) ++ l) (signTokens negative * P) := by
  cases negative with
  | false => exact nil.mul h (.of_ends rfl rfl _)
  | true => exact minus.mul h (.of_ends rfl rfl _)

end Spells

end TexFormula
