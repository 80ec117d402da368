import TexFormula.Proofs.Cycles
import TexFormula.Proofs.WrittenDecimals

/-!
# How many digits of a fraction are shown

A fraction is shown up to some digit, of which the last ones may stand as a cycle, or it is cut off
(`ShownFraction`). `NumberFormat.budget` says how many digits there should be at most. A fraction that
is cut off keeps to it, but the search for a cycle does not look at the budget: what stands in front of
the cycle may be of any length. So more digits than that are shown just where the first cycle ends behind
them (`NumberFormat.count_shownFraction_le_iff`).
-/

namespace TexFormula

/-- The digits that are shown of a fraction. -/
structure ShownFraction where
  digits : List Char
  /-- The digits that repeat without end; they are shown once. -/
  cycle : List Char := []
  isCut : Bool := false

namespace ShownFraction

variable (shown : ShownFraction)

def count : Nat :=
  shown.digits.length + shown.cycle.length

/-- The text behind the decimal marker. -/
def text (format : NumberFormat) : List Char :=
  format.fraction shown.digits ++
    ((if shown.cycle = [] then [] else format.cycle shown.cycle) ++
      if shown.isCut then format.truncationMarker.toList else [])

end ShownFraction

namespace NumberFormat

variable (format : NumberFormat)

/-- What is shown of a fraction that has no repeating digits of its own. -/
def shownFraction (fraction : List Char) : ShownFraction :=
  if fraction.length ≤ format.budget then { digits := fraction }
  else
    match findCycle? fraction format.precision with
    | some (before, cycle) => { digits := before, cycle := if cycle = ['0'] then [] else cycle }
    | none => { digits := fraction.take format.budget, isCut := true }

/-- A text with the decimal marker in front; no text needs no marker. -/
def marked (text : List Char) : List Char :=
  if text.isEmpty then [] else format.decimalMarker.toList ++ text

/-- A mantissa with its power of ten; a mantissa of just 1 is left out. -/
def scaled (mantissa : List Char) : Option Int → List Char
  | none => mantissa
  | some n => if mantissa = ['1'] then power n else mantissa ++ format.exponentProduct.toList ++ power n

/-- The marks in and around a fraction hold no digits. -/
def HasPlainMarks : Prop :=
  ∀ mark ∈ [format.groupSeparator, format.beginRepeatingDigits, format.endRepeatingDigits,
    format.truncationMarker], mark.toList.countP Char.isDigit = 0

instance : Decidable format.HasPlainMarks :=
  inferInstanceAs (Decidable (∀ mark ∈ [format.groupSeparator, format.beginRepeatingDigits,
    format.endRepeatingDigits, format.truncationMarker], mark.toList.countP Char.isDigit = 0))

/-- How many digits are shown of a fraction with a cycle. A cycle of zeros is left out. -/
def cycleEnd (digits : List Char) (offset period : Nat) : Nat :=
  if (digits.drop offset).take period = ['0'] then offset else offset + period

variable {format} {fraction before cycle : List Char} {offset period : Nat}

/-! ### The text of a fraction -/

theorem shownFraction_of_cycle (h : format.budget < fraction.length)
    (hfound : findCycle? fraction format.precision = some (before, cycle)) :
    format.shownFraction fraction =
      { digits := before, cycle := if cycle = ['0'] then [] else cycle } := by
  rw [shownFraction, if_neg (Nat.not_le.mpr h), hfound]

/-- A fraction is shown as a whole, with a cycle, or cut off. -/
theorem shownFraction_cases (format : NumberFormat) (fraction : List Char) :
    (fraction.length ≤ format.budget ∧ format.shownFraction fraction = { digits := fraction }) ∨
    (format.budget < fraction.length ∧ findCycle? fraction format.precision = none ∧
      format.shownFraction fraction = { digits := fraction.take format.budget, isCut := true }) ∨
    ∃ before cycle, format.budget < fraction.length ∧
      findCycle? fraction format.precision = some (before, cycle) ∧
      format.shownFraction fraction =
        { digits := before, cycle := if cycle = ['0'] then [] else cycle } := by
  rcases Nat.lt_or_ge format.budget fraction.length with hlong | hshort
  · cases hfound : findCycle? fraction format.precision with
    | none =>
      refine .inr (.inl ⟨hlong, rfl, ?_⟩)
      rw [shownFraction, if_neg (Nat.not_le.mpr hlong), hfound]
    | some found =>
      exact .inr (.inr ⟨found.1, found.2, hlong, rfl, shownFraction_of_cycle hlong hfound⟩)
  · exact .inl ⟨hshort, if_pos hshort⟩

theorem findCycle?_ne_nil {precision : Nat} (h : findCycle? fraction precision = some (before, cycle)) :
    cycle ≠ [] := by
  obtain ⟨offset, period, hfirst, -, rfl⟩ := findCycle?_eq_some_iff.mp h
  rw [← List.length_pos_iff, hfirst.length_cycle]
  exact hfirst.shortest.1.recurs.pos

theorem shortFraction_eq (format : NumberFormat) (fraction : List Char) :
    format.shortFraction fraction = (format.shownFraction fraction).text format := by
  rcases format.shownFraction_cases fraction with ⟨hshort, heq⟩ | ⟨hlong, hnone, heq⟩ |
    ⟨before, cycle, hlong, hfound, heq⟩
  · rw [shortFraction, if_pos hshort, heq]
    exact (List.append_nil _).symm
  · rw [shortFraction, if_neg (Nat.not_le.mpr hlong), hnone, heq]
    rfl
  · rw [shortFraction, if_neg (Nat.not_le.mpr hlong), hfound, heq]
    split
    · next hzero =>
      cases hzero
      exact (List.append_nil _).symm
    · next hzero hcycle =>
      cases hcycle
      -- no digits in the cycle would mean that there is none
      rw [if_neg hzero, ShownFraction.text, if_neg (findCycle?_ne_nil hfound)]
      exact congrArg _ (List.append_nil _).symm
    · next hnone => cases hnone

theorem spell_eq_scaled {d : Decimal} (h : d.repeating = "") :
    format.spell d = (if d.negative then ['-'] else []) ++
      format.scaled (format.whole d.whole.toList ++
        format.marked ((format.shownFraction d.fraction.toList).text format)) d.exponent := by
  have hrepeating : d.repeating.toList.isEmpty = true := by rw [h]; rfl
  rw [← shortFraction_eq]
  unfold spell assemble scaled marked
  rw [hrepeating, if_pos rfl]
  dsimp only
  generalize format.whole d.whole.toList ++ _ = mantissa
  cases d.exponent with
  | none => rfl
  | some n =>
    dsimp only
    split
    · rfl
    · simp only [List.append_assoc]

/-! ### Counting the digits -/

theorem countP_intercalate {p : Char → Bool} {separator : List Char} (h : separator.countP p = 0)
    (groups : List (List Char)) :
    (List.intercalate separator groups).countP p = groups.flatten.countP p := by
  cases groups with
  | nil => rfl
  | cons first others =>
    rw [intercalate_cons, List.flatten_cons, List.countP_append, List.countP_append]
    congr 1
    induction others with
    | nil => rfl
    | cons g others ih =>
      rw [List.flatMap_cons, List.flatten_cons, List.countP_append, List.countP_append,
        List.countP_append, h, Nat.zero_add, ih]

theorem countP_fraction {p : Char → Bool} (h : format.groupSeparator.toList.countP p = 0)
    (digits : List Char) : (format.fraction digits).countP p = digits.countP p := by
  unfold NumberFormat.fraction joinGroups
  split
  · rfl
  · rw [countP_intercalate h, flatten_triples]

end NumberFormat

/-- The digits that are shown are those that stand in the text. -/
theorem ShownFraction.countP_text {format : NumberFormat} (hmarks : format.HasPlainMarks)
    {shown : ShownFraction} (hdigits : ∀ c ∈ shown.digits ++ shown.cycle, c.isDigit = true) :
    (shown.text format).countP Char.isDigit = shown.count := by
  have hall : (shown.digits ++ shown.cycle).countP Char.isDigit = shown.count := by
    rw [List.countP_eq_length.mpr hdigits, List.length_append, count]
  obtain ⟨hseparator, hbegin, hend, hcut, -⟩ := by
    simpa only [NumberFormat.HasPlainMarks, List.forall_mem_cons] using hmarks
  have hcycle : (if shown.cycle = [] then [] else format.cycle shown.cycle).countP Char.isDigit =
      shown.cycle.countP Char.isDigit := by
    split
    · next hnil => rw [hnil]
    · rw [NumberFormat.cycle, List.countP_append, List.countP_append, hbegin, hend, Nat.zero_add,
        Nat.add_zero]
  have hdots : (if shown.isCut then format.truncationMarker.toList else []).countP Char.isDigit = 0 := by
    split
    · exact hcut
    · rfl
  rw [text, List.countP_append, List.countP_append, NumberFormat.countP_fraction hseparator, hcycle,
    hdots, Nat.add_zero, ← List.countP_append, hall]

namespace NumberFormat

variable {format : NumberFormat} {fraction before cycle : List Char} {offset period : Nat}

/-- What is shown is the front of the fraction. -/
theorem shownFraction_prefix (format : NumberFormat) (fraction : List Char) :
    (format.shownFraction fraction).digits ++ (format.shownFraction fraction).cycle <+: fraction := by
  rcases format.shownFraction_cases fraction with ⟨-, heq⟩ | ⟨-, -, heq⟩ |
    ⟨before, cycle, -, hfound, heq⟩
  · rw [heq, List.append_nil]
  · rw [heq, List.append_nil]
    exact List.take_prefix _ _
  · obtain ⟨offset, period, -, rfl, rfl⟩ := findCycle?_eq_some_iff.mp hfound
    rw [heq]
    dsimp only
    refine List.IsPrefix.trans ?_ (List.dropLast_prefix fraction)
    split
    · rw [List.append_nil]
      exact List.take_prefix _ _
    · rw [← List.take_add]
      exact List.take_prefix _ _

theorem count_of_isFirstCycle (hlong : format.budget < fraction.length)
    (h : IsFirstCycle fraction.dropLast format.precision offset period) :
    (format.shownFraction fraction).count = cycleEnd fraction.dropLast offset period := by
  have hfound := findCycle?_eq_some_iff.mpr ⟨offset, period, h, rfl, rfl⟩
  have hlength := h.length_cycle
  have henough := h.shortest.1.enough
  rw [List.length_drop] at henough
  rw [shownFraction_of_cycle hlong hfound, ShownFraction.count, cycleEnd]
  dsimp only
  rw [List.length_take]
  split
  · rw [List.length_nil]
    omega
  · rw [hlength]
    omega

/-- More digits than the budget are shown just where the first cycle ends behind them. -/
theorem count_shownFraction_le_iff : (format.shownFraction fraction).count ≤ format.budget ↔
    ∀ offset period, format.budget < fraction.length →
      IsFirstCycle fraction.dropLast format.precision offset period →
      cycleEnd fraction.dropLast offset period ≤ format.budget := by
  constructor
  · intro hcount offset period hlong hfirst
    rwa [count_of_isFirstCycle hlong hfirst] at hcount
  · intro h
    rcases format.shownFraction_cases fraction with ⟨hshort, heq⟩ | ⟨-, -, heq⟩ |
      ⟨before, cycle, hlong, hfound, -⟩
    · rwa [heq]
    · rw [heq, ShownFraction.count, List.length_take]
      exact Nat.min_le_left _ _
    · obtain ⟨offset, period, hfirst, -⟩ := findCycle?_eq_some_iff.mp hfound
      rw [count_of_isFirstCycle hlong hfirst]
      exact h offset period hlong hfirst

/-- A cycle starts early enough and is short enough not to end behind the budget, where the fraction is
at most one and a half times as long as the precision. -/
theorem cycleEnd_le_budget (hshort : 2 * fraction.length ≤ 3 * format.precision)
    (h : IsFirstCycle fraction.dropLast format.precision offset period) :
    cycleEnd fraction.dropLast offset period ≤ format.budget := by
  have hle : cycleEnd fraction.dropLast offset period ≤ offset + period := by
    unfold cycleEnd
    split <;> omega
  -- the later the cycle starts, the fewer digits are left for it to occur twice in
  have henough := h.shortest.1.enough
  have htwice := h.shortest.1.recurs.twice
  rw [List.length_drop, List.length_dropLast] at henough htwice
  unfold budget
  omega

/-- What is written of a number without repeating digits of its own: the front of its fraction stands
behind the decimal marker. These are no more digits than the budget, unless the fraction is longer and
its first cycle, or what is in front of zeros at the end, is longer as well. -/
theorem write_shows {n : Number} {d : Decimal} (h : format.written? n = some d)
    (hrepeating : d.repeating = "") :
    let shown := format.shownFraction d.fraction.toList
    (format.write n).toList = (if d.negative then ['-'] else []) ++
        format.scaled (format.whole d.whole.toList ++ format.marked (shown.text format)) d.exponent ∧
      shown.digits ++ shown.cycle <+: d.fraction.toList ∧
      (format.HasPlainMarks → (∀ c ∈ d.fraction.toList, c.isDigit = true) →
        (shown.text format).countP Char.isDigit = shown.count) ∧
      (shown.count ≤ format.budget ↔ ∀ offset period, format.budget < d.fraction.length →
        IsFirstCycle d.fraction.toList.dropLast format.precision offset period →
        cycleEnd d.fraction.toList.dropLast offset period ≤ format.budget) ∧
      (2 * d.fraction.length ≤ 3 * format.precision → shown.count ≤ format.budget) := by
  have hfront := shownFraction_prefix format d.fraction.toList
  rw [← String.length_toList]
  refine ⟨(write_eq_spell h).trans (spell_eq_scaled hrepeating), hfront, fun hmarks hdigits => ?_,
    count_shownFraction_le_iff, fun hshort => ?_⟩
  · exact ShownFraction.countP_text hmarks fun c hc => hdigits c (hfront.mem hc)
  · exact count_shownFraction_le_iff.mpr fun offset period _ => cycleEnd_le_budget hshort

/-- A fraction without a cycle is cut off. -/
theorem write_shows_cutOff :
    let d : Decimal := ⟨false, "0", "1234567872368237462387", "", none⟩
    let shown := ({} : NumberFormat).shownFraction d.fraction.toList
    ({} : NumberFormat).written? (.decimal d) = some d ∧ d.repeating = "" ∧
      (({} : NumberFormat).write (.decimal d)).toList =
        "0.123\\,456\\,787\\,236\\,82\\ldots".toList ∧
      shown.digits ++ shown.cycle <+: d.fraction.toList ∧
      (shown.text {}).countP Char.isDigit = shown.count ∧
      (shown.count ≤ ({} : NumberFormat).budget ↔ ∀ offset period,
        ({} : NumberFormat).budget < d.fraction.length →
        IsFirstCycle d.fraction.toList.dropLast ({} : NumberFormat).precision offset period →
        cycleEnd d.fraction.toList.dropLast offset period ≤ ({} : NumberFormat).budget) ∧
      shown.count ≤ ({} : NumberFormat).budget := by
  intro d shown
  have hwritten : ({} : NumberFormat).written? (.decimal d) = some d := by decide +kernel
  obtain ⟨htext, hfront, hcount, hiff, hshort⟩ := write_shows hwritten rfl
  refine ⟨hwritten, rfl, ?_, hfront, hcount (by decide) ?_, hiff, hshort (by decide)⟩
  · rw [htext]
    decide +kernel
  · exact List.all_eq_true.mp (by decide)

/-- Zeros at the end are left out, and then all the digits in front of them are shown: 19 of them where
the budget is 14. -/
theorem not_countP_write_le_budget :
    let d : Decimal := ⟨false, "0", "12345678901234567890000000000000000", "", none⟩
    let text := (({} : NumberFormat).write (.decimal d)).toList
    text = "0.123\\,456\\,789\\,012\\,345\\,678\\,9".toList ∧
      ¬ (text.dropWhile (· != '.')).countP Char.isDigit ≤ ({} : NumberFormat).budget := by
  decide +kernel

end NumberFormat

end TexFormula
