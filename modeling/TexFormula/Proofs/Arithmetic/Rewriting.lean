import TexFormula.Proofs.Arithmetic.Stable
import TexFormula.Proofs.NestingLimit
import TexFormula.Proofs.ParsedLevels.Expression
import TexFormula.Proofs.WritingDepth

/-!
# Arithmetic is written again as it was read

`Rewrites e p text` holds if `e` is written as the text, and this is read as `p` and written for it.
There is one lemma for each way in which an expression is read back, and so a source whose expression
is one of them is not changed any more once it has been rewritten (`rewritten_eq_of_rereads`).
-/

open Filter TexFormula.Parser

namespace TexFormula

open Expression (Opposite AddsUp)

variable {a b e first p q : Expression} {es others ps : List Expression}
  {text t written name again : String} {n : Number} {d : Decimal} {loosest : Precedence}
  {fs rest : List (Expression × Expression)}

/-! ### Texts of both -/

/-- The expression is written as the text, which is read as another expression that is written alike. -/
structure Rewrites (e p : Expression) (text : String) : Prop where
  writes : Writes (fun scribe => scribe.serialize e) text
  stable : Stable p text
  enclosed : e.isEnclosed = p.isEnclosed
  keeps : KeepsParentheses .addition e p
  number : e.isNumber = true → p.isNumber = true

theorem KeepsParentheses.wrapText_eq (h : KeepsParentheses loosest e p) (text : String) :
    wrapText e loosest text = wrapText p loosest text := by
  rw [wrapText, wrapText, if_congr h rfl rfl]

theorem KeepsParentheses.of_le (he : loosest ≤ standardPrecedence e)
    (hp : loosest ≤ standardPrecedence p) : KeepsParentheses loosest e p :=
  iff_of_false (Nat.not_lt_of_le he) (Nat.not_lt_of_le hp)

theorem KeepsPlace.needsGlyph_eq (h : KeepsPlace e p) (hprevious : a.isNumber = b.isNumber)
    (text : String) : Writers.needsGlyph a e text = Writers.needsGlyph b p text := by
  have hquotient : (e.headName? == some "Divide" || e.headName? == some "Rational") =
      (p.headName? == some "Divide" || p.headName? == some "Rational") := h.quotient
  rw [Writers.needsGlyph, Writers.needsGlyph, hprevious, h.number, hquotient]

theorem Writers.startsWithDigit_eq_false (h : needsGlyph a b text = false) :
    Text.startsWithDigit text = false := by
  rw [needsGlyph, Bool.or_eq_false_iff, Bool.or_eq_false_iff] at h
  exact h.1.2

/-- One more factor, kept apart by a sign where it must be. -/
theorem FactorsOf.factor (h : FactorsOf first others written) (hp : Form p t)
    (hsign : Product.negativeNumber? p = none) (hsingle : p.headName? ≠ some "Multiply")
    (hten : p.isPowerOfTen = false) (previous : Expression) :
    FactorsOf first (others ++ [p]) (Text.join (Text.join written
      (if Writers.needsGlyph previous p (wrapText p .multiplication t) then "\\times" else ""))
      (wrapText p .multiplication t)) := by
  rcases hp.factor hsign hsingle with ⟨n, d, hn, rfl, htext⟩ | ⟨-, hraised, hunit⟩
  · rw [Writers.needsGlyph_of_isNumber rfl, if_pos rfl, htext]
    exact h.timesNumber hn
  · cases hglyph : Writers.needsGlyph previous p (wrapText p .multiplication t) with
    | true => exact h.timesRaised hraised hten
    | false => exact h.besideUnit (hunit (Writers.startsWithDigit_eq_false hglyph))

/-- By induction on the factors that are still to be written. -/
theorem exists_moreFactors_rewrites (h : ∀ f ∈ fs, ∃ t, Rewrites f.1 f.2 t)
    (hplaces : ∀ f ∈ fs, KeepsPlace f.1 f.2) (htens : ∀ f ∈ fs, f.2.isPowerOfTen = false)
    (hwritten : FactorsOf first others written) (hprevious : a.isNumber = b.isNumber) :
    ∃ text, Writes (fun scribe => Writers.moreFactors scribe a written (fs.map Prod.fst)) text ∧
      Writes (fun scribe => Writers.moreFactors scribe b written (fs.map Prod.snd)) text ∧
      FactorsOf first (others ++ fs.map Prod.snd) text := by
  induction fs generalizing a b written others with
  | nil =>
    refine ⟨written, .pure _, .pure _, ?_⟩
    rw [List.map_nil, List.append_nil]
    exact hwritten
  | cons f fs ih =>
    obtain ⟨⟨t, hf⟩, h⟩ := List.forall_mem_cons.mp h
    obtain ⟨hplace, hplaces⟩ := List.forall_mem_cons.mp hplaces
    obtain ⟨hten, htens⟩ := List.forall_mem_cons.mp htens
    have hlonger := hwritten.factor hf.stable.form hplace.nonnegative hplace.single hten b
    obtain ⟨text, hwrites, hwrites', htext⟩ := ih h hplaces htens hlonger hplace.number
    rw [List.append_assoc] at htext
    refine ⟨text, .moreFactors hf.writes ?_, .moreFactors hf.stable.writes hwrites', htext⟩
    rw [hplace.parentheses.wrapText_eq, hplace.needsGlyph_eq hprevious]
    exact hwrites

theorem Form.factors (hp : Form p t) (hsign : Product.negativeNumber? p = none)
    (hsingle : p.headName? ≠ some "Multiply") : FactorsOf p [] (wrapText p .multiplication t) := by
  rcases hp.factor hsign hsingle with ⟨n, d, hn, rfl, htext⟩ | ⟨hnumber, hraised, -⟩
  · rw [htext]
    exact .digits hn
  · exact hraised.factors hnumber hsingle

/-- The text of one factor is its own, as the text of a factor. -/
theorem exists_factors_rewrites {f : Expression × Expression} (hf : Rewrites f.1 f.2 t)
    (h : ∀ g ∈ rest, ∃ t, Rewrites g.1 g.2 t) (hkeeps : KeepsFactors (f :: rest)) :
    ∃ text, Writes (fun scribe => Writers.factors scribe ((f :: rest).map Prod.fst)) text ∧
      Writes (fun scribe => Writers.factors scribe ((f :: rest).map Prod.snd)) text ∧
      FactorsOf f.2 (rest.map Prod.snd) text ∧
      (rest = [] → text = wrapText f.2 .multiplication t) := by
  obtain ⟨hplace, hplaces⟩ := List.forall_mem_cons.mp hkeeps.places
  have hfirst := hf.writes.wrap .multiplication
  rw [hplace.parentheses.wrapText_eq] at hfirst
  have hfactors := hf.stable.form.factors hplace.nonnegative hplace.single
  cases rest with
  | nil =>
    exact ⟨_, hfirst.bind (.pure _), (hf.stable.writes.wrap _).bind (.pure _), hfactors, fun _ => rfl⟩
  | cons g rest =>
    obtain ⟨text, hwrites, hwrites', htext⟩ :=
      exists_moreFactors_rewrites h hplaces hkeeps.others hfactors hplace.number
    exact ⟨text, hfirst.bind hwrites, (hf.stable.writes.wrap _).bind hwrites', htext, nofun⟩

/-! ### Products -/

/-- More than one factor, all of them above the bar. -/
theorem Stable.multiply {second : Expression}
    (hsign : ∀ p ∈ first :: second :: others, Product.negativeNumber? p = none)
    (hwhole : ∀ p ∈ first :: second :: others, Product.reciprocal? p = none)
    (hwrites : Writes (fun scribe => Writers.factors scribe (first :: second :: others)) text)
    (htext : FactorsOf first (second :: others) text) :
    Stable (.function "Multiply" (first :: second :: others)) text := by
  have hquotient :
      Writes (fun scribe => Writers.quotient scribe ⟨false, first :: second :: others, []⟩ "")
        ("" ++ text) :=
    .quotient_whole rfl hwrites ""
  rw [String.empty_append] at hquotient
  refine ⟨.multiply (List.cons_ne_nil _ _) ?_, .product ?_ htext, rfl⟩
  · rw [Product.ofFactors_eq_self hsign hwhole]
    exact hquotient
  · have hfirst := hsign first List.mem_cons_self
    cases first with
    | number n => exact Product.isNegative_eq_false hfirst
    | _ => rfl

theorem Form.number_cases (h : Form (.number n) t) :
    (∃ d, n.HasDigits d ∧ t = d.digits) ∨ n.isNegative = true ∧ ∃ inside, t = "-" ++ inside := by
  cases h with
  | number hn => exact .inl ⟨_, hn, rfl⟩
  | unit _ hnumber => cases hnumber
  | raised hp => cases hp
  | negated hq => exact .inr ⟨hq.isNegated, _, rfl⟩

/-- A sign in front of a number or of a product that starts with one, or of anything else. -/
theorem Stable.opposite (h : Stable q t) (hp : Opposite q p) :
    Stable p ("-" ++ wrapText q Precedence.addition.tighter t) := by
  have hwrap := h.writes.wrap Precedence.addition.tighter
  have hform : Form p ("-" ++ wrapText q Precedence.addition.tighter t) :=
    .negated hp h.form.subtrahend hwrap
  cases hp with
  | number hn hneg =>
    obtain ⟨d, hdigits, rfl⟩ := h.form.number_cases.resolve_right fun hnegative =>
      Bool.false_ne_true (hn.symm.trans hnegative.1)
    rw [wrapText_number]
    exact .negativeNumber hdigits hneg
  | @product n others hn hneg hone hsigns =>
    have hwritten : Writes (fun scribe => Writers.quotient scribe (.ofFactors (.number n :: others)) "")
        t := by
      refine (Writes.of_hook lookup_multiply rfl h.writes).congr fun scribe _ => ?_
      rw [Writers.product_eq_quotient scribe (List.cons_ne_nil _ _)]
      exact congrArg (Writers.quotient scribe _) (if_neg (Bool.eq_false_iff.mp hsigns)).symm
    have hwrap :
        wrapText (.function "Multiply" (.number n :: others)) Precedence.addition.tighter t = t :=
      if_neg (standardPrecedence_multiply _ ▸ by decide)
    refine ⟨.multiply (List.cons_ne_nil _ _) ?_, hform, rfl⟩
    rw [Product.ofFactors_neg hn hneg hone, hsigns, hwrap]
    exact (hwritten.quotient_sign "-").congr fun scribe _ => rfl
  | negate hq => exact ⟨.negate hwrap, hform, rfl⟩

/-- The product of factors that are read back. A single one stands there as among others. -/
theorem exists_whole_rewrites (hne : fs ≠ []) (h : ∀ f ∈ fs, ∃ t, Rewrites f.1 f.2 t)
    (hkeeps : KeepsFactors fs) :
    ∃ t, Writes (fun scribe => Writers.factors scribe (fs.map Prod.fst))
        (wrapText (Product.whole (fs.map Prod.snd)) .multiplication t) ∧
      Stable (Product.whole (fs.map Prod.snd)) t := by
  obtain ⟨f, rest, rfl⟩ := List.exists_cons_of_ne_nil hne
  obtain ⟨⟨t, hf⟩, hrest⟩ := List.forall_mem_cons.mp h
  obtain ⟨text, hwrites, hwrites', htext, hsingle⟩ := exists_factors_rewrites hf hrest hkeeps
  cases rest with
  | nil => exact ⟨t, hsingle rfl ▸ hwrites, hf.stable⟩
  | cons g rest =>
    have hnot : wrapText (.function "Multiply" (f.2 :: g.2 :: rest.map Prod.snd)) .multiplication text =
        text :=
      wrapText_of_le (standardPrecedence_multiply _ ▸ Nat.le_refl _) text
    refine ⟨text, hnot.symm ▸ hwrites, .multiply (fun p hp => ?_) (fun p hp => ?_) hwrites' htext⟩
    · obtain ⟨f, hf, rfl⟩ := List.mem_map.mp (show p ∈ (f :: g :: rest).map Prod.snd from hp)
      exact (hkeeps.places f hf).nonnegative
    · obtain ⟨f, hf, rfl⟩ := List.mem_map.mp (show p ∈ (f :: g :: rest).map Prod.snd from hp)
      obtain ⟨t, ht⟩ := h f hf
      exact ht.stable.whole

theorem multiplication_le_whole (h : ∀ f, fs = [f] → .multiplication ≤ standardPrecedence f.2) :
    .multiplication ≤ standardPrecedence (Product.whole (fs.map Prod.snd)) := by
  match fs, h with
  | [], _ => exact Precedence.rank_le _
  | [f], h => exact h f rfl
  | f :: g :: rest, _ => exact Nat.le_of_eq (congrArg _ (standardPrecedence_multiply _).symm)

/-- The magnitude of one. -/
def Magnitude.one : Magnitude :=
  ⟨twoPow 52, 1022, twoPow_lt, Nat.le_add_right 1022 1023, .inr (Nat.le_refl _)⟩

theorem Magnitude.isPlain_one : one.IsPlain :=
  ⟨by decide +kernel, by decide +kernel⟩

theorem Magnitude.digits_one : (one.shown false).digits = "1" := by
  decide +kernel

theorem Stable.one : Stable (Product.whole []) "1" := by
  have hone : Double.ofInt 1 = .finite false .one := by decide +kernel
  have hstable := Stable.number Magnitude.isPlain_one.hasDigits
  rw [Magnitude.digits_one] at hstable
  rw [Product.whole, hone]
  exact hstable

/-- Nothing binds between sums and products. -/
theorem Form.wrapText_eq (h : Form p t) (text : String) :
    wrapText p Precedence.addition.tighter text = wrapText p .multiplication text := by
  have hloose (hp : standardPrecedence p ≤ .addition) :
      wrapText p Precedence.addition.tighter text = wrapText p .multiplication text := by
    rw [wrapText_of_lt (Nat.lt_of_le_of_lt hp (by decide)),
      wrapText_of_lt (Nat.lt_of_le_of_lt hp (by decide))]
  rcases h.precedence_cases with hp | hp | ⟨n, hn, ⟨first, second, rest, rfl⟩, -⟩
  · exact hloose (Nat.le_of_eq (congrArg _ hp))
  · rw [wrapText_of_le (Nat.le_trans (by decide) hp), wrapText_of_le hp]
  · exact hloose (Nat.le_of_lt (lt_addition_loose hn _))

theorem OperandOf.ne_empty (h : OperandOf loosest p t) : t ≠ "" :=
  fun hempty => h.nonempty (hempty ▸ rfl)

/-- The factors on one side of a fraction bar. -/
theorem exists_side_rewrites (hne : fs ≠ []) (h : ∀ f ∈ fs, ∃ t, Rewrites f.1 f.2 t)
    (hkeeps : KeepsFactors fs) (hsingle : ∀ f, fs = [f] → .multiplication ≤ standardPrecedence f.2) :
    ∃ text, Writes (fun scribe => Writers.factors scribe (fs.map Prod.fst)) text ∧
      Stable (Product.whole (fs.map Prod.snd)) text := by
  obtain ⟨t, hwrites, hstable⟩ := exists_whole_rewrites hne h hkeeps
  rw [wrapText_of_le (multiplication_le_whole hsingle)] at hwrites
  exact ⟨t, hwrites, hstable⟩

/-- Above the bar, a one stands for no factors. -/
theorem exists_numerator_rewrites (h : ∀ f ∈ fs, ∃ t, Rewrites f.1 f.2 t) (hkeeps : KeepsFactors fs)
    (hsingle : ∀ f, fs = [f] → .multiplication ≤ standardPrecedence f.2) :
    ∃ text, Writes (fun scribe => Writers.factors scribe (fs.map Prod.fst)) text ∧
      Stable (Product.whole (fs.map Prod.snd)) (if text = "" then "1" else text) := by
  by_cases hne : fs = []
  · subst hne
    exact ⟨"", .pure _, .one⟩
  · obtain ⟨text, hwrites, hstable⟩ := exists_side_rewrites hne h hkeeps hsingle
    refine ⟨text, hwrites, ?_⟩
    rw [if_neg hstable.form.whole.ne_empty]
    exact hstable

/-- A product without its sign: all factors are above the bar, or it is a fraction. -/
theorem exists_quotient_rewrites {above below : List (Expression × Expression)}
    (hsorts : Product.SortsInto es above below) (h : ∀ f ∈ above ++ below, ∃ t, Rewrites f.1 f.2 t)
    (hne : below = [] → above ≠ []) :
    ∃ t, Stable (Product.quotient (above.map Prod.snd) (below.map Prod.snd)) t ∧
      ∀ sign, Writes (fun scribe => Writers.quotient scribe (.ofFactors es) sign)
        (sign ++ wrapText (Product.quotient (above.map Prod.snd) (below.map Prod.snd))
          Precedence.addition.tighter t) := by
  obtain ⟨habove, hbelow⟩ := List.forall_mem_append.mp h
  by_cases hden : below = []
  · subst hden
    obtain ⟨t, hwrites, hstable⟩ := exists_whole_rewrites (hne rfl) habove hsorts.keepsAbove
    rw [← hsorts.numerator, ← hstable.form.wrapText_eq] at hwrites
    exact ⟨t, hstable, .quotient_whole hsorts.denominator hwrites⟩
  · obtain ⟨top, htop, habove⟩ := exists_numerator_rewrites habove hsorts.keepsAbove
      fun f hf => hsorts.single hden f (.inl hf)
    obtain ⟨bottom, hbottom, hbelow⟩ := exists_side_rewrites hden hbelow hsorts.keepsBelow
      fun f hf => hsorts.single hden f (.inr hf)
    rw [← hsorts.numerator] at htop
    rw [← hsorts.denominator] at hbottom
    have hparts : (Product.ofFactors es).denominator ≠ [] := by
      rw [hsorts.denominator]
      exact fun hnil => hden (List.map_eq_nil_iff.mp hnil)
    have hquotient : Product.quotient (above.map Prod.snd) (below.map Prod.snd) =
        .function "Divide" [Product.whole (above.map Prod.snd), Product.whole (below.map Prod.snd)] := by
      rw [Product.quotient, if_neg (by simpa using hden)]
    refine ⟨_, hquotient ▸ habove.divide hbelow, fun sign => ?_⟩
    rw [hquotient, wrapText_of_le (standardPrecedence_divide _ ▸ by decide)]
    exact .quotient_fraction hparts htop hbottom sign

theorem multiplication_le_quotient {above below : List (Expression × Expression)}
    (h : below = [] → 2 ≤ above.length) : .multiplication ≤
      standardPrecedence (Product.quotient (above.map Prod.snd) (below.map Prod.snd)) := by
  unfold Product.quotient
  split
  · next hempty =>
    have hmany := h (by simpa using hempty)
    exact multiplication_le_whole fun f hf => by simp [hf] at hmany
  · exact standardPrecedence_divide _ ▸ Precedence.rank_le _

/-- The product of no factors has nothing above the bar or below it. -/
theorem Product.SortsInto.ne_nil {above below : List (Expression × Expression)}
    (h : Product.SortsInto es above below) (hne : below = [] → above ≠ []) : es ≠ [] := by
  rintro rfl
  exact hne (List.map_eq_nil_iff.mp h.denominator.symm) (List.map_eq_nil_iff.mp h.numerator.symm)

/-! ### Sums -/

/-- What is read with a sign in front has been written so. -/
theorem Form.exists_of_opposite (h : Form p t) (hp : Opposite q p) :
    ∃ inside, t = "-" ++ inside ∧ TermOf q inside ∧
      Writes (fun scribe => scribe.wrap q Precedence.addition.tighter) inside := by
  have hnegated := hp.isNegated
  cases h with
  | number hn => cases hn.nonnegative.symm.trans hnegated
  | unit hle hnumber =>
    have hlt : .multiplication < standardPrecedence p := Nat.lt_of_lt_of_le (by decide) hle
    rw [Expression.isNegated_eq_false (Precedence.ne_of_lt (Nat.lt_trans (by decide) hlt))
      (Precedence.ne_of_lt hlt) hnumber] at hnegated
    cases hnegated
  | raised hpower =>
    rw [Expression.isNegated_eq_false (hpower ▸ by decide) (hpower ▸ by decide)
      (isNumber_eq_false_of_lt (hpower ▸ by decide))] at hnegated
    cases hnegated
  | product hsign =>
    rw [hsign] at hnegated
    cases hnegated
  | negated hq hterm hwrites =>
    obtain rfl := hp.unique hq
    exact ⟨_, rfl, hterm, hwrites⟩
  | sum hname => rcases hname with rfl | rfl <;> cases hnegated
  | @loose n first second rest _ hn =>
    have hlt := lt_addition_loose hn (first :: second :: rest)
    rw [Expression.isNegated_eq_false (Precedence.ne_of_lt hlt).symm
      (Precedence.ne_of_lt (Nat.lt_trans hlt (by decide))).symm rfl] at hnegated
    cases hnegated

theorem standardPrecedence_of_sum (h : e.headName? = some "Add" ∨ e.headName? = some "Subtract") :
    standardPrecedence e = .addition := by
  rcases h with h | h <;> rw [standardPrecedence_of_headName? h]
  · exact standardPrecedence_add _
  · exact standardPrecedence_subtract _

theorem addition_le_of_sum (h : e.headName? = some "Add" ∨ e.headName? = some "Subtract") :
    .addition ≤ standardPrecedence e :=
  Nat.le_of_eq (congrArg _ (standardPrecedence_of_sum h).symm)

theorem termText_eq (h : e.isEnclosed = p.isEnclosed) (text : String) :
    termText e text = termText p text := by
  rw [termText, termText, h]

/-- By induction on the terms that are still to be written. -/
theorem exists_addTerms_rewrites (h : ∀ f ∈ fs, ∃ t, Rewrites f.1 f.2 t) (hsum : Stable a written)
    (hle : fs = [] → .addition ≤ standardPrecedence a) (hadds : AddsUp a (fs.map Prod.snd) p) :
    ∃ text, Writes (fun scribe => (fs.map Prod.fst).foldlM (Writers.addTerm scribe)
        (wrapText a .addition written)) text ∧
      Stable p text := by
  induction fs generalizing a written with
  | nil =>
    cases hadds
    rw [wrapText_of_le (hle rfl)]
    exact ⟨written, .pure _, hsum⟩
  | cons f fs ih =>
    obtain ⟨⟨t, hf⟩, h⟩ := List.forall_mem_cons.mp h
    have hterm := Writes.addTerm hf.writes (wrapText a .addition written)
    have hterm' := Writes.addTerm hf.stable.writes (wrapText a .addition written)
    rw [termText_eq hf.enclosed] at hterm
    cases hadds with
    | plus hsign hadds =>
      obtain ⟨htext, hstarts⟩ := hf.stable.form.addend hsign
      rw [hstarts, if_neg Bool.false_ne_true] at hterm hterm'
      have hle : .addition ≤ standardPrecedence (extend "Add" (a.headName? == some "Add") a f.2) :=
        addition_le_of_sum (.inl (headName?_extend eq_of_beq))
      obtain ⟨text, hwrites, hstable⟩ :=
        ih h (hsum.addTerm hterm' (hsum.form.summand.plus htext)) (fun _ => hle) hadds
      rw [wrapText_of_le hle] at hwrites
      exact ⟨text, hterm.bind hwrites, hstable⟩
    | @minus _ q _ _ _ hopposite hadds =>
      obtain ⟨inside, rfl, htext, hwritten⟩ := hf.stable.form.exists_of_opposite hopposite
      have hbare : termText f.2 ("-" ++ inside) = "-" ++ inside := by
        rw [termText, hopposite.isEnclosed, if_neg Bool.false_ne_true]
      rw [hbare, Form.startsWith_minus, if_pos rfl, ← String.append_assoc] at hterm
      have hle : .addition ≤ standardPrecedence (.function "Subtract" [a, q]) :=
        addition_le_of_sum (.inr rfl)
      obtain ⟨text, hwrites, hstable⟩ := ih h (hsum.subtract htext hwritten) (fun _ => hle) hadds
      rw [wrapText_of_le hle] at hwrites
      exact ⟨text, hterm.bind hwrites, hstable⟩

theorem isEnclosed_of_headName? (h : e.headName? = some "Add" ∨ e.headName? = some "Subtract") :
    e.isEnclosed = true := by
  have hsign : Writers.isNegativeTerm e = false := by
    cases e with
    | apply head arguments =>
      rcases h with h | h <;> simp [Writers.isNegativeTerm, h, Expression.number?]
    | _ => rcases h with h | h <;> cases h
  rw [Expression.isEnclosed, hsign, standardPrecedence_of_sum h]
  decide

/-- By induction on the terms: behind the first one, it is a sum or a difference. -/
theorem Expression.AddsUp.headName?_cases {terms : List Expression} (h : AddsUp a terms p)
    (ha : terms = [] → a.headName? = some "Add" ∨ a.headName? = some "Subtract") :
    p.headName? = some "Add" ∨ p.headName? = some "Subtract" := by
  induction h with
  | done => exact ha rfl
  | plus _ _ ih => exact ih fun _ => .inl (headName?_extend eq_of_beq)
  | minus _ _ ih => exact ih fun _ => .inr rfl

/-! ### Relations and logic -/

/-- By induction on the operands that are still to be written. -/
theorem exists_chain_rewrites {n : Notation} (hn : n ∈ Dictionary.looseOperators) (hne : fs ≠ [])
    (hsingle : n.isVariadic = false → fs.length = 1) (h : ∀ f ∈ fs, ∃ t, Rewrites f.1 f.2 t)
    (hkeeps : ∀ f ∈ fs, KeepsParentheses (rightPrecedence n) f.1 f.2) (ha : Stable a written) :
    ∃ text, Writes (fun scribe => (fs.map Prod.fst).foldlM (Serializer.addNext scribe n)
        (wrapText a (leftPrecedence n) written)) text ∧
      Stable (Expression.chained n a (fs.map Prod.snd)) text := by
  induction fs generalizing a written with
  | nil => exact absurd rfl hne
  | cons f fs ih =>
    obtain ⟨⟨t, hf⟩, h⟩ := List.forall_mem_cons.mp h
    obtain ⟨hkeep, hkeeps⟩ := List.forall_mem_cons.mp hkeeps
    have hlonger := ha.infixed hn hf.stable
    have hnext : Writes (fun scribe => Serializer.addNext scribe n
        (wrapText a (leftPrecedence n) written) f.1) _ :=
      (hf.writes.wrap _).bind (.pure _)
    rw [hkeep.wrapText_eq] at hnext
    by_cases hfs : fs = []
    · subst hfs
      exact ⟨_, hnext.bind (.pure _), hlonger⟩
    · have hvariadic : n.isVariadic = true := by
        refine Bool.eq_true_of_not_eq_false fun hnot => hfs ?_
        exact List.eq_nil_of_length_eq_zero (Nat.succ.inj (hsingle hnot))
      obtain ⟨text, hwrites, hstable⟩ :=
        ih hfs (fun hnot => absurd (hnot.symm.trans hvariadic) Bool.false_ne_true) h hkeeps hlonger
      obtain ⟨kind, hloose⟩ := Dictionary.exists_isLoose hn
      have hprecedence := standardPrecedence_loose hn (Expression.headName?_linked n a f.2)
      rw [wrapText_of_le (by
        rw [hloose.leftPrecedence_eq hvariadic, hprecedence]
        exact Nat.le_refl _)] at hwrites
      exact ⟨text, hnext.bind hwrites, hstable⟩

/-- By induction on the operands: behind the first one, it is a chain. -/
theorem Expression.headName?_chained {n : Notation} (hne : others ≠ []) :
    (chained n a others).headName? = some n.name := by
  induction others generalizing a with
  | nil => exact absurd rfl hne
  | cons b others ih =>
    cases others with
    | nil => exact headName?_linked n a b
    | cons c others => exact ih (List.cons_ne_nil _ _)

/-! ### All expressions -/

/-- What is raised to a power stands in parentheses in both texts or in none. -/
theorem Rewrites.scriptText_eq (h : Rewrites a p text)
    (hkeep : KeepsParentheses Precedence.power.tighter a p) : scriptText a text = scriptText p text := by
  have hplain : Text.startsWith (wrapText p Precedence.power.tighter text) '-' = false →
      (p.isNumber && Writers.carriesPower {} (wrapText p Precedence.power.tighter text)) = false := by
    intro hstarts
    cases hnumber : p.isNumber with
    | false => rfl
    | true =>
      obtain ⟨n, rfl⟩ := Expression.exists_of_isNumber hnumber
      rw [wrapText_number] at hstarts ⊢
      rcases h.stable.form.number_cases with ⟨d, hn, rfl⟩ | ⟨-, inside, rfl⟩
      · exact hn.carriesPower_eq_false
      · rw [Form.startsWith_minus] at hstarts
        cases hstarts
  unfold scriptText
  dsimp only
  rw [hkeep.wrapText_eq]
  cases hstarts : Text.startsWith (wrapText p Precedence.power.tighter text) '-' with
  | true => rfl
  | false =>
    have hpower : (a.isNumber && Writers.carriesPower {} (wrapText p Precedence.power.tighter text)) =
        false := by
      cases hnumber : a.isNumber with
      | false => rfl
      | true =>
        have hp := hplain hstarts
        rwa [h.number hnumber] at hp
    rw [hpower, hplain hstarts]

theorem Rewrites.of_le (hwrites : Writes (fun scribe => scribe.serialize e) text)
    (hstable : Stable p text) (he : .multiplication ≤ standardPrecedence e)
    (hp : .multiplication ≤ standardPrecedence p) (hnumber : e.isNumber = true → p.isNumber = true) :
    Rewrites e p text where
  writes := hwrites
  stable := hstable
  enclosed := by
    rw [Expression.isEnclosed_of_le (Nat.le_trans (by decide) he),
      Expression.isEnclosed_of_le (Nat.le_trans (by decide) hp)]
  keeps := .of_le (Nat.le_trans (by decide) he) (Nat.le_trans (by decide) hp)
  number := hnumber

/-- The same notation, of other arguments. -/
theorem Rewrites.same {arguments arguments' : List Expression}
    (hwrites : Writes (fun scribe => scribe.serialize (.function name arguments)) text)
    (hstable : Stable (.function name arguments') text)
    (h : .multiplication ≤ standardPrecedence (.function name [])) :
    Rewrites (.function name arguments) (.function name arguments') text := by
  have hle (es : List Expression) : .multiplication ≤ standardPrecedence (.function name es) := by
    rw [standardPrecedence_of_headName? (e := .function name es) rfl]
    exact h
  exact .of_le hwrites hstable (hle _) (hle _) nofun

/-- A number and the one that is read back for it. -/
theorem Rewrites.ofNumber {k : Number} (hwrite : ({} : NumberFormat).write n = text)
    (hstable : Stable (.number k) text) : Rewrites (.number n) (.number k) text :=
  .of_le (hwrite ▸ .ofNumber n) hstable (Precedence.rank_le _) (Precedence.rank_le _) fun _ => rfl

theorem Stable.double {m : Magnitude} (hm : m.IsPlain) (negative : Bool) :
    Stable (.number (.machine (.finite (negative && !m.isZero) m)))
      ((if negative && !m.isZero then "-" else "") ++ (m.shown false).digits) := by
  cases hsign : negative && !m.isZero with
  | false =>
    rw [if_neg Bool.false_ne_true, String.empty_append]
    exact .number hm.hasDigits
  | true =>
    have hzero : (!m.isZero) = true := (Bool.and_eq_true _ _ |>.mp hsign).2
    exact .negativeNumber hm.hasDigits hzero

/-- A decimal is written as a number that is read off its digits, a zero without its sign. -/
theorem Stable.decimal {n : Number} (hd : d.WellFormed) (hexponent : d.shown.exponent = none)
    (hbudget : d.repeating ≠ "" ∨ d.fraction.length ≤ 14)
    (hn : Number.ofLiteral? d.shown.literal = some n) : Stable (.number n) d.shown.digits := by
  let unsigned := Decimal.shown { d with negative := false }
  have hunsigned : unsigned.IsPlain := by
    refine ⟨(hd.withSign false).shown, Decimal.whole_shown_ne_empty _, rfl, hexponent, ?_⟩
    rw [String.length_toList]
    exact hbudget.imp_left fun hne hnil => hne (String.toList_eq_nil_iff.mp hnil)
  obtain ⟨k, hk, hneg⟩ := hunsigned.exists_hasDigits (Decimal.shown_shown _)
  have hshown : d.shown = { unsigned with negative := d.negative && !d.isZero } := rfl
  rw [hshown, hunsigned.digits_signed]
  cases hsign : d.negative && !d.isZero with
  | false =>
    rw [hshown, hsign, hunsigned.eq_self, hk.ofLiteral?_eq] at hn
    rw [if_neg Bool.false_ne_true, String.empty_append, ← Option.some.inj hn]
    exact .number hk
  | true =>
    have hzero : unsigned.isZero = false := by
      rw [Decimal.isZero_shown]
      exact Bool.not_eq_true' _ |>.mp (Bool.and_eq_true _ _ |>.mp hsign).2
    rw [hshown, hsign, hk.ofLiteral?_neg (hneg hzero)] at hn
    rw [if_pos rfl, ← Option.some.inj hn]
    exact .negativeNumber hk (hneg hzero)

namespace Rewrites

theorem factorial (h : Rewrites a p text) (hkeep : KeepsParentheses .trailing a p)
    (hnumber : p.isNumber = false) :
    Rewrites (.function "Factorial" [a]) (.function "Factorial" [p])
      (wrapText p .trailing text ++ "!") := by
  have hwrites := Writes.factorial (h.writes.wrap .trailing)
  rw [hkeep.wrapText_eq] at hwrites
  exact .same hwrites (h.stable.factorial hnumber) (standardPrecedence_factorial _ ▸ by decide)

theorem subscript (ha : Rewrites a p written) (hb : Rewrites b q text)
    (hkeep : KeepsParentheses Precedence.power.tighter a p) (hnumber : p.isNumber = false) :
    Rewrites (.function "Subscript" [a, b]) (.function "Subscript" [p, q])
      (scriptText p written ++ "_" ++ Text.braced text) := by
  have hwrites := Writes.subscript ha.writes hb.writes
  rw [ha.scriptText_eq hkeep] at hwrites
  exact .same hwrites (ha.stable.subscript hb.stable hnumber)
    (standardPrecedence_subscript _ ▸ by decide)

theorem power (ha : Rewrites a p written) (hb : Rewrites b q text)
    (hkeep : KeepsParentheses Precedence.power.tighter a p) (hsuper : IsSuperscript b)
    (hsuper' : IsSuperscript q) :
    Rewrites (.function "Power" [a, b]) (.function "Power" [p, q])
      (scriptText p written ++ "^" ++ Text.braced text) := by
  have hwrites := Writes.power ha.writes hb.writes hsuper
  rw [ha.scriptText_eq hkeep] at hwrites
  exact .same hwrites (ha.stable.power hb.stable hsuper') (standardPrecedence_power _ ▸ by decide)

/-- A power with a negative exponent, and the fraction that is read back for it. -/
theorem reciprocal (hr : Product.reciprocal? e = some a) (h : Rewrites a p text) :
    Rewrites e (.function "Divide" [Product.whole [], p]) (Writers.fraction "1" text) := by
  obtain ⟨base, n, rfl, -⟩ := Product.exists_of_reciprocal? hr
  exact .of_le (.reciprocal hr h.writes) (Stable.one.divide h.stable)
    (standardPrecedence_power _ ▸ by decide) (standardPrecedence_divide _ ▸ Precedence.rank_le _) nofun

theorem negate (h : Rewrites a p text) (hkeep : KeepsParentheses Precedence.addition.tighter a p)
    (hq : Opposite p q) :
    Rewrites (.function "Negate" [a]) q ("-" ++ wrapText p Precedence.addition.tighter text) := by
  have hwrites := Writes.negate (h.writes.wrap _)
  rw [hkeep.wrapText_eq] at hwrites
  refine ⟨hwrites, h.stable.opposite hq, hq.isEnclosed.symm, .of_le ?_ hq.addition_le, nofun⟩
  exact Nat.le_of_eq (congrArg _ (standardPrecedence_negate _).symm)

theorem exists_subtract (ha : Rewrites a p written) (hb : Rewrites b q text)
    (hkeep : KeepsParentheses Precedence.addition.tighter b q) :
    ∃ text, Rewrites (.function "Subtract" [a, b]) (.function "Subtract" [p, q]) text := by
  have hwrites := Writes.subtract (ha.writes.wrap _) (hb.writes.wrap _)
  rw [ha.keeps.wrapText_eq, hkeep.wrapText_eq] at hwrites
  refine ⟨_, hwrites, ha.stable.subtract hb.stable.form.subtrahend (hb.stable.writes.wrap _), ?_, ?_,
    nofun⟩
  · rw [isEnclosed_of_headName? (.inr rfl), isEnclosed_of_headName? (.inr rfl)]
  · exact .of_le (addition_le_of_sum (.inr rfl)) (addition_le_of_sum (.inr rfl))

theorem exists_add (hfirst : Rewrites a q written) (hrest : ∀ f ∈ rest, ∃ t, Rewrites f.1 f.2 t)
    (hne : rest ≠ []) (hp : AddsUp q (rest.map Prod.snd) p) :
    ∃ text, Rewrites (.function "Add" (a :: rest.map Prod.fst)) p text := by
  have hsum := hp.headName?_cases fun hnil => absurd (List.map_eq_nil_iff.mp hnil) hne
  obtain ⟨text, hwrites, hstable⟩ :=
    exists_addTerms_rewrites hrest hfirst.stable (fun hnil => absurd hnil hne) hp
  have hstart := hfirst.writes.wrap .addition
  rw [hfirst.keeps.wrapText_eq] at hstart
  refine ⟨text, .hook lookup_add rfl (hstart.bind hwrites), hstable, ?_, ?_, nofun⟩
  · rw [isEnclosed_of_headName? (.inl rfl), isEnclosed_of_headName? hsum]
  · exact .of_le (addition_le_of_sum (.inl rfl)) (addition_le_of_sum hsum)

section

variable {above below : List (Expression × Expression)} (hsorts : Product.SortsInto es above below)
  (h : ∀ f ∈ above ++ below, ∃ t, Rewrites f.1 f.2 t)

include hsorts h

theorem exists_product (hnegative : (Product.ofFactors es).negative = false)
    (hmany : below = [] → 2 ≤ above.length) :
    ∃ text, Rewrites (.function "Multiply" es)
      (Product.quotient (above.map Prod.snd) (below.map Prod.snd)) text := by
  have hne (hbelow : below = []) : above ≠ [] :=
    List.ne_nil_of_length_pos (Nat.zero_lt_of_lt (hmany hbelow))
  obtain ⟨text, hstable, hwrites⟩ := exists_quotient_rewrites hsorts h hne
  have htight := multiplication_le_quotient hmany
  have hsigned := hwrites ""
  rw [wrapText_of_le (Nat.le_trans (by decide) htight), String.empty_append] at hsigned
  refine ⟨text, .of_le (.multiply (hsorts.ne_nil hne) ?_) hstable ?_ htight nofun⟩
  · rw [hnegative]
    exact hsigned
  · exact standardPrecedence_multiply _ ▸ Nat.le_refl _

theorem exists_negativeProduct (hnegative : (Product.ofFactors es).negative = true)
    (hwhole : below = [] → above ≠ [])
    (hp : Opposite (Product.quotient (above.map Prod.snd) (below.map Prod.snd)) p) :
    ∃ text, Rewrites (.function "Multiply" es) p text := by
  obtain ⟨text, hstable, hwrites⟩ := exists_quotient_rewrites hsorts h hwhole
  have hsigned := hwrites "-"
  refine ⟨_, .multiply (hsorts.ne_nil hwhole) ?_, hstable.opposite hp, ?_, ?_, nofun⟩
  · rw [hnegative]
    exact hsigned
  · rw [hp.isEnclosed, Expression.isEnclosed_of_le]
    exact standardPrecedence_multiply _ ▸ by decide
  · exact .of_le (standardPrecedence_multiply _ ▸ by decide) hp.addition_le

end

theorem exists_chain {n : Notation} (hfirst : Rewrites a p written)
    (hrest : ∀ f ∈ rest, ∃ t, Rewrites f.1 f.2 t) (hn : n ∈ Dictionary.looseOperators)
    (hne : rest ≠ []) (hsingle : n.isVariadic = false → rest.length = 1)
    (hkeep : KeepsParentheses (leftPrecedence n) a p)
    (hkeeps : ∀ f ∈ rest, KeepsParentheses (rightPrecedence n) f.1 f.2) :
    ∃ text, Rewrites (.function n.name (a :: rest.map Prod.fst))
      (Expression.chained n p (rest.map Prod.snd)) text := by
  obtain ⟨text, hwrites, hstable⟩ := exists_chain_rewrites hn hne hsingle hrest hkeeps hfirst.stable
  have hstart := hfirst.writes.wrap (leftPrecedence n)
  rw [hkeep.wrapText_eq] at hstart
  have hname : (Expression.chained n p (rest.map Prod.snd)).headName? = some n.name :=
    Expression.headName?_chained (by simpa using hne)
  have hlt := lt_addition_loose hn (a :: rest.map Prod.fst)
  have hlt' := lt_addition_of_loose hn hname
  refine ⟨text, (Writes.chain_iff hn (by simpa using hne) (by simpa using hsingle)).mpr
    (hstart.bind hwrites), hstable, ?_, iff_of_true hlt hlt', nofun⟩
  rw [Expression.isEnclosed_of_lt hlt, Expression.isEnclosed_of_lt hlt']

end Rewrites

/-- By induction on what is read back, with one lemma for each rule. -/
theorem Rereads.exists_rewrites (h : Rereads e p) : ∃ text, Rewrites e p text := by
  induction h with
  | @number m hm negative => exact ⟨_, .ofNumber (hm.write_eq negative) (.double hm negative)⟩
  | @decimal d n hd hexponent hbudget hn =>
    have hwrite : ({} : NumberFormat).write (.decimal d) = d.shown.digits :=
      congrArg String.ofList (NumberFormat.decimal_eq_spelling d)
    exact ⟨_, .ofNumber hwrite (.decimal hd hexponent hbudget hn)⟩
  | @letter c hc =>
    exact ⟨_, .of_le (.letter c) (.letter hc) (Precedence.rank_le _) (Precedence.rank_le _) nofun⟩
  | symbol hn =>
    have hstable := Stable.symbol hn
    exact ⟨_, .of_le hstable.writes hstable (Precedence.rank_le _) (Precedence.rank_le _) nofun⟩
  | call hn _ ih =>
    obtain ⟨text, h⟩ := ih
    exact ⟨_, .same (.elementary hn h.writes) (h.stable.call hn)
      (standardPrecedence_elementary hn _ ▸ Precedence.rank_le _)⟩
  | squareRoot _ ih =>
    obtain ⟨text, h⟩ := ih
    exact ⟨_, .same (.squareRoot h.writes) h.stable.squareRoot (standardPrecedence_sqrt _ ▸ by decide)⟩
  | factorial _ hkeep hnumber ih =>
    obtain ⟨text, h⟩ := ih
    exact ⟨_, h.factorial hkeep hnumber⟩
  | divide _ _ iha ihb =>
    obtain ⟨written, ha⟩ := iha
    obtain ⟨text, hb⟩ := ihb
    exact ⟨_, .same (.divide ha.writes hb.writes) (ha.stable.divide hb.stable)
      (standardPrecedence_divide _ ▸ Precedence.rank_le _)⟩
  | subscript _ _ hkeep hnumber iha ihb =>
    obtain ⟨written, ha⟩ := iha
    obtain ⟨text, hb⟩ := ihb
    exact ⟨_, ha.subscript hb hkeep hnumber⟩
  | power _ _ hkeep hsuper hsuper' iha ihb =>
    obtain ⟨written, ha⟩ := iha
    obtain ⟨text, hb⟩ := ihb
    exact ⟨_, ha.power hb hkeep hsuper hsuper'⟩
  | rootOfHalf _ hnonnegative hhalf ih =>
    obtain ⟨text, h⟩ := ih
    exact ⟨_, .of_le (.rootOfHalf hnonnegative hhalf h.writes) h.stable.squareRoot
      (standardPrecedence_power _ ▸ by decide) (standardPrecedence_sqrt _ ▸ by decide) nofun⟩
  | inverseRoot _ hnonnegative hhalf ih =>
    obtain ⟨text, h⟩ := ih
    exact ⟨_, .of_le (.inverseRoot hnonnegative hhalf h.writes) (Stable.one.divide h.stable.squareRoot)
      (standardPrecedence_power _ ▸ by decide) (standardPrecedence_divide _ ▸ Precedence.rank_le _)
      nofun⟩
  | reciprocal hr _ ih =>
    obtain ⟨text, h⟩ := ih
    exact ⟨_, .reciprocal hr h⟩
  | negate _ hkeep hq ih =>
    obtain ⟨text, h⟩ := ih
    exact ⟨_, h.negate hkeep hq⟩
  | subtract _ _ hkeep iha ihb =>
    obtain ⟨written, ha⟩ := iha
    obtain ⟨text, hb⟩ := ihb
    exact ha.exists_subtract hb hkeep
  | add hne _ _ hp ihfirst ihrest =>
    obtain ⟨written, hfirst⟩ := ihfirst
    exact hfirst.exists_add ihrest hne hp
  | product hsorts _ hnegative hmany ih => exact Rewrites.exists_product hsorts ih hnegative hmany
  | negativeProduct hsorts _ hnegative hwhole hp ih =>
    exact Rewrites.exists_negativeProduct hsorts ih hnegative hwhole hp
  | chain hn hne hsingle _ _ hkeep hkeeps ihfirst ihrest =>
    obtain ⟨written, hfirst⟩ := ihfirst
    exact hfirst.exists_chain ihrest hn hne hsingle hkeep hkeeps

/-! ### Sources -/

/-- What a source is written as after it has been read. -/
def rewritten (source : String) : Except Fault String := do
  let parsed ← parse .standard {} source
  let written ← (Serializer.mk .standard {}).run parsed.expression
  return written.latex

/-- What has been read holds nothing that cannot be written. -/
theorem exists_of_rewritten {source : String} (h : rewritten source = .ok text) :
    ∃ parsed, parse .standard {} source = .ok parsed ∧
      (Serializer.mk .standard {}).serialize parsed.expression = .ok text := by
  unfold rewritten at h
  cases hread : parse .standard {} source with
  | error fault =>
    rw [hread] at h
    cases h
  | ok parsed =>
    rw [hread] at h
    change ((Serializer.mk .standard {}).run parsed.expression >>= fun written =>
      pure written.latex) = .ok text at h
    rw [Serializer.run] at h
    obtain ⟨hplain, -⟩ := Parser.writtenLevels_le_of_parse hread
    have hgated := Serializer.gated_within (s := ⟨.standard, {}⟩) rfl 64 hplain
    by_cases hlevels : parsed.expression.writtenLevels ≤ 64
    · obtain ⟨latex, hlatex⟩ := hgated.1 hlevels
      have hserialize : (Serializer.mk .standard {}).serialize parsed.expression = .ok latex := hlatex
      rw [hserialize] at h
      obtain rfl : latex = text := Except.ok.inj h
      exact ⟨parsed, rfl, hserialize⟩
    · have hserialize : (Serializer.mk .standard {}).serialize parsed.expression = _ := hgated.2 hlevels
      rw [hserialize] at h
      cases h

/-- What is written from some number of levels on is written by default, unless it is too deep. -/
theorem Writes.eq_of_serialize (h : Writes (fun scribe => scribe.serialize e) t)
    (hwritten : (Serializer.mk .standard {}).serialize e = .ok text) : text = t := by
  obtain ⟨depth, hdepth⟩ := eventually_atTop.mp h
  let levels := max depth 64
  have hmany : ((Serializer.mk .standard {}).limited levels).within levels e = .ok text :=
    Serializer.within_limited_of_le rfl hwritten (le_max_right depth 64)
  have heventually : ((Serializer.mk .standard {}).limited levels).within levels e = .ok t :=
    hdepth levels (le_max_left depth 64) _ ⟨rfl, rfl⟩
  exact Except.ok.inj (hmany.symm.trans heventually)

theorem OperandOf.parse_eq (h : OperandOf .loosest e text) :
    ∀ᶠ levels in atTop, parse .standard { maxDepth := levels } text = .ok ⟨e, []⟩ := by
  obtain ⟨P, link, hspells, hbecomes, -⟩ := h.spells
  refine eventually_succ hbecomes.reads fun levels hlevels => ?_
  let env : Env := ⟨text, .standard, { maxDepth := levels + 1 }⟩
  obtain ⟨_, _, ⟨rfl, -⟩, hparse⟩ := (hlevels env ⟨rfl, rfl⟩).exists_parse_eq hspells nofun nofun rfl
    (by rintro _ _ ⟨rfl, -⟩; exact hbecomes.present)
  exact hparse

/-- What is read from some number of levels on is read by default, unless it is too deep. -/
theorem OperandOf.eq_of_parse (h : OperandOf .loosest e text) {parsed : Parsed}
    (hread : parse .standard {} text = .ok parsed) : parsed = ⟨e, []⟩ := by
  obtain ⟨depth, hdepth⟩ := eventually_atTop.mp h.parse_eq
  have hlimit : ({} : ParseOptions).maxDepth ≤ max depth 64 := le_max_right depth 64
  obtain ⟨again, hagain, hmany⟩ | hlow :=
    parse_of_limit_le text Dictionary.hasStandardHooks_standard hlimit
  · obtain rfl := Except.ok.inj (hread.symm.trans hagain)
    exact Except.ok.inj (hmany.symm.trans (hdepth _ (le_max_left depth 64)))
  · rw [hread] at hlow
    cases hlow

/-- Once it has been rewritten, a source with such an expression does not change any more, and it is
read without diagnostics. -/
theorem rewritten_eq_of_rereads {source latex : String} {first : Parsed} {p : Expression}
    (hread : parse .standard {} source = .ok first) (h : Rereads first.expression p)
    (hlatex : rewritten source = .ok latex) (hagain : rewritten latex = .ok again) :
    parse .standard {} latex = .ok ⟨p, []⟩ ∧ again = latex := by
  obtain ⟨text, hrewrites⟩ := h.exists_rewrites
  obtain ⟨parsed, hparsed, hwritten⟩ := exists_of_rewritten hlatex
  obtain rfl := Except.ok.inj (hread.symm.trans hparsed)
  obtain rfl := hrewrites.writes.eq_of_serialize hwritten
  obtain ⟨parsed, hparsed, hwritten⟩ := exists_of_rewritten hagain
  obtain rfl := hrewrites.stable.form.whole.eq_of_parse hparsed
  exact ⟨hparsed, hrewrites.stable.writes.eq_of_serialize hwritten⟩

/-- The reciprocal in a difference is written as a fraction, and stays one. -/
theorem rewritten_eq_of_rereads_reciprocal :
    ∃ first p, parse .standard {} "x-ay^\x7b-1\x7d" = .ok first ∧ Rereads first.expression p ∧
      rewritten "x-ay^\x7b-1\x7d" = .ok "x-\\frac\x7ba\x7d\x7by\x7d" ∧
      rewritten "x-\\frac\x7ba\x7d\x7by\x7d" = .ok "x-\\frac\x7ba\x7d\x7by\x7d" ∧
      parse .standard {} "x-\\frac\x7ba\x7d\x7by\x7d" = .ok ⟨p, []⟩ := by
  have hlatex : rewritten "x-ay^\x7b-1\x7d" = .ok "x-\\frac\x7ba\x7d\x7by\x7d" := by decide +kernel
  have hagain : rewritten "x-\\frac\x7ba\x7d\x7by\x7d" = .ok "x-\\frac\x7ba\x7d\x7by\x7d" := by
    decide +kernel
  have ha : IsSymbolLetter 'a' := by decide
  have hx : IsSymbolLetter 'x' := by decide
  have hy : IsSymbolLetter 'y' := by decide
  let reciprocal := Expression.function "Power" [.symbol "y", .number (.machine (.finite true .one))]
  have hsource : SumOf
      (.function "Subtract" [.symbol "x", .function "Multiply" [.symbol "a", reciprocal]])
      "x-ay^\x7b-1\x7d" := by
    have hexponent := (Stable.double Magnitude.isPlain_one true).form.whole
    have hfactor : UnitOf reciprocal
        ("y" ++ "^" ++ Text.braced ("-" ++ (Magnitude.one.shown false).digits)) :=
      .power (.letter hy) hexponent
    have hfirst : FactorsOf (.symbol "a") [] "a" := (UnitOf.letter ha).raised.factors rfl nofun
    have hminuend := (Stable.letter hx).form.sum_term.1 (Precedence.rank_le _)
    have hdifference := hminuend.minus (hfirst.besideUnit hfactor).term
    rw [Magnitude.digits_one] at hdifference
    exact hdifference
  obtain ⟨first, hparse, -⟩ := exists_of_rewritten hlatex
  obtain rfl := (hsource.operand (Nat.zero_le _) (addition_le_of_sum (.inr rfl))).eq_of_parse hparse
  have hkeeps (c : Char) : KeepsFactors [(.symbol (.singleton c), .symbol (.singleton c))] :=
    ⟨List.forall_mem_singleton.mpr ⟨Iff.rfl, rfl, rfl, rfl, nofun⟩, nofun⟩
  have hsorts : Product.SortsInto [.symbol "a", reciprocal] [(.symbol "a", .symbol "a")]
      [(.symbol "y", .symbol "y")] := by
    refine ⟨rfl, rfl, hkeeps 'a', hkeeps 'y', ?_⟩
    rintro - a (h | h) <;> cases h <;> exact Precedence.rank_le _
  have hproduct := Rereads.product hsorts
    (List.forall_mem_cons.mpr ⟨.letter ha, List.forall_mem_singleton.mpr (.letter hy)⟩) rfl nofun
  have hrereads := Rereads.subtract (.letter hx) hproduct (by decide +kernel)
  exact ⟨_, _, hparse, hrereads, hlatex, hagain,
    (rewritten_eq_of_rereads hparse hrereads hlatex hagain).1⟩

/-- A power with a negative exponent is written as a fraction. As the base of another power it is in
parentheses, and read as a fraction it is not. -/
theorem not_rewritten_eq : ¬∀ source latex again, rewritten source = .ok latex →
    rewritten latex = .ok again → again = latex := by
  intro h
  have hlatex : rewritten "(x^\x7b-1\x7d)^2" = .ok "(\\frac\x7b1\x7d\x7bx\x7d)^\x7b2\x7d" := by
    decide +kernel
  have hagain : rewritten "(\\frac\x7b1\x7d\x7bx\x7d)^\x7b2\x7d" =
      .ok "\\frac\x7b1\x7d\x7bx\x7d^\x7b2\x7d" := by
    decide +kernel
  exact absurd (h _ _ _ hlatex hagain) (by decide)

end TexFormula
