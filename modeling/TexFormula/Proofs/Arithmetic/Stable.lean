import TexFormula.Proofs.Arithmetic.TextForms
import TexFormula.Proofs.OperatorTable.RoundTrip

/-!
# Texts that are written again

`Stable p text` holds if the text is read as the expression `p`, and written for it. How the text can
be put together with others depends on the kind of the expression (`Form`): there is one lemma for each
place at which an expression can stand.
-/

open Filter TexFormula.Parser

namespace TexFormula

open Expression (Opposite)

variable {a b e p q : Expression} {es others : List Expression} {text t written name : String}
  {n : Number} {d : Decimal} {loosest : Precedence}

/-! ### Precedences -/

theorem isNumber_eq_false_of_lt (h : standardPrecedence e < .atomic) : e.isNumber = false := by
  cases e with
  | number n => exact absurd h (Nat.lt_irrefl _)
  | _ => rfl

theorem headName?_ne_add (h : standardPrecedence e ≠ .addition) : e.headName? ≠ some "Add" :=
  fun hname => h (standardPrecedence_of_headName? hname)

theorem headName?_ne_multiply (h : standardPrecedence e ≠ .multiplication) :
    e.headName? ≠ some "Multiply" :=
  fun hname => h (standardPrecedence_of_headName? hname)

theorem Precedence.ne_of_lt {p q : Precedence} (h : p < q) : q ≠ p := by
  rintro rfl
  exact Nat.lt_irrefl _ h

namespace Expression

/-- What is no sum, no product and no number has no sign of its own. -/
theorem isNegated_eq_false (hsum : standardPrecedence e ≠ .addition)
    (hproduct : standardPrecedence e ≠ .multiplication) (hnumber : e.isNumber = false) :
    e.isNegated = false := by
  cases e with
  | number n => cases hnumber
  | apply head arguments =>
    cases head with
    | symbol name =>
      have hnegate : name ≠ "Negate" := by
        rintro rfl
        exact hsum (standardPrecedence_negate arguments)
      have hmultiply : name ≠ "Multiply" := by
        rintro rfl
        exact hproduct (standardPrecedence_multiply arguments)
      simp [isNegated, hnegate, hmultiply]
    | _ => rfl
  | _ => rfl

/-- Among the terms of a sum, the expression is in parentheses. -/
def isEnclosed (e : Expression) : Bool :=
  !Writers.isNegativeTerm e && decide (standardPrecedence e < Precedence.addition.tighter)

theorem isEnclosed_of_le (h : Precedence.addition.tighter ≤ standardPrecedence e) :
    e.isEnclosed = false := by
  have hnot : ¬standardPrecedence e < Precedence.addition.tighter := Nat.not_lt_of_le h
  rw [isEnclosed, Bool.and_eq_false_iff]
  exact .inr (decide_eq_false hnot)

theorem lt_of_isEnclosed (h : e.isEnclosed = true) :
    standardPrecedence e < Precedence.addition.tighter :=
  of_decide_eq_true (Bool.and_eq_true _ _ |>.mp h).2

theorem isEnclosed_of_lt (h : standardPrecedence e < .addition) : e.isEnclosed = true := by
  have hnegate : e.headName? ≠ some "Negate" := by
    intro hname
    rw [standardPrecedence_of_headName? hname, standardPrecedence_negate] at h
    exact absurd h (Nat.lt_irrefl _)
  have hsign : Writers.isNegativeTerm e = false := by
    cases e with
    | number n => exact absurd h (Nat.not_lt_of_le (Precedence.rank_le _))
    | _ => simp [Writers.isNegativeTerm, hnegate, number?]
  rw [isEnclosed, hsign]
  exact decide_eq_true (Nat.lt_trans h (by decide))

theorem Opposite.addition_le (h : Opposite q p) : .addition ≤ standardPrecedence p := by
  cases h with
  | number => exact Precedence.rank_le _
  | product => exact standardPrecedence_multiply _ ▸ by decide
  | negate => exact Nat.le_of_eq (congrArg _ (standardPrecedence_negate _).symm)

theorem Opposite.isEnclosed (h : Opposite q p) : p.isEnclosed = false := by
  cases h with
  | number => exact isEnclosed_of_le (Precedence.rank_le _)
  | product => exact isEnclosed_of_le (standardPrecedence_multiply _ ▸ by decide)
  | negate => rfl

/-- A text behind a minus sign is read as one expression only. -/
theorem Opposite.unique (h : Opposite a p) (h' : Opposite b p) : a = b := by
  generalize hp : p = p' at h'
  cases h with
  | number =>
    cases h' with
    | number => rw [Number.neg_involutive.injective (number.inj hp)]
    | product => cases hp
    | negate => cases hp
  | product =>
    cases h' with
    | number => cases hp
    | product =>
      obtain ⟨hn, rfl⟩ := List.cons.inj (apply.inj hp).2
      rw [Number.neg_involutive.injective (number.inj hn)]
    | negate => exact absurd (symbol.inj (apply.inj hp).1) (by decide)
  | negate =>
    cases h' with
    | number => cases hp
    | product => exact absurd (symbol.inj (apply.inj hp).1) (by decide)
    | negate => exact (List.cons.inj (apply.inj hp).2).1

end Expression

/-! ### Forms -/

/-- How the text of an expression is put together, by the kind of the expression. -/
inductive Form : Expression → String → Prop
  | number {n : Number} {d : Decimal} (hn : n.HasDigits d) : Form (.number n) d.digits
  | unit {p : Expression} {text : String} (hp : .power ≤ standardPrecedence p)
      (hnumber : p.isNumber = false) (h : UnitOf p text) : Form p text
  /-- A power of the digits of a number. -/
  | raised {p : Expression} {text : String} (hp : standardPrecedence p = .power)
      (hdigit : Text.startsWithDigit text = true) (h : RaisedOf p text) : Form p text
  | product {first second : Expression} {others : List Expression} {text : String}
      (hsign : (Expression.function "Multiply" (first :: second :: others)).isNegated = false)
      (h : FactorsOf first (second :: others) text) :
      Form (.function "Multiply" (first :: second :: others)) text
  | negated {q p : Expression} {text : String} (hq : Opposite q p) (h : TermOf q text)
      (hwrites : Writes (fun scribe => scribe.wrap q Precedence.addition.tighter) text) :
      Form p ("-" ++ text)
  | sum {name : String} {first : Expression} {rest : List Expression} {text : String}
      (hname : name = "Add" ∨ name = "Subtract") (h : SumOf (.function name (first :: rest)) text) :
      Form (.function name (first :: rest)) text
  /-- A relation, or a chain of one of logic. -/
  | loose {n : Notation} {first second : Expression} {rest : List Expression} {text : String}
      (hn : n ∈ Dictionary.looseOperators)
      (h : OperandOf n.precedence (.function n.name (first :: second :: rest)) text) :
      Form (.function n.name (first :: second :: rest)) text

/-- The text of a term of a sum. -/
def termText (e : Expression) (text : String) : String :=
  if e.isEnclosed then Text.parenthesized text else text

theorem UnitOf.startsWith_eq_false (h : UnitOf e text) : Text.startsWith text '-' = false :=
  h.raised.startsWith_eq_false

theorem Decimal.IsPlain.carriesPower_eq_false (hd : d.IsPlain) :
    Writers.carriesPower {} d.digits = false := by
  refine Writers.carriesPower_eq_false (fun h => ?_) fun h => ?_ <;>
    rcases hd.mem_digits h with h | h <;> exact absurd h (by decide)

theorem RaisedOf.term (h : RaisedOf e text) (hp : .multiplication < standardPrecedence e)
    (hnumber : e.isNumber = false) : TermOf e text :=
  (h.factors hnumber (headName?_ne_multiply (Precedence.ne_of_lt hp))).term

namespace Form

/-- What is not in parentheses among terms is a term, and what binds as tightly as a sum is one. -/
theorem sum_term (h : Form p text) :
    (.addition ≤ standardPrecedence p → SumOf p text) ∧ (p.isEnclosed = false → TermOf p text) := by
  have hterm {p : Expression} {text : String} (h : TermOf p text) (hp : p.headName? ≠ some "Add") :
      (.addition ≤ standardPrecedence p → SumOf p text) ∧ (p.isEnclosed = false → TermOf p text) :=
    ⟨fun _ => h.sum hp, fun _ => h⟩
  cases h with
  | number hn => exact hterm (FactorsOf.digits hn).term nofun
  | unit hp hnumber h =>
    have hlow : .multiplication < standardPrecedence p := Nat.lt_of_lt_of_le (by decide) hp
    have hadd : .addition < standardPrecedence p := Nat.lt_trans (by decide) hlow
    exact hterm (h.raised.term hlow hnumber) (headName?_ne_add (Precedence.ne_of_lt hadd))
  | raised hp _ h =>
    have hnumber : p.isNumber = false := isNumber_eq_false_of_lt (hp ▸ by decide)
    exact hterm (h.term (hp ▸ by decide) hnumber) (headName?_ne_add (hp ▸ by decide))
  | product hsign h =>
    exact hterm h.term (headName?_ne_add (standardPrecedence_multiply (_ :: _) ▸ by decide))
  | negated hq h =>
    refine hterm (h.negated hq) ?_
    cases hq with
    | number => exact nofun
    | product => exact headName?_ne_add (standardPrecedence_multiply (_ :: _) ▸ by decide)
    | negate => simp [Expression.headName?, Expression.function, Expression.symbol?]
  | sum hname h =>
    refine ⟨fun _ => h, fun henclosed => ?_⟩
    rcases hname with rfl | rfl <;> cases henclosed
  | @loose n first second rest _ hn =>
    have hlt := lt_addition_loose hn (first :: second :: rest)
    refine ⟨fun hle => absurd hlt (Nat.not_lt_of_le hle), fun henclosed => ?_⟩
    rw [Expression.isEnclosed_of_lt hlt] at henclosed
    cases henclosed

/-- There is nothing between sums and products, and below them there are relations and logic. -/
theorem precedence_cases (h : Form p text) : standardPrecedence p = .addition ∨
    .multiplication ≤ standardPrecedence p ∨ ∃ n ∈ Dictionary.looseOperators,
      (∃ first second rest, p = .function n.name (first :: second :: rest)) ∧
        OperandOf n.precedence p text := by
  cases h with
  | number => exact .inr (.inl (Precedence.rank_le _))
  | unit hp => exact .inr (.inl (Nat.le_trans (by decide) hp))
  | raised hp => exact .inr (.inl (hp ▸ by decide))
  | product => exact .inr (.inl (Nat.le_of_eq (congrArg _ (standardPrecedence_multiply _).symm)))
  | negated hq =>
    cases hq with
    | number => exact .inr (.inl (Precedence.rank_le _))
    | product => exact .inr (.inl (Nat.le_of_eq (congrArg _ (standardPrecedence_multiply _).symm)))
    | negate => exact .inl (standardPrecedence_negate _)
  | sum hname =>
    rcases hname with rfl | rfl
    · exact .inl (standardPrecedence_add _)
    · exact .inl (standardPrecedence_subtract _)
  | loose hn h => exact .inr (.inr ⟨_, hn, ⟨_, _, _, rfl⟩, h⟩)

theorem sequence_lt (h : Form p text) : .sequence < standardPrecedence p := by
  rcases h.precedence_cases with hp | hp | ⟨n, hn, ⟨first, second, rest, rfl⟩, -⟩
  · exact hp ▸ by decide
  · exact Nat.lt_of_lt_of_le (by decide) hp
  · exact sequence_lt_of_loose hn rfl

/-- Where it needs no parentheses. -/
theorem unwrapped (h : Form p text) (hloosest : loosest ≤ .addition)
    (hp : loosest ≤ standardPrecedence p) : OperandOf loosest p text := by
  have hsum (hle : .addition ≤ standardPrecedence p) : OperandOf loosest p text :=
    (h.sum_term.1 hle).operand hloosest hle
  rcases h.precedence_cases with hadd | hmultiply | ⟨n, hn, ⟨first, second, rest, rfl⟩, hoperand⟩
  · exact hsum (hadd ▸ Nat.le_refl _)
  · exact hsum (Nat.le_trans (by decide) hmultiply)
  · have hprecedence := standardPrecedence_loose (e := .function n.name (first :: second :: rest)) hn rfl
    exact hoperand.mono (hprecedence ▸ hp) (hprecedence ▸ Nat.le_refl _)

/-- In a group by itself. -/
theorem whole (h : Form p text) : OperandOf .loosest p text :=
  h.unwrapped (Nat.zero_le _) (Nat.zero_le _)

theorem parenthesized (h : Form p text) : UnitOf p (Text.parenthesized text) :=
  h.whole.parenthesized

theorem operand (h : Form p text) (hloosest : loosest ≤ .addition) :
    OperandOf loosest p (wrapText p loosest text) := by
  by_cases hp : standardPrecedence p < loosest
  · rw [wrapText_of_lt hp]
    exact h.parenthesized.operand (Nat.le_trans hloosest (by decide)) hp
  · rw [wrapText_of_le (Nat.le_of_not_lt hp)]
    exact h.unwrapped hloosest (Nat.le_of_not_lt hp)

theorem parenthesized_term (h : Form p text)
    (hp : standardPrecedence p < Precedence.addition.tighter) : TermOf p (Text.parenthesized text) := by
  have hsingle : standardPrecedence p ≠ .multiplication := by
    intro heq
    exact absurd (heq ▸ hp) (by decide)
  have hnumber : p.isNumber = false := isNumber_eq_false_of_lt (Nat.lt_trans hp (by decide))
  exact (h.parenthesized.raised.factors hnumber (headName?_ne_multiply hsingle)).term

/-- The first term of a sum. -/
theorem summand (h : Form p text) : SumOf p (wrapText p .addition text) := by
  by_cases hp : standardPrecedence p < .addition
  · rw [wrapText_of_lt hp]
    have hterm := h.parenthesized_term (Nat.lt_trans hp (by decide))
    exact hterm.sum (headName?_ne_add (Precedence.ne_of_lt hp).symm)
  · rw [wrapText_of_le (Nat.le_of_not_lt hp)]
    exact h.sum_term.1 (Nat.le_of_not_lt hp)

/-- A sum by its notation has terms. -/
theorem exists_of_add (h : Form p text) (hname : p.headName? = some "Add") :
    ∃ first rest, p = .function "Add" (first :: rest) := by
  have hp : standardPrecedence p = .addition :=
    (standardPrecedence_of_headName? hname).trans (standardPrecedence_add [])
  cases h with
  | number => cases hname
  | unit hle => exact absurd (hp ▸ hle) (by decide)
  | raised hpower => exact absurd (hp ▸ hpower) (by decide)
  | product => exact absurd (Option.some.inj hname) (by decide)
  | negated hq =>
    cases hq with
    | number => cases hname
    | product => exact absurd (Option.some.inj hname) (by decide)
    | negate => exact absurd (Option.some.inj hname) (by decide)
  | @sum name first rest =>
    obtain rfl : name = "Add" := Option.some.inj hname
    exact ⟨first, rest, rfl⟩
  | @loose n first second rest _ hn =>
    have hlt := lt_addition_loose hn (first :: second :: rest)
    exact absurd hp (Precedence.ne_of_lt hlt).symm

/-- A term of a sum that brings no sign. -/
theorem addend (h : Form p text) (hsign : p.isNegated = false) :
    TermOf p (termText p text) ∧ Text.startsWith (termText p text) '-' = false := by
  unfold termText
  split
  · next henclosed =>
    exact ⟨h.parenthesized_term (Expression.lt_of_isEnclosed henclosed),
      h.parenthesized.startsWith_eq_false⟩
  · next henclosed =>
    refine ⟨h.sum_term.2 (Bool.eq_false_iff.mpr henclosed), ?_⟩
    cases h with
    | number hn => exact (FactorsOf.digits hn).startsWith_eq_false
    | unit _ _ h => exact h.startsWith_eq_false
    | raised _ _ h => exact h.startsWith_eq_false
    | product _ h => exact h.startsWith_eq_false
    | negated hq =>
      rw [hq.isNegated] at hsign
      cases hsign
    | sum hname => rcases hname with rfl | rfl <;> exact absurd rfl henclosed
    | @loose n first second rest _ hn =>
      have hlt := lt_addition_loose hn (first :: second :: rest)
      exact absurd (Expression.isEnclosed_of_lt hlt) henclosed

/-- Behind a minus sign. -/
theorem subtrahend (h : Form p text) : TermOf p (wrapText p Precedence.addition.tighter text) := by
  unfold wrapText
  split
  · next hlt => exact h.parenthesized_term hlt
  · next hle => exact h.sum_term.2 (Expression.isEnclosed_of_le (Nat.le_of_not_lt hle))

theorem startsWith_minus (text : String) : Text.startsWith ("-" ++ text) '-' = true := by
  rw [Text.startsWith, String.toList_append]
  rfl

/-- Where it must bind more tightly than a power, anything but a number is a unit. -/
theorem wrapped (h : Form p text) (hnumber : p.isNumber = false) (hloosest : .power < loosest) :
    UnitOf p (wrapText p loosest text) := by
  by_cases hp : standardPrecedence p < loosest
  · rw [wrapText_of_lt hp]
    exact h.parenthesized
  · have htight : .power < standardPrecedence p := Nat.lt_of_lt_of_le hloosest (Nat.le_of_not_lt hp)
    rw [wrapText, if_neg hp]
    cases h with
    | number => cases hnumber
    | unit _ _ h => exact h
    | raised hp => exact absurd (hp ▸ htight) (by decide)
    | product => exact absurd (standardPrecedence_multiply _ ▸ htight) (by decide)
    | negated hq =>
      cases hq with
      | number => cases hnumber
      | product => exact absurd (standardPrecedence_multiply _ ▸ htight) (by decide)
      | negate => exact absurd (standardPrecedence_negate _ ▸ htight) (by decide)
    | sum hname =>
      rcases hname with rfl | rfl
      · exact absurd (standardPrecedence_add _ ▸ htight) (by decide)
      · exact absurd (standardPrecedence_subtract _ ▸ htight) (by decide)
    | @loose n first second rest _ hn =>
      have hlt := lt_addition_loose hn (first :: second :: rest)
      exact absurd (Nat.lt_trans htight hlt) (by decide)

/-- The base of an index, or of a power of anything but a number. -/
theorem script (h : Form p text) (hnumber : p.isNumber = false) : UnitOf p (scriptText p text) := by
  have hunit := h.wrapped hnumber (show .power < Precedence.power.tighter by decide)
  rw [scriptText, hunit.startsWith_eq_false, hnumber]
  exact hunit

/-- The base of a power. -/
theorem base (h : Form p text) : UnitOf p (scriptText p text) ∨
    ∃ n d, Number.HasDigits n d ∧ p = .number n ∧ scriptText p text = d.digits := by
  cases hnumber : p.isNumber with
  | false => exact .inl (h.script hnumber)
  | true =>
    obtain ⟨n, rfl⟩ := Expression.exists_of_isNumber hnumber
    cases h with
    | number hn =>
      refine .inr ⟨_, _, hn, rfl, ?_⟩
      rw [scriptText, wrapText_number, (FactorsOf.digits hn).startsWith_eq_false,
        hn.carriesPower_eq_false, Bool.and_false]
      rfl
    | unit _ hnot => cases hnot
    | raised hp => cases hp
    | @negated q p t hq h hwrites =>
      have hscript : scriptText (.number n) ("-" ++ t) = Text.parenthesized ("-" ++ t) := by
        rw [scriptText, wrapText_number, startsWith_minus]
        rfl
      exact .inl (hscript ▸ (Form.negated hq h hwrites).parenthesized)

/-- It is one argument. -/
theorem sequenceItems_eq (h : Form p text) : p.sequenceItems = [p] := by
  unfold Expression.sequenceItems
  split
  · obtain ⟨P, link, -, hbecomes, -⟩ := h.whole.spells
    cases hbecomes.present
  · next arguments =>
    have hsequence : standardPrecedence (.function "Sequence" []) = .sequence := by rfl
    have hprecedence : standardPrecedence (.function "Sequence" arguments) = .sequence :=
      (standardPrecedence_of_headName? rfl).trans hsequence
    exact absurd (hprecedence ▸ h.sequence_lt) (by decide)
  · rfl

/-- A factor of a product. -/
theorem factor (h : Form p text) (hsign : Product.negativeNumber? p = none)
    (hsingle : p.headName? ≠ some "Multiply") :
    (∃ n d, Number.HasDigits n d ∧ p = .number n ∧
      wrapText p .multiplication text = d.digits) ∨
      (p.isNumber = false ∧ RaisedOf p (wrapText p .multiplication text) ∧
        (Text.startsWithDigit (wrapText p .multiplication text) = false →
          UnitOf p (wrapText p .multiplication text))) := by
  have hwrap (hp : .multiplication ≤ standardPrecedence p) :
      wrapText p .multiplication text = text :=
    if_neg (Nat.not_lt_of_le hp)
  by_cases hp : standardPrecedence p < .multiplication
  · have hnumber : p.isNumber = false := isNumber_eq_false_of_lt (Nat.lt_trans hp (by decide))
    rw [wrapText, if_pos hp]
    exact .inr ⟨hnumber, h.parenthesized.raised, fun _ => h.parenthesized⟩
  · rw [hwrap (Nat.le_of_not_lt hp)]
    cases h with
    | number hn => exact .inl ⟨_, _, hn, rfl, rfl⟩
    | unit _ hnumber h => exact .inr ⟨hnumber, h.raised, fun _ => h⟩
    | raised hpower hdigit h =>
      refine .inr ⟨isNumber_eq_false_of_lt (hpower ▸ by decide), h, fun hnot => ?_⟩
      rw [hdigit] at hnot
      cases hnot
    | product => exact absurd rfl hsingle
    | negated hq =>
      cases hq with
      | number _ hneg =>
        simp [Product.negativeNumber?, Expression.number?, hneg] at hsign
      | product => exact absurd rfl hsingle
      | negate => exact absurd (standardPrecedence_negate _ ▸ by decide) hp
    | sum hname =>
      rcases hname with rfl | rfl
      · exact absurd (standardPrecedence_add _ ▸ by decide) hp
      · exact absurd (standardPrecedence_subtract _ ▸ by decide) hp
    | @loose n first second rest _ hn =>
      exact absurd (Nat.lt_trans (lt_addition_loose hn (first :: second :: rest)) (by decide)) hp

end Form

/-! ### Elementary functions -/

theorem Writes.elementary {n : Notation} (hn : n ∈ Dictionary.functions)
    (h : Writes (fun scribe => scribe.serialize a) text) :
    Writes (fun scribe => scribe.serialize (.function n.name [a]))
      (n.glyph ++ Text.parenthesized text) := by
  obtain ⟨hkind, harity, command, hn⟩ := Dictionary.exists_hasCommand_function hn
  exact .call hn.lookup hn.writer hkind (by rw [harity]; rfl) h

theorem standardPrecedence_elementary {n : Notation} (hn : n ∈ Dictionary.functions)
    (es : List Expression) : standardPrecedence (.function n.name es) = .atomic := by
  obtain ⟨hkind, -, command, hn⟩ := Dictionary.exists_hasCommand_function hn
  rw [standardPrecedence_function hn.lookup, hkind]

/-! ### Stable texts -/

/-- The text is read as the expression, which is written as the text. It is no reciprocal. -/
structure Stable (p : Expression) (text : String) : Prop where
  writes : Writes (fun scribe => scribe.serialize p) text
  form : Form p text
  whole : Product.reciprocal? p = none

namespace Stable

theorem number (hn : n.HasDigits d) : Stable (.number n) d.digits := by
  have hwrites := Writes.ofNumber n
  rw [hn.write_eq] at hwrites
  exact ⟨hwrites, .number hn, rfl⟩

theorem negativeNumber (hn : n.HasDigits d) (hneg : n.neg.isNegative = true) :
    Stable (.number n.neg) ("-" ++ d.digits) := by
  have hwrites := Writes.ofNumber n.neg
  rw [hn.write_neg hneg] at hwrites
  exact ⟨hwrites, .negated (.number hn.nonnegative hneg) (FactorsOf.digits hn).term
    ((number hn).writes.wrap _), rfl⟩

theorem letter {c : Char} (hc : IsSymbolLetter c) :
    Stable (.symbol (String.singleton c)) (String.singleton c) :=
  ⟨.letter c, .unit (Precedence.rank_le _) rfl (.letter hc), rfl⟩

theorem divide (ha : Stable a written) (hb : Stable b text) :
    Stable (.function "Divide" [a, b]) (Writers.fraction written text) := by
  refine ⟨.divide ha.writes hb.writes, .unit ?_ rfl (.fraction ha.form.whole hb.form.whole), rfl⟩
  exact standardPrecedence_divide [a, b] ▸ by decide

theorem power (ha : Stable a written) (hb : Stable b text) (hsuper : IsSuperscript b) :
    Stable (.function "Power" [a, b]) (scriptText a written ++ "^" ++ Text.braced text) := by
  have hprecedence := standardPrecedence_power [a, b]
  refine ⟨.power ha.writes hb.writes hsuper, ?_, ?_⟩
  · rcases ha.form.base with hunit | ⟨n, d, hn, rfl, htext⟩
    · exact .unit (hprecedence ▸ Nat.le_refl _) rfl (.power hunit hb.form.whole)
    · rw [htext]
      refine .raised hprecedence ?_ (.number hn hb.form.whole)
      obtain ⟨c, hc, hdigit⟩ := hn.exists_head?_digits
      have hhead := Text.exists_head?_append (Text.exists_head?_append hc "^") (Text.braced text)
      rw [Text.startsWithDigit, hhead]
      exact hdigit
  · rw [Expression.function, Product.reciprocal?, hsuper.nonnegative]
    rfl

/-- A letter that has a command. -/
theorem symbol {n : Notation} (hn : n ∈ Dictionary.letters) : Stable (.symbol n.name) n.glyph := by
  obtain ⟨hkind, command, h⟩ := Dictionary.exists_hasCommand_letter hn
  exact ⟨.symbol h.lookup hkind, .unit (Precedence.rank_le _) rfl (.symbol h hkind), rfl⟩

theorem squareRoot (ha : Stable a text) :
    Stable (.function "Sqrt" [a]) ("\\sqrt" ++ Text.braced text) :=
  ⟨.squareRoot ha.writes, .unit (standardPrecedence_sqrt _ ▸ by decide) rfl
    (.squareRoot ha.form.whole), rfl⟩

/-- An elementary function of one argument. -/
theorem call {n : Notation} (hn : n ∈ Dictionary.functions) (ha : Stable a text) :
    Stable (.function n.name [a]) (n.glyph ++ Text.parenthesized text) := by
  obtain ⟨hkind, -, command, h⟩ := Dictionary.exists_hasCommand_function hn
  have hunit := UnitOf.call h hkind ha.form.whole ha.form.sequenceItems_eq
  refine ⟨.elementary hn ha.writes, .unit ?_ rfl hunit, ?_⟩
  · rw [standardPrecedence_elementary hn]
    decide
  · refine Option.eq_none_iff_forall_ne_some.mpr fun r hr => ?_
    obtain ⟨base, m, heq, -⟩ := Product.exists_of_reciprocal? hr
    cases (Expression.apply.inj heq).2

theorem factorial (ha : Stable a text) (hnumber : a.isNumber = false) :
    Stable (.function "Factorial" [a]) (wrapText a .trailing text ++ "!") :=
  ⟨.factorial (ha.writes.wrap _), .unit (standardPrecedence_factorial _ ▸ by decide) rfl
    (ha.form.wrapped hnumber (by decide)).factorial, rfl⟩

theorem subscript (ha : Stable a written) (hb : Stable b text) (hnumber : a.isNumber = false) :
    Stable (.function "Subscript" [a, b]) (scriptText a written ++ "_" ++ Text.braced text) :=
  ⟨.subscript ha.writes hb.writes, .unit (standardPrecedence_subscript [a, b] ▸ Nat.le_refl _) rfl
    ((ha.form.script hnumber).subscript hb.form.whole), rfl⟩

theorem subtract (ha : Stable a written) (hb : TermOf b text)
    (hwrites : Writes (fun scribe => scribe.wrap b Precedence.addition.tighter) text) :
    Stable (.function "Subtract" [a, b]) (wrapText a .addition written ++ "-" ++ text) :=
  ⟨.subtract (ha.writes.wrap _) hwrites, .sum (.inr rfl) (ha.form.summand.minus hb), rfl⟩

end Stable

theorem Writes.addTerm (h : Writes (fun scribe => scribe.serialize e) text) (written : String) :
    Writes (fun scribe => Writers.addTerm scribe written e)
      (if Text.startsWith (termText e text) '-' then written ++ termText e text
        else written ++ "+" ++ termText e text) := by
  unfold Writers.addTerm termText Expression.isEnclosed
  cases hnegative : Writers.isNegativeTerm e with
  | true => exact h.bind (.pure _)
  | false =>
    have hwrap : wrapText e Precedence.addition.tighter text =
        if !false && decide (standardPrecedence e < Precedence.addition.tighter) then
          Text.parenthesized text else text := by
      simp only [wrapText, Bool.not_false, Bool.true_and, decide_eq_true_eq]
    exact hwrap ▸ (h.wrap _).bind (.pure _)

/-- One more term makes a sum longer. Behind all else, it is the second term of a sum. -/
theorem Stable.addTerm (ha : Stable a written)
    (hterm : Writes (fun scribe => Writers.addTerm scribe (wrapText a .addition written) b) text)
    (hsum : SumOf (extend "Add" (a.headName? == some "Add") a b) text) :
    Stable (extend "Add" (a.headName? == some "Add") a b) text := by
  cases hadd : a.headName? == some "Add" with
  | true =>
    obtain ⟨first, rest, rfl⟩ := ha.form.exists_of_add (eq_of_beq hadd)
    rw [wrapText_of_le (standardPrecedence_add _ ▸ Nat.le_refl _)] at hterm
    have hlonger : Writes (fun scribe => Writers.sum scribe (first :: rest) >>=
        fun written => Writers.addTerm scribe written b) text :=
      (Writes.of_hook lookup_add rfl ha.writes).bind hterm
    have hwrites : Writes (fun scribe => Writers.sum scribe (first :: (rest ++ [b]))) text := by
      refine hlonger.congr fun scribe _ => ?_
      simp [Writers.sum]
    exact ⟨.hook lookup_add rfl hwrites, .sum (.inl rfl) hsum, rfl⟩
  | false =>
    rw [hadd] at hsum
    have hboth : Writes (fun scribe => scribe.wrap a .addition >>=
        fun written => Writers.addTerm scribe written b) text :=
      (ha.writes.wrap .addition).bind hterm
    have hwrites : Writes (fun scribe => Writers.sum scribe [a, b]) text := by
      refine hboth.congr fun scribe _ => ?_
      simp [Writers.sum]
    exact ⟨.hook lookup_add rfl hwrites, .sum (.inl rfl) hsum, rfl⟩

/-! ### Relations and logic -/

namespace Serializer

/-- Writes one more operand behind the first one of a chain. -/
def addNext (scribe : Scribe) (n : Notation) (written : String) (operand : Expression) :
    Except WriteFault String := do
  let text ← scribe.wrap operand (rightPrecedence n)
  return Text.join (Text.join written n.glyph) text

variable {scribe : Scribe} {n : Notation}

/-- By induction on the operands: behind the first one, their places do not count. -/
theorem foldlM_addOperand (hassociativity : n.associativity ≠ .right) (operands : List Expression)
    (i last : Nat) (written : String) :
    (operands.zipIdx (i + 1)).foldlM (addOperand scribe n last) written =
      operands.foldlM (addNext scribe n) written := by
  induction operands generalizing i written with
  | nil => rfl
  | cons a operands ih =>
    have hoperand : addOperand scribe n last written (a, i + 1) = addNext scribe n written a := by
      unfold addOperand addNext
      rw [operandPrecedence_succ fun h => absurd h hassociativity]
      rfl
    rw [List.zipIdx_cons, List.foldlM_cons, List.foldlM_cons, hoperand]
    exact bind_congr fun written => ih (i + 1) written

theorem chain_cons (hoperator : n.isInfix = true) (hassociativity : n.associativity ≠ .right)
    (first : Expression) {rest : List Expression} (hne : rest ≠ []) :
    chain scribe n (first :: rest) =
      scribe.wrap first (leftPrecedence n) >>= fun text => rest.foldlM (addNext scribe n) text := by
  have hlast : rest.length ≠ 0 := fun h => hne (List.eq_nil_of_length_eq_zero h)
  have hfirst : addOperand scribe n rest.length "" (first, 0) =
      scribe.wrap first (leftPrecedence n) := by
    unfold addOperand
    rw [operandPrecedence_zero hoperator hlast]
    simp only [if_pos, Text.join_empty_left]
    exact bind_pure _
  unfold chain
  rw [List.zipIdx_cons, List.foldlM_cons, List.length_cons, Nat.add_sub_cancel, hfirst]
  exact bind_congr fun text => foldlM_addOperand hassociativity rest 0 _ text

end Serializer

theorem Writes.chain_iff {n : Notation} (hn : n ∈ Dictionary.looseOperators)
    (hne : others ≠ []) (hsingle : n.isVariadic = false → others.length = 1) :
    Writes (fun scribe => scribe.serialize (.function n.name (a :: others))) text ↔
      Writes (fun scribe => scribe.wrap a (leftPrecedence n) >>= fun text =>
        others.foldlM (Serializer.addNext scribe n) text) text := by
  obtain ⟨kind, hloose⟩ := Dictionary.exists_isLoose hn
  have haccepts : n.arity.accepts (a :: others).length = true := by
    refine hloose.accepts _ (Nat.succ_le_succ (List.length_pos_iff.mpr hne)) fun hvariadic => ?_
    rw [List.length_cons, hsingle hvariadic]
  have hchain (scribe : Scribe) : Serializer.byKind scribe n n.name (a :: others) =
      scribe.wrap a (leftPrecedence n) >>= fun text =>
        others.foldlM (Serializer.addNext scribe n) text := by
    unfold Serializer.byKind
    rw [hloose.kind_eq]
    exact Serializer.chain_cons hloose.isInfix hloose.associativity a hne
  constructor
  · exact fun h => (Writes.of_kind hloose.lookup hloose.writer haccepts h).congr fun scribe _ =>
      (hchain scribe).symm
  · exact fun h => .kind hloose.lookup hloose.writer haccepts (h.congr fun scribe _ => hchain scribe)

/-- A chain of more than one operand. -/
theorem Form.exists_of_loose {n : Notation} (hn : n ∈ Dictionary.looseOperators) (h : Form p text)
    (hname : p.headName? = some n.name) :
    ∃ first second rest, p = .function n.name (first :: second :: rest) := by
  have hlt := lt_addition_of_loose hn hname
  rcases h.precedence_cases with hadd | hmultiply | ⟨n', -, ⟨first, second, rest, rfl⟩, -⟩
  · exact absurd hadd (Precedence.ne_of_lt hlt).symm
  · exact absurd (Nat.lt_trans hlt (by decide)) (Nat.not_lt_of_le hmultiply)
  · rw [← Option.some.inj hname]
    exact ⟨first, second, rest, rfl⟩

/-- One more operand makes a chain of its operator longer. -/
theorem Stable.infixed {n : Notation} (hn : n ∈ Dictionary.looseOperators) (ha : Stable a written)
    (hb : Stable b text) :
    Stable (Expression.linked n a b)
      (Text.join (Text.join (wrapText a (leftPrecedence n) written) n.glyph)
        (wrapText b (rightPrecedence n) text)) := by
  obtain ⟨kind, hloose⟩ := Dictionary.exists_isLoose hn
  have hform := OperandOf.infixed hn (ha.form.operand hloose.leftPrecedence_le)
    (hb.form.operand hloose.rightPrecedence_le)
  have hnext : Writes (fun scribe => Serializer.addNext scribe n
      (wrapText a (leftPrecedence n) written) b) _ :=
    (hb.writes.wrap _).bind (.pure _)
  have hwhole (es : List Expression) : Product.reciprocal? (.function n.name es) = none := by
    refine Option.eq_none_iff_forall_ne_some.mpr fun r hr => ?_
    obtain ⟨base, m, heq, -⟩ := Product.exists_of_reciprocal? hr
    have hlt := lt_addition_loose hn es
    rw [heq] at hlt
    exact absurd (standardPrecedence_power _ ▸ hlt) (by decide)
  unfold Expression.linked at hform ⊢
  cases hgrows : n.isVariadic && a.headName? == some n.name with
  | false =>
    rw [hgrows] at hform
    refine ⟨(Writes.chain_iff hn (List.cons_ne_nil _ _) fun _ => rfl).mpr ?_, .loose hn hform, hwhole _⟩
    exact (ha.writes.wrap _).bind (hnext.bind (.pure _))
  | true =>
    obtain ⟨hvariadic, hname⟩ := Bool.and_eq_true_iff.mp hgrows
    obtain ⟨first, second, rest, rfl⟩ := ha.form.exists_of_loose hn (eq_of_beq hname)
    have hprecedence := standardPrecedence_loose (e := .function n.name (first :: second :: rest)) hn rfl
    have hfirst : wrapText (.function n.name (first :: second :: rest)) (leftPrecedence n) written =
        written :=
      wrapText_of_le (by rw [hloose.leftPrecedence_eq hvariadic, hprecedence]; exact Nat.le_refl _) _
    rw [hgrows] at hform
    rw [hfirst] at hform hnext ⊢
    have hmany (others : List Expression) : n.isVariadic = false → others.length = 1 :=
      fun hnot => absurd (hnot.symm.trans hvariadic) Bool.false_ne_true
    have hwritten := (Writes.chain_iff hn (List.cons_ne_nil second rest) (hmany _)).mp ha.writes
    refine ⟨(Writes.chain_iff hn (List.cons_ne_nil second (rest ++ [b])) (hmany _)).mpr ?_,
      .loose hn hform, hwhole _⟩
    have hlonger : Writes (fun scribe => (scribe.wrap first (leftPrecedence n) >>= fun text =>
        (second :: rest).foldlM (Serializer.addNext scribe n) text) >>= fun written =>
          Serializer.addNext scribe n written b) _ :=
      hwritten.bind hnext
    refine hlonger.congr fun scribe _ => ?_
    rw [← List.cons_append]
    simp only [List.foldlM_append, List.foldlM_cons, List.foldlM_nil, bind_assoc, bind_pure]

end TexFormula
