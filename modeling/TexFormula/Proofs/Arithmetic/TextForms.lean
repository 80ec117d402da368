import TexFormula.Proofs.Arithmetic.Becomes

/-!
# Texts that are read as an expression

The texts that the serializer puts together, by the expression that they are read as: units, powers,
products factor by factor (`FactorsOf`), terms with or without a sign (`TermOf`), sums (`SumOf`) and
operands of relations and logic (`OperandOf`).
There is one lemma for each way of putting texts together.
-/

open Filter TexFormula.Parser

namespace TexFormula

open Expression (Opposite)

variable {a b e first p q : Expression} {others : List Expression} {text t written : String}
  {n : Number} {d : Decimal} {P Q : Language Token} {loosest : Precedence}

/-! ### Shapes of texts -/

/-- The text is a letter, a group or what a command stands for, with powers, indices and factorials. -/
structure UnitOf (e : Expression) (text : String) : Prop where
  opens : ∃ c ∈ text.toList.head?, c ≠ '-' ∧ c.isDigit = false
  spells : ∃ P, Spells text.toList P ∧ Starts P ∧ Becomes e none .power (fun _ => True) P

/-- The text is a unit or a power of a number. -/
structure RaisedOf (e : Expression) (text : String) : Prop where
  opens : ∃ c ∈ text.toList.head?, c ≠ '-'
  spells : ∃ P, Spells text.toList P ∧ TakesMinus P ∧ (e.isPowerOfTen = false → Unscaling P) ∧
    Becomes e none .power (fun _ => True) P

/-- The text is one term of a sum. It can stand behind a minus sign. -/
structure TermOf (e : Expression) (text : String) : Prop where
  nonempty : text.toList ≠ []
  spells : ∃ P link, Spells text.toList P ∧ link ≠ some "Add" ∧
    Becomes e link .multiplication EndsProduct P ∧
    ∀ p, Opposite e p → ∃ link', link' ≠ some "Add" ∧
      Becomes p link' .multiplication EndsProduct (Token.one (.punct '-') * P)

/-- The text is a sum, perhaps of one term. -/
structure SumOf (e : Expression) (text : String) : Prop where
  nonempty : text.toList ≠ []
  spells : ∃ P link, Spells text.toList P ∧ (link == some "Add") = (e.headName? == some "Add") ∧
    Becomes e link .addition EndsProduct P

/-- The text is an operand of an operator that is as loose as that. At the loosest precedence, it fills a
group. -/
structure OperandOf (loosest : Precedence) (e : Expression) (text : String) : Prop where
  nonempty : text.toList ≠ []
  spells : ∃ P link, Spells text.toList P ∧ Becomes e link loosest (EndsLoosely loosest) P ∧
    ∀ n ∈ Dictionary.looseOperators, n.isVariadic = true → n.precedence = loosest →
      e.headName? = some n.name → link = some n.name

theorem UnitOf.raised (h : UnitOf e text) : RaisedOf e text := by
  obtain ⟨c, hc, hminus, -⟩ := h.opens
  obtain ⟨P, hspells, hstarts, he⟩ := h.spells
  exact ⟨⟨c, hc, hminus⟩, P, hspells, hstarts.takesMinus,
    fun _ ts hts t after => hstarts.powerOfTen?_times hts t after, he⟩

theorem UnitOf.startsWithDigit_eq_false (h : UnitOf e text) : Text.startsWithDigit text = false := by
  obtain ⟨c, hc, -, hdigit⟩ := h.opens
  rw [Text.startsWithDigit, hc]
  exact hdigit

theorem RaisedOf.startsWith_eq_false (h : RaisedOf e text) : Text.startsWith text '-' = false := by
  obtain ⟨c, hc, hminus⟩ := h.opens
  rw [Text.startsWith, hc]
  exact beq_false_of_ne fun heq => hminus (Option.some.inj heq)

/-! ### Units -/

theorem UnitOf.letter {c : Char} (hc : IsSymbolLetter c) :
    UnitOf (.symbol (String.singleton c)) (String.singleton c) := by
  have hletter : Text.isLetter c = true := Text.isLetter_of_isAlpha hc.1
  have hminus : c ≠ '-' := by
    rintro rfl
    exact absurd hc.1 (by decide)
  have hspells : Spells (String.singleton c).toList (Token.one (.letter c)) := by
    rw [String.toList_singleton]
    exact .letter hletter
  refine ⟨⟨c, by rw [String.toList_singleton]; rfl, hminus, Text.isDigit_of_isLetter hletter⟩,
    _, hspells, ?_, (Becomes.letter hc).mono (by decide) fun _ h => h⟩
  rintro _ ⟨t, rfl, hkind⟩
  exact ⟨t, [], rfl, .inl ⟨c, hc, hkind⟩⟩

theorem OperandOf.exists_inside (h : OperandOf loosest e text) :
    ∃ P link, Spells text.toList P ∧ Becomes e link loosest EndsSum P := by
  obtain ⟨P, link, hspells, he, -⟩ := h.spells
  exact ⟨P, link, hspells, he.mono (Nat.le_refl _) fun _ h => h.endsLoosely⟩

theorem OperandOf.parenthesized (h : OperandOf .loosest e text) :
    UnitOf e (Text.parenthesized text) := by
  obtain ⟨P, link, hspells, hinside⟩ := h.exists_inside
  refine ⟨⟨'(', by simp [Text.parenthesized], by decide, rfl⟩, _, hspells.parenthesized, ?_,
    (hinside.parenthesized _).mono (by decide) fun _ h => h⟩
  intro us hus
  obtain ⟨u, ts, _, rfl, hu, -, -⟩ := mem_enclosed_iff.mp hus
  exact ⟨u, _, rfl, .inr (.inl hu)⟩

/-- What starts with a command for a unit. -/
theorem UnitOf.ofCommand {command : String} (hmem : command ∈ unitCommands)
    (hopens : '\\' ∈ text.toList.head?) (hspells : Spells text.toList (Token.one (.command command) * P))
    (h : Becomes e none .atomic (fun _ => True) (Token.one (.command command) * P)) : UnitOf e text := by
  refine ⟨⟨'\\', hopens, by decide, rfl⟩, _, hspells, ?_, h.mono (by decide) fun _ h => h⟩
  intro us hus
  obtain ⟨_, ⟨u, rfl, hu⟩, vs, -, rfl⟩ := Language.mem_mul.mp hus
  exact ⟨u, vs, rfl, .inr (.inr ⟨_, hmem, hu⟩)⟩

theorem spells_unitCommand {command : String} (h : command ∈ unitCommands) :
    Spells ("\\" ++ command).toList (Token.one (.command command)) := by
  have hall : ∀ command ∈ unitCommands, command.toList ≠ [] ∧
      command.toList.all Char.isAlpha = true := by
    decide +kernel
  obtain ⟨hne, halpha⟩ := hall command h
  have hspells := Spells.command hne (List.all_eq_true.mp halpha)
  rw [String.ofList_toList] at hspells
  rwa [String.toList_append]

theorem UnitOf.fraction (ha : OperandOf .loosest a t) (hb : OperandOf .loosest b text) :
    UnitOf (.function "Divide" [a, b]) (Writers.fraction t text) := by
  obtain ⟨P, link, hspells, htop⟩ := ha.exists_inside
  obtain ⟨Q, link', hspells', hbottom⟩ := hb.exists_inside
  have hcommand : Spells "\\frac".toList (Token.one (.command "frac")) :=
    .command (List.cons_ne_nil 'f' _) (List.all_eq_true.mp (by decide))
  have htext := (hcommand.appendBraced hspells).appendBraced hspells'
  rw [mul_assoc] at htext
  exact .ofCommand (by decide) (by simp [Writers.fraction]) htext (htop.fraction hbottom _)

theorem UnitOf.squareRoot (ha : OperandOf .loosest a text) :
    UnitOf (.function "Sqrt" [a]) ("\\sqrt" ++ Text.braced text) := by
  obtain ⟨P, link, hspells, hinside⟩ := ha.exists_inside
  have hcommand : Spells "\\sqrt".toList (Token.one (.command "sqrt")) :=
    .command (List.cons_ne_nil 's' _) (List.all_eq_true.mp (by decide))
  exact .ofCommand (by decide) (by simp) (hcommand.appendBraced hspells) (hinside.squareRoot _)

/-- A letter that has a command. -/
theorem UnitOf.symbol {n : Notation} {command : String} (h : Dictionary.HasCommand n command)
    (hkind : n.kind = .symbol) : UnitOf (.symbol n.name) n.glyph := by
  have hspells := spells_unitCommand h.mem
  have hbecomes := Becomes.symbol h hkind
  rw [← mul_one (Token.one (.command command))] at hspells hbecomes
  rw [h.glyph]
  exact .ofCommand h.mem (by simp) hspells hbecomes

/-- An elementary function of one argument. -/
theorem UnitOf.call {n : Notation} {command : String} (h : Dictionary.HasCommand n command)
    (hkind : n.kind = .function) (ha : OperandOf .loosest a text) (hsingle : a.sequenceItems = [a]) :
    UnitOf (.function n.name [a]) (n.glyph ++ Text.parenthesized text) := by
  obtain ⟨P, link, hspells, hinside⟩ := ha.exists_inside
  rw [h.glyph]
  exact .ofCommand h.mem (by simp) ((spells_unitCommand h.mem).appendParenthesized hspells)
    (hinside.call h hkind hsingle _)

/-! ### Powers, indices and factorials -/

/-- A group in braces behind a mark, as exponents and indices stand. -/
theorem spells_script {mark : String} {c : Char} (hmark : Lexeme.Mark mark.toList (.punct c))
    (h : Spells text.toList P) (h' : Spells t.toList Q) :
    Spells (text ++ mark ++ Text.braced t).toList
      (P * (Token.one (.punct c) * (Token.one .groupOpen * (Q * Token.one .groupClose)))) := by
  have hspells := (h.appendMark hmark).appendBraced h'
  rwa [mul_assoc] at hspells

theorem spells_superscript (h : Spells text.toList P) (h' : Spells t.toList Q) :
    Spells (text ++ "^" ++ Text.braced t).toList
      (P * (Token.one (.punct '^') * (Token.one .groupOpen * (Q * Token.one .groupClose)))) :=
  spells_script (.punct fun _ => rfl) h h'

theorem UnitOf.power (ha : UnitOf a text) (hb : OperandOf .loosest b t) :
    UnitOf (.function "Power" [a, b]) (text ++ "^" ++ Text.braced t) := by
  obtain ⟨c, hc, hopens⟩ := ha.opens
  obtain ⟨P, hspells, hstarts, ha⟩ := ha.spells
  obtain ⟨Q, link, hspells', hb⟩ := hb.exists_inside
  refine ⟨⟨c, Text.exists_head?_append (Text.exists_head?_append hc _) _, hopens⟩, _,
    spells_superscript hspells hspells', hstarts.mul _, ?_⟩
  exact ha.power (Nat.le_refl _) (fun _ _ _ => trivial) hb _

theorem UnitOf.subscript (ha : UnitOf a text) (hb : OperandOf .loosest b t) :
    UnitOf (.function "Subscript" [a, b]) (text ++ "_" ++ Text.braced t) := by
  obtain ⟨c, hc, hopens⟩ := ha.opens
  obtain ⟨P, hspells, hstarts, ha⟩ := ha.spells
  obtain ⟨Q, link, hspells', hb⟩ := hb.exists_inside
  refine ⟨⟨c, Text.exists_head?_append (Text.exists_head?_append hc _) _, hopens⟩, _,
    spells_script (.punct fun _ => rfl) hspells hspells', hstarts.mul _, ?_⟩
  exact ha.subscript (Nat.le_refl _) (fun _ _ _ => trivial) hb _

theorem UnitOf.factorial (ha : UnitOf a text) :
    UnitOf (.function "Factorial" [a]) (text ++ "!") := by
  obtain ⟨c, hc, hopens⟩ := ha.opens
  obtain ⟨P, hspells, hstarts, ha⟩ := ha.spells
  have hmark : Lexeme.Mark "!".toList (.punct '!') := .punct fun _ => rfl
  exact ⟨⟨c, Text.exists_head?_append hc _, hopens⟩, _, hspells.appendMark hmark, hstarts.mul _,
    ha.factorial (Nat.le_refl _) (fun _ _ _ => trivial) _⟩

/-! ### Numbers -/

theorem Becomes.digits (hn : n.HasDigits d) :
    Becomes (.number n) none .atomic (EndsSigned false) (magnitudeTokens d) := by
  have h := Becomes.number hn.whole hn.ofLiteral?_eq
  rwa [hn.unsigned, signTokens, if_neg Bool.false_ne_true, one_mul] at h

theorem Becomes.negativeDigits (hn : n.HasDigits d) (hneg : n.neg.isNegative = true) :
    Becomes (.number n.neg) none .atomic (EndsSigned true)
      (Token.one (.punct '-') * magnitudeTokens d) :=
  Becomes.number (d := { d with negative := true }) hn.whole (hn.ofLiteral?_neg hneg)

theorem RaisedOf.number (hn : n.HasDigits d) (hb : OperandOf .loosest b t) :
    RaisedOf (.function "Power" [.number n, b]) (d.digits ++ "^" ++ Text.braced t) := by
  obtain ⟨c, hc, hdigit⟩ := hn.exists_head?_digits
  obtain ⟨Q, link, hspells, hb⟩ := hb.exists_inside
  refine ⟨⟨c, Text.exists_head?_append (Text.exists_head?_append hc _) _,
    Digits.ne_of_isDigit hdigit rfl⟩, _, spells_superscript hn.spells_digits hspells,
    takesMinus_raisedMagnitude hn.wellFormed hn.whole _,
    fun hten => (unscaling_magnitude hn.exponent fun hwhole hfraction hrepeating => ?_).mul _, ?_⟩
  · have htext := hn.write_eq
    rw [hn.digits_eq_ten hwhole hfraction hrepeating] at htext
    simp [Expression.isPowerOfTen, Expression.function, htext] at hten
  refine (Becomes.digits hn).power (by decide) (fun u after hu => ?_) hb _
  exact ⟨.of_punct hu (by decide) _, fun hnegative => absurd hnegative Bool.false_ne_true⟩

/-! ### Products -/

/-- The tokens start a product with its first factor. A minus sign in front of them belongs to a
number. -/
structure OpensWith (first : Expression) (P : Language Token) : Prop where
  single : first.headName? ≠ some "Multiply"
  becomes : Becomes first none .multiplication EndsUnscaled P
  operator : first.leadsWithNumber = false → TakesMinus P
  sign : ∀ n, first = .number n → n.isNegative = false → n.neg.isNegative = true →
    Becomes (.number n.neg) none .multiplication EndsUnscaled (Token.one (.punct '-') * P)

/-- The text is a product of the factors, without a sign in front. -/
structure FactorsOf (first : Expression) (others : List Expression) (text : String) : Prop where
  opens : ∃ c ∈ text.toList.head?, c ≠ '-'
  spells : ∃ P Q, Spells text.toList (P * Q) ∧ OpensWith first P ∧ Lengthens others Q

theorem FactorsOf.startsWith_eq_false (h : FactorsOf first others text) :
    Text.startsWith text '-' = false := by
  obtain ⟨c, hc, hminus⟩ := h.opens
  rw [Text.startsWith, hc]
  exact beq_false_of_ne fun heq => hminus (Option.some.inj heq)

theorem RaisedOf.factors (h : RaisedOf e text) (hnumber : e.isNumber = false)
    (hsingle : e.headName? ≠ some "Multiply") : FactorsOf e [] text := by
  obtain ⟨P, hspells, hminus, -, hbecomes⟩ := h.spells
  refine ⟨h.opens, P, 1, by rwa [mul_one], ⟨hsingle, ?_, fun _ => hminus, ?_⟩, .nil⟩
  · exact hbecomes.mono (by decide) fun _ _ => trivial
  · rintro n rfl
    cases hnumber

theorem FactorsOf.digits (hn : n.HasDigits d) : FactorsOf (.number n) [] d.digits := by
  obtain ⟨c, hc, hdigit⟩ := hn.exists_head?_digits
  refine ⟨⟨c, hc, Digits.ne_of_isDigit hdigit rfl⟩, _, 1, by rw [mul_one]; exact hn.spells_digits,
    ⟨by simp [Expression.headName?], ?_, fun hleads => ?_, ?_⟩, .nil⟩
  · exact (Becomes.digits hn).mono (by decide) fun _ h => h.endsSigned _
  · have hnonnegative : (!n.isNegative) = true := by rw [hn.nonnegative]; rfl
    cases hnonnegative.symm.trans hleads
  · rintro _ ⟨⟩ - hneg
    exact (Becomes.negativeDigits hn hneg).mono (by decide) fun _ h => h.endsSigned _

theorem head?_joinGlyph (h : written.toList.head?.isSome = true) (glyph text : String) :
    (Text.join (Text.join written glyph) text).toList.head? = written.toList.head? := by
  have hglyph := Text.head?_join h glyph
  rw [Text.head?_join (hglyph ▸ h), hglyph]

/-- A text behind a glyph. -/
theorem FactorsOf.extend (h : FactorsOf first others written) {glyph : String} (hb : Appends b Q)
    (hspells : ∀ {w : String} {P : Language Token}, Spells w.toList P →
      Spells (Text.join (Text.join w glyph) text).toList (P * Q)) :
    FactorsOf first (others ++ [b]) (Text.join (Text.join written glyph) text) := by
  obtain ⟨c, hc, hminus⟩ := h.opens
  obtain ⟨P, R, hwritten, hopens, hlengthens⟩ := h.spells
  have hhead := head?_joinGlyph (by rw [hc]; rfl) glyph text
  refine ⟨⟨c, hhead ▸ hc, hminus⟩, P, R * Q, ?_, hopens, hlengthens.append hb⟩
  rw [← mul_assoc]
  exact hspells hwritten

theorem FactorsOf.timesRaised (h : FactorsOf first others written) (hb : RaisedOf b text)
    (hten : b.isPowerOfTen = false) :
    FactorsOf first (others ++ [b]) (Text.join (Text.join written "\\times") text) := by
  obtain ⟨c, hc, -⟩ := hb.opens
  obtain ⟨Q, hspells, -, hunscaling, hb⟩ := hb.spells
  exact h.extend (.times hb (Nat.le_refl _) (hunscaling hten)) fun hw =>
    spells_times hspells (ne_nil_of_head? hc) hw

theorem FactorsOf.besideUnit (h : FactorsOf first others written) (hb : UnitOf b text) :
    FactorsOf first (others ++ [b]) (Text.join (Text.join written "") text) := by
  have hdigit := hb.startsWithDigit_eq_false
  obtain ⟨c, hc, -⟩ := hb.opens
  obtain ⟨Q, hspells, hstarts, hb⟩ := hb.spells
  refine h.extend (.besideUnit hb (Nat.le_refl _) hstarts) fun hw => ?_
  rw [Text.join_nothing]
  refine hw.join hspells (ne_nil_of_head? hc) fun hstarts => ?_
  rw [Text.startsWithDigit, hstarts] at hdigit
  cases hdigit

theorem FactorsOf.timesNumber (h : FactorsOf first others written) (hn : n.HasDigits d) :
    FactorsOf first (others ++ [.number n]) (Text.join (Text.join written "\\times") d.digits) := by
  obtain ⟨c, hc, -⟩ := hn.exists_head?_digits
  exact h.extend (.timesNumber hn.whole hn.ofLiteral?_eq hn.unsigned hn.exponent) fun hw =>
    spells_times hn.spells_digits (ne_nil_of_head? hc) hw

/-! ### Terms -/

theorem Expression.leadsWithNumber_whole (hsingle : first.headName? ≠ some "Multiply")
    (others : List Expression) :
    (Product.whole (first :: others)).leadsWithNumber = first.leadsWithNumber := by
  cases others with
  | nil => rfl
  | cons second others =>
    cases first with
    | apply head arguments =>
      cases head with
      | symbol name =>
        have hname : (name == "Multiply") = false := beq_false_of_ne fun h => hsingle (by rw [h]; rfl)
        rw [leadsWithNumber, hname]
        rfl
      | _ => rfl
    | _ => rfl

/-- A product is a term. A minus sign in front of it belongs to the number that it starts with, or else
is an operator. -/
theorem FactorsOf.term (h : FactorsOf first others text) :
    TermOf (Product.whole (first :: others)) text := by
  obtain ⟨c, hc, -⟩ := h.opens
  obtain ⟨P, Q, hspells, hopens, hlengthens⟩ := h.spells
  have hlink : (others.head?.map fun _ => "Multiply") ≠ some "Add" := by
    cases others <;> simp
  have hterm : Becomes (Product.whole (first :: others)) (others.head?.map fun _ => "Multiply")
      .multiplication EndsProduct (P * Q) :=
    (hlengthens hopens.becomes).mono (Nat.le_refl _) fun _ h => h.endsUnscaled
  refine ⟨ne_nil_of_head? hc, P * Q, _, hspells, hlink, hterm, fun p hp => ?_⟩
  have hsign (n : Number) (hfirst : first = .number n) (hn : n.isNegative = false)
      (hneg : n.neg.isNegative = true) : Becomes (Product.whole (.number n.neg :: others))
        (others.head?.map fun _ => "Multiply") .multiplication EndsProduct
        (Token.one (.punct '-') * (P * Q)) := by
    rw [← mul_assoc]
    exact (hlengthens (hopens.sign n hfirst hn hneg)).mono (Nat.le_refl _) fun _ h => h.endsUnscaled
  generalize hwhole : Product.whole (first :: others) = e at hp hterm
  cases hp with
  | negate he =>
    rw [← hwhole, Expression.leadsWithNumber_whole hopens.single] at he
    exact ⟨none, by simp, hterm.negated (by decide) ((hopens.operator he).mul Q) fun _ h => h⟩
  | number hn hneg =>
    cases others with
    | nil => exact ⟨_, hlink, hsign _ hwhole hn hneg⟩
    | cons second others => cases hwhole
  | product hn hneg =>
    cases others with
    | nil =>
      refine absurd ?_ hopens.single
      rw [show first = _ from hwhole]
      rfl
    | cons second others =>
      cases hwhole
      exact ⟨_, hlink, hsign _ rfl hn hneg⟩

theorem TermOf.sum (h : TermOf e text) (he : e.headName? ≠ some "Add") : SumOf e text := by
  obtain ⟨P, link, hspells, hlink, hbecomes, -⟩ := h.spells
  refine ⟨h.nonempty, P, link, hspells, ?_, hbecomes.mono (by decide) fun _ h => h⟩
  rw [beq_false_of_ne hlink, beq_false_of_ne he]

/-- A term with a sign in front. -/
theorem TermOf.negated (h : TermOf q text) (hp : Opposite q p) : TermOf p ("-" ++ text) := by
  obtain ⟨P, link, hspells, -, -, hsigned⟩ := h.spells
  obtain ⟨link', hlink', hbecomes⟩ := hsigned p hp
  refine ⟨by simp, _, link', spells_minus hspells h.nonempty, hlink', hbecomes, fun e he => ?_⟩
  rw [he.eq_of_isNegated hp.isNegated]
  exact ⟨none, by simp, hbecomes.negated (by decide) (takesMinus_minus _) fun _ h => h⟩

/-! ### Sums -/

theorem SumOf.plus (ha : SumOf a written) (hb : TermOf b text) :
    SumOf (extend "Add" (a.headName? == some "Add") a b) (written ++ "+" ++ text) := by
  obtain ⟨P, link, hwritten, hlink, ha⟩ := ha.spells
  obtain ⟨Q, link', hspells, -, hbecomes, -⟩ := hb.spells
  have hplus : Lexeme.Mark "+".toList (.punct '+') := .punct fun _ => rfl
  refine ⟨by simp, P * (Token.one (.punct '+') * Q), some "Add", ?_, ?_, hlink ▸ ha.plus hbecomes⟩
  · rw [← mul_assoc, String.toList_append]
    refine (hwritten.appendMark hplus).append hspells ?_ hb.nonempty
    rw [String.toList_append]
    exact .of_sign rfl rfl _ _
  · rw [headName?_extend eq_of_beq, beq_self_eq_true]

theorem SumOf.minus (ha : SumOf a written) (hb : TermOf b text) :
    SumOf (.function "Subtract" [a, b]) (written ++ "-" ++ text) := by
  obtain ⟨P, link, hwritten, -, ha⟩ := ha.spells
  obtain ⟨Q, link', hspells, -, hbecomes, -⟩ := hb.spells
  have hminus : Lexeme.Mark "-".toList (.punct '-') := .punct fun _ => rfl
  refine ⟨by simp, P * (Token.one (.punct '-') * Q), none, ?_, rfl, ha.minus hbecomes⟩
  rw [← mul_assoc, String.toList_append]
  refine (hwritten.appendMark hminus).append hspells ?_ hb.nonempty
  rw [String.toList_append]
  exact .of_sign rfl rfl _ _

/-! ### Operands of relations and logic -/

theorem Dictionary.IsLoose.standardPrecedence_eq {n : Notation} {kind : Token.Kind}
    (h : Dictionary.IsLoose n kind) (hname : e.headName? = some n.name) :
    standardPrecedence e = n.precedence := by
  rw [standardPrecedence_of_headName? hname, standardPrecedence_function h.lookup, h.kind_eq]

theorem standardPrecedence_loose {n : Notation} (hn : n ∈ Dictionary.looseOperators)
    (hname : e.headName? = some n.name) : standardPrecedence e = n.precedence :=
  let ⟨_, h⟩ := Dictionary.exists_isLoose hn
  h.standardPrecedence_eq hname

theorem lt_addition_of_loose {n : Notation} (hn : n ∈ Dictionary.looseOperators)
    (hname : e.headName? = some n.name) : standardPrecedence e < .addition := by
  obtain ⟨kind, hloose⟩ := Dictionary.exists_isLoose hn
  rw [hloose.standardPrecedence_eq hname]
  exact hloose.precedence_lt

theorem lt_addition_loose {n : Notation} (hn : n ∈ Dictionary.looseOperators) (es : List Expression) :
    standardPrecedence (.function n.name es) < .addition :=
  lt_addition_of_loose hn rfl

theorem sequence_lt_of_loose {n : Notation} (hn : n ∈ Dictionary.looseOperators)
    (hname : e.headName? = some n.name) : .sequence < standardPrecedence e := by
  obtain ⟨kind, hloose⟩ := Dictionary.exists_isLoose hn
  rw [hloose.standardPrecedence_eq hname]
  exact hloose.lt_precedence

theorem SumOf.operand (h : SumOf e text) (hloosest : loosest ≤ .addition)
    (hp : .addition ≤ standardPrecedence e) : OperandOf loosest e text := by
  obtain ⟨P, link, hspells, -, he⟩ := h.spells
  refine ⟨h.nonempty, P, link, hspells, he.mono hloosest fun _ h => h.endsProduct, ?_⟩
  exact fun n hn _ _ hname => absurd (lt_addition_of_loose hn hname) (Nat.not_lt_of_le hp)

/-- In parentheses, a chain is not taken up into the one that it stands in. -/
theorem UnitOf.operand (h : UnitOf e text) (hloosest : loosest ≤ .power)
    (hp : standardPrecedence e < loosest) : OperandOf loosest e text := by
  obtain ⟨c, hc, -⟩ := h.opens
  obtain ⟨P, hspells, -, he⟩ := h.spells
  refine ⟨ne_nil_of_head? hc, P, none, hspells, he.mono hloosest fun _ _ => trivial, ?_⟩
  rintro n hn - rfl hname
  rw [standardPrecedence_loose hn hname] at hp
  exact absurd hp (Nat.lt_irrefl _)

theorem OperandOf.mono {looser : Precedence} (h : OperandOf loosest e text) (hp : looser ≤ loosest)
    (he : loosest ≤ standardPrecedence e) :
    OperandOf looser e text := by
  obtain ⟨P, link, hspells, hbecomes, hlink⟩ := h.spells
  refine ⟨h.nonempty, P, link, hspells, hbecomes.mono hp fun _ h => h.mono hp, ?_⟩
  rintro n hn hvariadic rfl hname
  rw [standardPrecedence_loose hn hname] at he
  exact hlink n hn hvariadic (Precedence.le_antisymm hp he) hname

theorem Expression.headName?_linked (n : Notation) (a b : Expression) :
    (linked n a b).headName? = some n.name :=
  headName?_extend fun hgrows => eq_of_beq (Bool.and_eq_true_iff.mp hgrows).2

theorem OperandOf.infixed {n : Notation} (hn : n ∈ Dictionary.looseOperators)
    (ha : OperandOf (leftPrecedence n) a written) (hb : OperandOf (rightPrecedence n) b text) :
    OperandOf n.precedence (Expression.linked n a b)
      (Text.join (Text.join written n.glyph) text) := by
  obtain ⟨kind, hloose⟩ := Dictionary.exists_isLoose hn
  obtain ⟨P, link, hwritten, ha', hlink⟩ := ha.spells
  obtain ⟨Q, link', hspells, hb', -⟩ := hb.spells
  have hleft : n.precedence ≤ leftPrecedence n := precedence_le_leftPrecedence n
  have hgrows : (n.isVariadic && a.headName? == some n.name) =
      (n.isVariadic && link == some n.name) := by
    refine Bool.eq_iff_iff.mpr ?_
    simp only [Bool.and_eq_true, beq_iff_eq]
    refine and_congr_right fun hvariadic => ⟨fun hname => ?_, fun hname => ha'.chain _ hname⟩
    exact hlink n hn hvariadic (hloose.leftPrecedence_eq hvariadic).symm hname
  have hbecomes := Becomes.infixed hloose (ha'.mono hleft fun _ h => h.mono hleft) hb'
  rw [← hgrows] at hbecomes
  refine ⟨?_, _, _, spells_glyph hloose.mark hloose.endsWithDigit hspells hb.nonempty hwritten, hbecomes,
    fun n' hn' hvariadic _ hname => ?_⟩
  · intro hnil
    have hhead := head?_joinGlyph (List.isSome_head?.mpr ha.nonempty) n.glyph text
    rw [hnil, List.head?_nil] at hhead
    exact ha.nonempty (List.head?_eq_none_iff.mp hhead.symm)
  · rw [Expression.headName?_linked] at hname
    obtain ⟨_, hloose'⟩ := Dictionary.exists_isLoose hn'
    have hlookup := hloose.lookup
    rw [Option.some.inj hname, hloose'.lookup] at hlookup
    obtain rfl := Option.some.inj hlookup
    exact if_pos hvariadic

end TexFormula
