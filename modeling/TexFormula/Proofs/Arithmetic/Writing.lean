import TexFormula.Dictionary.Standard
import TexFormula.Proofs.Arithmetic.Expressions
import TexFormula.Proofs.Arithmetic.Texts
import TexFormula.Proofs.SignedFactors
import TexFormula.Serializer

/-!
# How arithmetic is written

`Spelled D e text` is what is kept for every expression: it is written as the text, and the text
reads as a sum, a product or a unit with the value of the expression at the assignments in `D`. There
is one lemma for each operation.
-/

open Filter TexFormula.Parser

namespace TexFormula

open Expression (DefinedOn Arithmetic valueOfProduct KeepsSigns)

variable {D : Set (String → ℚ)} {f g : Meaning} {e a b : Expression} {es : List Expression}
  {text written name : String} {n : Number} {negative : Bool} {k : Nat} {loosest : Precedence}

/-! ### Writing at some level -/

/-- The standard notations are written, with the standard options but for the depth. -/
structure Serializer.IsStandard (s : Serializer) : Prop where
  dictionary : s.dictionary = .standard
  options : s.options = { maxDepth := s.options.maxDepth }

/-- From some number of levels on, the text is written. -/
def Writes (m : Scribe → Except WriteFault String) (text : String) : Prop :=
  ∀ᶠ levels in atTop, ∀ s : Serializer, s.IsStandard →
    m (s.scribe (s.within levels)) = .ok text

def standardPrecedence (e : Expression) : Precedence :=
  (Serializer.mk .standard {}).precedenceOf e

theorem Serializer.IsStandard.precedenceOf_eq {s : Serializer} (hs : s.IsStandard)
    (e : Expression) : s.precedenceOf e = standardPrecedence e := by
  rw [standardPrecedence, Serializer.precedenceOf, Serializer.precedenceOf, hs.dictionary]

/-- What the hooks of such a serializer are handed. -/
structure Scribe.IsStandard (scribe : Scribe) : Prop where
  precedence : scribe.precedence = standardPrecedence
  options : scribe.options = { maxDepth := scribe.options.maxDepth }

theorem Serializer.IsStandard.scribe {s : Serializer} (hs : s.IsStandard)
    (below : Expression → Except WriteFault String) : (s.scribe below).IsStandard :=
  ⟨funext hs.precedenceOf_eq, hs.options⟩

/-- The text of an expression, in parentheses where it binds too loosely. -/
def wrapText (e : Expression) (loosest : Precedence) (text : String) : String :=
  if standardPrecedence e < loosest then Text.parenthesized text else text

theorem wrapText_of_atomic (h : standardPrecedence e = .atomic) (loosest : Precedence) (text : String) :
    wrapText e loosest text = text := by
  have hnot : ¬Precedence.atomic < loosest := Nat.not_lt_of_le loosest.rank_le
  rw [wrapText, h, if_neg hnot]

theorem wrapText_of_le (h : loosest ≤ standardPrecedence e) (text : String) :
    wrapText e loosest text = text :=
  if_neg (Nat.not_lt_of_le h)

theorem wrapText_of_lt (h : standardPrecedence e < loosest) (text : String) :
    wrapText e loosest text = Text.parenthesized text :=
  if_pos h

namespace Writes

theorem pure (text : String) : Writes (fun _ => Pure.pure text) text :=
  .of_forall fun _ _ _ => rfl

theorem of_eq {text' : String} (h : text' = text) : Writes (fun _ => Pure.pure text') text :=
  h ▸ pure text'

theorem bind {m : Scribe → Except WriteFault String} {next : Scribe → String → Except WriteFault String}
    (h : Writes m written) (hnext : Writes (fun scribe => next scribe written) text) :
    Writes (fun scribe => m scribe >>= next scribe) text := by
  refine (Eventually.and h hnext).mono fun levels hlevels s hs => ?_
  show (m (s.scribe (s.within levels)) >>= _) = _
  rw [hlevels.1 s hs]
  exact hlevels.2 s hs

theorem congr {m m' : Scribe → Except WriteFault String} (h : Writes m' text)
    (heq : ∀ scribe : Scribe, scribe.IsStandard → m scribe = m' scribe) : Writes m text := by
  refine Eventually.mono h fun levels hlevels s hs => ?_
  rw [heq _ (hs.scribe _)]
  exact hlevels s hs

theorem wrap (h : Writes (fun scribe => scribe.serialize e) text) (loosest : Precedence) :
    Writes (fun scribe => scribe.wrap e loosest) (wrapText e loosest text) := by
  have hwrap : Writes (fun scribe => scribe.serialize e >>= fun text =>
      Pure.pure (wrapText e loosest text)) (wrapText e loosest text) :=
    h.bind (pure _)
  refine hwrap.congr fun scribe hscribe => ?_
  unfold Scribe.wrap wrapText
  rw [hscribe.precedence]

/-- There is one text for everything that is written. -/
theorem unique {m : Scribe → Except WriteFault String} {text' : String} (h : Writes m text)
    (h' : Writes m text') : text = text' := by
  obtain ⟨levels, hlevels, hlevels'⟩ := (Eventually.and h h').exists
  let s : Serializer := ⟨.standard, {}⟩
  have hs : s.IsStandard := ⟨rfl, rfl⟩
  exact Except.ok.inj ((hlevels s hs).symm.trans (hlevels' s hs))

/-- An application of a name is written by the hook of its notation. -/
theorem hook {entry : Notation} {hook : WritingHook}
    (hname : Dictionary.standard.lookup name = some entry) (hhook : entry.writer = some hook)
    (h : Writes (fun scribe => hook scribe es) text) :
    Writes (fun scribe => scribe.serialize (.function name es)) text := by
  refine eventually_succ h fun levels hlevels s hs => ?_
  show s.named (s.scribe (s.within levels)) name es = _
  rw [Serializer.named, hs.dictionary, hname]
  dsimp only
  rw [hhook]
  exact hlevels s hs

/-- What is written for the application of a name comes from the hook of its notation. -/
theorem of_hook {entry : Notation} {hook : WritingHook}
    (hname : Dictionary.standard.lookup name = some entry) (hhook : entry.writer = some hook)
    (h : Writes (fun scribe => scribe.serialize (.function name es)) text) :
    Writes (fun scribe => hook scribe es) text := by
  refine (eventually_and_succ h).mono fun levels hlevels s hs => ?_
  have hwritten : s.named (s.scribe (s.within levels)) name es = .ok text := hlevels.2 s hs
  rw [Serializer.named, hs.dictionary, hname] at hwritten
  dsimp only at hwritten
  rw [hhook] at hwritten
  exact hwritten

/-- An application of a name without a hook is written by the rule of its kind. -/
theorem kind {entry : Notation} (hname : Dictionary.standard.lookup name = some entry)
    (hhook : entry.writer = none) (haccepts : entry.arity.accepts es.length = true)
    (h : Writes (fun scribe => Serializer.byKind scribe entry name es) text) :
    Writes (fun scribe => scribe.serialize (.function name es)) text := by
  refine eventually_succ h fun levels hlevels s hs => ?_
  show s.named (s.scribe (s.within levels)) name es = _
  rw [Serializer.named, hs.dictionary, hname]
  dsimp only
  rw [hhook, haccepts]
  exact hlevels s hs

/-- What is written for the application of a name without a hook comes from the rule of its kind. -/
theorem of_kind {entry : Notation} (hname : Dictionary.standard.lookup name = some entry)
    (hhook : entry.writer = none) (haccepts : entry.arity.accepts es.length = true)
    (h : Writes (fun scribe => scribe.serialize (.function name es)) text) :
    Writes (fun scribe => Serializer.byKind scribe entry name es) text := by
  refine (eventually_and_succ h).mono fun levels hlevels s hs => ?_
  have hwritten : s.named (s.scribe (s.within levels)) name es = .ok text := hlevels.2 s hs
  rw [Serializer.named, hs.dictionary, hname] at hwritten
  dsimp only at hwritten
  rw [hhook, haccepts] at hwritten
  exact hwritten

end Writes

/-! ### The standard notations of arithmetic -/

theorem lookup_add : Dictionary.standard.lookup "Add" =
    some (((Notation.ofInfix "Add" "+" .addition).variadic.withArity 0 none).withWriter
      Writers.sum) := by
  rfl

theorem lookup_multiply : Dictionary.standard.lookup "Multiply" =
    some (((Notation.ofInfix "Multiply" "\\times" .multiplication).variadic.withArity 0
      none).withWriter Writers.product) := by
  rfl

theorem lookup_power : Dictionary.standard.lookup "Power" =
    some (((Notation.ofInfix "Power" "^" .power).rightAssociative.withReader
      Readers.power).withWriter Writers.power) := by
  rfl

theorem lookup_subtract : Dictionary.standard.lookup "Subtract" =
    some (.ofInfix "Subtract" "-" .addition) := by
  rfl

theorem lookup_negate : Dictionary.standard.lookup "Negate" =
    some (.ofPrefix "Negate" "-" .addition) := by
  rfl

theorem lookup_divide : Dictionary.standard.lookup "Divide" =
    some (.ofCommand "Divide" "\\frac" 2) := by
  rfl

theorem lookup_subscript : Dictionary.standard.lookup "Subscript" =
    some (((Notation.ofInfix "Subscript" "_" .power).rightAssociative.withReader
      Readers.subscript).withWriter Writers.subscript) := by
  rfl

theorem lookup_sqrt : Dictionary.standard.lookup "Sqrt" =
    some ((Notation.ofCommand "Sqrt" "\\sqrt" 1).withReader Readers.squareRoot) := by
  rfl

theorem lookup_factorial : Dictionary.standard.lookup "Factorial" =
    some (.ofPostfix "Factorial" "!" .trailing) := by
  rfl

theorem standardPrecedence_function {entry : Notation}
    (hname : Dictionary.standard.lookup name = some entry) (es : List Expression) :
    standardPrecedence (.function name es) =
      match entry.kind with
      | .infixOp _ => entry.precedence
      | .prefixOp => entry.precedence
      | .postfixOp => entry.precedence
      | _ => .atomic := by
  have hlookup : (Expression.function name es).headName?.bind
      (Serializer.mk Dictionary.standard {}).dictionary.lookup = some entry := hname
  unfold standardPrecedence Serializer.precedenceOf
  exact hlookup ▸ rfl

theorem standardPrecedence_add (es : List Expression) :
    standardPrecedence (.function "Add" es) = .addition :=
  standardPrecedence_function lookup_add es

theorem standardPrecedence_subtract (es : List Expression) :
    standardPrecedence (.function "Subtract" es) = .addition :=
  standardPrecedence_function lookup_subtract es

theorem standardPrecedence_negate (es : List Expression) :
    standardPrecedence (.function "Negate" es) = .addition :=
  standardPrecedence_function lookup_negate es

theorem standardPrecedence_multiply (es : List Expression) :
    standardPrecedence (.function "Multiply" es) = .multiplication :=
  standardPrecedence_function lookup_multiply es

theorem standardPrecedence_power (es : List Expression) :
    standardPrecedence (.function "Power" es) = .power :=
  standardPrecedence_function lookup_power es

theorem standardPrecedence_divide (es : List Expression) :
    standardPrecedence (.function "Divide" es) = .atomic :=
  standardPrecedence_function lookup_divide es

theorem standardPrecedence_subscript (es : List Expression) :
    standardPrecedence (.function "Subscript" es) = .power :=
  standardPrecedence_function lookup_subscript es

theorem standardPrecedence_sqrt (es : List Expression) :
    standardPrecedence (.function "Sqrt" es) = .atomic :=
  standardPrecedence_function lookup_sqrt es

theorem standardPrecedence_factorial (es : List Expression) :
    standardPrecedence (.function "Factorial" es) = .trailing :=
  standardPrecedence_function lookup_factorial es

/-- How tightly a node binds depends on its head only. -/
theorem standardPrecedence_of_headName? (h : e.headName? = some name) :
    standardPrecedence e = standardPrecedence (.function name []) := by
  unfold standardPrecedence Serializer.precedenceOf
  rw [h]
  rfl

/-! ### What is kept of every expression -/

/-- The text of a whole number. -/
def signedNumeral (negative : Bool) (k : Nat) : String :=
  (if negative && k != 0 then "-" else "") ++ numeralText k

theorem signedNumeral_of_not (h : (negative && k != 0) = false) :
    signedNumeral negative k = numeralText k := by
  rw [signedNumeral, h, if_neg Bool.false_ne_true, String.empty_append]

theorem signed_of_not (h : (negative && k != 0) = false) : signed negative (k : ℚ) = k := by
  rcases Bool.and_eq_false_iff.mp h with rfl | hzero
  · rfl
  · rw [bne_eq_false_iff_eq.mp hzero]
    cases negative <;> simp [signed]

theorem Expression.exists_of_isNumber (h : e.isNumber = true) : ∃ n, e = .number n := by
  cases e with
  | number n => exact ⟨n, rfl⟩
  | _ => cases h

/-- The expression is written as the text, which reads as a sum of its value. Unless it is a sum by
its notation, the text reads as a product, and unless it is a product or a power as a unit. -/
structure Spelled (D : Set (String → ℚ)) (e : Expression) (text : String) : Prop where
  writes : Writes (fun scribe => scribe.serialize e) text
  sum : SumText D e.meaning text
  product : .addition < standardPrecedence e ∨ Writers.isNegativeTerm e = true →
    SignedText D e.meaning text
  minus : .addition < standardPrecedence e → e.leadingMinus = false →
    Text.startsWith text '-' = false
  number : ∀ n, e = .number n → ∃ negative k, n.IsWhole negative k ∧ text = signedNumeral negative k
  unit : .power < standardPrecedence e → e.isNumber = false → UnitText D e.meaning text

theorem PhraseText.startsWith_eq_false (h : PhraseText D f text) :
    Text.startsWith text '-' = false := by
  obtain ⟨c, hc, hminus⟩ := h.opens
  rw [Text.startsWith, hc]
  exact beq_false_of_ne fun heq => hminus (Option.some.inj heq)

/-- A text without a sign in front. -/
theorem SignedText.phrase_of_startsWith (h : SignedText D f text)
    (hminus : Text.startsWith text '-' = false) : PhraseText D f text := by
  cases h with
  | phrase h => exact h
  | @minus f text h =>
    have hstarts : Text.startsWith ("-" ++ text) '-' = true := by
      rw [Text.startsWith, String.toList_append]
      rfl
    rw [hstarts] at hminus
    cases hminus

theorem UnitText.signed (h : UnitText D f text) : SignedText D f text :=
  .phrase h.phrase

theorem UnitText.sum (h : UnitText D f text) : SumText D f text :=
  h.signed.sum

theorem Spelled.parenthesized (h : Spelled D e text) :
    UnitText D e.meaning (Text.parenthesized text) :=
  h.sum.parenthesized

/-- A term or a factor: sums are in parentheses. -/
theorem Spelled.product_wrapText (h : Spelled D e text) (hloosest : .addition < loosest) :
    SignedText D e.meaning (wrapText e loosest text) := by
  unfold wrapText
  split
  · exact h.parenthesized.signed
  · next hle => exact h.product (.inl (Nat.lt_of_lt_of_le hloosest (Nat.le_of_not_lt hle)))

theorem Spelled.minus_wrapText (h : Spelled D e text) (hloosest : .addition < loosest)
    (hminus : e.leadingMinus = false) : Text.startsWith (wrapText e loosest text) '-' = false := by
  unfold wrapText
  split
  · exact h.parenthesized.phrase.startsWith_eq_false
  · next hle => exact h.minus (Nat.lt_of_lt_of_le hloosest (Nat.le_of_not_lt hle)) hminus

/-- The first term of a sum, which may be a sum itself. -/
theorem Spelled.sum_wrapText (h : Spelled D e text) (loosest : Precedence) :
    SumText D e.meaning (wrapText e loosest text) := by
  unfold wrapText
  split
  · exact h.parenthesized.sum
  · exact h.sum

/-! ### Numbers and letters -/

theorem Magnitude.twoPow_lt : twoPow 52 < twoPow 53 := by
  decide

theorem SignedText.ofNumeral (hk : k < tenPow 15) :
    SignedText D (fun _ => signed negative (k : ℚ)) (signedNumeral negative k) := by
  have hnumeral : SignedText D (fun _ => (k : ℚ)) (numeralText k) := .phrase (.numeral hk)
  cases hsign : negative && k != 0 with
  | false =>
    rw [signedNumeral_of_not hsign, signed_of_not hsign]
    exact hnumeral
  | true =>
    rw [signedNumeral, hsign, if_pos rfl]
    refine (SignedText.minus hnumeral).congr fun σ _ => ?_
    rw [(Bool.and_eq_true _ _ |>.mp hsign).1]
    rfl

theorem startsWith_numeralText (k : Nat) : Text.startsWith (numeralText k) '-' = false := by
  obtain ⟨c, hc, hdigit⟩ := exists_head?_numeralText k
  rw [Text.startsWith, hc]
  exact beq_false_of_ne fun heq => Digits.ne_of_isDigit hdigit rfl (Option.some.inj heq)

theorem Writes.ofNumber (n : Number) :
    Writes (fun scribe => scribe.serialize (.number n)) (({} : NumberFormat).write n) := by
  refine eventually_succ (.of_forall fun _ => trivial) fun levels _ s hs => ?_
  show Except.ok (s.options.number.write n) = _
  rw [hs.options]

theorem Writes.number (h : n.IsWhole negative k) :
    Writes (fun scribe => scribe.serialize (.number n)) (signedNumeral negative k) := by
  obtain ⟨m, rfl, hm, hk⟩ := h
  have htext : ({} : NumberFormat).write (.machine (.finite negative m)) = signedNumeral negative k := by
    rw [NumberFormat.write_machine hm hk, signedNumeral, numeralText]
    cases negative && k != 0 <;> simp
  exact htext ▸ .ofNumber _

theorem Spelled.ofNumber (h : n.IsWhole negative k) :
    Spelled D (.number n) (signedNumeral negative k) := by
  have hmeaning : (Expression.number n).meaning = fun _ => signed negative (k : ℚ) :=
    funext fun σ => Expression.meaning_number h
  have hsigned : SignedText D (Expression.number n).meaning (signedNumeral negative k) :=
    hmeaning ▸ .ofNumeral h.lt
  refine ⟨.number h, hsigned.sum, fun _ => hsigned, fun _ hminus => ?_, ?_, fun _ hnumber => ?_⟩
  · rw [signedNumeral_of_not (h.isNegative_eq ▸ hminus)]
    exact startsWith_numeralText k
  · rintro _ heq
    cases heq
    exact ⟨negative, k, h, rfl⟩
  · cases hnumber

theorem wrapText_number (n : Number) (loosest : Precedence) (text : String) :
    wrapText (.number n) loosest text = text :=
  wrapText_of_atomic rfl loosest text

theorem length_name_standard : ∀ n ∈ Dictionary.standardEntries, n.name.length ≠ 1 := by
  decide +kernel

theorem lookup_standard_singleton (c : Char) :
    Dictionary.standard.lookup (String.singleton c) = none := by
  refine List.find?_eq_none.mpr fun n hn => ?_
  have hname : n.name ≠ String.singleton c := by
    intro heq
    refine length_name_standard n (List.mem_reverse.mp hn) ?_
    rw [heq, String.length_singleton]
  show ¬(n.name == String.singleton c && n.aliasOf.isNone && !n.parseOnly) = true
  rw [beq_false_of_ne hname]
  exact Bool.false_ne_true

theorem Writes.letter (c : Char) :
    Writes (fun scribe => scribe.serialize (.symbol (String.singleton c))) (String.singleton c) := by
  refine eventually_succ (.of_forall fun _ => trivial) fun levels _ s hs => ?_
  show Except.ok (s.symbol (String.singleton c)) = _
  rw [Serializer.symbol, hs.dictionary, lookup_standard_singleton]
  rw [Option.filter_none]
  refine congrArg Except.ok (if_pos ?_)
  rw [String.length_singleton, decide_eq_true rfl, Bool.or_true]

/-- A name that stands for a letter is written with its glyph. -/
theorem Writes.symbol {n : Notation} (hname : Dictionary.standard.lookup n.name = some n)
    (hkind : n.kind = .symbol) : Writes (fun scribe => scribe.serialize (.symbol n.name)) n.glyph := by
  refine eventually_succ (.of_forall fun _ => trivial) fun levels _ s hs => ?_
  show Except.ok (s.symbol n.name) = _
  rw [Serializer.symbol, hs.dictionary, hname, Option.filter_some, hkind]
  rfl

theorem Spelled.ofLetter {c : Char} (hc : IsSymbolLetter c) :
    Spelled D (.symbol (String.singleton c)) (String.singleton c) := by
  have hunit : UnitText D (Expression.symbol (String.singleton c)).meaning (String.singleton c) :=
    .letter hc
  exact ⟨.letter c, hunit.sum, fun _ => hunit.signed, fun _ _ => hunit.phrase.startsWith_eq_false,
    nofun, fun _ _ => hunit⟩

/-! ### Sums -/

theorem SumText.addTerm (h : SumText D f written) (h' : SignedText D g text) :
    SumText D (f + g) (if Text.startsWith text '-' then written ++ text
      else written ++ "+" ++ text) := by
  cases h' with
  | phrase h' =>
    rw [h'.startsWith_eq_false, if_neg Bool.false_ne_true]
    exact h.plus h'
  | @minus g text h' =>
    have hstarts : Text.startsWith ("-" ++ text) '-' = true := by
      rw [Text.startsWith, String.toList_append]
      rfl
    rw [hstarts, if_pos rfl, ← String.append_assoc, ← sub_eq_add_neg]
    exact h.minus h'

/-- One more term. -/
theorem Spelled.exists_addTerm (h : Spelled D e text) (hwritten : SumText D f written) :
    ∃ sum, SumText D (f + e.meaning) sum ∧
      Writes (fun scribe => Writers.addTerm scribe written e) sum := by
  unfold Writers.addTerm
  cases hnegative : Writers.isNegativeTerm e with
  | true => exact ⟨_, hwritten.addTerm (h.product (.inr hnegative)), h.writes.bind (.pure _)⟩
  | false =>
    exact ⟨_, hwritten.addTerm (h.product_wrapText (by decide)), (h.writes.wrap _).bind (.pure _)⟩

/-- The sum of the values. -/
def valueOfSum (es : List Expression) : Meaning :=
  fun σ => (es.map (·.meaning σ)).sum

theorem valueOfSum_cons (e : Expression) (es : List Expression) :
    valueOfSum (e :: es) = e.meaning + valueOfSum es :=
  funext fun _ => List.sum_cons

/-- By induction on the terms that are still to be written. -/
theorem exists_foldlM_addTerm (h : ∀ e ∈ es, ∃ text, Spelled D e text)
    (hwritten : SumText D f written) :
    ∃ sum, SumText D (f + valueOfSum es) sum ∧
      Writes (fun scribe => es.foldlM (Writers.addTerm scribe) written) sum := by
  induction es generalizing f written with
  | nil => exact ⟨written, hwritten.congr fun σ _ => by simp [valueOfSum], .pure _⟩
  | cons e es ih =>
    obtain ⟨text, htext⟩ := h e List.mem_cons_self
    obtain ⟨longer, hlonger, hterm⟩ := htext.exists_addTerm hwritten
    obtain ⟨sum, hsum, hrest⟩ := ih (fun a ha => h a (List.mem_cons_of_mem _ ha)) hlonger
    rw [add_assoc, ← valueOfSum_cons] at hsum
    exact ⟨sum, hsum, hterm.bind hrest⟩

/-- An expression with an operator of sums. -/
theorem Spelled.ofSum {es : List Expression}
    (hprecedence : standardPrecedence (.function name es) = .addition)
    (hname : name ≠ "Negate")
    (hwrites : Writes (fun scribe => scribe.serialize (.function name es)) text)
    (hsum : SumText D (Expression.function name es).meaning text) :
    Spelled D (.function name es) text := by
  have hnot : ¬Precedence.addition < standardPrecedence (.function name es) := by
    rw [hprecedence]
    exact Nat.lt_irrefl _
  refine ⟨hwrites, hsum, ?_, fun h => absurd h hnot, nofun, fun h => absurd ?_ hnot⟩
  · rintro (h | h)
    · exact absurd h hnot
    · rw [Writers.isNegativeTerm, show (Expression.function name es).headName? = some name from rfl,
        show (Expression.function name es).number? = none from rfl] at h
      simp [hname] at h
  · exact Nat.lt_trans (show (Precedence.addition : Precedence) < .power by decide) h

theorem Spelled.add (hD : DefinedOn D (.function "Add" es)) (hne : es ≠ [])
    (h : ∀ e ∈ es, ∃ text, Spelled D e text) : ∃ text, Spelled D (.function "Add" es) text := by
  obtain ⟨first, rest, rfl⟩ := List.exists_cons_of_ne_nil hne
  obtain ⟨start, hstart⟩ := h first List.mem_cons_self
  obtain ⟨sum, hsum, hrest⟩ := exists_foldlM_addTerm
    (fun a ha => h a (List.mem_cons_of_mem _ ha)) (hstart.sum_wrapText .addition)
  refine ⟨sum, .ofSum (standardPrecedence_add _) (by decide)
    (.hook lookup_add rfl ((hstart.writes.wrap _).bind hrest)) ?_⟩
  refine hsum.congr fun σ hσ => ?_
  rw [← valueOfSum_cons]
  exact Option.some.inj (hD.operation hσ)

theorem join_sign_left (left right : String) : Text.join (left ++ "-") right = left ++ "-" ++ right := by
  have hsevers := Text.Severs.of_sign (c := '-') rfl rfl left.toList right.toList
  unfold Text.join
  cases hletter : Text.startsWithLetter right.toList with
  | false => rfl
  | true =>
    have hword : Text.endsInControlWord (left ++ "-").toList = false := by
      rw [String.toList_append]
      exact hsevers.1 hletter
    rw [hword]
    rfl

theorem join_sign_right (left : String) : Text.join left "-" = left ++ "-" := by
  have hletter : Text.startsWithLetter "-".toList = false := rfl
  rw [Text.join, hletter, Bool.false_and]
  rfl

theorem Writes.subtract (ha : Writes (fun scribe => scribe.wrap a .addition) written)
    (hb : Writes (fun scribe => scribe.wrap b Precedence.addition.tighter) text) :
    Writes (fun scribe => scribe.serialize (.function "Subtract" [a, b])) (written ++ "-" ++ text) := by
  refine .kind lookup_subtract rfl rfl ?_
  have hfirst : Writes (fun scribe => Serializer.addOperand scribe
      (.ofInfix "Subtract" "-" .addition) 1 "" (a, 0)) written :=
    ha.bind (.of_eq (Text.join_empty_left _))
  have hsecond : Writes (fun scribe => Serializer.addOperand scribe
      (.ofInfix "Subtract" "-" .addition) 1 written (b, 1)) (written ++ "-" ++ text) := by
    have hjoin : Text.join (Text.join written "-") text = written ++ "-" ++ text := by
      rw [join_sign_right, join_sign_left]
    exact hb.bind (.of_eq hjoin)
  exact hfirst.bind (hsecond.bind (.pure _))

theorem Writes.negate (ha : Writes (fun scribe => scribe.wrap a Precedence.addition.tighter) text) :
    Writes (fun scribe => scribe.serialize (.function "Negate" [a])) ("-" ++ text) := by
  have hjoin : Text.join "-" text = "-" ++ text := by
    have h := join_sign_left "" text
    rw [String.empty_append] at h
    exact h
  exact .kind lookup_negate rfl rfl (ha.bind (.of_eq hjoin))

theorem Spelled.subtract (hD : DefinedOn D (.function "Subtract" [a, b])) (ha : Spelled D a written)
    (hb : Spelled D b text) : ∃ text, Spelled D (.function "Subtract" [a, b]) text := by
  refine ⟨_, .ofSum (standardPrecedence_subtract _) (by decide)
    (.subtract (ha.writes.wrap _) (hb.writes.wrap _)) ?_⟩
  refine ((ha.sum_wrapText _).minus (hb.product_wrapText (by decide))).congr fun σ hσ => ?_
  exact Option.some.inj (hD.operation hσ)

theorem Spelled.negate (hD : DefinedOn D (.function "Negate" [a])) (ha : Spelled D a text) :
    ∃ text, Spelled D (.function "Negate" [a]) text := by
  let inside := wrapText a Precedence.addition.tighter text
  have hprecedence := standardPrecedence_negate [a]
  have hnot : ¬Precedence.addition < standardPrecedence (.function "Negate" [a]) := by
    rw [hprecedence]
    exact Nat.lt_irrefl _
  have hsigned : SignedText D (Expression.function "Negate" [a]).meaning ("-" ++ inside) :=
    (SignedText.minus (ha.product_wrapText (by decide))).congr fun σ hσ =>
      Option.some.inj (hD.operation hσ)
  refine ⟨"-" ++ inside, .negate (ha.writes.wrap _), hsigned.sum, fun _ => hsigned,
    fun h => absurd h hnot, nofun, fun h => absurd ?_ hnot⟩
  exact Nat.lt_trans (show (Precedence.addition : Precedence) < .power by decide) h

/-! ### Fractions and powers -/

theorem Spelled.ofUnit (hwrites : Writes (fun scribe => scribe.serialize (.function name es)) text)
    (hunit : UnitText D (Expression.function name es).meaning text) :
    Spelled D (.function name es) text :=
  ⟨hwrites, hunit.sum, fun _ => hunit.signed, fun _ _ => hunit.phrase.startsWith_eq_false, nofun,
    fun _ _ => hunit⟩

theorem Writes.divide (ha : Writes (fun scribe => scribe.serialize a) written)
    (hb : Writes (fun scribe => scribe.serialize b) text) :
    Writes (fun scribe => scribe.serialize (.function "Divide" [a, b]))
      (Writers.fraction written text) := by
  have hargument {e : Expression} {t : String} (he : Writes (fun scribe => scribe.serialize e) t)
      (start : String) : Writes (fun scribe => do return start ++ Text.braced (← scribe.serialize e))
        (start ++ Text.braced t) :=
    he.bind (.pure _)
  exact .kind lookup_divide rfl rfl ((hargument ha _).bind ((hargument hb _).bind (.pure _)))

theorem Spelled.divide (hD : DefinedOn D (.function "Divide" [a, b])) (ha : Spelled D a written)
    (hb : Spelled D b text) : ∃ text, Spelled D (.function "Divide" [a, b]) text := by
  have hvalue (σ : String → ℚ) (hσ : σ ∈ D) : b.meaning σ ≠ 0 ∧
      a.meaning σ / b.meaning σ = (Expression.function "Divide" [a, b]).meaning σ := by
    have h := hD.operation hσ
    rw [List.map_cons, List.map_cons, List.map_nil, Expression.operation?_divide] at h
    split at h
    · cases h
    · next hne => exact ⟨hne, Option.some.inj h⟩
  refine ⟨_, .ofUnit (.divide ha.writes hb.writes) ?_⟩
  exact (UnitText.fraction ha.sum hb.sum fun σ hσ => (hvalue σ hσ).1).congr fun σ hσ =>
    (hvalue σ hσ).2

theorem Writers.mem_of_contains {cs piece : List Char} (h : Writers.contains cs piece = true) :
    ∀ c ∈ piece, c ∈ cs := by
  induction cs with
  | nil =>
    rw [contains, Bool.or_false, List.isPrefixOf_iff_prefix, List.prefix_nil] at h
    rw [h]
    exact fun _ hc => hc
  | cons d rest ih =>
    rw [contains, Bool.or_eq_true] at h
    rcases h with h | h
    · exact (List.isPrefixOf_iff_prefix.mp h).subset
    · exact fun c hc => List.mem_cons_of_mem _ (ih h c hc)

/-- What is written without a caret and without letters carries no power of ten. -/
theorem Writers.carriesPower_eq_false {text : String} (hcaret : '^' ∉ text.toList)
    (hletter : 'c' ∉ text.toList) : carriesPower {} text = false := by
  have hproduct : contains text.toList "\\cdot".toList = false := by
    rw [Bool.eq_false_iff]
    exact fun h => hletter (mem_of_contains h 'c' (by decide))
  show (text.toList.contains '^' || (_ && contains text.toList "\\cdot".toList)) = false
  rw [hproduct, Bool.and_false, Bool.or_false]
  simpa using hcaret

theorem carriesPower_numeralText (k : Nat) : Writers.carriesPower {} (numeralText k) = false := by
  have hmem : ∀ c ∈ (numeralText k).toList, c.isDigit = true ∨ c = '\\' ∨ c = ',' := by
    intro c hc
    rw [numeralText, String.toList_ofList] at hc
    exact NumberFormat.mem_joinGroups NumberFormat.exists_triplesFromRight (Digits.ofNat_ne_nil k)
      Digits.isDigit_of_mem_ofNat hc
  refine Writers.carriesPower_eq_false (fun h => ?_) fun h => ?_ <;>
    rcases hmem _ h with h | h | h <;> exact absurd h (by decide)

/-- What an exponent is set on. -/
def scriptText (a : Expression) (text : String) : String :=
  let inside := wrapText a Precedence.power.tighter text
  if Text.startsWith inside '-' || (a.isNumber && Writers.carriesPower {} inside) then
    Text.parenthesized inside
  else
    inside

theorem Writes.scriptBase (h : Writes (fun scribe => scribe.serialize a) text) :
    Writes (fun scribe => Writers.scriptBase scribe a) (scriptText a text) := by
  have hstandard : Writes (fun scribe => scribe.wrap a Precedence.power.tighter >>= fun text =>
      Pure.pure (if Text.startsWith text '-' || (a.isNumber && Writers.carriesPower {} text) then
        Text.parenthesized text else text)) (scriptText a text) :=
    (h.wrap _).bind (.pure _)
  refine hstandard.congr fun scribe hscribe => ?_
  unfold Writers.scriptBase
  rw [hscribe.options]
  rfl

theorem scriptText_of_unit (hunit : UnitText D f (wrapText a Precedence.power.tighter text))
    (hnumber : a.isNumber = false) :
    scriptText a text = wrapText a Precedence.power.tighter text := by
  refine if_neg ?_
  rw [hunit.phrase.startsWith_eq_false, hnumber]
  exact Bool.false_ne_true

theorem scriptText_number (n : Number) (h : (negative && k != 0) = false) :
    scriptText (.number n) (signedNumeral negative k) = numeralText k := by
  rw [signedNumeral_of_not h]
  refine if_neg ?_
  rw [wrapText_number, startsWith_numeralText, carriesPower_numeralText, Bool.and_false]
  exact Bool.false_ne_true

theorem scriptText_negative (n : Number) (h : (negative && k != 0) = true) :
    scriptText (.number n) (signedNumeral negative k) =
      Text.parenthesized (signedNumeral negative k) := by
  refine if_pos ?_
  rw [wrapText_number, signedNumeral, h, if_pos rfl, Text.startsWith, String.toList_append]
  rfl

/-- A power of a unit, or of the digits of a number. -/
theorem Spelled.raised (h : Spelled D a text) {k : Nat} (hk : k < tenPow 15) :
    PhraseText D (fun σ => a.meaning σ ^ k)
      (scriptText a text ++ "^" ++ Text.braced (numeralText k)) := by
  cases hnumber : a.isNumber with
  | false =>
    have hinside : UnitText D a.meaning (wrapText a Precedence.power.tighter text) := by
      unfold wrapText
      split
      · exact h.parenthesized
      · next hle =>
        refine h.unit (Nat.lt_of_lt_of_le ?_ (Nat.le_of_not_lt hle)) hnumber
        exact (show Precedence.power < Precedence.power.tighter by decide)
    rw [scriptText_of_unit hinside hnumber]
    exact (hinside.raised hk).phrase
  | true =>
    obtain ⟨n, rfl⟩ := Expression.exists_of_isNumber hnumber
    obtain ⟨negative, j, hj, rfl⟩ := h.number n rfl
    cases hsign : negative && j != 0 with
    | true =>
      rw [scriptText_negative n hsign]
      exact (h.parenthesized.raised hk).phrase
    | false =>
      rw [scriptText_number n hsign]
      refine (PhraseText.raised hj.lt hk).congr fun σ _ => ?_
      rw [Expression.meaning_number hj, signed_of_not hsign]

/-- A product or a power without a sign in front. -/
theorem Spelled.ofPhrase (hprecedence : standardPrecedence (.function name es) ≤ .power)
    (hwrites : Writes (fun scribe => scribe.serialize (.function name es)) text)
    (hphrase : PhraseText D (Expression.function name es).meaning text) :
    Spelled D (.function name es) text :=
  ⟨hwrites, (SignedText.phrase hphrase).sum, fun _ => .phrase hphrase,
    fun _ _ => hphrase.startsWith_eq_false, nofun,
    fun h => absurd h (Nat.not_lt_of_le hprecedence)⟩

theorem Writers.rationalParts?_number (h : n.IsWhole negative k) :
    rationalParts? (.number n) = none := by
  rw [rationalParts?]
  cases hvalue : n.toDouble? with
  | none => rfl
  | some value =>
    have hhalf (sign : Bool) : value ≠ .half sign := fun heq => h.toDouble?_ne sign (heq ▸ hvalue)
    rw [Option.bind_some, if_neg (hhalf false), if_neg (hhalf true)]

/-- What is written as a superscript: no root, no reciprocal, and a quotient of whole numbers only if
their texts have no groups of digits. -/
structure IsSuperscript (e : Expression) : Prop where
  nonnegative : Product.negativeNumber? e = none
  rational : ∀ p q, Writers.rationalParts? e = some (p, q) →
    (p, q) ≠ (1, 2) ∧ (p, q) ≠ (-1, 2) ∧ ∃ m n : Number, e = .function "Divide" [.number m, .number n] ∧
      ({} : NumberFormat).write m = Writers.integer p ∧ ({} : NumberFormat).write n = Writers.integer q

theorem IsSuperscript.ofNumber (h : n.IsWhole negative k) (hsign : (negative && k != 0) = false) :
    IsSuperscript (.number n) := by
  refine ⟨?_, fun p q hparts => ?_⟩
  · rw [Expression.negativeNumber?_number h, hsign, if_neg Bool.false_ne_true]
  · rw [Writers.rationalParts?_number h] at hparts
    cases hparts

/-- A quotient of whole numbers is set as an exponent without being written. -/
theorem Writes.power (ha : Writes (fun scribe => scribe.serialize a) written)
    (hb : Writes (fun scribe => scribe.serialize b) text) (hsuper : IsSuperscript b) :
    Writes (fun scribe => scribe.serialize (.function "Power" [a, b]))
      (scriptText a written ++ "^" ++ Text.braced text) := by
  have hset (exponent : String) : Writes (fun scribe => do
      let below ← Writers.scriptBase scribe a
      return below ++ "^" ++ Text.braced exponent)
      (scriptText a written ++ "^" ++ Text.braced exponent) :=
    ha.scriptBase.bind (.pure _)
  refine .hook lookup_power rfl ?_
  cases hparts : Writers.rationalParts? b with
  | none =>
    have hplain : Writes (fun scribe => do
        let below ← Writers.scriptBase scribe a
        return below ++ "^" ++ Text.braced (← scribe.serialize b))
        (scriptText a written ++ "^" ++ Text.braced text) :=
      ha.scriptBase.bind (hb.bind (.pure _))
    refine hplain.congr fun scribe _ => ?_
    rw [Writers.power, hsuper.nonnegative, hparts]
  | some parts =>
    obtain ⟨p, q⟩ := parts
    obtain ⟨hhalf, hminus, m, n, rfl, hm, hn⟩ := hsuper.rational p q hparts
    have htext : text = Writers.fraction (Writers.integer p) (Writers.integer q) := by
      rw [← hm, ← hn]
      exact hb.unique (.divide (.ofNumber m) (.ofNumber n))
    refine htext ▸ (hset _).congr fun scribe _ => ?_
    rw [Writers.power, hsuper.nonnegative, hparts]
    dsimp only
    split
    · next heq => exact absurd (Option.some.inj heq) hhalf
    · next heq => exact absurd (Option.some.inj heq) hminus
    · next heq =>
      cases heq
      rfl
    · next heq => cases heq

theorem Spelled.power (ha : Spelled D a text) (hD : DefinedOn D a) (h : n.IsWhole negative k)
    (hsign : (negative && k != 0) = false) :
    ∃ text, Spelled D (.function "Power" [a, .number n]) text := by
  have hexponent := Writes.number h
  rw [signedNumeral_of_not hsign] at hexponent
  refine ⟨_, .ofPhrase (standardPrecedence_power _ ▸ Nat.le_refl _)
    (.power ha.writes hexponent (.ofNumber h hsign)) ?_⟩
  have hsmall : negative = false ∨ k = 0 :=
    (Bool.and_eq_false_iff.mp hsign).imp id bne_eq_false_iff_eq.mp
  exact (ha.raised h.lt).congr fun σ hσ => ((hD.power h hsmall).2 σ hσ).symm

theorem SumText.one : SumText D (fun _ => 1) "1" := by
  have hone : "1" = numeralText 1 := by decide
  rw [hone]
  exact (SignedText.phrase (.numeral (by decide))).sum.congr fun _ _ => Nat.cast_one

/-- A power with a negative exponent is written as a reciprocal. -/
theorem Writes.reciprocal {r : Expression} (hr : Product.reciprocal? e = some r)
    (h : Writes (fun scribe => scribe.serialize r) text) :
    Writes (fun scribe => scribe.serialize e) (Writers.fraction "1" text) := by
  unfold Product.reciprocal? at hr
  split at hr
  · next base exponent =>
    obtain ⟨m, hm, hr⟩ := Option.map_eq_some_iff.mp hr
    have hbelow : Writes (fun scribe => scribe.serialize r >>= fun below =>
        Pure.pure (Writers.fraction "1" below)) (Writers.fraction "1" text) :=
      h.bind (.pure _)
    have hpower : Writes (fun scribe => Writers.power scribe [base, exponent])
        (Writers.fraction "1" text) := by
      refine hbelow.congr fun scribe _ => ?_
      rw [Writers.power, hm, ← hr]
      dsimp only
      split <;> rfl
    exact .hook lookup_power rfl hpower
  · cases hr

/-- A power with the exponent one half is written as a root. -/
theorem Writes.rootOfHalf (hnonnegative : Product.negativeNumber? b = none)
    (hhalf : Writers.rationalParts? b = some (1, 2))
    (h : Writes (fun scribe => scribe.serialize a) text) :
    Writes (fun scribe => scribe.serialize (.function "Power" [a, b]))
      ("\\sqrt" ++ Text.braced text) := by
  have hroot : Writes (fun scribe => do return "\\sqrt" ++ Text.braced (← scribe.serialize a))
      ("\\sqrt" ++ Text.braced text) :=
    h.bind (.pure _)
  refine .hook lookup_power rfl (hroot.congr fun scribe _ => ?_)
  rw [Writers.power, hnonnegative, hhalf]
  rfl

/-- A power with the exponent minus one half, as a quotient, is written as a root below a one. -/
theorem Writes.inverseRoot (hnonnegative : Product.negativeNumber? b = none)
    (hhalf : Writers.rationalParts? b = some (-1, 2))
    (h : Writes (fun scribe => scribe.serialize a) text) :
    Writes (fun scribe => scribe.serialize (.function "Power" [a, b]))
      (Writers.fraction "1" ("\\sqrt" ++ Text.braced text)) := by
  have hroot : Writes (fun scribe => do
      return Writers.fraction "1" ("\\sqrt" ++ Text.braced (← scribe.serialize a)))
      (Writers.fraction "1" ("\\sqrt" ++ Text.braced text)) :=
    h.bind (.pure _)
  refine .hook lookup_power rfl (hroot.congr fun scribe _ => ?_)
  rw [Writers.power, hnonnegative, hhalf]
  rfl

theorem Spelled.reciprocal (he : Arithmetic e) (hD : DefinedOn D e) {r : Expression}
    (hr : Product.reciprocal? e = some r) (h : Spelled D r text) :
    ∃ text, Spelled D e text := by
  have hvalue := (he.reciprocal hD hr).2
  have hunit : UnitText D e.meaning (Writers.fraction "1" text) := by
    refine (UnitText.fraction .one h.sum fun σ hσ => (hvalue σ hσ).1).congr fun σ hσ => ?_
    rw [(hvalue σ hσ).2, one_div]
  have hwrites := Writes.reciprocal hr h.writes
  obtain ⟨a, n, k, rfl, -⟩ := he.exists_of_reciprocal? hr
  exact ⟨_, .ofPhrase (standardPrecedence_power _ ▸ Nat.le_refl _) hwrites
    hunit.phrase⟩

/-! ### Roots, functions, indices and factorials -/

theorem Writes.squareRoot (h : Writes (fun scribe => scribe.serialize a) text) :
    Writes (fun scribe => scribe.serialize (.function "Sqrt" [a])) ("\\sqrt" ++ Text.braced text) := by
  have hargument : Writes (fun scribe => do return "\\sqrt" ++ Text.braced (← scribe.serialize a))
      ("\\sqrt" ++ Text.braced text) :=
    h.bind (.pure _)
  exact .kind lookup_sqrt rfl rfl (hargument.bind (.pure _))

/-- A function of one argument. -/
theorem Writes.call {n : Notation} (hname : Dictionary.standard.lookup n.name = some n)
    (hhook : n.writer = none) (hkind : n.kind = .function) (harity : n.arity.accepts 1 = true)
    (h : Writes (fun scribe => scribe.serialize a) text) :
    Writes (fun scribe => scribe.serialize (.function n.name [a]))
      (n.glyph ++ Text.parenthesized text) := by
  have hitem : Writes (fun scribe => scribe.serialize a >>= fun text =>
      Pure.pure (n.glyph ++ Text.parenthesized text)) (n.glyph ++ Text.parenthesized text) :=
    h.bind (.pure _)
  refine .kind hname hhook harity (hitem.congr fun scribe _ => ?_)
  rw [Serializer.byKind, hkind]
  simp [Scribe.list, String.intercalate_singleton]

theorem Writes.factorial (h : Writes (fun scribe => scribe.wrap a .trailing) text) :
    Writes (fun scribe => scribe.serialize (.function "Factorial" [a])) (text ++ "!") :=
  .kind lookup_factorial rfl rfl (h.bind (.pure _))

theorem Writes.subscript (ha : Writes (fun scribe => scribe.serialize a) written)
    (hb : Writes (fun scribe => scribe.serialize b) text) :
    Writes (fun scribe => scribe.serialize (.function "Subscript" [a, b]))
      (scriptText a written ++ "_" ++ Text.braced text) :=
  .hook lookup_subscript rfl (ha.scriptBase.bind (hb.bind (.pure _)))

/-! ### Products -/

theorem Writers.needsGlyph_of_isNumber (h : e.isNumber = true) (previous : Expression) (text : String) :
    needsGlyph previous e text = true := by
  rw [needsGlyph, h, Bool.true_or, Bool.true_or]

/-- Another factor is written, and then those behind it. -/
theorem Writes.moreFactors (h : Writes (fun scribe => scribe.serialize e) t)
    (hmore : Writes (fun scribe => Writers.moreFactors scribe e (Text.join (Text.join written
      (if Writers.needsGlyph a e (wrapText e .multiplication t) then "\\times" else ""))
      (wrapText e .multiplication t)) es) text) :
    Writes (fun scribe => Writers.moreFactors scribe a written (e :: es)) text := by
  have hstandard : Writes (fun scribe => scribe.wrap e .multiplication >>= fun t =>
      Writers.moreFactors scribe e (Text.join (Text.join written
        (if Writers.needsGlyph a e t then "\\times" else "")) t) es) text :=
    (h.wrap _).bind hmore
  refine hstandard.congr fun scribe hscribe => ?_
  rw [Writers.moreFactors, hscribe.options]

/-- Writes the factors of a sorted product behind a sign. -/
def Writers.quotient (scribe : Scribe) (parts : Product) (sign : String) :
    Except WriteFault String := do
  let top ← factors scribe parts.numerator
  if parts.denominator.isEmpty then
    return sign ++ top
  else
    let bottom ← factors scribe parts.denominator
    return sign ++ fraction (if top = "" then "1" else top) bottom

theorem Writers.product_eq_quotient (scribe : Scribe) (hne : es ≠ []) :
    product scribe es = quotient scribe (.ofFactors es)
      (if (Product.ofFactors es).negative then "-" else "") := by
  refine if_neg ?_
  rw [List.isEmpty_iff]
  exact hne

section

variable {parts : Product} {top bottom : String}

/-- All factors are above the bar. -/
theorem Writes.quotient_whole (hden : parts.denominator = [])
    (h : Writes (fun scribe => Writers.factors scribe parts.numerator) text) (sign : String) :
    Writes (fun scribe => Writers.quotient scribe parts sign) (sign ++ text) := by
  unfold Writers.quotient
  rw [hden]
  exact h.bind (.pure _)

/-- Some factors are below the bar. -/
theorem Writes.quotient_fraction (hden : parts.denominator ≠ [])
    (htop : Writes (fun scribe => Writers.factors scribe parts.numerator) top)
    (hbottom : Writes (fun scribe => Writers.factors scribe parts.denominator) bottom) (sign : String) :
    Writes (fun scribe => Writers.quotient scribe parts sign)
      (sign ++ Writers.fraction (if top = "" then "1" else top) bottom) := by
  unfold Writers.quotient
  rw [List.isEmpty_eq_false_iff.mpr hden]
  exact htop.bind (hbottom.bind (.pure _))

/-- The sign comes in front of the text. -/
theorem Writes.quotient_sign (h : Writes (fun scribe => Writers.quotient scribe parts "") text)
    (sign : String) : Writes (fun scribe => Writers.quotient scribe parts sign) (sign ++ text) := by
  have hsigned : Writes (fun scribe => Writers.quotient scribe parts "" >>= fun text =>
      Pure.pure (sign ++ text)) (sign ++ text) :=
    h.bind (.pure _)
  refine hsigned.congr fun scribe _ => ?_
  unfold Writers.quotient
  rw [bind_assoc]
  refine bind_congr fun top => ?_
  split
  · rw [LawfulMonad.pure_bind, String.empty_append]
  · simp only [bind_assoc, LawfulMonad.pure_bind, String.empty_append]

/-- A product with its sign. -/
theorem Writes.multiply (hne : es ≠ [])
    (h : Writes (fun scribe => Writers.quotient scribe (.ofFactors es)
      (if (Product.ofFactors es).negative then "-" else "")) text) :
    Writes (fun scribe => scribe.serialize (.function "Multiply" es)) text :=
  .hook lookup_multiply rfl (h.congr fun scribe _ => Writers.product_eq_quotient scribe hne)

end

end TexFormula
