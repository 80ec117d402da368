import TexFormula.Proofs.OperatorTable
import TexFormula.Proofs.ShadowedOperators
import TexFormula.Proofs.SlotTexts
import TexFormula.Proofs.WrittenTokens

/-!
# Arguments between commas

The comma between two arguments is an operator itself, the one of a sequence. An argument is written
without regard to that: `parse_run_arguments` says that an application to letters and to operations of
two letters is read back where the operator binds more tightly than a sequence. In the first argument
it is enough that its right operand does, and in the only one it may be as loose as it likes.
-/

open TexFormula.Parser

namespace TexFormula

open Dictionary (standardEntries)

/-- An infix operator without hooks, at a trigger that the standard dictionary does not know and to
which only notations give a meaning. -/
structure Notation.IsNewInfix (n : Notation) : Prop where
  bare : n.Bare
  infixOp : n.isInfix = true
  accepts : n.arity.accepts 2 = true
  free : n.HasFreeTrigger
  fresh : ∀ m ∈ standardEntries, m.trigger ≠ n.trigger
  name : n.name ∉ ["f", "Sequence"]

/-- The notation of the comma. -/
def Notation.comma : Notation :=
  ((ofInfix "Sequence" "," .sequence).variadic.withArity 0 none).withLatex ", "

/-! ### The dictionary -/

/-- An infix operator without a hook that reads, at a trigger that the standard dictionary does not
know. -/
structure Notation.IsFreshInfix (n : Notation) : Prop where
  infixOp : n.isInfix = true
  reader : n.reader = none
  aliasOf : n.aliasOf = none
  serializeOnly : n.serializeOnly = false
  fresh : ∀ m ∈ standardEntries, m.trigger ≠ n.trigger
  ne_letter : ∀ c, Text.isLetter c = true → n.trigger ≠ some (String.singleton c)

namespace Notation.IsFreshInfix

variable {n : Notation} {d : Dictionary} {trigger : String}

theorem kind_eq (hn : n.IsFreshInfix) : n.kind = .infixOp n.isVariadic := by
  have hinfix := hn.infixOp
  rw [isInfix] at hinfix
  split at hinfix
  · next variadic hkind =>
    rw [isVariadic, hkind]
    cases variadic <;> rfl
  · cases hinfix

theorem followsOperand (hn : n.IsFreshInfix) : n.followsOperand = true := by
  rw [Notation.followsOperand, hn.kind_eq]

theorem operators_trigger (hn : n.IsFreshInfix) (htrigger : n.trigger = some trigger) :
    Dictionary.operators ⟨standardEntries ++ [n], []⟩ trigger = [n] := by
  have hnone : Dictionary.standard.operators trigger = [] :=
    List.eq_nil_iff_forall_not_mem.mpr fun m hm => by
      obtain ⟨hm, hsame⟩ := Dictionary.entry_of_mem_operators hm
      exact hn.fresh m hm (hsame.trans htrigger.symm)
  rw [Dictionary.operators_append Dictionary.aliasOf_standardEntries hn.aliasOf hn.serializeOnly
    hn.followsOperand, if_pos htrigger]
  exact congrArg (List.cons n) hnone

theorem operands_letter (hn : n.IsFreshInfix) {c : Char} (hc : Text.isLetter c = true) :
    Dictionary.operands ⟨standardEntries ++ [n], []⟩ (String.singleton c) = [] ∧
      Dictionary.hasOperator ⟨standardEntries ++ [n], []⟩ (String.singleton c) = false := by
  constructor
  · rw [Dictionary.operands_append Dictionary.aliasOf_standardEntries hn.aliasOf hn.serializeOnly
      hn.followsOperand]
    exact congrArg (List.filter _) (Dictionary.readAt_standard_letter hc)
  · rw [Dictionary.hasOperator, Dictionary.operators_append Dictionary.aliasOf_standardEntries
      hn.aliasOf hn.serializeOnly hn.followsOperand, if_neg (hn.ne_letter c hc)]
    exact Dictionary.hasOperator_standard_letter hc

end Notation.IsFreshInfix

namespace Notation.IsNewInfix

variable {n : Notation} {name : String}

theorem isFreshInfix (hn : n.IsNewInfix) : n.IsFreshInfix where
  infixOp := hn.infixOp
  reader := hn.bare.reader
  aliasOf := hn.bare.aliasOf
  serializeOnly := hn.bare.serializeOnly
  fresh := hn.fresh
  ne_letter c hc htrigger := by
    obtain ⟨kind, hmark, -, -, hglyph⟩ := hn.free.mark_glyph hn.bare
    rw [← Option.some.inj (htrigger.symm.trans hglyph), String.toList_singleton] at hmark
    rw [hmark.not_isLetter] at hc
    cases hc

theorem lookup_name (hn : n.IsNewInfix) :
    Dictionary.lookup ⟨standardEntries ++ [n], []⟩ n.name = some n := by
  rw [Dictionary.lookup, Dictionary.lastOf, List.reverse_append, List.reverse_singleton]
  refine List.find?_cons_of_pos ?_
  simp [Dictionary.canonicalName, hn.bare.aliasOf, hn.bare.parseOnly]

theorem lookup_of_ne (h : n.name ≠ name) :
    Dictionary.lookup ⟨standardEntries ++ [n], []⟩ name = Dictionary.standard.lookup name := by
  rw [Dictionary.lookup, Dictionary.lastOf, List.reverse_append, List.reverse_singleton]
  refine List.find?_cons_of_neg ?_
  simp [Dictionary.canonicalName, h]

theorem operators_comma (hn : n.IsNewInfix) :
    Dictionary.operators ⟨standardEntries ++ [n], []⟩ "," = [.comma] := by
  have hne : n.trigger ≠ some "," := fun h =>
    hn.fresh .comma (by simp [Notation.comma, standardEntries, Dictionary.sequences]) h.symm
  rw [Dictionary.operators_append Dictionary.aliasOf_standardEntries hn.bare.aliasOf
    hn.bare.serializeOnly hn.isFreshInfix.followsOperand, if_neg hne]
  rfl

end Notation.IsNewInfix

/-! ### Arguments -/

/-- A letter, or an operation of two letters. -/
inductive Argument where
  | letter (c : Char) (h : Text.isLetter c = true)
  | operation (a b : Char) (ha : Text.isLetter a = true) (hb : Text.isLetter b = true)

namespace Argument

def isOperation : Argument → Bool
  | letter _ _ => false
  | operation _ _ _ _ => true

def expression (n : Notation) : Argument → Expression
  | letter c _ => .symbol (String.singleton c)
  | operation a b _ _ =>
    .function n.name [.symbol (String.singleton a), .symbol (String.singleton b)]

def text (n : Notation) : Argument → String
  | letter c _ => String.singleton c
  | operation a b _ _ => Text.join (Text.join (String.singleton a) n.glyph) (String.singleton b)

/-- The tokens of an argument, with an operator of the given kind. -/
def tokens (kind : Token.Kind) : Argument → Language Token
  | letter c _ => Token.one (.letter c)
  | operation a b _ _ => Token.one (.letter a) * (Token.one kind * Token.one (.letter b))

/-- The operand is the argument, and no sequence that could go on behind it. -/
def ReadAs (n : Notation) (x : Argument) (o : Operand) (chained : Option String) : Prop :=
  o.expression = x.expression n ∧ chained ≠ some "Sequence"

end Argument

/-- The tokens of arguments behind commas. -/
def followingTokens (kind : Token.Kind) (xs : List Argument) : Language Token :=
  (xs.map fun x => Token.one (.punct ',') * x.tokens kind).prod

/-- The operator is tight enough for the commas that stand behind it and before it. -/
def KeepsArguments (n : Notation) : List Argument → Prop
  | [] => True
  | x :: xs =>
    (x.isOperation = true → xs ≠ [] → .sequence < rightPrecedence n) ∧
      ∀ y ∈ xs, y.isOperation = true → .sequence < n.precedence

/-! ### Reading -/

namespace Parser

variable {env : Env} {inner outer : Inner} {ctx : Context} {s : State} {t : Token}
  {ts rest after : List Token} {loosest : Precedence} {o : Operand} {chained : Option String}
  {n : Notation} {kind : Token.Kind} {x : Argument} {xs : List Argument} {P : Language Token}
  {e : Expression}

/-- The standard notations are read and one operator more, and unknown tokens in the standard way. -/
structure Env.IsExtendedBy (env : Env) (n : Notation) : Prop where
  dictionary : env.dictionary = ⟨standardEntries ++ [n], []⟩
  unknownTokens : env.options.unknownTokens = .standard

/-- A letter is a symbol, as it is without the operator. -/
theorem runs_operand_letter (hn : n.IsFreshInfix) (henv : env.IsExtendedBy n) {c : Char}
    (hc : Text.isLetter c = true) (hs : s.rest = t :: rest) (ht : t.kind = .letter c)
    (hclosers : s.Delimited) :
    Runs (operand env inner) s (some (.ofName (String.singleton c))) (s.forward 1) := by
  obtain ⟨hoperands, hoperator⟩ := hn.operands_letter hc
  rw [← henv.dictionary] at hoperands hoperator
  exact runs_operand_of_letter hs ht hc hclosers henv.unknownTokens hoperands hoperator

theorem reads_letter (hn : n.IsFreshInfix) (henv : env.IsExtendedBy n) {c : Char}
    (hc : Text.isLetter c = true) (follow : List Token → Prop) :
    Reads env inner ctx .atomic follow
      (fun o chained => o.expression = .symbol (String.singleton c) ∧ chained = none)
      (Token.one (.letter c)) := by
  rintro _ ⟨t, rfl, ht⟩ after s loosest hs hctx - -
  exact ⟨_, none, ⟨rfl, rfl⟩,
    leadsTo_of_operand (runs_operand_letter hn henv hc hs ht (ctx.delimited hctx))⟩

/-- An argument ends: the list does, or a comma is next. -/
def EndsArgument (after : List Token) : Prop :=
  ∀ t ∈ after.head?, Closing t ∨ t.kind = .punct ','

theorem EndsSum.endsArgument (h : EndsSum after) : EndsArgument after :=
  fun t ht => .inl (h t ht)

theorem stops_of_endsSum (h : EndsSum s.rest) : Stops env inner loosest s := by
  cases hrest : s.rest with
  | nil => exact stops_of_nil hrest
  | cons t rest => exact stops_of_closing hrest (h t (by rw [hrest]; rfl))

/-- The comma of another argument ends the one before it. -/
theorem endsArgument_of_comma : ∀ y ∈ xs, ∀ us ∈ Token.one (.punct ',') * y.tokens kind, ∀ after,
    EndsArgument (us ++ after) := by
  intro y _ us hus after t ht
  obtain ⟨_, ⟨comma, rfl, hcomma⟩, vs, -, rfl⟩ := Language.mem_mul.mp hus
  rw [← Option.some.inj ht]
  exact .inr hcomma

/-- The chain goes on with a comma and the expression behind it. -/
theorem Meets.leadsTo_of_comma {s₁ : State} (hs : Meets env s t rest) (ht : t.kind = .punct ',')
    (hcomma : env.dictionary.operators "," = [.comma])
    (hright : Runs (outer.expression (rightPrecedence .comma)) (s.forward 1) e s₁)
    (he : e.isMissing = false) (hle : s₁.rest.length ≤ rest.length) (hloosest : loosest ≤ .sequence)
    {fuel : Nat} (hfuel : s.rest.length ≤ fuel) :
    LeadsTo env outer loosest (chain env outer loosest fuel o chained) s
      ⟨extend "Sequence" (chained == some "Sequence") o.expression e, false⟩ (some "Sequence") s₁ := by
  have htrigger : t.trigger? = some "," := by rw [Token.trigger?, ht]; rfl
  exact hs.leadsTo_of_variadic (by rw [ht]; decide) htrigger hcomma rfl rfl hloosest hright he hle hfuel

section

variable (hn : n.IsNewInfix) (henv : env.IsExtendedBy n)

include hn henv

theorem stops_of_endsArgument (hs : s.Delimited) (h : EndsArgument s.rest)
    (hloosest : .sequence < loosest) : Stops env inner loosest s := by
  cases hrest : s.rest with
  | nil => exact stops_of_nil hrest
  | cons t rest =>
    rcases h t (by rw [hrest]; rfl) with hclosing | hcomma
    · exact stops_of_closing hrest hclosing
    · have hfree : Free t.kind := by rw [hcomma]; decide
      have htrigger : t.trigger? = some "," := by rw [Token.trigger?, hcomma]; rfl
      have hoperators : env.dictionary.operators "," = [.comma] := by
        rw [henv.dictionary]
        exact hn.operators_comma
      exact stops_of_loose hrest hfree.continues hfree.ne_parenthesis hs htrigger hoperators
        (Nat.not_le_of_lt hloosest)

/-- An operation, where what follows ends its right operand. -/
theorem reads_operation (hfree : Free kind) (htrigger : kind.trigger? = some n.glyph)
    (hglyph : n.trigger = some n.glyph) (houter : ∀ p, outer.expression p = expressionAt env inner p)
    {follow : List Token → Prop}
    (hstop : ∀ s : State, s.Delimited → follow s.rest → Stops env inner (rightPrecedence n) s)
    {a b : Char} (ha : Text.isLetter a = true) (hb : Text.isLetter b = true) :
    Reads env outer ctx n.precedence follow
      (fun o chained => o.expression = (Argument.operation a b ha hb).expression n ∧
        chained = chainName? n)
      ((Argument.operation a b ha hb).tokens kind) := by
  have hoperators : env.dictionary.operators n.glyph = [n] := by
    rw [henv.dictionary]
    exact hn.isFreshInfix.operators_trigger hglyph
  refine (reads_letter hn.isFreshInfix henv ha fun _ => True).operator hfree htrigger hoperators
    n.precedence.le_atomic (fun _ _ _ _ _ _ => trivial) ?_
  rintro _ ⟨t, rfl, ht⟩ after s o chained hs hctx hafter ⟨hexpression, rfl⟩
  have hclosers := ctx.delimited hctx
  have hrest : (s.forward 1).rest = after := by
    rw [State.rest_forward, hs]
    rfl
  have hright : Runs (outer.expression (rightPrecedence n)) s (.symbol (String.singleton b))
      (s.forward 1) := by
    rw [houter]
    exact (leadsTo_of_operand (runs_operand_letter hn.isFreshInfix henv hb hs ht hclosers)).runs
      (hstop _ (hclosers.forward 1) (by rwa [hrest]))
  have happly : Runs (applyOperator env outer n o.expression none) s _ (s.forward 1) :=
    runs_applyOperator_of_infixOp hn.bare.reader hn.isFreshInfix.kind_eq hright rfl o.expression none
  rw [show (none == some n.name) = false from rfl, Bool.and_false, hexpression] at happly
  refine ⟨_, ⟨rfl, rfl⟩, ?_⟩
  rw [hexpression]
  exact happly

/-- An argument, where what follows ends its right operand if it is an operation. -/
theorem reads_argument (hfree : Free kind) (htrigger : kind.trigger? = some n.glyph)
    (hglyph : n.trigger = some n.glyph) (houter : ∀ p, outer.expression p = expressionAt env inner p)
    {p : Precedence} {follow : List Token → Prop} (hp : x.isOperation = true → p ≤ n.precedence)
    (hstop : x.isOperation = true → ∀ s : State, s.Delimited → follow s.rest →
      Stops env inner (rightPrecedence n) s) :
    Reads env outer ctx p follow
      (x.ReadAs n) (x.tokens kind) := by
  cases x with
  | letter c hc =>
    refine (reads_letter hn.isFreshInfix henv hc follow).mono p.le_atomic (fun _ h => h) ?_
    rintro o _ ⟨ho, rfl⟩
    exact ⟨ho, nofun⟩
  | operation a b ha hb =>
    refine (reads_operation hn henv hfree htrigger hglyph houter (hstop rfl) ha hb).mono (hp rfl)
      (fun _ h => h) ?_
    rintro o _ ⟨ho, rfl⟩
    refine ⟨ho, fun heq => ?_⟩
    rw [chainName?] at heq
    split at heq
    · exact hn.name (by simp [Option.some.inj heq])
    · cases heq

/-- A comma and the argument behind it. -/
theorem leadsTo_of_comma (houter : ∀ p, outer.expression p = expressionAt env inner p)
    {R : Operand → Option String → Prop}
    (hx : Reads env inner ctx Precedence.sequence.tighter EndsArgument R P)
    (hR : ∀ o chained, R o chained → o.expression = e) (he : e.isMissing = false)
    (hts : ts ∈ Token.one (.punct ',') * P) (hs : s.rest = ts ++ after) (hctx : ctx.holds s)
    (hafter : EndsArgument after) (hloosest : loosest ≤ .sequence) {fuel : Nat}
    (hfuel : s.rest.length ≤ fuel) :
    LeadsTo env outer loosest (chain env outer loosest fuel o chained) s
      ⟨extend "Sequence" (chained == some "Sequence") o.expression e, false⟩ (some "Sequence")
      (s.forward ts.length) := by
  obtain ⟨_, ⟨t, rfl, ht⟩, us, hus, rfl⟩ := Language.mem_mul.mp hts
  rw [List.append_assoc] at hs
  have hfree : Free t.kind := by rw [ht]; decide
  have hoperators : env.dictionary.operators "," = [.comma] := by
    rw [henv.dictionary]
    exact hn.operators_comma
  have hthere : (s.forward 1).rest = us ++ after := by
    rw [State.rest_forward, hs]
    rfl
  have hend : ((s.forward 1).forward us.length).rest = after := by
    rw [State.rest_forward, hthere, List.drop_left]
  have hctx' := ctx.forward 1 hctx
  have hright : Runs (outer.expression (rightPrecedence .comma)) (s.forward 1) e
      ((s.forward 1).forward us.length) := by
    rw [houter]
    have htight : Precedence.sequence < rightPrecedence .comma := by decide
    have hstop : Stops env inner (rightPrecedence .comma) ((s.forward 1).forward us.length) :=
      stops_of_endsArgument hn henv ((ctx.delimited hctx').forward _) (by rwa [hend]) htight
    obtain ⟨o', chained', ho', hruns⟩ := hx.runs hus hthere hctx' (Nat.le_refl _) hafter hstop
    rwa [hR o' chained' ho'] at hruns
  rw [State.forward_forward] at hright
  rw [List.length_append, List.length_singleton]
  refine (hfree.continues.meets hs (ctx.delimited hctx)).leadsTo_of_comma ht hoperators hright he ?_
    hloosest hfuel
  rw [State.rest_forward, hs]
  simp

theorem exists_leadsTo_of_following
    (houter : ∀ p, outer.expression p = expressionAt env inner p)
    (hxs : ∀ y ∈ xs, Reads env inner ctx Precedence.sequence.tighter EndsArgument
      (y.ReadAs n) (y.tokens kind))
    {done : List Expression} (hdone : done ≠ []) (ho : Collects "Sequence" done o chained)
    (hts : ts ∈ followingTokens kind xs) (hs : s.rest = ts ++ after) (hctx : ctx.holds s)
    (hafter : EndsSum after) (hloosest : loosest ≤ .sequence) :
    ∃ o' chained', Collects "Sequence" (done ++ xs.map (·.expression n)) o' chained' ∧
      ∀ fuel, s.rest.length ≤ fuel → LeadsTo env outer loosest
        (chain env outer loosest fuel o chained) s o' chained' (s.forward ts.length) := by
  obtain ⟨o', chained', ho', -, hleads⟩ := ho.exists_leadsTo (ctx.forward ·) endsArgument_of_comma
    (fun y hy us hus after s o chained hs hctx hafter fuel hfuel =>
      leadsTo_of_comma hn henv houter (hxs y hy) (fun _ _ h => h.1) (by cases y <;> rfl) hus hs hctx
        hafter hloosest hfuel)
    hdone hts hs hctx hafter.endsArgument
  exact ⟨o', chained', ho', hleads⟩

/-- Arguments are read as their sequence. -/
theorem runs_expressionAt_of_arguments
    (hfree : Free kind) (htrigger : kind.trigger? = some n.glyph) (hglyph : n.trigger = some n.glyph)
    {outermost : Inner} (houtermost : ∀ p, outermost.expression p = expressionAt env outer p)
    (houter : ∀ p, outer.expression p = expressionAt env inner p)
    (hkeeps : KeepsArguments n (x :: xs)) (hts : ts ∈ x.tokens kind * followingTokens kind xs)
    (hs : s.rest = ts ++ after) (hctx : ctx.holds s) (hafter : EndsSum after) :
    Runs (expressionAt env outermost .loosest) s
      (.collect "Sequence" ((x :: xs).map (·.expression n))) (s.forward ts.length) := by
  obtain ⟨hfirst, hothers⟩ := hkeeps
  obtain ⟨us, hus, vs, hvs, rfl⟩ := Language.mem_mul.mp hts
  rw [List.append_assoc] at hs
  have hx : Reads env outermost ctx .loosest
      (fun after => EndsArgument after ∧ (xs = [] → EndsSum after)) (x.ReadAs n) (x.tokens kind) := by
    refine reads_argument hn henv hfree htrigger hglyph houtermost (fun _ => Nat.zero_le _) ?_
    rintro hoperation s hclosers ⟨hargument, hend⟩
    by_cases hxs : xs = []
    · exact stops_of_endsSum (hend hxs)
    · exact stops_of_endsArgument hn henv hclosers hargument (hfirst hoperation hxs)
  have hxs : ∀ y ∈ xs, Reads env outer ctx Precedence.sequence.tighter EndsArgument
      (y.ReadAs n) (y.tokens kind) := by
    intro y hy
    refine reads_argument hn henv hfree htrigger hglyph houter (hothers y hy) ?_
    rintro hoperation s hclosers hargument
    exact stops_of_endsArgument hn henv hclosers hargument
      (Nat.lt_of_lt_of_le (hothers y hy hoperation) (precedence_le_rightPrecedence n))
  obtain ⟨o, chained, ⟨ho, hchained⟩, hleads⟩ := hx us hus (vs ++ after) s .loosest hs hctx
    (Nat.le_refl _) ⟨follow_of_mem_prod endsArgument_of_comma hvs hafter.endsArgument, fun hnil => by
      subst hnil
      obtain rfl : vs = [] := hvs
      exact hafter⟩
  have hcollects : Collects "Sequence" [x.expression n] o chained := .of_ne ho hchained
  have hrest : (s.forward us.length).rest = vs ++ after := by
    rw [State.rest_forward, hs, List.drop_left]
  obtain ⟨o', chained', ho', hmore⟩ := exists_leadsTo_of_following hn henv houtermost hxs (by simp)
    hcollects hvs hrest (ctx.forward _ hctx) hafter (show Precedence.loosest ≤ .sequence by decide)
  have hstop : Stops env outermost .loosest ((s.forward us.length).forward vs.length) := by
    refine stops_of_endsSum ?_
    rwa [State.rest_forward, hrest, List.drop_left]
  have hruns := (hleads.trans hmore).runs hstop
  rw [ho'.expression, State.forward_forward, ← List.length_append] at hruns
  exact hruns

end

end Parser

/-! ### Writing -/

variable {n : Notation} {d : Dictionary} {kind : Token.Kind} {x : Argument} {xs : List Argument}

theorem head?_singleton_of_isLetter {c : Char} (hc : Text.isLetter c = true) :
    (String.singleton c).toList.head?.any Char.isDigit = false := by
  rw [String.toList_singleton]
  exact Text.isDigit_of_isLetter hc

theorem Argument.spells (hmark : Lexeme.Mark n.glyph.toList kind) (x : Argument) :
    Spells (x.text n).toList (x.tokens kind) := by
  have hletter {c : Char} (hc : Text.isLetter c = true) :
      Spells (String.singleton c).toList (Token.one (.letter c)) := by
    rw [String.toList_singleton]
    exact .letter hc
  cases x with
  | letter c hc => exact hletter hc
  | operation a b ha hb =>
    obtain ⟨c, cs, hglyph, -, hdigit⟩ := hmark.opens
    have hleft : Spells (Text.join (String.singleton a) n.glyph).toList
        (Token.one (.letter a) * Token.one kind) := by
      refine (hletter ha).join hmark.spells (by simp [hglyph]) fun hd => ?_
      rw [hglyph, List.head?_cons, Option.any_some, hdigit] at hd
      cases hd
    have hboth := hleft.join (hletter hb) (by simp) fun hd => by
      rw [head?_singleton_of_isLetter hb] at hd
      cases hd
    rwa [mul_assoc] at hboth

/-- The text of arguments. -/
def argumentsText (n : Notation) (xs : List Argument) : String :=
  String.intercalate ", " (xs.map (·.text n))

theorem spells_argumentsText (hmark : Lexeme.Mark n.glyph.toList kind) (x : Argument)
    (xs : List Argument) :
    Spells (argumentsText n (x :: xs)).toList (x.tokens kind * followingTokens kind xs) :=
  separates_comma.spells_intercalate x xs fun y _ => y.spells hmark

/-- The serializer with one notation more. -/
def Serializer.extended (n : Notation) : Serializer :=
  ⟨⟨standardEntries ++ [n], []⟩, {}⟩

namespace Serializer

theorem within_letter (hn : n.IsNewInfix) (levels : Nat) (c : Char) :
    (extended n).within (levels + 1) (.symbol (String.singleton c)) = .ok (String.singleton c) := by
  have hlookup : ((extended n).dictionary.lookup (String.singleton c)).filter (·.kind == .symbol) =
      none := by
    by_cases hname : n.name = String.singleton c
    · have hinfix : (n.kind == .symbol) = false := by
        refine beq_false_of_ne fun hkind => ?_
        have hinfix := hn.infixOp
        rw [Notation.isInfix, hkind] at hinfix
        cases hinfix
      show (Dictionary.lookup ⟨standardEntries ++ [n], []⟩ _).filter _ = none
      rw [← hname, hn.lookup_name, Option.filter_some, hinfix]
      rfl
    · show (Dictionary.lookup ⟨standardEntries ++ [n], []⟩ _).filter _ = none
      rw [Notation.IsNewInfix.lookup_of_ne hname, lookup_standard_singleton, Option.filter_none]
  rw [within, node, symbol, hlookup]
  refine congrArg Except.ok (if_pos ?_)
  rw [String.length_singleton, decide_eq_true rfl, Bool.or_true]

/-- A letter is never put in parentheses. -/
theorem wrap_letter (hn : n.IsNewInfix) (levels : Nat) (c : Char) (loosest : Precedence) :
    ((extended n).scribe ((extended n).within (levels + 1))).wrap (.symbol (String.singleton c))
      loosest = .ok (String.singleton c) := by
  have hnot : ¬Precedence.atomic < loosest := Nat.not_lt_of_le loosest.rank_le
  have hserialize : ((extended n).scribe ((extended n).within (levels + 1))).serialize
      (.symbol (String.singleton c)) = .ok (String.singleton c) := within_letter hn levels c
  rw [Scribe.wrap, hserialize]
  exact congrArg Except.ok (if_neg hnot)

theorem within_argument (hn : n.IsNewInfix) (levels : Nat) (x : Argument) :
    (extended n).within (levels + 2) (x.expression n) = .ok (x.text n) := by
  cases x with
  | letter c hc => exact within_letter hn (levels + 1) c
  | operation a b ha hb =>
    have hnamed : (extended n).named ((extended n).scribe ((extended n).within (levels + 1))) n.name
        [.symbol (String.singleton a), .symbol (String.singleton b)] =
      .ok ((Argument.operation a b ha hb).text n) := by
      rw [named, show (extended n).dictionary.lookup n.name = some n from hn.lookup_name]
      simp only [hn.bare.writer]
      refine (if_pos hn.accepts).trans ?_
      have hinfix := hn.infixOp
      rw [byKind]
      cases hkind : n.kind with
      | infixOp variadic =>
        show chain _ n _ = _
        simp only [chain, List.zipIdx_cons, List.zipIdx_nil, List.foldlM_cons, List.foldlM_nil,
          addOperand, wrap_letter hn]
        exact congrArg (fun l => Except.ok (Text.join (Text.join l n.glyph) (String.singleton b)))
          (Text.join_empty_left (String.singleton a))
      | _ => rw [Notation.isInfix, hkind] at hinfix; cases hinfix
    exact hnamed

/-- The application is written with its arguments as they are. -/
theorem run_arguments (hn : n.IsNewInfix) (xs : List Argument) :
    (extended n).run (.function "f" (xs.map (·.expression n))) =
      .ok ⟨"f" ++ Text.parenthesized (argumentsText n xs), []⟩ := by
  have hlist : ((extended n).scribe ((extended n).within 63)).list (xs.map (·.expression n)) =
      .ok (argumentsText n xs) := by
    refine list_eq_of_forall₂ ?_
    rw [List.forall₂_map_left_iff, List.forall₂_map_right_iff, List.forall₂_same]
    exact fun x _ => within_argument hn 61 x
  have hlookup : (extended n).dictionary.lookup "f" = none :=
    (Notation.IsNewInfix.lookup_of_ne fun h => hn.name (by simp [h])).trans
      (lookup_standard_singleton 'f')
  have hserialize : (extended n).serialize (.function "f" (xs.map (·.expression n))) =
      .ok ("f" ++ Text.parenthesized (argumentsText n xs)) := by
    show (extended n).named _ "f" _ = _
    rw [named, hlookup]
    show Scribe.application _ "f" _ = _
    rw [Scribe.application, if_neg (by decide), hlist]
    show Except.ok ((extended n).symbol "f" ++ _) = _
    rw [symbol, hlookup]
    rfl
  rw [run, hserialize]

end Serializer

/-! ### The round trip -/

theorem collect_sequenceItems (n : Notation) (hn : n.IsNewInfix) (x : Argument) (xs : List Argument) :
    (Expression.collect "Sequence" ((x :: xs).map (·.expression n))).sequenceItems =
      (x :: xs).map (·.expression n) := by
  cases xs with
  | nil =>
    cases x with
    | letter c hc => rfl
    | operation a b ha hb =>
      have hname : n.name ≠ "Sequence" := fun h => hn.name (by simp [h])
      simp [Expression.collect, Argument.expression, Expression.sequenceItems, Expression.function,
        hname]
  | cons y ys => rfl

theorem parse_arguments (hn : n.IsNewInfix) (hkeeps : KeepsArguments n (x :: xs)) :
    parse ⟨standardEntries ++ [n], []⟩ {} ("f" ++ Text.parenthesized (argumentsText n (x :: xs))) =
      .ok ⟨.function "f" ((x :: xs).map (·.expression n)), []⟩ := by
  let env : Env := ⟨"f" ++ Text.parenthesized (argumentsText n (x :: xs)),
    ⟨standardEntries ++ [n], []⟩, {}⟩
  have henv : env.IsExtendedBy n := ⟨rfl, rfl⟩
  obtain ⟨kind, hmark, hfree, htrigger, hglyph⟩ := hn.free.mark_glyph hn.bare
  have hf : Text.isLetter 'f' = true := by decide
  have hspells : Spells env.source.toList (Token.one (.letter 'f') *
      (Token.one (.punct '(') *
        (x.tokens kind * followingTokens kind xs * Token.one (.punct ')')))) := by
    have hhead : Spells "f".toList (Token.one (.letter 'f')) := .letter hf
    exact hhead.appendParenthesized (spells_argumentsText hmark x xs)
  obtain ⟨_, ⟨t, rfl, ht⟩, us, hus, htokens⟩ := Language.mem_mul.mp hspells.laid_mem
  obtain ⟨opening, ts, closing, rfl, hopening, hts, hclosing⟩ := mem_enclosed_iff.mp hus
  have hrest : (State.ofSource env.source).rest = t :: opening :: (ts ++ [closing]) := htokens.symm
  have hstart : delimited.holds (State.ofSource env.source) := nofun
  have hbehind : ((State.ofSource env.source).forward 1).rest = opening :: (ts ++ [closing]) := by
    rw [State.rest_forward, hrest]
    rfl
  have hinside : (((State.ofSource env.source).forward 1).forward 1).rest = ts ++ [closing] := by
    rw [State.rest_forward, hbehind]
    rfl
  have hoperand : Runs (operand env (nested env 63)) (.ofSource env.source) _ _ :=
    runs_operand_letter hn.isFreshInfix henv hf hrest ht hstart
  have hnested (levels : Nat) (p : Precedence) :
      (nested env (levels + 1)).expression p = expressionAt env (nested env levels) p := rfl
  have hawait : delimited.holds ((((State.ofSource env.source).forward 1).forward 1).await ")") :=
    .await (.inl rfl) _
  have hbody : Runs ((nested env 63).expression .loosest)
      ((((State.ofSource env.source).forward 1).forward 1).await ")") _ _ :=
    runs_expressionAt_of_arguments hn henv hfree htrigger hglyph (hnested 61) (hnested 60) hkeeps hts
      hinside hawait (EndsSum.of_closing (.inr hclosing) [])
  have hthere : ((((State.ofSource env.source).forward 1).forward 1).forward ts.length).rest =
      [closing] := by
    rw [State.rest_forward, hinside, List.drop_left]
  have hgroup : Runs (groupBody env (nested env 63) ")" (.punct ')')) _ _ _ :=
    runs_groupBody hthere hclosing hbody
  have hend : ((((State.ofSource env.source).forward 1).forward 1).forward (ts.length + 1)).rest =
      [] := by
    rw [← State.forward_forward, State.rest_forward, hthere]
    rfl
  have hleads : LeadsTo env (nested env 63) .loosest (expressionAt env (nested env 63) .loosest)
      (.ofSource env.source) _ _ _ :=
    (leadsTo_of_operand hoperand).trans fun fuel hfuel =>
      leadsTo_of_arguments hbehind hopening (delimited.forward 1 hstart) rfl hgroup
        (by rw [hend]; exact Nat.zero_le _) hfuel
  rw [collect_sequenceItems n hn] at hleads
  rw [parse_eq_of_runs_expression rfl rfl (hleads.runs (stops_of_nil hend)) hend]
  simp only [State.diagnostics_forward]
  rfl

theorem parse_run_arguments (hn : n.IsNewInfix) (hd : Dictionary.standard.withOverrides [n] = .ok d)
    {args : List Argument} (hargs : args ≠ []) (hkeeps : KeepsArguments n args) : ∃ latex,
      Serializer.run ⟨d, {}⟩ (.function "f" (args.map (·.expression n))) = .ok ⟨latex, []⟩ ∧
        parse d {} latex = .ok ⟨.function "f" (args.map (·.expression n)), []⟩ := by
  obtain rfl := Dictionary.eq_of_withOverrides_eq_ok hn.isFreshInfix.aliasOf hd
  obtain ⟨x, xs, rfl⟩ := List.exists_cons_of_ne_nil hargs
  exact ⟨_, Serializer.run_arguments hn (x :: xs), parse_arguments hn hkeeps⟩

/-- A looser operator than the comma, and one that is tighter. -/
def Notation.choice (precedence : Precedence) : Notation :=
  ofInfix "Choose" "\\choose" precedence

theorem Notation.isNewInfix_choice (precedence : Precedence) : (choice precedence).IsNewInfix where
  bare := ⟨rfl, rfl, rfl, rfl, rfl, rfl⟩
  infixOp := rfl
  accepts := rfl
  free := ⟨"\\choose", .command "choose", rfl, by decide +kernel, by decide⟩
  fresh := by
    show ∀ m ∈ standardEntries, m.trigger ≠ some "\\choose"
    decide +kernel
  name := by simp [choice, ofInfix]

theorem parse_run_arguments_choice :
    ∃ d, (Notation.choice .conjunction).IsNewInfix ∧
      Dictionary.standard.withOverrides [.choice .conjunction] = .ok d ∧
      KeepsArguments (.choice .conjunction) [.operation 'a' 'b' rfl rfl, .letter 'c' rfl] ∧
      ∃ latex, Serializer.run ⟨d, {}⟩ (.function "f"
          [.function "Choose" [.symbol "a", .symbol "b"], .symbol "c"]) = .ok ⟨latex, []⟩ ∧
        parse d {} latex = .ok ⟨.function "f"
          [.function "Choose" [.symbol "a", .symbol "b"], .symbol "c"], []⟩ := by
  have hn := Notation.isNewInfix_choice .conjunction
  have hd : Dictionary.standard.withOverrides [.choice .conjunction] =
      .ok ⟨standardEntries ++ [.choice .conjunction], []⟩ := rfl
  have hkeeps : KeepsArguments (.choice .conjunction) [.operation 'a' 'b' rfl rfl, .letter 'c' rfl] :=
    ⟨fun _ _ => by decide, fun y hy hoperation => by
      rw [List.mem_singleton.mp hy] at hoperation
      cases hoperation⟩
  exact ⟨_, hn, hd, hkeeps, parse_run_arguments hn hd (by simp) hkeeps⟩

/-- The comma is taken into the right operand of the operation. -/
theorem not_parse_run_arguments_loose :
    ∃ d, (Notation.choice { rank := 5 }).IsNewInfix ∧
      Dictionary.standard.withOverrides [.choice { rank := 5 }] = .ok d ∧
      Serializer.run ⟨d, {}⟩ (.function "f"
          [.function "Choose" [.symbol "a", .symbol "b"], .symbol "c"]) =
        .ok ⟨"f(a\\choose b, c)", []⟩ ∧
      (parse d {} "f(a\\choose b, c)").toOption.map (fun p => (MathJson.encode p.expression).compact) =
        some "[\"f\",[\"Choose\",\"a\",[\"Sequence\",\"b\",\"c\"]]]" := by
  have hn := Notation.isNewInfix_choice { rank := 5 }
  refine ⟨_, hn, rfl, ?_, ?_⟩
  · exact Serializer.run_arguments hn [.operation 'a' 'b' rfl rfl, .letter 'c' rfl]
  · decide +kernel

end TexFormula
