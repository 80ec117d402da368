import TexFormula.Proofs.Arithmetic.Rereading
import TexFormula.Proofs.ResolvedNotations

/-!
# What tokens are read as

`Becomes e link p follow P` holds if the tokens of the language `P` are read as the expression `e`, at
the end of a chain of the operator `link`, wherever operators as loose as `p` are accepted and `follow`
holds of the tokens behind. There is one lemma for each notation of arithmetic, with the letters and the
elementary functions that have a command of their own (`Dictionary.HasCommand`), and one for the factors
of a product, which are taken one after the other (`Lengthens`).
-/

open Filter TexFormula.Parser

namespace TexFormula

/-! ### Letters and functions with a command -/

namespace Dictionary

/-- The notation is the only one of its name and of the command, by which it is read and written. -/
structure HasCommand (n : Notation) (command : String) : Prop where
  mem : command ∈ Parser.unitCommands
  operands : standard.operands ("\\" ++ command) = [n]
  lookup : standard.lookup n.name = some n
  glyph : n.glyph = "\\" ++ command
  reader : n.reader = none
  writer : n.writer = none

variable {n : Notation} {command : String}

theorem HasCommand.of_mem (hn : n ∈ letters ++ functions) (hcommand : command ∈ Parser.unitCommands)
    (htrigger : n.trigger = some ("\\" ++ command)) : HasCommand n command := by
  have hall : ∀ n ∈ letters ++ functions, n.serializeOnly = false ∧ n.followsOperand = false ∧
      n.parseOnly = false ∧ n.latex = none ∧ n.reader.isNone ∧ n.writer.isNone := by
    decide +kernel
  have hentries : n ∈ standardEntries := by
    rcases List.mem_append.mp hn with hn | hn <;> simp [standardEntries, hn]
  obtain ⟨hreads, hstarts, hwrites, hlatex, hreader, hwriter⟩ := hall n hn
  obtain ⟨hname, honce⟩ := once_letters_functions n hn
  rw [htrigger] at honce
  refine ⟨hcommand, operands_of_once hentries htrigger hreads hstarts honce,
    lookup_of_once hentries hwrites hname, ?_, Option.isNone_iff_eq_none.mp hreader,
    Option.isNone_iff_eq_none.mp hwriter⟩
  rw [Notation.glyph, hlatex, htrigger]
  rfl

theorem exists_hasCommand_letter (hn : n ∈ letters) :
    n.kind = .symbol ∧ ∃ command, HasCommand n command := by
  have hall : ∀ n ∈ letters, n.kind = .symbol ∧
      ∃ command ∈ Parser.unitCommands, n.trigger = some ("\\" ++ command) := by
    decide +kernel
  obtain ⟨hkind, command, hcommand, htrigger⟩ := hall n hn
  exact ⟨hkind, command, .of_mem (List.mem_append_left _ hn) hcommand htrigger⟩

theorem exists_hasCommand_function (hn : n ∈ functions) :
    n.kind = .function ∧ n.arity = .atLeast 1 ∧ ∃ command, HasCommand n command := by
  have hall : ∀ n ∈ functions, n.kind = .function ∧ n.arity = .atLeast 1 ∧
      ∃ command ∈ Parser.unitCommands, n.trigger = some ("\\" ++ command) := by
    decide +kernel
  obtain ⟨hkind, harity, command, hcommand, htrigger⟩ := hall n hn
  exact ⟨hkind, harity, command, .of_mem (List.mem_append_right _ hn) hcommand htrigger⟩

/-- The notation is an operator that binds less tightly than sums, and it is the only one of its name
and of its token, by which it is read and written. -/
structure IsLoose (n : Notation) (kind : Token.Kind) : Prop extends IsOperator n kind where
  mem : kind ∈ Parser.looseKinds
  mark : Lexeme.Mark n.glyph.toList kind
  lookup : standard.lookup n.name = some n
  reader : n.reader = none
  writer : n.writer = none
  kind_eq : n.kind = .infixOp n.isVariadic
  accepts : ∀ count, 2 ≤ count → (n.isVariadic = false → count = 2) → n.arity.accepts count = true
  precedence_lt : n.precedence < .addition
  lt_precedence : .sequence < n.precedence
  associativity : n.associativity ≠ .right
  left : n.isVariadic = true → n.associativity = .left
  endsWithDigit : Text.endsWithDigit n.glyph.toList = false

theorem exists_isLoose (hn : n ∈ looseOperators) : ∃ kind, IsLoose n kind := by
  have hall : ∀ n ∈ looseOperators, n.parseOnly = false ∧ n.reader.isNone ∧ n.writer.isNone ∧
      standardEntries.countP (fun m => m.name == n.name && !m.parseOnly) = 1 := by
    decide +kernel
  have hkinds : ∀ n ∈ looseOperators, n.kind = .infixOp n.isVariadic ∧
      n.arity = (if n.isVariadic then .atLeast 2 else .exactly 2) ∧ n.precedence < .addition ∧
      .sequence < n.precedence ∧ n.associativity ≠ .right ∧
      (n.isVariadic = true → n.associativity = .left) := by
    decide +kernel
  have htokens : ∀ n ∈ looseOperators, Text.endsWithDigit n.glyph.toList = false ∧
      ∃ kind ∈ Parser.looseKinds, (Token.ofSource n.glyph).map Token.kind = [kind, .ending] ∧
        kind.trigger? = n.trigger ∧ Parser.Free kind := by
    decide +kernel
  obtain ⟨hwrites, hreader, hwriter, hname⟩ := hall n hn
  obtain ⟨hkind, harity, hloose, htight, hassociativity, hleft⟩ := hkinds n hn
  obtain ⟨hdigit, kind, hmem, hglyph, htrigger, hfree⟩ := htokens n hn
  have hentries : n ∈ standardEntries := mem_standardEntries_of_loose hn
  refine ⟨kind, .of_loose hn hfree htrigger, hmem, .of_tokens hglyph ?_,
    lookup_of_once hentries hwrites hname, Option.isNone_iff_eq_none.mp hreader,
    Option.isNone_iff_eq_none.mp hwriter, hkind, fun count hcount hexact => ?_, hloose, htight,
    hassociativity, hleft, hdigit⟩
  · cases kind with
    | punct c => exact .inl ⟨c, rfl⟩
    | command name => exact .inr ⟨name, rfl⟩
    | _ => exact hfree.elim
  · rw [harity]
    cases hvariadic : n.isVariadic with
    | false =>
      rw [hexact hvariadic]
      rfl
    | true => simp [Arity.atLeast, Arity.accepts, hcount]

namespace IsLoose

variable {kind : Token.Kind} (h : IsLoose n kind)

include h

theorem isInfix : n.isInfix = true := by
  rw [Notation.isInfix, h.kind_eq]

theorem lt_rightPrecedence : n.precedence < Parser.rightPrecedence n := by
  have hatomic : n.precedence < .atomic := Nat.lt_trans h.precedence_lt (by decide)
  unfold Parser.rightPrecedence
  split
  · next hassociativity => exact absurd hassociativity h.associativity
  · rw [Precedence.lt_def, Precedence.rank_tighter hatomic]
    exact Nat.lt_succ_self _

theorem leftPrecedence_eq (hvariadic : n.isVariadic = true) : leftPrecedence n = n.precedence := by
  rw [leftPrecedence, h.left hvariadic]
  exact if_neg (by simp)

/-- Its operands stand without parentheses if they are sums. -/
theorem rightPrecedence_le : Parser.rightPrecedence n ≤ .addition := by
  unfold Parser.rightPrecedence
  split
  · exact Nat.le_of_lt h.precedence_lt
  · exact Precedence.tighter_le h.precedence_lt

theorem leftPrecedence_le : leftPrecedence n ≤ .addition := by
  unfold leftPrecedence
  split
  · exact Precedence.tighter_le h.precedence_lt
  · exact Nat.le_of_lt h.precedence_lt

end IsLoose

end Dictionary

namespace Parser

variable {a b e : Expression} {link link' : Option String} {p q : Precedence}
  {follow follow' : List Token → Prop} {P Q : Language Token} {n : Notation} {name command : String}

section

variable {env : Env} {inner outer : Inner} {s : State} {t : Token} {rest : List Token}
  {R : Operand → Option String → Prop}

/-- A command that stands for a name. -/
theorem Reads.symbol (hfree : Free (.command name)) (hn : env.dictionary.operands ("\\" ++ name) = [n])
    (hreader : n.reader = none) (hkind : n.kind = .symbol) (follow : List Token → Prop) :
    Reads env outer delimited .atomic follow
      (fun o chained => chained = none ∧ o = { expression := .symbol n.name })
      (Token.one (.command name)) := by
  rw [← mul_one (Token.one (.command name))]
  refine .command hfree hn ?_ follow
  rintro _ rfl after s - -
  refine ⟨_, rfl, ?_⟩
  unfold applyNotation
  rw [hreader, hkind]
  exact .pure _ _

theorem runs_bracketGroup_of_brace (hs : s.rest = t :: rest) (ht : t.kind = .groupOpen) :
    Runs (bracketGroup env inner) s none s := by
  have hspace : State.isSpacing t = false := by
    unfold State.isSpacing
    rw [ht]
  unfold bracketGroup
  rw [runs_skipSpacing, takeWhile_isSpacing hs hspace, State.forward_zero, runs_current,
    State.current_of_rest hs, ht]
  exact .pure _ _

/-- A square root. -/
theorem Reads.squareRoot (henv : env.IsStandard)
    (houter : outer.expression .loosest = expressionAt env inner .loosest)
    (h : Reads env inner delimited p EndsSum R P) (follow : List Token → Prop) :
    Reads env outer delimited .atomic follow
      (fun o chained => chained = none ∧ ∃ a c, R a c ∧
        o = { expression := .function "Sqrt" [a.expression] })
      (Token.one (.command "sqrt") * (Token.one .groupOpen * (P * Token.one .groupClose))) := by
  have hoperands : env.dictionary.operands "\\sqrt" =
      [(Notation.ofCommand "Sqrt" "\\sqrt" 1).withReader Readers.squareRoot] := by
    rw [henv.dictionary]
    rfl
  refine .command (by decide) hoperands (fun us hus after s hs hctx => ?_) follow
  obtain ⟨a, c, ha, hargument⟩ := h.runs_argument houter
    (fun _ after ht => .of_closing ht after) hus hs hctx "\\sqrt"
  obtain ⟨t, ts, _, rfl, hopening, -⟩ := mem_enclosed_iff.mp hus
  have hindex : Runs (bracketGroup env outer) s none s := runs_bracketGroup_of_brace hs hopening
  have hread : Runs (run env outer (Readers.squareRoot none)) s
      (some (.function "Sqrt" [a.expression])) _ :=
    hindex.bind (hargument.bind (.pure _ _))
  exact ⟨_, ⟨a, c, ha, rfl⟩, hread.bind (.pure _ _)⟩

/-- An elementary function of an expression in parentheses. -/
theorem Reads.call (hfree : Free (.command name)) (hn : env.dictionary.operands ("\\" ++ name) = [n])
    (hreader : n.reader = none) (hkind : n.kind = .function)
    (houter : outer.expression .loosest = expressionAt env inner .loosest)
    (h : Reads env inner delimited p EndsSum R P) (follow : List Token → Prop) :
    Reads env outer delimited .atomic follow
      (fun o chained => chained = none ∧ ∃ a c, R a c ∧
        o = { expression := .function n.name a.expression.sequenceItems })
      (Token.one (.command name) * (Token.one (.punct '(') * (P * Token.one (.punct ')')))) := by
  refine .command hfree hn (fun us hus after s hs hctx => ?_) follow
  obtain ⟨t, ts, u, rfl, ht, hts, hu⟩ := mem_enclosed_iff.mp hus
  have hrest : s.rest = t :: (ts ++ u :: after) := by
    rw [hs, List.cons_append, List.append_assoc]
    rfl
  have hinside : (s.forward 1).rest = ts ++ u :: after := by
    rw [State.rest_forward, hrest]
    rfl
  obtain ⟨a, c, ha, hbody⟩ := h.runs_groupBody houter hts hinside (delimited.forward 1 hctx)
    (.of_closing (.inr hu) after) (.inl rfl) (.inr hu)
  rw [hu, State.forward_forward] at hbody
  have hlength : (t :: (ts ++ [u])).length = 1 + (ts.length + 1) := by
    rw [List.length_cons, List.length_append, List.length_singleton, Nat.add_comm]
  have hspace : State.isSpacing t = false := by
    unfold State.isSpacing
    rw [ht]
  have hlist : Runs (functionArguments env outer n.glyph) s a.expression.sequenceItems
      (s.forward (t :: (ts ++ [u])).length) := by
    unfold functionArguments
    rw [runs_skipSpacing, takeWhile_isSpacing hrest hspace, State.forward_zero, runs_current,
      State.current_of_rest hrest, if_pos (by simp [Token.isPunct, ht])]
    unfold delimitedArguments
    rw [runs_advance, hlength]
    exact hbody.bind (.pure _ _)
  refine ⟨_, ⟨a, c, ha, rfl⟩, ?_⟩
  unfold applyNotation
  rw [hreader, hkind]
  exact hlist.bind (.pure _ _)

/-! ### What follows an operand of a relation -/

/-- The operand of an operator as loose as that ends: a group is closed, or an operator follows that is
as loose. -/
def EndsLoosely (loosest : Precedence) (after : List Token) : Prop :=
  ∀ t ∈ after.head?, Closing t ∨ ∃ n, Dictionary.IsLoose n t.kind ∧ n.precedence ≤ loosest

theorem EndsLoosely.mono {after : List Token} (h : EndsLoosely p after) (hp : p ≤ q) :
    EndsLoosely q after :=
  fun t ht => (h t ht).imp_right fun ⟨n, hn, hloose⟩ => ⟨n, hn, Nat.le_trans hloose hp⟩

theorem EndsLoosely.endsProduct {after : List Token} (h : EndsLoosely p after) : EndsProduct after :=
  fun t ht => (h t ht).imp_right fun ⟨_, hn, _⟩ =>
    List.mem_cons_of_mem _ (List.mem_cons_of_mem _ hn.mem)

theorem EndsSum.endsLoosely {after : List Token} (h : EndsSum after) : EndsLoosely p after :=
  fun t ht => .inl (h t ht)

theorem ends_of_endsLoosely {loosest : Precedence} (henv : env.IsStandard) (h : EndsLoosely p s.rest)
    (hs : s.Delimited) (hloosest : p < loosest) : Ends env inner loosest s := by
  cases hrest : s.rest with
  | nil => exact (stops_of_nil hrest).ends
  | cons t rest =>
    rcases h t (by rw [hrest]; rfl) with hclosing | ⟨n, hn, hloose⟩
    · exact (stops_of_closing hrest hclosing).ends
    · obtain ⟨trigger, htrigger, hoperators⟩ := hn.exists_operators
      exact ends_of_operator henv hrest hs rfl hn.free htrigger hoperators
        (Nat.lt_of_le_of_lt hloose hloosest)

/-- An operator between an expression and an operand. -/
theorem Reads.infixed {kind : Token.Kind} {R' : Operand → Option String → Prop} (hR : Settles R')
    (henv : env.IsStandard) (hn : Dictionary.IsLoose n kind)
    (houter : outer.expression (rightPrecedence n) = expressionAt env inner (rightPrecedence n))
    (h : Reads env outer delimited n.precedence (EndsLoosely n.precedence) R P)
    (hQ : Reads env inner delimited (rightPrecedence n) (EndsLoosely (rightPrecedence n)) R' Q) :
    Reads env outer delimited n.precedence (EndsLoosely n.precedence)
      (fun o chained => chained = chainName? n ∧ ∃ a c b c', R a c ∧ R' b c' ∧
        o = ⟨extend n.name (n.isVariadic && c == some n.name) a.expression b.expression, false⟩)
      (P * (Token.one kind * Q)) := by
  obtain ⟨trigger, htrigger, hoperators⟩ := hn.exists_operators
  rw [← henv.dictionary] at hoperators
  have hlt := hn.lt_rightPrecedence
  refine h.operator hn.free htrigger hoperators (Nat.le_refl _) (fun t us after _ ht _ u hu => ?_) ?_
  · rw [← Option.some.inj hu]
    exact .inr ⟨n, ht ▸ hn, Nat.le_refl _⟩
  · intro us hus after s a c hs hctx hafter ha
    have hrest : (s.forward us.length).rest = after := by
      rw [State.rest_forward, hs, List.drop_left]
    obtain ⟨b, c', hb, hpresent, hruns⟩ := exists_runs_expressionAt hR hQ hus hs hctx (Nat.le_refl _)
      (hafter.mono (Nat.le_of_lt hlt))
      (ends_of_endsLoosely henv (hrest ▸ hafter) (delimited.forward _ hctx) hlt)
    refine ⟨_, ⟨rfl, a, c, b, c', ha, hb, rfl⟩, ?_⟩
    rw [← houter] at hruns
    exact runs_applyOperator_of_infixOp hn.reader hn.kind_eq hruns hpresent _ _

theorem free_of_mem_unitCommands (h : command ∈ unitCommands) : Free (.command command) := by
  have hall : ∀ command ∈ unitCommands, Free (.command command) := by decide +kernel
  exact hall command h

end

/-! ### Expressions -/

/-- The operand is the expression, at the end of a chain of the operator. -/
def Exactly (e : Expression) (link : Option String) (o : Operand) (chained : Option String) : Prop :=
  o = { expression := e } ∧ chained = link

structure Becomes (e : Expression) (link : Option String) (p : Precedence)
    (follow : List Token → Prop) (P : Language Token) : Prop where
  present : e.isMissing = false
  chain : ∀ name ∈ link, e.headName? = some name
  reads : ∀ᶠ levels in atTop, ∀ env : Env, env.IsStandard →
    Reads env (nested env levels) delimited p follow (Exactly e link) P

theorem Exactly.settles (he : e.isMissing = false) : Settles (Exactly e link) := by
  rintro _ _ ⟨rfl, -⟩
  exact ⟨rfl, he⟩

theorem headName?_extend {grows : Bool} (h : grows = true → a.headName? = some name) :
    (extend name grows a b).headName? = some name := by
  cases grows with
  | false => rfl
  | true =>
    have hname := h rfl
    cases a with
    | apply head arguments => exact hname
    | _ => cases hname

namespace Becomes

theorem mono (h : Becomes e link p follow P) (hp : q ≤ p)
    (hfollow : ∀ after, follow' after → follow after) : Becomes e link q follow' P :=
  ⟨h.present, h.chain, h.reads.mono fun _ hlevels env henv =>
    (hlevels env henv).mono hp hfollow fun _ _ ho => ho⟩

/-- A chain that grows is one of its operator. -/
theorem chain_extend (h : Becomes a link p follow P) :
    ∀ name' ∈ some name, (extend name (link == some name) a b).headName? = some name' := by
  rintro _ ⟨⟩
  exact headName?_extend fun hlink => h.chain name (eq_of_beq hlink)

/-- One level of nesting further down. -/
theorem below (h : Becomes e link p follow P) :
    ∀ᶠ levels in atTop, ∃ below, levels = below + 1 ∧ ∀ env : Env, env.IsStandard →
      Reads env (nested env below) delimited p follow (Exactly e link) P :=
  eventually_succ h.reads fun below hlevels => ⟨below, rfl, hlevels⟩

/-! ### Units -/

theorem letter {c : Char} (hc : IsSymbolLetter c) :
    Becomes (.symbol (String.singleton c)) none .atomic (fun _ => True) (Token.one (.letter c)) := by
  refine ⟨rfl, nofun, .of_forall fun levels env henv => ?_⟩
  refine (Reads.letter henv hc.isLetter _).mono (Nat.le_refl _) (fun _ h => h) ?_
  rintro _ _ ⟨rfl, rfl⟩
  exact ⟨Operand.ofName_of_notMem hc.isLetter hc.2, rfl⟩

theorem parenthesized (h : Becomes e link p EndsSum P) (follow : List Token → Prop) :
    Becomes e none .atomic follow (Token.one (.punct '(') * (P * Token.one (.punct ')'))) := by
  refine ⟨h.present, nofun, eventually_succ h.reads fun levels hlevels env henv => ?_⟩
  refine ((hlevels env henv).parenthesized rfl (fun _ after ht => .of_closing ht after) ?_).mono
    (Nat.le_refl _) (fun _ h => h) ?_
  · exact fun o chained ho => (Exactly.settles h.present o chained ho).2
  · rintro _ _ ⟨_, _, ⟨rfl, -⟩, rfl, rfl⟩
    exact ⟨rfl, rfl⟩

theorem fraction (ha : Becomes a link p EndsSum P) (hb : Becomes b link' q EndsSum Q)
    (follow : List Token → Prop) :
    Becomes (.function "Divide" [a, b]) none .atomic follow
      (Token.one (.command "frac") *
        ((Token.one .groupOpen * (P * Token.one .groupClose)) *
          (Token.one .groupOpen * (Q * Token.one .groupClose)))) := by
  refine ⟨rfl, nofun, eventually_succ (ha.reads.and hb.reads) fun levels hlevels env henv => ?_⟩
  have hreads : Reads env (nested env (levels + 1)) delimited .atomic follow _ _ :=
    .fraction henv rfl (hlevels.1 env henv) (hlevels.2 env henv) follow
  refine hreads.mono (Nat.le_refl _) (fun _ h => h) ?_
  rintro _ _ ⟨rfl, _, _, _, _, ⟨rfl, -⟩, ⟨rfl, -⟩, rfl⟩
  exact ⟨rfl, rfl⟩

theorem power (ha : Becomes a link p follow P) (hp : .power ≤ p)
    (hfollow : ∀ (t : Token) (after : List Token), t.kind = .punct '^' → follow (t :: after))
    (hb : Becomes b link' q EndsSum Q) (follow' : List Token → Prop) :
    Becomes (.function "Power" [a, b]) none .power follow'
      (P * (Token.one (.punct '^') * (Token.one .groupOpen * (Q * Token.one .groupClose)))) := by
  refine ⟨rfl, nofun, (Eventually.and ha.reads hb.below).mono fun levels hlevels env henv => ?_⟩
  obtain ⟨hbase, below, rfl, hexponent⟩ := hlevels
  refine (Reads.power henv rfl (hbase env henv) hp hfollow (hexponent env henv) follow').mono
    (Nat.le_refl _) (fun _ h => h) ?_
  rintro _ _ ⟨rfl, _, _, _, _, ⟨rfl, -⟩, ⟨rfl, -⟩, rfl⟩
  exact ⟨rfl, rfl⟩

/-- A letter that has a command. -/
theorem symbol (h : Dictionary.HasCommand n command) (hkind : n.kind = .symbol) :
    Becomes (.symbol n.name) none .atomic (fun _ => True) (Token.one (.command command)) := by
  refine ⟨rfl, nofun, .of_forall fun levels env henv => ?_⟩
  refine (Reads.symbol (free_of_mem_unitCommands h.mem) (henv.dictionary ▸ h.operands) h.reader hkind
    _).mono (Nat.le_refl _) (fun _ h => h) ?_
  rintro _ _ ⟨rfl, rfl⟩
  exact ⟨rfl, rfl⟩

theorem squareRoot (ha : Becomes a link p EndsSum P) (follow : List Token → Prop) :
    Becomes (.function "Sqrt" [a]) none .atomic follow
      (Token.one (.command "sqrt") * (Token.one .groupOpen * (P * Token.one .groupClose))) := by
  refine ⟨rfl, nofun, eventually_succ ha.reads fun levels hlevels env henv => ?_⟩
  have hreads : Reads env (nested env (levels + 1)) delimited .atomic follow _ _ :=
    .squareRoot henv rfl (hlevels env henv) follow
  refine hreads.mono (Nat.le_refl _) (fun _ h => h) ?_
  rintro _ _ ⟨rfl, _, _, ⟨rfl, -⟩, rfl⟩
  exact ⟨rfl, rfl⟩

/-- An elementary function of one argument in parentheses. -/
theorem call (h : Dictionary.HasCommand n command) (hkind : n.kind = .function)
    (ha : Becomes a link p EndsSum P) (hsingle : a.sequenceItems = [a])
    (follow : List Token → Prop) : Becomes (.function n.name [a]) none .atomic follow
      (Token.one (.command command) * (Token.one (.punct '(') * (P * Token.one (.punct ')')))) := by
  refine ⟨rfl, nofun, eventually_succ ha.reads fun levels hlevels env henv => ?_⟩
  have hreads : Reads env (nested env (levels + 1)) delimited .atomic follow _ _ :=
    .call (free_of_mem_unitCommands h.mem) (henv.dictionary ▸ h.operands) h.reader hkind rfl
      (hlevels env henv) follow
  refine hreads.mono (Nat.le_refl _) (fun _ h => h) ?_
  rintro _ _ ⟨rfl, _, _, ⟨rfl, -⟩, rfl⟩
  rw [hsingle]
  exact ⟨rfl, rfl⟩

theorem subscript (ha : Becomes a link p follow P) (hp : .power ≤ p)
    (hfollow : ∀ (t : Token) (after : List Token), t.kind = .punct '_' → follow (t :: after))
    (hb : Becomes b link' q EndsSum Q) (follow' : List Token → Prop) :
    Becomes (.function "Subscript" [a, b]) none .power follow'
      (P * (Token.one (.punct '_') * (Token.one .groupOpen * (Q * Token.one .groupClose)))) := by
  refine ⟨rfl, nofun, (Eventually.and ha.reads hb.below).mono fun levels hlevels env henv => ?_⟩
  obtain ⟨hbase, below, rfl, hindex⟩ := hlevels
  refine (Reads.subscript henv rfl (hbase env henv) hp hfollow (hindex env henv) follow').mono
    (Nat.le_refl _) (fun _ h => h) ?_
  rintro _ _ ⟨rfl, _, _, _, _, ⟨rfl, -⟩, ⟨rfl, -⟩, rfl⟩
  exact ⟨rfl, rfl⟩

theorem factorial (ha : Becomes a link p follow P) (hp : .power ≤ p)
    (hfollow : ∀ (t : Token) (after : List Token), t.kind = .punct '!' → follow (t :: after))
    (follow' : List Token → Prop) :
    Becomes (.function "Factorial" [a]) none .power follow' (P * Token.one (.punct '!')) := by
  refine ⟨rfl, nofun, ha.reads.mono fun levels hlevels env henv => ?_⟩
  refine ((hlevels env henv).factorial henv hp hfollow follow').mono (Nat.le_refl _)
    (fun _ h => h) ?_
  rintro _ _ ⟨rfl, _, _, ⟨rfl, -⟩, rfl⟩
  exact ⟨rfl, rfl⟩

theorem number {d : Decimal} (hwhole : d.whole ≠ "") {n : Number}
    (hn : Number.ofLiteral? d.literal = some n) :
    Becomes (.number n) none .atomic (EndsSigned d.negative)
      (signTokens d.negative * magnitudeTokens d) :=
  ⟨rfl, nofun, .of_forall fun _ _ _ => Reads.number hwhole hn⟩

/-! ### Sums -/

theorem negated (h : Becomes a link p follow P) (hp : Precedence.addition.tighter ≤ p)
    (hminus : TakesMinus P) (hfollow : ∀ after, follow after → EndsProduct after) :
    Becomes (.function "Negate" [a]) none q follow (Token.one (.punct '-') * P) := by
  refine ⟨rfl, nofun, eventually_succ h.reads fun levels hlevels env henv => ?_⟩
  have hreads : Reads env (nested env (levels + 1)) delimited q follow _ _ :=
    Reads.negated (Exactly.settles h.present) henv rfl (hlevels env henv) hp hminus hfollow
  refine hreads.mono (Nat.le_refl _) (fun _ h => h) ?_
  rintro _ _ ⟨rfl, _, _, ⟨rfl, -⟩, rfl⟩
  exact ⟨rfl, rfl⟩

theorem plus (ha : Becomes a link .addition EndsProduct P)
    (hb : Becomes b link' .multiplication EndsProduct Q) :
    Becomes (extend "Add" (link == some "Add") a b) (some "Add") .addition EndsProduct
      (P * (Token.one (.punct '+') * Q)) := by
  refine ⟨isMissing_extend _ _ _ _, ha.chain_extend,
    (Eventually.and ha.reads hb.below).mono fun _ hlevels env henv => ?_⟩
  obtain ⟨hleft, below, rfl, hright⟩ := hlevels
  have hreads : Reads env (nested env (below + 1)) delimited .addition EndsProduct _ _ :=
    Reads.plus (Exactly.settles hb.present) henv rfl (hleft env henv) (hright env henv)
  refine hreads.mono (Nat.le_refl _) (fun _ h => h) ?_
  rintro _ _ ⟨rfl, _, _, _, _, ⟨rfl, rfl⟩, ⟨rfl, -⟩, rfl⟩
  exact ⟨rfl, rfl⟩

theorem minus (ha : Becomes a link .addition EndsProduct P)
    (hb : Becomes b link' .multiplication EndsProduct Q) :
    Becomes (.function "Subtract" [a, b]) none .addition EndsProduct
      (P * (Token.one (.punct '-') * Q)) := by
  refine ⟨rfl, nofun, (Eventually.and ha.reads hb.below).mono fun _ hlevels env henv => ?_⟩
  obtain ⟨hleft, below, rfl, hright⟩ := hlevels
  have hreads : Reads env (nested env (below + 1)) delimited .addition EndsProduct _ _ :=
    Reads.minus (Exactly.settles hb.present) henv rfl (hleft env henv) (hright env henv)
  refine hreads.mono (Nat.le_refl _) (fun _ h => h) ?_
  rintro _ _ ⟨rfl, _, _, _, _, ⟨rfl, -⟩, ⟨rfl, -⟩, rfl⟩
  exact ⟨rfl, rfl⟩

/-! ### Relations and logic -/

theorem infixed {kind : Token.Kind} (hn : Dictionary.IsLoose n kind)
    (ha : Becomes a link n.precedence (EndsLoosely n.precedence) P)
    (hb : Becomes b link' (rightPrecedence n) (EndsLoosely (rightPrecedence n)) Q) :
    Becomes (extend n.name (n.isVariadic && link == some n.name) a b) (chainName? n) n.precedence
      (EndsLoosely n.precedence) (P * (Token.one kind * Q)) := by
  refine ⟨isMissing_extend _ _ _ _, fun name hname => ?_,
    (Eventually.and ha.reads hb.below).mono fun _ hlevels env henv => ?_⟩
  · unfold chainName? at hname
    split at hname
    · cases hname
      exact headName?_extend fun hlink =>
        ha.chain _ (eq_of_beq (Bool.and_eq_true_iff.mp hlink).2)
    · cases hname
  · obtain ⟨hleft, below, rfl, hright⟩ := hlevels
    have hreads : Reads env (nested env (below + 1)) delimited n.precedence _ _ _ :=
      Reads.infixed (Exactly.settles hb.present) henv hn rfl (hleft env henv) (hright env henv)
    refine hreads.mono (Nat.le_refl _) (fun _ h => h) ?_
    rintro _ _ ⟨rfl, _, _, _, _, ⟨rfl, rfl⟩, ⟨rfl, -⟩, rfl⟩
    exact ⟨rfl, rfl⟩

/-! ### Factors -/

theorem times (ha : Becomes a link p follow P) (hp : .multiplication ≤ p)
    (hb : Becomes b link' q follow' Q) (hq : Precedence.multiplication.tighter ≤ q)
    (hfollow : ∀ (t : Token) us after, us ∈ Q → t.kind = .command "times" → follow' after →
      follow (t :: (us ++ after)))
    (hends : ∀ after, follow' after → EndsFactor after) :
    Becomes (extend "Multiply" (link == some "Multiply") a b) (some "Multiply") .multiplication
      follow' (P * (Token.one (.command "times") * Q)) := by
  refine ⟨isMissing_extend _ _ _ _, ha.chain_extend,
    (Eventually.and ha.reads hb.below).mono fun _ hlevels env henv => ?_⟩
  obtain ⟨hleft, below, rfl, hright⟩ := hlevels
  have hreads : Reads env (nested env (below + 1)) delimited .multiplication follow' _ _ :=
    Reads.times (Exactly.settles hb.present) henv rfl (hleft env henv) hp (hright env henv) hq
      hfollow hends
  refine hreads.mono (Nat.le_refl _) (fun _ h => h) ?_
  rintro _ _ ⟨rfl, _, _, _, _, ⟨rfl, rfl⟩, ⟨rfl, -⟩, rfl⟩
  exact ⟨rfl, rfl⟩

theorem beside (ha : Becomes a link p follow P) (hp : .multiplication ≤ p)
    (hb : Becomes b link' q follow' Q) (hq : Precedence.multiplication.tighter ≤ q)
    (hstarts : Starts Q) (hfollow : ∀ us after, us ∈ Q → follow' after → follow (us ++ after))
    (hends : ∀ after, follow' after → EndsFactor after) :
    Becomes (extend "Multiply" (link == some "Multiply") a b) (some "Multiply") .multiplication
      follow' (P * Q) := by
  refine ⟨isMissing_extend _ _ _ _, ha.chain_extend,
    (Eventually.and ha.reads hb.below).mono fun _ hlevels env henv => ?_⟩
  obtain ⟨hleft, below, rfl, hright⟩ := hlevels
  have hreads : Reads env (nested env (below + 1)) delimited .multiplication follow' _ _ :=
    Reads.beside (Exactly.settles ha.present) (Exactly.settles hb.present) henv rfl (hleft env henv)
      hp (hright env henv) hq hstarts hfollow hends
  refine hreads.mono (Nat.le_refl _) (fun _ h => h) ?_
  rintro _ _ ⟨rfl, _, _, _, _, ⟨rfl, rfl⟩, ⟨rfl, -⟩, rfl⟩
  exact ⟨rfl, rfl⟩

end Becomes

/-! ### Numbers among factors -/

theorem EndsUnscaled.endsSigned {after : List Token} (h : EndsUnscaled after) (negative : Bool) :
    EndsSigned negative after := by
  refine ⟨⟨⟨h.1.endsNumber, fun t ht => ?_⟩, h.2⟩, fun _ t ht => beq_false_of_ne (h.1.ne_caret t ht)⟩
  rcases h.1 t ht with hproduct | htimes | hunit
  · rcases hproduct with (hkind | hkind) | hsum
    · simp [Token.isCommand, hkind]
    · simp [Token.isCommand, hkind]
    · exact beq_false_of_ne (ne_of_mem_of_not_mem hsum (by decide))
  · simp [Token.isCommand, htimes]
  · exact beq_false_of_ne (hunit.ne_command (by decide))

/-- Behind a times sign, the tokens are no power of ten. -/
def Unscaling (P : Language Token) : Prop :=
  ∀ ts ∈ P, ∀ (t : Token) (after : List Token), powerOfTen? (t :: (ts ++ after)) = none

theorem Unscaling.mul (h : Unscaling P) (Q : Language Token) : Unscaling (P * Q) := by
  intro ws hws t after
  obtain ⟨ts, hts, us, -, rfl⟩ := Language.mem_mul.mp hws
  rw [List.append_assoc]
  exact h ts hts t _

/-- A decimal is no power of ten unless it is ten and an exponent follows. -/
theorem powerOfTen?_magnitude {d : Decimal} (hexponent : d.exponent = none) {t : Token}
    {us after : List Token} (hus : us ∈ magnitudeTokens d)
    (hnot : (d.whole = "10" → d.fraction = "" → d.repeating ≠ "") ∨
      ∀ v ∈ after.head?, v.kind ≠ .punct '^') :
    powerOfTen? (t :: (us ++ after)) = none := by
  obtain ⟨_, ⟨u, rest, run, more, rfl, hu, hgrouped, hrun⟩, vs, hvs, rfl⟩ := Language.mem_mul.mp hus
  obtain ⟨fs, hfs, _, hscale, rfl⟩ := Language.mem_mul.mp hvs
  rw [hexponent] at hscale
  obtain rfl := hscale
  rw [List.append_nil]
  show powerOfTen? (t :: u :: ((rest ++ fs) ++ after)) = none
  rw [List.append_assoc]
  cases hgrouped with
  | cons hmark =>
    refine powerOfTen?_of_ne_caret fun v hv => ?_
    rw [← Option.some.inj hv, hmark]
    exact nofun
  | nil =>
    unfold fractionTokens at hfs
    split at hfs
    · next hwhole =>
      obtain rfl : fs = [] := hfs
      rcases hnot with hten | hafter
      · refine powerOfTen?_times fun v hv hkind => ?_
        rw [← Option.some.inj hv, hu] at hkind
        rw [List.append_nil] at hrun
        have hwhole' : d.whole = "10" := by
          rw [← Token.Kind.digits.inj hkind, hrun, String.ofList_toList]
        exact hten hwhole' (String.toList_eq_nil_iff.mp hwhole.1) (String.toList_eq_nil_iff.mp hwhole.2)
      · exact powerOfTen?_of_ne_caret hafter
    · obtain ⟨_, ⟨point, rfl, hpoint⟩, ws, -, rfl⟩ := Language.mem_mul.mp hfs
      refine powerOfTen?_of_ne_caret fun v hv => ?_
      rw [← Option.some.inj hv, hpoint]
      simp

theorem unscaling_magnitude {d : Decimal} (hexponent : d.exponent = none)
    (hten : d.whole = "10" → d.fraction = "" → d.repeating ≠ "") : Unscaling (magnitudeTokens d) :=
  fun _ hts _ _ => powerOfTen?_magnitude hexponent hts (.inl hten)

/-- In front of a power of a decimal, a minus sign is an operator. -/
theorem takesMinus_raisedMagnitude {d : Decimal} (hd : d.WellFormed) (hwhole : d.whole ≠ "")
    (Q : Language Token) : TakesMinus (magnitudeTokens d * (Token.one (.punct '^') * Q)) := by
  have hnegative := hd.withSign true
  obtain ⟨value, hvalue, -⟩ := Number.exists_ofLiteral? hnegative hwhole hnegative.powerText
  rw [← Decimal.literal] at hvalue
  exact takesMinus_raisedDecimal (d := { d with negative := true }) rfl hwhole hvalue (fun _ h => h) Q

/-! ### Products -/

/-- The tokens make up one more factor behind others. -/
def Appends (b : Expression) (Q : Language Token) : Prop :=
  ∀ ⦃a : Expression⦄ ⦃link : Option String⦄ ⦃P : Language Token⦄,
    Becomes a link .multiplication EndsUnscaled P →
    Becomes (extend "Multiply" (link == some "Multiply") a b) (some "Multiply") .multiplication
      EndsUnscaled (P * Q)

/-- The tokens make up the factors behind the first one. -/
def Lengthens (others : List Expression) (Q : Language Token) : Prop :=
  ∀ ⦃first : Expression⦄ ⦃P : Language Token⦄, Becomes first none .multiplication EndsUnscaled P →
    Becomes (Product.whole (first :: others)) (others.head?.map fun _ => "Multiply") .multiplication
      EndsUnscaled (P * Q)

theorem Lengthens.nil : Lengthens [] 1 := by
  intro first P h
  rw [mul_one]
  exact h

theorem Lengthens.append {others : List Expression} (h : Lengthens others P) (hb : Appends b Q) :
    Lengthens (others ++ [b]) (P * Q) := by
  intro first R hR
  rw [← mul_assoc]
  cases others with
  | nil => exact hb (h hR)
  | cons second others => exact hb (h hR)

theorem Appends.times (hb : Becomes b link p (fun _ => True) Q) (hp : .power ≤ p)
    (hunscaling : Unscaling Q) : Appends b (Token.one (.command "times") * Q) := by
  intro a link' P ha
  have hfactor : Becomes b link p EndsUnscaled Q := hb.mono (Nat.le_refl _) fun _ _ => trivial
  exact ha.times (Nat.le_refl _) hfactor (Nat.le_trans (by decide) hp)
    (fun t us after hus ht _ => ⟨endsFactor_times ht _, hunscaling us hus t after⟩) fun _ h => h.1

theorem Appends.besideUnit (hb : Becomes b link p (fun _ => True) Q) (hp : .power ≤ p)
    (hstarts : Starts Q) : Appends b Q := by
  intro a link' P ha
  have hfactor : Becomes b link p EndsUnscaled Q := hb.mono (Nat.le_refl _) fun _ _ => trivial
  exact ha.beside (Nat.le_refl _) hfactor (Nat.le_trans (by decide) hp) hstarts
    (fun us after hus _ => ⟨hstarts.endsFactor hus after, hstarts.powerOfTen? hus after⟩) fun _ h => h.1

theorem Appends.timesNumber {d : Decimal} (hwhole : d.whole ≠ "") {n : Number}
    (hn : Number.ofLiteral? d.literal = some n) (hnegative : d.negative = false)
    (hexponent : d.exponent = none) :
    Appends (.number n) (Token.one (.command "times") * magnitudeTokens d) := by
  intro a link P ha
  have hnumber : Becomes (.number n) none .atomic EndsUnscaled (magnitudeTokens d) := by
    have h := Becomes.number hwhole hn
    rw [hnegative, signTokens, if_neg Bool.false_ne_true, one_mul] at h
    exact h.mono (Nat.le_refl _) fun _ h => h.endsSigned _
  exact ha.times (Nat.le_refl _) hnumber (by decide)
    (fun t us after hus ht hafter => ⟨endsFactor_times ht _,
      powerOfTen?_magnitude hexponent hus (.inr hafter.1.ne_caret)⟩) fun _ h => h.1

end Parser

end TexFormula
