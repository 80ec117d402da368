import TexFormula.Proofs.OpenPlaces

/-!
# Products as they are written

A product is written with any mix of signs between its factors, visible ones or none, and its factors
are letters and products in parentheses. It is parsed as one product of just these factors, whatever
the signs are (`parse_writtenProduct`): the chain grows only by what stands at its own level, so a
product in parentheses stays a factor of its own.
-/

open Filter TexFormula.Parser

namespace TexFormula

/-! ### Written products -/

/-- What stands between two factors. -/
inductive ProductSign where
  | invisible | times | cdot | star

mutual

/-- A letter that is a symbol, or a product in parentheses. -/
inductive WrittenFactor where
  | letter (c : Char) (h : Text.isLetter c = true) (hsymbol : c ∉ ['f', 'g', 'h'])
  | parenthesized (p : WrittenProduct)

/-- Two or more factors with a sign between any two of them. -/
inductive WrittenProduct where
  | pair (a : WrittenFactor) (sign : ProductSign) (b : WrittenFactor)
  | more (p : WrittenProduct) (sign : ProductSign) (b : WrittenFactor)

end

namespace ProductSign

def text : ProductSign → String
  | invisible => ""
  | times => "\\times "
  | cdot => "\\cdot "
  | star => "*"

def kind? : ProductSign → Option Token.Kind
  | invisible => none
  | times => some (.command "times")
  | cdot => some (.command "cdot")
  | star => some (.punct '*')

def tokens (sign : ProductSign) : Language Token :=
  match sign.kind? with
  | none => 1
  | some kind => Token.one kind

end ProductSign

mutual

def WrittenFactor.text : WrittenFactor → String
  | .letter c _ _ => String.singleton c
  | .parenthesized p => Text.parenthesized p.text

def WrittenProduct.text : WrittenProduct → String
  | .pair a sign b => a.text ++ (sign.text ++ b.text)
  | .more p sign b => p.text ++ (sign.text ++ b.text)

end

mutual

def WrittenFactor.tokens : WrittenFactor → Language Token
  | .letter c _ _ => Token.one (.letter c)
  | .parenthesized p => Token.one (.punct '(') * (p.tokens * Token.one (.punct ')'))

def WrittenProduct.tokens : WrittenProduct → Language Token
  | .pair a sign b => a.tokens * (sign.tokens * b.tokens)
  | .more p sign b => p.tokens * (sign.tokens * b.tokens)

end

/-- The factors in their order. -/
def WrittenProduct.factors : WrittenProduct → List WrittenFactor
  | .pair a _ b => [a, b]
  | .more p _ b => p.factors ++ [b]

mutual

def WrittenFactor.expression : WrittenFactor → Expression
  | .letter c _ _ => .symbol (String.singleton c)
  | .parenthesized p => .function "Multiply" p.operands

/-- The expressions of the factors. -/
def WrittenProduct.operands : WrittenProduct → List Expression
  | .pair a _ b => [a.expression, b.expression]
  | .more p _ b => p.operands ++ [b.expression]

end

theorem WrittenProduct.operands_eq : ∀ p : WrittenProduct,
    p.operands = p.factors.map WrittenFactor.expression
  | .pair a sign b => rfl
  | .more p sign b => by
    rw [operands, factors, List.map_append, operands_eq p]
    rfl

theorem WrittenProduct.operands_ne_nil (p : WrittenProduct) : p.operands ≠ [] := by
  cases p <;> simp [operands]

theorem WrittenProduct.collect_operands (p : WrittenProduct) :
    Expression.collect "Multiply" p.operands = .function "Multiply" p.operands := by
  cases p with
  | pair a sign b => rfl
  | more p sign b => exact Expression.collect_append_singleton "Multiply" p.operands_ne_nil _

/-! ### Reading -/

namespace Parser

variable {env : Env} {inner : Inner} {s : State} {ts after : List Token} {loosest : Precedence}
  {o : Operand} {chained : Option String} {e : Expression} {es : List Expression} {levels : Nat}
  {kind : Token.Kind} {n : Notation} {sign : ProductSign} {P Q : Language Token}

/-- The kind of token is the operator of a product. -/
def Multiplies (kind : Token.Kind) (n : Notation) : Prop :=
  Operates kind n true ∧ n.name = "Multiply" ∧ n.precedence = .multiplication

theorem exists_multiplies (h : sign.kind? = some kind) : ∃ n, Multiplies kind n := by
  cases sign with
  | invisible => cases h
  | times =>
    cases h
    exact ⟨((Notation.ofInfix "Multiply" "\\times" .multiplication).variadic.withArity 0 none).withWriter
      Writers.product, ⟨by decide, ⟨"\\times", rfl, rfl⟩, rfl, rfl, by decide⟩, rfl, rfl⟩
  | cdot =>
    cases h
    exact ⟨(Notation.ofInfix "Multiply" "\\cdot" .multiplication).variadic.onlyParsed,
      ⟨by decide, ⟨"\\cdot", rfl, rfl⟩, rfl, rfl, by decide⟩, rfl, rfl⟩
  | star =>
    cases h
    exact ⟨(Notation.ofInfix "Multiply" "*" .multiplication).variadic.onlyParsed,
      ⟨by decide, ⟨"*", rfl, rfl⟩, rfl, rfl, by decide⟩, rfl, rfl⟩

/-- The product ends, or goes on with a factor or with a sign. -/
def EndsWritten (after : List Token) : Prop :=
  ∀ t ∈ after.head?, Closing t ∨ BeginsFactor t.kind ∨ ∃ n, Multiplies t.kind n

/-- The tokens start like a factor. -/
def BeginFactors (P : Language Token) : Prop :=
  ∀ ts ∈ P, ∃ t rest, ts = t :: rest ∧ BeginsFactor t.kind

theorem BeginFactors.endsWritten (h : BeginFactors P) (hts : ts ∈ P) (after : List Token) :
    EndsWritten (ts ++ after) := by
  obtain ⟨t, rest, rfl, ht⟩ := h ts hts
  intro u hu
  rw [← Option.some.inj hu]
  exact .inr (.inl ht)

/-- A factor ends in front of whatever a product goes on with. -/
theorem runs_chain_of_endsWritten (henv : env.IsStandard) (hs : s.Delimited)
    (hafter : EndsWritten s.rest) (hcall : o.callable = false)
    (hloosest : .multiplication < loosest) (fuel : Nat) :
    Runs (chain env inner loosest fuel o chained) s o.expression s := by
  cases hrest : s.rest with
  | nil => exact stops_of_nil hrest fuel o chained
  | cons t rest =>
    rcases hafter t (by rw [hrest]; rfl) with hclosing | hbegins | ⟨n, hn, -, hprecedence⟩
    · exact stops_of_closing hrest hclosing fuel o chained
    · refine runs_chain_of_apart henv hs (fun u hu => .inr ?_) hloosest fuel
      rw [hrest] at hu
      rw [← Option.some.inj hu, hcall]
      exact ⟨hbegins, nofun⟩
    · obtain ⟨trigger, htrigger, hoperators⟩ := hn.operators
      have hloose : ¬loosest ≤ n.precedence := by
        rw [hprecedence]
        exact Nat.not_le_of_lt hloosest
      exact stops_of_loose hrest hn.free.continues hn.free.ne_parenthesis hs htrigger
        (henv.dictionary ▸ hoperators) hloose fuel o chained

/-- With these levels left, the tokens are read as one operand. -/
def ReadsFactor (levels : Nat) (e : Expression) (P : Language Token) : Prop :=
  ∀ env : Env, env.IsStandard → Reads env (nested env levels) delimited .atomic (fun _ => True)
    (fun o chained => o = { expression := e } ∧ chained = none) P

/-- With these levels left, the tokens are read as the chain of the operands. -/
def ReadsProduct (levels : Nat) (es : List Expression) (P : Language Token) : Prop :=
  ∀ env : Env, env.IsStandard → Reads env (nested env levels) delimited .multiplication EndsWritten
    (fun o chained => Collects "Multiply" es o chained ∧ o.callable = false) P

theorem ReadsFactor.runs (h : ReadsFactor levels e P) (henv : env.IsStandard) (hts : ts ∈ P)
    (hs : s.rest = ts ++ after) (hclosers : s.Delimited) (hafter : EndsWritten after)
    (hloosest : .multiplication < loosest) :
    Runs (expressionAt env (nested env levels) loosest) s e (s.forward ts.length) := by
  obtain ⟨_, _, ⟨rfl, rfl⟩, hleads⟩ :=
    h env henv ts hts after s loosest hs hclosers loosest.rank_le trivial
  have hrest : (s.forward ts.length).rest = after := by
    rw [State.rest_forward, hs, List.drop_left]
  exact hleads _ _ fun fuel _ => runs_chain_of_endsWritten henv (hclosers.forward _)
    (by rwa [hrest]) rfl hloosest fuel

theorem ReadsFactor.product (h : ReadsFactor levels e P) : ReadsProduct levels [e] P := by
  refine fun env henv => (h env henv).mono (by decide) (fun _ _ => trivial) ?_
  rintro _ _ ⟨rfl, rfl⟩
  exact ⟨.single "Multiply" { expression := e }, rfl⟩

theorem ReadsProduct.parenthesized (h : ReadsProduct levels es P)
    (hes : Expression.collect "Multiply" es = .function "Multiply" es) :
    ReadsFactor (levels + 1) (.function "Multiply" es)
      (Token.one (.punct '(') * (P * Token.one (.punct ')'))) := by
  intro env henv
  have hexpression {o : Operand} {chained : Option String} (ho : Collects "Multiply" es o chained) :
      o.expression = .function "Multiply" es := ho.expression.trans hes
  refine ((h env henv).parenthesized rfl (fun t after ht u hu => .inl ?_) ?_).mono (Nat.le_refl _)
    (fun _ h => h) ?_
  · rwa [← Option.some.inj hu]
  · rintro o chained ⟨ho, -⟩
    rw [hexpression ho]
    rfl
  · rintro _ _ ⟨o, chained, ⟨ho, -⟩, rfl, rfl⟩
    exact ⟨by rw [hexpression ho], rfl⟩

/-- A product goes on with a sign, visible or not, and one more factor. -/
theorem ReadsProduct.append (h : ReadsProduct (levels + 1) es P) (hne : es ≠ [])
    (he : ReadsFactor levels e Q) (hpresent : e.isMissing = false) (hbegins : BeginFactors Q)
    (sign : ProductSign) : ReadsProduct (levels + 1) (es ++ [e]) (P * (sign.tokens * Q)) := by
  intro env henv
  have hright {p : Precedence} (hp : .multiplication < p) {us after : List Token} {s : State}
      (hus : us ∈ Q) (hs : s.rest = us ++ after) (hclosers : s.Delimited)
      (hafter : EndsWritten after) :
      Runs ((nested env (levels + 1)).expression p) s e (s.forward us.length) :=
    he.runs henv hus hs hclosers hafter hp
  rw [ProductSign.tokens]
  cases hkind : sign.kind? with
  | none =>
    rw [one_mul]
    refine ((h env henv).juxtaposed (T := (e = ·)) henv (Nat.le_refl _)
      (fun us hus after s hs hclosers hafter =>
        ⟨e, rfl, hpresent, hright (by decide) hus hs hclosers hafter⟩)
      (fun us hus => ?_) fun us hus after _ => hbegins.endsWritten hus after).mono (Nat.le_refl _)
        (fun _ h => h) ?_
    · obtain ⟨t, rest, rfl, ht⟩ := hbegins us hus
      refine ⟨t, rest, rfl, ht, fun o chained ho hcall => ?_⟩
      rw [ho.2] at hcall
      cases hcall
    · rintro _ _ ⟨rfl, a, c, _, ⟨ha, -⟩, rfl, rfl⟩
      exact ⟨ha.append hne e, rfl⟩
  | some kind =>
    obtain ⟨n, hmultiplies⟩ := exists_multiplies hkind
    have ⟨hn, hname, hprecedence⟩ := hmultiplies
    obtain ⟨trigger, htrigger, hoperators⟩ := hn.operators
    have htight : .multiplication < rightPrecedence n := hprecedence ▸ hn.tighter
    refine (h env henv).operator_of_le hn.free htrigger (henv.dictionary ▸ hoperators) (Nat.le_refl _)
      (Nat.le_of_eq (congrArg Precedence.rank hprecedence.symm)) (fun t us after _ ht _ u hu => ?_) ?_
    · rw [← Option.some.inj hu, ht]
      exact .inr (.inr ⟨n, hmultiplies⟩)
    · rintro us hus after s o chained hs hclosers hafter ⟨ho, -⟩
      have happly : Runs (applyOperator env (nested env (levels + 1)) n o.expression chained) s _ _ :=
        runs_applyOperator_of_infixOp hn.reader hn.infixOp (hright htight hus hs hclosers hafter)
          hpresent o.expression chained
      rw [Bool.true_and, hname] at happly
      refine ⟨_, ?_, happly⟩
      rw [chainName?_of_variadic hn.infixOp, hname]
      exact ⟨ho.append hne e, rfl⟩

end Parser

theorem WrittenFactor.beginFactors : ∀ a : WrittenFactor, BeginFactors a.tokens
  | .letter c h _ => by
    rintro _ ⟨t, rfl, ht⟩
    exact ⟨t, [], rfl, .inl ⟨c, h, ht⟩⟩
  | .parenthesized p => by
    intro us hus
    obtain ⟨t, ts, u, rfl, ht, -, -⟩ := mem_enclosed_iff.mp hus
    exact ⟨t, ts ++ [u], rfl, .inr (.inl ht)⟩

theorem WrittenFactor.isMissing (a : WrittenFactor) : a.expression.isMissing = false := by
  cases a <;> rfl

mutual

theorem WrittenFactor.eventually_reads : ∀ a : WrittenFactor,
    ∀ᶠ levels in atTop, ReadsFactor levels a.expression a.tokens
  | .letter c h hsymbol => .of_forall fun levels env henv => by
    refine (Reads.letter henv h _).mono (Nat.le_refl _) (fun _ h => h) ?_
    rintro _ _ ⟨rfl, rfl⟩
    exact ⟨Operand.ofName_of_notMem h hsymbol, rfl⟩
  | .parenthesized p =>
    eventually_succ p.eventually_reads fun _ h => h.parenthesized p.collect_operands

/-- The factors behind a sign are read one level down, the first one is not. -/
theorem WrittenProduct.eventually_reads : ∀ p : WrittenProduct,
    ∀ᶠ levels in atTop, ReadsProduct levels p.operands p.tokens
  | .pair a sign b =>
    eventually_succ ((eventually_and_succ a.eventually_reads).and b.eventually_reads)
      fun _ ⟨⟨_, ha⟩, hb⟩ =>
        ha.product.append (List.cons_ne_nil _ _) hb b.isMissing b.beginFactors sign
  | .more p sign b =>
    eventually_succ ((eventually_and_succ p.eventually_reads).and b.eventually_reads)
      fun _ ⟨⟨_, hp⟩, hb⟩ => hp.append p.operands_ne_nil hb b.isMissing b.beginFactors sign

end

/-! ### The text -/

namespace Text

/-- No letters behind the text make a control word of its end. -/
def EndsPlain (l : List Char) : Prop :=
  ∀ w : List Char, (∀ c ∈ w, c.isAlpha = true) → endsInControlWord (l ++ w) = false

variable {l r : List Char}

theorem EndsPlain.nil : EndsPlain [] := by
  intro w hw
  have hall : ∀ c ∈ w.reverse, c.isAlpha = true := fun c hc => hw c (List.mem_reverse.mp hc)
  rw [List.nil_append, endsInControlWord, List.dropWhile_eq_nil_iff.mpr hall]
  split
  · next heq => cases heq
  · rfl

theorem EndsPlain.of_not_isAlpha {c : Char} (hc : c.isAlpha = false) (hslash : c ≠ '\\')
    (l : List Char) : EndsPlain (l ++ [c]) := by
  intro w hw
  have hall : ∀ c ∈ w.reverse, c.isAlpha = true := fun c hc => hw c (List.mem_reverse.mp hc)
  have hstop : (c :: l.reverse).head?.any Char.isAlpha = false := hc
  rw [List.append_assoc, List.singleton_append, endsInControlWord, List.reverse_append,
    List.reverse_cons, List.append_assoc, List.singleton_append, dropWhile_append hall hstop]
  split
  · next heq => exact absurd (List.cons.inj heq).1 hslash
  · rfl

theorem EndsPlain.append_singleton {c : Char} (h : EndsPlain l) (hslash : c ≠ '\\') :
    EndsPlain (l ++ [c]) := by
  cases halpha : c.isAlpha with
  | false => exact .of_not_isAlpha halpha hslash l
  | true =>
    intro w hw
    rw [List.append_assoc, List.singleton_append]
    exact h (c :: w) (List.forall_mem_cons.mpr ⟨halpha, hw⟩)

theorem EndsPlain.severs (h : EndsPlain l) (hr : r.head?.any Char.isDigit = false) : Severs l r := by
  refine ⟨fun _ => ?_, fun hdigit => ?_⟩
  · have hword := h [] nofun
    rwa [List.append_nil] at hword
  · rw [hr] at hdigit
    cases hdigit

end Text

open Text (EndsPlain)

theorem ProductSign.spells (sign : ProductSign) : Spells sign.text.toList sign.tokens := by
  have hword {name : List Char} (hne : name ≠ []) (h : ∀ c ∈ name, c.isAlpha = true) :
      Spells ('\\' :: name ++ [' ']) (Token.one (.command (String.ofList name))) := by
    rw [← mul_one (Token.one _)]
    exact (Spells.command hne h).mul (.blank rfl) (.of_not rfl rfl _ _)
  cases sign with
  | invisible => exact .nil
  | times => exact @hword "times".toList (by decide) (List.all_eq_true.mp (by decide))
  | cdot => exact @hword "cdot".toList (by decide) (List.all_eq_true.mp (by decide))
  | star => exact .of_single rfl fun _ => rfl

theorem ProductSign.endsPlain (sign : ProductSign) {l : List Char} (h : EndsPlain l) :
    EndsPlain (l ++ sign.text.toList) := by
  cases sign with
  | invisible => rwa [show invisible.text.toList = [] from rfl, List.append_nil]
  | times =>
    rw [show times.text.toList = "\\times".toList ++ [' '] from rfl, ← List.append_assoc]
    exact .of_not_isAlpha rfl (by decide) _
  | cdot =>
    rw [show cdot.text.toList = "\\cdot".toList ++ [' '] from rfl, ← List.append_assoc]
    exact .of_not_isAlpha rfl (by decide) _
  | star => exact .of_not_isAlpha rfl (by decide) _

namespace WrittenFactor

theorem endsPlain (a : WrittenFactor) {l : List Char} (h : EndsPlain l) :
    EndsPlain (l ++ a.text.toList) := by
  cases a with
  | letter c hc _ =>
    rw [text, String.toList_singleton]
    exact h.append_singleton fun hslash => absurd (hslash ▸ hc) (by decide)
  | parenthesized p =>
    rw [text, Text.parenthesized, String.toList_append, ← List.append_assoc]
    exact .of_not_isAlpha rfl (by decide) _

theorem head?_text (a : WrittenFactor) : a.text.toList.head?.any Char.isDigit = false := by
  cases a with
  | letter c hc _ =>
    rw [text, String.toList_singleton]
    exact Text.isDigit_of_isLetter hc
  | parenthesized p =>
    rw [text, Text.parenthesized, String.toList_append, String.toList_append]
    rfl

/-- A sign and a factor behind a text. -/
theorem spells_append {l : List Char} {P : Language Token} (hl : Spells l P) (hplain : EndsPlain l)
    (sign : ProductSign) {a : WrittenFactor} (ha : Spells a.text.toList a.tokens) :
    Spells (l ++ (sign.text ++ a.text).toList) (P * (sign.tokens * a.tokens)) := by
  have hsign : EndsPlain sign.text.toList := sign.endsPlain .nil
  have hdigit : (sign.text.toList ++ a.text.toList).head?.any Char.isDigit = false := by
    cases sign with
    | invisible => exact a.head?_text
    | _ => rfl
  rw [String.toList_append]
  exact hl.mul (sign.spells.mul ha (hsign.severs a.head?_text)) (hplain.severs hdigit)

end WrittenFactor

theorem WrittenProduct.endsPlain : ∀ p : WrittenProduct, EndsPlain p.text.toList
  | .pair a sign b => by
    rw [text, String.toList_append, String.toList_append, ← List.append_assoc]
    exact b.endsPlain (sign.endsPlain (a.endsPlain .nil))
  | .more p sign b => by
    rw [text, String.toList_append, String.toList_append, ← List.append_assoc]
    exact b.endsPlain (sign.endsPlain p.endsPlain)

mutual

theorem WrittenFactor.spells : ∀ a : WrittenFactor, Spells a.text.toList a.tokens
  | .letter c h _ => by
    rw [WrittenFactor.text, String.toList_singleton]
    exact .letter h
  | .parenthesized p => p.spells.parenthesized

theorem WrittenProduct.spells : ∀ p : WrittenProduct, Spells p.text.toList p.tokens
  | .pair a sign b => by
    rw [WrittenProduct.text, String.toList_append]
    exact WrittenFactor.spells_append a.spells (a.endsPlain .nil) sign b.spells
  | .more p sign b => by
    rw [WrittenProduct.text, String.toList_append]
    exact WrittenFactor.spells_append p.spells p.endsPlain sign b.spells

end

/-- A product is parsed as one product of its factors, as long as the limit allows its nesting. -/
theorem parse_writtenProduct (p : WrittenProduct) : ∀ᶠ depth in atTop,
    parse .standard { maxDepth := depth } p.text =
      .ok ⟨.function "Multiply" (p.factors.map WrittenFactor.expression), []⟩ := by
  refine eventually_succ p.eventually_reads fun levels h => ?_
  have henv : Env.IsStandard ⟨p.text, .standard, { maxDepth := levels + 1 }⟩ := ⟨rfl, rfl⟩
  have hexpression {o : Operand} {chained : Option String}
      (ho : Collects "Multiply" p.operands o chained) : o.expression = .function "Multiply" p.operands :=
    ho.expression.trans p.collect_operands
  obtain ⟨o, chained, ⟨ho, -⟩, hparse⟩ := (h _ henv).exists_parse_eq p.spells nofun nofun rfl
    fun o chained ho => by
      rw [hexpression ho.1]
      rfl
  rw [hparse, hexpression ho, p.operands_eq]

/-- A product in a product, with three signs. -/
example :
    (WrittenProduct.more
      (.pair (.letter 'x' rfl (by decide)) .invisible
        (.parenthesized (.pair (.letter 'y' rfl (by decide)) .star (.letter 'z' rfl (by decide)))))
      .times (.letter 'w' rfl (by decide))).text = "x(y*z)\\times w" := by
  decide +kernel

end TexFormula
