import Mathlib.Algebra.Group.Pi.Basic
import Mathlib.Data.Set.Defs
import TexFormula.Dictionary.Standard
import TexFormula.Proofs.Numerals
import TexFormula.Proofs.ResolvedNotations

/-!
# Units of arithmetic

What is written without loose ends: letters, groups in parentheses, fractions, powers and numerals.
`Piece D p follow f P` says that the tokens of the language `P` are read as an expression with the
value `f` wherever operators as loose as `p` are accepted and `follow` holds of the tokens behind.
The values count at the assignments in `D` only, so that quotients need not be defined elsewhere.
-/

open Filter TexFormula.Parser

namespace TexFormula

/-- The value of an expression at each assignment of values to the symbols. -/
abbrev Meaning : Type :=
  (String → ℚ) → ℚ

/-! ### The standard notations -/

namespace Dictionary

/-- The operators that are written between operands and bind less tightly than sums: relations, and
those of logic. -/
def looseOperators : List Notation :=
  (relations ++ logic).filter fun n => n.followsOperand && !n.parseOnly

/-- The token is that of the operator, and of no other one. -/
structure IsOperator (n : Notation) (kind : Token.Kind) : Prop where
  free : Free kind
  exists_operators : ∃ trigger, kind.trigger? = some trigger ∧ standard.operators trigger = [n]

theorem mem_standardEntries_of_loose {n : Notation} (hn : n ∈ looseOperators) :
    n ∈ standardEntries := by
  rcases List.mem_append.mp (List.mem_filter.mp hn).1 with hn | hn <;> simp [standardEntries, hn]

theorem IsOperator.of_loose {n : Notation} {kind : Token.Kind} (hn : n ∈ looseOperators)
    (hfree : Free kind) (htrigger : kind.trigger? = n.trigger) : IsOperator n kind := by
  have hall : ∀ n ∈ looseOperators, n.serializeOnly = false ∧ n.followsOperand = true ∧
      standardEntries.countP (·.trigger == n.trigger) = 1 ∧ n.trigger.isSome := by
    decide +kernel
  obtain ⟨hreads, hfollows, honce, hsome⟩ := hall n hn
  obtain ⟨trigger, hsome⟩ := Option.isSome_iff_exists.mp hsome
  rw [hsome] at honce
  exact ⟨hfree, trigger, htrigger.trans hsome,
    operators_of_once (mem_standardEntries_of_loose hn) hsome hreads hfollows honce⟩

theorem isLetter_trigger_standard :
    ∀ n ∈ standardEntries, ∀ trigger ∈ n.trigger,
      trigger.toList.head?.any Text.isLetter = false := by
  decide +kernel

theorem readAt_standard_letter {c : Char} (hc : Text.isLetter c = true) :
    standard.readAt (String.singleton c) = [] := by
  refine List.filterMap_eq_nil_iff.mpr fun n hn => ?_
  have htrigger : n.trigger ≠ some (String.singleton c) := by
    intro htrigger
    have hletter := isLetter_trigger_standard n (List.mem_reverse.mp hn) _ htrigger
    rw [String.toList_singleton, List.head?_cons, Option.any_some, hc] at hletter
    cases hletter
  rw [beq_false_of_ne htrigger, Bool.and_false]
  rfl

theorem hasOperator_standard_letter {c : Char} (hc : Text.isLetter c = true) :
    standard.hasOperator (String.singleton c) = false := by
  rw [hasOperator, operators, readAt_standard_letter hc]
  rfl

end Dictionary

/-- The letters that are symbols and nothing else. -/
def IsSymbolLetter (c : Char) : Prop :=
  c.isAlpha = true ∧ c ∉ ['f', 'g', 'h']

instance (c : Char) : Decidable (IsSymbolLetter c) :=
  inferInstanceAs (Decidable (_ ∧ _))

theorem IsSymbolLetter.isLetter {c : Char} (h : IsSymbolLetter c) : Text.isLetter c = true :=
  Text.isLetter_of_isAlpha h.1

/-- The letters that can be applied. -/
theorem disposition_singleton_eq_function {c : Char} (h : Text.isLetter c = true) :
    UnknownTokenPolicy.standard.disposition (String.singleton c) = .function ↔
      c ∈ ['f', 'g', 'h'] := by
  show UnknownTokenPolicy.standardDisposition _ = _ ↔ _
  unfold UnknownTokenPolicy.standardDisposition
  rw [String.toList_singleton]
  split
  · next hslash =>
    rw [(List.cons.inj hslash).1] at h
    exact absurd h (by decide)
  · next heq => simp [(List.cons.inj heq).1]
  · next heq => simp [(List.cons.inj heq).1]
  · next heq => simp [(List.cons.inj heq).1]
  · next heq => cases (List.cons.inj heq).2
  · next hf hg hh _ =>
    have hother : c ≠ 'f' ∧ c ≠ 'g' ∧ c ≠ 'h' :=
      ⟨fun h => hf (by rw [h]), fun h => hg (by rw [h]), fun h => hh (by rw [h])⟩
    simp [hother]

namespace Parser

/-- The standard notations are read, and unknown tokens in the standard way. -/
structure Env.IsStandard (env : Env) : Prop where
  dictionary : env.dictionary = .standard
  unknownTokens : env.options.unknownTokens = .standard

/-- The states in which groups are waited for, and nothing else. -/
def delimited : Context where
  holds := State.Delimited
  delimited h := h
  forward n h := h.forward n
  await hclose _ := .await hclose _

/-! ### What follows a piece -/

/-- The commands that start a fraction, a root, an elementary function or a name. -/
def unitCommands : List String :=
  ["frac", "sqrt", "sin", "cos", "tan", "ln", "log", "exp", "pi"] ++ Dictionary.greek

/-- The kinds of token that start a letter, a group in parentheses or what a command stands for. -/
def BeginsUnit (kind : Token.Kind) : Prop :=
  (∃ c, IsSymbolLetter c ∧ kind = .letter c) ∨ kind = .punct '(' ∨
    ∃ name ∈ unitCommands, kind = .command name

theorem BeginsUnit.ne_digits {kind : Token.Kind} (h : BeginsUnit kind) (run : String) :
    kind ≠ .digits run := by
  rcases h with ⟨c, -, rfl⟩ | rfl | ⟨name, -, rfl⟩ <;> exact nofun

theorem BeginsUnit.ne_punct {kind : Token.Kind} (h : BeginsUnit kind) {c : Char} (hc : c ≠ '(') :
    kind ≠ .punct c := by
  rcases h with ⟨_, -, rfl⟩ | rfl | ⟨name, -, rfl⟩
  · exact nofun
  · exact fun heq => hc (Token.Kind.punct.inj heq).symm
  · exact nofun

theorem BeginsUnit.ne_command {kind : Token.Kind} (h : BeginsUnit kind) {name : String}
    (hname : name ∉ unitCommands) : kind ≠ .command name := by
  rcases h with ⟨_, -, rfl⟩ | rfl | ⟨other, hother, rfl⟩
  · exact nofun
  · exact nofun
  · exact fun heq => hname (Token.Kind.command.inj heq ▸ hother)

/-- The kinds of token of the operators that bind less tightly than sums and are written between
operands: relations, and those of logic. -/
def looseKinds : List Token.Kind :=
  [.punct '=', .command "ne", .punct '<', .command "le", .punct '>', .command "ge", .command "land",
    .command "lor"]

/-- The kinds of token that end a term. -/
def sumKinds : List Token.Kind :=
  .punct '+' :: .punct '-' :: looseKinds

/-- What ends a term is an operator that binds as loosely as a sum. -/
theorem exists_isOperator_of_mem_sumKinds {kind : Token.Kind} (h : kind ∈ sumKinds) :
    ∃ n, Dictionary.IsOperator n kind ∧ n.precedence ≤ .addition := by
  rcases List.mem_cons.mp h with rfl | h
  · exact ⟨_, ⟨by decide, "+", rfl, rfl⟩, Nat.le_refl _⟩
  rcases List.mem_cons.mp h with rfl | h
  · exact ⟨_, ⟨by decide, "-", rfl, rfl⟩, Nat.le_refl _⟩
  have hall : ∀ kind ∈ looseKinds, Free kind ∧ ∃ n ∈ Dictionary.looseOperators,
      kind.trigger? = n.trigger ∧ n.precedence ≤ .addition := by
    decide +kernel
  obtain ⟨hfree, n, hn, htrigger, hloose⟩ := hall kind h
  exact ⟨n, .of_loose hn hfree htrigger, hloose⟩

/-- The sum that a piece belongs to ends. -/
def EndsSum (after : List Token) : Prop :=
  ∀ t ∈ after.head?, Closing t

/-- The product that a piece belongs to ends, with its sum or not. -/
def EndsProduct (after : List Token) : Prop :=
  ∀ t ∈ after.head?, Closing t ∨ t.kind ∈ sumKinds

/-- The factor that a piece belongs to ends. -/
def EndsFactor (after : List Token) : Prop :=
  ∀ t ∈ after.head?, (Closing t ∨ t.kind ∈ sumKinds) ∨ t.kind = .command "times" ∨ BeginsUnit t.kind

theorem EndsSum.of_closing {t : Token} (ht : Closing t) (after : List Token) :
    EndsSum (t :: after) := by
  intro u hu
  rw [← Option.some.inj hu]
  exact ht

theorem EndsSum.endsProduct {after : List Token} (h : EndsSum after) : EndsProduct after :=
  fun t ht => .inl (h t ht)

theorem EndsProduct.endsFactor {after : List Token} (h : EndsProduct after) : EndsFactor after :=
  fun t ht => .inl (h t ht)

/-! ### Pieces -/

variable {D : Set (String → ℚ)} {p q : Precedence} {follow follow' : List Token → Prop}
  {f g : Meaning} {P Q : Language Token}

/-- The operand has the value, and can only be a chain of its own head. -/
structure Says (D : Set (String → ℚ)) (f : Meaning) (o : Operand) (chained : Option String) : Prop
    where
  value : ∀ σ ∈ D, o.expression.value? σ = some (f σ)
  present : o.expression.isMissing = false
  callable : o.callable = false
  chain : ∀ name ∈ chained, o.expression.headName? = some name

def Piece (D : Set (String → ℚ)) (p : Precedence) (follow : List Token → Prop) (f : Meaning)
    (P : Language Token) : Prop :=
  ∀ᶠ levels in atTop, ∀ env : Env, env.IsStandard →
    Reads env (nested env levels) delimited p follow (Says D f) P

theorem Says.congr {o : Operand} {chained : Option String} (h : Says D f o chained)
    (hfg : ∀ σ ∈ D, f σ = g σ) : Says D g o chained :=
  ⟨fun σ hσ => by rw [← hfg σ hσ]; exact h.value σ hσ, h.present, h.callable, h.chain⟩

theorem Piece.mono (h : Piece D p follow f P) (hp : q ≤ p)
    (hfollow : ∀ after, follow' after → follow after) (hfg : ∀ σ ∈ D, f σ = g σ) :
    Piece D q follow' g P := by
  refine Eventually.mono h fun levels hlevels env henv => ?_
  exact (hlevels env henv).mono hp hfollow fun o chained hsays => hsays.congr hfg

/-- One level of nesting further down. -/
theorem Piece.below (h : Piece D p follow f P) :
    ∀ᶠ levels in atTop, ∃ below, levels = below + 1 ∧ ∀ env : Env, env.IsStandard →
      Reads env (nested env below) delimited p follow (Says D f) P :=
  eventually_below h

/-- An operand that is not a chain. -/
theorem Says.of_value {e : Expression} (hvalue : ∀ σ ∈ D, e.value? σ = some (f σ))
    (hpresent : e.isMissing = false) : Says D f { expression := e } none :=
  ⟨hvalue, hpresent, rfl, nofun⟩

/-- What is read can be an operand, and cannot be applied. -/
def Settles (R : Operand → Option String → Prop) : Prop :=
  ∀ o chained, R o chained → o.callable = false ∧ o.expression.isMissing = false

theorem Says.settles : Settles (Says D f) :=
  fun _ _ h => ⟨h.callable, h.present⟩

/-! ### Letters, parentheses and fractions -/

/-- What a letter or a name is read as. -/
def Operand.ofName (name : String) : Operand :=
  ⟨.symbol name, UnknownTokenPolicy.standard.disposition name == .function⟩

theorem Operand.ofName_of_notMem {c : Char} (h : Text.isLetter c = true) (hc : c ∉ ['f', 'g', 'h']) :
    ofName (String.singleton c) = { expression := .symbol (String.singleton c) } := by
  have hnot := mt (disposition_singleton_eq_function h).mp hc
  rw [ofName, beq_false_of_ne hnot]

theorem Meets.runs_operand_of_isLetter {env : Env} {inner : Inner} {s : State} {t : Token}
    {rest : List Token} {c : Char} (henv : env.IsStandard) (hs : Meets env s t rest)
    (ht : t.kind = .letter c) (hc : Text.isLetter c = true) :
    Runs (operand env inner) s (some (.ofName (String.singleton c))) (s.forward 1) := by
  refine hs.runs_operand_of_letter ht hc henv.unknownTokens ?_ ?_
  · rw [henv.dictionary, Dictionary.operands, Dictionary.readAt_standard_letter hc]
    rfl
  · rw [henv.dictionary, Dictionary.hasOperator_standard_letter hc]

theorem runs_operand_of_isLetter {env : Env} {inner : Inner} {s : State} {t : Token}
    {rest : List Token} {c : Char} (henv : env.IsStandard) (hs : s.rest = t :: rest)
    (ht : t.kind = .letter c) (hc : Text.isLetter c = true) (hclosers : s.Delimited) :
    Runs (operand env inner) s (some (.ofName (String.singleton c))) (s.forward 1) :=
  Meets.runs_operand_of_isLetter henv (Continues.meets (ht ▸ .letter hc) hs hclosers) ht hc

/-- A letter is a symbol. -/
theorem Reads.letter {env : Env} {inner : Inner} {ctx : Context} (henv : env.IsStandard) {c : Char}
    (hc : Text.isLetter c = true) (follow : List Token → Prop) :
    Reads env inner ctx .atomic follow
      (fun o chained => o = .ofName (String.singleton c) ∧ chained = none)
      (Token.one (.letter c)) := by
  rintro _ ⟨t, rfl, hkind⟩ after s loosest hs hctx - -
  exact ⟨_, none, ⟨rfl, rfl⟩,
    leadsTo_of_operand (runs_operand_of_isLetter henv hs hkind hc (ctx.delimited hctx))⟩

theorem Piece.letter {c : Char} (hc : IsSymbolLetter c) :
    Piece D .atomic (fun _ => True) (fun σ => σ (String.singleton c)) (Token.one (.letter c)) := by
  refine .of_forall fun levels env henv => ?_
  refine (Reads.letter henv hc.isLetter _).mono (Nat.le_refl _) (fun _ h => h) ?_
  rintro _ _ ⟨rfl, rfl⟩
  rw [Operand.ofName_of_notMem hc.isLetter hc.2]
  exact .of_value (fun σ _ => rfl) rfl

theorem Piece.parenthesized (h : Piece D p EndsSum f P) (follow : List Token → Prop) :
    Piece D .atomic follow f (Token.one (.punct '(') * (P * Token.one (.punct ')'))) := by
  refine eventually_succ h fun levels hlevels env henv => ?_
  have hinside := hlevels env henv
  refine (hinside.parenthesized rfl (fun _ after ht => .of_closing ht after) ?_).mono
    (Nat.le_refl _) (fun _ h => h) ?_
  · exact fun o chained hsays => hsays.present
  · rintro _ _ ⟨o, _, hsays, rfl, rfl⟩
    exact .of_value hsays.value hsays.present

theorem startsNumber_eq_false_of_kind {t : Token} {rest : List Token}
    (hdigits : ∀ run, t.kind ≠ .digits run) (hpoint : t.kind ≠ .punct '.') :
    startsNumber (t :: rest) = false := by
  have hnone : t.digits? = none := by
    unfold Token.digits?
    split
    · next run hrun => exact absurd hrun (hdigits run)
    · rfl
  rw [startsNumber, hnone, Token.isPunct, beq_false_of_ne hpoint]
  rfl

/-- No shape starts with a command, unless it makes delimiters grow. -/
theorem runs_builtin_of_command {env : Env} {inner : Inner} {s : State} {t : Token}
    {rest : List Token} {name : String} (hs : s.rest = t :: rest) (ht : t.kind = .command name)
    (hname : name ≠ "left") : Runs (builtin env inner) s none s := by
  unfold builtin
  rw [runs_get]
  dsimp only
  rw [State.current_of_rest hs, ht]
  simp only [beq_false_of_ne hname, Bool.false_eq_true, if_false]
  exact .pure none s

/-- What a notation makes of the tokens behind its command is an operand. -/
theorem Reads.command {env : Env} {outer : Inner} {name : String} {n : Notation}
    {S : Operand → Prop} (hfree : Free (.command name))
    (hn : env.dictionary.operands ("\\" ++ name) = [n])
    (happly : ∀ us ∈ Q, ∀ (after : List Token) (s : State), s.rest = us ++ after → s.Delimited →
      ∃ o, S o ∧ Runs (applyNotation env outer n) s (some o) (s.forward us.length))
    (follow : List Token → Prop) :
    Reads env outer delimited .atomic follow (fun o chained => chained = none ∧ S o)
      (Token.one (.command name) * Q) := by
  intro ws hws after s loosest hs hctx _ _
  obtain ⟨_, ⟨t, rfl, ht⟩, us, hus, rfl⟩ := Language.mem_mul.mp hws
  rw [List.append_assoc] at hs
  have hrest : (s.forward 1).rest = us ++ after := by
    rw [State.rest_forward, hs]
    rfl
  obtain ⟨o, ho, happly⟩ := happly us hus after _ hrest (delimited.forward 1 hctx)
  have htrigger : t.trigger? = some ("\\" ++ name) := by
    rw [Token.trigger?, ht]
    rfl
  have hname : name ≠ "left" := by
    rintro rfl
    exact hfree.1 List.mem_cons_self
  refine ⟨o, none, ⟨rfl, ho⟩, ?_⟩
  have hbuiltin : Runs (builtin env outer) s none s := runs_builtin_of_command hs ht hname
  rw [State.forward_forward] at happly
  rw [List.length_append, List.length_singleton]
  exact leadsTo_of_operand
    (runs_operand_notated hs (ht ▸ hfree).continues hctx hbuiltin htrigger hn happly)

/-- A fraction of two expressions. -/
theorem Reads.fraction {env : Env} {inner outer : Inner} {pf pg : Precedence}
    {R R' : Operand → Option String → Prop} (henv : env.IsStandard)
    (houter : outer.expression .loosest = expressionAt env inner .loosest)
    (hf : Reads env inner delimited pf EndsSum R P) (hg : Reads env inner delimited pg EndsSum R' Q)
    (follow : List Token → Prop) :
    Reads env outer delimited .atomic follow
      (fun o chained => chained = none ∧ ∃ a c b c', R a c ∧ R' b c' ∧
        o = { expression := .function "Divide" [a.expression, b.expression] })
      (Token.one (.command "frac") *
        ((Token.one .groupOpen * (P * Token.one .groupClose)) *
          (Token.one .groupOpen * (Q * Token.one .groupClose)))) := by
  have hoperands : env.dictionary.operands "\\frac" = [.ofCommand "Divide" "\\frac" 2] := by
    rw [henv.dictionary]
    rfl
  refine .command (by decide) hoperands (fun vs hvs after s hs hctx => ?_) follow
  obtain ⟨us, hus, ts, hts, rfl⟩ := Language.mem_mul.mp hvs
  rw [List.append_assoc] at hs
  have hsecond : (s.forward us.length).rest = ts ++ after := by
    rw [State.rest_forward, hs, List.drop_left]
  obtain ⟨a, c, ha, htop⟩ := hf.runs_argument houter
    (fun _ after ht => .of_closing ht after) hus hs hctx "\\frac"
  obtain ⟨b, c', hb, hbottom⟩ := hg.runs_argument houter
    (fun _ after ht => .of_closing ht after) hts hsecond (delimited.forward _ hctx) "\\frac"
  have harguments : Runs (arguments env outer "\\frac" 2) s [a.expression, b.expression]
      (s.forward (us ++ ts).length) := by
    rw [State.forward_forward] at hbottom
    rw [List.length_append]
    exact htop.bind (Runs.bind (hbottom.bind (.pure _ _)) (.pure _ _))
  exact ⟨_, ⟨a, c, b, c', ha, hb, rfl⟩, harguments.bind (.pure _ _)⟩

theorem Piece.fraction {pf pg : Precedence} (hf : Piece D pf EndsSum f P)
    (hg : Piece D pg EndsSum g Q) (hne : ∀ σ ∈ D, g σ ≠ 0) (follow : List Token → Prop) :
    Piece D .atomic follow (fun σ => f σ / g σ)
      (Token.one (.command "frac") *
        ((Token.one .groupOpen * (P * Token.one .groupClose)) *
          (Token.one .groupOpen * (Q * Token.one .groupClose)))) := by
  refine eventually_succ (hf.and hg) fun levels hlevels env henv => ?_
  have hreads : Reads env (nested env (levels + 1)) delimited .atomic follow _ _ :=
    .fraction henv rfl (hlevels.1 env henv) (hlevels.2 env henv) follow
  refine hreads.mono (Nat.le_refl _) (fun _ h => h) ?_
  rintro _ _ ⟨rfl, a, _, b, _, ha, hb, rfl⟩
  refine .of_value (fun σ hσ => ?_) rfl
  rw [Expression.value?_function, Expression.values?, Expression.values?, Expression.values?,
    ha.value σ hσ, hb.value σ hσ]
  simp [hne σ hσ]

/-! ### Numerals -/

/-- The tokens of a product with a power of ten, from its sign on. -/
def powerTokens (k : Nat) : Language Token :=
  Token.one (.command "times") * (numeralTokens 10 * (Token.one (.punct '^') *
    (Token.one .groupOpen * (numeralTokens k * Token.one .groupClose))))

/-- The tokens of a numeral and of the power of ten behind it, if there is one. -/
def scaledTokens (n : Nat) : Option Nat → Language Token
  | none => numeralTokens n
  | some k => numeralTokens n * powerTokens k

/-- Up to three digits are one token. -/
theorem eq_singleton_of_mem_numeralTokens {n : Nat} {ts : List Token} (h : ts ∈ numeralTokens n)
    (hshort : n < 1000) :
    ∃ t : Token, ts = [t] ∧ t.kind = .digits (String.ofList (Digits.ofNat n)) := by
  obtain ⟨t, rest, run, digits, rfl, hkind, hgrouped, hdigits, hsingle⟩ := h
  obtain rfl := hsingle.mpr ((Digits.length_ofNat_le_iff (by decide)).mpr hshort)
  cases hgrouped
  rw [List.append_nil] at hdigits
  exact ⟨t, rfl, hdigits ▸ hkind⟩

theorem powerOfTen?_of_mem {k : Nat} (hk : k < 1000) {ts : List Token} (h : ts ∈ powerTokens k)
    (after : List Token) :
    powerOfTen? (ts ++ after) = some (String.ofList (Digits.ofNat k), 6) ∧ ts.length = 6 := by
  obtain ⟨_, ⟨times, rfl, htimes⟩, us, hus, rfl⟩ := Language.mem_mul.mp h
  obtain ⟨_, htens, vs, hvs, rfl⟩ := Language.mem_mul.mp hus
  obtain ⟨ten, rfl, hten⟩ := eq_singleton_of_mem_numeralTokens htens (by decide)
  obtain ⟨_, ⟨caret, rfl, hcaret⟩, ws, hws, rfl⟩ := Language.mem_mul.mp hvs
  obtain ⟨opening, _, closing, rfl, hopening, hdigits, hclosing⟩ := mem_enclosed_iff.mp hws
  obtain ⟨d, rfl, hd⟩ := eq_singleton_of_mem_numeralTokens hdigits hk
  have hnot : opening.digits? = none := by rw [Token.digits?, hopening]
  have hsign : sign? d = none := by simp [sign?, Token.isPunct, hd]
  have hrun : d.digits? = some (String.ofList (Digits.ofNat k)) := by rw [Token.digits?, hd]
  have hrunTen : ten.kind = .digits "10" := hten
  refine ⟨?_, rfl⟩
  simp [powerOfTen?, exponentText?, bracedExponent?, digitsToBrace?, Token.isCommand, Token.isPunct,
    htimes, hrunTen, hcaret, hnot, hopening, hsign, hclosing, hrun]

/-- What may follow a numeral. A sign in front of a power is an operator. -/
structure EndsNumeral (negative : Bool) (power : Option Nat) (after : List Token) : Prop where
  unscaled : power = none → EndsNumber after ∧ powerOfTen? after = none
  unraised : negative = true → ∀ t ∈ after.head?, t.isPunct '^' = false

theorem exists_runs_number {env : Env} {s : State} {n : Nat} {power : Option Nat} {ts after : List Token}
    (hn : n < tenPow 15) (hpower : ∀ k ∈ power, k < 1000) (hts : ts ∈ scaledTokens n power)
    (hs : s.rest = ts ++ after) (hafter : power = none → EndsNumber after ∧ powerOfTen? after = none)
    (negative : Bool) :
    ∃ value, value.value? = some (signed negative (n * 10 ^ power.getD 0)) ∧
      Runs (number env negative) s (.number value) (s.forward ts.length) := by
  cases power with
  | none => exact runs_number hs hts hn (hafter rfl).1 hpower (hafter rfl).2 negative
  | some k =>
    obtain ⟨us, hus, vs, hvs, rfl⟩ := Language.mem_mul.mp hts
    obtain ⟨hscale, hlength⟩ := powerOfTen?_of_mem (hpower k rfl) hvs after
    rw [List.append_assoc] at hs
    have hends : EndsNumber (vs ++ after) := by
      obtain ⟨_, ⟨times, rfl, htimes⟩, xs, -, rfl⟩ := Language.mem_mul.mp hvs
      intro t ht
      rw [← Option.some.inj ht]
      simp [Token.isCommand, Token.isPunct, htimes]
    rw [List.length_append, hlength]
    exact runs_number hs hus hn hends hpower hscale negative

theorem exists_digits_of_mem_scaledTokens {n : Nat} {power : Option Nat} {ts : List Token}
    (h : ts ∈ scaledTokens n power) : ∃ t rest run, ts = t :: rest ∧ t.kind = .digits run := by
  cases power with
  | none =>
    obtain ⟨t, rest, run, _, rfl, hkind, -⟩ := h
    exact ⟨t, rest, _, rfl, hkind⟩
  | some k =>
    obtain ⟨_, ⟨t, rest, run, _, rfl, hkind, -⟩, vs, -, rfl⟩ := Language.mem_mul.mp h
    exact ⟨t, rest ++ vs, _, rfl, hkind⟩

theorem runs_builtin_of_minus {env : Env} {inner : Inner} {s s₁ : State} {t : Token}
    {rest : List Token} {o : Option Operand} (hs : s.rest = t :: rest) (ht : t.kind = .punct '-')
    (hnumber : startsNumber rest = true) (h : Runs (signedNumber env true) s o s₁) :
    Runs (builtin env inner) s o s₁ := by
  unfold builtin
  rw [runs_get]
  dsimp only
  rw [State.current_of_rest hs, ht, hs]
  simp only [List.drop_one, List.tail_cons, hnumber]
  exact h

theorem runs_signedNumber {env : Env} {s s₁ : State} {value : Number}
    (h : Runs (number env true) (s.forward 1) (.number value) s₁)
    (hcaret : (s₁.current env).isPunct '^' = false) :
    Runs (signedNumber env true) s (some { expression := .number value }) s₁ := by
  refine runs_attempt.mpr (.inr ⟨rfl, ?_⟩)
  rw [runs_advance]
  refine h.bind ?_
  rw [runs_current, hcaret]
  exact .pure _ _

/-- A minus sign in front of a number that is raised to a power does not belong to it. -/
theorem runs_signedNumber_of_caret {env : Env} {s s₁ : State} {value : Number}
    (h : Runs (number env true) (s.forward 1) (.number value) s₁)
    (hcaret : (s₁.current env).isPunct '^' = true) : Runs (signedNumber env true) s none s := by
  refine runs_attempt.mpr (.inl ⟨rfl, rfl, s₁, ?_⟩)
  rw [runs_advance]
  refine h.bind ?_
  rw [runs_current, hcaret]
  exact .pure _ _

theorem runs_operand_of_digits {env : Env} {inner : Inner} {s s₁ : State} {t : Token}
    {rest : List Token} {run : String} {value : Number} (hs : s.rest = t :: rest)
    (ht : t.kind = .digits run) (hctx : s.Delimited)
    (h : Runs (number env false) s (.number value) s₁) :
    Runs (operand env inner) s (some { expression := .number value }) s₁ := by
  have hcontinues : Continues t.kind := by
    rw [ht]
    exact ⟨nofun, rfl, nofun⟩
  refine runs_operand_of_builtin hs hcontinues hctx ?_
  unfold builtin
  rw [runs_get]
  dsimp only
  rw [State.current_of_rest hs, ht]
  exact h.bind (.pure _ _)

/-- A minus sign in front of digits belongs to the number, unless it is raised to a power. -/
theorem runs_operand_of_minus {env : Env} {inner : Inner} {s s₁ : State} {t d : Token}
    {rest : List Token} {run : String} {value : Number} (hs : s.rest = t :: d :: rest)
    (ht : t.kind = .punct '-') (hd : d.kind = .digits run) (hctx : s.Delimited)
    (h : Runs (number env true) (s.forward 1) (.number value) s₁)
    (hcaret : ∀ u ∈ s₁.rest.head?, u.isPunct '^' = false) :
    Runs (operand env inner) s (some { expression := .number value }) s₁ := by
  have hfree : Free t.kind := by
    rw [ht]
    decide
  have hnumber : startsNumber (d :: rest) = true := by
    rw [startsNumber, Token.digits?, hd]
    rfl
  have hraised : (s₁.current env).isPunct '^' = false := by
    rw [State.current]
    cases hrest : s₁.rest with
    | nil => rfl
    | cons u _ => exact hcaret u (by rw [hrest]; rfl)
  exact runs_operand_of_builtin hs hfree.continues hctx
    (runs_builtin_of_minus hs ht hnumber (runs_signedNumber h hraised))

/-- A minus sign in front of a number that is raised to a power is no part of it. -/
theorem runs_builtin_of_raised {env : Env} {inner : Inner} {s s₁ : State} {t d caret : Token}
    {rest others : List Token} {run : String} {value : Number} (hs : s.rest = t :: d :: rest)
    (ht : t.kind = .punct '-') (hd : d.kind = .digits run)
    (h : Runs (number env true) (s.forward 1) (.number value) s₁) (hrest : s₁.rest = caret :: others)
    (hcaret : caret.kind = .punct '^') : Runs (builtin env inner) s none s := by
  have hnumber : startsNumber (d :: rest) = true := by
    rw [startsNumber, Token.digits?, hd]
    rfl
  refine runs_builtin_of_minus hs ht hnumber (runs_signedNumber_of_caret h ?_)
  rw [State.current_of_rest hrest]
  exact beq_iff_eq.mpr hcaret

theorem Says.number {value : Number} {v : ℚ} (h : value.value? = some v) :
    Says D (fun _ => v) { expression := .number value } none :=
  .of_value (fun _ _ => by rw [Expression.value?]; exact h) rfl

theorem Piece.numeral {n : Nat} {power : Option Nat} (hn : n < tenPow 15)
    (hpower : ∀ k ∈ power, k < 1000) :
    Piece D .atomic (EndsNumeral false power) (fun _ => n * 10 ^ power.getD 0)
      (scaledTokens n power) := by
  refine .of_forall fun levels env henv => ?_
  intro ts hts after s loosest hs hctx _ hafter
  obtain ⟨value, hvalue, hruns⟩ :=
    exists_runs_number hn hpower hts hs hafter.unscaled false
  refine ⟨{ expression := .number value }, none, .number hvalue, leadsTo_of_operand ?_⟩
  obtain ⟨t, rest, run, rfl, hkind⟩ := exists_digits_of_mem_scaledTokens hts
  exact runs_operand_of_digits hs hkind hctx hruns

theorem Piece.negativeNumeral {n : Nat} {power : Option Nat} (hn : n < tenPow 15)
    (hpower : ∀ k ∈ power, k < 1000) :
    Piece D .atomic (EndsNumeral true power) (fun _ => -(n * 10 ^ power.getD 0))
      (Token.one (.punct '-') * scaledTokens n power) := by
  refine .of_forall fun levels env henv => ?_
  intro us hus after s loosest hs hctx _ hafter
  obtain ⟨_, ⟨t, rfl, ht⟩, ts, hts, rfl⟩ := Language.mem_mul.mp hus
  rw [List.append_assoc] at hs
  have hrest : (s.forward 1).rest = ts ++ after := by
    rw [State.rest_forward, hs]
    rfl
  obtain ⟨value, hvalue, hruns⟩ :=
    exists_runs_number hn hpower hts hrest hafter.unscaled true
  refine ⟨{ expression := .number value }, none, .number hvalue, leadsTo_of_operand ?_⟩
  obtain ⟨d, rest, run, rfl, hkind⟩ := exists_digits_of_mem_scaledTokens hts
  have hend : ((s.forward 1).forward (d :: rest).length).rest = after := by
    rw [State.rest_forward, hrest, List.drop_left]
  rw [List.length_append, List.length_singleton, ← State.forward_forward]
  exact runs_operand_of_minus hs ht hkind hctx hruns (hend.symm ▸ hafter.unraised rfl)

/-! ### Powers, indices and factorials -/

/-- The tokens of an exponent in braces, from the caret on. -/
def exponentTokens (k : Nat) : Language Token :=
  Token.one (.punct '^') * (Token.one .groupOpen * (numeralTokens k * Token.one .groupClose))

theorem EndsSum.endsNumeral {after : List Token} (h : EndsSum after) :
    EndsNumeral false none after := by
  refine ⟨fun _ => ⟨fun t ht => ?_, ?_⟩, nofun⟩
  · rcases h t ht with hkind | hkind <;> simp [Token.isCommand, Token.isPunct, hkind]
  · unfold powerOfTen?
    split
    · next times ten caret rest =>
      rcases h times rfl with hkind | hkind <;> simp [Token.isCommand, hkind]
    · rfl

theorem runs_script {env : Env} {inner : Inner} {s s₁ : State} {base script : Expression}
    {chained : Option String} {n : Notation} {name trigger : String}
    (hn : n.reader = some (Readers.script name trigger))
    (h : Runs (argument env inner trigger) s script s₁) :
    Runs (applyOperator env inner n base chained) s (some (.function name [base, script])) s₁ := by
  unfold applyOperator
  rw [hn]
  exact h.bind (.pure _ _)

/-- A script behind what it can be set on. -/
theorem Reads.script {env : Env} {inner outer : Inner} {R R' : Operand → Option String → Prop}
    {kind : Token.Kind} {name trigger : String} {writer : WritingHook} (hfree : Free kind)
    (htrigger : kind.trigger? = some trigger)
    (hoperators : env.dictionary.operators trigger =
      [((Notation.ofInfix name trigger .power).rightAssociative.withReader
        (Readers.script name trigger)).withWriter writer])
    (houter : outer.expression .loosest = expressionAt env inner .loosest)
    (h : Reads env outer delimited p follow R P) (hp : .power ≤ p)
    (hfollow : ∀ (t : Token) (after : List Token), t.kind = kind → follow (t :: after))
    (hQ : Reads env inner delimited q EndsSum R' Q) (follow' : List Token → Prop) :
    Reads env outer delimited .power follow'
      (fun o chained => chained = none ∧ ∃ a c b c', R a c ∧ R' b c' ∧
        o = { expression := .function name [a.expression, b.expression] })
      (P * (Token.one kind * (Token.one .groupOpen * (Q * Token.one .groupClose)))) := by
  refine h.operator hfree htrigger hoperators hp (fun t us after _ ht _ => hfollow t _ ht) ?_
  intro us hus after s a c hs hctx _ ha
  obtain ⟨b, c', hb, hargument⟩ := hQ.runs_argument houter
    (fun _ after ht => .of_closing ht after) hus hs hctx trigger
  exact ⟨_, ⟨rfl, a, c, b, c', ha, hb, rfl⟩, runs_script rfl hargument⟩

/-- An exponent behind what can be raised to a power. -/
theorem Reads.power {env : Env} {inner outer : Inner} {R R' : Operand → Option String → Prop}
    (henv : env.IsStandard)
    (houter : outer.expression .loosest = expressionAt env inner .loosest)
    (h : Reads env outer delimited p follow R P) (hp : .power ≤ p)
    (hfollow : ∀ (t : Token) (after : List Token), t.kind = .punct '^' → follow (t :: after))
    (hQ : Reads env inner delimited q EndsSum R' Q) (follow' : List Token → Prop) :
    Reads env outer delimited .power follow'
      (fun o chained => chained = none ∧ ∃ a c b c', R a c ∧ R' b c' ∧
        o = { expression := .function "Power" [a.expression, b.expression] })
      (P * (Token.one (.punct '^') * (Token.one .groupOpen * (Q * Token.one .groupClose)))) := by
  have hoperators : env.dictionary.operators "^" =
      [((Notation.ofInfix "Power" "^" .power).rightAssociative.withReader Readers.power).withWriter
        Writers.power] := by
    rw [henv.dictionary]
    rfl
  exact .script (by decide) rfl hoperators houter h hp hfollow hQ follow'

/-- An index behind what it can be set on. -/
theorem Reads.subscript {env : Env} {inner outer : Inner} {R R' : Operand → Option String → Prop}
    (henv : env.IsStandard)
    (houter : outer.expression .loosest = expressionAt env inner .loosest)
    (h : Reads env outer delimited p follow R P) (hp : .power ≤ p)
    (hfollow : ∀ (t : Token) (after : List Token), t.kind = .punct '_' → follow (t :: after))
    (hQ : Reads env inner delimited q EndsSum R' Q) (follow' : List Token → Prop) :
    Reads env outer delimited .power follow'
      (fun o chained => chained = none ∧ ∃ a c b c', R a c ∧ R' b c' ∧
        o = { expression := .function "Subscript" [a.expression, b.expression] })
      (P * (Token.one (.punct '_') * (Token.one .groupOpen * (Q * Token.one .groupClose)))) := by
  have hoperators : env.dictionary.operators "_" =
      [((Notation.ofInfix "Subscript" "_" .power).rightAssociative.withReader
        Readers.subscript).withWriter Writers.subscript] := by
    rw [henv.dictionary]
    rfl
  exact .script (by decide) rfl hoperators houter h hp hfollow hQ follow'

theorem Reads.factorial {env : Env} {inner : Inner} {R : Operand → Option String → Prop}
    (henv : env.IsStandard) (h : Reads env inner delimited p follow R P) (hp : .power ≤ p)
    (hfollow : ∀ (t : Token) (after : List Token), t.kind = .punct '!' → follow (t :: after))
    (follow' : List Token → Prop) :
    Reads env inner delimited .power follow'
      (fun o chained => chained = none ∧ ∃ a c, R a c ∧
        o = { expression := .function "Factorial" [a.expression] })
      (P * Token.one (.punct '!')) := by
  have hoperators : env.dictionary.operators "!" = [.ofPostfix "Factorial" "!" .trailing] := by
    rw [henv.dictionary]
    rfl
  rw [← mul_one (Token.one (.punct '!'))]
  refine h.operator_of_le (by decide) rfl hoperators hp (by decide)
    (fun t us after _ ht _ => hfollow t (us ++ after) ht) ?_
  rintro _ rfl after s a c - - - ha
  exact ⟨_, ⟨rfl, a, c, ha, rfl⟩, .pure _ _⟩

theorem Piece.power (h : Piece D p follow f P) (hp : .power ≤ p)
    (hfollow : ∀ (t : Token) (after : List Token), t.kind = .punct '^' → follow (t :: after))
    {k : Nat} (hk : k < tenPow 15) (follow' : List Token → Prop) :
    Piece D .power follow' (fun σ => f σ ^ k) (P * exponentTokens k) := by
  have hexponent : Piece D .atomic EndsSum (fun _ => (k : ℚ)) (numeralTokens k) := by
    have hnumeral : Piece D .atomic (EndsNumeral false none) _ (scaledTokens k none) :=
      .numeral hk nofun
    refine hnumeral.mono (Nat.le_refl _) (fun _ h => h.endsNumeral) fun σ _ => ?_
    rw [Option.getD_none, pow_zero, mul_one]
  refine (Eventually.and h hexponent.below).mono fun levels hlevels env henv => ?_
  obtain ⟨hbase, below, rfl, hexponent⟩ := hlevels
  refine (Reads.power henv rfl (hbase env henv) hp hfollow (hexponent env henv) follow').mono
    (Nat.le_refl _) (fun _ h => h) ?_
  rintro _ _ ⟨rfl, a, _, b, _, ha, hb, rfl⟩
  refine .of_value (fun σ hσ => ?_) rfl
  rw [Expression.value?_function, Expression.values?, Expression.values?, Expression.values?,
    ha.value σ hσ, hb.value σ hσ]
  simp

end Parser

end TexFormula
