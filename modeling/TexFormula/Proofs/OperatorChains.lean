import TexFormula.Proofs.ArgumentLists

/-!
# Chains of one operator

Letters with the same operator between any two of them are read as one node if the operator is
variadic, and else nested to the side to which it associates. What decides is how tightly an operator
must bind in the right operand. If more tightly than the one in front of it, the loop takes one operand
after the other (`runs_chain_of_lt`). If not, the right operand is the rest of the chain
(`runs_chain_of_le`). No precedence is tighter than the tightest one, so that operators of it are always
in the second case (`rightPrecedence_le_iff`).
-/

open TexFormula.Parser

namespace TexFormula

open Dictionary (standardEntries)

/-! ### The trees -/

namespace Expression

/-- Operands nested to the left. -/
def leftNested (name : String) (first : Expression) (others : List Expression) : Expression :=
  others.foldl (fun lhs rhs => .function name [lhs, rhs]) first

/-- Operands nested to the right. -/
def rightNested (name : String) : (first : Expression) → (others : List Expression) → Expression
  | first, [] => first
  | first, second :: others => .function name [first, rightNested name second others]

theorem isMissing_leftNested (name : String) {first : Expression} (h : first.isMissing = false)
    (others : List Expression) : (leftNested name first others).isMissing = false := by
  induction others generalizing first with
  | nil => exact h
  | cons e others ih => exact ih rfl

theorem isMissing_rightNested (name : String) {first : Expression} (h : first.isMissing = false)
    (others : List Expression) : (rightNested name first others).isMissing = false := by
  cases others with
  | nil => exact h
  | cons => rfl

end Expression

/-- The tree of operands with the operator between any two of them. -/
def Notation.tree (n : Notation) (first : Expression) (others : List Expression) : Expression :=
  match n.associativity, n.isVariadic with
  | .right, _ => .rightNested n.name first others
  | _, true => .function n.name (first :: others)
  | _, false => .leftNested n.name first others

theorem Notation.isMissing_tree (n : Notation) {first : Expression} (h : first.isMissing = false)
    (others : List Expression) : (n.tree first others).isMissing = false := by
  unfold tree
  split
  · exact Expression.isMissing_rightNested n.name h others
  · rfl
  · exact Expression.isMissing_leftNested n.name h others

/-- The symbols of letters. -/
def symbols (cs : List Char) : List Expression :=
  cs.map fun c => .symbol (String.singleton c)

/-- The letter is a symbol that cannot be applied. -/
def IsPlainLetter (c : Char) : Prop :=
  Text.isLetter c = true ∧ c ∉ ['f', 'g', 'h']

/-! ### The operator -/

/-- An infix operator without a hook that reads, at tokens of one kind. They are punctuation or commands
that the standard dictionary does not know, and neither end every expression nor only set space. -/
structure Notation.IsOperatorAt (n : Notation) (kind : Token.Kind) : Prop where
  infixOp : n.isInfix = true
  reader : n.reader = none
  aliasOf : n.aliasOf = none
  serializeOnly : n.serializeOnly = false
  trigger : n.trigger = kind.trigger?
  mark : (∃ c, Text.isLetter c = false ∧ kind = .punct c) ∨ ∃ name, kind = .command name
  fresh : ∀ m ∈ standardEntries, m.trigger ≠ n.trigger
  goes_on : State.endsExpression kind = false
  visible : ∀ name, kind = .command name → name ∉ State.spacing

namespace Notation.IsOperatorAt

variable {n : Notation} {kind : Token.Kind}

theorem isFreshInfix (hn : n.IsOperatorAt kind) : n.IsFreshInfix where
  infixOp := hn.infixOp
  reader := hn.reader
  aliasOf := hn.aliasOf
  serializeOnly := hn.serializeOnly
  fresh := hn.fresh
  ne_letter c hc htrigger := by
    rw [hn.trigger] at htrigger
    rcases hn.mark with ⟨d, hd, rfl⟩ | ⟨name, rfl⟩
    · rw [eq_of_trigger?_eq htrigger, hc] at hd
      cases hd
    · have hlist := congrArg String.toList (Option.some.inj htrigger)
      rw [String.toList_append, String.toList_singleton] at hlist
      rw [← (List.cons.inj hlist).1] at hc
      exact absurd hc (by decide)

theorem exists_operators (hn : n.IsOperatorAt kind) : ∃ trigger, kind.trigger? = some trigger ∧
    Dictionary.operators ⟨standardEntries ++ [n], []⟩ trigger = [n] := by
  have hsome : ∃ trigger, kind.trigger? = some trigger := by
    rcases hn.mark with ⟨c, -, rfl⟩ | ⟨name, rfl⟩ <;> exact ⟨_, rfl⟩
  obtain ⟨trigger, htrigger⟩ := hsome
  exact ⟨trigger, htrigger, hn.isFreshInfix.operators_trigger (hn.trigger.trans htrigger)⟩

/-- Where no delimiter is waited for an expression goes on with the operator. -/
theorem meets (hn : n.IsOperatorAt kind) {env : Env} {s : State} {t : Token} {rest : List Token}
    (hs : s.rest = t :: rest) (ht : t.kind = kind) (hclosers : s.closers = []) : Meets env s t rest where
  rest := hs
  visible := by
    unfold State.isSpacing
    split
    · next name hname =>
      exact Bool.eq_false_of_not_eq_true fun hmem =>
        hn.visible name (ht.symm.trans hname) (List.contains_iff_mem.mp hmem)
    · rfl
  goes_on := by
    rw [State.atTerminator, State.current_of_rest hs, ht, hclosers, hn.goes_on]
    rfl

end Notation.IsOperatorAt

/-! ### How tightly the right operand binds -/

theorem lt_rightPrecedence {n : Notation} (hn : n.associativity ≠ .right)
    (htight : n.precedence < .atomic) : n.precedence < rightPrecedence n := by
  have hrank := Precedence.rank_tighter htight
  show n.precedence.rank < (rightPrecedence n).rank
  unfold rightPrecedence
  split
  · next hright => exact absurd hright hn
  · rw [hrank]
    exact Nat.lt_succ_self _

theorem Precedence.lt_atomic_or_eq (p : Precedence) : p < .atomic ∨ p = .atomic := by
  obtain ⟨rank, hrank⟩ := p
  rcases Nat.lt_or_eq_of_le hrank with hlt | rfl
  · exact .inl hlt
  · exact .inr rfl

/-- The right operand takes the operator again if it associates to the right, and at the tightest
precedence. -/
theorem rightPrecedence_le_iff {n : Notation} :
    rightPrecedence n ≤ n.precedence ↔ n.associativity = .right ∨ n.precedence = .atomic := by
  constructor
  · intro hle
    rcases n.precedence.lt_atomic_or_eq with htight | hatomic
    · exact .inl (by_contra fun hright => Nat.not_le_of_lt (lt_rightPrecedence hright htight) hle)
    · exact .inr hatomic
  · rintro (hright | hatomic)
    · rw [rightPrecedence, hright]
      exact Nat.le_refl _
    · rw [hatomic]
      exact Precedence.le_atomic _

/-! ### Reading -/

namespace Parser

variable {env : Env} {inner outer : Inner} {s : State} {p : Precedence} {o : Operand}
  {chained : Option String} {n : Notation} {kind : Token.Kind} {kinds : List Token.Kind} {c first : Char}
  {others : List Char}

/-- The kinds of the tokens of an operator and a letter, several times. -/
def operationKinds (kind : Token.Kind) (others : List Char) : List Token.Kind :=
  others.flatMap fun c => [kind, .letter c]

/-- The operand that a chain has come to when others stand behind the operator. -/
def grown (n : Notation) : (lhs : Expression) → (chained : Option String) → (others : List Expression) →
    Expression
  | lhs, _, [] => lhs
  | lhs, chained, e :: others =>
    grown n (extend n.name (n.isVariadic && chained == some n.name) lhs e) (chainName? n) others

theorem grown_eq_leftNested (hn : n.isVariadic = false) (lhs : Expression) (chained : Option String)
    (others : List Expression) : grown n lhs chained others = .leftNested n.name lhs others := by
  induction others generalizing lhs chained with
  | nil => rfl
  | cons e others ih =>
    rw [grown, ih, hn, Bool.false_and]
    rfl

theorem grown_eq_function (hn : n.isVariadic = true) (done others : List Expression) :
    grown n (.function n.name done) (chainName? n) others = .function n.name (done ++ others) := by
  induction others generalizing done with
  | nil => rw [grown, List.append_nil]
  | cons e others ih =>
    have hname : (n.isVariadic && chainName? n == some n.name) = true := by
      rw [chainName?, hn, if_pos rfl, beq_self_eq_true]
      rfl
    rw [grown, hname]
    show grown n (.function n.name (done ++ [e])) (chainName? n) others = _
    rw [ih, List.append_assoc]
    rfl

/-- The tree that the loop makes of the chain. -/
theorem grown_eq_tree (hn : n.associativity ≠ .right) (lhs : Expression) {others : List Expression}
    (hothers : others ≠ []) : grown n lhs none others = n.tree lhs others := by
  unfold Notation.tree
  cases hvariadic : n.isVariadic with
  | false =>
    rw [grown_eq_leftNested hvariadic]
    cases hassociativity : n.associativity with
    | right => exact absurd hassociativity hn
    | _ => rfl
  | true =>
    obtain ⟨e, more, rfl⟩ := List.exists_cons_of_ne_nil hothers
    have hfirst : (n.isVariadic && none == some n.name) = false := by
      rw [hvariadic]
      rfl
    rw [grown, hfirst]
    show grown n (.function n.name [lhs, e]) (chainName? n) more = _
    rw [grown_eq_function hvariadic]
    cases hassociativity : n.associativity with
    | right => exact absurd hassociativity hn
    | _ => rfl

/-- The first token, when the kinds of the tokens are known. -/
theorem State.exists_next (h : s.rest.map Token.kind = kind :: kinds) :
    ∃ t rest, s.rest = t :: rest ∧ t.kind = kind ∧ (s.forward 1).rest = rest ∧
      rest.map Token.kind = kinds := by
  obtain ⟨t, rest, hrest, ht, hkinds⟩ := List.map_eq_cons_iff.mp h
  refine ⟨t, rest, hrest, ht, ?_, hkinds⟩
  rw [State.rest_forward, hrest]
  rfl

theorem State.forward_end (h : s.rest.map Token.kind = kind :: kinds) :
    (s.forward 1).forward (s.forward 1).rest.length = s.forward s.rest.length := by
  obtain ⟨t, rest, hrest, -, hthere, -⟩ := State.exists_next h
  rw [hthere, State.forward_forward, hrest, List.length_cons, Nat.add_comm]

section

variable (hn : n.IsOperatorAt kind) (henv : env.IsExtendedBy n)

include hn henv

theorem runs_operand_plainLetter (hc : IsPlainLetter c)
    (hs : s.rest.map Token.kind = .letter c :: kinds) (hclosers : s.closers = []) :
    Runs (operand env inner) s (some { expression := .symbol (String.singleton c) })
      (s.forward 1) := by
  obtain ⟨t, rest, hrest, ht, -⟩ := State.exists_next hs
  have hdelimited : s.Delimited := by
    rw [State.Delimited, hclosers]
    nofun
  have hoperand : Runs (operand env inner) s _ (s.forward 1) :=
    runs_operand_letter hn.isFreshInfix henv hc.1 hrest ht hdelimited
  rwa [Operand.ofName_of_notMem hc.1 hc.2] at hoperand

/-- A letter alone, where the operator is too loose to be taken. -/
theorem runs_plainLetter (hc : IsPlainLetter c)
    (hs : s.rest.map Token.kind = .letter c :: operationKinds kind others) (hclosers : s.closers = [])
    (hloose : n.precedence < p) :
    Runs (expressionAt env inner p) s (.symbol (String.singleton c)) (s.forward 1) := by
  obtain ⟨t, rest, -, -, hthere, hrest⟩ := State.exists_next hs
  refine leadsTo_of_operand (runs_operand_plainLetter hn henv hc hs hclosers) _ _ fun fuel _ => ?_
  cases others with
  | nil =>
    rw [List.map_eq_nil_iff.mp hrest] at hthere
    exact stops_of_nil hthere fuel _ none
  | cons d others =>
    obtain ⟨op, more, rfl, hop, -⟩ := List.map_eq_cons_iff.mp hrest
    obtain ⟨trigger, htrigger, hoperators⟩ := hn.exists_operators
    rw [← henv.dictionary] at hoperators
    rw [← hop] at htrigger
    exact (hn.meets hthere hop ((State.closers_forward s 1).trans hclosers)).runs_chain_of_loose
      (fun hcall => absurd hcall Bool.false_ne_true) htrigger hoperators (Nat.not_le_of_lt hloose) fuel

/-- One operator and its right operand. -/
theorem leadsTo_of_operation {e : Expression} {s₁ : State} (hs : s.rest.map Token.kind = kind :: kinds)
    (hclosers : s.closers = []) (hcall : o.callable = false) (htight : p ≤ n.precedence)
    (hright : Runs (outer.expression (rightPrecedence n)) (s.forward 1) e s₁)
    (he : e.isMissing = false) (hle : s₁.rest.length ≤ (s.forward 1).rest.length) {fuel : Nat}
    (hfuel : s.rest.length ≤ fuel) :
    LeadsTo env outer p (chain env outer p fuel o chained) s
      ⟨extend n.name (n.isVariadic && chained == some n.name) o.expression e, false⟩ (chainName? n)
      s₁ := by
  obtain ⟨op, rest, hrest, hop, hthere, -⟩ := State.exists_next hs
  obtain ⟨trigger, htrigger, hoperators⟩ := hn.exists_operators
  rw [← henv.dictionary] at hoperators
  rw [← hop] at htrigger
  rw [hthere] at hle
  have hnot : o.callable = true → op.kind ≠ .punct '(' := by
    rw [hcall]
    nofun
  exact (hn.meets hrest hop hclosers).leadsTo_of_infixOp hnot htrigger hoperators hn.reader
    hn.isFreshInfix.kind_eq htight hright he hle hfuel

/-- The loop takes one operand after the other if the right operand cannot take the operator. By
induction on the operands. -/
theorem runs_chain_of_lt (hlt : n.precedence < rightPrecedence n)
    (houter : ∀ p, outer.expression p = expressionAt env inner p)
    (hothers : ∀ c ∈ others, IsPlainLetter c)
    (hs : s.rest.map Token.kind = operationKinds kind others) (hclosers : s.closers = [])
    (hcall : o.callable = false) (htight : p ≤ n.precedence) {fuel : Nat}
    (hfuel : s.rest.length ≤ fuel) :
    Runs (chain env outer p fuel o chained) s (grown n o.expression chained (symbols others))
      (s.forward s.rest.length) := by
  induction others generalizing s o chained fuel with
  | nil =>
    have hnil : s.rest = [] := List.map_eq_nil_iff.mp hs
    rw [hnil]
    exact stops_of_nil hnil fuel o chained
  | cons c others ih =>
    obtain ⟨hc, hothers⟩ := List.forall_mem_cons.mp hothers
    obtain ⟨op, rest, hrest, hop, rfl, hbehind⟩ := State.exists_next hs
    obtain ⟨t, more, hmore, ht, rfl, hafter⟩ := State.exists_next hbehind
    have hclosers₁ : (s.forward 1).closers = [] := (State.closers_forward s 1).trans hclosers
    have hright : Runs (outer.expression (rightPrecedence n)) (s.forward 1)
        (.symbol (String.singleton c)) ((s.forward 1).forward 1) := by
      rw [houter]
      exact runs_plainLetter hn henv hc hbehind hclosers₁ hlt
    refine leadsTo_of_operation hn henv hs hclosers hcall htight hright rfl
      (by rw [hmore]; exact Nat.le_succ _) hfuel _ _ fun fuel hfuel => ?_
    rw [← State.forward_end hs, ← State.forward_end hbehind]
    exact ih hothers hafter ((State.closers_forward _ 1).trans hclosers₁) rfl hfuel

/-- The right operand is the rest of the chain if it can take the operator. By induction on the operands,
one level further down for each. -/
theorem runs_chain_of_le (hle : rightPrecedence n ≤ n.precedence) {levels : Nat}
    (hlevels : others.length ≤ levels) (hothers : ∀ c ∈ others, IsPlainLetter c)
    (hs : s.rest.map Token.kind = operationKinds kind others) (hclosers : s.closers = [])
    (hcall : o.callable = false) (htight : p ≤ n.precedence) {fuel : Nat}
    (hfuel : s.rest.length ≤ fuel) :
    Runs (chain env (nested env levels) p fuel o none) s
      (.rightNested n.name o.expression (symbols others)) (s.forward s.rest.length) := by
  induction others generalizing s o p levels fuel with
  | nil =>
    have hnil : s.rest = [] := List.map_eq_nil_iff.mp hs
    rw [hnil]
    exact stops_of_nil hnil fuel o none
  | cons c others ih =>
    obtain ⟨levels, rfl⟩ := Nat.exists_eq_add_of_le' (Nat.le_of_add_left_le hlevels)
    obtain ⟨hc, hothers⟩ := List.forall_mem_cons.mp hothers
    obtain ⟨op, rest, hrest, hop, rfl, hbehind⟩ := State.exists_next hs
    obtain ⟨t, more, hmore, ht, rfl, hafter⟩ := State.exists_next hbehind
    have hclosers₁ : (s.forward 1).closers = [] := (State.closers_forward s 1).trans hclosers
    have hright : Runs ((nested env (levels + 1)).expression (rightPrecedence n)) (s.forward 1)
        (.rightNested n.name (.symbol (String.singleton c)) (symbols others))
        (s.forward s.rest.length) := by
      rw [← State.forward_end hs, ← State.forward_end hbehind]
      exact leadsTo_of_operand (runs_operand_plainLetter hn henv hc hbehind hclosers₁) _ _
        fun fuel hfuel => ih (Nat.le_of_succ_le_succ hlevels) hothers hafter
          ((State.closers_forward _ 1).trans hclosers₁) rfl hle hfuel
    have hend : (s.forward s.rest.length).rest = [] := by
      rw [State.rest_forward, List.drop_length]
    have hleads : LeadsTo env (nested env (levels + 1)) p (chain _ _ p fuel o none) s _ _ _ :=
      leadsTo_of_operation hn henv hs hclosers hcall htight hright
        (Expression.isMissing_rightNested n.name rfl _) (by rw [hend]; exact Nat.zero_le _) hfuel
    rw [show (none == some n.name) = false from rfl, Bool.and_false] at hleads
    exact hleads.runs (stops_of_nil hend)

/-- A chain is read as the tree to which its operator associates. -/
theorem runs_tree (hletters : ∀ c ∈ first :: others, IsPlainLetter c) (hothers : others ≠ [])
    (hs : s.rest.map Token.kind = .letter first :: operationKinds kind others)
    (hclosers : s.closers = []) {levels : Nat}
    (hright : n.associativity = .right → others.length ≤ levels + 1)
    (hleft : n.associativity ≠ .right → n.precedence < .atomic) :
    Runs (expressionAt env (nested env (levels + 1)) .loosest) s
      (n.tree (.symbol (String.singleton first)) (symbols others)) (s.forward s.rest.length) := by
  obtain ⟨hfirst, hletters⟩ := List.forall_mem_cons.mp hletters
  obtain ⟨-, -, -, -, rfl, hbehind⟩ := State.exists_next hs
  have hclosers₁ : (s.forward 1).closers = [] := (State.closers_forward s 1).trans hclosers
  have hloosest : Precedence.loosest ≤ n.precedence := Nat.zero_le _
  rw [← State.forward_end hs]
  refine leadsTo_of_operand (runs_operand_plainLetter hn henv hfirst hs hclosers) _ _
    fun fuel hfuel => ?_
  by_cases hside : n.associativity = .right
  · have hle := rightPrecedence_le_iff.mpr (.inl hside)
    rw [Notation.tree, hside]
    exact runs_chain_of_le hn henv hle (hright hside) hletters hbehind hclosers₁ rfl hloosest hfuel
  · have hlt := lt_rightPrecedence hside (hleft hside)
    have hsymbols : symbols others ≠ [] := fun h => hothers (List.map_eq_nil_iff.mp h)
    rw [← grown_eq_tree hside _ hsymbols]
    exact runs_chain_of_lt hn henv hlt (fun _ => rfl) hletters hbehind hclosers₁ rfl hloosest hfuel

end

end Parser

/-! ### Texts -/

/-- Letters joined by a trigger. -/
def joinedLetters (trigger : String) (first : Char) (others : List Char) : String :=
  others.foldl (fun text c => Text.join (Text.join text trigger) (String.singleton c))
    (String.singleton first)

/-- Tokens of the kinds. -/
def Token.ofKinds (kinds : List Token.Kind) : Language Token :=
  {ts | ts.map Token.kind = kinds}

/-- One token more. -/
theorem Spells.join_ofKinds {text right : String} {kind : Token.Kind} {kinds : List Token.Kind}
    (htext : Spells text.toList (Token.ofKinds kinds)) (hright : Spells right.toList (Token.one kind))
    {c : Char} {cs : List Char} (hcons : right.toList = c :: cs) (hc : c.isDigit = false) :
    Spells (Text.join text right).toList (Token.ofKinds (kinds ++ [kind])) := by
  have hjoin := htext.join hright (by simp [hcons]) fun hdigit => by
    rw [hcons, List.head?_cons, Option.any_some, hc] at hdigit
    cases hdigit
  refine hjoin.mono fun ts hts => ?_
  obtain ⟨us, hus, _, ⟨t, rfl, ht⟩, rfl⟩ := Language.mem_mul.mp hts
  have hkinds : us.map Token.kind = kinds := hus
  show List.map Token.kind (us ++ [t]) = kinds ++ [kind]
  rw [List.map_append, hkinds, List.map_singleton, ht]

/-- More letters behind a text. By induction on them. -/
theorem spells_foldl_join {trigger text : String} {kind : Token.Kind} {kinds : List Token.Kind}
    {others : List Char} (hmark : Lexeme.Mark trigger.toList kind)
    (hothers : ∀ c ∈ others, Text.isLetter c = true) (htext : Spells text.toList (Token.ofKinds kinds)) :
    Spells
      (others.foldl (fun text c => Text.join (Text.join text trigger) (String.singleton c)) text).toList
      (Token.ofKinds (kinds ++ operationKinds kind others)) := by
  induction others generalizing text kinds with
  | nil =>
    rw [operationKinds, List.flatMap_nil, List.append_nil]
    exact htext
  | cons c others ih =>
    obtain ⟨hc, hothers⟩ := List.forall_mem_cons.mp hothers
    obtain ⟨d, ds, htrigger, -, hdigit⟩ := hmark.opens
    have hletter : Spells (String.singleton c).toList (Token.one (.letter c)) := by
      rw [String.toList_singleton]
      exact .letter hc
    have hjoin := (htext.join_ofKinds hmark.spells htrigger hdigit).join_ofKinds hletter
      (String.toList_singleton c) (Text.isDigit_of_isLetter hc)
    have hmore := ih hothers hjoin
    rw [List.append_assoc, List.append_assoc] at hmore
    exact hmore

/-- Joined letters have the tokens of a chain. -/
theorem map_kind_meaningful_joinedLetters {trigger : String} {kind : Token.Kind} {first : Char}
    {others : List Char} (hmark : Lexeme.Mark trigger.toList kind)
    (hletters : ∀ c ∈ first :: others, Text.isLetter c = true) :
    (Token.meaningful (joinedLetters trigger first others)).map Token.kind =
      .letter first :: operationKinds kind others := by
  obtain ⟨hfirst, hothers⟩ := List.forall_mem_cons.mp hletters
  have hsingle : Spells (String.singleton first).toList (Token.ofKinds [.letter first]) := by
    rw [String.toList_singleton]
    refine (Spells.letter hfirst).mono ?_
    rintro _ ⟨t, rfl, ht⟩
    exact congrArg (fun kind => [kind]) ht
  exact (spells_foldl_join hmark hothers hsingle).laid_mem

/-- Letters with an operator between any two of them are parsed as the tree to which the operator
associates. If that is nested to the right, the limit has to allow a level for each letter. -/
theorem parse_operatorChain {n : Notation} {kind : Token.Kind} {d : Dictionary} {options : ParseOptions}
    {source : String} {first : Char} {others : List Char} (hn : n.IsOperatorAt kind)
    (hd : Dictionary.standard.withOverrides [n] = .ok d) (hunknown : options.unknownTokens = .standard)
    (hletters : ∀ c ∈ first :: others, IsPlainLetter c) (hothers : others ≠ [])
    (hsource : (Token.meaningful source).map Token.kind = .letter first :: operationKinds kind others)
    (hdepth : 2 ≤ options.maxDepth)
    (hright : n.associativity = .right → others.length + 1 ≤ options.maxDepth)
    (hleft : n.associativity ≠ .right → n.precedence < .atomic) :
    parse d options source =
      .ok ⟨n.tree (.symbol (String.singleton first)) (symbols others), []⟩ := by
  obtain rfl := Dictionary.eq_of_withOverrides_eq_ok hn.isFreshInfix.aliasOf hd
  obtain ⟨levels, hlevels⟩ := Nat.exists_eq_add_of_le' hdepth
  have henv : Env.IsExtendedBy ⟨source, ⟨standardEntries ++ [n], []⟩, options⟩ n := ⟨rfl, hunknown⟩
  rw [hlevels] at hright
  exact parse_eq_of_runs hlevels (n.isMissing_tree rfl _)
    (runs_tree hn henv hletters hothers hsource rfl
      (fun hside => Nat.le_of_succ_le_succ (hright hside)) hleft)

/-- An operator at some trigger. -/
def Notation.operation (trigger : String) (precedence : Precedence) : Notation :=
  ofInfix "Op" trigger precedence

/-- The tightest operator to the right, and one that takes any number of operands. -/
theorem parse_operatorChain_op :
    (∃ d, (Notation.operation "\\op" .atomic).rightAssociative.IsOperatorAt (.command "op") ∧
      Dictionary.standard.withOverrides [(Notation.operation "\\op" .atomic).rightAssociative] = .ok d ∧
      parse d {} (joinedLetters "\\op" 'a' ['b', 'c']) =
        .ok ⟨.function "Op" [.symbol "a", .function "Op" [.symbol "b", .symbol "c"]], []⟩) ∧
    ∃ d, (Notation.operation "\\op" .addition).variadic.IsOperatorAt (.command "op") ∧
      Dictionary.standard.withOverrides [(Notation.operation "\\op" .addition).variadic] = .ok d ∧
      parse d {} (joinedLetters "\\op" 'a' ['b', 'c']) =
        .ok ⟨.function "Op" [.symbol "a", .symbol "b", .symbol "c"], []⟩ := by
  have hfresh : ∀ m ∈ standardEntries, m.trigger ≠ some "\\op" := by decide +kernel
  have hvisible : ∀ name, Token.Kind.command "op" = .command name → name ∉ State.spacing := by
    rintro _ ⟨⟩
    decide
  have hletters : ∀ c ∈ ['a', 'b', 'c'], IsPlainLetter c := by
    have hplain : IsPlainLetter 'a' ∧ IsPlainLetter 'b' ∧ IsPlainLetter 'c' := by
      unfold IsPlainLetter
      decide
    simpa using hplain
  have hmark : Lexeme.Mark "\\op".toList (.command "op") :=
    .of_tokens (by decide +kernel) (.inr ⟨"op", rfl⟩)
  have hsource : (Token.meaningful (joinedLetters "\\op" 'a' ['b', 'c'])).map Token.kind =
      .letter 'a' :: operationKinds (.command "op") ['b', 'c'] :=
    map_kind_meaningful_joinedLetters hmark fun c hc => (hletters c hc).1
  have hright : (Notation.operation "\\op" .atomic).rightAssociative.IsOperatorAt (.command "op") :=
    ⟨rfl, rfl, rfl, rfl, rfl, .inr ⟨"op", rfl⟩, hfresh, rfl, hvisible⟩
  have hvariadic : (Notation.operation "\\op" .addition).variadic.IsOperatorAt (.command "op") :=
    ⟨rfl, rfl, rfl, rfl, rfl, .inr ⟨"op", rfl⟩, hfresh, rfl, hvisible⟩
  constructor
  · exact ⟨_, hright, rfl, parse_operatorChain hright rfl rfl hletters (by decide) hsource (by decide)
      (fun _ => by decide) (fun h => absurd rfl h)⟩
  · exact ⟨_, hvariadic, rfl, parse_operatorChain hvariadic rfl rfl hletters (by decide) hsource
      (by decide) nofun (fun _ => by decide)⟩

/-- What is read with one notation more. -/
def Notation.reading (n : Notation) (options : ParseOptions) (source : String) : Option String := do
  let d ← (Dictionary.standard.withOverrides [n]).toOption
  let parsed ← (parse d options source).toOption
  return (MathJson.encode parsed.expression).compact

/-- A token that ends every expression is no operator, and one that sets space is not seen. A notation
for writing alone is not read, and one that stands for another is read as that. At the tightest
precedence the tree is nested to the right, and such a tree needs a level for each letter. -/
theorem not_parse_operatorChain :
    (∀ trigger ∈ ["@", "&", "\\quad"], ∀ m ∈ standardEntries, m.trigger ≠ some trigger) ∧
      (Notation.operation "&" .addition).reading {} (joinedLetters "&" 'a' ['b', 'c']) =
        some ("[\"Sequence\",\"a\",[\"Error\",[\"LatexString\",\"'&'\"],\"'unexpected-token'\"]," ++
          "\"b\",[\"Error\",[\"LatexString\",\"'&'\"],\"'unexpected-token'\"],\"c\"]") ∧
      (Notation.operation "\\quad" .addition).reading {} (joinedLetters "\\quad" 'a' ['b', 'c']) =
        some "[\"Multiply\",\"a\",\"b\",\"c\"]" ∧
      (Notation.operation "@" .addition).onlySerialized.reading {} (joinedLetters "@" 'a' ['b', 'c']) =
        some ("[\"Multiply\",\"a\",[\"Error\",[\"LatexString\",\"'@'\"],\"'unexpected-token'\"]," ++
          "\"b\",[\"Error\",[\"LatexString\",\"'@'\"],\"'unexpected-token'\"],\"c\"]") ∧
      ({ Notation.operation "@" .addition with aliasOf := some "Add" } : Notation).reading {}
        (joinedLetters "@" 'a' ['b', 'c']) = some "[\"Add\",\"a\",\"b\",\"c\"]" ∧
      (Notation.operation "@" .atomic).reading {} (joinedLetters "@" 'a' ['b', 'c']) =
        some "[\"Op\",\"a\",[\"Op\",\"b\",\"c\"]]" ∧
      (Notation.operation "@" .addition).rightAssociative.reading { maxDepth := 2 }
        (joinedLetters "@" 'a' ['b', 'c']) = none := by
  refine ⟨?_, ?_, ?_, ?_, ?_, ?_, ?_⟩ <;> decide +kernel

end TexFormula
