import TexFormula.Proofs.Arithmetic.Units

/-!
# Operands side by side

Two operands with nothing between them are multiplied, unless the first one can be applied and a
parenthesis follows it. `Precedes done applicable P` holds of the tokens of factors that have been
read, whatever is put behind them as one more factor; it grows by one factor at a time.
-/

open TexFormula.Parser

namespace TexFormula

/-- A symbol that can be applied, or an application. A sum in parentheses is none of them. -/
def Expression.isApplicable : Expression → Bool
  | .symbol name => UnknownTokenPolicy.standard.disposition name == .function
  | .apply head _ => head.symbol? != some "Add"
  | _ => false

/-- The expression is written in parentheses as a factor, as sums are. -/
def Expression.isSum (e : Expression) : Bool :=
  e.headName? == some "Add"

/-- An application to several operands; a single one is left as it is. -/
def Expression.collect (name : String) : List Expression → Expression
  | [e] => e
  | es => .function name es

namespace Parser

variable {env : Env} {inner outer : Inner} {ctx : Context} {s s₁ : State} {t : Token}
  {rest after : List Token} {loosest p : Precedence} {o : Operand} {chained : Option String}
  {e : Expression} {done es : List Expression} {P Q : Language Token}

/-- The tokens to be read are those of the source, up to its end. -/
def located (env : Env) : Context where
  holds s := s.Delimited ∧ s.rest <:+ Token.meaningful env.source
  delimited h := h.1
  forward n h := by
    refine ⟨h.1.forward n, ?_⟩
    rw [State.rest_forward]
    exact (List.drop_suffix n _).trans h.2
  await hclose h := ⟨.await hclose _, h.2⟩

theorem located_ofSource (env : Env) : (located env).holds (.ofSource env.source) :=
  ⟨nofun, List.suffix_rfl⟩

/-! ### What starts a factor -/

/-- The commands that start a factor: a unit, a name in braces or an open place. -/
def factorCommands : List String :=
  ["operatorname", "placeholder"] ++ unitCommands

/-- The kinds of token that start a factor, and are no operator. -/
def BeginsFactor (kind : Token.Kind) : Prop :=
  (∃ c, Text.isLetter c = true ∧ kind = .letter c) ∨ kind = .punct '(' ∨
    ∃ name ∈ factorCommands, kind = .command name

theorem BeginsFactor.command {name : String} (h : name ∈ factorCommands) :
    BeginsFactor (.command name) :=
  .inr (.inr ⟨name, h, rfl⟩)

theorem BeginsFactor.continues {kind : Token.Kind} (h : BeginsFactor kind) : Continues kind := by
  rcases h with ⟨c, hc, rfl⟩ | rfl | ⟨name, hname, rfl⟩
  · exact .letter hc
  · exact ⟨nofun, rfl, by rintro closer (rfl | rfl) <;> decide⟩
  · have hfree : ∀ name ∈ factorCommands, Free (.command name) := by decide +kernel
    exact (hfree name hname).continues

theorem BeginsFactor.exists_trigger {kind : Token.Kind} (h : BeginsFactor kind) :
    ∃ trigger, kind.trigger? = some trigger ∧ Dictionary.standard.hasOperator trigger = false := by
  rcases h with ⟨c, hc, rfl⟩ | rfl | ⟨name, hname, rfl⟩
  · exact ⟨String.singleton c, rfl, Dictionary.hasOperator_standard_letter hc⟩
  · exact ⟨"(", rfl, rfl⟩
  · have hall : ∀ name ∈ factorCommands, Dictionary.standard.hasOperator ("\\" ++ name) = false := by
      decide +kernel
    exact ⟨"\\" ++ name, rfl, hall name hname⟩

theorem BeginsFactor.ne_bracket {kind : Token.Kind} (h : BeginsFactor kind) :
    kind ≠ .groupOpen ∧ kind ≠ .optionalOpen := by
  rcases h with ⟨c, -, rfl⟩ | rfl | ⟨name, -, rfl⟩ <;> simp

/-- No group follows that an open place would take. -/
def Ungrouped (after : List Token) : Prop :=
  ∀ t ∈ after.head?, State.isSpacing t = false ∧ t.kind ≠ .groupOpen ∧ t.kind ≠ .optionalOpen

/-- Another factor or the end follows, and no parenthesis if that would be one of arguments. -/
def Apart (applicable : Bool) (after : List Token) : Prop :=
  ∀ t ∈ after.head?, Closing t ∨ BeginsFactor t.kind ∧ (applicable = true → t.kind ≠ .punct '(')

theorem Closing.ne_bracket (h : Closing t) : t.kind ≠ .groupOpen ∧ t.kind ≠ .optionalOpen := by
  rcases h with hkind | hkind <;> simp [hkind]

theorem Apart.ungrouped {applicable : Bool} (h : Apart applicable after) : Ungrouped after := by
  intro t ht
  rcases h t ht with hclosing | ⟨hbegins, -⟩
  · exact ⟨hclosing.isSpacing, hclosing.ne_bracket⟩
  · exact ⟨hbegins.continues.isSpacing, hbegins.ne_bracket⟩

theorem Apart.of_true (h : Apart true after) (applicable : Bool) : Apart applicable after :=
  fun t ht => (h t ht).imp id fun hbegins => ⟨hbegins.1, fun _ => hbegins.2 rfl⟩

theorem EndsSum.apart (h : EndsSum after) (applicable : Bool) : Apart applicable after :=
  fun t ht => .inl (h t ht)

theorem Free.ungrouped (h : Free t.kind) (after : List Token) : Ungrouped (t :: after) := by
  intro u hu
  rw [← Option.some.inj hu]
  refine ⟨h.continues.isSpacing, ?_, ?_⟩ <;> rintro heq <;> rw [heq] at h <;> exact h

theorem EndsSum.ungrouped (h : EndsSum after) : Ungrouped after :=
  (h.apart false).ungrouped

/-! ### One more factor -/

/-- What the chain does at a token that starts one more factor. -/
theorem runs_chain_of_beginsFactor (henv : env.IsStandard) (hrest : s.rest = t :: rest)
    (ht : BeginsFactor t.kind) (hs : s.Delimited)
    (hcall : o.callable = true → t.kind ≠ .punct '(') {fuel : Nat}
    (h : Runs (if Precedence.multiplication < loosest then
        return o.expression
      else do
        let before := (← get).position
        let factor ← inner.expression Precedence.multiplication.tighter
        if (← get).position == before || factor.isMissing then
          return o.expression
        else
          let product := extend "Multiply" (chained == some "Multiply") o.expression factor
          chain env inner loosest fuel ⟨product, false⟩ (some "Multiply")) s e s₁) :
    Runs (chain env inner loosest (fuel + 1) o chained) s e s₁ := by
  obtain ⟨trigger, htrigger, hoperator⟩ := ht.exists_trigger
  have happly : (o.callable && t.isPunct '(') = false := by
    cases hcallable : o.callable with
    | false => rfl
    | true => exact beq_false_of_ne (hcall hcallable)
  unfold chain
  rw [runs_skipSpacing, takeWhile_isSpacing hrest ht.continues.isSpacing, State.forward_zero,
    runs_atTerminator, ht.continues.atTerminator hrest hs]
  simp only [Bool.false_eq_true, if_false]
  rw [runs_current, State.current_of_rest hrest, happly,
    show t.trigger? = some trigger from htrigger, henv.dictionary, Option.filter_some, hoperator]
  exact h

/-- A factor ends where another one starts. -/
theorem runs_chain_of_apart (henv : env.IsStandard) (hs : s.Delimited)
    (hapart : Apart o.callable s.rest) (hloosest : .multiplication < loosest) (fuel : Nat) :
    Runs (chain env inner loosest fuel o chained) s o.expression s := by
  cases hrest : s.rest with
  | nil => exact stops_of_nil hrest fuel o chained
  | cons t rest =>
    rcases hapart t (by rw [hrest]; rfl) with hclosing | ⟨hbegins, hcall⟩
    · exact stops_of_closing hrest hclosing fuel o chained
    · cases fuel with
      | zero => exact .pure _ _
      | succ fuel =>
        refine runs_chain_of_beginsFactor henv hrest hbegins hs hcall ?_
        rw [if_pos hloosest]
        exact .pure _ _

/-- A product goes on with what is read as one more factor. -/
theorem Reads.juxtaposed {S : Operand → Option String → Prop} {T : Expression → Prop}
    {follow follow' : List Token → Prop} (henv : env.IsStandard)
    (h : Reads env outer ctx p follow S P) (hp : .multiplication ≤ p)
    (hfactor : ∀ us ∈ Q, ∀ (after : List Token) (s : State), s.rest = us ++ after → ctx.holds s →
      follow' after → ∃ e, T e ∧ e.isMissing = false ∧
        Runs (outer.expression Precedence.multiplication.tighter) s e (s.forward us.length))
    (hbegins : ∀ us ∈ Q, ∃ t rest, us = t :: rest ∧ BeginsFactor t.kind ∧
      ∀ o chained, S o chained → o.callable = true → t.kind ≠ .punct '(')
    (hfollow : ∀ us ∈ Q, ∀ after, follow' after → follow (us ++ after)) :
    Reads env outer ctx .multiplication follow'
      (fun o chained => chained = some "Multiply" ∧ ∃ a c e, S a c ∧ T e ∧
        o = ⟨extend "Multiply" (c == some "Multiply") a.expression e, false⟩)
      (P * Q) := by
  intro ws hws after s loosest hs hctx hloosest hafter
  obtain ⟨ts, hts, us, hus, rfl⟩ := Language.mem_mul.mp hws
  obtain ⟨t, rest, rfl, ht, hcall⟩ := hbegins us hus
  rw [List.append_assoc] at hs
  obtain ⟨a, c, ha, hleads⟩ := h ts hts _ s loosest hs hctx
    (Nat.le_trans hloosest hp) (hfollow _ hus after hafter)
  have hinside : (s.forward ts.length).rest = t :: rest ++ after := by
    rw [State.rest_forward, hs, List.drop_left]
  have hthere : ctx.holds (s.forward ts.length) := ctx.forward _ hctx
  have hrest : ((s.forward ts.length).forward (t :: rest).length).rest = after := by
    rw [State.rest_forward, hinside, List.drop_left]
  obtain ⟨e, he, hpresent, hruns⟩ := hfactor _ hus after _ hinside hthere hafter
  refine ⟨_, _, ⟨rfl, a, c, e, ha, he, rfl⟩, hleads.trans fun fuel hfuel e' s₂ hchain => ?_⟩
  rw [hinside, List.length_append, List.length_cons] at hfuel
  obtain ⟨fuel, rfl⟩ : ∃ n, fuel = n + 1 := ⟨fuel - 1, by omega⟩
  have hmoved : ((s.forward ts.length).forward (t :: rest).length).position ≠
      (s.forward ts.length).position := by
    rw [State.position_forward (by rw [hinside, List.length_append]; exact Nat.le_add_right _ _)]
    simp
  refine runs_chain_of_beginsFactor henv hinside ht (ctx.delimited hthere) (hcall a c ha) ?_
  have hnot : ¬Precedence.multiplication < loosest := Nat.not_lt_of_le hloosest
  rw [if_neg hnot, runs_get]
  refine Runs.bind hruns ?_
  rw [runs_get, beq_false_of_ne hmoved, hpresent]
  rw [State.forward_forward, ← List.length_append]
  refine hchain fuel ?_
  rw [List.length_append, ← State.forward_forward, hrest]
  omega

/-! ### Products -/

/-- The operand is the chain of the operands, and grows by one more. -/
structure Collects (name : String) (es : List Expression) (o : Operand) (chained : Option String) :
    Prop where
  expression : o.expression = .collect name es
  extend (e : Expression) :
    extend name (chained == some name) o.expression e = .function name (es ++ [e])

theorem Expression.collect_append_singleton (name : String) (hne : es ≠ []) (e : Expression) :
    Expression.collect name (es ++ [e]) = .function name (es ++ [e]) := by
  obtain ⟨first, others, rfl⟩ := List.exists_cons_of_ne_nil hne
  cases others <;> rfl

/-- An operand that is no chain of the operator starts one. -/
theorem Collects.of_ne {name : String} (ho : o.expression = e) (h : chained ≠ some name) :
    Collects name [e] o chained := by
  refine ⟨ho, fun e' => ?_⟩
  rw [beq_false_of_ne h, ho]
  rfl

theorem Collects.single (name : String) (o : Operand) : Collects name [o.expression] o none :=
  .of_ne rfl nofun

theorem Collects.append {name : String} (h : Collects name es o chained) (hne : es ≠ [])
    (e : Expression) : Collects name (es ++ [e])
      ⟨Parser.extend name (chained == some name) o.expression e, false⟩ (some name) := by
  refine ⟨?_, fun e' => ?_⟩
  · rw [Expression.collect_append_singleton name hne]
    exact h.extend e
  · dsimp only
    rw [h.extend e, beq_self_eq_true]
    rfl

/-- What follows a place is the first of some items, or what is behind them if there are none. -/
theorem follow_of_mem_prod {α : Type} {tokens : α → Language Token} {follow : List Token → Prop}
    {xs : List α} (h : ∀ x ∈ xs, ∀ us ∈ tokens x, ∀ after, follow (us ++ after)) {ts : List Token}
    (hts : ts ∈ (xs.map tokens).prod) (hafter : follow after) : follow (ts ++ after) := by
  cases xs with
  | nil =>
    obtain rfl : ts = [] := hts
    exact hafter
  | cons x xs =>
    rw [List.map_cons, List.prod_cons] at hts
    obtain ⟨us, hus, vs, -, rfl⟩ := Language.mem_mul.mp hts
    rw [List.append_assoc]
    exact h x List.mem_cons_self us hus _

/-- A chain goes on with one item after the other. By induction on the items. -/
theorem Collects.exists_leadsTo {α : Type} {name : String} {item : α → Expression}
    {tokens : α → Language Token} {holds : State → Prop} {follow : List Token → Prop} {xs : List α}
    (hforward : ∀ {s : State} (n : Nat), holds s → holds (s.forward n))
    (hfollow : ∀ x ∈ xs, ∀ us ∈ tokens x, ∀ after, follow (us ++ after))
    (hstep : ∀ x ∈ xs, ∀ us ∈ tokens x, ∀ (after : List Token) (s : State) (o : Operand)
      (chained : Option String), s.rest = us ++ after → holds s → follow after →
      ∀ fuel, s.rest.length ≤ fuel → LeadsTo env outer loosest
        (chain env outer loosest fuel o chained) s
        ⟨Parser.extend name (chained == some name) o.expression (item x), false⟩ (some name)
        (s.forward us.length))
    (hdone : done ≠ []) (h : Collects name done o chained) {ts : List Token}
    (hts : ts ∈ (xs.map tokens).prod) (hs : s.rest = ts ++ after) (hholds : holds s)
    (hafter : follow after) :
    ∃ o' chained', Collects name (done ++ xs.map item) o' chained' ∧
      (xs ≠ [] ∨ chained = some name → chained' = some name) ∧
      ∀ fuel, s.rest.length ≤ fuel → LeadsTo env outer loosest
        (chain env outer loosest fuel o chained) s o' chained' (s.forward ts.length) := by
  induction xs generalizing ts s o chained done with
  | nil =>
    obtain rfl : ts = [] := hts
    exact ⟨o, chained, by simpa using h, (·.resolve_left (not_not_intro rfl)),
      fun fuel hfuel e t h => h fuel hfuel⟩
  | cons x xs ih =>
    obtain ⟨hx, hxs⟩ := List.forall_mem_cons.mp hstep
    obtain ⟨-, hfollow⟩ := List.forall_mem_cons.mp hfollow
    rw [List.map_cons, List.prod_cons] at hts
    obtain ⟨us, hus, vs, hvs, rfl⟩ := Language.mem_mul.mp hts
    rw [List.append_assoc] at hs
    have hthere : (s.forward us.length).rest = vs ++ after := by
      rw [State.rest_forward, hs, List.drop_left]
    have hnext : follow (vs ++ after) := follow_of_mem_prod hfollow hvs hafter
    have hstep := hx us hus (vs ++ after) s o chained hs hholds hnext
    obtain ⟨o', chained', ho', hchained, hleads⟩ := ih hfollow hxs (by simp)
      (h.append hdone (item x)) hvs hthere (hforward _ hholds)
    refine ⟨o', chained', by simpa using ho', fun _ => hchained (.inr rfl), fun fuel hfuel => ?_⟩
    rw [List.length_append, ← State.forward_forward]
    exact (hstep fuel hfuel).trans hleads

/-- The tokens start like a factor, with a parenthesis only if it is a sum, and are read as the
expression. -/
structure FactorTokens (e : Expression) (P : Language Token) : Prop where
  begins : ∀ ts ∈ P, ∃ t rest, ts = t :: rest ∧ BeginsFactor t.kind ∧
    (t.kind = .punct '(' → e.isSum = true)
  reads : ∀ env : Env, env.IsStandard → ∀ levels,
    Reads env (nested env (levels + 2)) (located env) .atomic Ungrouped
      (fun o chained => o = ⟨e, e.isApplicable⟩ ∧ chained = none) P

namespace FactorTokens

/-- The whole factor, where another one or the end follows. -/
theorem runs (h : FactorTokens e P) (henv : env.IsStandard) (levels : Nat) {ts : List Token}
    (hts : ts ∈ P) (hs : s.rest = ts ++ after) (hctx : (located env).holds s)
    (hafter : Apart e.isApplicable after) :
    Runs (expressionAt env (nested env (levels + 2)) Precedence.multiplication.tighter) s e
      (s.forward ts.length) := by
  obtain ⟨_, _, ⟨rfl, rfl⟩, hleads⟩ := h.reads env henv levels ts hts after s
    Precedence.multiplication.tighter hs hctx (by decide) hafter.ungrouped
  have hrest : (s.forward ts.length).rest = after := by
    rw [State.rest_forward, hs, List.drop_left]
  exact hleads _ _ fun fuel _ => runs_chain_of_apart henv (hctx.1.forward _)
    (by rwa [hrest]) (by decide) fuel

theorem apart (h : FactorTokens e P) {applicable : Bool}
    (happly : applicable = true → e.isSum = false) {ts : List Token} (hts : ts ∈ P)
    (after : List Token) : Apart applicable (ts ++ after) := by
  obtain ⟨t, rest, rfl, ht, hparenthesis⟩ := h.begins ts hts
  intro u hu
  rw [← Option.some.inj hu]
  refine .inr ⟨ht, fun happlicable hkind => ?_⟩
  rw [happly happlicable] at hparenthesis
  cases hparenthesis hkind

end FactorTokens

/-! ### Applications -/

/-- Parentheses behind what can be applied hold its arguments. -/
theorem leadsTo_of_arguments {body : Expression} (hs : s.rest = t :: rest)
    (ht : t.kind = .punct '(') (hclosers : s.Delimited) (hcall : o.callable = true)
    (h : Runs (groupBody env inner ")" (.punct ')')) (s.forward 1) body s₁)
    (hle : s₁.rest.length ≤ rest.length) {fuel : Nat} (hfuel : s.rest.length ≤ fuel) :
    LeadsTo env inner loosest (chain env inner loosest fuel o chained) s
      ⟨.apply o.expression body.sequenceItems, true⟩ none s₁ := by
  intro e s₂ hchain
  rw [hs, List.length_cons] at hfuel
  obtain ⟨fuel, rfl⟩ := Nat.exists_eq_add_of_le' (Nat.le_of_add_left_le hfuel)
  have hgoes : Continues t.kind := BeginsFactor.continues (.inr (.inl ht))
  have harguments : Runs (delimitedArguments env inner) s body.sequenceItems s₁ := by
    unfold delimitedArguments
    rw [runs_advance]
    exact h.bind (.pure _ _)
  unfold chain
  rw [runs_skipSpacing, takeWhile_isSpacing hs hgoes.isSpacing, State.forward_zero,
    runs_atTerminator, hgoes.atTerminator hs hclosers]
  simp only [Bool.false_eq_true, if_false]
  rw [runs_current, State.current_of_rest hs, hcall, Token.isPunct, ht, beq_self_eq_true]
  exact harguments.bind (hchain fuel (by omega))

/-- In parentheses, the tokens are read as the expression. -/
def BodyTokens (body : Expression) (P : Language Token) : Prop :=
  ∀ env : Env, env.IsStandard → ∀ levels, ∀ ts ∈ P, ∀ (t : Token) (after : List Token) (s : State),
    s.rest = ts ++ t :: after → t.kind = .punct ')' → (located env).holds s →
    Runs (groupBody env (nested env (levels + 2)) ")" (.punct ')')) s body
      (s.forward (ts.length + 1))

/-- A sum in parentheses. -/
theorem FactorTokens.parenthesized (h : BodyTokens e P) (hsum : e.isSum = true) :
    FactorTokens e (Token.one (.punct '(') * (P * Token.one (.punct ')'))) where
  begins := by
    intro us hus
    obtain ⟨t, ts, u, rfl, ht, -, -⟩ := mem_enclosed_iff.mp hus
    exact ⟨t, _, rfl, .inr (.inl ht), fun _ => hsum⟩
  reads env henv levels := by
    intro us hus after s loosest hs hctx hloosest hafter
    obtain ⟨opening, ts, closing, rfl, hopening, hts, hclosing⟩ := mem_enclosed_iff.mp hus
    have hs' : s.rest = opening :: (ts ++ closing :: after) := by simp [hs]
    have hinside : (s.forward 1).rest = ts ++ closing :: after := by
      rw [State.rest_forward, hs']
      rfl
    have hbody := h env henv levels ts hts closing after _ hinside hclosing
      ((located env).forward 1 hctx)
    rw [State.forward_forward] at hbody
    have hlength : (opening :: (ts ++ [closing])).length = 1 + (ts.length + 1) := by
      simp
      omega
    cases e with
    | apply head arguments =>
      have hnot : (Expression.apply head arguments).isApplicable = false := by
        rw [Expression.isApplicable, bne, show (head.symbol? == some "Add") = true from hsum]
        rfl
      rw [hlength, hnot]
      exact ⟨_, none, ⟨rfl, rfl⟩,
        leadsTo_of_operand (runs_operand_of_parenthesis hs' hopening hctx.1 rfl hbody)⟩
    | _ => cases hsum

theorem FactorTokens.apply {body : Expression} (h : FactorTokens e P)
    (hcall : e.isApplicable = true) (hname : e.symbol? ≠ some "Add") (hbody : BodyTokens body Q) :
    FactorTokens (.apply e body.sequenceItems)
      (P * (Token.one (.punct '(') * (Q * Token.one (.punct ')')))) where
  begins := by
    intro ws hws
    obtain ⟨ts, hts, us, -, rfl⟩ := Language.mem_mul.mp hws
    obtain ⟨t, rest, rfl, ht, hparenthesis⟩ := h.begins ts hts
    refine ⟨t, rest ++ us, rfl, ht, fun hkind => ?_⟩
    have hsum := hparenthesis hkind
    cases e with
    | apply head _ =>
      rw [Expression.isApplicable, bne, show (head.symbol? == some "Add") = true from hsum] at hcall
      cases hcall
    | _ => cases hsum
  reads env henv levels := by
    intro ws hws after s loosest hs hctx hloosest hafter
    obtain ⟨ts, hts, us, hus, rfl⟩ := Language.mem_mul.mp hws
    obtain ⟨opening, bs, closing, rfl, hopening, hbs, hclosing⟩ := mem_enclosed_iff.mp hus
    have hs' : s.rest = ts ++ opening :: (bs ++ closing :: after) := by simp [hs]
    have hbegins : BeginsFactor opening.kind := .inr (.inl hopening)
    obtain ⟨_, _, ⟨rfl, rfl⟩, hleads⟩ := h.reads env henv levels ts hts _ s loosest hs' hctx hloosest
      fun u hu => by
        rw [← Option.some.inj hu]
        exact ⟨hbegins.continues.isSpacing, hbegins.ne_bracket⟩
    have hrest : (s.forward ts.length).rest = opening :: (bs ++ closing :: after) := by
      rw [State.rest_forward, hs', List.drop_left]
    have hinside : ((s.forward ts.length).forward 1).rest = bs ++ closing :: after := by
      rw [State.rest_forward, hrest]
      rfl
    have hthere : (located env).holds (s.forward ts.length) := (located env).forward _ hctx
    have hruns := hbody env henv levels bs hbs closing after _ hinside hclosing
      ((located env).forward 1 hthere)
    refine ⟨_, _, ⟨rfl, rfl⟩, ?_⟩
    have hend : s.forward (ts ++ opening :: (bs ++ [closing])).length =
        ((s.forward ts.length).forward 1).forward (bs.length + 1) := by
      rw [State.forward_forward, State.forward_forward]
      congr 1
      simp
      omega
    have happlicable : (Expression.apply e body.sequenceItems).isApplicable = true := by
      simpa [Expression.isApplicable] using hname
    rw [hend, happlicable]
    refine hleads.trans fun fuel hfuel => ?_
    refine leadsTo_of_arguments (o := ⟨e, e.isApplicable⟩) hrest hopening hthere.1 hcall hruns ?_ hfuel
    rw [State.rest_forward, hinside]
    simp
    omega

/-- Behind these tokens one more factor is read as such. -/
def Precedes (done : List Expression) (applicable : Bool) (P : Language Token) : Prop :=
  ∀ e Q, FactorTokens e Q → (applicable = true → e.isSum = false) →
    (done ≠ [] → e.isMissing = false) → ∀ env : Env, env.IsStandard → ∀ levels,
      Reads env (nested env (levels + 3)) (located env) .multiplication (Apart e.isApplicable)
        (fun o chained => Collects "Multiply" (done ++ [e]) o chained ∧
          (o.callable = true → e.isApplicable = true))
        (P * Q)

theorem Precedes.nil (applicable : Bool) : Precedes [] applicable 1 := by
  intro e Q he _ _ env henv levels
  rw [one_mul]
  refine (he.reads env henv (levels + 1)).mono (by decide) (fun _ h => h.ungrouped) ?_
  rintro _ _ ⟨rfl, rfl⟩
  exact ⟨.single _ ⟨e, e.isApplicable⟩, id⟩

/-- One more factor. -/
theorem Precedes.append {applicable : Bool} (h : Precedes done applicable P) (he : FactorTokens e Q)
    (happly : applicable = true → e.isSum = false)
    (hpresent : done ≠ [] → e.isMissing = false) :
    Precedes (done ++ [e]) e.isApplicable (P * Q) := by
  intro e' Q' he' happly' hpresent' env henv levels
  have hhere := hpresent' (by simp)
  refine ((h e Q he happly hpresent env henv levels).juxtaposed (T := (e' = ·)) henv (by decide)
    (fun us hus after s hs hctx hafter => ⟨e', rfl, hhere, he'.runs henv _ hus hs hctx hafter⟩)
    (fun us hus => ?_) fun us hus after _ => he'.apart happly' hus after).mono (by decide)
      (fun _ h => h) ?_
  · obtain ⟨t, rest, rfl, ht, hparenthesis⟩ := he'.begins us hus
    refine ⟨t, rest, rfl, ht, fun o c ho hcallable hkind => ?_⟩
    rw [happly' (ho.2 hcallable)] at hparenthesis
    cases hparenthesis hkind
  · rintro _ _ ⟨rfl, a, c, _, ⟨ha, -⟩, rfl, rfl⟩
    exact ⟨ha.append (by simp) e', nofun⟩

end Parser

end TexFormula
