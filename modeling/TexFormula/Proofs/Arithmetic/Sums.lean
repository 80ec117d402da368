import TexFormula.Proofs.Arithmetic.Products

/-!
# Sums as they are read

A term stands behind a plus or a minus sign, and is read up to the next one. A minus sign in front of
a product belongs to the numeral that it starts with, or else is an operator; the value is the same.
-/

open Filter TexFormula.Parser

namespace TexFormula.Parser

variable {D : Set (String → ℚ)} {p q : Precedence} {f g : Meaning} {P Q : Language Token}

/-- What is read behind a sign. -/
theorem exists_runs_term {env : Env} {inner : Inner} {S : Operand → Option String → Prop}
    (hS : Settles S) (henv : env.IsStandard) {follow : List Token → Prop}
    (hfollow : ∀ after, follow after → EndsProduct after)
    (h : Reads env inner delimited p follow S P) (hp : Precedence.addition.tighter ≤ p) {s : State}
    {ts after : List Token} (hts : ts ∈ P) (hs : s.rest = ts ++ after) (hctx : s.Delimited)
    (hafter : follow after) :
    ∃ o chained, S o chained ∧ o.expression.isMissing = false ∧
      Runs (expressionAt env inner Precedence.addition.tighter) s o.expression
        (s.forward ts.length) := by
  have hrest : (s.forward ts.length).rest = after := by
    rw [State.rest_forward, hs, List.drop_left]
  have hends : Ends env inner Precedence.addition.tighter (s.forward ts.length) :=
    ends_of_endsProduct henv (hrest ▸ hfollow after hafter) (delimited.forward _ hctx) (by decide)
  exact exists_runs_expressionAt hS h hts hs hctx hp hafter hends

/-- A minus sign in front of what is no number is an operator. -/
theorem Reads.negated {env : Env} {inner outer : Inner} {follow : List Token → Prop}
    {R : Operand → Option String → Prop} (hR : Settles R) (henv : env.IsStandard)
    (houter : outer.expression Precedence.addition.tighter =
      expressionAt env inner Precedence.addition.tighter)
    (h : Reads env inner delimited p follow R P) (hp : Precedence.addition.tighter ≤ p)
    (hminus : TakesMinus P) (hfollow : ∀ after, follow after → EndsProduct after) :
    Reads env outer delimited q follow
      (fun o chained => chained = none ∧ ∃ a c, R a c ∧
        o = { expression := .function "Negate" [a.expression] })
      (Token.one (.punct '-') * P) := by
  intro us hus after s loosest hs hctx _ hafter
  obtain ⟨_, ⟨t, rfl, ht⟩, ts, hts, rfl⟩ := Language.mem_mul.mp hus
  have hbuiltin := hminus ts hts env outer s t after hs ht
  have hinside : (s.forward 1).rest = ts ++ after := by
    rw [State.rest_forward, hs]
    rfl
  obtain ⟨a, c, ha, hpresent, hruns⟩ := exists_runs_term hR henv hfollow h hp hts hinside
    (delimited.forward 1 hctx) hafter
  have hoperands : env.dictionary.operands "-" = [.ofPrefix "Negate" "-" .addition] := by
    rw [henv.dictionary]
    rfl
  have hfree : Free t.kind := by
    rw [ht]
    decide
  have htrigger : t.trigger? = some "-" := by
    rw [Token.trigger?, ht]
    rfl
  refine ⟨_, none, ⟨rfl, a, c, ha, rfl⟩, ?_⟩
  refine leadsTo_of_operand (runs_operand_notated hs hfree.continues hctx hbuiltin htrigger
    hoperands ?_)
  rw [List.length_append, ← State.forward_forward]
  have hprefixed : Runs (prefixed env outer (.ofPrefix "Negate" "-" .addition))
      (s.forward 1) a.expression ((s.forward 1).forward ts.length) := by
    unfold prefixed
    refine Runs.bind (houter ▸ hruns) ?_
    rw [hpresent]
    exact .pure _ _
  exact hprefixed.bind (.pure _ _)

theorem Piece.negated (h : Piece D .multiplication EndsProduct f P) (hminus : TakesMinus P) :
    Piece D .atomic EndsProduct (-f) (Token.one (.punct '-') * P) := by
  refine eventually_succ h fun levels hlevels env henv => ?_
  have hreads : Reads env (nested env (levels + 1)) delimited .atomic EndsProduct _ _ :=
    Reads.negated Says.settles henv rfl (hlevels env henv) (by decide) hminus fun _ h => h
  refine hreads.mono (Nat.le_refl _) (fun _ h => h) ?_
  rintro _ _ ⟨rfl, a, _, ha, rfl⟩
  refine .of_value (fun σ hσ => ?_) rfl
  rw [Expression.value?_function, Expression.values?, Expression.values?, ha.value σ hσ]
  simp

/-! ### Terms -/

theorem EndsProduct.of_mem {t : Token} (ht : t.kind ∈ sumKinds) (after : List Token) :
    EndsProduct (t :: after) := by
  intro u hu
  rw [← Option.some.inj hu]
  exact .inr ht

theorem Reads.plus {env : Env} {inner outer : Inner} {S S' : Operand → Option String → Prop}
    (hS : Settles S') (henv : env.IsStandard)
    (houter : outer.expression Precedence.addition.tighter =
      expressionAt env inner Precedence.addition.tighter)
    (h : Reads env outer delimited .addition EndsProduct S P)
    (hQ : Reads env inner delimited .multiplication EndsProduct S' Q) :
    Reads env outer delimited .addition EndsProduct
      (fun o chained => chained = some "Add" ∧ ∃ a c b c', S a c ∧ S' b c' ∧
        o = ⟨extend "Add" (c == some "Add") a.expression b.expression, false⟩)
      (P * (Token.one (.punct '+') * Q)) := by
  have hfree : Free (.punct '+') := by decide
  have hoperators : env.dictionary.operators "+" =
      [((Notation.ofInfix "Add" "+" .addition).variadic.withArity 0 none).withWriter
        Writers.sum] := by
    rw [henv.dictionary]
    rfl
  refine h.operator hfree rfl hoperators (Nat.le_refl _)
    (fun t us after _ ht _ => .of_mem (by rw [ht]; decide) _) ?_
  intro us hus after s a c hs hctx hafter ha
  obtain ⟨b, c', hb, hpresent, hruns⟩ := exists_runs_term hS henv (fun _ h => h) hQ (by decide) hus
    hs hctx hafter
  refine ⟨_, ⟨rfl, a, c, b, c', ha, hb, rfl⟩, ?_⟩
  unfold applyOperator
  refine Runs.bind (houter ▸ hruns) ?_
  rw [hpresent]
  exact .pure _ _

theorem Piece.plus (h : Piece D .addition EndsProduct f P)
    (hQ : Piece D .multiplication EndsProduct g Q) :
    Piece D .addition EndsProduct (f + g) (P * (Token.one (.punct '+') * Q)) := by
  refine (Eventually.and h hQ.below).mono fun levels hlevels env henv => ?_
  obtain ⟨hleft, below, rfl, hright⟩ := hlevels
  have hreads : Reads env (nested env (below + 1)) delimited .addition EndsProduct _ _ :=
    Reads.plus Says.settles henv rfl (hleft env henv) (hright env henv)
  refine hreads.mono (Nat.le_refl _) (fun _ h => h) ?_
  rintro _ _ ⟨rfl, a, c, b, c', ha, hb, rfl⟩
  exact ha.add hb.value

theorem Reads.minus {env : Env} {inner outer : Inner} {S S' : Operand → Option String → Prop}
    (hS : Settles S') (henv : env.IsStandard)
    (houter : outer.expression Precedence.addition.tighter =
      expressionAt env inner Precedence.addition.tighter)
    (h : Reads env outer delimited .addition EndsProduct S P)
    (hQ : Reads env inner delimited .multiplication EndsProduct S' Q) :
    Reads env outer delimited .addition EndsProduct
      (fun o chained => chained = none ∧ ∃ a c b c', S a c ∧ S' b c' ∧
        o = { expression := .function "Subtract" [a.expression, b.expression] })
      (P * (Token.one (.punct '-') * Q)) := by
  have hfree : Free (.punct '-') := by decide
  have hoperators : env.dictionary.operators "-" = [.ofInfix "Subtract" "-" .addition] := by
    rw [henv.dictionary]
    rfl
  refine h.operator hfree rfl hoperators (Nat.le_refl _)
    (fun t us after _ ht _ => .of_mem (by rw [ht]; decide) _) ?_
  intro us hus after s a c hs hctx hafter ha
  obtain ⟨b, c', hb, hpresent, hruns⟩ := exists_runs_term hS henv (fun _ h => h) hQ (by decide) hus
    hs hctx hafter
  refine ⟨_, ⟨rfl, a, c, b, c', ha, hb, rfl⟩, ?_⟩
  unfold applyOperator
  refine Runs.bind (houter ▸ hruns) ?_
  rw [hpresent]
  exact .pure _ _

theorem Piece.minus (h : Piece D .addition EndsProduct f P)
    (hQ : Piece D .multiplication EndsProduct g Q) :
    Piece D .addition EndsProduct (f - g) (P * (Token.one (.punct '-') * Q)) := by
  refine (Eventually.and h hQ.below).mono fun levels hlevels env henv => ?_
  obtain ⟨hleft, below, rfl, hright⟩ := hlevels
  have hreads : Reads env (nested env (below + 1)) delimited .addition EndsProduct _ _ :=
    Reads.minus Says.settles henv rfl (hleft env henv) (hright env henv)
  refine hreads.mono (Nat.le_refl _) (fun _ h => h) ?_
  rintro _ _ ⟨rfl, a, c, b, c', ha, hb, rfl⟩
  refine ⟨fun σ hσ => ?_, rfl, rfl, nofun⟩
  rw [Expression.value?_function, Expression.values?, Expression.values?, Expression.values?,
    ha.value σ hσ, hb.value σ hσ]
  simp

end TexFormula.Parser
