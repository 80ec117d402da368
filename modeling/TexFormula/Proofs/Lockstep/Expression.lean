import TexFormula.Proofs.Lockstep.Operand
import TexFormula.Proofs.Nesting

/-!
# Idle notations leave no trace

The loop of operators and factors in step, and from it all levels of nesting: `inStep_nested` by
induction on the number of levels. The end is `parse_idleExtension`: with idle notations in front of
those of a dictionary, every source has the same tree and the same diagnostics.
-/

namespace TexFormula.Parser

variable {env : Env} {d : Dictionary} {inner inner' : Inner} {k n : Nat} {s : State}

/-! ### Expressions -/

theorem agree_applyOperator (hi : InStep k inner inner') {m : Notation} (hm : m.Steady)
    (lhs : Expression) (chain : Option String) (hs : s.rest.length ≤ n) (hn : n < k) :
    Agree (AtMost n) s (applyOperator env inner m lhs chain)
      (applyOperator (env.on d) inner' m lhs chain) := by
  unfold applyOperator
  split
  · next hook hreader => exact agree_run hi (hm hook hreader (some lhs)) hs hn
  · split
    · exact .pure hs
    · refine .bind (hi.agree_expression _ hs hn) fun rhs t ht => ?_
      dsimp only
      split
      · exact .recordHere (.pure ht)
      · exact .pure ht
    · exact .pure hs

theorem agree_firstOperator (hi : InStep k inner inner') {notations : List Notation}
    (h : ∀ m ∈ notations, m.Steady) (lhs : Expression) (chain : Option String)
    (hs : s.rest.length ≤ n + 1) (hn : n < k) :
    Agree (Consumed n) s (firstOperator env inner lhs chain notations)
      (firstOperator (env.on d) inner' lhs chain notations) := by
  induction notations generalizing s with
  | nil => exact .pure (.none rfl hs)
  | cons m rest ih =>
    have hforward := State.length_forward_one_le hs
    refine .orElse (Q := Consumed n) ?_ (fun _ _ ht => ht) fun t ht => ?_
    · refine .attempt (Q := AtMost n) (.advance ?_) (.none rfl hs) fun _ _ ht => .of_atMost ht
      exact .bind (agree_applyOperator hi (h m List.mem_cons_self) lhs chain hforward hn)
        fun _ _ ht => .pure ht
    · exact ih (fun m hm => h m (List.mem_cons_of_mem _ hm)) ht.1

/-- An operator that declines is taken back, and the others are tried from the same state. -/
theorem runs_firstOperator_idle (hi : InStep k inner inner) {idle notations : List Notation}
    (h : ∀ m ∈ idle, m.Idle) (hs : (s.forward 1).rest.length < k) {lhs : Expression}
    {chain : Option String} {a : Option (Expression × Notation)} {t : State}
    (ht : Runs (firstOperator env inner lhs chain notations) s a t) :
    Runs (firstOperator env inner lhs chain (idle ++ notations)) s a t := by
  induction idle with
  | nil => exact ht
  | cons m rest ih =>
    obtain ⟨hook, hreader, hhook⟩ := (h m List.mem_cons_self).declines
    obtain ⟨u, hu⟩ : ∃ u, Runs (run env inner (hook (some lhs))) (s.forward 1) none u :=
      runs_of_declines hi (hhook (some lhs)) hs
    refine runs_orElse.mpr (.inr ⟨s, ?_, ih fun m hm => h m (List.mem_cons_of_mem _ hm)⟩)
    refine runs_attempt.mpr (.inl ⟨rfl, rfl, u, ?_⟩)
    rw [runs_advance, applyOperator, hreader]
    exact hu.bind (.pure none u)

theorem agree_candidates (hd : env.dictionary.IdleExtension d) (hi : InStep k inner inner')
    (lhs : Expression) (chain : Option String) (trigger : String) (loosest : Precedence)
    (hs : s.rest.length ≤ n + 1) (hn : n < k) :
    Agree (Consumed n) s (firstOperator env inner lhs chain (candidates env trigger loosest))
      (firstOperator (env.on d) inner' lhs chain (candidates (env.on d) trigger loosest)) := by
  obtain ⟨idle, heq, hidle⟩ := hd.operators trigger
  have hsteady : ∀ m ∈ candidates env trigger loosest, m.Steady :=
    fun m hm => hd.steady_operators (List.mem_filter.mp hm).1
  obtain ⟨a, t, ha, ha', ht⟩ := agree_firstOperator hi hsteady lhs chain hs hn
  have hforward := Nat.lt_of_le_of_lt (State.length_forward_one_le hs) hn
  have hcandidates : candidates (env.on d) trigger loosest =
      (idle.filter fun m => loosest ≤ m.precedence) ++ candidates env trigger loosest := by
    show (d.operators trigger).filter _ = _
    rw [heq, List.filter_append]
    rfl
  refine ⟨a, t, ha, ?_, ht⟩
  rw [hcandidates]
  exact runs_firstOperator_idle hi.refl_right (fun m hm => hidle m (List.mem_filter.mp hm).1)
    hforward ha'

/-- An operator of the dictionary is next. -/
def State.AtOperator (env : Env) (s : State) : Prop :=
  ((s.current env).trigger?.filter env.dictionary.hasOperator).isSome

theorem State.AtOperator.forward (h : s.AtOperator env) (hs : s.rest.length ≤ n + 1) (count : Nat) :
    (s.forward count).rest.length ≤ n ∨
      (s.forward count).rest.length ≤ n + 1 ∧ (s.forward count).AtOperator env := by
  cases count with
  | zero => exact .inr ⟨hs, h⟩
  | succ count =>
    left
    rw [State.rest_forward, List.length_drop]
    omega

/-- A step of the loop reads an operator or a factor. Before a factor, which is read where the loop
stands, fewer tokens must be left than at the start of the expression. -/
theorem agree_chain (hd : env.dictionary.IdleExtension d) (hi : InStep k inner inner')
    (loosest : Precedence) (fuel : Nat) (lhs : Operand) (chained : Option String) (hn : n < k)
    (hs : s.rest.length ≤ n ∨ s.rest.length ≤ n + 1 ∧ s.AtOperator env) :
    Agree (AtMost (n + 1)) s (chain env inner loosest fuel lhs chained)
      (chain (env.on d) inner' loosest fuel lhs chained) := by
  induction fuel generalizing s lhs chained with
  | zero => exact .pure (by unfold AtMost; omega)
  | succ fuel ih =>
    have hspace : (s.forward (s.rest.takeWhile State.isSpacing).length).rest.length ≤ n ∨
        (s.forward (s.rest.takeWhile State.isSpacing).length).rest.length ≤ n + 1 ∧
          (s.forward (s.rest.takeWhile State.isSpacing).length).AtOperator env := by
      rcases hs with hs | ⟨hs, hop⟩
      · exact .inl (State.length_forward_le hs _)
      · exact hop.forward hs _
    refine .skipSpacing (.atTerminator ?_)
    generalize s.forward (s.rest.takeWhile State.isSpacing).length = s at hspace
    have hle : s.rest.length ≤ n + 1 := by omega
    have hoperator : (env.on d).dictionary.hasOperator = env.dictionary.hasOperator :=
      funext hd.hasOperator
    rw [hoperator]
    split
    · exact .pure hle
    · refine .current ?_
      dsimp only
      split
      · refine .bind (agree_delimitedArguments hi hle hn) fun arguments t ht => ?_
        exact ih _ _ (.inl ht)
      · split
        · refine .bind (agree_candidates hd hi _ _ _ _ hle hn) fun found t ht => ?_
          split
          · exact ih _ _ (.inl (ht.2 rfl))
          · exact .pure ht.1
        · next hnone =>
          have hlt : s.rest.length ≤ n := by
            rcases hspace with hs | ⟨-, hop⟩
            · exact hs
            · rw [State.AtOperator, hnone] at hop
              exact absurd hop Bool.false_ne_true
          split
          · exact .pure hle
          · refine .get (.bind (hi.agree_expression _ hlt hn) fun factor t ht => .get ?_)
            split
            · exact .pure (Nat.le_succ_of_le ht)
            · exact ih _ _ (.inl ht)

theorem agree_expressionAt (hd : env.dictionary.IdleExtension d) (hi : InStep k inner inner')
    (loosest : Precedence) (hs : s.rest.length ≤ n + 1) (hn : n < k) :
    Agree (AtMost (n + 1)) s (expressionAt env inner loosest)
      (expressionAt (env.on d) inner' loosest) := by
  unfold expressionAt
  have hoperator : (env.on d).dictionary.hasOperator = env.dictionary.hasOperator :=
    funext hd.hasOperator
  rw [hoperator]
  refine .bind (agree_operand hd hi hs hn) fun lhs t ht => ?_
  split
  · exact .get (agree_chain hd hi loosest _ _ none hn (.inl (ht.2 rfl)))
  · refine .current ?_
    split
    · next trigger htrigger =>
      refine .atTerminator ?_
      split
      · exact .pure ht.1
      · have hop : State.AtOperator env t := Option.isSome_iff_exists.mpr ⟨trigger, htrigger⟩
        exact .recordAt (.get (agree_chain hd hi loosest _ _ none hn (.inr ⟨ht.1, hop⟩)))
    · exact .pure ht.1

/-! ### Levels of nesting -/

/-- At the end of the source no operand is next. -/
theorem runs_operand_of_rest_nil (h : s.rest = []) : Runs (operand env inner) s none s := by
  unfold operand
  rw [runs_get, h]
  exact .pure none s

/-- At the end of the source the expression is missing. -/
theorem runs_expressionAt_of_rest_nil (h : s.rest = []) (loosest : Precedence) :
    Runs (expressionAt env inner loosest) s .missing s := by
  unfold expressionAt
  refine (runs_operand_of_rest_nil h).bind ?_
  rw [runs_current, State.current_of_rest_nil h]
  exact .pure Expression.missing s

/-- With as many levels of nesting as tokens, no level is missing: before each level a token is
read. -/
theorem inStep_nested (hd : env.dictionary.IdleExtension d) (levels : Nat) :
    InStep levels (nested env levels) (nested (env.on d) levels) := by
  induction levels with
  | zero => exact ⟨fun _ _ hs => absurd hs (Nat.not_lt_zero _),
      fun hs => absurd hs (Nat.not_lt_zero _)⟩
  | succ levels ih =>
    constructor
    · intro loosest s hs
      cases hlength : s.rest.length with
      | zero =>
        have hnil := List.length_eq_zero_iff.mp hlength
        refine ⟨Expression.missing, s, runs_expressionAt_of_rest_nil hnil loosest,
          runs_expressionAt_of_rest_nil hnil loosest, ?_⟩
        exact Nat.le_of_eq hlength
      | succ n => exact agree_expressionAt hd ih loosest (by omega) (by omega)
    · intro s hs
      cases hlength : s.rest.length with
      | zero =>
        have hnil := List.length_eq_zero_iff.mp hlength
        refine ⟨none, s, runs_map.mpr ⟨none, runs_operand_of_rest_nil hnil, rfl⟩,
          runs_map.mpr ⟨none, runs_operand_of_rest_nil hnil, rfl⟩, ?_⟩
        exact Nat.le_of_eq hlength
      | succ n =>
        have h : Agree (Consumed n) s (operand env (nested env levels))
            (operand (env.on d) (nested (env.on d) levels)) :=
          agree_operand hd ih (by omega) (by omega)
        exact h.map fun _ _ ht => ht.1

/-! ### The whole source -/

theorem agree_parts (hd : env.dictionary.IdleExtension d) (fuel : Nat)
    (hs : s.rest.length < env.options.maxDepth) :
    Agree (AtMost s.rest.length) s (parts env (nested env env.options.maxDepth) fuel)
      (parts (env.on d) (nested (env.on d) env.options.maxDepth) fuel) := by
  induction fuel generalizing s with
  | zero => exact .pure (Nat.le_refl _)
  | succ fuel ih =>
    refine .bind ((inStep_nested hd _).expression .loosest hs) fun e t ht => .get ?_
    split
    · exact .pure ht
    · have hle : t.rest.length ≤ s.rest.length := ht
      refine .current (.bind (agree_unexpected _ (Nat.le_succ_of_le hle)) fun stray u hu => ?_)
      have hlt : u.rest.length < env.options.maxDepth := Nat.lt_of_le_of_lt hu hs
      refine .bind (ih hlt) fun others v hv => .pure ?_
      exact Nat.le_trans hv hu

/-- Idle notations leave no trace: neither in the tree nor in the diagnostics. -/
theorem parse_idleExtension {d d' : Dictionary} (hd : d.IdleExtension d') {options : ParseOptions}
    {source : String} (h : (Token.meaningful source).length < options.maxDepth) :
    ∃ p, parse d' options source = .ok p ∧ parse d options source = .ok p := by
  let env : Env := ⟨source, d, options⟩
  obtain ⟨es, t, hruns, hruns', -⟩ := show Agree _ (.ofSource source) (parts env _ _) _ from
    agree_parts hd ((Token.meaningful source).length + 1) h
  have hparse {d : Dictionary} (hparts : Runs (parts ⟨source, d, options⟩
      (nested ⟨source, d, options⟩ options.maxDepth) ((Token.meaningful source).length + 1))
      (.ofSource source) es t) :
      parse d options source = .ok ⟨assemble es, t.diagnostics.reverse⟩ :=
    parse_eq_of_runs_rootNested (hparts.bind (.pure (assemble es) t))
  exact ⟨⟨assemble es, t.diagnostics.reverse⟩, hparse hruns', hparse hruns⟩

end TexFormula.Parser
