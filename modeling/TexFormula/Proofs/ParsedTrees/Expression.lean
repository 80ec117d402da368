import TexFormula.Proofs.ParsedLevels.Expression
import TexFormula.Proofs.Nesting
import TexFormula.Proofs.ParsedTrees.Operand

/-!
# Trees of expressions

The loop of operators and factors keeps to trees that can be read (`Parser.Tree`), and so do all the
levels of nesting. What a source is parsed as is such a tree: `tree_of_parse`.
-/

namespace TexFormula.Parser

variable {env : Env} {inner : Inner} {found : List Diagnostic} {s t : State} {e lhs : Expression}

/-- The operand before an operator: a tree, and an application of the operator whose chain can grow. -/
structure GrowingTree (env : Env) (found : List Diagnostic) (lhs : Expression)
    (chained : Option String) : Prop where
  tree : Tree env found lhs
  headName? (name : String) : chained = some name → lhs.headName? = some name

theorem GrowingTree.of_none (h : Tree env found e) : GrowingTree env found e none :=
  ⟨h, nofun⟩

/-- An operator grows its chain by the operand behind it. -/
theorem GrowingTree.extend {chained : Option String} {name : String} {rhs : Expression}
    (h : GrowingTree env found lhs chained) (hrhs : Tree env found rhs) (hname : name ∈ names)
    (variadic : Bool) :
    Tree env found (extend name (variadic && chained == some name) lhs rhs) ∧
      (Parser.extend name (variadic && chained == some name) lhs rhs).headName? = some name :=
  h.tree.extend hrhs hname fun hgrows =>
    h.headName? name (eq_of_beq (Bool.and_eq_true_iff.mp hgrows).2)

theorem entry_of_mem_candidates (hd : env.dictionary = .standard) {trigger : String}
    {loosest : Precedence} : ∀ n ∈ candidates env trigger loosest,
      (n ∈ Dictionary.standardEntries ∧ n.trigger = some trigger) ∧ n.followsOperand := by
  intro n hn
  have hoperator := (List.mem_filter.mp hn).1
  rw [hd] at hoperator
  exact ⟨Dictionary.entry_of_mem_operators hoperator, (List.mem_filter.mp hoperator).2⟩

/-- The chain of a variadic notation, which none of the hooks reads. -/
theorem chainName?_eq_none {n : Notation} (hn : n ∈ Dictionary.standardEntries)
    (h : n.reader.isSome ∨ n.kind ≠ .infixOp true) : chainName? n = none := by
  unfold chainName?
  split
  · next hvariadic =>
    rcases h with h | h
    · rw [reader_eq_none_of_isVariadic hn hvariadic] at h
      cases h
    · exact absurd (eq_of_beq hvariadic) h
  · rfl

section

variable (hi : inner.Trees env found)

include hi

/-- What an operator makes of the operand before it. -/
theorem yields_applyOperator {n : Notation} {trigger : String} {chained : Option String}
    (hn : n ∈ Dictionary.standardEntries) (htrigger : n.trigger = some trigger)
    (hs : Behind env trigger s) (lhs : Expression) :
    Yields env found (fun o _ => GrowingTree env found lhs chained →
      ∀ e ∈ o, GrowingTree env found e (chainName? n)) s (applyOperator env inner n lhs chained) := by
  have hname := mem_names hn htrigger
  unfold applyOperator
  split
  · next hook hreader =>
    have hhook := Dictionary.standard_of_reader_eq hn htrigger hreader
    rw [chainName?_eq_none hn (.inl (by rw [hreader]; rfl))]
    exact (hookTrees_standard hi hhook (some lhs) s hs).mono fun o _ ho hlhs e he =>
      .of_none (ho (forall_mem_some hlhs.tree) e he)
  · split
    · next hkind =>
      rw [chainName?_eq_none hn (.inr (by rw [hkind]; nofun))]
      refine .pure fun hlhs => forall_mem_some (.of_none ?_)
      exact .function hname (List.forall_mem_singleton.mpr hlhs.tree)
    · next variadic hkind =>
      refine .bind (hi.expression _ s) fun rhs t => ?_
      have hend (hrhs : Tree env found rhs) (hlhs : GrowingTree env found lhs chained) :
          ∀ e ∈ some (extend n.name (variadic && chained == some n.name) lhs rhs),
            GrowingTree env found e (chainName? n) := by
        obtain ⟨htree, hhead⟩ := hlhs.extend hrhs hname variadic
        refine forall_mem_some ⟨htree, fun name hchain => ?_⟩
        unfold chainName? at hchain
        split at hchain
        · cases hchain
          exact hhead
        · cases hchain
      dsimp only
      exact .ite (fun _ => .recordHere fun _ => .pure hend) fun _ => .pure hend
    · next hother =>
      rw [chainName?_eq_none hn (.inr (hother true))]
      exact .pure fun hlhs => forall_mem_some (.of_none hlhs.tree)

theorem yields_firstOperator {trigger : String} {notations : List Notation} {chained : Option String}
    (h : ∀ n ∈ notations, (n ∈ Dictionary.standardEntries ∧ n.trigger = some trigger) ∧
      n.followsOperand)
    (htrigger : (s.current env).trigger? = some trigger) (lhs : Expression) :
    Yields env found (fun o _ => GrowingTree env found lhs chained →
      ∀ p ∈ o, GrowingTree env found p.1 (chainName? p.2)) s
      (firstOperator env inner lhs chained notations) := by
  induction notations with
  | nil => exact .pure fun _ => forall_mem_none
  | cons n rest ih =>
    obtain ⟨⟨⟨hn, hat⟩, -⟩, hrest⟩ := List.forall_mem_cons.mp h
    refine .attempt_orElse (fun hs => ?_) (ih hrest)
    refine Yields.advance (.bind (yields_applyOperator hi hn hat (hs.behind htrigger) lhs) fun o t =>
      .pure fun ho hlhs => ?_) hs
    cases o with
    | none => exact forall_mem_none
    | some e => exact forall_mem_some (ho hlhs e rfl)

theorem yields_chain (hd : env.dictionary = .standard) (loosest : Precedence) (fuel : Nat)
    (lhs : Operand) (chained : Option String) (s : State) :
    Yields env found (fun e _ => GrowingTree env found lhs.expression chained → Tree env found e) s
      (chain env inner loosest fuel lhs chained) := by
  induction fuel generalizing s lhs chained with
  | zero => exact .pure fun hlhs => hlhs.tree
  | succ fuel ih =>
    refine .skipSpacing (.atTerminator (.ite (fun _ => .pure fun hlhs => hlhs.tree) fun _ => ?_))
    refine .current fun _ => .ite (fun _ => ?_) fun _ => ?_
    · refine .bind (yields_delimitedArguments hi _) fun arguments t => ?_
      exact (ih ⟨.apply lhs.expression arguments, true⟩ none t).mono fun e _ he harguments hlhs =>
        he (.of_none (.apply hlhs.tree harguments))
    · split
      · next trigger htrigger =>
        have hnext := (Option.filter_eq_some_iff.mp htrigger).1
        refine .bind (yields_firstOperator hi (entry_of_mem_candidates hd) hnext _) fun applied t => ?_
        split
        · next e n =>
          exact (ih ⟨e, false⟩ (chainName? n) t).mono fun e' _ he' happlied hlhs =>
            he' (happlied hlhs (e, n) rfl)
        · exact .pure fun _ hlhs => hlhs.tree
      · refine .ite (fun _ => .pure fun hlhs => hlhs.tree) fun _ => .get fun _ => ?_
        refine .bind (hi.expression _ _) fun factor t => .get fun _ => ?_
        refine .ite (fun _ => .pure fun _ hlhs => hlhs.tree) fun _ => ?_
        refine (ih _ _ t).mono fun e _ he hfactor hlhs => he ?_
        have hname : "Multiply" ∈ names := by decide +kernel
        obtain ⟨htree, hhead⟩ := hlhs.extend hfactor hname true
        rw [Bool.true_and] at htree hhead
        exact ⟨htree, fun name hsome => by cases hsome; exact hhead⟩

end

/-! ### All levels of nesting -/

theorem yields_expressionAt (hd : env.dictionary = .standard) {levels : Nat}
    (hlevels : levels < env.options.maxDepth) (hi : (nested env levels).Trees env found)
    (loosest : Precedence) (s : State) :
    Yields env found (fun e _ => Tree env found e) s (expressionAt env (nested env levels) loosest) := by
  unfold expressionAt
  refine .bind (yields_operand hlevels hi hd s) fun o t => ?_
  split
  · next lhs =>
    refine .get fun _ => (yields_chain hi hd _ _ lhs none t).mono fun e _ he hlhs => ?_
    exact he (.of_none (hlhs lhs rfl))
  · refine .current fun _ => ?_
    split
    · refine .atTerminator (.ite (fun _ => .pure fun _ => .missing) fun _ => ?_)
      refine .recordAt fun u => .get fun _ => ?_
      exact (yields_chain hi hd _ _ _ none u).mono fun e _ he _ _ => he (.of_none .missing)
    · exact .pure fun _ => .missing

/-- By the levels allowed, which are never more than the limit. -/
theorem trees_nested (hd : env.dictionary = .standard) {levels : Nat}
    (hlevels : levels ≤ env.options.maxDepth) : (nested env levels).Trees env found := by
  induction levels with
  | zero => exact ⟨fun _ _ => .throw, fun _ => .throw⟩
  | succ levels ih =>
    have hi := ih (Nat.le_of_succ_le hlevels)
    refine ⟨yields_expressionAt hd hlevels hi, fun s =>
      (yields_operand hlevels hi hd s).map fun o _ ho => ?_⟩
    cases o with
    | none => exact forall_mem_none
    | some x => exact forall_mem_some (ho x rfl)

theorem yields_parts (hd : env.dictionary = .standard) (fuel : Nat) (s : State) :
    Yields env found (fun es _ => ∀ e ∈ es, Tree env found e) s
      (parts env (nested env env.options.maxDepth) fuel) := by
  induction fuel generalizing s with
  | zero => exact .pure (List.forall_mem_nil _)
  | succ fuel ih =>
    refine .bind ((trees_nested hd (Nat.le_refl _)).expression .loosest s) fun e t => .get fun _ => ?_
    have hhere (he : Tree env found e) : ∀ a ∈ (if e.isMissing then [] else [e]), Tree env found a := by
      split
      · exact List.forall_mem_nil _
      · exact List.forall_mem_singleton.mpr he
    refine .ite (fun _ => .pure hhere) fun _ => .current fun _ => ?_
    refine .bind (yields_unexpected _ t) fun stray u => .bind (ih u) fun others v => .pure ?_
    exact fun hothers hstray he =>
      List.forall_mem_append.mpr ⟨hhere he, List.forall_mem_cons.mpr ⟨hstray, hothers⟩⟩

theorem Tree.assemble {es : List Expression} (h : ∀ e ∈ es, Tree env found e) :
    Tree env found (assemble es) := by
  unfold Parser.assemble
  split
  · exact .missing
  · exact h _ List.mem_cons_self
  · exact .function sequence_mem_names h

/-- What a source is parsed as can be read from it, with the diagnostics that it is parsed with. -/
theorem tree_of_parse {options : ParseOptions} {source : String} {p : Parsed}
    (h : parse .standard options source = .ok p) :
    Tree ⟨source, .standard, options⟩ p.diagnostics p.expression := by
  have hroot : Yields ⟨source, .standard, options⟩ p.diagnostics
      (fun e _ => Tree ⟨source, .standard, options⟩ p.diagnostics e) (.ofSource source)
      (rootNested ⟨source, .standard, options⟩) :=
    .get fun _ => .bind (yields_parts rfl _ _) fun _ _ => .pure Tree.assemble
  obtain ⟨t, hruns, hdiagnostics⟩ := runs_rootNested_of_parse h
  refine (hroot (.suffix List.suffix_rfl) _ t hruns).2.2 fun d hd => ?_
  rw [hdiagnostics]
  exact List.mem_reverse.mpr hd

/-- Every error node of an unknown command in what a source is parsed as is read in a state where such a
command is next, unless the source names an identifier `Error`. -/
theorem readsUnknown_of_parse {options : ParseOptions} {source literal : String} {p : Parsed}
    (h : parse .standard options source = .ok p) (hidentifies : ¬Identifies source "Error")
    (hn : (unknownError literal).expression.NodeOf p.expression) :
    ReadsUnknown ⟨source, .standard, options⟩ literal := by
  rcases (tree_of_parse h).of_nodeOf hn with htree | hhead
  · rcases htree.of_headName?_error rfl with hname | ⟨code, literal', heq, hreported⟩
    · exact absurd hname hidentifies
    · cases heq
      exact hreported.readsUnknown rfl
  · cases hhead

end TexFormula.Parser
