import TexFormula.Proofs.BalancedDelimiters
import TexFormula.Proofs.OpenBraces.Group

/-!
# A parse without diagnostics leaves no brace open

The readers of all levels spare an open brace, by induction on the levels. So where all is read that
there is and nothing is recorded, every brace that opens a group has one behind it that closes it
(`exists_close_of_parse`), whatever stands between them.
-/

namespace TexFormula.Parser.OpenBrace

variable {b : OpenBrace} {env : Env} {inner : Inner} {s t : State} {n : Notation} {trigger : String}

theorem ne_groupOpen_of_trigger? {token : Token} (h : token.trigger? = some trigger) :
    token.kind ≠ .groupOpen := by
  intro hkind
  rw [Token.trigger?, hkind] at h
  cases h

/-! ### Notations -/

section

variable (hi : b.Sparing env inner) (hb : b.Of env)

include hi hb

theorem spares_script (name command : String) (lhs : Option Expression) (s : State) :
    b.Spares env s (run env inner (Readers.script name command lhs)) :=
  .bind (spares_argument hi hb command s) fun _ _ => .pure

theorem spares_hook {follows : Bool} {hook : ReadingHook} (h : Readers.Standard follows trigger hook)
    (lhs : Option Expression) (s : State) : b.Spares env s (run env inner (hook lhs)) := by
  have hmissing (command : String) (t : State) :
      b.Spares env t (run env inner (Readers.missingArgument command)) :=
    .recordHere fun _ => .pure
  have hidentifier : b.Spares env s (run env inner (Readers.identifier lhs)) := by
    refine .bind (spares_rawGroup s) fun raw t => ?_
    cases raw with
    | none => exact hmissing _ t
    | some text =>
      simp only [Reading.bind]
      split
      · exact hmissing _ t
      · exact .pure
  cases h with
  | unaryPlus => exact .bind (hi.expression _ s) fun _ _ => .pure
  | power => exact spares_script hi hb _ _ lhs s
  | subscript => exact spares_script hi hb _ _ lhs s
  | squareRoot =>
    exact .bind (spares_bracketGroup hi hb s) fun _ t =>
      .bind (spares_argument hi hb "\\sqrt" t) fun _ _ => .pure
  | operatorname => exact hidentifier
  | mathrm => exact hidentifier
  | text =>
    refine .bind (spares_rawGroup s) fun raw t => ?_
    cases raw with
    | none => exact hmissing _ t
    | some text => exact .pure
  | placeholder =>
    exact .bind (spares_bracketGroup hi hb s) fun _ t => .bind (spares_rawGroup t) fun _ _ => .pure
  | infinity => exact .pure

omit hb in
theorem spares_enclosed (close : String) (s : State) : b.Spares env s (enclosed env inner close) := by
  refine .bind (.awaiting (hi.expression .loosest)) fun body t => .current fun _ => ?_
  dsimp only
  refine .ite (fun hclose => .advance ?_ .pure) fun _ => .recordHere fun _ => .pure
  exact ne_groupOpen_of_trigger? (eq_of_beq hclose)

omit hb in
theorem spares_prefixed (n : Notation) (s : State) : b.Spares env s (prefixed env inner n) := by
  refine .bind (hi.expression _ s) fun operand t => ?_
  dsimp only
  exact .ite (fun _ => .recordHere fun _ => .pure) fun _ => .pure

theorem spares_applyNotation (hn : n ∈ Dictionary.standardEntries) (s : State) :
    b.Spares env s (applyNotation env inner n) := by
  unfold applyNotation
  split
  · next hook hreader =>
    obtain ⟨trigger, -, hhook⟩ := Dictionary.hookedAsStandard_standardEntries n hn hook hreader
    exact .bind (spares_hook hi hb hhook none s) fun _ _ => .pure
  · split
    · exact .pure
    · exact .bind (spares_prefixed hi n s) fun _ _ => .pure
    · exact .bind (spares_enclosed hi _ s) fun _ _ => .pure
    · exact .bind (spares_arguments hi hb _ _ s) fun _ _ => .pure
    · exact .bind (spares_functionArguments hi hb _ s) fun _ _ => .pure
    · exact .pure
    · exact .pure
    · exact .pure

theorem spares_firstNotation {notations : List Notation}
    (h : ∀ n ∈ notations, n ∈ Dictionary.standardEntries)
    (htrigger : (s.current env).trigger? = some trigger) :
    b.Spares env s (firstNotation env inner notations) := by
  induction notations with
  | nil => exact .pure
  | cons n rest ih =>
    obtain ⟨hn, hrest⟩ := List.forall_mem_cons.mp h
    exact .attempt_orElse (.advance (ne_groupOpen_of_trigger? htrigger)
      (spares_applyNotation hi hb hn _)) (ih hrest)

theorem spares_notated (hd : env.dictionary = .standard) (s : State) :
    b.Spares env s (notated env inner) := by
  refine .current fun _ => ?_
  split
  · next trigger htrigger =>
    rw [hd]
    exact spares_firstNotation hi hb (fun n hn => (Dictionary.entry_of_mem_operands hn).1) htrigger
  · exact .pure

end

/-! ### Operands -/

theorem spares_unknownLetter {token : Token} {c : Char} (h : (s.current env).kind ≠ .groupOpen) :
    b.Spares env s (unknownLetter env token c) := by
  refine .advance h ?_
  split
  · exact .pure
  · exact .pure
  · exact .pure
  · exact .recordAt fun _ => .pure

/-- An unknown command that is not left out is reported. -/
theorem reported_unknownCommand (hi : b.Sparing env inner) (hkeep : env.LeavesNothingOut)
    (token : Token) (name : String) (s : State) :
    Yields env [] (fun _ _ => False) s (unknownCommand env inner token name) := by
  have hinner : (advancing env).Inners inner inner :=
    ⟨fun loosest => Spares.advances (hi.expression loosest), Spares.advances hi.operand⟩
  have hdisposed (found : List Expression × Nat) (t : State) :
      Yields env [] (fun _ _ => False) t (disposed env token name found) := by
    unfold disposed
    split
    · next hskip => exact absurd hskip (hkeep _)
    · exact .record fun _ => .pure nofun
    · exact .record fun _ => .ite (fun _ => .pure nofun) fun _ => .pure nofun
  rw [unknownCommand_eq]
  refine .advance (.ite (fun _ => .get fun _ => .after ?_ hdisposed) fun _ => hdisposed _ _)
  exact show (advancing env).rel (unknownArguments env inner _ _)
      (unknownArguments (env.allowing 0) inner _ _) from hinner.unknownArguments _ _

theorem spares_unknown (hi : b.Sparing env inner) (hkeep : env.LeavesNothingOut) (s : State) :
    b.Spares env s (unknown env inner) := by
  refine .current fun _ => ?_
  split
  · next hkind =>
    refine spares_unknownLetter ?_
    rw [hkind]
    nofun
  · exact .of_reported (reported_unknownCommand hi hkeep _ _ s)
  · exact spares_unexpected fun _ _ => .pure

section

variable (hi : b.Sparing env inner) (hb : b.Of env) (hd : env.dictionary = .standard)
  (hkeep : env.LeavesNothingOut)

include hi hb hd hkeep

theorem spares_operandWithin (fuel : Nat) (s : State) :
    b.Spares env s (operandWithin env inner fuel) := by
  induction fuel generalizing s with
  | zero => exact .pure
  | succ fuel ih =>
    refine .skipSpacing fun t => .atTerminator (.ite (fun _ => .pure) fun _ => ?_)
    refine .orElse (.orElse (spares_builtin hi hb t) (spares_notated hi hb hd)) fun u => ?_
    refine .bind (m := atOperator env) (.current fun _ => .pure) fun operator v => ?_
    exact .ite (fun _ => .pure) fun _ => .orElse (spares_unknown hi hkeep v) ih

theorem spares_operand (s : State) : b.Spares env s (operand env inner) :=
  .get fun _ => spares_operandWithin hi hb hd hkeep _ s

/-! ### Expressions -/

omit hd hkeep in
theorem spares_applyOperator (hn : n ∈ Dictionary.standardEntries) (lhs : Expression)
    (chained : Option String) (s : State) :
    b.Spares env s (applyOperator env inner n lhs chained) := by
  unfold applyOperator
  split
  · next hook hreader =>
    obtain ⟨trigger, -, hhook⟩ := Dictionary.hookedAsStandard_standardEntries n hn hook hreader
    exact spares_hook hi hb hhook (some lhs) s
  · split
    · exact .pure
    · refine .bind (hi.expression _ s) fun rhs t => ?_
      dsimp only
      exact .ite (fun _ => .recordHere fun _ => .pure) fun _ => .pure
    · exact .pure

omit hd hkeep in
theorem spares_firstOperator {notations : List Notation}
    (h : ∀ n ∈ notations, n ∈ Dictionary.standardEntries)
    (htrigger : (s.current env).trigger? = some trigger) (lhs : Expression) (chained : Option String) :
    b.Spares env s (firstOperator env inner lhs chained notations) := by
  induction notations with
  | nil => exact .pure
  | cons n rest ih =>
    obtain ⟨hn, hrest⟩ := List.forall_mem_cons.mp h
    refine .attempt_orElse (.advance (ne_groupOpen_of_trigger? htrigger) ?_) (ih hrest)
    exact .bind (spares_applyOperator hi hb hn lhs chained _) fun _ _ => .pure

omit hkeep in
theorem spares_chain (loosest : Precedence) (fuel : Nat) (lhs : Operand) (chained : Option String)
    (s : State) : b.Spares env s (chain env inner loosest fuel lhs chained) := by
  induction fuel generalizing s lhs chained with
  | zero => exact .pure
  | succ fuel ih =>
    refine .skipSpacing fun t => .atTerminator (.ite (fun _ => .pure) fun _ => ?_)
    refine .current fun _ => .ite (fun happlied => ?_) fun _ => ?_
    · have hopen := (Bool.and_eq_true_iff.mp happlied).2
      exact .bind (spares_delimitedArguments hi hb hopen) fun _ u => ih _ _ u
    · split
      · next trigger htrigger =>
        have hnext := (Option.filter_eq_some_iff.mp htrigger).1
        have hentry (n : Notation) (hn : n ∈ candidates env trigger loosest) :
            n ∈ Dictionary.standardEntries :=
          (mem_standardEntries_of_mem_candidates hd trigger loosest n hn).1
        refine .bind (spares_firstOperator hi hb hentry hnext _ _) fun applied u => ?_
        split
        · exact ih _ _ u
        · exact .pure
      · refine .ite (fun _ => .pure) fun _ => .get fun _ => ?_
        refine .bind (hi.expression _ _) fun factor u => .get fun _ => ?_
        exact .ite (fun _ => .pure) fun _ => ih _ _ u

theorem spares_expressionAt (loosest : Precedence) (s : State) :
    b.Spares env s (expressionAt env inner loosest) := by
  refine .bind (spares_operand hi hb hd hkeep s) fun o t => ?_
  split
  · exact .get fun _ => spares_chain hi hb hd _ _ _ _ t
  · refine .current fun _ => ?_
    split
    · refine .atTerminator (.ite (fun _ => .pure) fun _ => .recordAt fun u => .get fun _ => ?_)
      exact spares_chain hi hb hd _ _ _ _ u
    · exact .pure

end

/-! ### Whole sources -/

theorem sparing_nested (hb : b.Of env) (hd : env.dictionary = .standard)
    (hkeep : env.LeavesNothingOut) (levels : Nat) : b.Sparing env (nested env levels) := by
  induction levels with
  | zero => exact ⟨fun _ _ => .throw, fun _ => .throw⟩
  | succ levels ih =>
    exact ⟨spares_expressionAt ih hb hd hkeep, fun s => .map (spares_operand ih hb hd hkeep s)⟩

/-- Where all is read that there is and nothing is recorded, no brace was open. -/
theorem settled_parts (hb : b.Of env) (hd : env.dictionary = .standard) (hkeep : env.LeavesNothingOut)
    (fuel : Nat) (s : State) : Yields env [] (fun _ _ => ¬ b.Ahead s.rest) s
      (parts env (nested env env.options.maxDepth) (fuel + 1)) := by
  have hothers : Advances env (parts env (nested env env.options.maxDepth) fuel) :=
    show (advancing env).rel (parts env _ fuel) (parts (env.allowing 0) _ fuel) from
      ((advancing env).inners_nested (fun _ => trivial) env _).parts fuel
  refine .bind ((sparing_nested hb hd hkeep _).expression .loosest s) fun e t => .get fun _ => ?_
  refine .ite (fun hend => .pure fun hahead hs => ?_) fun _ => .current fun _ => ?_
  · have hnil := hahead hs
    rw [List.isEmpty_iff.mp hend] at hnil
    exact Ahead.not_nil hnil
  · exact .bind (reported_unexpected _ t) fun _ u => .bind (.of_advances hothers) fun _ _ =>
      .pure fun _ hreported => hreported.elim

end OpenBrace

open OpenBrace in
/-- Behind a brace that opens a group and is no growing delimiter there is a brace that closes a group,
if a source is parsed without diagnostics. -/
theorem exists_close_of_parse {options : ParseOptions} {source : String} {p : Parsed}
    (h : parse .standard options source = .ok p) (hclean : p.diagnostics = [])
    (hkeep : (⟨source, .standard, options⟩ : Env).LeavesNothingOut) {brace : Token}
    {front behind : List Token} (hsource : Token.meaningful source = front ++ brace :: behind)
    (hopen : brace.kind = .groupOpen) (hlast : ∀ t ∈ front.getLast?, ¬ TakesDelimiter t) :
    ∃ t ∈ behind, t.kind = .groupClose := by
  by_contra hnone
  let b : OpenBrace := ⟨brace, behind, hopen, fun t ht hclose => hnone ⟨t, ht, hclose⟩⟩
  have hb : b.Of ⟨source, .standard, options⟩ := ⟨front, hsource, hlast⟩
  have hroot : Yields ⟨source, .standard, options⟩ [] (fun _ _ => ¬ b.Ahead (Token.meaningful source))
      (.ofSource source) (rootNested ⟨source, .standard, options⟩) :=
    .get fun _ => .bind (settled_parts hb rfl hkeep _ _) fun _ _ => .pure id
  obtain ⟨t, hruns, hdiagnostics⟩ := runs_rootNested_of_parse h
  have hend := (hroot (.suffix List.suffix_rfl) _ t hruns).2.2
  rw [List.reverse_eq_nil_iff.mp (hdiagnostics.symm.trans hclean)] at hend
  exact hend (List.Subset.refl _) hb

end TexFormula.Parser
