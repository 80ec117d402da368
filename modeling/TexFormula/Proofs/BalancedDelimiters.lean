import TexFormula.Proofs.ParsedTrees.Expression
import TexFormula.Proofs.Matches.Group
import TexFormula.Proofs.Outcome

/-!
# A parse without diagnostics reads balanced delimiters

Whatever part of the parser reads a delimiter that opens also reads the one that closes it, or else it
records a diagnostic (`Matches`). So the delimiters of a source that is parsed without any are balanced
(`balanced_of_parse`). This is not so for growing delimiters and for groups that are read as they stand,
which only `verbatimCommands` make.
-/

namespace TexFormula.Parser

open Token (Balanced isPlain_of_trigger? delimiterTriggers)

variable {env : Env} {inner : Inner} {s t : State} {n : Notation} {trigger : String}

/-! ### Standard notations -/

/-- The notation is a pair of brackets. -/
def BracketPair (n : Notation) : Prop :=
  n.trigger = some "[" ∧ n.reader.isNone ∧ n.kind = .matchfix "]"

/-- No token that belongs to the notation is a delimiter. -/
def Undelimited (n : Notation) : Prop :=
  (∀ trigger ∈ n.trigger, trigger ∉ delimiterTriggers) ∧
    ∀ close ∈ delimiterTriggers, n.kind ≠ .matchfix close

instance : DecidablePred BracketPair :=
  fun _ => inferInstanceAs (Decidable (_ ∧ _))

instance : DecidablePred Undelimited :=
  fun _ => inferInstanceAs (Decidable (_ ∧ _))

theorem bracketPair_or_undelimited :
    ∀ n ∈ Dictionary.standardEntries, BracketPair n ∨ Undelimited n := by
  decide +kernel

theorem not_behind_of_withoutVerbatim (hverbatim : WithoutVerbatim env.source) (name : String)
    (hname : name ∈ verbatimCommands) : ¬Behind env ("\\" ++ name) s := by
  rintro ⟨token, htrigger, hsuffix⟩
  have hne : name ≠ "" := by
    rintro rfl
    exact absurd hname (by decide)
  exact hverbatim.not_isCommand (hsuffix.mem List.mem_cons_self) hname
    (isCommand_of_trigger? name hne htrigger)

section

variable (hi : inner.Matching env) (hverbatim : WithoutVerbatim env.source)

include hi

theorem matches_script (name command : String) (lhs : Option Expression) (s : State) :
    Matches env [] s (run env inner (Readers.script name command lhs)) :=
  .bind (matches_argument hi command s) fun _ _ => .pure

theorem matches_squareRoot (lhs : Option Expression) (s : State) :
    Matches env [] s (run env inner (Readers.squareRoot lhs)) :=
  .bind (matches_bracketGroup hi s) fun _ t => .bind (matches_argument hi "\\sqrt" t) fun _ _ => .pure

include hverbatim in
theorem matches_hook {follows : Bool} {hook : ReadingHook} (h : Readers.Standard follows trigger hook)
    (hs : Behind env trigger s) (lhs : Option Expression) :
    Matches env [] s (run env inner (hook lhs)) := by
  cases h with
  | unaryPlus => exact .bind (hi.expression _ s) fun _ _ => .pure
  | power => exact matches_script hi _ _ lhs s
  | subscript => exact matches_script hi _ _ lhs s
  | squareRoot => exact matches_squareRoot hi lhs s
  | operatorname =>
    exact absurd hs (not_behind_of_withoutVerbatim hverbatim "operatorname" (by decide))
  | mathrm => exact absurd hs (not_behind_of_withoutVerbatim hverbatim "mathrm" (by decide))
  | text => exact absurd hs (not_behind_of_withoutVerbatim hverbatim "text" (by decide))
  | placeholder =>
    exact absurd hs (not_behind_of_withoutVerbatim hverbatim "placeholder" (by decide))
  | infinity => exact .pure

/-- Between the delimiters of a notation; `owed` is what the closing one settles. -/
theorem matches_enclosed {close : String} {owed : List Delimiter}
    (hclose : ∀ t : State, env.Has (t.current env) → (t.current env).trigger? = some close →
      Matched owed t (t.forward 1)) (s : State) :
    Matches env owed s (enclosed env inner close) := by
  refine .bind (.awaiting (hi.expression .loosest)) fun body t => .current fun hhas => ?_
  dsimp only
  refine .ite (fun htrigger => ?_) fun _ => .recordHere fun _ => .pure
  exact Yields.advance (.pure (hclose t hhas (eq_of_beq htrigger)))

theorem matches_prefixed (n : Notation) (s : State) : Matches env [] s (prefixed env inner n) := by
  refine .bind (hi.expression _ s) fun operand t => ?_
  dsimp only
  exact .ite (fun _ => .recordHere fun _ => .pure) fun _ => .pure

theorem matches_bracketPair (hn : BracketPair n) (s : State) :
    Matches env [.bracket] s (applyNotation env inner n) := by
  obtain ⟨-, hreader, hkind⟩ := hn
  unfold applyNotation
  rw [Option.isNone_iff_eq_none.mp hreader, hkind]
  refine .followed (matches_enclosed hi (fun t hhas ht => ?_) s) fun _ _ => .pure
  exact .closing (Token.closes?_of_trigger? (hhas.mem_of_trigger ht) ht) (.refl _)

include hverbatim in
theorem matches_applyNotation (hn : n ∈ Dictionary.standardEntries)
    (htrigger : n.trigger = some trigger) (hplain : Undelimited n) (hs : Behind env trigger s) :
    Matches env [] s (applyNotation env inner n) := by
  unfold applyNotation
  split
  · next hook hreader =>
    have hhook := Dictionary.standard_of_reader_eq hn htrigger hreader
    exact .bind (matches_hook hi hverbatim hhook hs none) fun _ _ => .pure
  · split
    · exact .pure
    · exact .bind (matches_prefixed hi n s) fun _ _ => .pure
    · next close hkind =>
      have hclose : close ∉ delimiterTriggers := fun hmem => hplain.2 close hmem hkind
      refine .bind (matches_enclosed hi (fun t _ ht => ?_) s) fun _ _ => .pure
      exact .advance (isPlain_of_trigger? ht hclose) (.refl _)
    · exact .bind (matches_arguments hi _ _ s) fun _ _ => .pure
    · exact .bind (matches_functionArguments hi _ s) fun _ _ => .pure
    · exact .pure
    · exact .pure
    · exact .pure

include hverbatim in
theorem matches_firstNotation {notations : List Notation}
    (h : ∀ n ∈ notations, n ∈ Dictionary.standardEntries ∧ n.trigger = some trigger)
    (hhas : env.Has (s.current env)) (htrigger : (s.current env).trigger? = some trigger) :
    Matches env [] s (firstNotation env inner notations) := by
  induction notations with
  | nil => exact .pure
  | cons n rest ih =>
    obtain ⟨⟨hn, hat⟩, hrest⟩ := List.forall_mem_cons.mp h
    refine .attempt_orElse ?_ (ih hrest)
    -- only brackets are delimiters for a notation; all other triggers are plain
    rcases bracketPair_or_undelimited n hn with hbrackets | hplain
    · have hopen : (s.current env).trigger? = some "[" := by
        rw [htrigger, ← hat]
        exact hbrackets.1
      refine .opening (Token.opens?_of_trigger? (hhas.mem_of_trigger hopen) hopen) ?_
      exact matches_bracketPair hi hbrackets _
    · intro hs
      have hnone := isPlain_of_trigger? htrigger (hplain.1 trigger hat)
      exact Matches.advance hnone
        (matches_applyNotation hi hverbatim hn hat hplain (hs.behind htrigger)) hs

include hverbatim in
theorem matches_notated (hd : env.dictionary = .standard) (s : State) :
    Matches env [] s (notated env inner) := by
  refine .current fun hhas => ?_
  split
  · next trigger htrigger =>
    rw [hd]
    exact matches_firstNotation hi hverbatim (fun n => Dictionary.entry_of_mem_operands) hhas htrigger
  · exact .pure

end

/-! ### Operands -/

theorem matches_unknownLetter {token : Token} {c : Char} (h : (s.current env).kind = .letter c) :
    Matches env [] s (unknownLetter env token c) := by
  refine .advance (congrArg Token.Kind.isPlain h) ?_
  split
  · exact .pure
  · exact .pure
  · exact .pure
  · exact .recordAt fun _ => .pure

theorem exists_delimiter_of_groupClosing? {kind closing : Token.Kind} {close : String}
    (h : groupClosing? kind = some (close, closing)) :
    ∃ delimiter, kind.opens? = some delimiter ∧ closing.closes? = some delimiter := by
  unfold groupClosing? at h
  split at h
  · cases h
    exact ⟨.bracket, rfl, rfl⟩
  · cases h
    exact ⟨.brace, rfl, rfl⟩
  · cases h

section

variable (hi : inner.Matching env) (hverbatim : WithoutVerbatim env.source)
  (hd : env.dictionary = .standard)

include hi

theorem matches_unknownArguments (fuel stop : Nat) (s : State) :
    Matches env [] s (unknownArguments env inner fuel stop) := by
  induction fuel generalizing stop s with
  | zero => exact .pure
  | succ fuel ih =>
    refine .current fun _ => ?_
    split
    · exact .pure
    · next close closing hgroup =>
      obtain ⟨delimiter, hopen, hclose⟩ := exists_delimiter_of_groupClosing? hgroup
      refine .opening hopen (.bind (.awaiting (hi.expression .loosest)) fun body t => ?_)
      refine .current fun _ => .ite (fun hkind => ?_) fun _ => .recordHere fun _ => .pure
      refine .closing ?_ (.bind (ih _ _) fun _ _ => .pure)
      rw [eq_of_beq hkind]
      exact hclose

theorem matches_unknownCommand {token : Token} {name : String}
    (h : (s.current env).kind = .command name) :
    Matches env [] s (unknownCommand env inner token name) := by
  -- the groups are read or not, and all else is the same
  refine .advance (congrArg Token.Kind.isPlain h)
    (.ite (fun _ => .get fun _ => .bind (matches_unknownArguments hi _ _ _) ?_) fun _ => .bind .pure ?_)
  all_goals
    intro read t
    split
    · exact .pure
    · exact .record fun _ => .pure
    · exact .record fun _ => .ite (fun _ => .pure) fun _ => .pure

theorem matches_unknown (s : State) : Matches env [] s (unknown env inner) := by
  refine .current fun _ => ?_
  split
  · next hkind => exact matches_unknownLetter hkind
  · next hkind => exact matches_unknownCommand hi hkind
  · exact matches_unexpected fun _ _ => .pure

include hverbatim hd

theorem matches_operandWithin (fuel : Nat) (s : State) :
    Matches env [] s (operandWithin env inner fuel) := by
  induction fuel generalizing s with
  | zero => exact .pure
  | succ fuel ih =>
    refine .skipSpacing fun t => .atTerminator (.ite (fun _ => .pure) fun _ => ?_)
    refine .orElse (.orElse (matches_builtin hi hverbatim t) (matches_notated hi hverbatim hd)) ?_
    intro u
    refine .bind (m := atOperator env) (.current fun _ => .pure) fun operator v => ?_
    exact .ite (fun _ => .pure) fun _ => .orElse (matches_unknown hi v) ih

theorem matches_operand (s : State) : Matches env [] s (operand env inner) :=
  .get fun _ => matches_operandWithin hi hverbatim hd _ s

/-! ### Expressions -/

omit hd in
theorem matches_applyOperator (hn : n ∈ Dictionary.standardEntries)
    (htrigger : n.trigger = some trigger) (hs : Behind env trigger s) (lhs : Expression)
    (chained : Option String) : Matches env [] s (applyOperator env inner n lhs chained) := by
  unfold applyOperator
  split
  · next hook hreader =>
    have hhook := Dictionary.standard_of_reader_eq hn htrigger hreader
    exact matches_hook hi hverbatim hhook hs (some lhs)
  · split
    · exact .pure
    · refine .bind (hi.expression _ s) fun rhs t => ?_
      dsimp only
      exact .ite (fun _ => .recordHere fun _ => .pure) fun _ => .pure
    · exact .pure

omit hd in
theorem matches_firstOperator {notations : List Notation}
    (h : ∀ n ∈ notations, (n ∈ Dictionary.standardEntries ∧ n.trigger = some trigger) ∧
      n.followsOperand)
    (htrigger : (s.current env).trigger? = some trigger) (lhs : Expression) (chained : Option String) :
    Matches env [] s (firstOperator env inner lhs chained notations) := by
  induction notations with
  | nil => exact .pure
  | cons n rest ih =>
    obtain ⟨⟨⟨hn, hat⟩, hfollows⟩, hrest⟩ := List.forall_mem_cons.mp h
    have hplain : trigger ∉ delimiterTriggers := by
      rcases bracketPair_or_undelimited n hn with hbrackets | hplain
      · rw [Notation.followsOperand, hbrackets.2.2] at hfollows
        cases hfollows
      · exact hplain.1 trigger hat
    refine .attempt_orElse (fun hs => ?_) (ih hrest)
    refine Matches.advance (isPlain_of_trigger? htrigger hplain) ?_ hs
    exact .bind (matches_applyOperator hi hverbatim hn hat (hs.behind htrigger) lhs chained)
      fun _ _ => .pure

theorem matches_chain (loosest : Precedence) (fuel : Nat) (lhs : Operand) (chained : Option String)
    (s : State) : Matches env [] s (chain env inner loosest fuel lhs chained) := by
  induction fuel generalizing s lhs chained with
  | zero => exact .pure
  | succ fuel ih =>
    refine .skipSpacing fun t => .atTerminator (.ite (fun _ => .pure) fun _ => ?_)
    refine .current fun _ => .ite (fun happlied => ?_) fun _ => ?_
    · have hopen := (Bool.and_eq_true_iff.mp happlied).2
      exact .bind (matches_delimitedArguments hi hopen) fun _ u => ih _ _ u
    · split
      · next trigger htrigger =>
        have hnext := (Option.filter_eq_some_iff.mp htrigger).1
        refine .bind ?_ fun applied u => ?_
        · exact matches_firstOperator hi hverbatim (entry_of_mem_candidates hd) hnext _ _
        split
        · exact ih _ _ u
        · exact .pure
      · refine .ite (fun _ => .pure) fun _ => .get fun _ => ?_
        refine .bind (hi.expression _ _) fun factor u => .get fun _ => ?_
        exact .ite (fun _ => .pure) fun _ => ih _ _ u

theorem matches_expressionAt (loosest : Precedence) (s : State) :
    Matches env [] s (expressionAt env inner loosest) := by
  refine .bind (matches_operand hi hverbatim hd s) fun o t => ?_
  split
  · exact .get fun _ => matches_chain hi hverbatim hd _ _ _ _ t
  · refine .current fun _ => ?_
    split
    · refine .atTerminator (.ite (fun _ => .pure) fun _ => .recordAt fun u => .get fun _ => ?_)
      exact matches_chain hi hverbatim hd _ _ _ _ u
    · exact .pure

end

/-! ### Whole sources -/

theorem matching_nested (hverbatim : WithoutVerbatim env.source) (hd : env.dictionary = .standard)
    (levels : Nat) : (nested env levels).Matching env := by
  induction levels with
  | zero => exact ⟨fun _ _ => .throw, fun _ => .throw⟩
  | succ levels ih =>
    exact ⟨matches_expressionAt ih hverbatim hd, fun s => .map (matches_operand ih hverbatim hd s)⟩

/-- Where all is read that there is, it is balanced. What cannot be read is reported. -/
theorem yields_parts_balanced (hverbatim : WithoutVerbatim env.source)
    (hd : env.dictionary = .standard) (fuel : Nat) (s : State) :
    Yields env [] (fun _ _ => Balanced s.rest) s
      (parts env (nested env env.options.maxDepth) (fuel + 1)) := by
  refine .bind ((matching_nested hverbatim hd _).expression .loosest s) fun e t => .get fun _ => ?_
  refine .ite (fun hend => .pure fun hread => ?_) fun _ => .current fun _ => ?_
  · rw [Token.balanced_iff_closes]
    have hnil := hread []
    rw [List.isEmpty_iff.mp hend] at hnil
    exact hnil.symm
  · exact .bind (reported_unexpected _ t) fun _ u => .bind (yields_parts hd fuel u) fun _ _ =>
      .pure fun _ hreported => hreported.elim

/-- A source without verbatim commands that is parsed without diagnostics has balanced delimiters. -/
theorem balanced_of_parse {options : ParseOptions} {source : String} {p : Parsed}
    (h : parse .standard options source = .ok p) (hclean : p.diagnostics = [])
    (hverbatim : WithoutVerbatim source) : Balanced (Token.ofSource source) := by
  have hroot : Yields ⟨source, .standard, options⟩ [] (fun _ _ => Balanced (Token.meaningful source))
      (.ofSource source) (rootNested ⟨source, .standard, options⟩) :=
    .get fun _ => .bind (yields_parts_balanced hverbatim rfl _ _) fun _ _ => .pure id
  obtain ⟨t, hruns, hdiagnostics⟩ := runs_rootNested_of_parse h
  have hend := (hroot (.suffix List.suffix_rfl) _ t hruns).2.2
  rw [List.reverse_eq_nil_iff.mp (hdiagnostics.symm.trans hclean)] at hend
  exact Token.balanced_meaningful_iff.mp (hend (List.Subset.refl _))

theorem balanced_of_parse_power :
    ∃ p, parse .standard {} "[(x+1)^\x7b2\x7d]" = .ok p ∧ p.diagnostics = [] ∧
      WithoutVerbatim "[(x+1)^\x7b2\x7d]" ∧ Balanced (Token.ofSource "[(x+1)^\x7b2\x7d]") := by
  obtain ⟨p, hp, hempty⟩ := exists_eq_ok_of_any (show
    (parse .standard {} "[(x+1)^\x7b2\x7d]").toOption.any (·.diagnostics.isEmpty) = true by
      decide +kernel)
  have hclean := List.isEmpty_iff.mp hempty
  have hverbatim : WithoutVerbatim "[(x+1)^\x7b2\x7d]" := by decide +kernel
  exact ⟨p, hp, hclean, hverbatim, balanced_of_parse hp hclean hverbatim⟩

end TexFormula.Parser
