import TexFormula.Proofs.Outcome
import TexFormula.Proofs.ParsedTrees.Expression

/-!
# Error nodes and diagnostics

Where a source has no identifiers, every error node of the tree that it is parsed as is reported by a
diagnostic with its code and its text (`exists_reports_of_parse`).

Identifiers can be named `Error`, too, and letters that the options turn into errors are reported by
warnings. These are the only error nodes beside which no error is reported (`errorCode?_of_parse`).
-/

namespace TexFormula

namespace Parser

variable {source : String} {options : ParseOptions} {p : Parsed} {n : Expression}
  {code literal : String}

/-- The diagnostic reports an error node of the source. One of an unknown command points at the text of
the node, the others hold it. -/
structure Reports (source code literal : String) (d : Diagnostic) : Prop where
  same : d.code = code
  points : code = Problem.Cause.unknownCommand.code →
    ∃ span, d.span = some span ∧ Text.slice source span.offset (span.offset + span.length) = literal
  holds : code = Problem.Cause.unexpectedToken.code ∨ code = Problem.Cause.unknownSymbol.code →
    d.problem.text = literal

/-- The text under a span, also under an empty one. -/
theorem slice_between (source : String) (start stop : Nat) :
    Text.slice source start (start + (stop - start)) = Text.slice source start stop := by
  rcases Nat.le_total start stop with hle | hle
  · rw [Nat.add_sub_cancel' hle]
  · rcases Nat.eq_or_lt_of_le hle with rfl | hlt
    · rw [Nat.sub_self, Nat.add_zero]
    · have hempty : Text.slice? source.toList start stop = none := if_neg (Nat.not_le_of_lt hlt)
      rw [Nat.sub_eq_zero_of_le hle, Nat.add_zero, Text.slice, Text.slice, hempty, Text.slice?,
        if_pos (Nat.le_refl start), Nat.sub_self]
      cases Text.splitAt? source.toList start with
      | none => rfl
      | some parts =>
        rw [Option.bind_some]
        cases parts.2 <;> rfl

theorem Reported.exists_reports {env : Env} {found : List Diagnostic}
    (h : Reported env found code literal) : ∃ d ∈ found, Reports env.source code literal d := by
  cases h with
  | unexpectedToken hd => exact ⟨_, hd, rfl, fun h => absurd h (by decide), fun _ => rfl⟩
  | unknownSymbol _ hd => exact ⟨_, hd, rfl, fun h => absurd h (by decide), fun _ => rfl⟩
  | @unknownCommand command start stop _ hd =>
    refine ⟨_, hd, rfl, fun _ => ⟨_, rfl, slice_between env.source start stop⟩, fun hother => ?_⟩
    exact absurd hother (by decide)

/-- Without identifiers, every error node of the tree of a source is reported. -/
theorem exists_reports_of_parse (h : parse .standard options source = .ok p)
    (hcommands : ∀ t ∈ Token.ofSource source, ¬t.isCommand "operatorname" ∧ ¬t.isCommand "mathrm")
    (hn : (Expression.error code literal).NodeOf p.expression) :
    ∃ d ∈ p.diagnostics, Reports source code literal d := by
  have hidentifies : ¬Identifies source "Error" := by
    rintro ⟨command, _, _, _, hsuffix, hcommand, -⟩
    have hmem := List.mem_of_mem_filter (hsuffix.mem List.mem_cons_self)
    obtain ⟨hoperatorname, hmathrm⟩ := hcommands command hmem
    exact hcommand.elim hoperatorname hmathrm
  rcases (tree_of_parse h).of_nodeOf hn with htree | hhead
  · rcases htree.of_headName?_error rfl with hname | ⟨code', literal', heq, hreported⟩
    · exact absurd hname hidentifies
    · cases heq
      exact hreported.exists_reports
  · cases hhead

/-- The expression is the error node for a text. -/
def isErrorNode (code literal : String) : Expression → Bool
  | .apply (.symbol error) [.apply (.symbol latex) [.text content], .text name] =>
    (error, latex, content, name) == ("Error", "LatexString", literal, code)
  | _ => false

theorem eq_error_of_isErrorNode (h : isErrorNode code literal n = true) : n = .error code literal := by
  unfold isErrorNode at h
  split at h
  · cases eq_of_beq h
    rfl
  · cases h

theorem exists_reports_of_parse_unknown :
    ∃ p, parse .standard {} "\\foo" = .ok p ∧
      (∀ t ∈ Token.ofSource "\\foo", ¬t.isCommand "operatorname" ∧ ¬t.isCommand "mathrm") ∧
      (Expression.error "unknown-command" "\\foo").NodeOf p.expression ∧
      ∃ d ∈ p.diagnostics, Reports "\\foo" "unknown-command" "\\foo" d := by
  obtain ⟨p, hp, hnode⟩ := exists_eq_ok_of_any (show
    (parse .standard {} "\\foo").toOption.any (fun p =>
      isErrorNode "unknown-command" "\\foo" p.expression) = true by decide +kernel)
  have hcommands : ∀ t ∈ Token.ofSource "\\foo",
      ¬t.isCommand "operatorname" ∧ ¬t.isCommand "mathrm" := by decide +kernel
  have hn : (Expression.error "unknown-command" "\\foo").NodeOf p.expression :=
    eq_error_of_isErrorNode hnode ▸ .self
  exact ⟨p, hp, hcommands, hn, exists_reports_of_parse hp hcommands hn⟩

/-- Where no error is reported, the error nodes of a tree are applications of an identifier that the
source names `Error`, and letters that the options turn into errors, which are reported by
warnings. -/
theorem errorCode?_of_parse (h : parse .standard options source = .ok p) (hclean : p.hasErrors = false)
    (hn : n.NodeOf p.expression) (hcode : n.errorCode? = some code) :
    (Identifies source "Error" ∧ n.headName? = some "Error") ∨
      ∃ c, n = .error Problem.Cause.unknownSymbol.code (String.singleton c) ∧
        options.unknownTokens.disposition (String.singleton c) = .error ∧
        ∃ d ∈ p.diagnostics, d.problem = ⟨.unknownSymbol, String.singleton c⟩ := by
  have hname : n.headName? = some "Error" := by
    unfold Expression.errorCode? at hcode
    split at hcode
    · assumption
    · cases hcode
  have hnone {d : Diagnostic} (hd : d ∈ p.diagnostics) : ¬d.isError :=
    List.any_eq_false.mp hclean d hd
  rcases (tree_of_parse h).of_nodeOf hn with htree | hhead
  · rcases htree.of_headName?_error hname with hidentifies | ⟨code', literal, rfl, hreported⟩
    · exact .inl ⟨hidentifies, hname⟩
    · cases hreported with
      | unexpectedToken hd => exact absurd rfl (hnone hd)
      | unknownCommand _ hd => exact absurd rfl (hnone hd)
      | @unknownSymbol c _ hpolicy hd => exact .inr ⟨c, rfl, hpolicy, _, hd, rfl⟩
  · cases hhead
    cases hname

/-- Every unknown token becomes an error node. -/
def allErrors : ParseOptions :=
  { unknownTokens := .always .error }

theorem exists_cleanError {source code : String} {options : ParseOptions}
    (h : (parse .standard options source).toOption.any (fun p => p.hasErrors == false &&
      p.expression.errorCode? == some code) = true) :
    ∃ p, parse .standard options source = .ok p ∧ p.hasErrors = false ∧
      p.expression.errorCode? = some code := by
  obtain ⟨p, hp, htest⟩ := exists_eq_ok_of_any h
  obtain ⟨hclean, hcode⟩ := Bool.and_eq_true_iff.mp htest
  exact ⟨p, hp, eq_of_beq hclean, eq_of_beq hcode⟩

theorem errorCode?_of_parse_letter :
    ∃ p, parse .standard allErrors "x" = .ok p ∧ p.hasErrors = false ∧
      p.expression.errorCode? = some "unknown-symbol" ∧
      ((Identifies "x" "Error" ∧ p.expression.headName? = some "Error") ∨
        ∃ c, p.expression = .error Problem.Cause.unknownSymbol.code (String.singleton c) ∧
          allErrors.unknownTokens.disposition (String.singleton c) = .error ∧
          ∃ d ∈ p.diagnostics, d.problem = ⟨.unknownSymbol, String.singleton c⟩) := by
  obtain ⟨p, hp, hclean, hcode⟩ := exists_cleanError (show
    (parse .standard allErrors "x").toOption.any (fun p => p.hasErrors == false &&
      p.expression.errorCode? == some "unknown-symbol") = true by decide +kernel)
  exact ⟨p, hp, hclean, hcode, errorCode?_of_parse hp hclean .self hcode⟩

/-- Error nodes beside which no error is reported: of a letter, and under a name in the source. -/
theorem not_errorCode?_eq_none_of_parse :
    (∃ p, parse .standard allErrors "x" = .ok p ∧ p.hasErrors = false ∧
      p.expression.errorCode? = some "unknown-symbol") ∧
    ∃ p, parse .standard {} "\\operatorname\x7bError\x7d(\\text\x7ba\x7d)" = .ok p ∧
      p.hasErrors = false ∧ p.expression.errorCode? = some "a" :=
  ⟨exists_cleanError (by decide +kernel), exists_cleanError (by decide +kernel)⟩

end Parser

end TexFormula
