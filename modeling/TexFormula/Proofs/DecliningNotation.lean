import TexFormula.Proofs.FreshNotations
import TexFormula.Proofs.Operations

/-!
# A notation that declines leaves no trace

A dictionary is extended by one notation of a new name whose hook reads what it likes and then
declines. If the notation can start an operand, or if it follows operands at a trigger where others
do so already, nothing that is read changes: `parse_of_declines`.
-/

namespace TexFormula

variable {d d' : Dictionary} {e : Notation} {options : ParseOptions} {source : String}

namespace Dictionary

/-- An idle notation of a new name is an idle extension. Where it follows operands, others must do so
already: an operator that is next ends operands and products, whether it declines or not. -/
theorem idleExtension_of_fresh (hd : ofList d.entries = .ok d) (hsteady : ∀ m ∈ d.entries, m.Steady)
    (hfresh : ∀ m ∈ d.entries, m.name ≠ e.name) (halias : e.aliasOf = none) (hidle : e.Idle)
    (hplace : e.followsOperand → ∃ trigger, e.trigger = some trigger ∧ d.hasOperator trigger)
    (h : d.withOverrides [e] = .ok d') : d.IdleExtension d' := by
  have hread (trigger : String) : d'.readAt trigger =
      (if !e.serializeOnly && e.trigger == some trigger then [e] else []) ++ d.readAt trigger := by
    have hextended : d.ExtendedBy [e] d' := ⟨hd, h, by simpa using hfresh⟩
    have he : d'.resolved e = some e := by
      rw [resolved, halias]
      rfl
    rw [hextended.readAt, List.reverse_singleton, List.filterMap_cons, he]
    cases !e.serializeOnly && e.trigger == some trigger with
    | false => rfl
    | true => rfl
  have hmem (p : Notation → Bool) (b : Bool) : ∀ n ∈ (if b then [e] else []).filter p, n.Idle := by
    intro n hn
    obtain ⟨hn, -⟩ := List.mem_filter.mp hn
    cases b with
    | false => cases hn
    | true =>
      rw [List.mem_singleton.mp hn]
      exact hidle
  constructor
  · intro trigger
    rw [operands, hread, List.filter_append]
    exact ⟨_, rfl, hmem _ _⟩
  · intro trigger
    rw [operators, hread, List.filter_append]
    exact ⟨_, rfl, hmem _ _⟩
  · intro trigger
    rw [hasOperator, operators, hread, List.filter_append]
    cases hfollows : e.followsOperand with
    | false =>
      cases !e.serializeOnly && e.trigger == some trigger with
      | false => rfl
      | true => rw [if_pos rfl, List.filter_singleton, hfollows]; rfl
    | true =>
      obtain ⟨own, hown, hoperator⟩ := hplace hfollows
      cases hat : !e.serializeOnly && e.trigger == some trigger with
      | false => rfl
      | true =>
        have heq : own = trigger := by
          rw [hown] at hat
          exact Option.some.inj (eq_of_beq (Bool.and_eq_true_iff.mp hat).2)
        rw [if_pos rfl, List.filter_singleton, hfollows, ← heq, hoperator]
        rfl
  · intro trigger n hn
    exact hsteady n (mem_entries_of_mem_readAt hn)

end Dictionary

section

variable {hook : ReadingHook} (hd : Dictionary.ofList d.entries = .ok d)
  (hentries : ∀ m ∈ d.entries, m ∈ Dictionary.standardEntries ∨ m.reader = none)
  (hfresh : ∀ m ∈ d.entries, m.name ≠ e.name) (halias : e.aliasOf = none)
  (hplace : e.kind = .custom ∨
    e.followsOperand ∧ ∃ trigger, e.trigger = some trigger ∧ d.hasOperator trigger)
  (hreader : e.reader = some hook) (hdeclines : ∀ lhs, (hook lhs).Declines)
  (h : d.withOverrides [e] = .ok d')

include hd hentries hfresh halias hplace hreader hdeclines h

theorem Dictionary.idleExtension_of_declines : d.IdleExtension d' := by
  have hsteady : ∀ m ∈ d.entries, m.Steady := by
    intro m hm
    rcases hentries m hm with hm | hm
    · exact Dictionary.steady_standardEntries m hm
    · exact .of_reader_eq_none hm
  have hidle : e.Idle := by
    refine ⟨?_, hook, hreader, hdeclines⟩
    rcases hplace with hkind | ⟨hfollows, -⟩
    · rw [Notation.isMatchfix, hkind]
    · unfold Notation.followsOperand at hfollows
      unfold Notation.isMatchfix
      split at hfollows
      · next hkind => rw [hkind]
      · next hkind => rw [hkind]
      · cases hfollows
  have hoperator : e.followsOperand →
      ∃ trigger, e.trigger = some trigger ∧ d.hasOperator trigger := by
    intro hfollows
    rcases hplace with hkind | ⟨-, hplace⟩
    · rw [Notation.followsOperand, hkind] at hfollows
      cases hfollows
    · exact hplace
  exact Dictionary.idleExtension_of_fresh hd hsteady hfresh halias hidle hoperator h

/-- Where the notation or any other is tried, it is taken back as if by a checkpoint of the place, the
diagnostics, the delimiters and the digit runs that have been cut, at every level of nesting. -/
theorem attempt_eq_restoring_of_declines (levels : Nat) {trigger : String} {n : Notation}
    (hn : n ∈ d'.readAt trigger) :
    let env : Parser.Env := ⟨source, d', options⟩
    let inner := Parser.within env levels
    let asOperand := do
      Parser.advance
      Parser.applyNotation env inner n
    let asOperator (lhs : Expression) (chained : Option String) := do
      Parser.advance
      return (← Parser.applyOperator env inner n lhs chained).map fun e => (e, n)
    Parser.attempt asOperand = Parser.restoring asOperand ∧
      ∀ lhs chained,
        Parser.attempt (asOperator lhs chained) = Parser.restoring (asOperator lhs chained) := by
  have hextension := Dictionary.idleExtension_of_declines hd hentries hfresh halias hplace hreader
    hdeclines h
  have hinners := @Parser.inners_keeps ⟨source, d', options⟩ hextension.abortsOnly levels
  exact ⟨Parser.Inners.attempt_applyNotation hextension.abortsOnly hinners hn,
    Parser.Inners.attempt_applyOperator hextension.abortsOnly hinners hn⟩

/-- A notation whose hook reads what it likes and then declines leaves no trace: with it every source
has the same tree and the same diagnostics as without it, at any number of levels that exceeds the
number of tokens. -/
theorem parse_of_declines (hdepth : (Token.meaningful source).length < options.maxDepth) :
    ∃ p, parse d' options source = .ok p ∧ parse d options source = .ok p :=
  Parser.parse_idleExtension (Dictionary.idleExtension_of_declines hd hentries hfresh halias hplace
    hreader hdeclines h) hdepth

end

/-- Reads an argument, which may cut a digit off a run, an expression and a group, reports a problem
and then declines. -/
def Readers.peek : ReadingHook := fun _ => do
  let _ ← Reading.argument "^"
  let _ ← Reading.expression .loosest
  let _ ← Reading.braceGroup
  Reading.report .expectedArgument "^"
  return none

/-- The superscript as `Readers.peek` would have it. -/
def Notation.peek : Notation :=
  (ofInfix "Peek" "^" .power).withReader Readers.peek

/-- A superscript of two digits is cut and put together again. -/
theorem parse_of_declines_peek :
    ∃ d', Dictionary.standard.withOverrides [.peek] = .ok d' ∧ ∃ p,
      parse d' {} "x^{12}+y^34" = .ok p ∧ parse .standard {} "x^{12}+y^34" = .ok p := by
  have hd : Dictionary.ofList Dictionary.standard.entries = .ok .standard := by rfl
  have h : Dictionary.standard.withOverrides [.peek] =
      .ok ⟨Dictionary.standardEntries ++ [.peek], []⟩ := by rfl
  have hall : Dictionary.standardEntries.all (·.name != Notation.peek.name) := by rfl
  have hfresh : ∀ m ∈ Dictionary.standard.entries, m.name ≠ Notation.peek.name :=
    fun m hm => bne_iff_ne.mp (List.all_eq_true.mp hall m hm)
  have hoperator : Dictionary.standard.hasOperator "^" := by rfl
  have hdeclines : ∀ lhs, (Readers.peek lhs).Declines :=
    fun _ => .ask fun _ => .ask fun _ => .ask fun _ => .ask fun _ => .done
  have hdepth : (Token.meaningful "x^{12}+y^34").length < ({} : ParseOptions).maxDepth := by
    decide +kernel
  exact ⟨_, h, parse_of_declines hd (fun m hm => .inl hm) hfresh rfl (.inr ⟨rfl, "^", rfl, hoperator⟩)
    rfl hdeclines h hdepth⟩

end TexFormula
