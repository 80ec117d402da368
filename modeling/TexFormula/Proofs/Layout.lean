import TexFormula.MathJson
import TexFormula.Proofs.NestingLimit
import TexFormula.Proofs.ResolvedNotations
import TexFormula.Proofs.SideBySide.Source

/-!
# The layout of a source does not matter

Blanks and comments can be changed without an effect on what is read (`parse_of_laidOutAlike`), with
three exceptions. Groups of digits are told by whether their tokens touch; the group behind a name or
a running text is read as it stands, whatever trigger the notation is filed under
(`not_parse_of_laidOutAlike_textAlias`); and so it is shown for an unknown command.
-/

namespace TexFormula

/-- No token is a trigger of a notation that reads the source text of a group. -/
def Dictionary.ReadsNoText (d : Dictionary) (source : String) : Prop :=
  ∀ t ∈ Token.meaningful source, ∀ trigger, t.trigger? = some trigger → ∀ n ∈ d.readAt trigger,
    n.reader ≠ some Readers.identifier ∧ n.reader ≠ some Readers.text

/-! ### Texts in the standard notations -/

/-- What a program asks for first. -/
def Reading.firstRequest? {α : Type} : Reading α → Option Request
  | .ask request _ => some request
  | _ => none

theorem Readers.Standard.trigger_of_rawGroup {follows : Bool} {trigger : String} {hook : ReadingHook}
    (h : Standard follows trigger hook) (hraw : (hook none).firstRequest? = some .rawGroup) :
    trigger ∈ ["\\operatorname", "\\mathrm", "\\text"] := by
  cases h with
  | operatorname | mathrm | text => simp
  | unaryPlus | power | subscript | squareRoot | placeholder | infinity => cases hraw

/-- In the standard notations texts are read at three commands alone. -/
theorem readsNoText_standard {source : String}
    (h : ∀ t ∈ Token.meaningful source,
      t.trigger? ∉ [some "\\operatorname", some "\\mathrm", some "\\text"]) :
    Dictionary.standard.ReadsNoText source := by
  intro t ht trigger htrigger n hn
  obtain ⟨hmem, hat⟩ := Dictionary.trigger_of_mem_readAt Dictionary.aliasOf_standardEntries hn
  have hnot (hook : ReadingHook) (hraw : (hook none).firstRequest? = some .rawGroup) :
      n.reader ≠ some hook := by
    intro hreader
    have hcommand := (Dictionary.standard_of_reader_eq hmem hat hreader).trigger_of_rawGroup hraw
    refine h t ht ?_
    simpa [htrigger] using hcommand
  exact ⟨hnot _ rfl, hnot _ rfl⟩

/-! ### Two layouts -/

/-- The same fault, or the same problems and, if no command was unknown, the same expression. -/
inductive SameOutcome : Except Fault Parsed → Except Fault Parsed → Prop
  | fault (fault : Fault) : SameOutcome (.error fault) (.error fault)
  | parsed {p p' : Parsed}
      (problems : p'.diagnostics.map (·.problem) = p.diagnostics.map (·.problem))
      (expression : (∀ d ∈ p.diagnostics, d.problem.cause ≠ .unknownCommand) →
        p'.expression = p.expression) :
      SameOutcome (.ok p) (.ok p')

/-- Sources with the same tokens are read alike if the tokens at runs of digits touch alike and no
group is read as it stands. -/
theorem parse_of_laidOutAlike {d : Dictionary} (hd : d.HasStandardHooks) (options : ParseOptions)
    {source source' : String} (h : Token.LaidOutAlike source source')
    (htext : d.ReadsNoText source) :
    SameOutcome (parse d options source) (parse d options source') := by
  let w : Parser.SideBySide :=
    { left := ⟨source, d, options⟩
      right := ⟨source', d, options⟩
      exact := False
      options := rfl
      source := False.elim }
  have hknown : ∀ t ∈ Token.meaningful source, ∀ trigger, t.trigger? = some trigger →
      w.Known trigger := fun t ht trigger htrigger =>
    { readAt := rfl
      admits := fun n hn hook hhook => by
        have hnot := htext t ht trigger htrigger n hn
        rw [hhook] at hnot
        refine .of_standard (hd n (Dictionary.mem_entries_of_mem_readAt hn) hook hhook) (.inr ?_)
        exact ⟨fun heq => hnot.1 (by rw [heq]), fun heq => hnot.2 (by rw [heq])⟩ }
  have hs : w.Alike (.ofSource source) (.ofSource source') :=
    Parser.SideBySide.alike_ofSource (w := w) h hknown
  rcases Parser.SideBySide.parse_alike hs with
    ⟨e, t, e', t', ht, he, hleft, hright⟩ | ⟨fault, hleft, hright⟩
  · rw [show parse d options source = _ from hleft, show parse d options source' = _ from hright]
    refine .parsed ?_ fun hcause => he (.inr fun x hx => hcause x (List.mem_reverse.mpr hx))
    simp only [List.map_reverse, ht.problems]
  · rw [show parse d options source = _ from hleft, show parse d options source' = _ from hright]
    exact .fault fault

theorem parse_of_laidOutAlike_fraction :
    Dictionary.standard.HasStandardHooks ∧
      Token.LaidOutAlike "\\frac12x ^2+ f ( x )% a comment" "\\frac12x^2+f(x)" ∧
      Dictionary.standard.ReadsNoText "\\frac12x ^2+ f ( x )% a comment" ∧
      SameOutcome (parse .standard {} "\\frac12x ^2+ f ( x )% a comment")
        (parse .standard {} "\\frac12x^2+f(x)") := by
  have h : Token.LaidOutAlike "\\frac12x ^2+ f ( x )% a comment" "\\frac12x^2+f(x)" :=
    ⟨by decide +kernel, by decide +kernel⟩
  have htext : Dictionary.standard.ReadsNoText "\\frac12x ^2+ f ( x )% a comment" :=
    readsNoText_standard (by decide +kernel)
  have hd := Dictionary.hasStandardHooks_standard
  exact ⟨hd, h, htext, parse_of_laidOutAlike hd {} h htext⟩

/-- Running text under a trigger of its own. -/
def Notation.textAlias : Notation :=
  (ofAlias "MyText" "Text").withTrigger "\\mytext"

/-- An alias of the running text reads it too. -/
theorem not_parse_of_laidOutAlike_textAlias :
    ∃ d, Dictionary.standard.withOverrides [.textAlias] = .ok d ∧ d.HasStandardHooks ∧
      Token.LaidOutAlike "\\mytext\x7ba b\x7d" "\\mytext\x7ba  b\x7d" ∧
      (∀ t ∈ Token.meaningful "\\mytext\x7ba b\x7d",
        t.kind ∉ [.command "operatorname", .command "mathrm", .command "text"]) ∧
      (parse d {} "\\mytext\x7ba b\x7d").toOption.map
          (fun p => ((MathJson.encode p.expression).compact, p.diagnostics.length)) =
        some ("\"'a b'\"", 0) ∧
      (parse d {} "\\mytext\x7ba  b\x7d").toOption.map
          (fun p => ((MathJson.encode p.expression).compact, p.diagnostics.length)) =
        some ("\"'a  b'\"", 0) := by
  refine ⟨⟨Dictionary.standardEntries ++ [.textAlias], [("MyText", "Text")]⟩, rfl, ?_, ⟨?_, ?_⟩, ?_,
    ?_, ?_⟩
  · intro n hn hook hhook
    rcases List.mem_append.mp hn with hn | hn
    · exact ⟨n, hn, hhook⟩
    · rw [List.mem_singleton.mp hn] at hhook
      cases hhook
  all_goals decide +kernel

end TexFormula
