import TexFormula.Proofs.Arithmetic.Units
import TexFormula.Proofs.VerbatimText
import TexFormula.Serializer

/-!
# Texts read back

`parse_run_text_iff`: a text is read back as it is, without diagnostics, just if each comment in it
ends before the text does. A percent sign is written as it is, and the comment that it starts hides
what follows up to the end of the line. Where that is the end of the text it hides the closing
brace, too.
-/

open TexFormula.Parser

namespace TexFormula

open Text (escapeChars)

/-- What is written for a text. -/
def Text.command (t : String) : String :=
  "\\text" ++ braced (escape t)

theorem Serializer.run_text (t : String) :
    run ⟨.standard, {}⟩ (.text t) = .ok ⟨Text.command t, []⟩ := rfl

theorem Token.laid_closing (offset : Nat) :
    laid offset ['}'] = [⟨.groupClose, offset, offset + 1⟩] :=
  (laid_cons rfl rfl offset).trans (congrArg _ (laid_nil _))

namespace Text

variable {t : String}

theorem toList_command (t : String) :
    (command t).toList = "\\text".toList ++ '{' :: (escapeChars t.toList ++ ['}']) := by
  simp [command, braced, escape]

theorem meaningful_command (t : String) :
    Token.meaningful (command t) = ⟨.command "text", 0, 5⟩ :: ⟨.groupOpen, 5, 6⟩ ::
      Token.laid 6 (escapeChars t.toList ++ ['}']) := by
  have hword : Lexeme.read '\\' ("text".toList ++ '{' :: (escapeChars t.toList ++ ['}'])) =
      ⟨.command "text", "\\text".toList, '{' :: (escapeChars t.toList ++ ['}'])⟩ := rfl
  show Token.laid 0 (command t).toList = _
  rw [toList_command]
  show Token.laid 0 ('\\' :: ("text".toList ++ '{' :: (escapeChars t.toList ++ ['}']))) = _
  rw [Token.laid_cons hword rfl, Token.laid_cons rfl rfl]
  rfl

/-- The source between the braces. -/
theorem slice_command (t : String) :
    slice (command t) 6 (6 + byteLength (escapeChars t.toList)) = escape t := by
  have hslice : slice? (command t).toList 6 (6 + byteLength (escapeChars t.toList)) =
      some (escapeChars t.toList) := by
    refine slice?_eq_some_iff.mpr ⟨"\\text\x7b".toList, ['}'], ?_, rfl, rfl⟩
    rw [toList_command]
    rfl
  rw [slice, hslice, Option.getD_some, escape]

end Text

namespace Parser

variable {env : Env} {inner : Inner} {s s' : State} {t opening : Token} {rest : List Token}
  {raw : String}

/-- A text command is read as what the group behind it stands for. -/
theorem runs_operand_of_text (hdictionary : env.dictionary = .standard)
    (hs : s.rest = t :: opening :: rest) (ht : t.kind = .command "text")
    (hopening : opening.kind = .groupOpen) (hclosers : s.Delimited)
    (h : Runs (rawGroup env) (s.forward 1) (some raw) s') :
    Runs (operand env inner) s (some { expression := .text (Text.unescape raw) }) s' := by
  have hfree : Free t.kind := by rw [ht]; decide
  have htrigger : t.trigger? = some "\\text" := by rw [Token.trigger?, ht]; rfl
  have hoperands : env.dictionary.operands "\\text" =
      [.ofReader "Text" "\\text" Readers.text] := by
    rw [hdictionary]
    rfl
  have hbuiltin : Runs (builtin env inner) s none s := by
    refine runs_builtin_of_free hs hfree ?_ ?_ <;>
      refine startsNumber_eq_false_of_kind ?_ ?_ <;> simp [ht, hopening]
  refine runs_operand_notated hs hfree.continues hclosers hbuiltin htrigger hoperands ?_
  exact Runs.bind (h.bind (.pure _ _)) (.pure _ _)

end Parser

/-! ### The two ways a text is read -/

section

variable {t : String}

theorem rest_behind_command (t : String) : ((State.ofSource (Text.command t)).forward 1).rest =
    ⟨.groupOpen, 5, 6⟩ :: Token.laid 6 (escapeChars t.toList ++ ['}']) := by
  rw [State.rest_forward]
  exact congrArg (List.drop 1) (Text.meaningful_command t)

theorem parse_command_of_runs {raw : String} {s : State}
    (h : Runs (rawGroup ⟨Text.command t, .standard, {}⟩)
      ((State.ofSource (Text.command t)).forward 1) (some raw) s) (hend : s.rest = []) :
    parse .standard {} (Text.command t) = .ok ⟨.text (Text.unescape raw), s.diagnostics.reverse⟩ := by
  have hs : (State.ofSource (Text.command t)).rest = _ := Text.meaningful_command t
  have hoperand (inner : Inner) := @runs_operand_of_text _ inner _ _ _ _ _ _ rfl hs rfl rfl nofun h
  exact parse_eq_of_runs_expression rfl rfl
    ((leadsTo_of_operand (hoperand _)).runs (stops_of_nil hend)) hend

/-- Where all comments end, the group is closed by its own brace. -/
theorem parse_command_of_endsComments (h : Text.endsComments t.toList = true) :
    parse .standard {} (Text.command t) = .ok ⟨.text t, []⟩ := by
  obtain ⟨ts, hts, hlaid⟩ := Spells.escapeChars h 6 ['}'] (.of_not rfl rfl _ _)
  have hs := rest_behind_command t
  rw [hlaid, Token.laid_closing] at hs
  have hruns : Runs (rawGroup ⟨Text.command t, .standard, {}⟩) _ _ _ := runs_rawGroup hs rfl hts rfl
  have hend : (((State.ofSource (Text.command t)).forward 1).forward (ts.length + 2)).rest = [] := by
    rw [State.rest_forward, hs]
    simp
  have hparse := parse_command_of_runs hruns hend
  rw [State.diagnostics_forward, State.diagnostics_forward] at hparse
  rw [hparse]
  show Except.ok (Parsed.mk (.text (Text.unescape (Text.slice _ 6 _))) []) = _
  rw [Text.slice_command, Text.escape, Text.unescape, String.toList_ofList,
    Text.unescapeChars_escapeChars, String.ofList_toList]

/-- A comment that does not end hides the closing brace. -/
theorem parse_command_of_not_endsComments (h : Text.endsComments t.toList = false) :
    ∃ e found, parse .standard {} (Text.command t) = .ok ⟨e, [found]⟩ := by
  obtain ⟨as, bs, ht, has, hbs⟩ := Text.exists_comment_of_not_endsComments h
  have hhidden : '\n' ∉ escapeChars bs ++ ['}'] := by
    simp [Text.not_mem_escapeChars (show '\n' ∉ "\\backslash {}".toList by decide) hbs]
  obtain ⟨ts, hts, hlaid⟩ := Spells.escapeChars has 6 ('%' :: (escapeChars bs ++ ['}']))
    (.of_not rfl rfl _ _)
  rw [Token.laid_comment_of_not_mem hhidden, List.append_nil] at hlaid
  have hs := rest_behind_command t
  rw [ht, Text.escapeChars_append, Text.escapeChars_cons, List.append_assoc] at hs
  have hruns : Runs (rawGroup ⟨Text.command t, .standard, {}⟩) _ _ _ :=
    runs_rawGroup_of_unclosed (hs.trans (congrArg _ hlaid)) rfl hts
  have hend : (((State.ofSource (Text.command t)).forward 1).forward (ts.length + 1)).rest = [] := by
    rw [State.rest_forward, hs.trans (congrArg _ hlaid)]
    simp
  have hparse := parse_command_of_runs hruns hend
  rw [State.record, State.diagnostics_forward, State.diagnostics_forward] at hparse
  exact ⟨_, _, hparse⟩

end

theorem parse_run_text_iff (t : String) : ∃ latex,
    Serializer.run ⟨.standard, {}⟩ (.text t) = .ok ⟨latex, []⟩ ∧
      (parse .standard {} latex = .ok ⟨.text t, []⟩ ↔ Text.endsComments t.toList = true) := by
  refine ⟨_, Serializer.run_text t, fun hparse => ?_, parse_command_of_endsComments⟩
  cases h : Text.endsComments t.toList with
  | true => rfl
  | false =>
    obtain ⟨e, found, hfound⟩ := parse_command_of_not_endsComments h
    rw [hfound] at hparse
    cases hparse

/-- A percent sign alone is not read back. -/
theorem not_parse_run_text_percent : ∃ latex,
    Serializer.run ⟨.standard, {}⟩ (.text "%") = .ok ⟨latex, []⟩ ∧
      parse .standard {} latex ≠ .ok ⟨.text "%", []⟩ := by
  refine ⟨_, Serializer.run_text _, fun hparse => ?_⟩
  obtain ⟨e, found, hfound⟩ := parse_command_of_not_endsComments (t := "%") (by decide)
  rw [hfound] at hparse
  cases hparse

end TexFormula
