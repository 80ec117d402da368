import TexFormula.Proofs.BracedTexts
import TexFormula.Proofs.Identifiers
import TexFormula.Proofs.ParsedTrees.Expression
import TexFormula.Proofs.WriterLevels

/-!
# Names read back

A name without a glyph is written in braces behind a command as it is (`Text.spelledOut`), and read back
from the source between the braces, blanks left out. So it is read as itself just if it has no blanks
and fills its braces (`parse_symbol_iff`). No other group of its text is long enough to hold it
(`fillsBraces_of_identifies`).
-/

open TexFormula.Parser

namespace TexFormula

/-! ### Lengths of parts of a text -/

namespace Text

theorem byteLength_le_of_sublist {cs ds : List Char} (h : cs.Sublist ds) :
    byteLength cs ≤ byteLength ds := by
  induction h with
  | slnil => exact Nat.le_refl _
  | cons d _ ih => exact Nat.le_trans ih (Nat.le_add_left _ _)
  | cons_cons c _ ih => exact Nat.add_le_add_left ih _

theorem byteLength_withoutBlanks_le (cs : List Char) : byteLength (withoutBlanks cs) ≤ byteLength cs :=
  byteLength_le_of_sublist List.filter_sublist

/-- A slice has no more bytes than there are behind its start. -/
theorem byteLength_slice_le (source : String) (start stop : Nat) :
    byteLength (slice source start stop).toList ≤ byteLength source.toList - start := by
  rw [slice, String.toList_ofList]
  cases h : slice? source.toList start stop with
  | none => exact Nat.zero_le _
  | some bs =>
    obtain ⟨as, rest, hsource, hstart, -⟩ := slice?_eq_some_iff.mp h
    rw [hsource, Option.getD_some, byteLength_append, byteLength_append]
    omega

/-! ### Names in braces -/

/-- A name in braces behind the command for names. -/
def spelledOut (name : String) : String :=
  "\\operatorname" ++ braced name

variable {name : String} {cs rest : List Char}

theorem toList_spelledOut (name : String) :
    (spelledOut name).toList = "\\operatorname\x7b".toList ++ (name.toList ++ ['}']) := by
  simp [spelledOut, braced]

theorem meaningful_spelledOut (name : String) :
    Token.meaningful (spelledOut name) = ⟨.command "operatorname", 0, 13⟩ :: ⟨.groupOpen, 13, 14⟩ ::
      Token.laid 14 (name.toList ++ ['}']) := by
  have hword : Lexeme.read '\\' ("operatorname".toList ++ '{' :: (name.toList ++ ['}'])) =
      ⟨.command "operatorname", "\\operatorname".toList, '{' :: (name.toList ++ ['}'])⟩ := rfl
  show Token.laid 0 (spelledOut name).toList = _
  rw [toList_spelledOut]
  show Token.laid 0 ('\\' :: ("operatorname".toList ++ '{' :: (name.toList ++ ['}']))) = _
  rw [Token.laid_cons hword rfl, Token.laid_cons rfl rfl]
  rfl

/-- The source behind the brace that opens. -/
theorem slice_spelledOut (h : name.toList ++ ['}'] = cs ++ rest) :
    slice (spelledOut name) 14 (14 + byteLength cs) = String.ofList cs := by
  have hslice : slice? (spelledOut name).toList 14 (14 + byteLength cs) = some cs := by
    refine slice?_eq_some_iff.mpr ⟨"\\operatorname\x7b".toList, rest, ?_, rfl, rfl⟩
    rw [toList_spelledOut, h]
  rw [slice, hslice, Option.getD_some]

end Text

open Text (FillsBraces spelledOut withoutBlanks)

variable {name other : String}

/-! ### A name that fills its braces -/

/-- It is read without its blanks, unless there is nothing else. -/
theorem parse_spelledOut (hfills : FillsBraces name.toList) {c : Char} {cs : List Char}
    (hname : withoutBlanks name.toList = c :: cs) :
    parse .standard {} (spelledOut name) = .ok ⟨.symbol (String.ofList (c :: cs)), []⟩ := by
  have hs : (State.ofSource (spelledOut name)).rest = _ := Text.meaningful_spelledOut name
  obtain ⟨before, hlaid, hcount⟩ := Token.exists_closing_of_fillsBraces hfills 14
  have hbehind : ((State.ofSource (spelledOut name)).forward 1).rest =
      ⟨.groupOpen, 13, 14⟩ :: Token.laid 14 (name.toList ++ ['}']) := by
    rw [State.rest_forward, hs]
    rfl
  rw [hlaid] at hbehind hcount
  have hgroup : Runs (rawGroup ⟨spelledOut name, .standard, {}⟩) _ _ _ :=
    runs_rawGroup_of_closing? hbehind rfl hcount
  have hraw : Env.slice ⟨spelledOut name, .standard, {}⟩ 14 (14 + Text.byteLength name.toList) = name :=
    (Text.slice_spelledOut rfl).trans String.ofList_toList
  have hend :
      (((State.ofSource (spelledOut name)).forward 1).forward (before.length + 2)).rest = [] := by
    rw [State.rest_forward, hbehind]
    simp
  rw [hraw] at hgroup
  have hoperand (inner : Inner) : Runs (operand _ inner) _ _ _ :=
    runs_operand_of_operatorname rfl hs rfl nofun hname hgroup
  have hparse := parse_eq_of_runs_expression rfl rfl
    ((leadsTo_of_operand (hoperand _)).runs (stops_of_nil hend)) hend
  rwa [State.diagnostics_forward, State.diagnostics_forward] at hparse

/-! ### A name that does not -/

theorem Token.start_lt_stop_of_mem_meaningful {source : String} {t : Token}
    (h : t ∈ Token.meaningful source) : t.start < t.stop := by
  obtain ⟨-, text, hcovers, hslice⟩ := exists_covers_of_mem_meaningful h
  obtain ⟨-, -, -, -, hstop⟩ := Text.slice?_eq_some_iff.mp hslice
  have hkind : t.kind ≠ .ending := by
    have hmeaning := (List.mem_filter.mp h).2
    simp only [Bool.and_eq_true, bne_iff_ne] at hmeaning
    exact hmeaning.2
  have hpos := Text.byteLength_pos (hcovers.ne_nil hkind)
  omega

theorem Token.stop_le_start_of_suffix {source : String} {t u : Token} {ts us : List Token}
    (h : t :: (ts ++ u :: us) <:+ Token.meaningful source) : t.stop ≤ u.start := by
  have hordered := ((tiles_scan 0 source.toList).pairwise.filter _).sublist h.sublist
  exact (List.pairwise_cons.mp hordered).1 u (by simp)

theorem Token.le_start_of_mem_laid {offset : Nat} {cs : List Char} {t : Token}
    (h : t ∈ Token.laid offset cs) : offset ≤ t.start :=
  (tiles_scan offset cs).offset_le t (List.mem_filter.mp h).1

variable {command opening : Token} {spacing rest : List Token}

/-- A name that is the text of the first group fills its braces: the text behind an open brace is
longer. -/
theorem fillsBraces_of_groupText (hname : name.toList = withoutBlanks
    (groupText (spelledOut name) ⟨.groupOpen, 13, 14⟩ (Token.laid 14 (name.toList ++ ['}']))).toList) :
    FillsBraces name.toList := by
  have hblanks : withoutBlanks name.toList = name.toList := by
    rw [hname, Text.withoutBlanks_withoutBlanks]
  rcases Token.agree 0 14 (name.toList ++ ['}']) with ⟨-, hnone⟩ | ⟨body, rest, before, h⟩
  · have hall : groupText (spelledOut name) ⟨.groupOpen, 13, 14⟩
        (Token.laid 14 (name.toList ++ ['}'])) = String.ofList (name.toList ++ ['}']) := by
      have hlength : (spelledOut name).utf8ByteSize = 14 + Text.byteLength (name.toList ++ ['}']) := by
        rw [← Text.byteLength_toList, Text.toList_spelledOut, Text.byteLength_append]
        rfl
      rw [groupText, hnone, Option.bind_none, hlength]
      exact Text.slice_spelledOut (List.append_nil _).symm
    have hlonger : withoutBlanks (name.toList ++ ['}']) = name.toList ++ ['}'] := by
      rw [withoutBlanks, List.filter_append]
      exact congrArg (· ++ ['}']) hblanks
    rw [hall, String.toList_ofList, hlonger] at hname
    simp at hname
  · have hbody : groupText (spelledOut name) ⟨.groupOpen, 13, 14⟩
        (Token.laid 14 (name.toList ++ ['}'])) = String.ofList body := by
      rw [groupText, h.closing?, Option.bind_some, h.laid_eq, List.getElem?_append_right (Nat.le_refl _),
        Nat.sub_self]
      exact Text.slice_spelledOut h.text_eq
    rw [hbody, String.toList_ofList] at hname
    have hle : name.toList.length ≤ body.length := by
      rw [hname]
      exact List.length_filter_le _ _
    have hlength := congrArg List.length h.text_eq
    simp only [List.length_append, List.length_cons, List.length_nil] at hlength
    obtain ⟨heq, -⟩ := List.append_inj h.text_eq (by omega)
    exact h.groupBody?.trans (congrArg some heq.symm)

/-- The name stands in the first group of its text: all others have less room. -/
theorem fillsBraces_of_identifies (h : Identifies (spelledOut name) name) :
    FillsBraces name.toList ∧ withoutBlanks name.toList = name.toList := by
  obtain ⟨command, spacing, opening, rest, hsuffix, hcommand, hspacing, hopen, hname⟩ := h
  refine ⟨?_, by rw [hname, Text.withoutBlanks_withoutBlanks]⟩
  have hordered := Token.stop_le_start_of_suffix hsuffix
  have hfirst := Token.start_lt_stop_of_mem_meaningful (hsuffix.mem List.mem_cons_self)
  have hsecond := Token.start_lt_stop_of_mem_meaningful (hsuffix.mem (a := opening) (by simp))
  have hroom : Text.byteLength name.toList ≤
      Text.byteLength (spelledOut name).toList - opening.stop := by
    conv_lhs => rw [hname]
    exact Nat.le_trans (Text.byteLength_withoutBlanks_le _) (Text.byteLength_slice_le ..)
  rw [Text.meaningful_spelledOut] at hsuffix
  rcases List.suffix_cons_iff.mp hsuffix with hwhole | hsuffix
  · obtain ⟨rfl, htail⟩ := List.cons.inj hwhole
    cases spacing with
    | nil =>
      obtain ⟨rfl, rfl⟩ := List.cons.inj htail
      exact fillsBraces_of_groupText hname
    | cons t spacing =>
      obtain ⟨rfl, -⟩ := List.cons.inj htail
      cases hspacing _ List.mem_cons_self
  rcases List.suffix_cons_iff.mp hsuffix with hwhole | hsuffix
  · obtain ⟨rfl, -⟩ := List.cons.inj hwhole
    rcases hcommand with hcommand | hcommand <;> cases hcommand
  · have hbehind := Token.le_start_of_mem_laid (hsuffix.mem List.mem_cons_self)
    rw [Text.toList_spelledOut, Text.byteLength_append, Text.byteLength_append,
      show Text.byteLength "\\operatorname\x7b".toList = 14 from rfl,
      show Text.byteLength ['}'] = 1 from rfl] at hroom
    have hempty : name.toList = [] := by
      by_contra hne
      have hpos := Text.byteLength_pos hne
      omega
    rw [hempty]
    rfl

/-! ### Names that are spelled out -/

/-- A name without a glyph in the standard notations that is neither a command nor one character. -/
structure IsSpelledOut (name : String) : Prop where
  several : 2 ≤ name.length
  noCommand : Text.startsWith name '\\' = false
  noSymbol : ∀ n ∈ Dictionary.standardEntries, n.kind = .symbol → n.name ≠ name

instance : DecidablePred IsSpelledOut := fun name =>
  decidable_of_iff (2 ≤ name.length ∧ Text.startsWith name '\\' = false ∧
      ∀ n ∈ Dictionary.standardEntries, n.kind = .symbol → n.name ≠ name)
    ⟨fun ⟨several, noCommand, noSymbol⟩ => ⟨several, noCommand, noSymbol⟩,
      fun h => ⟨h.several, h.noCommand, h.noSymbol⟩⟩

theorem IsSpelledOut.symbol_eq (h : IsSpelledOut name) :
    Serializer.symbol ⟨.standard, {}⟩ name = spelledOut name := by
  have hglyph : (Dictionary.standard.lookup name).filter (·.kind == .symbol) = none := by
    rw [Option.filter_eq_none_iff]
    intro n hn hkind
    obtain ⟨hmem, hname⟩ := Dictionary.mem_of_lookup_standard hn
    exact h.noSymbol n hmem (eq_of_beq hkind) hname
  have hlong : name.length ≠ 1 := fun hone => by
    have hseveral := h.several
    omega
  rw [Serializer.symbol, hglyph]
  simp [h.noCommand, hlong, spelledOut]

theorem fillsBraces_of_mem_names (h : name ∈ Parser.names) :
    FillsBraces name.toList ∧ withoutBlanks name.toList = name.toList := by
  have hall : ∀ name ∈ Parser.names,
      FillsBraces name.toList ∧ withoutBlanks name.toList = name.toList := by
    decide +kernel
  exact hall name h

theorem fillsBraces_of_parse (h : IsSpelledOut name)
    (hparse : parse .standard {} (spelledOut name) = .ok ⟨.symbol name, []⟩) :
    FillsBraces name.toList ∧ withoutBlanks name.toList = name.toList := by
  rcases (tree_of_parse hparse).symbol_cases with ⟨c, rfl⟩ | ⟨command, rfl⟩ | hmem | ⟨-, hname⟩
  · have hseveral := h.several
    simp at hseveral
  · have hcommand := h.noCommand
    simp [Text.startsWith] at hcommand
  · exact fillsBraces_of_mem_names hmem
  · exact fillsBraces_of_identifies hname

/-- What is written for a name is read as the name just if it has no blanks and fills its braces. A
name that fills them is read without its blanks, so two such names are read alike just if they differ
in blanks only. -/
theorem parse_symbol_iff (h : IsSpelledOut name) :
    (parse .standard {} (Serializer.symbol ⟨.standard, {}⟩ name) = .ok ⟨.symbol name, []⟩ ↔
      FillsBraces name.toList ∧ withoutBlanks name.toList = name.toList) ∧
    (FillsBraces name.toList → withoutBlanks name.toList ≠ [] →
      parse .standard {} (Serializer.symbol ⟨.standard, {}⟩ name) =
        .ok ⟨.symbol (String.ofList (withoutBlanks name.toList)), []⟩ ∧
      ∀ other, IsSpelledOut other → FillsBraces other.toList → withoutBlanks other.toList ≠ [] →
        (parse .standard {} (Serializer.symbol ⟨.standard, {}⟩ name) =
            parse .standard {} (Serializer.symbol ⟨.standard, {}⟩ other) ↔
          withoutBlanks name.toList = withoutBlanks other.toList)) := by
  have hread {name : String} (h : IsSpelledOut name) (hfills : FillsBraces name.toList)
      (hname : withoutBlanks name.toList ≠ []) :
      parse .standard {} (Serializer.symbol ⟨.standard, {}⟩ name) =
        .ok ⟨.symbol (String.ofList (withoutBlanks name.toList)), []⟩ := by
    obtain ⟨c, cs, hcons⟩ := List.exists_cons_of_ne_nil hname
    rw [h.symbol_eq, hcons]
    exact parse_spelledOut hfills hcons
  refine ⟨⟨fun hparse => ?_, fun ⟨hfills, hblanks⟩ => ?_⟩, fun hfills hname =>
    ⟨hread h hfills hname, fun other hother hfills' hname' => ?_⟩⟩
  · rw [h.symbol_eq] at hparse
    exact fillsBraces_of_parse h hparse
  · have hne : withoutBlanks name.toList ≠ [] := by
      rw [hblanks]
      intro hempty
      have hseveral := h.several
      rw [← String.length_toList, hempty] at hseveral
      exact absurd hseveral (by decide)
    rw [hread h hfills hne, hblanks, String.ofList_toList]
  · rw [hread h hfills hname, hread hother hfills' hname']
    refine ⟨fun heq => ?_, fun heq => by rw [heq]⟩
    injection heq with hparsed
    injection hparsed with hsymbol
    injection hsymbol with hlist
    exact String.ofList_injective hlist

/-- A name with groups and a command in it, and the same name with blanks. -/
theorem parse_symbol_iff_nested :
    IsSpelledOut "f_\x7b\\mathrm\x7bmax\x7d\x7d" ∧ IsSpelledOut "f_\x7b \\mathrm\x7bmax\x7d \x7d" ∧
      parse .standard {} (Serializer.symbol ⟨.standard, {}⟩ "f_\x7b\\mathrm\x7bmax\x7d\x7d") =
        .ok ⟨.symbol "f_\x7b\\mathrm\x7bmax\x7d\x7d", []⟩ ∧
      parse .standard {} (Serializer.symbol ⟨.standard, {}⟩ "f_\x7b\\mathrm\x7bmax\x7d\x7d") =
        parse .standard {} (Serializer.symbol ⟨.standard, {}⟩ "f_\x7b \\mathrm\x7bmax\x7d \x7d") := by
  have hname : IsSpelledOut "f_\x7b\\mathrm\x7bmax\x7d\x7d" := by decide +kernel
  have hother : IsSpelledOut "f_\x7b \\mathrm\x7bmax\x7d \x7d" := by decide +kernel
  refine ⟨hname, hother, (parse_symbol_iff hname).1.mpr (by decide +kernel), ?_⟩
  exact (((parse_symbol_iff hname).2 (by decide +kernel) (by decide +kernel)).2 _ hother
    (by decide +kernel) (by decide +kernel)).mpr (by decide +kernel)

/-- Blanks are lost, so that two names are read alike; a brace that closes nothing ends the name, and
a comment or a backslash at the end hides the last brace. -/
theorem not_parse_symbol_blank :
    (∀ name ∈ ["a b", "a\x7d\x7bb", "50%", "a\\"], IsSpelledOut name ∧
      parse .standard {} (Serializer.symbol ⟨.standard, {}⟩ name) ≠ .ok ⟨.symbol name, []⟩) ∧
    IsSpelledOut "ab" ∧ parse .standard {} (Serializer.symbol ⟨.standard, {}⟩ "a b") =
      parse .standard {} (Serializer.symbol ⟨.standard, {}⟩ "ab") := by
  have hfails : ∀ name ∈ ["a b", "a\x7d\x7bb", "50%", "a\\"], IsSpelledOut name ∧
      ¬(FillsBraces name.toList ∧ withoutBlanks name.toList = name.toList) := by
    decide +kernel
  have halike : IsSpelledOut "ab" := by decide +kernel
  refine ⟨fun name hname => ?_, halike, ?_⟩
  · obtain ⟨hspelled, hnot⟩ := hfails name hname
    refine ⟨hspelled, fun hparse => hnot ?_⟩
    rw [hspelled.symbol_eq] at hparse
    exact fillsBraces_of_parse hspelled hparse
  · rw [(hfails "a b" List.mem_cons_self).1.symbol_eq, halike.symbol_eq]
    have hread {name : String} (hfills : FillsBraces name.toList)
        (hname : withoutBlanks name.toList = ['a', 'b']) :
        parse .standard {} (spelledOut name) = .ok ⟨.symbol "ab", []⟩ := parse_spelledOut hfills hname
    exact (hread (by decide +kernel) (by decide +kernel)).trans
      (hread (by decide +kernel) (by decide +kernel)).symm

end TexFormula
