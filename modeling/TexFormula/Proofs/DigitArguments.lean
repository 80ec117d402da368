import TexFormula.Proofs.CommaChains
import TexFormula.Proofs.OpenPlaces
import TexFormula.Proofs.OperatorChains
import TexFormula.Proofs.SignedSuffixes
import TexFormula.Proofs.VerbatimText

/-!
# Digits as arguments

An argument takes the first digit off the run that is next, and what is left of the run stays to be
read. Step by step, a command takes as many digits as it has arguments (`exists_runs_arguments_digits`).
The digits left over are one number, and it is a further factor.
-/

open TexFormula.Parser

namespace TexFormula

open Dictionary (standardEntries)

/-- The number of one digit. -/
def Number.ofDigit? (c : Char) : Option Number :=
  ofLiteral? (String.singleton c)

theorem Number.exists_ofDigit? {c : Char} (hc : c.isDigit = true) :
    ∃ value, ofDigit? c = some value := by
  have hrun : IsDigitRun (String.singleton c) := by
    refine ⟨fun hempty => ?_, fun d hd => ?_⟩
    · have hlist := congrArg String.toList hempty
      rw [String.toList_singleton] at hlist
      cases hlist
    · rw [String.toList_singleton] at hd
      rwa [List.mem_singleton.mp hd]
  exact hrun.exists_ofLiteral? false

/-! ### The command -/

/-- A command of some arguments without a hook that reads, at a control word that the standard
dictionary does not know. The word neither sets space nor is one of those that grow delimiters. -/
structure Notation.IsCommandAt (n : Notation) (word : String) (count : Nat) : Prop where
  kind : n.kind = .command count
  reader : n.reader = none
  aliasOf : n.aliasOf = none
  serializeOnly : n.serializeOnly = false
  trigger : n.trigger = some ("\\" ++ word)
  nonempty : word ≠ ""
  letters : ∀ c ∈ word.toList, c.isAlpha = true
  fresh : ∀ m ∈ standardEntries, m.trigger ≠ n.trigger
  visible : word ∉ State.spacing
  ne_delimiter : word ∉ ["left", "right"]

namespace Notation.IsCommandAt

variable {n : Notation} {word : String} {count : Nat} {d : Dictionary}

theorem operands_trigger (hn : n.IsCommandAt word count) :
    Dictionary.operands ⟨standardEntries ++ [n], []⟩ ("\\" ++ word) = [n] := by
  have hfollows : n.followsOperand = false := by rw [followsOperand, hn.kind]
  have hnone : Dictionary.standard.operands ("\\" ++ word) = [] :=
    List.eq_nil_iff_forall_not_mem.mpr fun m hm => by
      obtain ⟨hm, -⟩ := List.mem_filter.mp hm
      obtain ⟨hm, hsame⟩ := Dictionary.trigger_of_mem_readAt Dictionary.aliasOf_standardEntries hm
      exact hn.fresh m hm (hsame.trans hn.trigger.symm)
  rw [Dictionary.operands, Dictionary.readAt_append Dictionary.aliasOf_standardEntries hn.aliasOf
    hn.serializeOnly, if_pos hn.trigger, List.filter_append, List.filter_singleton, hfollows]
  exact congrArg (List.cons n) hnone

end Notation.IsCommandAt

namespace Parser

variable {env : Env} {inner : Inner} {s : State} {c : Char} {digits : List Char} {command word : String}
  {n : Notation} {count levels : Nat}

/-! ### One digit after the other -/

/-- The token of the digits; if there are none, there is no token. -/
def digitKinds : (digits : List Char) → List Token.Kind
  | [] => []
  | digits => [.digits (String.ofList digits)]

/-- At the top of a source, the digits are what is left of it, and nothing has been reported. -/
structure AtDigits (s : State) (digits : List Char) : Prop where
  kinds : s.rest.map Token.kind = digitKinds digits
  closers : s.closers = []
  diagnostics : s.diagnostics = []

theorem AtDigits.rest_eq_nil (h : AtDigits s []) : s.rest = [] :=
  List.map_eq_nil_iff.mp h.kinds

theorem AtDigits.exists_rest (h : AtDigits s (c :: digits)) :
    ∃ t, s.rest = [t] ∧ t.kind = .digits (String.ofList (c :: digits)) := by
  obtain ⟨t, rest, hrest, ht, hnil⟩ := List.map_eq_cons_iff.mp h.kinds
  rw [List.map_eq_nil_iff.mp hnil] at hrest
  exact ⟨t, hrest, ht⟩

theorem AtDigits.delimited (h : AtDigits s digits) : s.Delimited := by
  intro closer hcloser
  rw [h.closers] at hcloser
  cases hcloser

/-- The first digit is taken, and the token is what is left of it. -/
theorem AtDigits.exists_runs_firstDigit (h : AtDigits s (c :: digits)) {value : Number}
    (hvalue : Number.ofDigit? c = some value) :
    ∃ s₁, Runs (firstDigit (String.ofList (c :: digits))) s (.number value) s₁ ∧
      AtDigits s₁ digits := by
  obtain ⟨t, hrest, ht⟩ := h.exists_rest
  have hfirst : ((Number.ofLiteral? (String.ofList ((String.ofList (c :: digits)).toList.take 1))).map
      Expression.number).getD .missing = .number value := by
    rw [String.toList_ofList]
    show ((Number.ofDigit? c).map Expression.number).getD .missing = _
    rw [hvalue]
    rfl
  unfold firstDigit
  rw [hfirst, String.toList_ofList]
  cases digits with
  | nil =>
    refine ⟨s.forward 1, .pure _ _, ?_, ?_, ?_⟩
    · rw [State.rest_forward, hrest]
      rfl
    · rw [State.closers_forward, h.closers]
    · rw [State.diagnostics_forward, h.diagnostics]
  | cons d digits =>
    have hdigits : t.digits? = some (String.ofList (c :: d :: digits)) := by rw [Token.digits?, ht]
    have hcut : s.cutDigit = { s with
        rest := [⟨.digits (String.ofList (d :: digits)), t.start + 1, t.stop⟩]
        cuts := (s.position, t) :: s.cuts } := by
      rw [State.cutDigit, hrest]
      dsimp only
      rw [hdigits]
      dsimp only
      rw [String.toList_ofList]
      rfl
    refine ⟨s.cutDigit, .pure _ _, ?_⟩
    rw [hcut]
    exact ⟨rfl, h.closers, h.diagnostics⟩

theorem AtDigits.exists_runs_argument (h : AtDigits s (c :: digits)) {value : Number}
    (hvalue : Number.ofDigit? c = some value) :
    ∃ s₁, Runs (argument env inner command) s (.number value) s₁ ∧ AtDigits s₁ digits := by
  obtain ⟨t, hrest, ht⟩ := h.exists_rest
  obtain ⟨s₁, hfirst, hleft⟩ := h.exists_runs_firstDigit hvalue
  have hvisible : State.isSpacing t = false := by rw [State.isSpacing, ht]
  have hgroup : Runs (braceGroup env inner) s none s := by
    unfold braceGroup
    rw [runs_skipSpacing, takeWhile_isSpacing hrest hvisible, State.forward_zero, runs_current,
      State.current_of_rest hrest, ht]
    exact .pure _ _
  refine ⟨s₁, hgroup.bind ?_, hleft⟩
  dsimp only
  rw [runs_current, State.current_of_rest hrest, Token.digits?, ht]
  exact hfirst

variable (env inner command) in
/-- By induction on the arguments: each takes one digit off the run that the one before has left. -/
theorem exists_runs_arguments_digits (h : AtDigits s digits) (hdigits : ∀ c ∈ digits, c.isDigit = true)
    (hcount : count ≤ digits.length) :
    ∃ (values : List Number) (s₁ : State), (digits.take count).map Number.ofDigit? = values.map some ∧
      Runs (arguments env inner command count) s (values.map .number) s₁ ∧
      AtDigits s₁ (digits.drop count) := by
  induction count generalizing s digits with
  | zero => exact ⟨[], s, rfl, .pure _ _, h⟩
  | succ count ih =>
    obtain ⟨c, digits, rfl⟩ := List.exists_cons_of_length_pos (Nat.lt_of_lt_of_le count.succ_pos hcount)
    obtain ⟨hc, hdigits⟩ := List.forall_mem_cons.mp hdigits
    obtain ⟨value, hvalue⟩ := Number.exists_ofDigit? hc
    obtain ⟨s₁, hfirst, hleft⟩ := h.exists_runs_argument hvalue
    obtain ⟨values, s₂, hvalues, hrest, hleft⟩ := ih hleft hdigits (Nat.le_of_succ_le_succ hcount)
    refine ⟨value :: values, s₂, ?_, hfirst.bind (hrest.bind (.pure _ _)), hleft⟩
    rw [List.take_succ_cons, List.map_cons, List.map_cons, hvalue, hvalues]

variable (env) in
/-- The digits left over are a further factor. -/
theorem AtDigits.exists_runs_chain (h : AtDigits s (c :: digits))
    (hdigits : ∀ d ∈ c :: digits, d.isDigit = true) {o : Operand} (ho : o.callable = false) :
    ∃ left s₁, Number.ofLiteral? (String.ofList (c :: digits)) = some left ∧ AtDigits s₁ [] ∧
      ∀ fuel, s.rest.length ≤ fuel → Runs (chain env (nested env (levels + 1)) .loosest fuel o none) s
        (.function "Multiply" [o.expression, .number left]) s₁ := by
  obtain ⟨t, hrest, ht⟩ := h.exists_rest
  have hrun : IsDigitRun (String.ofList (c :: digits)) :=
    ⟨fun hempty => by simpa using congrArg String.toList hempty, by rwa [String.toList_ofList]⟩
  obtain ⟨left, hleft⟩ := hrun.exists_ofLiteral? false
  have hend : AtDigits (s.forward 1) [] := by
    refine ⟨?_, ?_, ?_⟩
    · rw [State.rest_forward, hrest]
      rfl
    · rw [State.closers_forward, h.closers]
    · rw [State.diagnostics_forward, h.diagnostics]
  have hpass : s.passNumber env t t.stop (String.ofList (c :: digits)) [] = s.forward 1 := by
    unfold State.passNumber State.passRun
    rw [hrest]
    simp
  have hfactor : Runs ((nested env (levels + 1)).expression Precedence.multiplication.tighter) s
      (.number left) (s.forward 1) := by
    have hchain : chainNumbers [String.ofList (c :: digits)] = [String.ofList (c :: digits)] := by
      simp [chainNumbers]
    have hoperand : Runs (operand env (nested env levels)) s _ _ :=
      runs_operand_of_adjoining env hrest ht (.nil t.stop) h.delimited hrun (List.forall_mem_nil _)
        hchain hleft
    rw [hpass] at hoperand
    exact (leadsTo_of_operand hoperand).runs (stops_of_nil hend.rest_eq_nil)
  refine ⟨left, s.forward 1, hleft, hend, fun fuel hfuel => ?_⟩
  have hpos : 1 ≤ fuel := by
    rw [hrest] at hfuel
    exact hfuel
  obtain ⟨fuel, rfl⟩ := Nat.exists_eq_add_of_le' hpos
  have hvisible : State.isSpacing t = false := by rw [State.isSpacing, ht]
  have hgoes : s.atTerminator env = false := by
    rw [State.atTerminator, State.current_of_rest hrest, h.closers, ht]
    rfl
  have htrigger : t.trigger? = none := by rw [Token.trigger?, ht]; rfl
  have hmoved : ((s.forward 1).position == s.position) = false := by
    rw [State.position_forward (by rw [hrest]; exact Nat.le_refl 1)]
    simp
  unfold chain
  rw [runs_skipSpacing, takeWhile_isSpacing hrest hvisible, State.forward_zero, runs_atTerminator, hgoes]
  simp only [Bool.false_eq_true, if_false]
  rw [runs_current, State.current_of_rest hrest, ho, htrigger]
  refine runs_get.mpr (hfactor.bind (runs_get.mpr ?_))
  rw [hmoved]
  exact stops_of_nil hend.rest_eq_nil fuel _ _

/-- The command with its arguments, as an operand. -/
theorem exists_runs_operand_command (hn : n.IsCommandAt word count)
    (hd : env.dictionary = ⟨standardEntries ++ [n], []⟩) {t : Token} {rest : List Token}
    (hs : s.rest = t :: rest) (ht : t.kind = .command word) (hinside : AtDigits (s.forward 1) digits)
    (hdigits : ∀ c ∈ digits, c.isDigit = true) (hcount : count ≤ digits.length) :
    ∃ (values : List Number) (s₁ : State), (digits.take count).map Number.ofDigit? = values.map some ∧
      Runs (operand env inner) s (some { expression := .function n.name (values.map .number) }) s₁ ∧
      AtDigits s₁ (digits.drop count) := by
  obtain ⟨values, s₁, hvalues, harguments, hleft⟩ :=
    exists_runs_arguments_digits env inner n.glyph hinside hdigits hcount
  have hclosers : s.closers = [] := (State.closers_forward s 1).symm.trans hinside.closers
  obtain ⟨hleftWord, hright⟩ : word ≠ "left" ∧ word ≠ "right" := by
    simpa using hn.ne_delimiter
  have hmeets : Meets env s t rest := by
    refine ⟨hs, ?_, ?_⟩
    · rw [State.isSpacing, ht]
      exact Bool.eq_false_of_not_eq_true fun hmem => hn.visible (List.contains_iff_mem.mp hmem)
    · rw [State.atTerminator, State.current_of_rest hs, hclosers, ht]
      have hslash : word ≠ "\\" := by
        rintro rfl
        exact absurd (hn.letters '\\' (by decide)) (by decide)
      simp [State.endsExpression, hright, hslash]
  have htrigger : t.trigger? = some ("\\" ++ word) := by rw [Token.trigger?, ht]; rfl
  have hoperands : env.dictionary.operands ("\\" ++ word) = [n] := by
    rw [hd]
    exact hn.operands_trigger
  have happly : Runs (applyNotation env inner n) (s.forward 1)
      (some { expression := .function n.name (values.map .number) }) s₁ := by
    unfold applyNotation
    rw [hn.reader, hn.kind]
    exact harguments.bind (.pure _ _)
  exact ⟨values, s₁, hvalues, hmeets.runs_operand_notated
    (runs_builtin_of_command hs ht hleftWord) htrigger hoperands happly, hleft⟩

end Parser

/-! ### The whole source -/

/-- A control word and digits right behind it are two tokens. -/
theorem map_kind_meaningful_command {word digits : String} (hne : word ≠ "")
    (hletters : ∀ c ∈ word.toList, c.isAlpha = true) (hdigits : IsDigitRun digits) :
    (Token.meaningful ("\\" ++ word ++ digits)).map Token.kind = [.command word, .digits digits] := by
  have hword : word.toList ≠ [] := fun hnil => hne (String.toList_eq_nil_iff.mp hnil)
  have hcommand : Spells ("\\" ++ word).toList (Token.one (.command word)) := by
    have hspells := Spells.command hword hletters
    rw [String.ofList_toList] at hspells
    rw [String.toList_append]
    exact hspells
  have hsevers : Text.Severs ("\\" ++ word).toList digits.toList := by
    obtain ⟨c, cs, hcons⟩ := List.exists_cons_of_ne_nil hdigits.toList_ne_nil
    have hc : c.isDigit = true := hdigits.digits c (by rw [hcons]; exact List.mem_cons_self)
    constructor
    · intro hletter
      rw [hcons, ← Text.any_head?_eq_startsWithLetter] at hletter
      exact absurd hletter (by simp [Text.isAlpha_of_isDigit hc])
    · intro _
      rw [String.toList_append, Text.endsWithDigit_append _ hword, Text.endsWithDigit,
        List.getLast?_eq_some_getLast hword, Option.any_some]
      refine Bool.eq_false_of_not_eq_true fun hdigit => ?_
      have halpha := hletters _ (List.getLast_mem hword)
      rw [Text.isAlpha_of_isDigit hdigit] at halpha
      cases halpha
  have hspells := hcommand.mul (spells_run hdigits) hsevers
  rw [← String.toList_append] at hspells
  obtain ⟨_, ⟨t, rfl, ht⟩, _, ⟨u, rfl, hu⟩, heq⟩ := Language.mem_mul.mp hspells.laid_mem
  show List.map Token.kind (Token.laid 0 _) = _
  rw [← heq, List.map_append, List.map_singleton, List.map_singleton, ht, hu]
  rfl

/-- A command for `count` arguments takes the first `count` digits right behind it. Those that are left
are a number, by which it is multiplied. -/
theorem parse_command_digits {n : Notation} {word digits : String} {count : Nat} {d : Dictionary}
    {options : ParseOptions} (hn : n.IsCommandAt word count)
    (hd : Dictionary.standard.withOverrides [n] = .ok d) (hdigits : IsDigitRun digits)
    (hcount : count ≤ digits.toList.length) (hdepth : 1 ≤ options.maxDepth)
    (hleft : count < digits.toList.length → 2 ≤ options.maxDepth) :
    ∃ values : List Number,
      (digits.toList.take count).map Number.ofDigit? = values.map some ∧
      (digits.toList.length = count → parse d options ("\\" ++ word ++ digits) =
        .ok ⟨.function n.name (values.map .number), []⟩) ∧
      (count < digits.toList.length →
        ∃ left, Number.ofLiteral? (String.ofList (digits.toList.drop count)) = some left ∧
          parse d options ("\\" ++ word ++ digits) = .ok ⟨.function "Multiply"
            [.function n.name (values.map .number), .number left], []⟩) := by
  obtain rfl := Dictionary.eq_of_withOverrides_eq_ok hn.aliasOf hd
  let source := "\\" ++ word ++ digits
  let env : Env := ⟨source, ⟨standardEntries ++ [n], []⟩, options⟩
  obtain ⟨levels, hlevels⟩ := Nat.exists_eq_add_of_le' hdepth
  obtain ⟨t, rest, hrest, ht, hthere, hkinds⟩ := State.exists_next (s := .ofSource source)
    (map_kind_meaningful_command hn.nonempty hn.letters hdigits)
  have hinside : AtDigits ((State.ofSource source).forward 1) digits.toList := by
    refine ⟨?_, State.closers_forward _ 1, State.diagnostics_forward _ 1⟩
    obtain ⟨c, cs, hcons⟩ := List.exists_cons_of_ne_nil hdigits.toList_ne_nil
    rw [hthere, hkinds, hcons, digitKinds, ← hcons, String.ofList_toList]
    exact nofun
  have henv : env.dictionary = ⟨standardEntries ++ [n], []⟩ := rfl
  obtain ⟨values, s₁, hvalues, hoperand, hafter⟩ :=
    exists_runs_operand_command hn henv hrest ht hinside hdigits.digits hcount
  refine ⟨values, hvalues, fun hlength => ?_, fun hlt => ?_⟩
  · rw [← hlength, List.drop_length] at hafter
    have hparse := parse_eq_of_runs_expression hlevels rfl
      ((leadsTo_of_operand hoperand).runs (stops_of_nil hafter.rest_eq_nil)) hafter.rest_eq_nil
    rwa [hafter.diagnostics] at hparse
  · obtain ⟨below, rfl⟩ : ∃ below, levels = below + 1 :=
      ⟨levels - 1, by have htwo := hleft hlt; omega⟩
    have hmore : digits.toList.drop count ≠ [] := fun hnil => by
      have hle := List.drop_eq_nil_iff.mp hnil
      omega
    obtain ⟨c, cs, hcons⟩ := List.exists_cons_of_ne_nil hmore
    have hall : ∀ d ∈ c :: cs, d.isDigit = true := by
      rw [← hcons]
      exact fun d hd => hdigits.digits d (List.mem_of_mem_drop hd)
    rw [hcons] at hafter ⊢
    obtain ⟨left, s₂, hvalue, hend, hchain⟩ :=
      hafter.exists_runs_chain env hall
        (o := { expression := .function n.name (values.map .number) }) rfl
    have hparse := parse_eq_of_runs_expression hlevels rfl
      (leadsTo_of_operand hoperand _ _ hchain) hend.rest_eq_nil
    rw [hend.diagnostics] at hparse
    exact ⟨left, hvalue, hparse⟩

/-- Three digits behind a command for two arguments, and two behind one where a single level is
allowed. -/
theorem parse_command_digits_cmd :
    ∃ d one two three,
      (Notation.ofCommand "Cmd" "\\cmd" 2).IsCommandAt "cmd" 2 ∧
      Dictionary.standard.withOverrides [.ofCommand "Cmd" "\\cmd" 2] = .ok d ∧
      Number.ofDigit? '1' = some one ∧ Number.ofDigit? '2' = some two ∧
      Number.ofLiteral? "3" = some three ∧
      parse d {} "\\cmd123" = .ok ⟨.function "Multiply"
        [.function "Cmd" [.number one, .number two], .number three], []⟩ ∧
      parse d { maxDepth := 1 } "\\cmd12" =
        .ok ⟨.function "Cmd" [.number one, .number two], []⟩ := by
  have hfresh : ∀ m ∈ standardEntries, m.trigger ≠ some "\\cmd" := by decide +kernel
  have hn : (Notation.ofCommand "Cmd" "\\cmd" 2).IsCommandAt "cmd" 2 :=
    ⟨rfl, rfl, rfl, rfl, rfl, by decide, List.all_eq_true.mp (by decide), hfresh, by decide,
      by decide⟩
  obtain ⟨values, hvalues, -, hparse⟩ :=
    @parse_command_digits _ _ "123" _ _ {} hn rfl (by decide) (by decide) (by decide) (by decide)
  obtain ⟨values', hvalues', hparse', -⟩ :=
    @parse_command_digits _ _ "12" _ _ { maxDepth := 1 } hn rfl (by decide) (by decide) (by decide)
      (by decide)
  obtain ⟨three, hthree, hparse⟩ := hparse (by decide)
  have hsame : values'.map some = values.map some := hvalues'.symm.trans hvalues
  obtain rfl : values' = values := List.map_injective_iff.mpr (Option.some_injective _) hsame
  obtain ⟨one, rest, rfl, hone, hrest⟩ := List.map_eq_cons_iff.mp hvalues.symm
  obtain ⟨two, rest, rfl, htwo, hnil⟩ := List.map_eq_cons_iff.mp hrest
  obtain rfl := List.map_eq_nil_iff.mp hnil
  exact ⟨_, one, two, three, hn, rfl, hone.symm, htwo.symm, hthree, hparse, hparse' (by decide)⟩

/-- A control word that sets space is not seen, and one that grows a delimiter is read as that. A
notation for writing alone is not read, and one that stands for another is read as that. Where a single
level is allowed, there is none for the digits that are left. -/
theorem not_parse_command_digits :
    (∀ trigger ∈ ["\\quad", "\\left", "\\right", "\\cmd"],
      ∀ m ∈ standardEntries, m.trigger ≠ some trigger) ∧
    (Notation.ofCommand "Cmd" "\\quad" 1).reading {} "\\quad1" = some "1" ∧
    (Notation.ofCommand "Cmd" "\\left" 1).reading {} "\\left1" = some "\"Missing\"" ∧
    (Notation.ofCommand "Cmd" "\\right" 1).reading {} "\\right1" =
      some ("[\"Sequence\",[\"Error\",[\"LatexString\",\"'\\\\right'\"]," ++
        "\"'unexpected-token'\"],1]") ∧
    (Notation.ofCommand "Cmd" "\\cmd" 1).onlySerialized.reading {} "\\cmd1" =
      some ("[\"Multiply\",[\"Error\",[\"LatexString\",\"'\\\\cmd'\"]," ++
        "\"'unknown-command'\"],1]") ∧
    ({ Notation.ofCommand "Cmd" "\\cmd" 1 with aliasOf := some "Sin" } : Notation).reading {}
      "\\cmd12" = some "[\"Sin\",12]" ∧
    (Notation.ofCommand "Cmd" "\\cmd" 1).reading { maxDepth := 1 } "\\cmd12" = none := by
  refine ⟨?_, ?_, ?_, ?_, ?_, ?_, ?_⟩ <;> decide +kernel

end TexFormula
