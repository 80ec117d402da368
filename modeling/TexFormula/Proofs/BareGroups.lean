import TexFormula.Proofs.Enclosed.Expression
import TexFormula.Proofs.JoinedTokens
import TexFormula.Proofs.OpenBraces.Expression

/-!
# Groups without a trace

Parentheses and braces around a source take one level of nesting and leave nothing else behind: the tree
is the one of the source (`parse_enclose`). That is so because all of the source is read alike in front
of the closing delimiter (`Enclosure.level`), if no token takes that delimiter for its own: a comment
does, and so do a backslash and a `\right` at the end.
-/

namespace TexFormula

/-- The groups of which no trace is left in the tree. -/
inductive BareGroup where
  | parentheses
  | braces
deriving DecidableEq, Repr

namespace BareGroup

variable (g : BareGroup) {source : String}

def opening : BareGroup → Char
  | parentheses => '('
  | braces => '\x7b'

def closing : BareGroup → Char
  | parentheses => ')'
  | braces => '\x7d'

def openingKind : BareGroup → Token.Kind
  | parentheses => .punct '('
  | braces => .groupOpen

def closingKind : BareGroup → Token.Kind
  | parentheses => .punct ')'
  | braces => .groupClose

/-- The closing delimiter that is waited for. -/
def close : BareGroup → String
  | parentheses => ")"
  | braces => "\x7d"

def enclose (source : String) : String :=
  String.singleton g.opening ++ source ++ String.singleton g.closing

theorem toList_enclose (source : String) :
    (g.enclose source).toList = [g.opening] ++ (source.toList ++ [g.closing]) := by
  simp [enclose, String.toList_append]

/-! ### Tokens -/

open Token in
theorem meaningful_enclose
    (hlast : ∀ t ∈ last? source, (∀ content, t.kind ≠ .comment content) ∧ t.kind ≠ .loneBackslash) :
    ∃ opening closing : Token, opening.kind = g.openingKind ∧ closing.kind = g.closingKind ∧
      meaningful (g.enclose source) = opening ::
        ((meaningful source).map (shift (Text.byteLength [g.opening])) ++ [closing]) := by
  have hopening : g.openingKind.Covers [g.opening] := by
    cases g
    · exact ⟨rfl, by decide⟩
    · rfl
  have hclosing : g.closingKind.Covers [g.closing] := by
    cases g
    · exact ⟨rfl, by decide⟩
    · rfl
  have hsevers : Text.Severs source.toList [g.closing] := by
    cases g <;> exact .of_not (by decide) (by decide) _ _
  have hback : laid (Text.byteLength source.toList) ([g.closing] ++ []) = _ :=
    laid_append_of_covers (by cases g <;> nofun) hclosing (by cases g <;> exact fun _ _ => id) _
  have hfront : laid 0 ([g.opening] ++ (source.toList ++ [g.closing])) = _ :=
    laid_append_of_covers (by cases g <;> nofun) hopening (by cases g <;> exact fun _ _ => id) 0
  rw [laid_nil, List.append_nil, List.append_nil, List.filter_cons_of_pos (by cases g <;> rfl)] at hback
  rw [List.filter_cons_of_pos (by cases g <;> rfl), Nat.zero_add,
    laid_eq_map_shift (Text.byteLength [g.opening]), laid_append_of_severs hlast hsevers, hback,
    List.map_append, ← g.toList_enclose] at hfront
  exact ⟨_, _, rfl, rfl, hfront⟩

/-- Where a token has the trigger of the closing delimiter, an expression ends. -/
theorem endsExpression_of_trigger? {t : Token} (h : t ∈ Token.meaningful source)
    (ht : t.trigger? = some g.close) : Parser.State.endsExpression t.kind = true := by
  obtain ⟨-, text, hcovers, -⟩ := Token.exists_covers_of_mem_meaningful h
  rcases Parser.trigger?_cases ht with ⟨name, -, hname⟩ | ⟨c, hkind, hc⟩ | ⟨-, hc⟩ | ⟨-, hc⟩
  · have hslash : some '\\' = g.close.toList.head? := by
      rw [← hname, String.toList_append]
      rfl
    cases g <;> exact absurd hslash (by decide)
  · have hclose : String.singleton c = String.singleton g.closing := by
      rw [hc]
      cases g <;> rfl
    rw [String.singleton_inj.mp hclose] at hkind
    rcases hkind with hkind | hkind
    · rw [hkind] at hcovers
      cases g <;> exact absurd hcovers.2 (by decide)
    · rw [hkind] at hcovers ⊢
      cases g
      · rfl
      · exact absurd hcovers.2.1 (by decide)
  · cases g <;> exact absurd hc (by decide)
  · cases g <;> exact absurd hc (by decide)

end BareGroup

/-! ### Runs -/

namespace Parser

open Enclosure (Doomed ensures_doomed ensures_doomed_unexpected)

variable {source : String} {e : Expression}

/-- What follows the first expression is stray, so it is reported. -/
theorem ensures_parts_clean {env : Env} (hd : env.dictionary.HasStandardHooks) (rounds : Nat)
    (s : State) :
    Ensures (fun es t => (assemble es).isMissing = false → t.diagnostics = [] →
      Runs ((nested env env.options.maxDepth).expression .loosest) s (assemble es) t ∧ t.rest = []) s
      (parts env (nested env env.options.maxDepth) (rounds + 1)) := by
  have hothers : Keeps env.options.maxDepth (parts env (nested env env.options.maxDepth) rounds) :=
    show (keeps _).rel (parts env _ rounds) (parts (env.allowing 0) _ rounds) from
      (keeps_nested hd env.options.maxDepth).parts rounds
  unfold parts
  refine .bind (fun e t ht => ht : Ensures (Runs _ s) s _) fun e t ht => .get ?_
  split
  · next hend =>
    refine .pure fun hpresent _ => ?_
    cases hmissing : e.isMissing with
    | true =>
      rw [hmissing] at hpresent
      cases hpresent
    | false => exact ⟨ht, List.isEmpty_iff.mp hend⟩
  · refine .current (.bind (ensures_doomed_unexpected env _ t) fun stray u hu => ?_)
    exact .bind (ensures_doomed hothers hu) fun _ v hv => .pure fun _ hclean => absurd hclean hv

/-- What is parsed without diagnostics is one expression, up to the end of the source. -/
theorem exists_runs_of_parse {d : Dictionary} {options : ParseOptions} (hd : d.HasStandardHooks)
    (h : parse d options source = .ok ⟨e, []⟩) (he : e.isMissing = false) :
    ∃ t, Runs ((nested ⟨source, d, options⟩ options.maxDepth).expression .loosest) (.ofSource source)
      e t ∧ t.rest = [] ∧ t.diagnostics = [] := by
  obtain ⟨t, hruns, hreverse⟩ := runs_rootNested_of_parse h
  have hclean := List.reverse_eq_nil_iff.mp hreverse.symm
  obtain ⟨es, u, hparts, hassemble⟩ := runs_bind.mp (runs_get.mp hruns)
  obtain ⟨rfl, rfl⟩ := runs_pure.mp hassemble
  obtain ⟨hexpression, hnil⟩ := ensures_parts_clean hd _ _ es t hparts he hclean
  exact ⟨t, hexpression, hnil, hclean⟩

/-- A source without diagnostics leaves a delimiter behind it alone, unless a `\right` is the last
token. -/
theorem selfContained_meaningful (h : parse .standard {} source = .ok ⟨e, []⟩)
    (hends : endsBare (Token.meaningful source) = false) : SelfContained (Token.meaningful source) where
  delimited := hends
  closed {x brace behind} hsuffix hx hopen := by
    obtain ⟨front, hfront⟩ := hsuffix
    have hsource : Token.meaningful source = (front ++ [x]) ++ brace :: behind := by
      rw [List.append_assoc]
      exact hfront.symm
    refine exists_close_of_parse h rfl (leavesNothingOut_standard source) hsource hopen fun t ht => ?_
    rw [List.getLast?_concat] at ht
    exact Option.some.inj ht ▸ hx

/-- A source in a group. -/
def enclosure (g : BareGroup) (source : String) (opening closing : Token)
    (hopening : opening.kind = g.openingKind) (hclosing : closing.kind = g.closingKind) : Enclosure where
  toExcerpt := .ofPiece (g.toList_enclose source) [opening] [closing] [g.close]
  opening := opening
  closing := closing
  close := g.close
  before_eq := rfl
  after_eq := rfl
  outside_eq := rfl
  digits?_opening := by
    rw [Token.digits?, hopening]
    cases g <;> rfl
  closes := by
    rw [hclosing]
    cases g
    · exact .inl ⟨rfl, rfl⟩
    · exact .inr ⟨rfl, rfl⟩

/-- Behind the opening delimiter, in front of the source. -/
theorem abreast_start {g : BareGroup} {opening closing : Token} (hopening : opening.kind = g.openingKind)
    (hclosing : closing.kind = g.closingKind)
    (hrest : (State.ofSource (g.enclose source)).rest = opening ::
      ((Token.meaningful source).map (Token.shift (Text.byteLength [g.opening])) ++ [closing]))
    (hcontained : SelfContained (Token.meaningful source)) :
    (enclosure g source opening closing hopening hclosing).Abreast
      (((State.ofSource (g.enclose source)).forward 1).await g.close) (.ofSource source) where
  seen := congrArg State.seen (State.forward_succ hrest 0)
  rest := congrArg State.rest (State.forward_succ hrest 0)
  closers := congrArg (g.close :: ·) (State.closers_forward (.ofSource (g.enclose source)) 1)
  clean _ := State.diagnostics_forward (.ofSource (g.enclose source)) 1
  inside _ ht := Excerpt.inside_of_mem ht
  ends _ := g.endsExpression_of_trigger?
  contained := hcontained

/-- A group in front of which nothing has been read yet, as an operand. -/
theorem runs_operand_of_bareGroup {env : Env} {inner : Inner} {g : BareGroup} {opening : Token}
    {rest : List Token} {s t : State} (hs : s.rest = opening :: rest)
    (hopening : opening.kind = g.openingKind) (hclosers : s.Delimited) (he : e.isMissing = false)
    (h : Runs (groupBody env inner g.close g.closingKind) (s.forward 1) e t) :
    Runs (operand env inner) s (some { expression := e }) t := by
  cases g with
  | parentheses => exact runs_operand_of_parenthesis hs hopening hclosers he h
  | braces =>
    have hgoes : Continues opening.kind := by
      rw [hopening]
      exact ⟨nofun, rfl, nofun⟩
    refine runs_operand_of_builtin hs hgoes hclosers ?_
    unfold builtin
    rw [runs_get]
    dsimp only
    rw [State.current_of_rest hs, hopening]
    have hbraced : Runs (braced env inner) s { expression := e } t := by
      unfold braced
      rw [runs_advance]
      exact h.bind (.pure _ _)
    exact hbraced.bind (.pure _ _)

/-- In a group, with one level of nesting more, a source is parsed as it is alone. -/
theorem parse_enclose (g : BareGroup) (h : parse .standard {} source = .ok ⟨e, []⟩)
    (he : e.isMissing = false)
    (hlast : ∀ t ∈ Token.last? source, (∀ content, t.kind ≠ .comment content) ∧ t.kind ≠ .loneBackslash)
    (hends : endsBare (Token.meaningful source) = false) :
    parse .standard { maxDepth := ({} : ParseOptions).maxDepth + 1 } (g.enclose source) =
      .ok ⟨e, []⟩ := by
  obtain ⟨opening, closing, hopening, hclosing, htokens⟩ := g.meaningful_enclose hlast
  obtain ⟨t', hruns, hnil, hclean⟩ := exists_runs_of_parse Dictionary.hasStandardHooks_standard h he
  have hhooks := Dictionary.hasStandardHooks_standard
  let env := (Env.standard (g.enclose source)).allowing (({} : ParseOptions).maxDepth + 1)
  have hrest : (State.ofSource (g.enclose source)).rest = opening :: (_ ++ [closing]) := htokens
  have hstart := abreast_start hopening hclosing hrest (selfContained_meaningful h hends)
  rcases (Enclosure.level _ _).expression .loosest hstart e t' hruns with ⟨t, ht, habreast⟩ | hdoomed
  · have hclosed : t.rest = [closing] := by
      rw [habreast.rest, hnil]
      rfl
    have hbody := runs_expression_allowing hhooks env.options.maxDepth (Nat.le_refl _) ht
    have hgroup : Runs (groupBody env _ g.close g.closingKind) _ e _ :=
      runs_groupBody_of_runs hbody hclosed hclosing
    have hoperand := runs_operand_of_bareGroup hrest hopening nofun he hgroup
    have hend : (State.forward { t with closers := t.closers.tail } 1).rest = [] :=
      (State.rest_forward _ 1).trans (congrArg (List.drop 1) hclosed)
    refine (parse_eq_of_runs_expression rfl he
      ((leadsTo_of_operand hoperand).runs (stops_of_nil hend)) hend).trans ?_
    rw [State.diagnostics_forward, habreast.clean hclean]
    rfl
  · exact absurd hclean hdoomed

theorem exists_parse_eq_of_any {d : Dictionary} {options : ParseOptions}
    (h : (parse d options source).toOption.any
      (fun p => p.diagnostics.isEmpty && !p.expression.isMissing) = true) :
    ∃ e, parse d options source = .ok ⟨e, []⟩ ∧ e.isMissing = false := by
  obtain ⟨⟨e, found⟩, hparse, hread⟩ := exists_eq_ok_of_any h
  simp only [Bool.and_eq_true, List.isEmpty_iff, Bool.not_eq_true'] at hread
  obtain ⟨rfl, he⟩ := hread
  exact ⟨e, hparse, he⟩

/-- Parentheses and braces around a source leave its tree as it is, with one level of nesting more. The
source may not end in a comment or a lone backslash, nor in a `\right` without its delimiter. -/
theorem parse_bareGroups (h : parse .standard {} source = .ok ⟨e, []⟩) (he : e.isMissing = false)
    (hlast : ∀ t ∈ Token.last? source, (∀ content, t.kind ≠ .comment content) ∧ t.kind ≠ .loneBackslash)
    (hends : endsBare (Token.meaningful source) = false) :
    let options : ParseOptions := { maxDepth := ({} : ParseOptions).maxDepth + 1 }
    parse .standard options ("(" ++ source ++ ")") = .ok ⟨e, []⟩ ∧
      parse .standard options ("\x7b" ++ source ++ "\x7d") = .ok ⟨e, []⟩ :=
  ⟨parse_enclose .parentheses h he hlast hends, parse_enclose .braces h he hlast hends⟩

/-- A closing parenthesis in a text, and a brace as the delimiter of a `\right` at the end. -/
theorem parse_bareGroups_delimiters :
    let source := "\\text\x7b)\x7d+\\left]|x|^2!\\right\\\x7b"
    let options : ParseOptions := { maxDepth := ({} : ParseOptions).maxDepth + 1 }
    ∃ e, parse .standard {} source = .ok ⟨e, []⟩ ∧ e.isMissing = false ∧
      (∀ t ∈ Token.last? source, (∀ content, t.kind ≠ .comment content) ∧ t.kind ≠ .loneBackslash) ∧
      endsBare (Token.meaningful source) = false ∧
      parse .standard options ("(" ++ source ++ ")") = .ok ⟨e, []⟩ ∧
      parse .standard options ("\x7b" ++ source ++ "\x7d") = .ok ⟨e, []⟩ := by
  intro source options
  obtain ⟨e, h, he⟩ : ∃ e, parse .standard {} source = .ok ⟨e, []⟩ ∧ e.isMissing = false :=
    exists_parse_eq_of_any (by decide +kernel)
  have hlast : ∀ t ∈ Token.last? source,
      (∀ content, t.kind ≠ .comment content) ∧ t.kind ≠ .loneBackslash := by
    rw [show Token.last? source = some ⟨.command "\x7b", 27, 29⟩ by decide +kernel]
    rintro _ ⟨⟩
    exact ⟨nofun, nofun⟩
  have hends : endsBare (Token.meaningful source) = false := by decide +kernel
  exact ⟨e, h, he, hlast, hends, parse_bareGroups h he hlast hends⟩

/-- The closing delimiter is taken by a `\right` that lacks its own one, and by a lone backslash. -/
theorem parse_bareGroups_openRight :
    let bare := "\\left(x\\right"
    let slashed := "\\left(x\\right\\"
    let options : ParseOptions := { maxDepth := ({} : ParseOptions).maxDepth + 1 }
    (∃ e, parse .standard {} bare = .ok ⟨e, []⟩ ∧ e.isMissing = false ∧
      (Token.last? bare).map Token.kind = some (.command "right") ∧
      parse .standard options ("(" ++ bare ++ ")") ≠ .ok ⟨e, []⟩ ∧
      parse .standard options ("\x7b" ++ bare ++ "\x7d") ≠ .ok ⟨e, []⟩) ∧
    ∃ e, parse .standard {} slashed = .ok ⟨e, []⟩ ∧ e.isMissing = false ∧
      (Token.last? slashed).map Token.kind = some .loneBackslash ∧
      parse .standard options ("(" ++ slashed ++ ")") ≠ .ok ⟨e, []⟩ ∧
      parse .standard options ("\x7b" ++ slashed ++ "\x7d") ≠ .ok ⟨e, []⟩ := by
  intro bare slashed options
  have hreported {source : String}
      (h : (parse .standard options source).toOption.any (·.diagnostics.isEmpty) = false)
      (e : Expression) : parse .standard options source ≠ .ok ⟨e, []⟩ := by
    intro hparse
    rw [hparse] at h
    cases h
  obtain ⟨e, hbare, he⟩ : ∃ e, parse .standard {} bare = .ok ⟨e, []⟩ ∧ e.isMissing = false :=
    exists_parse_eq_of_any (by decide +kernel)
  obtain ⟨e', hslashed, he'⟩ : ∃ e, parse .standard {} slashed = .ok ⟨e, []⟩ ∧ e.isMissing = false :=
    exists_parse_eq_of_any (by decide +kernel)
  exact ⟨⟨e, hbare, he, by decide +kernel, hreported (by decide +kernel) e,
      hreported (by decide +kernel) e⟩,
    e', hslashed, he', by decide +kernel, hreported (by decide +kernel) e',
    hreported (by decide +kernel) e'⟩

end Parser

end TexFormula
