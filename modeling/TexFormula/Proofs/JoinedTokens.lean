import TexFormula.Proofs.SourcePieces
import TexFormula.Proofs.VerbatimText

/-!
# The tokens of joined texts

Where the last token of a text does not go on in the one behind it, both are cut as if they stood
alone (`Tiles.laid_append`). `Text.join` keeps control words from going on, so that the two texts it
is given keep their tokens (`kinds_meaningful_join`); comments, lone backslashes and digit runs are
left to the one who joins.
-/

namespace TexFormula

open Text (Severs)

namespace Token

/-- The last token of a source, its end apart. -/
def last? (source : String) : Option Token :=
  (ofSource source).dropLast.getLast?

/-! ### Tokens one behind the other -/

theorem laid_append_of_isBlank {text : List Char} (h : ∀ c ∈ text, Text.isBlank c = true)
    (offset : Nat) (r : List Char) :
    laid offset (text ++ r) = laid (offset + Text.byteLength text) r := by
  induction text generalizing offset with
  | nil => rfl
  | cons c cs ih =>
    rw [List.cons_append, laid_cons_of_isBlank (h c List.mem_cons_self),
      ih fun d hd => h d (List.mem_cons_of_mem _ hd), Text.byteLength_cons, Nat.add_assoc]

/-- One token is cut off the front of a text. -/
theorem laid_append_of_covers {kind : Kind} {text rest : List Char} (hkind : kind ≠ .ending)
    (covers : kind.Covers text) (stops : ∀ c ∈ rest.head?, ¬ kind.GoesOn c) (offset : Nat) :
    laid offset (text ++ rest) =
      [⟨kind, offset, offset + Text.byteLength text⟩].filter hasMeaning ++
        laid (offset + Text.byteLength text) rest := by
  obtain ⟨c, cs, rfl⟩ := List.exists_cons_of_ne_nil (covers.ne_nil hkind)
  rw [laid, List.cons_append, scan, next, Lexeme.read_append_of_covers covers stops,
    ← List.singleton_append, List.filter_append]
  rfl

theorem laid_eq_map_shift (offset : Nat) (cs : List Char) :
    laid offset cs = (laid 0 cs).map (shift offset) := by
  have hscan : (scan 0 cs).map (shift offset) = scan (0 + offset) cs :=
    ((tiles_scan 0 cs).shift offset).eq_scan
  rw [Nat.zero_add] at hscan
  rw [laid, ← hscan, List.filter_map]
  rfl

namespace Tiles

variable {offset : Nat} {cs r : List Char} {tokens ts : List Token} {t e : Token}

/-- The last tile stands at the end of the text. -/
theorem exists_covers_last (h : Tiles offset cs (ts ++ [t, e])) :
    ∃ as text, cs = as ++ text ∧ t.kind.Covers text := by
  obtain ⟨as, bs, rfl, htiles⟩ := h.behind (List.cons_ne_nil t [e])
  generalize htokens : [t, e] = tokens at htiles
  cases htiles with
  | ending => cases htokens
  | token hkind covers stops tiles =>
    obtain ⟨rfl, rfl⟩ := List.cons.inj htokens
    cases tiles with
    | ending =>
      rw [List.append_nil]
      exact ⟨as, _, rfl, covers⟩
    | token _ _ _ tiles => nomatch tiles

/-- By induction on the tiles: if the last one ends where the text does, or is blank, the text and the
one behind it are cut one by one. -/
theorem laid_append (h : Tiles offset cs tokens)
    (hends : ∀ t e, [t, e] <:+ tokens → t.kind = .blank ∨ ∀ c ∈ r.head?, ¬ t.kind.GoesOn c) :
    laid offset (cs ++ r) = laid offset cs ++ laid (offset + Text.byteLength cs) r := by
  induction h with
  | ending offset => rw [laid_nil]; rfl
  | @token offset kind text rest tokens hkind covers stops tiles ih =>
    have hrest := ih fun t e hsuffix => hends t e (hsuffix.trans (List.suffix_cons _ _))
    rw [Text.byteLength_append, ← Nat.add_assoc, List.append_assoc]
    by_cases hblank : kind = .blank
    · -- blanks go on in blanks, and none of them is seen
      subst hblank
      rw [laid_append_of_isBlank covers.2, laid_append_of_isBlank covers.2, hrest]
    · have hstops : ∀ c ∈ (rest ++ r).head?, ¬ kind.GoesOn c := by
        cases tiles with
        | ending => exact (hends _ _ (List.suffix_refl _)).resolve_left hblank
        | token hnext covers' _ _ =>
          obtain ⟨c, cs, rfl⟩ := List.exists_cons_of_ne_nil (covers'.ne_nil hnext)
          exact stops
      rw [laid_append_of_covers hkind covers hstops, laid_append_of_covers hkind covers stops, hrest,
        List.append_assoc]

end Tiles

/-! ### Joined texts -/

/-- A token at the end of a text does not go on in a text that is severed from it. -/
theorem Kind.Covers.not_goesOn {kind : Kind} {text as r : List Char} (h : kind.Covers text)
    (hcomment : ∀ content, kind ≠ .comment content) (hslash : kind ≠ .loneBackslash)
    (hsevers : Severs (as ++ text) r) : kind = .blank ∨ ∀ c ∈ r.head?, ¬ kind.GoesOn c := by
  cases kind with
  | blank => exact .inl rfl
  | comment content => exact absurd rfl (hcomment content)
  | loneBackslash => exact absurd rfl hslash
  | command name =>
    refine .inr fun c hc hgoesOn => ?_
    obtain ⟨rfl, hname⟩ := h
    obtain ⟨hword, hletter⟩ := hgoesOn
    have hstarts : Text.startsWithLetter r = true := by
      rw [← Text.any_head?_eq_startsWithLetter, Option.mem_def.mp hc]
      exact hletter
    have hne : name.toList ≠ [] := by
      rcases hname with ⟨hne, -⟩ | ⟨d, rfl, -⟩
      · exact hne
      · simp
    have hends := Text.endsInControlWord_append as (Text.endsInControlWord_word hne hword)
    rw [hsevers.word hstarts] at hends
    cases hends
  | digits run =>
    refine .inr fun c hc hdigit => ?_
    obtain ⟨-, hne, hrun⟩ := h
    have hends := Text.endsWithDigit_append as hne
    rw [hsevers.digits (by rw [Option.mem_def.mp hc]; exact hdigit),
      Text.endsWithDigit_of_forall hne hrun] at hends
    cases hends
  | ending | groupOpen | groupClose | optionalOpen | optionalClose | letter | punct =>
    exact .inr fun _ _ => id

theorem last?_of_suffix {source : String} {t e : Token} (h : [t, e] <:+ ofSource source) :
    last? source = some t := by
  obtain ⟨ts, hts⟩ := h
  rw [last?, ← hts, List.dropLast_append_of_ne_nil (List.cons_ne_nil t [e])]
  exact List.getLast?_concat

/-- Texts that are severed keep their tokens side by side. -/
theorem laid_append_of_severs {left : String} {r : List Char}
    (hends : ∀ t ∈ last? left, (∀ content, t.kind ≠ .comment content) ∧ t.kind ≠ .loneBackslash)
    (hsevers : Severs left.toList r) :
    laid 0 (left.toList ++ r) = laid 0 left.toList ++ laid (Text.byteLength left.toList) r := by
  have htiles := tiles_scan 0 left.toList
  have happend := htiles.laid_append (r := r) ?_
  · rwa [Nat.zero_add] at happend
  intro t e hsuffix
  obtain ⟨hcomment, hslash⟩ := hends t (last?_of_suffix hsuffix)
  obtain ⟨ts, hts⟩ := hsuffix
  rw [← hts] at htiles
  obtain ⟨as, text, hleft, hcovers⟩ := htiles.exists_covers_last
  exact hcovers.not_goesOn hcomment hslash (hleft ▸ hsevers)

/-- Joined texts keep their tokens, those of the second one further behind. -/
theorem exists_meaningful_join {left right : String}
    (hends : ∀ t ∈ last? left, (∀ content, t.kind ≠ .comment content) ∧ t.kind ≠ .loneBackslash)
    (hdigits : ¬ (Text.endsWithDigit left.toList = true ∧
      right.toList.head?.any Char.isDigit = true)) :
    ∃ offset, meaningful (Text.join left right) =
      meaningful left ++ (meaningful right).map (shift offset) := by
  show ∃ offset, laid 0 (Text.join left right).toList =
    laid 0 left.toList ++ (laid 0 right.toList).map (shift offset)
  unfold Text.join
  split
  · have hsevers : Severs left.toList (' ' :: right.toList) := .of_not rfl rfl _ _
    refine ⟨Text.byteLength left.toList + 1, ?_⟩
    rw [String.toList_append, String.toList_append, List.append_assoc, ← laid_eq_map_shift]
    show laid 0 (left.toList ++ ' ' :: right.toList) = _
    rw [laid_append_of_severs hends hsevers, laid_cons_of_isBlank rfl]
    rfl
  · next hword =>
    have hsevers : Severs left.toList right.toList := by
      refine ⟨fun hletter => ?_, fun hdigit => ?_⟩
      · rw [hletter, Bool.true_and] at hword
        exact Bool.eq_false_of_not_eq_true hword
      · exact Bool.eq_false_of_not_eq_true fun hend => hdigits ⟨hend, hdigit⟩
    refine ⟨Text.byteLength left.toList, ?_⟩
    rw [String.toList_append, laid_append_of_severs hends hsevers, ← laid_eq_map_shift]

/-- Joined texts are cut into the tokens of the first one and those of the second one. -/
theorem kinds_meaningful_join {left right : String}
    (hends : ∀ t ∈ last? left, (∀ content, t.kind ≠ .comment content) ∧ t.kind ≠ .loneBackslash)
    (hdigits : ¬ (Text.endsWithDigit left.toList = true ∧
      right.toList.head?.any Char.isDigit = true)) :
    (meaningful (Text.join left right)).map Token.kind =
      (meaningful left).map Token.kind ++ (meaningful right).map Token.kind := by
  obtain ⟨offset, hjoin⟩ := exists_meaningful_join hends hdigits
  rw [hjoin, List.map_append, List.map_map]
  rfl

/-- Behind a comment and an escaped backslash stands a control word; the second text ends in a lone
backslash. -/
theorem kinds_meaningful_join_controlWord :
    let left := "%\\mu\n\\\\\\pi"
    let right := "x\\"
    (∀ t ∈ last? left, (∀ content, t.kind ≠ .comment content) ∧ t.kind ≠ .loneBackslash) ∧
      ¬ (Text.endsWithDigit left.toList = true ∧ right.toList.head?.any Char.isDigit = true) ∧
      Text.join left right = "%\\mu\n\\\\\\pi x\\" ∧
      (meaningful (Text.join left right)).map Token.kind =
        (meaningful left).map Token.kind ++ (meaningful right).map Token.kind := by
  have hlast : last? "%\\mu\n\\\\\\pi" = some ⟨.command "pi", 7, 10⟩ := by decide +kernel
  have hends : ∀ t ∈ last? "%\\mu\n\\\\\\pi",
      (∀ content, t.kind ≠ .comment content) ∧ t.kind ≠ .loneBackslash := by
    rw [hlast]
    rintro _ ⟨⟩
    exact ⟨nofun, nofun⟩
  have hdigits : ¬ (Text.endsWithDigit "%\\mu\n\\\\\\pi".toList = true ∧
      "x\\".toList.head?.any Char.isDigit = true) := by decide
  exact ⟨hends, hdigits, by decide +kernel, kinds_meaningful_join hends hdigits⟩

end Token

end TexFormula
