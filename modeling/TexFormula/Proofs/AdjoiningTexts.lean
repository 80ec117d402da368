import TexFormula.Proofs.Tokenization
import TexFormula.Text.Written

/-!
# Texts set side by side

`Text.kinds` are the kinds of the tokens of a text, white space left out. When a second text is set
behind it, its tokens stay as they are just if the last one is no control word that takes letters of
the second one in (`Text.Glues`). `Text.join` sees to that, and plain concatenation does not.
-/

namespace TexFormula

namespace Token.Kind

/-- A token that neither hides what follows it, nor is a part of a number that digits continue. -/
def IsSound : Kind → Prop
  | .comment _ => False
  | .loneBackslash => False
  | .digits _ => False
  | _ => True

/-- A command whose name is made of letters, so that a letter behind it would belong to the name. -/
def isControlWord : Kind → Bool
  | .command name => name.toList.all Char.isAlpha
  | _ => false

end Token.Kind

namespace Lexeme

/-- A text is taken apart from the front, one token after the other. -/
@[elab_as_elim]
theorem text_induction {motive : List Char → Prop} (nil : motive [])
    (cons : ∀ c cs, motive (read c cs).rest → motive (c :: cs)) : (cs : List Char) → motive cs
  | [] => nil
  | c :: cs => cons c cs (text_induction nil cons (read c cs).rest)
termination_by cs => cs.length
decreasing_by exact length_rest_lt c cs

/-- What follows does not change a token that does not go on with it. -/
theorem read_append {c : Char} {cs r : List Char}
    (h : ∀ d ∈ ((read c cs).rest ++ r).head?, ¬ (read c cs).kind.GoesOn d) :
    read c (cs ++ r) = ⟨(read c cs).kind, (read c cs).text, (read c cs).rest ++ r⟩ := by
  obtain ⟨d, ts, htext⟩ := List.exists_cons_of_ne_nil (text_ne_nil c cs)
  have hsplit := text_append_rest c cs
  rw [htext, List.cons_append] at hsplit
  obtain ⟨rfl, hcs⟩ := List.cons.inj hsplit
  have hcovers := (maximal_read d cs).covers
  rw [htext] at hcovers
  have hread := read_append_of_covers hcovers h
  rw [← List.append_assoc, hcs] at hread
  rw [hread, htext]

end Lexeme

namespace Text

open Lexeme (read)

/-- The kinds of the tokens of a text, white space left out. -/
def kinds (cs : List Char) : List Token.Kind :=
  ((Token.scan 0 cs).map Token.kind).filter fun kind => kind != .blank && kind != .ending

/-- The kind of the last token of a text. -/
def lastKind? (cs : List Char) : Option Token.Kind :=
  ((Token.scan 0 cs).map Token.kind).dropLast.getLast?

/-- The last token of the first text takes in letters at the start of the second one. -/
def Glues (l r : List Char) : Prop :=
  startsWithLetter r = true ∧ (lastKind? l).any Token.Kind.isControlWord = true

instance (l r : List Char) : Decidable (Glues l r) :=
  inferInstanceAs (Decidable (_ ∧ _))

theorem map_kind_scan (offset offset' : Nat) (cs : List Char) :
    (Token.scan offset cs).map Token.kind = (Token.scan offset' cs).map Token.kind := by
  induction cs using Lexeme.text_induction generalizing offset offset' with
  | nil => rw [Token.scan, Token.scan]; rfl
  | cons c cs ih =>
    rw [Token.scan, Token.scan, List.map_cons, List.map_cons, ih]
    rfl

theorem map_kind_scan_cons (c : Char) (cs : List Char) :
    (Token.scan 0 (c :: cs)).map Token.kind =
      (read c cs).kind :: (Token.scan 0 (read c cs).rest).map Token.kind := by
  rw [Token.scan, List.map_cons, map_kind_scan _ 0]
  rfl

@[simp] theorem kinds_nil : kinds [] = [] := by
  rw [kinds, Token.scan]
  rfl

theorem kinds_cons (c : Char) (cs : List Char) :
    kinds (c :: cs) = (if (read c cs).kind = .blank then [] else [(read c cs).kind]) ++
      kinds (read c cs).rest := by
  have hne := (Lexeme.maximal_read c cs).kind_ne
  rw [kinds, map_kind_scan_cons]
  split_ifs with hblank
  · exact List.filter_cons_of_neg (by simp [hblank])
  · exact List.filter_cons_of_pos (by simp [hblank, hne])

@[simp] theorem lastKind?_nil : lastKind? [] = none := by
  rw [lastKind?, Token.scan]
  rfl

theorem lastKind?_cons (c : Char) (cs : List Char) :
    lastKind? (c :: cs) = (lastKind? (read c cs).rest).or (some (read c cs).kind) := by
  have hne : (Token.scan 0 (read c cs).rest).map Token.kind ≠ [] := by
    cases (read c cs).rest <;> rw [Token.scan] <;> exact List.cons_ne_nil _ _
  obtain ⟨kind, kinds, hkinds⟩ := List.exists_cons_of_ne_nil hne
  rw [lastKind?, lastKind?, map_kind_scan_cons, hkinds, List.dropLast_cons_cons, List.getLast?_cons]
  cases ((kind :: kinds).dropLast).getLast? <;> rfl

theorem lastKind?_cons_of_rest_ne {c : Char} {cs : List Char} (h : (read c cs).rest ≠ []) :
    lastKind? (c :: cs) = lastKind? (read c cs).rest := by
  obtain ⟨d, ds, hrest⟩ := List.exists_cons_of_ne_nil h
  rw [lastKind?_cons, hrest, lastKind?_cons, Option.or_assoc, Option.some_or]

/-! ### White space -/

theorem kinds_dropWhile_isBlank (cs : List Char) : kinds (cs.dropWhile isBlank) = kinds cs := by
  cases cs with
  | nil => rfl
  | cons c cs =>
    cases hc : isBlank c with
    | false => rw [List.dropWhile_cons_of_neg (by simp [hc])]
    | true =>
      rw [List.dropWhile_cons_of_pos hc, kinds_cons, Lexeme.read_of_isBlank hc]
      rfl

theorem kinds_append_of_isBlank {l : List Char} (h : ∀ c ∈ l, isBlank c = true) (r : List Char) :
    kinds (l ++ r) = kinds r := by
  rw [← kinds_dropWhile_isBlank, List.dropWhile_append_of_pos h, kinds_dropWhile_isBlank]

theorem kinds_cons_of_isBlank {c : Char} (h : isBlank c = true) (r : List Char) :
    kinds (c :: r) = kinds r :=
  kinds_append_of_isBlank (List.forall_mem_singleton.mpr h) r

/-! ### Setting texts side by side -/

/-- A text that can be followed by another one: it ends in no comment and in no stray backslash, and
no digits of the other one can belong to a number in it. -/
def Sound (cs : List Char) : Prop :=
  ∀ kind ∈ kinds cs, kind.IsSound

theorem Sound.kind_read {c : Char} {cs : List Char} (h : Sound (c :: cs)) :
    (read c cs).kind.IsSound := by
  by_cases hblank : (read c cs).kind = .blank
  · rw [hblank]
    trivial
  · exact h _ (by rw [kinds_cons, if_neg hblank]; exact List.mem_cons_self)

theorem Sound.rest_read {c : Char} {cs : List Char} (h : Sound (c :: cs)) :
    Sound (read c cs).rest := by
  intro kind hkind
  exact h kind (by rw [kinds_cons]; exact List.mem_append_right _ hkind)

theorem not_glues_of_startsWithLetter {r : List Char} (h : startsWithLetter r = false)
    (l : List Char) : ¬ Glues l r := by
  rintro ⟨hr, -⟩
  rw [h] at hr
  cases hr

/-- A sound token other than white space goes on only where it is a control word before a letter. -/
theorem not_goesOn_of_not_glues {c d : Char} {cs ds : List Char} (h : (read c cs).kind.IsSound)
    (hblank : (read c cs).kind ≠ .blank) (hrest : (read c cs).rest = [])
    (hglue : ¬ Glues (c :: cs) (d :: ds)) : ¬ (read c cs).kind.GoesOn d := by
  intro hgoes
  have hlast : lastKind? (c :: cs) = some (read c cs).kind := by
    rw [lastKind?_cons, hrest, lastKind?_nil, Option.none_or]
  cases hkind : (read c cs).kind with
  | command name =>
    rw [hkind] at hgoes hlast
    refine hglue ⟨hgoes.2, ?_⟩
    rw [hlast]
    exact List.all_eq_true.mpr hgoes.1
  | blank => exact hblank hkind
  | comment content => rw [hkind] at h; exact h
  | loneBackslash => rw [hkind] at h; exact h
  | digits run => rw [hkind] at h; exact h
  | ending => rw [hkind] at hgoes; exact hgoes
  | groupOpen => rw [hkind] at hgoes; exact hgoes
  | groupClose => rw [hkind] at hgoes; exact hgoes
  | optionalOpen => rw [hkind] at hgoes; exact hgoes
  | optionalClose => rw [hkind] at hgoes; exact hgoes
  | letter e => rw [hkind] at hgoes; exact hgoes
  | punct e => rw [hkind] at hgoes; exact hgoes

theorem Glues.append {l r : List Char} (h : Glues l r) (s : List Char) : Glues l (r ++ s) := by
  obtain ⟨hletter, hword⟩ := h
  cases r with
  | nil => cases hletter
  | cons c cs => exact ⟨hletter, hword⟩

theorem glues_rest {c : Char} {cs r : List Char} (hrest : (read c cs).rest ≠ []) :
    Glues (read c cs).rest r ↔ Glues (c :: cs) r := by
  rw [Glues, Glues, lastKind?_cons_of_rest_ne hrest]

/-- The token at the front stays when something is set behind a text that goes on after it. -/
theorem read_append_of_rest_ne {c : Char} {cs : List Char} (h : (read c cs).rest ≠ [])
    (r : List Char) : read c (cs ++ r) =
      ⟨(read c cs).kind, (read c cs).text, (read c cs).rest ++ r⟩ := by
  refine Lexeme.read_append fun d hd => (Lexeme.maximal_read c cs).stops d ?_
  rwa [List.head?_append_of_ne_nil _ h] at hd

theorem covers_of_rest_eq {c : Char} {cs : List Char} (h : (read c cs).rest = []) :
    (read c cs).kind.Covers (c :: cs) := by
  have hcovers := (Lexeme.maximal_read c cs).covers
  have htext := Lexeme.text_append_rest c cs
  rw [h, List.append_nil] at htext
  rwa [htext] at hcovers

/-- The tokens of two texts side by side are those of each, when nothing is glued together. -/
theorem kinds_append {l r : List Char} (hl : Sound l) (h : ¬ Glues l r) :
    kinds (l ++ r) = kinds l ++ kinds r := by
  induction l using Lexeme.text_induction with
  | nil => rw [kinds_nil, List.nil_append, List.nil_append]
  | cons c cs ih =>
    by_cases hrest : (read c cs).rest = []
    · have hcovers := covers_of_rest_eq hrest
      by_cases hblank : (read c cs).kind = .blank
      · rw [hblank] at hcovers
        rw [kinds_append_of_isBlank hcovers.2, kinds_cons, if_pos hblank, hrest, kinds_nil]
        rfl
      · have hstops : ∀ d ∈ r.head?, ¬ (read c cs).kind.GoesOn d := by
          intro d hd
          obtain ⟨ds, rfl⟩ := List.head?_eq_some_iff.mp hd
          exact not_goesOn_of_not_glues hl.kind_read hblank hrest h
        have hread : read c (cs ++ r) = ⟨(read c cs).kind, (read c cs).text, r⟩ := by
          rw [Lexeme.read_append (by rwa [hrest, List.nil_append]), hrest, List.nil_append]
        rw [List.cons_append, kinds_cons, kinds_cons, hread, hrest, kinds_nil, List.append_nil]
    · rw [List.cons_append, kinds_cons, kinds_cons, read_append_of_rest_ne hrest, List.append_assoc,
        ← ih hl.rest_read ((glues_rest hrest).not.mpr h)]

/-- Letters behind a control word become a part of its name. -/
theorem kind_read_append {name r : List Char} (hname : ∀ c ∈ name, c.isAlpha = true)
    (hr : startsWithLetter r = true) : (read '\\' (name ++ r)).kind =
      .command (String.ofList (name ++ r.takeWhile Char.isAlpha)) := by
  have hletter : ∃ d ds, name ++ r = d :: ds ∧ d.isAlpha = true := by
    cases name with
    | nil =>
      cases r with
      | nil => cases hr
      | cons d ds => exact ⟨d, ds, rfl, hr⟩
    | cons d ds => exact ⟨d, ds ++ r, rfl, hname d List.mem_cons_self⟩
  obtain ⟨d, ds, hlist, hd⟩ := hletter
  show (Lexeme.control (name ++ r)).kind = _
  rw [hlist, Lexeme.control_of_isAlpha hd, Lexeme.run, ← hlist, List.takeWhile_append_of_pos hname]

/-- Where the last token is glued to what follows, not even the tokens of the first text stay. -/
theorem not_isPrefix_kinds_append {l r : List Char} (h : Glues l r) :
    ¬ kinds l <+: kinds (l ++ r) := by
  induction l using Lexeme.text_induction with
  | nil => exact absurd h.2 (by simp)
  | cons c cs ih =>
    by_cases hrest : (read c cs).rest = []
    · have hcovers := covers_of_rest_eq hrest
      obtain ⟨hletter, hword⟩ := h
      rw [lastKind?_cons, hrest, lastKind?_nil, Option.none_or, Option.any_some] at hword
      cases hkind : (read c cs).kind with
      | command name =>
        rw [hkind] at hcovers hword
        have hletters : ∀ d ∈ name.toList, d.isAlpha = true := List.all_eq_true.mp hword
        obtain ⟨rfl, rfl⟩ := List.cons.inj hcovers.1
        rw [List.cons_append, kinds_cons, kinds_cons, kind_read_append hletters hletter, hkind, hrest,
          kinds_nil]
        intro hprefix
        have hname := (List.cons_prefix_cons.mp hprefix).1
        rw [Token.Kind.command.injEq] at hname
        have hlonger := congrArg String.toList hname
        rw [String.toList_ofList, List.self_eq_append_right] at hlonger
        cases r with
        | nil => cases hletter
        | cons d ds =>
          rw [List.takeWhile_cons_of_pos (show d.isAlpha = true from hletter)] at hlonger
          cases hlonger
      | _ => rw [hkind] at hword; cases hword
    · rw [List.cons_append, kinds_cons, kinds_cons, read_append_of_rest_ne hrest,
        List.prefix_append_right_inj]
      exact ih ((glues_rest hrest).mpr h)

/-! ### A space where it is needed -/

theorem endsInControlWord_of_lastKind? {l : List Char}
    (h : (lastKind? l).any Token.Kind.isControlWord = true) : endsInControlWord l = true := by
  induction l using Lexeme.text_induction with
  | nil => exact absurd h (by simp)
  | cons c cs ih =>
    by_cases hrest : (read c cs).rest = []
    · have hcovers := covers_of_rest_eq hrest
      rw [lastKind?_cons, hrest, lastKind?_nil, Option.none_or, Option.any_some] at h
      cases hkind : (read c cs).kind with
      | command name =>
        rw [hkind] at hcovers h
        obtain ⟨htext, hname⟩ := hcovers
        have hletters : ∀ d ∈ name.toList, d.isAlpha = true := List.all_eq_true.mp h
        rw [htext]
        rcases hname with ⟨hne, -⟩ | ⟨d, rfl, hd⟩
        · exact endsInControlWord_word hne hletters
        · rw [hletters d (by simp)] at hd
          cases hd
      | _ => rw [hkind] at h; cases h
    · rw [lastKind?_cons_of_rest_ne hrest] at h
      rw [← Lexeme.text_append_rest c cs]
      exact endsInControlWord_append _ (ih h)

theorem not_glues_parenthesized (text : String) (r : List Char) :
    ¬ Glues (parenthesized text).toList r := by
  rintro ⟨-, hlast⟩
  have hword := endsInControlWord_of_lastKind? hlast
  simp [parenthesized, endsInControlWord] at hword

/-- `join` never glues two texts together. -/
theorem kinds_join {l r : String} (hl : Sound l.toList) :
    kinds (join l r).toList = kinds l.toList ++ kinds r.toList := by
  unfold join
  split
  · have hspace : ¬ Glues l.toList (' ' :: r.toList) := not_glues_of_startsWithLetter rfl _
    rw [String.toList_append, String.toList_append, List.append_assoc]
    show kinds (l.toList ++ ' ' :: r.toList) = _
    rw [kinds_append hl hspace, kinds_cons_of_isBlank rfl]
  · next hletter =>
    rw [String.toList_append]
    refine kinds_append hl fun hglues => hletter ?_
    rw [hglues.1, endsInControlWord_of_lastKind? hglues.2]
    rfl

end Text

/-- The text has just these tokens besides white space, and they stay when others follow. -/
structure Lexes (text : String) (kinds : List Token.Kind) : Prop where
  kinds_eq : Text.kinds text.toList = kinds
  sound : ∀ kind ∈ kinds, kind.IsSound

namespace Lexes

open Text (Glues)

variable {l r : String} {ks ms : List Token.Kind}

theorem of_sound (h : Text.Sound l.toList) : Lexes l (Text.kinds l.toList) :=
  ⟨rfl, h⟩

theorem text_sound (h : Lexes l ks) : Text.Sound l.toList := by
  rw [Text.Sound, h.kinds_eq]
  exact h.sound

theorem empty : Lexes "" [] :=
  ⟨Text.kinds_nil, nofun⟩

theorem append (hl : Lexes l ks) (hr : Lexes r ms) (h : ¬ Glues l.toList r.toList) :
    Lexes (l ++ r) (ks ++ ms) := by
  refine ⟨?_, List.forall_mem_append.mpr ⟨hl.sound, hr.sound⟩⟩
  rw [String.toList_append, Text.kinds_append hl.text_sound h, hl.kinds_eq, hr.kinds_eq]

theorem append_iff (hl : Lexes l ks) (hr : Lexes r ms) :
    Text.kinds (l ++ r).toList = ks ++ ms ↔ ¬ Glues l.toList r.toList := by
  constructor
  · intro h hglues
    apply Text.not_isPrefix_kinds_append hglues
    rw [← String.toList_append, h, hl.kinds_eq]
    exact List.prefix_append ks ms
  · exact fun h => (hl.append hr h).kinds_eq

/-- Of three texts, the first one can be glued to the last one, too. -/
theorem append_append_iff {s : String} {ns : List Token.Kind} (hl : Lexes l ks) (hr : Lexes r ms)
    (hs : Lexes s ns) : Text.kinds (l ++ r ++ s).toList = ks ++ ms ++ ns ↔
      ¬ Glues l.toList (r ++ s).toList ∧ ¬ Glues (l ++ r).toList s.toList := by
  have hfront (h : ¬ Glues l.toList (r ++ s).toList) : Lexes (l ++ r) (ks ++ ms) := by
    refine hl.append hr fun hglues => h ?_
    rw [String.toList_append]
    exact hglues.append s.toList
  constructor
  · intro h
    have hfirst : ¬ Glues l.toList (r ++ s).toList := by
      intro hglues
      apply Text.not_isPrefix_kinds_append hglues
      rw [← String.toList_append, ← String.append_assoc, h, hl.kinds_eq, List.append_assoc]
      exact List.prefix_append ks _
    exact ⟨hfirst, ((hfront hfirst).append_iff hs).mp h⟩
  · rintro ⟨hfirst, hsecond⟩
    exact ((hfront hfirst).append_iff hs).mpr hsecond

theorem join (hl : Lexes l ks) (hr : Lexes r ms) : Lexes (Text.join l r) (ks ++ ms) := by
  refine ⟨?_, List.forall_mem_append.mpr ⟨hl.sound, hr.sound⟩⟩
  rw [Text.kinds_join hl.text_sound, hl.kinds_eq, hr.kinds_eq]

/-! ### Braces, parentheses and commas -/

/-- A text that is one token. -/
theorem single {c : Char} {cs : List Char} {kind : Token.Kind} (hl : l.toList = c :: cs)
    (h : Lexeme.read c cs = ⟨kind, c :: cs, []⟩) (hblank : kind ≠ .blank) (hkind : kind.IsSound) :
    Lexes l [kind] := by
  refine ⟨?_, List.forall_mem_singleton.mpr hkind⟩
  rw [hl, Text.kinds_cons, h]
  show (if kind = .blank then [] else [kind]) ++ Text.kinds [] = _
  rw [if_neg hblank, Text.kinds_nil]
  rfl

/-- Nothing is glued to a character that is a token of its own. -/
theorem mark {c : Char} {kind : Token.Kind} (hl : l.toList = [c])
    (h : Lexeme.read c [] = .single kind c []) (hblank : kind ≠ .blank) (hkind : kind.IsSound)
    (hword : kind.isControlWord = false) (hr : Lexes r ms) : Lexes (l ++ r) (kind :: ms) := by
  refine (single hl h hblank hkind).append hr ?_
  rintro ⟨-, hlast⟩
  rw [hl, Text.lastKind?_cons, h] at hlast
  change ((Text.lastKind? []).or (some kind)).any _ = true at hlast
  rw [Text.lastKind?_nil, Option.none_or, Option.any_some, hword] at hlast
  cases hlast

/-- The comma between two arguments. -/
theorem comma (hr : Lexes r ms) : Lexes (", " ++ r) (.punct ',' :: ms) := by
  have hspace : Lexes (" " ++ r) ms := by
    refine ⟨?_, hr.sound⟩
    rw [String.toList_append]
    exact (Text.kinds_cons_of_isBlank rfl _).trans hr.kinds_eq
  have hcomma : Lexes ("," ++ (" " ++ r)) (.punct ',' :: ms) :=
    hspace.mark rfl rfl nofun trivial rfl
  rwa [← String.append_assoc] at hcomma

theorem braced (h : Lexes r ks) : Lexes (Text.braced r) (.groupOpen :: (ks ++ [.groupClose])) := by
  have hclose : Lexes "\x7d" [.groupClose] := single rfl rfl (by decide) trivial
  have hinside := h.append hclose (Text.not_glues_of_startsWithLetter rfl _)
  rw [Text.braced, String.append_assoc]
  exact hinside.mark rfl rfl (by decide) trivial rfl

theorem parenthesized (h : Lexes r ks) :
    Lexes (Text.parenthesized r) (.punct '(' :: (ks ++ [.punct ')'])) := by
  have hclose : Lexes ")" [.punct ')'] := single rfl rfl (by decide) trivial
  have hinside := h.append hclose (Text.not_glues_of_startsWithLetter rfl _)
  rw [Text.parenthesized, String.append_assoc]
  exact hinside.mark rfl rfl (by decide) trivial rfl

theorem appendBraced (hl : Lexes l ks) (hr : Lexes r ms) :
    Lexes (l ++ Text.braced r) (ks ++ .groupOpen :: (ms ++ [.groupClose])) := by
  refine hl.append hr.braced (Text.not_glues_of_startsWithLetter ?_ _)
  simp [Text.braced, Text.startsWithLetter]

theorem appendParenthesized (hl : Lexes l ks) (hr : Lexes r ms) :
    Lexes (l ++ Text.parenthesized r) (ks ++ .punct '(' :: (ms ++ [.punct ')'])) := by
  refine hl.append hr.parenthesized (Text.not_glues_of_startsWithLetter ?_ _)
  simp [Text.parenthesized, Text.startsWithLetter]

/-- Texts with commas between them. -/
theorem intercalate {texts : List String} (h : ∀ text ∈ texts, Text.Sound text.toList) :
    Lexes (String.intercalate ", " texts)
      (List.intercalate [.punct ','] (texts.map fun text => Text.kinds text.toList)) := by
  induction texts with
  | nil => exact empty
  | cons text texts ih =>
    have hfirst : Lexes text (Text.kinds text.toList) := .of_sound (h text List.mem_cons_self)
    cases texts with
    | nil => simpa using hfirst
    | cons text' texts =>
      have hmore := (ih fun t ht => h t (List.mem_cons_of_mem _ ht)).comma
      rw [String.intercalate_cons_cons, String.append_assoc, List.map_cons, List.map_cons,
        List.intercalate_cons_cons, List.append_assoc, List.singleton_append]
      refine hfirst.append hmore (Text.not_glues_of_startsWithLetter ?_ _)
      simp [Text.startsWithLetter]

end Lexes

end TexFormula
