import Mathlib.Computability.Language
import Mathlib.Data.List.TakeWhile
import TexFormula.Notation.Scribe
import TexFormula.Token.Lexer

/-!
# The tokens of texts put together

`Spells l P`: wherever the text `l` stands, it is cut into tokens of the language `P`, and the text
after it is cut as if it stood alone. What comes after must not make the last token of `l` longer
(`Text.Severs`), which is all that `Text.join` takes care of.
-/

namespace TexFormula

namespace Text

/-! ### Classes of characters -/

theorem isBlank_of_isLetter {c : Char} (h : isLetter c = true) : isBlank c = false := by
  have hblanks : ∀ v ∈ blanks, isLetter (Char.ofNat v) = false := by decide +kernel
  cases hblank : isBlank c with
  | false => rfl
  | true =>
    have hc := hblanks c.toNat (List.contains_iff_mem.mp hblank)
    rw [Char.ofNat_toNat, h] at hc
    cases hc

theorem toNat_mem_of_isDigit {c : Char} (h : c.isDigit = true) : c.toNat ∈ List.range' 48 10 := by
  simp only [Char.isDigit, Bool.and_eq_true, decide_eq_true_eq] at h
  rw [List.mem_range'_1]
  exact ⟨h.1, Nat.lt_succ_of_le h.2⟩

theorem isBlank_ne {c d : Char} (h : isBlank c = true) (hd : isBlank d = false) : c ≠ d := by
  rintro rfl
  rw [h] at hd
  cases hd

theorem isDigit_of_isLetter {c : Char} (h : isLetter c = true) : c.isDigit = false := by
  cases hdigit : c.isDigit with
  | false => rfl
  | true =>
    have hdigits : ∀ v ∈ List.range' 48 10, isLetter (Char.ofNat v) = false := by decide +kernel
    have hc := hdigits c.toNat (toNat_mem_of_isDigit hdigit)
    rw [Char.ofNat_toNat, h] at hc
    cases hc

theorem isBlank_of_isDigit {c : Char} (h : c.isDigit = true) : isBlank c = false := by
  have hdigits : ∀ v ∈ List.range' 48 10, isBlank (Char.ofNat v) = false := by decide +kernel
  have hc := hdigits c.toNat (toNat_mem_of_isDigit h)
  rw [Char.ofNat_toNat] at hc
  exact hc

/-! ### Runs of characters -/

theorem takeWhile_append {α : Type} {p : α → Bool} {l r : List α} (hl : ∀ c ∈ l, p c = true)
    (hr : r.head?.any p = false) : (l ++ r).takeWhile p = l := by
  rw [List.takeWhile_append_of_pos hl]
  cases r with
  | nil => simp
  | cons c r =>
    have hc : p c = false := hr
    simp [hc]

theorem dropWhile_append {α : Type} {p : α → Bool} {l r : List α} (hl : ∀ c ∈ l, p c = true)
    (hr : r.head?.any p = false) : (l ++ r).dropWhile p = r := by
  rw [List.dropWhile_append_of_pos hl]
  cases r with
  | nil => rfl
  | cons c r =>
    have hc : p c = false := hr
    simp [hc]

theorem any_head?_eq_startsWithLetter (cs : List Char) :
    cs.head?.any Char.isAlpha = startsWithLetter cs := by
  cases cs with
  | nil => rfl
  | cons c cs => rfl

def endsWithDigit (cs : List Char) : Bool :=
  cs.getLast?.any Char.isDigit

/-- The last token of the first text does not go on in the second one. -/
structure Severs (l r : List Char) : Prop where
  word : startsWithLetter r = true → endsInControlWord l = false
  digits : r.head?.any Char.isDigit = true → endsWithDigit l = false

theorem Severs.nil (l : List Char) : Severs l [] :=
  ⟨nofun, nofun⟩

theorem Severs.of_not {c : Char} (hletter : c.isAlpha = false) (hdigit : c.isDigit = false)
    (l r : List Char) : Severs l (c :: r) := by
  constructor
  · intro h
    rw [show startsWithLetter (c :: r) = c.isAlpha from rfl, hletter] at h
    cases h
  · intro h
    rw [show (c :: r).head?.any Char.isDigit = c.isDigit from rfl, hdigit] at h
    cases h

theorem Severs.of_ends {l : List Char} (hword : endsInControlWord l = false)
    (hdigit : endsWithDigit l = false) (r : List Char) : Severs l r :=
  ⟨fun _ => hword, fun _ => hdigit⟩

theorem Severs.append {l r : List Char} (h : Severs l r) (hr : r ≠ []) (s : List Char) :
    Severs l (r ++ s) := by
  cases r with
  | nil => exact absurd rfl hr
  | cons c r => exact ⟨h.word, h.digits⟩

theorem endsInControlWord_append {r : List Char} (l : List Char) (h : endsInControlWord r = true) :
    endsInControlWord (l ++ r) = true := by
  unfold endsInControlWord at h ⊢
  rw [List.reverse_append]
  have hsplit := List.takeWhile_append_dropWhile (p := Char.isAlpha) (l := r.reverse)
  split at h
  · next a as bs hword hslash =>
    rw [hword, hslash] at hsplit
    have hletters : ∀ c ∈ a :: as, c.isAlpha = true := by
      intro c hc
      rw [← hword] at hc
      exact List.mem_takeWhile_imp hc
    rw [← hsplit, List.append_assoc, takeWhile_append hletters rfl, dropWhile_append hletters rfl]
    rfl
  · cases h

theorem endsWithDigit_append {r : List Char} (l : List Char) (hr : r ≠ []) :
    endsWithDigit (l ++ r) = endsWithDigit r := by
  unfold endsWithDigit
  rw [List.getLast?_append_of_ne_nil _ hr]

/-- Only the last part of a text matters for what may follow it. -/
theorem Severs.of_append {l r s : List Char} (h : Severs (l ++ r) s) (hr : r ≠ []) :
    Severs r s := by
  constructor
  · intro hs
    have hl := h.word hs
    cases hword : endsInControlWord r with
    | false => rfl
    | true => rw [endsInControlWord_append l hword] at hl; cases hl
  · intro hs
    rw [← endsWithDigit_append l hr]
    exact h.digits hs

theorem endsInControlWord_word {name : List Char} (hne : name ≠ [])
    (h : ∀ c ∈ name, c.isAlpha = true) : endsInControlWord ('\\' :: name) = true := by
  unfold endsInControlWord
  have hletters : ∀ c ∈ name.reverse, c.isAlpha = true := fun c hc => h c (List.mem_reverse.mp hc)
  rw [List.reverse_cons, takeWhile_append hletters rfl, dropWhile_append hletters rfl]
  cases hreverse : name.reverse with
  | nil => exact absurd (List.reverse_eq_nil_iff.mp hreverse) hne
  | cons c cs => rfl

theorem join_empty_left (text : String) : join "" text = text := by
  have hword : endsInControlWord "".toList = false := rfl
  rw [join, hword, Bool.and_false]
  exact String.empty_append

end Text

open Text (Severs)

/-! ### Single lexemes -/

namespace Lexeme

theorem control_of_isAlpha {c : Char} (h : c.isAlpha = true) (cs : List Char) :
    control (c :: cs) =
      run (fun name => .command (String.ofList name)) Char.isAlpha '\\' (c :: cs) :=
  if_pos h

theorem control_of_not_isAlpha {c : Char} (h : c.isAlpha = false) (cs : List Char) :
    control (c :: cs) = ⟨.command (String.singleton c), ['\\', c], cs⟩ :=
  if_neg (by rw [h]; exact Bool.false_ne_true)

theorem kind_control_ne_punct (cs : List Char) (d : Char) : (control cs).kind ≠ .punct d := by
  unfold control
  intro h
  repeat' split at h
  all_goals cases h

/-- Punctuation is one character, whatever follows it. -/
theorem read_of_kind_eq_punct {c d : Char} {cs : List Char} (h : (read c cs).kind = .punct d)
    (r : List Char) : read c r = single (.punct c) c r := by
  unfold read at h ⊢
  split_ifs at h ⊢
  all_goals first
    | rfl
    | exact absurd h (kind_control_ne_punct cs d)
    | cases h

/-- Only a backslash starts a command. -/
theorem eq_of_kind_eq_command {c : Char} {cs : List Char} {name : String}
    (h : (read c cs).kind = .command name) : c = '\\' := by
  unfold read at h
  split_ifs at h with _ _ _ _ _ hslash
  all_goals first
    | exact hslash
    | cases h

theorem read_of_isBlank {c : Char} (h : Text.isBlank c = true) (cs : List Char) :
    read c cs = run (fun _ => .blank) Text.isBlank c cs := by
  have hne : ∀ d, Text.isBlank d = false → c ≠ d := fun d => Text.isBlank_ne h
  unfold read
  rw [if_neg (hne '\x7b' rfl), if_neg (hne '\x7d' rfl), if_neg (hne '[' rfl), if_neg (hne ']' rfl),
    if_neg (hne '%' rfl), if_neg (hne '\\' rfl), if_pos h]

theorem read_of_isDigit {c : Char} (h : c.isDigit = true) (cs : List Char) :
    read c cs = run (fun ds => .digits (String.ofList (c :: ds))) Char.isDigit c cs := by
  have hne : ∀ d, d.isDigit = false → c ≠ d := by
    rintro d hd rfl
    rw [h] at hd
    cases hd
  have hblank : Text.isBlank c = false := Text.isBlank_of_isDigit h
  unfold read
  rw [if_neg (hne '\x7b' rfl), if_neg (hne '\x7d' rfl), if_neg (hne '[' rfl),
    if_neg (hne ']' rfl), if_neg (hne '%' rfl), if_neg (hne '\\' rfl),
    if_neg (by rw [hblank]; exact Bool.false_ne_true), if_pos h]

theorem kind_read_of_isDigit {c : Char} (h : c.isDigit = true) :
    (read c []).kind = .digits (String.ofList [c]) := by
  rw [read_of_isDigit h]
  rfl

theorem read_of_isLetter {c : Char} (h : Text.isLetter c = true) (r : List Char) :
    read c r = single (.letter c) c r := by
  have hne : ∀ d, Text.isLetter d = false → c ≠ d := by
    rintro d hd rfl
    rw [h] at hd
    cases hd
  unfold read
  rw [if_neg (hne '\x7b' rfl), if_neg (hne '\x7d' rfl), if_neg (hne '[' rfl),
    if_neg (hne ']' rfl), if_neg (hne '%' rfl), if_neg (hne '\\' rfl),
    if_neg (by rw [Text.isBlank_of_isLetter h]; exact Bool.false_ne_true),
    if_neg (by rw [Text.isDigit_of_isLetter h]; exact Bool.false_ne_true), if_pos h]

end Lexeme

/-! ### The tokens of a text -/

namespace Token

/-- The tokens that carry meaning in a text that starts at byte `offset`. -/
def laid (offset : Nat) (cs : List Char) : List Token :=
  (scan offset cs).filter fun t => !t.kind.isSeparator && t.kind != .ending

theorem laid_nil (offset : Nat) : laid offset [] = [] := by
  unfold laid scan
  rfl

theorem laid_cons {c : Char} {cs : List Char} {lexeme : Lexeme} (h : Lexeme.read c cs = lexeme)
    (hkind : (!lexeme.kind.isSeparator && lexeme.kind != .ending) = true) (offset : Nat) :
    laid offset (c :: cs) =
      ⟨lexeme.kind, offset, offset + Text.byteLength lexeme.text⟩ ::
        laid (offset + Text.byteLength lexeme.text) lexeme.rest := by
  subst h
  unfold laid
  rw [scan]
  exact List.filter_cons_of_pos hkind

theorem laid_cons_of_isSeparator {c : Char} {cs : List Char} {lexeme : Lexeme}
    (h : Lexeme.read c cs = lexeme) (hkind : lexeme.kind.isSeparator = true) (offset : Nat) :
    laid offset (c :: cs) = laid (offset + Text.byteLength lexeme.text) lexeme.rest := by
  subst h
  unfold laid
  rw [scan]
  exact List.filter_cons_of_neg (by simp [next, hkind])

/-- A run of blanks can be cut anywhere. -/
theorem laid_cons_of_isBlank {c : Char} (h : Text.isBlank c = true) (offset : Nat)
    (cs : List Char) : laid offset (c :: cs) = laid (offset + c.utf8Size) cs := by
  rw [laid_cons_of_isSeparator (Lexeme.read_of_isBlank h cs) rfl]
  simp only [Lexeme.run]
  cases cs with
  | nil => rfl
  | cons d ds =>
    cases hd : Text.isBlank d with
    | true =>
      rw [laid_cons_of_isSeparator (Lexeme.read_of_isBlank hd ds) rfl]
      simp [Lexeme.run, hd, Nat.add_assoc]
    | false => simp [hd]

/-- One token of a kind. -/
def one (kind : Kind) : Language Token :=
  {ts | ∃ t : Token, ts = [t] ∧ t.kind = kind}

end Token

/-- The text is cut into tokens of the language, whatever stands before and after it. -/
def Spells (l : List Char) (P : Language Token) : Prop :=
  ∀ offset r, Severs l r → ∃ ts ∈ P,
    Token.laid offset (l ++ r) = ts ++ Token.laid (offset + Text.byteLength l) r

namespace Spells

variable {l r : List Char} {P Q : Language Token}

theorem laid_mem (h : Spells l P) : Token.laid 0 l ∈ P := by
  obtain ⟨ts, hts, hl⟩ := h 0 [] (.nil l)
  rw [Token.laid_nil, List.append_nil, List.append_nil] at hl
  rw [hl]
  exact hts

theorem mono (h : Spells l P) (hPQ : ∀ ts ∈ P, ts ∈ Q) : Spells l Q := by
  intro offset r hr
  obtain ⟨ts, hts, hl⟩ := h offset r hr
  exact ⟨ts, hPQ ts hts, hl⟩

theorem append (hl : Spells l P) (hr : Spells r Q) (hlr : Severs l r) (hne : r ≠ []) :
    Spells (l ++ r) (P * Q) := by
  intro offset s hs
  obtain ⟨ts, hts, hleft⟩ := hl offset (r ++ s) (hlr.append hne s)
  obtain ⟨us, hus, hright⟩ := hr (offset + Text.byteLength l) s (hs.of_append hne)
  refine ⟨ts ++ us, Language.append_mem_mul hts hus, ?_⟩
  rw [List.append_assoc, hleft, hright, Text.byteLength_append, Nat.add_assoc, List.append_assoc]

theorem nil : Spells [] 1 := fun _ _ _ => ⟨[], rfl, rfl⟩

/-- Texts one behind the other, of which the second one may be empty. -/
theorem mul (hl : Spells l P) (hr : Spells r Q) (hlr : Text.Severs l r) : Spells (l ++ r) (P * Q) := by
  by_cases hne : r = []
  · subst hne
    have hempty : [] ∈ Q := by
      have hmem := hr.laid_mem
      rwa [Token.laid_nil] at hmem
    rw [List.append_nil]
    exact hl.mono fun ts hts => Language.mem_mul.mpr ⟨ts, hts, [], hempty, List.append_nil ts⟩
  · exact hl.append hr hlr hne

/-! ### Single tokens -/

theorem of_read {c : Char} {cs : List Char} {kind : Token.Kind}
    (hkind : (!kind.isSeparator && kind != .ending) = true)
    (h : ∀ r, Severs (c :: cs) r → Lexeme.read c (cs ++ r) = ⟨kind, c :: cs, r⟩) :
    Spells (c :: cs) (Token.one kind) := by
  intro offset r hr
  refine ⟨[⟨kind, offset, offset + Text.byteLength (c :: cs)⟩], ⟨_, rfl, rfl⟩, ?_⟩
  rw [List.cons_append, Token.laid_cons (h r hr) hkind]
  rfl

theorem opening : Spells ['\x7b'] (Token.one .groupOpen) :=
  .of_read rfl fun _ _ => rfl

theorem closing : Spells ['\x7d'] (Token.one .groupClose) :=
  .of_read rfl fun _ _ => rfl

theorem openingParenthesis : Spells ['('] (Token.one (.punct '(')) :=
  .of_read rfl fun _ _ => rfl

theorem closingParenthesis : Spells [')'] (Token.one (.punct ')')) :=
  .of_read rfl fun _ _ => rfl

/-- Some character is read in the same way wherever it stands. -/
theorem of_single {c : Char} {kind : Token.Kind}
    (hkind : (!kind.isSeparator && kind != .ending) = true)
    (h : ∀ r, Lexeme.read c r = .single kind c r) : Spells [c] (Token.one kind) :=
  .of_read hkind fun r _ => h r

theorem command {name : List Char} (hne : name ≠ []) (h : ∀ c ∈ name, c.isAlpha = true) :
    Spells ('\\' :: name) (Token.one (.command (String.ofList name))) := by
  refine .of_read rfl fun r hr => ?_
  have hstop : r.head?.any Char.isAlpha = false := by
    rw [Text.any_head?_eq_startsWithLetter]
    cases hletter : Text.startsWithLetter r with
    | false => rfl
    | true => rw [← hr.word hletter, Text.endsInControlWord_word hne h]
  cases name with
  | nil => exact absurd rfl hne
  | cons c cs =>
    show Lexeme.control (c :: (cs ++ r)) = _
    rw [Lexeme.control_of_isAlpha (h c List.mem_cons_self), Lexeme.run, ← List.cons_append,
      Text.takeWhile_append h hstop, Text.dropWhile_append h hstop]

theorem controlSymbol {c : Char} (h : c.isAlpha = false) :
    Spells ['\\', c] (Token.one (.command (String.singleton c))) :=
  .of_read rfl fun r _ => Lexeme.control_of_not_isAlpha h r

theorem letter {c : Char} (h : Text.isLetter c = true) : Spells [c] (Token.one (.letter c)) :=
  .of_single rfl fun r => Lexeme.read_of_isLetter h r

/-! ### Punctuation and commands -/

end Spells

/-- The texts of single tokens that are punctuation or commands. -/
inductive Lexeme.Mark : List Char → Token.Kind → Prop
  | punct {c : Char} (h : ∀ r, read c r = single (.punct c) c r) : Mark [c] (.punct c)
  | word {name : List Char} (hne : name ≠ []) (h : ∀ c ∈ name, c.isAlpha = true) :
      Mark ('\\' :: name) (.command (String.ofList name))
  | symbol {c : Char} (h : c.isAlpha = false) : Mark ['\\', c] (.command (String.singleton c))

namespace Lexeme.Mark

variable {l : List Char} {kind : Token.Kind}

theorem of_read {c : Char} {cs : List Char} (h : read c cs = ⟨kind, c :: cs, []⟩)
    (hkind : (∃ d, kind = .punct d) ∨ ∃ name, kind = .command name) : Mark (c :: cs) kind := by
  rcases hkind with ⟨d, rfl⟩ | ⟨name, rfl⟩
  · have hread := read_of_kind_eq_punct (congrArg Lexeme.kind h)
    rw [hread cs] at h
    cases h
    exact .punct hread
  · have hslash := eq_of_kind_eq_command (congrArg Lexeme.kind h)
    subst hslash
    rw [show read '\\' cs = control cs from rfl] at h
    cases cs with
    | nil => cases h
    | cons d ds =>
      cases hd : d.isAlpha with
      | true =>
        rw [control_of_isAlpha hd, run] at h
        simp only [Lexeme.mk.injEq, Token.Kind.command.injEq] at h
        obtain ⟨rfl, -, hrest⟩ := h
        have hall : ∀ x ∈ d :: ds, x.isAlpha = true := List.dropWhile_eq_nil_iff.mp hrest
        rw [List.takeWhile_eq_self_iff.mpr hall]
        exact .word (List.cons_ne_nil d ds) hall
      | false =>
        rw [control_of_not_isAlpha hd] at h
        cases h
        exact .symbol hd

/-- A text that is one token alone. -/
theorem of_tokens {text : String} (h : (Token.ofSource text).map Token.kind = [kind, .ending])
    (hkind : (∃ d, kind = .punct d) ∨ ∃ name, kind = .command name) : Mark text.toList kind := by
  unfold Token.ofSource at h
  cases htext : text.toList with
  | nil =>
    rw [htext, Token.scan] at h
    cases h
  | cons c cs =>
    rw [htext, Token.scan, List.map_cons] at h
    obtain ⟨hread, hrest⟩ := List.cons.inj h
    have hnil : (read c cs).rest = [] := by
      cases hscan : (read c cs).rest with
      | nil => rfl
      | cons d ds =>
        rw [hscan, Token.scan, List.map_cons] at hrest
        exact absurd (List.cons.inj hrest).2 (by unfold Token.scan; split <;> simp)
    have htaken := text_append_rest c cs
    rw [hnil, List.append_nil] at htaken
    have halone : read c cs = ⟨kind, c :: cs, []⟩ := by
      rw [← htaken, ← hnil, ← hread]
      rfl
    exact .of_read halone hkind

theorem spells (h : Mark l kind) : Spells l (Token.one kind) := by
  cases h with
  | punct h => exact .of_single rfl h
  | word hne h => exact .command hne h
  | symbol h => exact .controlSymbol h

theorem trigger?_eq (h : Mark l kind) : kind.trigger? = some (String.ofList l) := by
  cases h with
  | punct h => exact congrArg some String.singleton_eq_ofList
  | @word name hne h =>
    show some ("\\" ++ String.ofList name) = _
    rw [← List.singleton_append, String.ofList_append]
  | @symbol c h =>
    show some ("\\" ++ String.singleton c) = _
    rw [← List.singleton_append, String.ofList_append, String.singleton_eq_ofList]

/-- No letter and no digit is such a token, or starts it. -/
theorem opens (h : Mark l kind) :
    ∃ c cs, l = c :: cs ∧ c.isAlpha = false ∧ c.isDigit = false := by
  cases h with
  | @punct c h =>
    refine ⟨c, [], rfl, ?_, ?_⟩
    · cases halpha : c.isAlpha with
      | false => rfl
      | true =>
        have hkind := congrArg Lexeme.kind (h [])
        rw [read_of_isLetter (Text.isLetter_of_isAlpha halpha)] at hkind
        cases hkind
    · cases hdigit : c.isDigit with
      | false => rfl
      | true =>
        have hkind := congrArg Lexeme.kind (h [])
        rw [kind_read_of_isDigit hdigit] at hkind
        cases hkind
  | @word name _ _ => exact ⟨'\\', name, rfl, rfl, rfl⟩
  | @symbol c _ => exact ⟨'\\', [c], rfl, rfl, rfl⟩

theorem not_isLetter {c : Char} (h : Mark [c] kind) : Text.isLetter c = false := by
  cases hletter : Text.isLetter c with
  | false => rfl
  | true =>
    cases h with
    | punct h =>
      have hkind := congrArg Lexeme.kind (h [])
      rw [read_of_isLetter hletter] at hkind
      cases hkind
    | word hne _ => exact absurd rfl hne

/-- Such a token is never the end of another one. -/
theorem severs (h : Mark l kind) (left : List Char) : Severs left l := by
  obtain ⟨c, cs, rfl, hletter, hdigit⟩ := h.opens
  exact .of_not hletter hdigit left cs

end Lexeme.Mark

namespace Spells

variable {P Q : Language Token}

/-! ### Pieces put together -/

theorem blank {c : Char} (h : Text.isBlank c = true) : Spells [c] 1 := by
  refine fun offset r _ => ⟨[], rfl, ?_⟩
  simp [Token.laid_cons_of_isBlank h]

/-- Two texts side by side are cut between them. -/
theorem join {left right : String} (hl : Spells left.toList P) (hr : Spells right.toList Q)
    (hne : right.toList ≠ [])
    (hdigits : right.toList.head?.any Char.isDigit = true →
      Text.endsWithDigit left.toList = false) :
    Spells (Text.join left right).toList (P * Q) := by
  unfold Text.join
  split
  · next hword =>
    rw [Bool.and_eq_true] at hword
    rw [String.toList_append, String.toList_append, List.append_assoc]
    cases hright : right.toList with
    | nil => exact absurd hright hne
    | cons c cs =>
      rw [hright] at hword hr
      intro offset s hs
      have hspace : Severs left.toList (' ' :: c :: (cs ++ s)) := .of_not rfl rfl _ _
      obtain ⟨ts, hts, hleft⟩ := hl offset _ hspace
      have hend : Severs ([' '] ++ (c :: cs)) s := hs.of_append (List.cons_ne_nil ' ' _)
      obtain ⟨us, hus, hright⟩ := hr (offset + Text.byteLength left.toList + 1) s
        (hend.of_append (List.cons_ne_nil c cs))
      refine ⟨ts ++ us, Language.append_mem_mul hts hus, ?_⟩
      show Token.laid offset ((left.toList ++ ' ' :: c :: cs) ++ s) = _
      rw [List.append_assoc]
      show Token.laid offset (left.toList ++ ' ' :: c :: (cs ++ s)) = _
      rw [hleft, Token.laid_cons_of_isBlank rfl, show ' '.utf8Size = 1 from rfl, ← List.cons_append,
        hright, List.append_assoc, Text.byteLength_append]
      congr 3
      rw [Nat.add_assoc, Nat.add_assoc]
      rfl
  · next hword =>
    rw [String.toList_append]
    refine hl.append hr ⟨fun hletter => ?_, hdigits⟩ hne
    rw [hletter, Bool.true_and] at hword
    exact Bool.eq_false_of_not_eq_true hword

theorem parenthesized {text : String} (h : Spells text.toList P) :
    Spells (Text.parenthesized text).toList
      (Token.one (.punct '(') * (P * Token.one (.punct ')'))) := by
  have hclosed := h.append closingParenthesis (.of_not rfl rfl _ _) (List.cons_ne_nil ')' [])
  have hlist : (Text.parenthesized text).toList = ['('] ++ (text.toList ++ [')']) := by
    simp [Text.parenthesized, String.toList_append]
  rw [hlist]
  exact openingParenthesis.append hclosed ⟨fun _ => rfl, fun _ => rfl⟩ (by simp)

theorem braced {text : String} (h : Spells text.toList P) :
    Spells (Text.braced text).toList
      (Token.one .groupOpen * (P * Token.one .groupClose)) := by
  have hclosed := h.append closing (.of_not rfl rfl _ _) (List.cons_ne_nil '\x7d' [])
  have hlist : (Text.braced text).toList = ['\x7b'] ++ (text.toList ++ ['\x7d']) := by
    simp [Text.braced, String.toList_append]
  rw [hlist]
  exact opening.append hclosed ⟨fun _ => rfl, fun _ => rfl⟩ (by simp)

theorem appendMark {left mark : String} {kind : Token.Kind} (hl : Spells left.toList P)
    (hm : Lexeme.Mark mark.toList kind) : Spells (left ++ mark).toList (P * Token.one kind) := by
  obtain ⟨c, cs, hmark, -⟩ := hm.opens
  rw [String.toList_append]
  exact hl.append hm.spells (hm.severs _) (by rw [hmark]; exact List.cons_ne_nil c cs)

theorem appendParenthesized {left text : String} (hl : Spells left.toList P)
    (h : Spells text.toList Q) : Spells (left ++ Text.parenthesized text).toList
      (P * (Token.one (.punct '(') * (Q * Token.one (.punct ')')))) := by
  have hparenthesis : (Text.parenthesized text).toList = '(' :: (text.toList ++ [')']) := by
    simp [Text.parenthesized, String.toList_append]
  rw [String.toList_append]
  refine hl.append h.parenthesized ?_ ?_ <;> rw [hparenthesis]
  · exact .of_not rfl rfl _ _
  · exact List.cons_ne_nil _ _

theorem appendBraced {left text : String} (hl : Spells left.toList P) (h : Spells text.toList Q) :
    Spells (left ++ Text.braced text).toList
      (P * (Token.one .groupOpen * (Q * Token.one .groupClose))) := by
  have hbrace : (Text.braced text).toList = '{' :: (text.toList ++ ['}']) := by
    simp [Text.braced, String.toList_append]
  rw [String.toList_append]
  refine hl.append h.braced ?_ ?_ <;> rw [hbrace]
  · exact .of_not rfl rfl _ _
  · exact List.cons_ne_nil _ _

end Spells

end TexFormula
