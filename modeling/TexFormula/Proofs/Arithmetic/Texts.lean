import TexFormula.Notation.Writers
import TexFormula.Proofs.Arithmetic.Sums

/-!
# Texts of arithmetic

The texts that the serializer puts together, by what they read as: units and products without a sign
in front (`UnitText`, `PhraseText`), products behind any number of minus signs (`SignedText`) and
sums (`SumText`). There is one lemma for each way of putting texts together.
-/

open Filter TexFormula.Parser

namespace TexFormula

namespace Text

theorem endsInControlWord_cons {c : Char} (halpha : c.isAlpha = false) (hslash : c ≠ '\\')
    (cs : List Char) : endsInControlWord (c :: cs) = endsInControlWord cs := by
  have htake : (cs.reverse ++ [c]).takeWhile Char.isAlpha = cs.reverse.takeWhile Char.isAlpha := by
    rw [List.takeWhile_append]
    split
    · next hall =>
      rw [List.takeWhile_cons_of_neg (by rw [halpha]; exact Bool.false_ne_true), List.append_nil,
        (List.takeWhile_prefix Char.isAlpha).eq_of_length hall]
    · rfl
  have hdrop : (cs.reverse ++ [c]).dropWhile Char.isAlpha =
      cs.reverse.dropWhile Char.isAlpha ++ [c] := by
    rw [List.dropWhile_append]
    split
    · next hall =>
      rw [List.isEmpty_iff.mp hall,
        List.dropWhile_cons_of_neg (by rw [halpha]; exact Bool.false_ne_true), List.nil_append]
    · rfl
  unfold endsInControlWord
  rw [List.reverse_cons, htake, hdrop]
  cases cs.reverse.takeWhile Char.isAlpha with
  | nil => rfl
  | cons a as =>
    cases cs.reverse.dropWhile Char.isAlpha with
    | nil => simp [hslash]
    | cons d ds =>
      by_cases hd : d = '\\' <;> simp [hd]

/-- Nothing goes on behind a sign. -/
theorem Severs.of_sign {c : Char} (halpha : c.isAlpha = false) (hdigit : c.isDigit = false)
    (l r : List Char) : Severs (l ++ [c]) r := by
  refine ⟨fun _ => ?_, fun _ => ?_⟩
  · unfold endsInControlWord
    rw [List.reverse_append, List.reverse_singleton, List.singleton_append,
      List.takeWhile_cons_of_neg (by rw [halpha]; exact Bool.false_ne_true)]
  · unfold endsWithDigit
    rw [List.getLast?_concat]
    exact hdigit

theorem join_nothing (left : String) : join left "" = left := by
  unfold join
  rw [show startsWithLetter "".toList = false from rfl, Bool.false_and]
  exact String.append_empty

theorem join_minus (left right : String) : join ("-" ++ left) right = "-" ++ join left right := by
  unfold join
  have hword : endsInControlWord ("-" ++ left).toList = endsInControlWord left.toList := by
    rw [String.toList_append]
    exact endsInControlWord_cons rfl (by decide) _
  rw [hword]
  split
  · rw [String.append_assoc, String.append_assoc, String.append_assoc]
  · rw [String.append_assoc]

theorem head?_append {left : String} (h : left.toList.head?.isSome = true) (right : String) :
    (left ++ right).toList.head? = left.toList.head? := by
  rw [String.toList_append, List.head?_append]
  obtain ⟨c, hc⟩ := Option.isSome_iff_exists.mp h
  rw [hc]
  rfl

theorem head?_join {left : String} (h : left.toList.head?.isSome = true) (right : String) :
    (join left right).toList.head? = left.toList.head? := by
  unfold join
  split
  · rw [String.append_assoc, head?_append h]
  · exact head?_append h right

end Text

variable {D : Set (String → ℚ)} {p : Precedence} {f g : Meaning} {t text written : String}
  {P Q : Language Token}

/-! ### Shapes of texts -/

/-- The text is a letter, a group, a fraction or a power of one of them. -/
structure UnitText (D : Set (String → ℚ)) (f : Meaning) (text : String) : Prop where
  opens : ∃ c ∈ text.toList.head?, c ≠ '-' ∧ c.isDigit = false
  spells : ∃ P, Spells text.toList P ∧ Starts P ∧ Piece D .power (fun _ => True) f P

/-- The text is a product without a sign in front. -/
structure PhraseText (D : Set (String → ℚ)) (f : Meaning) (text : String) : Prop where
  opens : ∃ c ∈ text.toList.head?, c ≠ '-'
  spells : ∃ P, Spells text.toList P ∧ Phrase D (Text.startsWithDigit text) f P

/-- The text is a product with minus signs in front, perhaps none. -/
inductive SignedText (D : Set (String → ℚ)) : Meaning → String → Prop
  | phrase {f : Meaning} {text : String} (h : PhraseText D f text) : SignedText D f text
  | minus {f : Meaning} {text : String} (h : SignedText D f text) : SignedText D (-f) ("-" ++ text)

/-- The text is a sum. -/
def SumText (D : Set (String → ℚ)) (f : Meaning) (text : String) : Prop :=
  ∃ P, Spells text.toList P ∧ Piece D .addition EndsProduct f P

theorem UnitText.congr (h : UnitText D f text) (hfg : ∀ σ ∈ D, f σ = g σ) : UnitText D g text := by
  obtain ⟨P, hspells, hstarts, hpiece⟩ := h.spells
  exact ⟨h.opens, P, hspells, hstarts, hpiece.mono (Nat.le_refl _) (fun _ h => h) hfg⟩

theorem PhraseText.congr (h : PhraseText D f text) (hfg : ∀ σ ∈ D, f σ = g σ) :
    PhraseText D g text := by
  obtain ⟨P, hspells, hphrase⟩ := h.spells
  exact ⟨h.opens, P, hspells, hphrase.congr hfg⟩

theorem SignedText.congr (h : SignedText D f text) (hfg : ∀ σ ∈ D, f σ = g σ) :
    SignedText D g text := by
  induction h generalizing g with
  | phrase h => exact .phrase (h.congr hfg)
  | @minus f text h ih =>
    rw [← neg_neg g]
    exact .minus (ih fun σ hσ => by simp [← hfg σ hσ])

theorem SumText.congr (h : SumText D f text) (hfg : ∀ σ ∈ D, f σ = g σ) : SumText D g text := by
  obtain ⟨P, hspells, hpiece⟩ := h
  exact ⟨P, hspells, hpiece.mono (Nat.le_refl _) (fun _ h => h) hfg⟩

theorem UnitText.startsWithDigit_eq_false (h : UnitText D f text) :
    Text.startsWithDigit text = false := by
  obtain ⟨c, hc, -, hdigit⟩ := h.opens
  rw [Text.startsWithDigit, hc]
  exact hdigit

theorem UnitText.phrase (h : UnitText D f text) : PhraseText D f text := by
  obtain ⟨c, hc, hminus, -⟩ := h.opens
  obtain ⟨P, hspells, hstarts, hpiece⟩ := h.spells
  refine ⟨⟨c, hc, hminus⟩, P, hspells, ?_⟩
  rw [h.startsWithDigit_eq_false]
  exact .ofUnit hpiece (Nat.le_refl _) hstarts

/-! ### Units -/

theorem UnitText.letter {c : Char} (hc : IsSymbolLetter c) :
    UnitText D (fun σ => σ (String.singleton c)) (String.singleton c) := by
  have hletter : Text.isLetter c = true := Text.isLetter_of_isAlpha hc.1
  have hminus : c ≠ '-' := by
    rintro rfl
    exact absurd hc.1 (by decide)
  have hspells : Spells (String.singleton c).toList (Token.one (.letter c)) := by
    rw [String.toList_singleton]
    exact .letter hletter
  refine ⟨⟨c, by rw [String.toList_singleton]; rfl, hminus, Text.isDigit_of_isLetter hletter⟩,
    _, hspells, ?_, (Piece.letter hc).mono (by decide) (fun _ h => h) fun _ _ => rfl⟩
  rintro _ ⟨t, rfl, hkind⟩
  exact ⟨t, [], rfl, .inl ⟨c, hc, hkind⟩⟩

theorem SumText.parenthesized (h : SumText D f text) : UnitText D f (Text.parenthesized text) := by
  obtain ⟨P, hspells, hpiece⟩ := h
  have hinside : Piece D .addition EndsSum f P :=
    hpiece.mono (Nat.le_refl _) (fun _ h => h.endsProduct) fun _ _ => rfl
  refine ⟨⟨'(', by simp [Text.parenthesized], by decide, rfl⟩, _, hspells.parenthesized, ?_,
    (hinside.parenthesized _).mono (by decide) (fun _ h => h) fun _ _ => rfl⟩
  intro us hus
  obtain ⟨u, ts, _, rfl, hu, -, -⟩ := mem_enclosed_iff.mp hus
  exact ⟨u, _, rfl, .inr (.inl hu)⟩

theorem UnitText.fraction (h : SumText D f t) (h' : SumText D g text) (hne : ∀ σ ∈ D, g σ ≠ 0) :
    UnitText D (fun σ => f σ / g σ) (Writers.fraction t text) := by
  obtain ⟨P, hspells, hpiece⟩ := h
  obtain ⟨Q, hspells', hpiece'⟩ := h'
  have htop : Piece D .addition EndsSum f P :=
    hpiece.mono (Nat.le_refl _) (fun _ h => h.endsProduct) fun _ _ => rfl
  have hbottom : Piece D .addition EndsSum g Q :=
    hpiece'.mono (Nat.le_refl _) (fun _ h => h.endsProduct) fun _ _ => rfl
  have hcommand : Spells "\\frac".toList (Token.one (.command "frac")) :=
    .command (List.cons_ne_nil 'f' _) (List.all_eq_true.mp (by decide))
  refine ⟨⟨'\\', by simp [Writers.fraction], by decide, rfl⟩, _,
    (hcommand.appendBraced hspells).appendBraced hspells', ?_, ?_⟩
  · rw [mul_assoc]
    intro us hus
    obtain ⟨_, ⟨u, rfl, hu⟩, vs, -, rfl⟩ := Language.mem_mul.mp hus
    exact ⟨u, vs, rfl, .inr (.inr ⟨_, by decide, hu⟩)⟩
  · rw [mul_assoc]
    exact (htop.fraction hbottom hne _).mono (by decide) (fun _ h => h) fun _ _ => rfl

/-! ### Numbers and powers -/

/-- The digits of a whole number as they are written. -/
def numeralText (n : Nat) : String :=
  String.ofList (NumberFormat.grouped n)

theorem spells_numeralText (n : Nat) : Spells (numeralText n).toList (numeralTokens n) := by
  rw [numeralText, String.toList_ofList]
  exact .numeral n

theorem exists_head?_numeralText (n : Nat) :
    ∃ c ∈ (numeralText n).toList.head?, c.isDigit = true := by
  rw [numeralText, String.toList_ofList]
  obtain ⟨first, others, hgrouped, hflatten, hne, -⟩ := NumberFormat.grouped_eq n
  cases first with
  | nil => exact absurd rfl (hne [] List.mem_cons_self)
  | cons c cs =>
    refine ⟨c, by rw [hgrouped]; rfl, Digits.isDigit_of_mem_ofNat (n := n) c ?_⟩
    rw [← hflatten]
    exact List.mem_cons_self

theorem startsWithDigit_numeralText (n : Nat) : Text.startsWithDigit (numeralText n) = true := by
  obtain ⟨c, hc, hdigit⟩ := exists_head?_numeralText n
  rw [Text.startsWithDigit, hc]
  exact hdigit

theorem Text.exists_head?_append {left : String} {c : Char} (h : c ∈ left.toList.head?)
    (right : String) : c ∈ (left ++ right).toList.head? := by
  rw [Text.head?_append (by rw [h]; rfl)]
  exact h

theorem spells_raised {k : Nat} (h : Spells text.toList P) :
    Spells (text ++ "^" ++ Text.braced (numeralText k)).toList (P * exponentTokens k) := by
  have hcaret : Lexeme.Mark "^".toList (.punct '^') := .punct fun _ => rfl
  have hspells := (h.appendMark hcaret).appendBraced (spells_numeralText k)
  rw [mul_assoc] at hspells
  exact hspells

theorem UnitText.raised (h : UnitText D f text) {k : Nat} (hk : k < tenPow 15) :
    UnitText D (fun σ => f σ ^ k) (text ++ "^" ++ Text.braced (numeralText k)) := by
  obtain ⟨c, hc, hopens⟩ := h.opens
  obtain ⟨P, hspells, hstarts, hpiece⟩ := h.spells
  refine ⟨⟨c, ?_, hopens⟩, _, spells_raised hspells, hstarts.mul _,
    hpiece.power (Nat.le_refl _) (fun _ _ _ => trivial) hk _⟩
  exact Text.exists_head?_append (Text.exists_head?_append hc _) _

theorem PhraseText.numeral {n : Nat} (hn : n < tenPow 15) :
    PhraseText D (fun _ => (n : ℚ)) (numeralText n) := by
  obtain ⟨c, hc, hdigit⟩ := exists_head?_numeralText n
  refine ⟨⟨c, hc, Digits.ne_of_isDigit hdigit rfl⟩, _, spells_numeralText n, ?_⟩
  rw [startsWithDigit_numeralText]
  exact .ofNumeral hn

theorem PhraseText.raised {n k : Nat} (hn : n < tenPow 15) (hk : k < tenPow 15) :
    PhraseText D (fun _ => (n : ℚ) ^ k) (numeralText n ++ "^" ++ Text.braced (numeralText k)) := by
  obtain ⟨c, hc, hdigit⟩ := exists_head?_numeralText n
  have hhead := Text.exists_head?_append (Text.exists_head?_append hc "^")
    (Text.braced (numeralText k))
  refine ⟨⟨c, hhead, Digits.ne_of_isDigit hdigit rfl⟩, _, spells_raised (spells_numeralText n), ?_⟩
  rw [Text.startsWithDigit, hhead, Option.any_some, hdigit]
  exact .ofRaised hn hk

/-! ### Products -/

theorem ne_nil_of_head? {c : Char} {cs : List Char} (h : c ∈ cs.head?) : cs ≠ [] :=
  List.ne_nil_of_mem (List.mem_of_mem_head? h)

theorem spells_minus (h : Spells text.toList P) (hne : text.toList ≠ []) :
    Spells ("-" ++ text).toList (Token.one (.punct '-') * P) := by
  have hminus : Spells "-".toList (Token.one (.punct '-')) := .of_single rfl fun _ => rfl
  rw [String.toList_append]
  exact hminus.append h ⟨fun _ => rfl, fun _ => rfl⟩ hne

/-- A text behind a glyph. -/
theorem SignedText.extend (h : SignedText D f written) {glyph : String} (hQ : Extends D g Q)
    (hspells : ∀ {w : String} {P : Language Token}, Spells w.toList P →
      Spells (Text.join (Text.join w glyph) text).toList (P * Q)) :
    SignedText D (f * g) (Text.join (Text.join written glyph) text) := by
  induction h with
  | @phrase f written h =>
    obtain ⟨c, hc, hminus⟩ := h.opens
    obtain ⟨P, hwritten, hphrase⟩ := h.spells
    have hglyph : (Text.join written glyph).toList.head? = written.toList.head? :=
      Text.head?_join (by rw [hc]; rfl) glyph
    have hhead : (Text.join (Text.join written glyph) text).toList.head? = written.toList.head? := by
      rw [Text.head?_join (by rw [hglyph, hc]; rfl), hglyph]
    refine .phrase ⟨⟨c, hhead ▸ hc, hminus⟩, P * Q, hspells hwritten, ?_⟩
    rw [Text.startsWithDigit, hhead]
    exact hphrase.extend hQ
  | @minus f written h ih =>
    rw [Text.join_minus, Text.join_minus, neg_mul]
    exact .minus ih

/-- A glyph between two texts. -/
theorem spells_glyph {glyph : String} {kind : Token.Kind} (hglyph : Lexeme.Mark glyph.toList kind)
    (hdigit : Text.endsWithDigit glyph.toList = false) (h : Spells text.toList Q)
    (hne : text.toList ≠ []) {w : String} (hw : Spells w.toList P) :
    Spells (Text.join (Text.join w glyph) text).toList (P * (Token.one kind * Q)) := by
  obtain ⟨c, cs, hchars, halpha, hnodigit⟩ := hglyph.opens
  have hglyphne : glyph.toList ≠ [] := hchars ▸ List.cons_ne_nil c cs
  have hleft : Spells (Text.join w glyph).toList (P * Token.one kind) := by
    refine hw.join hglyph.spells hglyphne fun hstarts => ?_
    rw [hchars, List.head?_cons, Option.any_some, hnodigit] at hstarts
    cases hstarts
  have happend : Text.join w glyph = w ++ glyph := by
    unfold Text.join
    rw [hchars, Text.startsWithLetter, halpha, Bool.false_and]
    rfl
  rw [← mul_assoc]
  refine hleft.join h hne fun _ => ?_
  rw [happend, String.toList_append, Text.endsWithDigit_append _ hglyphne, hdigit]

theorem spells_times (h : Spells text.toList Q) (hne : text.toList ≠ []) {w : String}
    (hw : Spells w.toList P) :
    Spells (Text.join (Text.join w "\\times") text).toList
      (P * (Token.one (.command "times") * Q)) := by
  have hglyph : Lexeme.Mark "\\times".toList (.command "times") :=
    .word (List.cons_ne_nil 't' _) (List.all_eq_true.mp (by decide))
  exact spells_glyph hglyph (by decide) h hne hw

theorem SignedText.times (h : SignedText D f written) (h' : PhraseText D g text) :
    SignedText D (f * g) (Text.join (Text.join written "\\times") text) := by
  obtain ⟨c, hc, -⟩ := h'.opens
  obtain ⟨Q, hspells, hphrase⟩ := h'.spells
  exact h.extend hphrase.times fun hw => spells_times hspells (ne_nil_of_head? hc) hw

theorem SignedText.beside (h : SignedText D f written) (h' : PhraseText D g text)
    (hdigit : Text.startsWithDigit text = false) :
    SignedText D (f * g) (Text.join (Text.join written "") text) := by
  obtain ⟨c, hc, -⟩ := h'.opens
  obtain ⟨Q, hspells, hphrase⟩ := h'.spells
  refine h.extend (hphrase.beside hdigit).2 fun hw => ?_
  rw [Text.join_nothing]
  refine hw.join hspells (ne_nil_of_head? hc) fun hstarts => ?_
  rw [Text.startsWithDigit, hstarts] at hdigit
  cases hdigit

theorem SignedText.timesNegative (h : SignedText D f written) {n : Nat} (hn : n < tenPow 15) :
    SignedText D (f * fun _ => -(n : ℚ))
      (Text.join (Text.join written "\\times") ("-" ++ numeralText n)) := by
  obtain ⟨c, hc, -⟩ := exists_head?_numeralText n
  have hspells := spells_minus (spells_numeralText n) (ne_nil_of_head? hc)
  exact h.extend (.timesNegative hn) fun hw => spells_times hspells (by simp) hw

/-! ### Sums -/

theorem SignedText.ne_nil (h : SignedText D f text) : text.toList ≠ [] := by
  cases h with
  | phrase h =>
    obtain ⟨c, hc, -⟩ := h.opens
    exact ne_nil_of_head? hc
  | minus h => simp

/-- By induction on the signs: the text is read as one product, with one more sign in front or not. -/
theorem SignedText.reads (h : SignedText D f text) :
    ∃ P, Spells text.toList P ∧ Piece D .multiplication EndsProduct f P ∧
      (TakesMinus P ∨ Piece D .multiplication EndsProduct (-f) (Token.one (.punct '-') * P)) := by
  induction h with
  | phrase h =>
    obtain ⟨P, hspells, hphrase⟩ := h.spells
    exact ⟨P, hspells, hphrase.alone.endsProduct,
      hphrase.minus.imp id fun hminus => hminus.endsProduct⟩
  | @minus f text h ih =>
    obtain ⟨P, hspells, hpiece, hminus⟩ := ih
    refine ⟨_, spells_minus hspells h.ne_nil, ?_, .inl (takesMinus_minus _)⟩
    rcases hminus with hminus | hminus
    · exact (hpiece.negated hminus).mono (by decide) (fun _ h => h) fun _ _ => rfl
    · exact hminus

theorem SignedText.sum (h : SignedText D f text) : SumText D f text := by
  obtain ⟨P, hspells, hpiece, -⟩ := h.reads
  exact ⟨P, hspells, hpiece.mono (by decide) (fun _ h => h) fun _ _ => rfl⟩

theorem SumText.plus (h : SumText D f written) (h' : PhraseText D g text) :
    SumText D (f + g) (written ++ "+" ++ text) := by
  obtain ⟨P, hwritten, hpiece⟩ := h
  obtain ⟨c, hc, -⟩ := h'.opens
  obtain ⟨Q, hspells, hphrase⟩ := h'.spells
  have hplus : Lexeme.Mark "+".toList (.punct '+') := .punct fun _ => rfl
  refine ⟨_, ?_, hpiece.plus hphrase.alone.endsProduct⟩
  rw [← mul_assoc, String.toList_append]
  refine (hwritten.appendMark hplus).append hspells ?_ (ne_nil_of_head? hc)
  rw [String.toList_append]
  exact .of_sign rfl rfl _ _

theorem SumText.minus (h : SumText D f written) (h' : SignedText D g text) :
    SumText D (f - g) (written ++ "-" ++ text) := by
  obtain ⟨P, hwritten, hpiece⟩ := h
  obtain ⟨Q, hspells, hphrase, -⟩ := h'.reads
  have hminus : Lexeme.Mark "-".toList (.punct '-') := .punct fun _ => rfl
  refine ⟨_, ?_, hpiece.minus hphrase⟩
  rw [← mul_assoc, String.toList_append]
  refine (hwritten.appendMark hminus).append hspells ?_ h'.ne_nil
  rw [String.toList_append]
  exact .of_sign rfl rfl _ _

end TexFormula
