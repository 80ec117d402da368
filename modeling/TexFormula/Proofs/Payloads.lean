import TexFormula.Number.Decimal
import TexFormula.Proofs.DigitRuns
import TexFormula.Proofs.Spelling

/-!
# Payloads

Which texts are payloads of decimals, piece by piece: a sign, the whole digits, a point with the
fraction and the digits that repeat in parentheses, and a power of ten. `Decimal.parse?_eq_some_iff`
says that just these texts are read, as the decimal with these pieces.

The parentheses may be empty, although the grammar of payloads asks for digits in them. The texts of the
grammar are those that are read and have no empty parentheses.
-/

namespace TexFormula

namespace Digits

theorem ne_of_isDigit {c d : Char} (h : c.isDigit = true) (hd : d.isDigit = false) : c ≠ d := by
  rintro rfl
  rw [h] at hd
  cases hd

/-- The text of an integer, perhaps with a sign. -/
inductive SpellsInt : List Char → Int → Prop
  | plain {ds : List Char} (hne : ds ≠ []) (h : ∀ c ∈ ds, c.isDigit = true) : SpellsInt ds (value ds)
  | plus {ds : List Char} (hne : ds ≠ []) (h : ∀ c ∈ ds, c.isDigit = true) :
      SpellsInt ('+' :: ds) (value ds)
  | minus {ds : List Char} (hne : ds ≠ []) (h : ∀ c ∈ ds, c.isDigit = true) :
      SpellsInt ('-' :: ds) (-value ds)

theorem value?_eq_some_iff {cs : List Char} {n : Nat} :
    value? cs = some n ↔ cs ≠ [] ∧ (∀ c ∈ cs, c.isDigit = true) ∧ value cs = n := by
  unfold value? areDigits
  split
  · next h => simp_all
  · next h => simp_all

theorem SpellsInt.int? {cs : List Char} {n : Int} (h : SpellsInt cs n) : int? cs = some n := by
  have hvalue {ds : List Char} (hne : ds ≠ []) (h : ∀ c ∈ ds, c.isDigit = true) :
      value? ds = some (value ds) := value?_eq_some_iff.mpr ⟨hne, h, rfl⟩
  cases h with
  | plain hne h => exact int?_of_areDigits hne (List.all_eq_true.mpr h)
  | plus hne h =>
    simp only [Digits.int?, hvalue hne h]
    rfl
  | minus hne h =>
    simp only [Digits.int?, hvalue hne h]
    rfl

theorem SpellsInt.of_int? {cs : List Char} {n : Int} (h : Digits.int? cs = some n) : SpellsInt cs n := by
  unfold Digits.int? at h
  split at h
  · next ds =>
    cases hk : value? ds with
    | none => simp [hk] at h
    | some k =>
      obtain ⟨hne, hdigits, rfl⟩ := value?_eq_some_iff.mp hk
      obtain rfl : (value ds : Int) = n := by simpa [hk] using h
      exact .plus hne hdigits
  · next ds =>
    cases hk : value? ds with
    | none => simp [hk] at h
    | some k =>
      obtain ⟨hne, hdigits, rfl⟩ := value?_eq_some_iff.mp hk
      obtain rfl : -(value ds : Int) = n := by simpa [hk] using h
      exact .minus hne hdigits
  · cases hk : value? cs with
    | none => simp [hk] at h
    | some k =>
      obtain ⟨hne, hdigits, rfl⟩ := value?_eq_some_iff.mp hk
      obtain rfl : (value cs : Int) = n := by simpa [hk] using h
      exact .plain hne hdigits

theorem SpellsInt.mem {cs : List Char} {n : Int} (h : SpellsInt cs n) :
    ∀ c ∈ cs, c.isDigit = true ∨ c = '+' ∨ c = '-' := by
  intro c hc
  cases h with
  | plain _ h => exact .inl (h c hc)
  | plus _ h =>
    rcases List.mem_cons.mp hc with rfl | hc
    · exact .inr (.inl rfl)
    · exact .inl (h c hc)
  | minus _ h =>
    rcases List.mem_cons.mp hc with rfl | hc
    · exact .inr (.inr rfl)
    · exact .inl (h c hc)

end Digits

namespace Decimal

/-! ### The pieces -/

/-- What the parts of a decimal consist of. Every decimal that is read from a payload is so. -/
structure WellFormed (d : Decimal) : Prop where
  whole : ∀ c ∈ d.whole.toList, c.isDigit = true
  fraction : ∀ c ∈ d.fraction.toList, c.isDigit = true
  repeating : ∀ c ∈ d.repeating.toList, c.isDigit = true
  nonempty : ¬(d.whole = "" ∧ d.fraction = "" ∧ d.repeating = "")
  exponent : ∀ n ∈ d.exponent, fitsWord n = true

theorem WellFormed.withSign {d : Decimal} (hd : d.WellFormed) (negative : Bool) :
    WellFormed { d with negative := negative } :=
  ⟨hd.whole, hd.fraction, hd.repeating, hd.nonempty, hd.exponent⟩

/-- A sign, or none in front of what is not negative. -/
inductive SignText : Bool → List Char → Prop
  | unsigned : SignText false []
  | plus : SignText false ['+']
  | minus : SignText true ['-']

/-- What stands behind the whole digits: nothing, a point with the fraction, or both and in parentheses
the digits that repeat. `block` says what the parentheses may hold. -/
inductive FractionText (block : List Char → Prop) : List Char → List Char → List Char → Prop
  | absent : FractionText block [] [] []
  | point (fraction : List Char) : FractionText block fraction [] ('.' :: fraction)
  | block (fraction : List Char) {repeating : List Char} (h : block repeating) :
      FractionText block fraction repeating ('.' :: (fraction ++ '(' :: (repeating ++ [')'])))

/-- A power of ten behind either letter, if its exponent fits in 64 bits. -/
inductive ScaleText : Option Int → List Char → Prop
  | unscaled : ScaleText none []
  | scaled {letter : Char} {cs : List Char} {n : Int} (hletter : letter = 'e' ∨ letter = 'E')
      (h : Digits.SpellsInt cs n) (hfits : fitsWord n = true) : ScaleText (some n) (letter :: cs)

/-- The text consists of the pieces of a decimal, whose digits are digits and not all missing. -/
structure HasPieces (block : List Char → Prop) (d : Decimal) (cs : List Char) : Prop where
  wellFormed : d.WellFormed
  pieces : ∃ sign behind scale, SignText d.negative sign ∧
    FractionText block d.fraction.toList d.repeating.toList behind ∧ ScaleText d.exponent scale ∧
    cs = sign ++ (d.whole.toList ++ behind ++ scale)

/-- Without its blanks the text consists of the pieces of a decimal and at most one letter `n` or `d`
behind them. -/
def IsPayload (block : List Char → Prop) (d : Decimal) (text : String) : Prop :=
  ∃ cs mark, Text.withoutBlanks text.toList = cs ++ mark ∧ mark ∈ [[], ['n'], ['d']] ∧
    d.HasPieces block cs

variable {d : Decimal} {block : List Char → Prop} {text : String} {p : Char → Bool}
  {cs front rest fraction repeating sign behind scale : List Char} {negative : Bool}
  {exponent : Option Int}

/-! ### What is read -/

theorem splitAt_eq_none (h : splitAt p cs = (front, none)) :
    cs = front ∧ ∀ c ∈ front, p c = false := by
  unfold splitAt at h
  split at h
  · next hdrop =>
    cases h
    refine ⟨rfl, fun c hc => ?_⟩
    simpa using List.dropWhile_eq_nil_iff.mp hdrop c hc
  · cases h

theorem splitAt_eq_some (h : splitAt p cs = (front, some rest)) :
    ∃ c, p c = true ∧ cs = front ++ c :: rest ∧ ∀ c ∈ front, p c = false := by
  unfold splitAt at h
  split at h
  · cases h
  · next c others hdrop =>
    cases h
    refine ⟨c, ?_, ?_, fun a ha => ?_⟩
    · simpa [hdrop] using List.head?_dropWhile_not (!p ·) cs
    · rw [← hdrop, List.takeWhile_append_dropWhile]
    · simpa using List.mem_takeWhile_imp ha

theorem exists_mark (cs : List Char) :
    ∃ mark ∈ [[], ['n'], ['d']], cs = withoutMark cs ++ mark := by
  unfold withoutMark
  split
  · next c hc =>
    have hsplit : cs = cs.dropLast ++ [c] := (List.dropLast_append_getLast? c hc).symm
    split
    · next hmark =>
      refine ⟨[c], ?_, hsplit⟩
      simpa using hmark
    · exact ⟨[], by simp, (List.append_nil cs).symm⟩
  · exact ⟨[], by simp, (List.append_nil cs).symm⟩

theorem exists_sign (cs : List Char) :
    ∃ sign, SignText (splitSign cs).1 sign ∧ cs = sign ++ (splitSign cs).2 := by
  unfold splitSign
  split
  · exact ⟨_, .minus, rfl⟩
  · exact ⟨_, .plus, rfl⟩
  · exact ⟨_, .unsigned, rfl⟩

theorem exists_scale
    (h : exponent? (splitAt (fun c => c == 'e' || c == 'E') cs).2 = some exponent) :
    ∃ scale, ScaleText exponent scale ∧
      cs = (splitAt (fun c => c == 'e' || c == 'E') cs).1 ++ scale := by
  rcases hsplit : splitAt (fun c => c == 'e' || c == 'E') cs with ⟨front, _ | digits⟩
  · rw [hsplit] at h
    cases h
    exact ⟨[], .unscaled, by rw [(splitAt_eq_none hsplit).1, List.append_nil]⟩
  · rw [hsplit] at h
    obtain ⟨n, hn, rfl⟩ := Option.map_eq_some_iff.mp h
    obtain ⟨hint, hfits⟩ := Option.filter_eq_some_iff.mp hn
    obtain ⟨letter, hletter, rfl, -⟩ := splitAt_eq_some hsplit
    exact ⟨_, .scaled (by simpa using hletter) (.of_int? hint) hfits, rfl⟩

theorem splitFraction?_eq_some (h : splitFraction? cs = some (fraction, repeating)) :
    repeating = [] ∧ cs = fraction ∨ cs = fraction ++ '(' :: (repeating ++ [')']) := by
  unfold splitFraction? at h
  split at h
  · next hsplit =>
    cases h
    exact .inl ⟨rfl, (splitAt_eq_none hsplit).1⟩
  · next front rest hsplit =>
    split at h
    · next hlast =>
      cases h
      obtain ⟨c, hc, hcs, -⟩ := splitAt_eq_some hsplit
      rw [List.dropLast_append_getLast? ')' hlast, ← beq_iff_eq.mp hc]
      exact .inr hcs
    · cases h

theorem exists_behind
    (h : splitFraction? ((splitAt (· == '.') cs).2.getD []) = some (fraction, repeating)) :
    ∃ behind, FractionText (fun _ => True) fraction repeating behind ∧
      cs = (splitAt (· == '.') cs).1 ++ behind := by
  have hcases := splitFraction?_eq_some h
  rcases hsplit : splitAt (· == '.') cs with ⟨front, _ | rest⟩
  · rcases hcases with ⟨rfl, heq⟩ | heq
    · rw [hsplit] at heq
      obtain rfl : fraction = [] := heq.symm
      exact ⟨[], .absent, by rw [(splitAt_eq_none hsplit).1, List.append_nil]⟩
    · rw [hsplit] at heq
      simp at heq
  · rw [hsplit] at hcases
    obtain ⟨c, hc, rfl, -⟩ := splitAt_eq_some hsplit
    obtain rfl : c = '.' := beq_iff_eq.mp hc
    rcases hcases with ⟨rfl, heq⟩ | heq
    · exact ⟨_, .point fraction, by rw [← heq]; rfl⟩
    · exact ⟨_, .block fraction trivial, by rw [← heq]; rfl⟩

theorem forall_isDigit (h : Digits.areDigits cs = true) :
    ∀ c ∈ (String.ofList cs).toList, c.isDigit = true := by
  rw [String.toList_ofList]
  exact List.all_eq_true.mp h

/-- Whatever is read from a payload is well formed. -/
theorem WellFormed.of_parse? {payload : String} (h : parse? payload = some d) : d.WellFormed := by
  unfold parse? at h
  simp only [Option.bind_eq_bind, Option.bind_eq_some_iff] at h
  obtain ⟨exponent, hexponent, ⟨fraction, repeating⟩, -, h⟩ := h
  split at h
  · next hparts =>
    cases h
    simp only [Bool.and_eq_true, Bool.not_eq_true'] at hparts
    obtain ⟨⟨⟨hwhole, hfraction⟩, hrepeating⟩, hnonempty⟩ := hparts
    refine ⟨forall_isDigit hwhole, forall_isDigit hfraction, forall_isDigit hrepeating, ?_, ?_⟩
    · rintro ⟨hw, hf, hr⟩
      dsimp only at hw hf hr
      rw [← String.toList_eq_nil_iff, String.toList_ofList] at hw hf hr
      rw [hw, hf, hr] at hnonempty
      cases hnonempty
    · intro n hn
      obtain ⟨scale, hscale, -⟩ := exists_scale hexponent
      dsimp only at hn
      cases hscale with
      | unscaled => cases hn
      | scaled _ _ hfits => rwa [← Option.some.inj hn]
  · cases h

theorem isPayload_of_parse? (h : parse? text = some d) : d.IsPayload (fun _ => True) text := by
  have hformed := WellFormed.of_parse? h
  unfold parse? at h
  simp only [Option.bind_eq_bind, Option.bind_eq_some_iff] at h
  obtain ⟨exponent, hexponent, ⟨fraction, repeating⟩, hfraction, h⟩ := h
  obtain ⟨mark, hmark, hblanks⟩ := exists_mark (Text.withoutBlanks text.toList)
  obtain ⟨sign, hsign, hunsigned⟩ := exists_sign (withoutMark (Text.withoutBlanks text.toList))
  obtain ⟨scale, hscale, hmantissa⟩ := exists_scale hexponent
  obtain ⟨behind, hbehind, hwhole⟩ := exists_behind hfraction
  split at h
  · cases h
    refine ⟨_, mark, hblanks, hmark, hformed, sign, behind, scale, hsign, ?_, hscale, ?_⟩
    · simpa using hbehind
    · rw [String.toList_ofList, ← hwhole, ← hmantissa, ← hunsigned]
  · cases h

/-! ### What the pieces are read as -/

theorem splitAt_of_forall (h : ∀ c ∈ cs, p c = false) : splitAt p cs = (cs, none) := by
  have hdrop : cs.dropWhile (!p ·) = [] :=
    List.dropWhile_eq_nil_iff.mpr fun c hc => by rw [h c hc]; rfl
  rw [splitAt, hdrop]

theorem splitAt_append {c : Char} (h : ∀ c ∈ cs, p c = false) (hc : p c = true) :
    splitAt p (cs ++ c :: rest) = (cs, some rest) := by
  have hcs : ∀ c ∈ cs, (!p c) = true := fun c hc => by rw [h c hc]; rfl
  have hhead : (c :: rest).head?.any (!p ·) = false := by
    rw [List.head?_cons, Option.any_some, hc]
    rfl
  rw [splitAt, Text.dropWhile_append hcs hhead, Text.takeWhile_append hcs hhead]

theorem SignText.mem (h : SignText negative sign) : ∀ c ∈ sign, c ∈ ['-', '+'] := by
  cases h <;> simp

theorem FractionText.mem (h : FractionText block fraction repeating behind)
    (hfraction : ∀ c ∈ fraction, c.isDigit = true) (hrepeating : ∀ c ∈ repeating, c.isDigit = true) :
    ∀ c ∈ behind, c.isDigit = true ∨ c ∈ ['.', '(', ')'] := by
  intro c hc
  cases h with
  | absent => cases hc
  | point =>
    rcases List.mem_cons.mp hc with rfl | hc
    · exact .inr (by decide)
    · exact .inl (hfraction c hc)
  | block =>
    rw [List.mem_cons, List.mem_append, List.mem_cons, List.mem_append, List.mem_singleton] at hc
    rcases hc with rfl | hc | rfl | hc | rfl
    · exact .inr (by decide)
    · exact .inl (hfraction c hc)
    · exact .inr (by decide)
    · exact .inl (hrepeating c hc)
    · exact .inr (by decide)

theorem ScaleText.mem (h : ScaleText exponent scale) :
    ∀ c ∈ scale, c.isDigit = true ∨ c ∈ ['e', 'E', '+', '-'] := by
  intro c hc
  cases h with
  | unscaled => cases hc
  | scaled hletter h _ =>
    rcases List.mem_cons.mp hc with rfl | hc
    · exact .inr (by rcases hletter with rfl | rfl <;> decide)
    · rcases h.mem c hc with hdigit | rfl | rfl
      · exact .inl hdigit
      · exact .inr (by decide)
      · exact .inr (by decide)

theorem not_mem_of_forall {c : Char} {marks : List Char} (hc : c.isDigit = false) (hmarks : c ∉ marks)
    (h : ∀ a ∈ cs, a.isDigit = true ∨ a ∈ marks) : c ∉ cs := by
  intro hmem
  rcases h c hmem with hdigit | hmark
  · rw [hc] at hdigit
    cases hdigit
  · exact hmarks hmark

/-- The whole digits and what is behind them. -/
theorem WellFormed.mem_mantissa (hd : d.WellFormed)
    (h : FractionText block d.fraction.toList d.repeating.toList behind) :
    ∀ c ∈ d.whole.toList ++ behind, c.isDigit = true ∨ c ∈ ['.', '(', ')'] := by
  intro c hc
  rcases List.mem_append.mp hc with hc | hc
  · exact .inl (hd.whole c hc)
  · exact h.mem hd.fraction hd.repeating c hc

/-- The characters of a payload. -/
theorem HasPieces.mem (h : d.HasPieces block cs) :
    ∀ c ∈ cs, c.isDigit = true ∨ c ∈ ['-', '+', '.', '(', ')', 'e', 'E'] := by
  obtain ⟨hd, sign, behind, scale, hsign, hbehind, hscale, rfl⟩ := h
  intro c hc
  rw [List.mem_append, List.mem_append] at hc
  rcases hc with hc | hc | hc
  · exact .inr ((by simp : ['-', '+'] ⊆ ['-', '+', '.', '(', ')', 'e', 'E']) (hsign.mem c hc))
  · exact (hd.mem_mantissa hbehind c hc).imp_right fun hmem =>
      (by simp : ['.', '(', ')'] ⊆ ['-', '+', '.', '(', ')', 'e', 'E']) hmem
  · exact (hscale.mem c hc).imp_right fun hmem =>
      (by simp : ['e', 'E', '+', '-'] ⊆ ['-', '+', '.', '(', ')', 'e', 'E']) hmem

theorem withoutMark_of_not_mem (hn : 'n' ∉ cs) (hd : 'd' ∉ cs) : withoutMark cs = cs := by
  unfold withoutMark
  split
  · next c hc =>
    have hmem := List.mem_of_getLast? hc
    have hcn : c ≠ 'n' := fun heq => hn (heq ▸ hmem)
    have hcd : c ≠ 'd' := fun heq => hd (heq ▸ hmem)
    rw [beq_false_of_ne hcn, beq_false_of_ne hcd]
    rfl
  · rfl

theorem withoutMark_append {mark : List Char} (hmark : mark ∈ [[], ['n'], ['d']]) (hn : 'n' ∉ cs)
    (hd : 'd' ∉ cs) : withoutMark (cs ++ mark) = cs := by
  simp only [List.mem_cons, List.not_mem_nil, or_false] at hmark
  rcases hmark with rfl | rfl | rfl
  · rw [List.append_nil, withoutMark_of_not_mem hn hd]
  · simp [withoutMark]
  · simp [withoutMark]

theorem exists_whole_eq_cons (hd : d.WellFormed) (hwhole : d.whole ≠ "") :
    ∃ c cs, d.whole.toList = c :: cs ∧ c.isDigit = true := by
  cases hlist : d.whole.toList with
  | nil => exact absurd (String.toList_eq_nil_iff.mp hlist) hwhole
  | cons c cs => exact ⟨c, cs, rfl, hd.whole c (hlist ▸ List.mem_cons_self)⟩

/-- Without its sign a payload starts with a digit or with the point. -/
theorem WellFormed.exists_mantissa_eq_cons (hd : d.WellFormed)
    (h : FractionText block d.fraction.toList d.repeating.toList behind) :
    ∃ c cs, d.whole.toList ++ behind = c :: cs ∧ (c.isDigit = true ∨ c = '.') := by
  by_cases hwhole : d.whole = ""
  · rw [hwhole]
    generalize hfraction : d.fraction.toList = fraction at h
    generalize hrepeating : d.repeating.toList = repeating at h
    cases h with
    | absent =>
      exact absurd ⟨hwhole, String.toList_eq_nil_iff.mp hfraction,
        String.toList_eq_nil_iff.mp hrepeating⟩ hd.nonempty
    | point => exact ⟨'.', _, rfl, .inr rfl⟩
    | block => exact ⟨'.', _, rfl, .inr rfl⟩
  · obtain ⟨c, cs, hlist, hc⟩ := exists_whole_eq_cons hd hwhole
    exact ⟨c, cs ++ behind, by rw [hlist, List.cons_append], .inl hc⟩

theorem splitSign_of_isDigit {c : Char} (h : c.isDigit = true ∨ c = '.') (cs : List Char) :
    splitSign (c :: cs) = (false, c :: cs) := by
  have hne {mark : Char} (hdigit : mark.isDigit = false) (hpoint : mark ≠ '.') : c ≠ mark := by
    rcases h with h | rfl
    · exact Digits.ne_of_isDigit h hdigit
    · exact hpoint.symm
  unfold splitSign
  split
  · next heq => exact absurd (List.cons.inj heq).1 (hne rfl (by decide))
  · next heq => exact absurd (List.cons.inj heq).1 (hne rfl (by decide))
  · rfl

/-- The sign is split off. -/
theorem splitSign_append (hd : d.WellFormed) (hsign : SignText d.negative sign)
    (hbehind : FractionText block d.fraction.toList d.repeating.toList behind) (rest : List Char) :
    splitSign (sign ++ (d.whole.toList ++ behind ++ rest)) =
      (d.negative, d.whole.toList ++ behind ++ rest) := by
  obtain ⟨c, cs, hmantissa, hc⟩ := hd.exists_mantissa_eq_cons hbehind
  rw [hmantissa]
  generalize d.negative = negative at hsign
  cases hsign with
  | unsigned => exact splitSign_of_isDigit hc _
  | plus => rfl
  | minus => rfl

/-- The text is split at its exponent. -/
theorem splitAt_scale (h : ScaleText exponent scale) (hcs : 'e' ∉ cs ∧ 'E' ∉ cs) :
    ∃ power, splitAt (fun c => c == 'e' || c == 'E') (cs ++ scale) = (cs, power) ∧
      exponent? power = some exponent := by
  have hnone : ∀ c ∈ cs, (c == 'e' || c == 'E') = false := by
    intro c hc
    have he : c ≠ 'e' := fun heq => hcs.1 (heq ▸ hc)
    have hE : c ≠ 'E' := fun heq => hcs.2 (heq ▸ hc)
    rw [beq_false_of_ne he, beq_false_of_ne hE]
    rfl
  cases h with
  | unscaled => exact ⟨none, by rw [List.append_nil, splitAt_of_forall hnone], rfl⟩
  | scaled hletter h hfits =>
    refine ⟨_, splitAt_append hnone (by rcases hletter with rfl | rfl <;> rfl), ?_⟩
    show Option.map some (Option.filter _ (Digits.int? _)) = _
    rw [h.int?, Option.filter_some, hfits]
    rfl

/-- The text before the exponent is split at its point, and the fraction where it repeats. -/
theorem splitAt_behind (h : FractionText block fraction repeating behind)
    (hcs : ∀ c ∈ cs, c.isDigit = true) (hfraction : ∀ c ∈ fraction, c.isDigit = true) :
    ∃ point, splitAt (· == '.') (cs ++ behind) = (cs, point) ∧
      splitFraction? (point.getD []) = some (fraction, repeating) := by
  have hnone {cs : List Char} (h : ∀ c ∈ cs, c.isDigit = true) (mark : Char)
      (hmark : mark.isDigit = false) : ∀ c ∈ cs, (c == mark) = false :=
    fun c hc => beq_false_of_ne (Digits.ne_of_isDigit (h c hc) hmark)
  have hpoint := hnone hcs '.' rfl
  have hopening := hnone hfraction '(' rfl
  cases h with
  | absent => exact ⟨none, by rw [List.append_nil, splitAt_of_forall hpoint], rfl⟩
  | point =>
    refine ⟨some fraction, splitAt_append hpoint rfl, ?_⟩
    rw [Option.getD_some, splitFraction?, splitAt_of_forall hopening]
  | block =>
    refine ⟨_, splitAt_append hpoint rfl, ?_⟩
    rw [Option.getD_some, splitFraction?, splitAt_append hopening rfl]
    simp

theorem parse?_of_isPayload (h : d.IsPayload block text) : parse? text = some d := by
  obtain ⟨cs, mark, hblanks, hmark, hpieces⟩ := h
  have hstripped := withoutMark_append hmark (not_mem_of_forall rfl (by decide) hpieces.mem)
    (not_mem_of_forall rfl (by decide) hpieces.mem)
  obtain ⟨hd, sign, behind, scale, hsign, hbehind, hscale, rfl⟩ := hpieces
  have hletters : 'e' ∉ d.whole.toList ++ behind ∧ 'E' ∉ d.whole.toList ++ behind :=
    ⟨not_mem_of_forall rfl (by decide) (hd.mem_mantissa hbehind),
      not_mem_of_forall rfl (by decide) (hd.mem_mantissa hbehind)⟩
  obtain ⟨power, hpower, hexponent⟩ := splitAt_scale hscale hletters
  obtain ⟨point, hpoint, hfraction⟩ := splitAt_behind hbehind hd.whole hd.fraction
  have hnonempty : (d.whole.toList.isEmpty && d.fraction.toList.isEmpty &&
      d.repeating.toList.isEmpty) = false := by
    refine Bool.eq_false_iff.mpr fun h => hd.nonempty ?_
    simpa [and_assoc] using h
  unfold parse?
  rw [hblanks, hstripped, splitSign_append hd hsign hbehind]
  simp only [hpower, hexponent, hpoint, hfraction, Option.bind_eq_bind, Option.bind_some,
    Digits.areDigits, List.all_eq_true.mpr hd.whole, List.all_eq_true.mpr hd.fraction,
    List.all_eq_true.mpr hd.repeating, hnonempty, Bool.not_false, Bool.and_self, if_true,
    String.ofList_toList]

/-! ### Empty parentheses -/

theorem infix_append_iff (h : '(' ∉ cs) : ['(', ')'] <:+: cs ++ rest ↔ ['(', ')'] <:+: rest := by
  induction cs with
  | nil => rfl
  | cons c cs ih =>
    rw [List.mem_cons, not_or] at h
    rw [List.cons_append, List.infix_cons_iff, ih h.2, List.cons_prefix_cons]
    exact or_iff_right fun hprefix => h.1 hprefix.1

/-- Digits in parentheses, and no other opening parenthesis behind them. -/
theorem not_infix_block (hne : repeating ≠ []) (hdigits : ∀ c ∈ repeating, c.isDigit = true)
    (hrest : '(' ∉ rest) : ¬ ['(', ')'] <:+: '(' :: (repeating ++ ')' :: rest) := by
  have hopening : '(' ∉ repeating ++ ')' :: rest := by
    rw [List.mem_append, List.mem_cons]
    rintro (hmem | heq | hmem)
    · exact absurd (hdigits _ hmem) (by decide)
    · exact absurd heq (by decide)
    · exact hrest hmem
  rw [List.infix_cons_iff, List.cons_prefix_cons]
  rintro (⟨-, hprefix⟩ | hpart)
  · obtain ⟨c, cs, rfl⟩ := List.exists_cons_of_ne_nil hne
    have heq := (List.cons_prefix_cons.mp hprefix).1
    exact absurd (hdigits c List.mem_cons_self) (by rw [← heq]; decide)
  · exact hopening (hpart.subset List.mem_cons_self)

theorem IsPayload.not_infix (h : d.IsPayload (· ≠ []) text) :
    ¬ ['(', ')'] <:+: Text.withoutBlanks text.toList := by
  obtain ⟨cs, mark, hblanks, hmark, hd, sign, behind, scale, hsign, hbehind, hscale, rfl⟩ := h
  have hfront : '(' ∉ sign ++ d.whole.toList := by
    rw [List.mem_append]
    rintro (hmem | hmem)
    · exact absurd (hsign.mem _ hmem) (by decide)
    · exact absurd (hd.whole _ hmem) (by decide)
  have hback : '(' ∉ scale ++ mark := by
    rw [List.mem_append]
    rintro (hmem | hmem)
    · exact not_mem_of_forall rfl (by decide) hscale.mem hmem
    · exact (by decide : ∀ mark ∈ [[], ['n'], ['d']], '(' ∉ mark) mark hmark hmem
  have htext : Text.withoutBlanks text.toList =
      (sign ++ d.whole.toList) ++ (behind ++ (scale ++ mark)) := by
    simp [hblanks]
  rw [htext, infix_append_iff hfront]
  have hfraction := hd.fraction
  have hrepeating := hd.repeating
  generalize d.fraction.toList = fraction at hfraction hbehind
  generalize d.repeating.toList = repeating at hrepeating hbehind
  have hpoint : '(' ∉ '.' :: fraction := fun hmem => by
    rcases List.mem_cons.mp hmem with heq | hmem
    · exact absurd heq (by decide)
    · exact absurd (hfraction _ hmem) (by decide)
  cases hbehind with
  | absent => exact fun hpart => hback (hpart.subset List.mem_cons_self)
  | point =>
    rw [infix_append_iff hpoint]
    exact fun hpart => hback (hpart.subset List.mem_cons_self)
  | block _ hne =>
    have hsplit : '.' :: (fraction ++ '(' :: (repeating ++ [')'])) ++ (scale ++ mark) =
        '.' :: fraction ++ '(' :: (repeating ++ ')' :: (scale ++ mark)) := by
      simp
    rw [hsplit, infix_append_iff hpoint]
    exact not_infix_block hne hrepeating hback

theorem FractionText.of_not_infix (h : FractionText (fun _ => True) fraction repeating behind)
    (hnot : ¬ ['(', ')'] <:+: behind) : FractionText (· ≠ []) fraction repeating behind := by
  cases h with
  | absent => exact .absent
  | point => exact .point fraction
  | block =>
    refine .block fraction fun hempty => hnot ?_
    exact ⟨'.' :: fraction, [], by simp [hempty]⟩

/-- Just the payloads are read, as the decimals whose pieces they consist of. Those with digits in all
parentheses, as the grammar has it, are those that are read and have no empty parentheses. -/
theorem parse?_eq_some_iff_isPayload (text : String) (d : Decimal) :
    (parse? text = some d ↔ d.IsPayload (fun _ => True) text) ∧
      (d.IsPayload (· ≠ []) text ↔
        parse? text = some d ∧ ¬ ['(', ')'] <:+: Text.withoutBlanks text.toList) := by
  refine ⟨⟨isPayload_of_parse?, parse?_of_isPayload⟩,
    ⟨fun h => ⟨parse?_of_isPayload h, h.not_infix⟩, ?_⟩⟩
  rintro ⟨hparse, hnot⟩
  obtain ⟨cs, mark, hblanks, hmark, hd, sign, behind, scale, hsign, hbehind, hscale, rfl⟩ :=
    isPayload_of_parse? hparse
  have hpart : behind <:+: Text.withoutBlanks text.toList :=
    ⟨sign ++ d.whole.toList, scale ++ mark, by simp [hblanks]⟩
  exact ⟨_, mark, hblanks, hmark, hd, sign, behind, scale, hsign,
    hbehind.of_not_infix fun h => hnot (h.trans hpart), hscale, rfl⟩

/-- Parentheses without digits are read. -/
theorem not_isPayload_emptyParentheses :
    ∃ d, parse? "0.1()" = some d ∧ ¬ d.IsPayload (· ≠ []) "0.1()" := by
  have hparse : parse? "0.1()" = some { whole := "0", fraction := "1" } := by decide +kernel
  refine ⟨_, hparse, fun h => h.not_infix ?_⟩
  decide

end Decimal

end TexFormula
