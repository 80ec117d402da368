import Mathlib.Algebra.BigOperators.Ring.List
import TexFormula.Proofs.Arithmetic.Writing

/-!
# Arithmetic is read as it was written

A product is written as a signed quotient of its factors. If no factor behind another one starts with
a minus sign, the text has the value of the product; with the lemmas of the other operations this
gives the value of every expression (`parse_run_of_arithmetic`).
-/

open Filter TexFormula.Parser

namespace TexFormula

open Expression (DefinedOn Arithmetic valueOfProduct KeepsSigns)

variable {D : Set (String → ℚ)} {f g : Meaning} {e a b : Expression} {es : List Expression}
  {text written name : String} {n : Number} {negative : Bool} {k : Nat}

/-! ### Factors -/

/-- One more factor. Behind another one it must not start with a sign, unless it is a number. -/
theorem Spelled.beside (h : Spelled D e text) (hwritten : SignedText D f written)
    (hminus : e.isNumber = false → e.leadingMinus = false) (previous : Expression) :
    SignedText D (f * e.meaning)
      (Text.join (Text.join written (if Writers.needsGlyph previous e (wrapText e .multiplication text)
        then "\\times" else "")) (wrapText e .multiplication text)) := by
  have hlow : Precedence.addition < .multiplication := by decide
  cases hnumber : e.isNumber with
  | false =>
    have hphrase : PhraseText D e.meaning (wrapText e .multiplication text) :=
      (h.product_wrapText hlow).phrase_of_startsWith (h.minus_wrapText hlow (hminus hnumber))
    split
    · exact hwritten.times hphrase
    · next hglyph =>
      refine hwritten.beside hphrase ?_
      rw [Writers.needsGlyph, Bool.or_assoc, Bool.or_eq_true, Bool.or_eq_true] at hglyph
      exact Bool.eq_false_iff.mpr fun hdigit => hglyph (.inr (.inl hdigit))
  | true =>
    rw [Writers.needsGlyph_of_isNumber hnumber, if_pos rfl]
    obtain ⟨n, rfl⟩ := Expression.exists_of_isNumber hnumber
    obtain ⟨negative, k, hk, rfl⟩ := h.number n rfl
    have hmeaning : (Expression.number n).meaning = fun _ => signed negative (k : ℚ) :=
      funext fun _ => Expression.meaning_number hk
    rw [wrapText_number, hmeaning]
    cases hsign : negative && k != 0 with
    | false =>
      rw [signedNumeral_of_not hsign, signed_of_not hsign]
      exact hwritten.times (.numeral hk.lt)
    | true =>
      have hnegative : negative = true := (Bool.and_eq_true _ _ |>.mp hsign).1
      rw [signedNumeral, hsign, if_pos rfl, hnegative]
      exact hwritten.timesNegative hk.lt

theorem startsWith_join {glyph : String} {c : Char} (h : written.toList ≠ []) :
    Text.startsWith (Text.join (Text.join written glyph) text) c = Text.startsWith written c := by
  have hhead : written.toList.head?.isSome = true := by
    rw [List.isSome_head?]
    simpa using h
  have hglyph := Text.head?_join hhead glyph
  rw [Text.startsWith, Text.startsWith, Text.head?_join (hglyph ▸ hhead), hglyph]

/-- By induction on the factors that are still to be written. -/
theorem exists_moreFactors (h : ∀ e ∈ es, ∃ text, Spelled D e text)
    (hminus : ∀ e ∈ es, e.isNumber = false → e.leadingMinus = false)
    (hwritten : SignedText D f written) (previous : Expression) :
    ∃ text, Writes (fun scribe => Writers.moreFactors scribe previous written es) text ∧
      SignedText D (fun σ => f σ * valueOfProduct σ es) text ∧
      Text.startsWith text '-' = Text.startsWith written '-' := by
  induction es generalizing f written previous with
  | nil => exact ⟨written, .pure _, hwritten.congr fun σ _ => (mul_one _).symm, rfl⟩
  | cons e es ih =>
    obtain ⟨t, ht⟩ := h e List.mem_cons_self
    let glyph := if Writers.needsGlyph previous e (wrapText e .multiplication t) then "\\times" else ""
    have hlonger : SignedText D (f * e.meaning)
        (Text.join (Text.join written glyph) (wrapText e .multiplication t)) :=
      ht.beside hwritten (hminus e List.mem_cons_self) previous
    obtain ⟨text, hwrites, htext, hstarts⟩ := ih (fun a ha => h a (List.mem_cons_of_mem _ ha))
      (fun a ha => hminus a (List.mem_cons_of_mem _ ha)) hlonger e
    refine ⟨text, .moreFactors ht.writes hwrites, htext.congr fun σ _ => ?_,
      hstarts.trans (startsWith_join hwritten.ne_nil)⟩
    rw [Expression.valueOfProduct_cons, ← mul_assoc]
    rfl

theorem exists_factors (hne : es ≠ []) (h : ∀ e ∈ es, ∃ text, Spelled D e text)
    (hminus : ∀ e ∈ es.tail, e.isNumber = false → e.leadingMinus = false) :
    ∃ text, Writes (fun scribe => Writers.factors scribe es) text ∧
      SignedText D (fun σ => valueOfProduct σ es) text ∧
      ((∀ e ∈ es.head?, e.leadingMinus = false) → Text.startsWith text '-' = false) := by
  obtain ⟨first, rest, rfl⟩ := List.exists_cons_of_ne_nil hne
  obtain ⟨t, ht⟩ := h first List.mem_cons_self
  have hlow : Precedence.addition < .multiplication := by decide
  obtain ⟨text, hwrites, htext, hstarts⟩ := exists_moreFactors
    (fun a ha => h a (List.mem_cons_of_mem _ ha)) hminus (ht.product_wrapText hlow) first
  refine ⟨text, (ht.writes.wrap _).bind hwrites, htext.congr fun σ _ => ?_, fun hfirst => ?_⟩
  · exact (Expression.valueOfProduct_cons _ _).symm
  · rw [hstarts]
    exact ht.minus_wrapText hlow (hfirst first rfl)

/-! ### Products -/

namespace Expression

/-- A factor that has lost its sign is a number or what it was. -/
theorem Arithmetic.unsigned_cases (he : Arithmetic e) :
    (e.isNumber = false ∧ Product.unsigned e = e) ∨
      ∃ n negative k, n.IsWhole negative k ∧ (negative && k != 0) = false ∧
        e.isNumber = true ∧ Product.unsigned e = .number n := by
  cases he with
  | @number n negative k h =>
    right
    rw [Product.unsigned, negativeNumber?_number h]
    cases hsign : negative && k != 0 with
    | false => exact ⟨n, negative, k, h, hsign, rfl, rfl⟩
    | true =>
      refine ⟨n.neg, !negative, k, h.neg, ?_, rfl, rfl⟩
      rw [(Bool.and_eq_true _ _ |>.mp hsign).1]
      rfl
  | _ => exact .inl ⟨rfl, rfl⟩

theorem Arithmetic.leadingMinus_unsigned (he : Arithmetic e) :
    (Product.unsigned e).leadingMinus = (!e.isNumber && e.leadingMinus) := by
  rcases he.unsigned_cases with ⟨hnumber, heq⟩ | ⟨n, negative, k, h, hsign, hnumber, heq⟩
  · rw [heq, hnumber]
    rfl
  · rw [heq, hnumber, leadingMinus, h.isNegative_eq, hsign]
    rfl

/-- The first factor that is written. -/
theorem exists_head?_magnitudes (hne : es ≠ []) :
    ∃ a ∈ es, (Product.magnitudes es).head? = some (Product.unsigned a) ∧
      leadingFactor es = (!a.isNumber && a.leadingMinus) := by
  match es, hne with
  | [], hne => exact absurd rfl hne
  | [first], _ => exact ⟨first, List.mem_cons_self, rfl, by rw [leadingFactor]⟩
  | first :: second :: rest, _ =>
    have hmagnitudes : Product.magnitudes (first :: second :: rest) =
        if Product.isMinusOne first then (second :: rest).map Product.unsigned
        else (first :: second :: rest).map Product.unsigned := rfl
    rw [hmagnitudes, leadingFactor]
    split
    · exact ⟨second, List.mem_cons_of_mem _ List.mem_cons_self, rfl, rfl⟩
    · exact ⟨first, List.mem_cons_self, rfl, rfl⟩

theorem filter_eq_of_filterMap_eq_nil (h : es.filterMap Product.reciprocal? = []) :
    es.filter (fun e => (Product.reciprocal? e).isNone) = es := by
  refine List.filter_eq_self.mpr fun e he => ?_
  rw [List.filterMap_eq_nil_iff.mp h e he]
  rfl

end Expression

/-- The factors of a product that can be written, whether above the fraction bar or below it. -/
def Writable (D : Set (String → ℚ)) (e : Expression) : Prop :=
  (∃ text, Spelled D e text) ∧
    ∀ r, Product.reciprocal? e = some r → ∃ text, Spelled D r text

theorem Writable.unsigned (he : Arithmetic e) (h : Writable D e) : Writable D (Product.unsigned e) := by
  rcases he.unsigned_cases with ⟨-, heq⟩ | ⟨n, negative, k, hn, -, -, heq⟩
  · rw [heq]
    exact h
  · rw [heq]
    exact ⟨⟨_, .ofNumber hn⟩, nofun⟩

/-- The factors above the bar and those below it, each by itself. -/
theorem writable_of_mem_ofFactors (hes : ∀ e ∈ es, Arithmetic e) (h : ∀ e ∈ es, Writable D e) :
    (∀ e ∈ (Product.ofFactors es).numerator, ∃ text, Spelled D e text) ∧
      ∀ e ∈ (Product.ofFactors es).denominator, ∃ text, Spelled D e text := by
  have hwritable : ∀ e ∈ Product.magnitudes es, Writable D e := by
    intro e he
    obtain ⟨a, ha, rfl⟩ := Product.exists_of_mem_magnitudes he
    exact (h a ha).unsigned (hes a ha)
  refine ⟨fun e he => (hwritable e (List.mem_filter.mp he).1).1, fun r hr => ?_⟩
  obtain ⟨e, he, heq⟩ := List.mem_filterMap.mp hr
  exact (hwritable e he).2 r heq

variable {parts : Product}

/-- All factors are above the bar. -/
theorem exists_quotient_of_whole (hden : parts.denominator = []) (hne : parts.numerator ≠ [])
    (h : ∀ e ∈ parts.numerator, ∃ text, Spelled D e text)
    (hminus : ∀ e ∈ parts.numerator.tail, e.isNumber = false → e.leadingMinus = false) :
    ∃ text, (∀ sign, Writes (fun scribe => Writers.quotient scribe parts sign) (sign ++ text)) ∧
      SignedText D (fun σ => valueOfProduct σ parts.numerator / valueOfProduct σ parts.denominator)
        text ∧
      ((∀ e ∈ parts.numerator.head?, e.leadingMinus = false) → Text.startsWith text '-' = false) := by
  obtain ⟨text, hwrites, htext, hstarts⟩ := exists_factors hne h hminus
  refine ⟨text, .quotient_whole hden hwrites, htext.congr fun σ _ => ?_, hstarts⟩
  rw [hden]
  exact (div_one _).symm

/-- Some factors are below the bar. -/
theorem exists_quotient_of_fraction (hden : parts.denominator ≠ [])
    (h : ∀ e ∈ parts.numerator, ∃ text, Spelled D e text)
    (hminus : ∀ e ∈ parts.numerator.tail, e.isNumber = false → e.leadingMinus = false)
    (h' : ∀ e ∈ parts.denominator, ∃ text, Spelled D e text)
    (hminus' : ∀ e ∈ parts.denominator.tail, e.isNumber = false → e.leadingMinus = false)
    (hvalue : ∀ σ ∈ D, valueOfProduct σ parts.denominator ≠ 0) :
    ∃ text, (∀ sign, Writes (fun scribe => Writers.quotient scribe parts sign) (sign ++ text)) ∧
      UnitText D (fun σ => valueOfProduct σ parts.numerator / valueOfProduct σ parts.denominator)
        text := by
  obtain ⟨bottom, hbottom, hbelow, -⟩ := exists_factors hden h' hminus'
  obtain ⟨top, htop, habove⟩ : ∃ top, Writes (fun scribe => Writers.factors scribe parts.numerator) top ∧
      SumText D (fun σ => valueOfProduct σ parts.numerator) (if top = "" then "1" else top) := by
    by_cases hnum : parts.numerator = []
    · rw [hnum]
      exact ⟨"", .pure _, .one⟩
    · obtain ⟨top, htop, habove, -⟩ := exists_factors hnum h hminus
      have hne : top ≠ "" := by
        rintro rfl
        exact habove.ne_nil rfl
      rw [← if_neg (e := top) (t := "1") hne] at habove
      exact ⟨top, htop, habove.sum⟩
  exact ⟨_, .quotient_fraction hden htop hbottom, .fraction habove hbelow.sum hvalue⟩

/-- The factors below the bar are not zero, since the product has a value. -/
theorem denominator_ne_zero (hes : ∀ e ∈ es, Arithmetic e)
    (hD : DefinedOn D (.function "Multiply" es)) {σ : String → ℚ} (hσ : σ ∈ D) :
    valueOfProduct σ (Product.ofFactors es).denominator ≠ 0 := by
  refine List.prod_ne_zero fun hzero => ?_
  obtain ⟨r, hr, hvalue⟩ := List.mem_map.mp hzero
  obtain ⟨e, he, heq⟩ := Product.exists_of_mem_denominator hr
  exact (((hes e he).reciprocal (hD.arguments e he) heq).2 σ hσ).1 hvalue

/-- A product behind its sign. -/
theorem Spelled.ofProduct
    (hwrites : Writes (fun scribe => scribe.serialize (.function "Multiply" es)) text)
    (hproduct : SignedText D (Expression.function "Multiply" es).meaning text)
    (hminus : (Expression.function "Multiply" es).leadingMinus = false →
      Text.startsWith text '-' = false) : Spelled D (.function "Multiply" es) text := by
  have hnot : ¬Precedence.power < standardPrecedence (.function "Multiply" es) := by
    rw [standardPrecedence_multiply]
    decide
  exact ⟨hwrites, hproduct.sum, fun _ => hproduct, fun _ => hminus, nofun, fun h => absurd h hnot⟩

theorem Spelled.multiply (hes : ∀ e ∈ es, Arithmetic e) (hne : es ≠ [])
    (hD : DefinedOn D (.function "Multiply" es)) (hsigns : KeepsSigns es)
    (h : ∀ e ∈ es, Writable D e) : ∃ text, Spelled D (.function "Multiply" es) text := by
  obtain ⟨hnumerator, hdenominator⟩ := writable_of_mem_ofFactors hes h
  obtain ⟨hminus, hminus'⟩ := List.forall_mem_append.mp hsigns
  obtain ⟨text, hwrites, htext, hstarts⟩ : ∃ text,
      (∀ sign, Writes (fun scribe => Writers.quotient scribe (.ofFactors es) sign) (sign ++ text)) ∧
      SignedText D (fun σ => valueOfProduct σ (Product.ofFactors es).numerator /
        valueOfProduct σ (Product.ofFactors es).denominator) text ∧
      (((Product.ofFactors es).denominator.isEmpty && Expression.leadingFactor es) = false →
        Text.startsWith text '-' = false) := by
    by_cases hden : (Product.ofFactors es).denominator = []
    · have hall := Expression.filter_eq_of_filterMap_eq_nil hden
      obtain ⟨a, ha, hhead, hleading⟩ := Expression.exists_head?_magnitudes hne
      have hfirst : (Product.ofFactors es).numerator.head? = some (Product.unsigned a) :=
        (congrArg List.head? hall).trans hhead
      have hnum : (Product.ofFactors es).numerator ≠ [] := by
        intro hnil
        rw [hnil] at hfirst
        cases hfirst
      obtain ⟨text, hwrites, htext, hstarts⟩ :=
        exists_quotient_of_whole hden hnum hnumerator hminus
      refine ⟨text, hwrites, htext, fun hfree => hstarts ?_⟩
      intro e he
      rw [hfirst] at he
      rw [← Option.some.inj he, (hes a ha).leadingMinus_unsigned, ← hleading]
      rwa [hden, List.isEmpty_nil, Bool.true_and] at hfree
    · obtain ⟨text, hwrites, htext⟩ := exists_quotient_of_fraction hden hnumerator hminus
        hdenominator hminus' fun σ hσ => denominator_ne_zero hes hD hσ
      exact ⟨text, hwrites, htext.signed, fun _ => htext.phrase.startsWith_eq_false⟩
  have hproduct (sign : String) (hsign : (if (Product.ofFactors es).negative then "-" else "") = sign) :
      Writes (fun scribe => scribe.serialize (.function "Multiply" es)) (sign ++ text) :=
    .multiply hne (hsign ▸ hwrites sign)
  have hmeaning (σ : String → ℚ) (hσ : σ ∈ D) :=
    (Expression.meaning_multiply hes hD hσ).symm
  cases hnegative : (Product.ofFactors es).negative with
  | true =>
    rw [hnegative] at hmeaning hproduct
    refine ⟨"-" ++ text, .ofProduct (hproduct "-" rfl) (htext.minus.congr hmeaning) fun h => ?_⟩
    have hodd : Product.oddSigns es = true := hnegative
    rw [Expression.function, Expression.leadingMinus, hodd] at h
    cases h
  | false =>
    rw [hnegative] at hmeaning hproduct
    have hwritten := hproduct "" rfl
    rw [String.empty_append] at hwritten
    refine ⟨text, .ofProduct hwritten (htext.congr hmeaning) fun h => hstarts ?_⟩
    have hodd : Product.oddSigns es = false := hnegative
    rw [Expression.function, Expression.leadingMinus, hodd] at h
    exact h

/-! ### All expressions -/

/-- Every product in the expression keeps its signs. -/
def Expression.KeepsAllSigns (e : Expression) : Prop :=
  ∀ es, Part (.function "Multiply" es) e → KeepsSigns es

theorem Expression.KeepsAllSigns.argument (h : (function name es).KeepsAllSigns) (ha : a ∈ es) :
    a.KeepsAllSigns :=
  fun es hes => h es (.argument ha hes)

theorem Expression.KeepsAllSigns.function (hsigns : name = "Multiply" → KeepsSigns es)
    (h : ∀ a ∈ es, a.KeepsAllSigns) : (function name es).KeepsAllSigns := by
  intro fs hpart
  cases hpart with
  | whole => exact hsigns rfl
  | argument ha hpart => exact h _ ha fs hpart

theorem Expression.KeepsAllSigns.symbol (name : String) : (symbol name).KeepsAllSigns :=
  fun _ hpart => by cases hpart

theorem Expression.KeepsAllSigns.number (n : Number) : (number n).KeepsAllSigns :=
  fun _ hpart => by cases hpart

/-- By induction on the expression. -/
theorem Writable.of_arithmetic (he : Arithmetic e) (hD : DefinedOn D e)
    (hsigns : e.KeepsAllSigns) : Writable D e := by
  induction he with
  | number h => exact ⟨⟨_, .ofNumber h⟩, fun r hr => by cases hr⟩
  | letter hc => exact ⟨⟨_, .ofLetter hc⟩, fun r hr => by cases hr⟩
  | @add es hne h ih =>
    refine ⟨Spelled.add hD hne fun a ha => ?_, fun r hr => by cases hr⟩
    exact (ih a ha (hD.arguments a ha) (hsigns.argument ha)).1
  | @multiply es hne h ih =>
    refine ⟨Spelled.multiply h hne hD (hsigns es .whole) fun a ha => ?_, fun r hr => by cases hr⟩
    exact ih a ha (hD.arguments a ha) (hsigns.argument ha)
  | @subtract a b ha hb iha ihb =>
    have hmem : b ∈ [a, b] := List.mem_cons_of_mem _ List.mem_cons_self
    obtain ⟨⟨_, hleft⟩, -⟩ := iha (hD.arguments a List.mem_cons_self)
      (hsigns.argument List.mem_cons_self)
    obtain ⟨⟨_, hright⟩, -⟩ := ihb (hD.arguments b hmem) (hsigns.argument hmem)
    exact ⟨Spelled.subtract hD hleft hright, fun r hr => by cases hr⟩
  | @divide a b ha hb iha ihb =>
    have hmem : b ∈ [a, b] := List.mem_cons_of_mem _ List.mem_cons_self
    obtain ⟨⟨_, htop⟩, -⟩ := iha (hD.arguments a List.mem_cons_self)
      (hsigns.argument List.mem_cons_self)
    obtain ⟨⟨_, hbottom⟩, -⟩ := ihb (hD.arguments b hmem) (hsigns.argument hmem)
    exact ⟨Spelled.divide hD htop hbottom, fun r hr => by cases hr⟩
  | @negate a ha ih =>
    obtain ⟨⟨_, htext⟩, -⟩ := ih (hD.arguments a List.mem_cons_self)
      (hsigns.argument List.mem_cons_self)
    exact ⟨Spelled.negate hD htext, fun r hr => by cases hr⟩
  | @power a n negative k ha h ih =>
    have hbase := hD.arguments a List.mem_cons_self
    obtain ⟨⟨_, htext⟩, -⟩ := ih hbase (hsigns.argument List.mem_cons_self)
    cases hr : Product.reciprocal? (.function "Power" [a, .number n]) with
    | none =>
      refine ⟨htext.power hbase h (Bool.eq_false_iff.mpr fun hsign => ?_), fun r h => ?_⟩
      · rw [Expression.function, Product.reciprocal?, Expression.negativeNumber?_number h,
          hsign] at hr
        cases hr
      · rw [hr] at h
        cases h
    | some r =>
      have hwritten : ∃ text, Spelled D r text := by
        obtain ⟨_, _, k, heq, hn, -, hcases⟩ := (Arithmetic.power ha h).exists_of_reciprocal? hr
        cases heq
        rcases hcases with ⟨-, rfl⟩ | ⟨-, rfl⟩
        · exact ⟨_, htext⟩
        · exact htext.power hbase hn.neg rfl
      obtain ⟨_, hbelow⟩ := hwritten
      refine ⟨Spelled.reciprocal (.power ha h) hD hr hbelow, fun r' hr' => ?_⟩
      rw [← Option.some.inj (hr.symm.trans hr')]
      exact ⟨_, hbelow⟩

/-- A text that reads as a sum is parsed as an expression of its value. -/
theorem SumText.exists_parse_eq (h : SumText D f text) :
    ∀ᶠ levels in atTop, ∃ p, parse .standard { maxDepth := levels } text = .ok ⟨p, []⟩ ∧
      ∀ σ ∈ D, p.value? σ = some (f σ) := by
  obtain ⟨P, hspells, hpiece⟩ := h
  refine eventually_succ hpiece fun levels hlevels => ?_
  let env : Env := ⟨text, .standard, { maxDepth := levels + 1 }⟩
  have hread := hlevels env ⟨rfl, rfl⟩
  obtain ⟨o, _, ho, hparse⟩ := hread.exists_parse_eq hspells nofun nofun rfl fun _ _ ho => ho.present
  exact ⟨o.expression, hparse, ho.value⟩

/-- Serializing and parsing keeps the value of an arithmetic expression wherever it has one, if its
products keep their signs. -/
theorem parse_run_of_arithmetic (he : e.Arithmetic) (hsigns : e.KeepsAllSigns) :
    ∃ latex depth, ∀ levels, depth ≤ levels →
      (Serializer.mk .standard { maxDepth := levels }).run e = .ok ⟨latex, []⟩ ∧
      ∃ p, parse .standard { maxDepth := levels } latex = .ok ⟨p, []⟩ ∧
        ∀ σ v, e.value? σ = some v → p.value? σ = some v := by
  let D : Set (String → ℚ) := {σ | (e.value? σ).isSome = true}
  have hD : DefinedOn D e := fun σ hσ => Expression.value?_eq_of_isSome hσ
  obtain ⟨⟨latex, hrenders⟩, -⟩ := Writable.of_arithmetic he hD hsigns
  obtain ⟨depth, hdepth⟩ := eventually_atTop.mp
    (Eventually.and hrenders.writes hrenders.sum.exists_parse_eq)
  refine ⟨latex, depth, fun levels hlevels => ?_⟩
  obtain ⟨hwrites, p, hparse, hvalue⟩ := hdepth levels hlevels
  have hserialize : (Serializer.mk .standard { maxDepth := levels }).serialize e = .ok latex :=
    hwrites _ ⟨rfl, rfl⟩
  refine ⟨by rw [Serializer.run, hserialize], p, hparse, fun σ v hv => ?_⟩
  have hσ : σ ∈ D := by
    show (e.value? σ).isSome = true
    rw [hv]
    rfl
  rw [hvalue σ hσ, ← hD σ hσ, hv]

theorem Magnitude.scale_ofPower (k : Fin 1024) : 1022 + k.val ≤ 2045 :=
  Nat.add_le_add_left (Nat.le_of_lt_succ k.isLt) 1022

/-- The whole number of a sign and a power of two. -/
def Number.ofPower (negative : Bool) (k : Fin 1024) : Number :=
  .machine (.finite negative
    ⟨twoPow 52, 1022 + k, Magnitude.twoPow_lt, Magnitude.scale_ofPower k, .inr (Nat.le_refl _)⟩)

/-- The sum of `x` and the product of `-2`, `y` and the reciprocal of `x`, written
`x-\frac{2y}{x}`. -/
theorem parse_run_of_arithmetic_fraction :
    let e := Expression.function "Add" [.symbol "x", .function "Multiply"
      [.number (.ofPower true 1), .symbol "y",
        .function "Power" [.symbol "x", .number (.ofPower true 0)]]]
    ∃ latex depth, ∀ levels, depth ≤ levels →
      (Serializer.mk .standard { maxDepth := levels }).run e = .ok ⟨latex, []⟩ ∧
      ∃ p, parse .standard { maxDepth := levels } latex = .ok ⟨p, []⟩ ∧
        ∀ σ v, e.value? σ = some v → p.value? σ = some v := by
  have hx : Arithmetic (.symbol "x") := .letter (c := 'x') (by decide)
  have hy : Arithmetic (.symbol "y") := .letter (c := 'y') (by decide)
  have hone : (Number.ofPower true 0).IsWhole true 1 := ⟨_, rfl, by decide +kernel, by decide⟩
  have htwo : (Number.ofPower true 1).IsWhole true 2 := ⟨_, rfl, by decide +kernel, by decide⟩
  refine parse_run_of_arithmetic (.add (List.cons_ne_nil _ _) (List.forall_mem_cons.mpr ⟨hx,
    List.forall_mem_singleton.mpr (.multiply (List.cons_ne_nil _ _) (List.forall_mem_cons.mpr
      ⟨.number htwo, List.forall_mem_cons.mpr ⟨hy, List.forall_mem_singleton.mpr
        (.power hx hone)⟩⟩))⟩)) ?_
  refine .function (fun h => absurd h (by decide)) (List.forall_mem_cons.mpr ⟨.symbol _,
    List.forall_mem_singleton.mpr (.function (fun _ => by decide +kernel)
      (List.forall_mem_cons.mpr ⟨.number _, List.forall_mem_cons.mpr ⟨.symbol _,
        List.forall_mem_singleton.mpr (.function (fun h => absurd h (by decide))
          (List.forall_mem_cons.mpr ⟨.symbol _, List.forall_mem_singleton.mpr (.number _)⟩))⟩⟩))⟩)

/-- A factor with a sign of its own behind another factor: the product of `x` and `-y` is written as
the difference `x-y`. -/
def negativeFactor : Expression :=
  .function "Multiply" [.symbol "x", .function "Multiply" [.number (.ofPower true 0), .symbol "y"]]

theorem not_parse_run_of_negativeFactor : ∃ latex p,
    (Serializer.mk .standard {}).run negativeFactor = .ok ⟨latex, []⟩ ∧
    parse .standard {} latex = .ok ⟨p, []⟩ ∧
    negativeFactor.value? (fun _ => 1) = some (-1) ∧ p.value? (fun _ => 1) = some 0 := by
  have hwritten : (Serializer.mk .standard {}).run negativeFactor = .ok ⟨"x-y", []⟩ := rfl
  have hvalue : negativeFactor.value? (fun _ => 1) = some (-1) := by decide +kernel
  have hread : (parse .standard {} "x-y").toOption.any (fun p => p.diagnostics.isEmpty &&
      decide (p.expression.value? (fun _ => 1) = some 0)) = true := by decide +kernel
  cases hp : parse .standard {} "x-y" with
  | error fault =>
    rw [hp] at hread
    cases hread
  | ok p =>
    obtain ⟨e, diagnostics⟩ := p
    rw [hp, Except.toOption, Option.any_some, Bool.and_eq_true] at hread
    obtain rfl : diagnostics = [] := List.isEmpty_iff.mp hread.1
    exact ⟨"x-y", e, hwritten, hp, hvalue, of_decide_eq_true hread.2⟩

end TexFormula
