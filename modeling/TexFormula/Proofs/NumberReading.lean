import TexFormula.Proofs.Arithmetic.Sums
import TexFormula.Proofs.NumberTexts

/-!
# Reading numbers

The tokens of a decimal are read as the number that its literal denotes (`Reads.number`), a bare power
of ten as a power (`Reads.tenPower`), and a minus sign in front of one as an operator
(`Reads.signedTenPower`). A number that is written without a power of ten and with all its digits is
read off them again (`Number.HasDigits`): a double as itself (`Magnitude.IsPlain.hasDigits`), a decimal
as the number that they denote (`Decimal.IsPlain.exists_hasDigits`).
-/

open TexFormula.Parser

namespace TexFormula

namespace Parser

theorem literal_eq_literal {d : Decimal} (hwhole : d.whole ≠ "") :
    literal d.negative d.whole d.fraction d.repeating
      (d.exponent.map fun n => String.ofList (Digits.ofInt n)) = d.literal := by
  rw [← Decimal.text_eq_literal]
  unfold literal Decimal.text
  rw [if_neg hwhole]
  cases d.exponent <;> rfl

variable {env : Env} {inner : Inner} {s : State} {ts us after : List Token} {d : Decimal} {n : Int}

/-! ### The parts of a number -/

/-- The digits of a number end in front of the tokens. -/
structure EndsDigits (after : List Token) : Prop where
  number : EndsNumber after
  bar : ∀ t ∈ after.head?, t.isCommand "overline" = false

/-- A number ends in front of the tokens. -/
structure EndsDecimal (after : List Token) : Prop extends EndsDigits after where
  unscaled : powerOfTen? after = none

theorem EndsDecimal.of_kind
    (h : ∀ t ∈ after.head?, Closing t ∨ ∃ c, t.kind = .punct c ∧ c ∉ [',', '.']) :
    EndsDecimal after := by
  refine ⟨⟨fun t ht => ?_, fun t ht => ?_⟩, powerOfTen?_eq_none fun t ht => ?_⟩ <;>
    rcases h t ht with (hkind | hkind) | ⟨c, hkind, hc⟩ <;>
      simp_all [Token.isCommand, Token.isPunct]

/-- In front of a mark that is no part of a number, it ends. -/
theorem EndsDecimal.of_punct {t : Token} {c : Char} (ht : t.kind = .punct c) (hc : c ∉ [',', '.'])
    (after : List Token) : EndsDecimal (t :: after) :=
  .of_kind fun _ hu => .inr ⟨c, Option.some.inj hu ▸ ht, hc⟩

theorem EndsSum.endsDecimal (h : EndsSum after) : EndsDecimal after :=
  .of_kind fun t ht => .inl (h t ht)

theorem runs_barredDigits {digits : List Char} (hs : s.rest = ts ++ after)
    (hts : ts ∈ (if digits = [] then 1 else barTokens digits : Language Token))
    (hafter : EndsDigits after) :
    Runs barredDigits s (String.ofList digits) (s.forward ts.length) := by
  unfold barredDigits
  rw [runs_get, hs]
  split at hts
  · next hempty =>
    obtain rfl : ts = [] := hts
    rw [List.nil_append, hempty]
    split
    · next bar opening run closing _ =>
      rw [hafter.bar bar rfl]
      exact .pure _ _
    · exact .pure _ _
  · obtain ⟨_, ⟨bar, rfl, hbar⟩, us, hus, rfl⟩ := Language.mem_mul.mp hts
    obtain ⟨opening, _, closing, rfl, hopening, ⟨run, rfl, hrun⟩, hclosing⟩ := mem_enclosed_iff.mp hus
    have hdigits : run.digits? = some (String.ofList digits) := by rw [Token.digits?, hrun]
    simp only [List.cons_append, List.nil_append, Token.isCommand, hbar, hopening, hclosing,
      beq_self_eq_true, Bool.and_self, if_true, hdigits]
    rw [runs_skip]
    exact .pure _ _

/-- A run of digits ends in front of the bar over repeating ones, or of what follows the number. -/
theorem endsRun_of_repeating {digits : List Char}
    (hts : ts ∈ (if digits = [] then 1 else barTokens digits : Language Token))
    (hafter : EndsDigits after) : EndsRun (ts ++ after) := by
  split at hts
  · obtain rfl : ts = [] := hts
    exact hafter.number.endsRun
  · obtain ⟨_, ⟨bar, rfl, hbar⟩, us, -, rfl⟩ := Language.mem_mul.mp hts
    intro t ht
    rw [← Option.some.inj ht]
    simp [Token.isCommand, Token.isPunct, hbar]

/-- What stands behind the point of a decimal: the digits of the fraction, or the bar over the
repeating ones. -/
theorem following_of_repeating (env : Env) {digits : List Char} {point : Token}
    (hs : s.rest = point :: (ts ++ after)) (hts : ts ∈ barTokens digits) :
    (s.following env).isCommand "overline" = true ∧ ((s.forward 1).current env).digits? = none := by
  obtain ⟨_, ⟨bar, rfl, hbar⟩, us, -, rfl⟩ := Language.mem_mul.mp hts
  have hrest : (s.forward 1).rest = bar :: (us ++ after) := by
    rw [State.rest_forward, hs]
    rfl
  rw [State.following, hs, State.current_of_rest hrest]
  simp [Token.isCommand, Token.digits?, hbar]

theorem runs_fractionDigits (env : Env) {fraction repeating : List Char} (hs : s.rest = ts ++ after)
    (hts : ts ∈ fractionTokens fraction repeating) (hafter : EndsDigits after) (whole : String) :
    Runs (fractionDigits env whole) s (String.ofList fraction, String.ofList repeating)
      (s.forward ts.length) := by
  unfold fractionDigits
  rw [runs_get]
  dsimp only
  unfold fractionTokens at hts
  split at hts
  · next hempty =>
    obtain rfl : ts = [] := hts
    have hpoint : (s.current env).isPunct '.' = false := by
      rw [State.current, hs]
      cases after with
      | nil => rfl
      | cons t _ => exact (hafter.number t rfl).2.2
    rw [hpoint, hempty.1, hempty.2]
    exact .pure _ _
  · next hnonempty =>
    obtain ⟨_, ⟨point, rfl, hpoint⟩, us, hus, rfl⟩ := Language.mem_mul.mp hts
    obtain ⟨vs, hvs, ws, hws, rfl⟩ := Language.mem_mul.mp hus
    have hrest : (s.forward 1).rest = vs ++ (ws ++ after) := by
      rw [State.rest_forward, hs]
      simp
    have hend : ((s.forward 1).forward vs.length).rest = ws ++ after := by
      rw [State.rest_forward, hrest, List.drop_left]
    have hbar := runs_barredDigits hend hws hafter
    rw [State.forward_forward, State.forward_forward] at hbar
    have hmarker : (s.current env).isPunct '.' = true := by
      rw [State.current_of_rest hs, Token.isPunct, hpoint, beq_self_eq_true]
    have hlength : ([point] ++ (vs ++ ws)).length = 1 + vs.length + ws.length := by
      rw [List.length_append, List.length_append, Nat.add_assoc]
      rfl
    rw [hmarker, hlength]
    simp only [Bool.not_true, Bool.false_eq_true, if_false]
    split at hvs
    · -- without a fraction of its own the bar stands right behind the point
      next hfraction =>
      obtain rfl : vs = [] := hvs
      rw [if_neg fun hrepeating => hnonempty ⟨hfraction, hrepeating⟩] at hws
      obtain ⟨hgoes, hdigits⟩ := following_of_repeating env (by simpa using hs) hws
      rw [hgoes, Bool.or_true, if_pos rfl, runs_advance, runs_current, hdigits, hfraction]
      dsimp only
      exact Runs.bind (.pure _ _) (hbar.bind (.pure _ _))
    · obtain ⟨t, _, run, _, rfl, hrun, _, _, _, _, hdigits⟩ :=
        exists_thinSpaceGroups env hrest hvs (endsRun_of_repeating hws hafter)
      have hfollowing : (s.following env).digits? = some run := by
        rw [State.following, hs]
        exact hrun
      rw [hfollowing, Option.isSome_some, Bool.true_or, if_pos rfl, runs_advance, runs_current,
        State.current_of_rest hrest, hrun]
      dsimp only
      rw [runs_advance]
      rw [State.forward_forward s 1 (t :: _).length] at hdigits
      exact hdigits.bind (hbar.bind (.pure _ _))

theorem powerOfTen?_scaleTokens (hts : ts ∈ scaleTokens (some n)) (after : List Token) :
    powerOfTen? (ts ++ after) = some (String.ofList (Digits.ofInt n), ts.length) := by
  obtain ⟨_, ⟨times, rfl, htimes⟩, us, hus, rfl⟩ := Language.mem_mul.mp hts
  obtain ⟨_, ⟨ten, rfl, hten⟩, vs, hvs, rfl⟩ := Language.mem_mul.mp hus
  obtain ⟨_, ⟨caret, rfl, hcaret⟩, ws, hws, rfl⟩ := Language.mem_mul.mp hvs
  obtain ⟨opening, xs, closing, rfl, hopening, hxs, hclosing⟩ := mem_enclosed_iff.mp hws
  obtain ⟨signs, hsigns, _, ⟨run, rfl, hrun⟩, rfl⟩ := Language.mem_mul.mp hxs
  have hnot : opening.digits? = none := by rw [Token.digits?, hopening]
  have hdigits : run.digits? = some (String.ofList (Digits.ofNat n.natAbs)) := by
    rw [Token.digits?, hrun]
  split at hsigns
  · next hneg =>
    obtain ⟨minus, rfl, hminus⟩ := hsigns
    have htext : "-" ++ String.ofList (Digits.ofNat n.natAbs) = String.ofList (Digits.ofInt n) := by
      rw [Digits.ofInt, if_pos hneg, ← List.singleton_append, String.ofList_append]
    simp [powerOfTen?, exponentText?, bracedExponent?, digitsToBrace?, sign?, Token.isCommand,
      Token.isPunct, htimes, hten, hcaret, hnot, hopening, hminus, hclosing, hdigits, htext]
  · next hnonneg =>
    obtain rfl : signs = [] := hsigns
    have hsign : sign? run = none := by simp [sign?, Token.isPunct, hrun]
    have htext : String.ofList (Digits.ofNat n.natAbs) = String.ofList (Digits.ofInt n) := by
      rw [Digits.ofInt, if_neg hnonneg]
    simp [powerOfTen?, exponentText?, bracedExponent?, digitsToBrace?, Token.isCommand,
      Token.isPunct, htimes, hten, hcaret, hnot, hopening, hsign, hclosing, hdigits, htext]

theorem runs_exponent {exponent : Option Int} (hs : s.rest = ts ++ after)
    (hts : ts ∈ scaleTokens exponent) (hafter : EndsDecimal after) :
    Runs Parser.exponent s (exponent.map fun n => String.ofList (Digits.ofInt n))
      (s.forward ts.length) := by
  unfold Parser.exponent
  rw [runs_get, hs]
  cases exponent with
  | none =>
    obtain rfl : ts = [] := hts
    rw [List.nil_append, hafter.unscaled]
    exact .pure _ _
  | some n =>
    rw [powerOfTen?_scaleTokens hts]
    dsimp only
    rw [runs_skip]
    exact .pure _ _

theorem endsDigits_of_scaleTokens {exponent : Option Int} (hts : ts ∈ scaleTokens exponent)
    (hafter : EndsDecimal after) : EndsDigits (ts ++ after) := by
  cases exponent with
  | none =>
    obtain rfl : ts = [] := hts
    exact hafter.toEndsDigits
  | some n =>
    obtain ⟨_, ⟨times, rfl, htimes⟩, us, -, rfl⟩ := Language.mem_mul.mp hts
    refine ⟨fun t ht => ?_, fun t ht => ?_⟩ <;> rw [← Option.some.inj ht] <;>
      simp [Token.isCommand, Token.isPunct, htimes]

theorem endsRun_of_fractionTokens {fraction repeating : List Char}
    (hts : ts ∈ fractionTokens fraction repeating) (hafter : EndsDigits after) :
    EndsRun (ts ++ after) := by
  unfold fractionTokens at hts
  split at hts
  · obtain rfl : ts = [] := hts
    exact hafter.number.endsRun
  · obtain ⟨_, ⟨point, rfl, hpoint⟩, us, -, rfl⟩ := Language.mem_mul.mp hts
    intro t ht
    rw [← Option.some.inj ht]
    simp [Token.isCommand, Token.isPunct, hpoint]

/-- The digits of a decimal are read as the number that its literal denotes. -/
theorem runs_number_of_mem (env : Env) (hwhole : d.whole ≠ "") {value : Number}
    (hvalue : Number.ofLiteral? d.literal = some value) (hs : s.rest = ts ++ after)
    (hts : ts ∈ magnitudeTokens d) (hafter : EndsDecimal after) :
    Runs (number env d.negative) s (.number value) (s.forward ts.length) := by
  obtain ⟨us, hus, vs, hvs, rfl⟩ := Language.mem_mul.mp hts
  obtain ⟨fs, hfs, ps, hps, rfl⟩ := Language.mem_mul.mp hvs
  rw [List.append_assoc, List.append_assoc] at hs
  have hfirst : (s.forward us.length).rest = fs ++ (ps ++ after) := by
    rw [State.rest_forward, hs, List.drop_left]
  have hsecond : ((s.forward us.length).forward fs.length).rest = ps ++ after := by
    rw [State.rest_forward, hfirst, List.drop_left]
  have hscale : EndsDigits (ps ++ after) := endsDigits_of_scaleTokens hps hafter
  have hrun := runs_wholeDigits env hs hus (endsRun_of_fractionTokens hfs hscale)
  have hfraction := runs_fractionDigits env hfirst hfs hscale d.whole
  have hexponent := runs_exponent hsecond hps hafter
  rw [String.ofList_toList] at hrun
  rw [String.ofList_toList, String.ofList_toList] at hfraction
  have hlength : ((s.forward us.length).forward fs.length).forward ps.length =
      s.forward (us ++ (fs ++ ps)).length := by
    rw [State.forward_forward, State.forward_forward, List.length_append, List.length_append]
  unfold number
  rw [runs_current]
  refine hrun.bind (hfraction.bind ?_)
  dsimp only
  refine hexponent.bind ?_
  rw [literal_eq_literal hwhole, hvalue, hlength]
  exact .pure _ _

/-! ### Numbers as operands -/

theorem exists_digits_of_mem_magnitudeTokens (h : ts ∈ magnitudeTokens d) :
    ∃ t rest run, ts = t :: rest ∧ t.kind = .digits run := by
  obtain ⟨_, ⟨t, rest, run, _, rfl, hkind, -⟩, vs, -, rfl⟩ := Language.mem_mul.mp h
  exact ⟨t, rest ++ vs, _, rfl, hkind⟩

/-- What may follow a number. A sign in front of a power is an operator. -/
structure EndsSigned (negative : Bool) (after : List Token) : Prop extends EndsDecimal after where
  unraised : negative = true → ∀ t ∈ after.head?, t.isPunct '^' = false

theorem EndsSum.endsSigned (h : EndsSum after) (negative : Bool) : EndsSigned negative after :=
  ⟨h.endsDecimal, fun _ t ht => by
    rcases h t ht with hkind | hkind <;> simp [Token.isPunct, hkind]⟩

theorem Reads.number (hwhole : d.whole ≠ "") {value : Number}
    (hvalue : Number.ofLiteral? d.literal = some value) :
    Reads env inner delimited .atomic (EndsSigned d.negative)
      (fun o chained => o = { expression := .number value } ∧ chained = none)
      (signTokens d.negative * magnitudeTokens d) := by
  intro ws hws after s loosest hs hctx _ hafter
  obtain ⟨us, hus, ts, hts, rfl⟩ := Language.mem_mul.mp hws
  rw [List.append_assoc] at hs
  have hinside : (s.forward us.length).rest = ts ++ after := by
    rw [State.rest_forward, hs, List.drop_left]
  have hend : ((s.forward us.length).forward ts.length).rest = after := by
    rw [State.rest_forward, hinside, List.drop_left]
  have hruns := runs_number_of_mem env hwhole hvalue hinside hts hafter.toEndsDecimal
  obtain ⟨t, rest, run, rfl, hkind⟩ := exists_digits_of_mem_magnitudeTokens hts
  refine ⟨_, none, ⟨rfl, rfl⟩, leadsTo_of_operand ?_⟩
  rw [List.length_append, ← State.forward_forward]
  cases hsign : d.negative with
  | false =>
    rw [hsign] at hus hruns
    obtain rfl : us = [] := hus
    exact runs_operand_of_digits hs hkind hctx hruns
  | true =>
    rw [hsign] at hus hruns
    obtain ⟨minus, rfl, hminus⟩ := hus
    exact runs_operand_of_minus hs hminus hkind hctx hruns (hend.symm ▸ hafter.unraised hsign)

end Parser

/-! ### Runs of digits -/

/-- Decimal digits, at least one. -/
structure IsDigitRun (run : String) : Prop where
  nonempty : run ≠ ""
  digits : ∀ c ∈ run.toList, c.isDigit = true

theorem isDigitRun_iff {run : String} :
    IsDigitRun run ↔ run ≠ "" ∧ run.toList.all Char.isDigit = true := by
  rw [List.all_eq_true]
  exact ⟨fun h => ⟨h.nonempty, h.digits⟩, fun h => ⟨h.1, h.2⟩⟩

instance : DecidablePred IsDigitRun :=
  fun _ => decidable_of_iff' _ isDigitRun_iff

/-- A run of digits as a decimal. -/
def Decimal.ofRun (negative : Bool) (run : String) : Decimal where
  negative := negative
  whole := run

theorem Decimal.literal_ofRun (negative : Bool) (run : String) :
    (ofRun negative run).literal = (if negative then "-" else "") ++ run := by
  rw [← text_eq_literal]
  cases negative <;> simp [text, ofRun]

namespace IsDigitRun

variable {run : String}

theorem toList_ne_nil (h : IsDigitRun run) : run.toList ≠ [] :=
  fun hnil => h.nonempty (String.toList_eq_nil_iff.mp hnil)

theorem wellFormed (h : IsDigitRun run) (negative : Bool) : (Decimal.ofRun negative run).WellFormed :=
  ⟨h.digits, nofun, nofun, fun hempty => h.nonempty hempty.1, nofun⟩

/-- A run of digits is read as a number, with a sign or without. -/
theorem exists_ofLiteral? (h : IsDigitRun run) (negative : Bool) :
    ∃ value, Number.ofLiteral? ((if negative then "-" else "") ++ run) = some value := by
  obtain ⟨value, hvalue, -⟩ :=
    Number.exists_ofLiteral? (h.wellFormed negative) h.nonempty (h.wellFormed negative).powerText
  rw [← Decimal.literal, Decimal.literal_ofRun] at hvalue
  exact ⟨value, hvalue⟩

end IsDigitRun

namespace Parser

variable {env : Env} {inner : Inner} {run : String}

theorem mem_magnitudeTokens_ofRun {t : Token} (ht : t.kind = .digits run) (negative : Bool) :
    [t] ∈ magnitudeTokens (Decimal.ofRun negative run) := by
  have hwhole : [t] ∈ runTokens (Decimal.ofRun negative run).whole.toList :=
    ⟨t, [], run.toList, [], rfl, by rw [ht, String.ofList_toList], .nil, List.append_nil _⟩
  exact Language.mem_mul.mpr ⟨[t], hwhole, [], ⟨[], rfl, [], rfl, rfl⟩, rfl⟩

theorem Reads.digitRun (hrun : IsDigitRun run) {negative : Bool} {value : Number}
    (hvalue : Number.ofLiteral? ((if negative then "-" else "") ++ run) = some value) :
    Reads env inner delimited .atomic (EndsSigned negative)
      (fun o chained => o = { expression := .number value } ∧ chained = none)
      (signTokens negative * Token.one (.digits run)) := by
  intro ws hws after s loosest hs hctx hloosest hafter
  obtain ⟨us, hus, _, ⟨t, rfl, ht⟩, rfl⟩ := Language.mem_mul.mp hws
  rw [← Decimal.literal_ofRun] at hvalue
  exact Reads.number hrun.nonempty hvalue (us ++ [t])
    (Language.mem_mul.mpr ⟨us, hus, [t], mem_magnitudeTokens_ofRun ht negative, rfl⟩) after s loosest
    hs hctx hloosest hafter

/-- A minus sign in front of the digits of a number that is raised to a power is an operator. -/
theorem takesMinus_raisedDecimal {d : Decimal} {value : Number} {P : Language Token}
    (hsign : d.negative = true) (hwhole : d.whole ≠ "")
    (hvalue : Number.ofLiteral? d.literal = some value) (hP : ∀ us ∈ P, us ∈ magnitudeTokens d)
    (Q : Language Token) : TakesMinus (P * (Token.one (.punct '^') * Q)) := by
  intro ws hws env inner s t after hs ht
  obtain ⟨us, hus, vs, hvs, rfl⟩ := Language.mem_mul.mp hws
  obtain ⟨_, ⟨caret, rfl, hcaret⟩, xs, -, rfl⟩ := Language.mem_mul.mp hvs
  have hinside : (s.forward 1).rest = us ++ (caret :: (xs ++ after)) := by
    rw [State.rest_forward, hs, List.append_assoc]
    rfl
  have hends : EndsDecimal (caret :: (xs ++ after)) := .of_punct hcaret (by decide) _
  have hruns := runs_number_of_mem env hwhole hvalue hinside (hP us hus) hends
  rw [hsign] at hruns
  obtain ⟨u, rest, run, rfl, hrun⟩ := exists_digits_of_mem_magnitudeTokens (hP us hus)
  have hrest : ((s.forward 1).forward (u :: rest).length).rest = caret :: (xs ++ after) := by
    rw [State.rest_forward, hinside, List.drop_left]
  rw [List.append_assoc] at hs
  exact runs_builtin_of_raised hs ht hrun hruns hrest hcaret

theorem takesMinus_raisedRun (hrun : IsDigitRun run) (Q : Language Token) :
    TakesMinus (Token.one (.digits run) * (Token.one (.punct '^') * Q)) := by
  obtain ⟨value, hvalue⟩ := hrun.exists_ofLiteral? true
  rw [← Decimal.literal_ofRun] at hvalue
  refine takesMinus_raisedDecimal rfl hrun.nonempty hvalue ?_ Q
  rintro _ ⟨d, rfl, hd⟩
  exact mem_magnitudeTokens_ofRun hd true

end Parser

/-! ### Integers -/

/-- An integer as a decimal. -/
def Decimal.ofInt (n : Int) : Decimal where
  negative := n < 0
  whole := String.ofList (Digits.ofNat n.natAbs)

namespace Decimal

variable (n : Int)

theorem whole_ofInt_ne_empty : (ofInt n).whole ≠ "" := fun h =>
  Digits.ofNat_ne_nil n.natAbs (String.ofList_eq_empty_iff.mp h)

theorem WellFormed.ofInt : (ofInt n).WellFormed := by
  refine ⟨?_, nofun, nofun, fun h => whole_ofInt_ne_empty n h.1, nofun⟩
  rw [Decimal.ofInt, String.toList_ofList]
  exact Digits.isDigit_of_mem_ofNat

@[simp] theorem value_ofInt : (ofInt n).value = n := by
  have hdigits : Digits.value ((ofInt n).whole.toList ++ (ofInt n).fraction.toList) = n.natAbs := by
    rw [ofInt, String.toList_ofList, String.toList_empty, List.append_nil, Digits.value_ofNat]
  have hcycle : Digits.value (ofInt n).repeating.toList = 0 := rfl
  rw [value, hdigits, hcycle]
  rcases lt_or_ge n 0 with hneg | hnonneg
  · have habs : ((n.natAbs : Nat) : ℚ) = -n := by
      rw [← Int.cast_natCast, Int.ofNat_natAbs_of_nonpos hneg.le, Int.cast_neg]
    simp [ofInt, signed, hneg, habs]
  · have habs : ((n.natAbs : Nat) : ℚ) = n := by
      rw [← Int.cast_natCast, Int.natAbs_of_nonneg hnonneg]
    simp [ofInt, signed, not_lt.mpr hnonneg, habs]

end Decimal

theorem Number.exists_ofLiteral?_ofInt (n : Int) :
    ∃ value, ofLiteral? (Decimal.ofInt n).literal = some value ∧
      value.decimalValue? = some (n : ℚ) := by
  have h := exists_ofLiteral? (.ofInt n) (Decimal.whole_ofInt_ne_empty n)
    (Decimal.WellFormed.ofInt n).powerText
  rwa [Decimal.value_ofInt] at h

/-- The number ten as it is read. -/
def Number.ten : Number :=
  .machine (.ofInt 10)

theorem Number.ofLiteral?_ten : ofLiteral? (Decimal.ofInt 10).literal = some ten := by
  decide +kernel

namespace Parser

variable {env : Env} {inner : Inner} {s : State} {ts us after : List Token} {n : Int}

theorem mem_magnitudeTokens_ofInt {t : Token}
    (ht : t.kind = .digits (String.ofList (Digits.ofNat n.natAbs))) :
    [t] ∈ magnitudeTokens (Decimal.ofInt n) :=
  mem_magnitudeTokens_ofRun ht (n < 0)

theorem mem_of_mem_integerTokens (h : ts ∈ integerTokens n) :
    ts ∈ signTokens (Decimal.ofInt n).negative * magnitudeTokens (Decimal.ofInt n) := by
  obtain ⟨us, hus, _, ⟨t, rfl, ht⟩, rfl⟩ := Language.mem_mul.mp h
  refine Language.mem_mul.mpr ⟨us, ?_, [t], mem_magnitudeTokens_ofInt ht, rfl⟩
  simpa [signTokens, Decimal.ofInt] using hus

theorem Reads.integer (n : Int) :
    Reads env inner delimited .atomic (EndsSigned (Decimal.ofInt n).negative)
      (fun o _ => ∃ k : Number, k.decimalValue? = some (n : ℚ) ∧ o = { expression := .number k })
      (integerTokens n) := by
  obtain ⟨k, hliteral, hk⟩ := Number.exists_ofLiteral?_ofInt n
  intro ts hts after s loosest hs hctx hloosest hafter
  obtain ⟨_, _, ⟨rfl, rfl⟩, hleads⟩ := Reads.number (Decimal.whole_ofInt_ne_empty n) hliteral ts
    (mem_of_mem_integerTokens hts) after s loosest hs hctx hloosest hafter
  exact ⟨_, none, ⟨k, hk, rfl⟩, hleads⟩

/-! ### Powers of ten -/

theorem Reads.ten : Reads env inner delimited .atomic EndsDecimal
    (fun o chained => o = { expression := .number .ten } ∧ chained = none)
    (Token.one (.digits "10")) := by
  intro ts hts after s loosest hs hctx hloosest hafter
  have hinteger : ts ∈ integerTokens 10 := Language.mem_mul.mpr ⟨[], rfl, ts, hts, rfl⟩
  exact Reads.number (Decimal.whole_ofInt_ne_empty 10) Number.ofLiteral?_ten ts
    (mem_of_mem_integerTokens hinteger) after s loosest hs hctx hloosest ⟨hafter, nofun⟩

/-- A power of ten as it is read. -/
def IsTenPower (n : Int) (e : Expression) : Prop :=
  ∃ k : Number, k.decimalValue? = some (n : ℚ) ∧ e = .function "Power" [.number .ten, .number k]

theorem Reads.tenPower (henv : env.IsStandard) {levels : Nat} (n : Int) :
    Reads env (nested env (levels + 1)) delimited .power EndsSum
      (fun o _ => IsTenPower n o.expression ∧ o.callable = false) (tenTokens n) := by
  have hfollow (t : Token) (after : List Token) (ht : t.kind = .punct '^') :
      EndsDecimal (t :: after) :=
    .of_punct ht (by decide) _
  have hexponent : Reads env (nested env levels) delimited .atomic EndsSum _ (integerTokens n) :=
    (Reads.integer n).mono (Nat.le_refl _) (fun _ h => h.endsSigned _) fun _ _ h => h
  refine (Reads.power henv rfl Reads.ten (by decide) hfollow hexponent EndsSum).mono (Nat.le_refl _)
    (fun _ h => h) ?_
  rintro _ _ ⟨-, _, _, _, _, ⟨rfl, -⟩, ⟨k, hk, rfl⟩, rfl⟩
  exact ⟨⟨k, hk, rfl⟩, rfl⟩

/-- A minus sign in front of a power of ten is an operator. -/
theorem takesMinus_tenTokens (n : Int) : TakesMinus (tenTokens n) :=
  takesMinus_raisedRun (by decide) _

end Parser

/-- The expression is read off the text of a number of the value: it is a number, or a power of ten
with or without a minus sign in front. -/
inductive Expression.IsDecimal : Expression → ℚ → Prop
  | number {n : Number} {q : ℚ} (h : n.decimalValue? = some q) : IsDecimal (.number n) q
  | tenPower {n : Int} {k : Number} (h : k.decimalValue? = some (n : ℚ)) :
      IsDecimal (.function "Power" [.number .ten, .number k]) (10 ^ n)
  | negatedTenPower {n : Int} {k : Number} (h : k.decimalValue? = some (n : ℚ)) :
      IsDecimal (.function "Negate" [.function "Power" [.number .ten, .number k]]) (-10 ^ n)

namespace Parser

variable {env : Env}

theorem Reads.signedTenPower (henv : env.IsStandard) {levels : Nat} (negative : Bool) (n : Int) :
    Reads env (nested env (levels + 2)) delimited .power EndsSum
      (fun o _ => o.expression.IsDecimal (signed negative (10 ^ n)) ∧ o.expression.isMissing = false)
      (signTokens negative * tenTokens n) := by
  cases negative with
  | false =>
    rw [signTokens, if_neg Bool.false_ne_true, one_mul]
    refine (Reads.tenPower henv n).mono (Nat.le_refl _) (fun _ h => h) ?_
    rintro ⟨_, _⟩ _ ⟨⟨k, hk, rfl⟩, -⟩
    exact ⟨.tenPower hk, rfl⟩
  | true =>
    have hsettles : Settles fun o _ => IsTenPower n o.expression ∧ o.callable = false := by
      rintro ⟨_, _⟩ _ ⟨⟨k, -, rfl⟩, hcallable⟩
      exact ⟨hcallable, rfl⟩
    refine (Reads.negated hsettles henv rfl (Reads.tenPower henv n) (by decide)
      (takesMinus_tenTokens n) fun _ h => h.endsProduct).mono (Nat.le_refl _) (fun _ h => h) ?_
    rintro _ _ ⟨-, ⟨_, _⟩, _, ⟨⟨k, hk, rfl⟩, -⟩, rfl⟩
    exact ⟨.negatedTenPower hk, rfl⟩

end Parser

/-! ### Digits without a power of ten -/

/-- Digits without a sign and without a power of ten, all of which are written. -/
structure Decimal.IsPlain (d : Decimal) : Prop where
  wellFormed : d.WellFormed
  whole : d.whole ≠ ""
  unsigned : d.negative = false
  exponent : d.exponent = none
  budget : d.repeating.toList ≠ [] ∨ d.fraction.toList.length ≤ 14

/-- A decimal as it is written. -/
def Decimal.digits (d : Decimal) : String :=
  String.ofList (NumberFormat.spelling d)

namespace Decimal.IsPlain

variable {d : Decimal} (h : d.IsPlain)

include h

theorem spelling_eq (negative : Bool) :
    NumberFormat.spelling { d with negative := negative } = (if negative then ['-'] else []) ++
      (({} : NumberFormat).whole d.whole.toList ++
        NumberFormat.fractionText d.fraction.toList d.repeating.toList) := by
  have hbare : ∀ n, ¬NumberFormat.IsBarePower { d with negative := negative } n := by
    rintro n ⟨hn, -⟩
    cases h.exponent.symm.trans hn
  have hspelling := NumberFormat.spelling_eq (d := { d with negative := negative }) h.budget hbare
  rw [hspelling, h.exponent, NumberFormat.scaleText, List.append_nil]

theorem eq_self : { d with negative := false } = d := by
  rw [← h.unsigned]

theorem toList_digits : d.digits.toList = ({} : NumberFormat).whole d.whole.toList ++
    NumberFormat.fractionText d.fraction.toList d.repeating.toList := by
  have hspelling := h.spelling_eq false
  rw [h.eq_self] at hspelling
  rw [digits, String.toList_ofList, hspelling]
  rfl

/-- A sign stands in front of the digits. -/
theorem digits_signed (negative : Bool) :
    digits { d with negative := negative } = (if negative then "-" else "") ++ d.digits := by
  refine String.toList_inj.mp ?_
  rw [digits, String.toList_ofList, h.spelling_eq negative, String.toList_append, h.toList_digits]
  cases negative <;> rfl

theorem spells_digits : Spells d.digits.toList (magnitudeTokens d) := by
  have hspells := Spells.magnitude h.wellFormed h.whole
  rw [h.exponent, NumberFormat.scaleText, List.append_nil] at hspells
  rwa [h.toList_digits]

theorem digits_eq_ten (hwhole : d.whole = "10") (hfraction : d.fraction = "")
    (hrepeating : d.repeating = "") : d.digits = "10" := by
  refine String.toList_inj.mp ?_
  rw [h.toList_digits, hwhole, hfraction, hrepeating]
  decide +kernel

theorem whole_ne_nil : d.whole.toList ≠ [] :=
  fun hnil => h.whole (String.toList_eq_nil_iff.mp hnil)

theorem mem_digits {c : Char} (hc : c ∈ d.digits.toList) :
    c.isDigit = true ∨ c ∈ ",.\\overline\x7b\x7d".toList := by
  have hgroups {c : Char} (h : c.isDigit = true ∨ c = '\\' ∨ c = ',') :
      c.isDigit = true ∨ c ∈ ",.\\overline\x7b\x7d".toList := by
    refine h.imp_right fun h => ?_
    rcases h with rfl | rfl <;> decide
  rw [h.toList_digits] at hc
  rcases List.mem_append.mp hc with hc | hc
  · exact hgroups (NumberFormat.mem_joinGroups NumberFormat.exists_triplesFromRight h.whole_ne_nil
      h.wellFormed.whole hc)
  · unfold NumberFormat.fractionText at hc
    split at hc
    · cases hc
    · rcases List.mem_cons.mp hc with rfl | hc
      · exact .inr (by decide)
      · rcases List.mem_append.mp hc with hc | hc
        · by_cases hempty : d.fraction.toList = []
          · rw [hempty, NumberFormat.fraction, NumberFormat.joinGroups_nil] at hc
            cases hc
          · exact hgroups (NumberFormat.mem_joinGroups NumberFormat.exists_triples hempty
              h.wellFormed.fraction hc)
        · split at hc
          · cases hc
          · rw [NumberFormat.cycle, List.mem_append, List.mem_append] at hc
            have hmarks : ("\\overline\x7b".toList ++ "\x7d".toList).all
                (· ∈ ",.\\overline\x7b\x7d".toList) = true := by decide
            rcases hc with (hc | hc) | hc
            · exact .inr (of_decide_eq_true (List.all_eq_true.mp hmarks c (List.mem_append_left _ hc)))
            · exact .inl (h.wellFormed.repeating c hc)
            · exact .inr (of_decide_eq_true (List.all_eq_true.mp hmarks c (List.mem_append_right _ hc)))

/-- The digits come first. -/
theorem exists_head?_digits : ∃ c ∈ d.digits.toList.head?, c.isDigit = true := by
  obtain ⟨first, others, hgrouped, hflatten, hne, -⟩ :=
    NumberFormat.joinGroups_eq NumberFormat.exists_triplesFromRight h.whole_ne_nil
  have htext : d.digits.toList = first ++ (others.flatMap (['\\', ','] ++ ·) ++
      NumberFormat.fractionText d.fraction.toList d.repeating.toList) := by
    rw [h.toList_digits, ← List.append_assoc first, ← hgrouped]
    rfl
  cases first with
  | nil => exact absurd rfl (hne [] List.mem_cons_self)
  | cons c cs =>
    refine ⟨c, by rw [htext]; rfl, h.wellFormed.whole c ?_⟩
    rw [← hflatten]
    exact List.mem_cons_self

end Decimal.IsPlain

/-- The number is written as the digits and read off them, without a sign or with one. -/
structure Number.HasDigits (n : Number) (d : Decimal) : Prop extends d.IsPlain where
  nonnegative : n.isNegative = false
  write_eq : ({} : NumberFormat).write n = d.digits
  ofLiteral?_eq : ofLiteral? d.literal = some n
  write_neg : n.neg.isNegative = true → ({} : NumberFormat).write n.neg = "-" ++ d.digits
  ofLiteral?_neg : n.neg.isNegative = true →
    ofLiteral? (Decimal.literal { d with negative := true }) = some n.neg

namespace Magnitude

/-- A double of this magnitude is written without a power of ten, and with all its digits. -/
structure IsPlain (m : Magnitude) : Prop where
  exponent : (m.shown false).exponent = none
  fraction : (m.shown false).fraction.length ≤ 14

variable {m : Magnitude}

/-- Digits without an exponent are read as the double that they were written for. -/
theorem ofLiteral?_shown {negative : Bool} (hnone : (m.shown negative).exponent = none) :
    Number.ofLiteral? (m.shown negative).literal =
      some (.machine (.finite (negative && !m.isZero) m)) := by
  obtain ⟨hrange, hshown⟩ := Magnitude.shown_eq_of_exponent hnone
  rw [Decimal.literal, hnone, Decimal.powerText, List.append_nil, hshown]
  exact Number.ofLiteral?_decimal negative hrange

theorem write_eq_digits (negative : Bool) (m : Magnitude) :
    ({} : NumberFormat).write (.machine (.finite negative m)) = (m.shown negative).digits :=
  congrArg String.ofList (NumberFormat.double_eq_spelling negative m)

theorem IsPlain.shown (h : m.IsPlain) : (m.shown false).IsPlain :=
  ⟨m.wellFormed_shown false, m.whole_shown_ne_empty false, rfl, h.exponent,
    .inr (by rw [String.length_toList]; exact h.fraction)⟩

theorem IsPlain.hasDigits (h : m.IsPlain) :
    (Number.machine (.finite false m)).HasDigits (m.shown false) where
  toIsPlain := h.shown
  nonnegative := rfl
  write_eq := write_eq_digits false m
  ofLiteral?_eq := ofLiteral?_shown h.exponent
  write_neg hneg := by
    have hzero : (!m.isZero) = true := hneg
    have hshown : m.shown true = { m.shown false with negative := true } := by
      rw [m.shown_eq true, hzero]
      rfl
    have hwrite := write_eq_digits true m
    rwa [hshown, h.shown.digits_signed true] at hwrite
  ofLiteral?_neg hneg := by
    have hzero : (!m.isZero) = true := hneg
    have hread : Number.ofLiteral? (m.shown true).literal = some (.machine (.finite (!m.isZero) m)) :=
      ofLiteral?_shown h.exponent
    rwa [m.shown_eq true, hzero] at hread

/-- A double is written as the digits of its magnitude behind its sign; zero has none. -/
theorem IsPlain.write_eq (h : m.IsPlain) (negative : Bool) :
    ({} : NumberFormat).write (.machine (.finite negative m)) =
      (if negative && !m.isZero then "-" else "") ++ (m.shown false).digits := by
  rw [write_eq_digits, m.shown_eq, h.shown.digits_signed]

end Magnitude

/-! ### Decimals without a power of ten -/

namespace Decimal

variable {d : Decimal}

theorem shown_signed (d : Decimal) (negative : Bool) :
    shown { d with negative := negative } = { d.shown with negative := negative && !d.isZero } :=
  rfl

/-- A decimal that stays one is written as its digits and read off them. -/
theorem IsPlain.hasDigits_decimal (h : d.IsPlain) (hshown : d.shown = d)
    (hread : Number.ofLiteral? d.literal = some (.decimal d)) : (Number.decimal d).HasDigits d where
  toIsPlain := h
  nonnegative := by rw [Number.isNegative, h.unsigned, Bool.false_and]
  write_eq := by
    have hwrite := NumberFormat.decimal_eq_spelling d
    rw [hshown] at hwrite
    exact congrArg String.ofList hwrite
  ofLiteral?_eq := hread
  write_neg hneg := by
    have hwrite := NumberFormat.decimal_eq_spelling d.neg
    have hsign : (!d.negative && !d.isZero) = true := hneg
    have hsigned : d.neg.shown = { d with negative := true } := by
      rw [neg, shown_signed, hshown, hsign]
    rw [hsigned] at hwrite
    exact (congrArg String.ofList hwrite).trans (h.digits_signed true)
  ofLiteral?_neg _ := by
    have hwell := h.wellFormed.withSign true
    have hneg : d.neg = { d with negative := true } := by rw [neg, h.unsigned, Bool.not_false]
    rw [Number.neg, hneg]
    refine (Number.ofLiteral?_cases hwell h.whole hwell.powerText).resolve_right ?_
    -- a double with these digits would be read off them without the sign as well
    rintro ⟨negative, m, -, hm⟩
    have hunsigned : m.shown false = d := by
      have hdigits : { m.shown negative with negative := false } = m.shown false := rfl
      rw [← hdigits, hm]
      exact h.eq_self
    have hmachine : Number.ofLiteral? (m.shown false).literal = some (.machine (.finite false m)) :=
      Magnitude.ofLiteral?_shown (hunsigned.symm ▸ h.exponent)
    rw [hunsigned, hread] at hmachine
    cases hmachine

/-- The digits of a decimal are those of a number that is read off them. -/
theorem IsPlain.exists_hasDigits (h : d.IsPlain) (hshown : d.shown = d) :
    ∃ n : Number, n.HasDigits d ∧ (d.isZero = false → n.neg.isNegative = true) := by
  rcases Number.ofLiteral?_cases h.wellFormed h.whole h.wellFormed.powerText with
    hread | ⟨negative, m, -, rfl⟩
  · refine ⟨_, h.hasDigits_decimal hshown hread, fun hzero => ?_⟩
    rw [Number.neg, neg, h.unsigned]
    exact congrArg (!·) hzero
  · have hunsigned : m.shown negative = m.shown false := h.eq_self.symm
    rw [hunsigned] at h ⊢
    have hm : m.IsPlain := by
      refine ⟨h.exponent, ?_⟩
      rw [← String.length_toList]
      exact h.budget.resolve_left fun hne => hne rfl
    refine ⟨_, hm.hasDigits, fun hzero => ?_⟩
    cases hmagnitude : m.isZero with
    | false => exact congrArg (!·) hmagnitude
    | true =>
      rw [Magnitude.eq_zero_of_isZero hmagnitude] at hzero
      cases hzero

end Decimal

end TexFormula
