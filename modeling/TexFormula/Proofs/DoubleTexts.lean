import TexFormula.Number.Format
import TexFormula.Proofs.NumberLiterals

/-!
# Doubles as literals

The text of a double is the literal of a decimal with the value of its shortest digits
(`Layout.parse?_plain`). So a literal is read as a number of its own value, whether the number
becomes a double or stays a decimal (`Number.exists_ofLiteral?`); and a double written without a
power of ten is read as itself (`Number.ofLiteral?_decimal`).
-/

namespace TexFormula

/-! ### Digits with a point among them -/

theorem Digits.isDigit_of_mem_zeros {n : Nat} : ∀ c ∈ zeros n, c.isDigit = true :=
  fun _ hc => List.eq_of_mem_replicate hc ▸ rfl

theorem Digits.value_zeros_append (n : Nat) (cs : List Char) : value (zeros n ++ cs) = value cs := by
  have hzeros : value (zeros n) = 0 := by
    rw [← List.nil_append (zeros n), value_append_zeros]
    exact Nat.zero_mul _
  rw [value_append, hzeros, Nat.zero_mul, Nat.zero_add]

namespace Scientific

variable {s : Scientific}

/-- The decimal of the digits, with the point `shift` places to the right of the first one. -/
def decimal (s : Scientific) (negative : Bool) (shift : Int) : Decimal :=
  { negative
    whole := String.ofList (s.split shift).1
    fraction := String.ofList (s.split shift).2
    exponent := if s.exponent - shift = 0 then none else some (s.exponent - shift) }

theorem split_of_nonpos (s : Scientific) {shift : Int} (h : shift + 1 ≤ 0) :
    s.split shift = (['0'], Digits.zeros (-(shift + 1)).toNat ++ s.digits) :=
  if_pos h

theorem split_of_pos (s : Scientific) {shift : Int} (h : 0 < shift + 1) :
    s.split shift = (s.digits.take (shift + 1).toNat ++
        Digits.zeros ((shift + 1).toNat - s.digits.length), s.digits.drop (shift + 1).toNat) :=
  if_neg (Int.not_le.mpr h)

theorem split_whole_ne_nil (s : Scientific) (shift : Int) : (s.split shift).1 ≠ [] := by
  rcases lt_or_ge 0 (shift + 1) with hpos | hnonpos
  · rw [split_of_pos s hpos, ne_eq, ← List.length_eq_zero_iff, List.length_append, List.length_take,
      Digits.zeros, List.length_replicate]
    omega
  · rw [split_of_nonpos s hnonpos]
    exact List.cons_ne_nil _ _

theorem isDigit_of_mem_split (h : ∀ c ∈ s.digits, c.isDigit = true) (shift : Int) :
    (∀ c ∈ (s.split shift).1, c.isDigit = true) ∧ ∀ c ∈ (s.split shift).2, c.isDigit = true := by
  rcases lt_or_ge 0 (shift + 1) with hpos | hnonpos
  · rw [split_of_pos s hpos]
    refine ⟨fun c hc => ?_, fun c hc => h c (List.mem_of_mem_drop hc)⟩
    rcases List.mem_append.mp hc with hc | hc
    · exact h c (List.mem_of_mem_take hc)
    · exact Digits.isDigit_of_mem_zeros c hc
  · rw [split_of_nonpos s hnonpos]
    refine ⟨fun c hc => List.mem_singleton.mp hc ▸ rfl, fun c hc => ?_⟩
    rcases List.mem_append.mp hc with hc | hc
    · exact Digits.isDigit_of_mem_zeros c hc
    · exact h c hc

theorem exponent_decimal_self (s : Scientific) (negative : Bool) :
    (s.decimal negative s.exponent).exponent = none :=
  if_pos (Int.sub_self _)

/-- Moving the point multiplies by a power of ten. -/
theorem value_split (s : Scientific) (shift : Int) :
    (Digits.value ((s.split shift).1 ++ (s.split shift).2) : ℚ) / 10 ^ (s.split shift).2.length =
      Digits.value s.digits * 10 ^ (shift + 1 - s.digits.length) := by
  have hten : (10 : ℚ) ≠ 0 := by norm_num
  rcases lt_or_ge 0 (shift + 1) with hpos | hnonpos
  · rw [split_of_pos s hpos]
    have hwidth : shift + 1 = (shift + 1).toNat := by omega
    rw [hwidth, Int.toNat_natCast]
    generalize (shift + 1).toNat = width
    dsimp only
    rcases Nat.le_total s.digits.length width with hle | hge
    · rw [List.take_of_length_le hle, List.drop_of_length_le hle, List.append_nil,
        Digits.value_append_zeros, List.length_nil, pow_zero, div_one, Nat.cast_mul, cast_tenPow,
        ← zpow_natCast, Nat.cast_sub hle]
    · rw [Nat.sub_eq_zero_of_le hge, Digits.zeros, List.replicate_zero, List.append_nil,
        List.take_append_drop, List.length_drop, div_eq_mul_inv, ← zpow_natCast, ← zpow_neg,
        Nat.cast_sub hge, neg_sub]
  · rw [split_of_nonpos s hnonpos]
    dsimp only
    have hzero : Digits.value (['0'] ++ (Digits.zeros (-(shift + 1)).toNat ++ s.digits)) =
        Digits.value s.digits := by
      rw [← List.append_assoc, show ['0'] ++ Digits.zeros (-(shift + 1)).toNat =
        Digits.zeros ((-(shift + 1)).toNat + 1) from rfl, Digits.value_zeros_append]
    have hexponent : shift + 1 - s.digits.length =
        -(((-(shift + 1)).toNat + s.digits.length : Nat) : Int) := by omega
    rw [hzero, hexponent, List.length_append, Digits.zeros, List.length_replicate, zpow_neg,
      zpow_natCast, div_eq_mul_inv]

theorem value_decimal (s : Scientific) (negative : Bool) (shift : Int) :
    (s.decimal negative shift).value = signed negative s.value := by
  have hexponent : (s.decimal negative shift).exponent.getD 0 = s.exponent - shift := by
    rw [decimal]
    dsimp only
    split
    · next hzero => rw [hzero]; rfl
    · rfl
  have hsplit := value_split s shift
  have hcycle : Digits.value [] = 0 := rfl
  rw [Decimal.value, hexponent]
  simp only [decimal, String.toList_ofList, String.length_ofList, String.toList_empty, hcycle,
    Nat.cast_zero, zero_div, add_zero]
  rw [hsplit, value, mul_assoc, ← zpow_add₀ (by norm_num)]
  congr 3
  omega

theorem whole_decimal_ne_empty (s : Scientific) (negative : Bool) (shift : Int) :
    (s.decimal negative shift).whole ≠ "" :=
  fun h => split_whole_ne_nil s shift (String.ofList_eq_empty_iff.mp h)

theorem wellFormed_decimal (h : ∀ c ∈ s.digits, c.isDigit = true) (negative : Bool) {shift : Int}
    (hfits : Decimal.fitsWord (s.exponent - shift) = true) : (s.decimal negative shift).WellFormed := by
  obtain ⟨hwhole, hfraction⟩ := isDigit_of_mem_split h shift
  refine ⟨?_, ?_, nofun, ?_, ?_⟩
  · rwa [decimal, String.toList_ofList]
  · rwa [decimal, String.toList_ofList]
  · exact fun h => whole_decimal_ne_empty s negative shift h.1
  · intro n hn
    rw [decimal] at hn
    dsimp only at hn
    split at hn
    · cases hn
    · rwa [← Option.some.inj hn]

/-- With all places of the exponent before the point, no exponent is left. -/
theorem wellFormed_decimal_self (h : ∀ c ∈ s.digits, c.isDigit = true) (negative : Bool) :
    (s.decimal negative s.exponent).WellFormed := by
  refine wellFormed_decimal h negative ?_
  rw [Int.sub_self]
  rfl

end Scientific

/-! ### The decimal of a double -/

theorem Decimal.fitsWord_of_bounds {n : Int} (h : -1000 ≤ n ∧ n ≤ 1000) : Decimal.fitsWord n = true := by
  have hgreat : (1000 : Int) < twoPow 63 := by decide
  rw [Decimal.fitsWord, Bool.and_eq_true, decide_eq_true_eq, decide_eq_true_eq]
  omega

namespace Magnitude

variable (m : Magnitude) (negative : Bool)

/-- The decimal that is written for a double: its shortest digits with the point where the style sets
it, and no sign of a zero. -/
def shown : Decimal :=
  (m.shortest .upward).decimal (negative && !m.isZero)
    (({} : NumberFormat).shift (m.shortest .upward).exponent)

theorem shift_eq (exponent : Int) :
    ({} : NumberFormat).shift exponent = if -7 < exponent ∧ exponent < 21 then exponent else 0 :=
  rfl

theorem wellFormed_shown : (m.shown negative).WellFormed := by
  have hbounds := m.exponent_shortest_bounds .upward
  refine Scientific.wellFormed_decimal m.isDigit_of_mem_shortest _ (Decimal.fitsWord_of_bounds ?_)
  rw [shift_eq]
  split <;> omega

theorem whole_shown_ne_empty : (m.shown negative).whole ≠ "" :=
  Scientific.whole_decimal_ne_empty _ _ _

theorem value_shown : (m.shown negative).value = signed negative (m.shortest .upward).value := by
  rw [shown, Scientific.value_decimal, signed_value_shortest]

/-- Signs have no part in the digits. -/
theorem shown_eq (m : Magnitude) (negative : Bool) :
    m.shown negative = { m.shown false with negative := negative && !m.isZero } :=
  rfl

/-- A double without an exponent has its point in place. -/
theorem shown_eq_of_exponent {m : Magnitude} {negative : Bool}
    (h : (m.shown negative).exponent = none) :
    (-6 ≤ (m.shortest .upward).exponent ∧ (m.shortest .upward).exponent ≤ 20) ∧
      m.shown negative = (m.shortest .upward).decimal (negative && !m.isZero)
        (m.shortest .upward).exponent := by
  rw [shown, Scientific.decimal] at h
  dsimp only at h
  split at h
  · next hzero =>
    rw [shift_eq] at hzero
    split at hzero
    · next hrange =>
      refine ⟨by omega, ?_⟩
      rw [shown, shift_eq, if_pos hrange]
    · next hrange => omega
  · cases h

end Magnitude

/-! ### Texts of doubles -/

namespace Layout

variable {s : Scientific}

/-- With the point among its digits, a number is written as a decimal without an exponent. -/
theorem positional_plain (hdigits : s.digits ≠ []) (negative : Bool) :
    (if negative then ['-'] else []) ++ plain.positional s =
      (s.decimal negative s.exponent).mantissa := by
  rw [Decimal.mantissa, Scientific.decimal, String.toList_ofList, String.toList_ofList]
  congr 1
  unfold positional Decimal.afterWhole
  split
  · next hneg =>
    have hzeros : -(s.exponent + 1) = -s.exponent - 1 := by omega
    rw [Scientific.split_of_nonpos s (by omega), hzeros, if_neg (by simp [hdigits])]
    simp
  · next hnonneg =>
    rw [Scientific.split_of_pos s (by omega)]
    dsimp only
    generalize (s.exponent + 1).toNat = width
    split
    · next hle =>
      rw [List.take_of_length_le hle, List.drop_of_length_le hle]
      rfl
    · next hgt =>
      have hdrop : s.digits.drop width ≠ [] := by
        rw [ne_eq, List.drop_eq_nil_iff]
        omega
      rw [if_neg (fun h => hdrop h.1), Nat.sub_eq_zero_of_le (by omega), Digits.zeros,
        List.replicate_zero, List.append_nil]
      simp

theorem spellsInt_withPower {n : Int} :
    Digits.SpellsInt ((if n < 0 then ['-'] else ['+']) ++ Digits.ofNat n.natAbs) n := by
  have hne := Digits.ofNat_ne_nil n.natAbs
  have hdigits : ∀ c ∈ Digits.ofNat n.natAbs, c.isDigit = true := Digits.isDigit_of_mem_ofNat
  split
  · next hneg =>
    have h := Digits.SpellsInt.minus hne hdigits
    rwa [Digits.value_ofNat, show -((n.natAbs : Nat) : Int) = n by omega] at h
  · next hnonneg =>
    have h := Digits.SpellsInt.plus hne hdigits
    rwa [Digits.value_ofNat, show ((n.natAbs : Nat) : Int) = n by omega] at h

/-- A power of ten stands behind a decimal with one digit before the point. -/
theorem exists_withPower_plain (hdigits : s.digits ≠ []) (hexponent : s.exponent ≠ 0)
    (hfits : Decimal.fitsWord s.exponent = true) (negative : Bool) :
    ∃ power, Decimal.PowerText (s.decimal negative 0).exponent power ∧
      (if negative then ['-'] else []) ++ plain.withPower s =
        (s.decimal negative 0).mantissa ++ power := by
  have hpower : (s.decimal negative 0).exponent = some s.exponent := by
    rw [Scientific.decimal]
    dsimp only
    rw [Int.sub_zero, if_neg hexponent]
  refine ⟨_, hpower.symm ▸ Decimal.PowerText.some spellsInt_withPower hfits, ?_⟩
  have hlength := List.length_pos_of_ne_nil hdigits
  have hone : ((0 : Int) + 1).toNat = 1 := rfl
  rw [Decimal.mantissa, Scientific.decimal, String.toList_ofList, String.toList_ofList,
    Scientific.split_of_pos s (by decide), hone, Nat.sub_eq_zero_of_le hlength, withPower,
    Decimal.afterWhole]
  by_cases hsingle : s.digits.length ≤ 1
  · have hdrop : s.digits.drop 1 = [] := List.drop_of_length_le hsingle
    simp [hsingle, hdrop, plain, Digits.zeros]
  · have hdrop : s.digits.drop 1 ≠ [] := by
      rw [ne_eq, List.drop_eq_nil_iff]
      omega
    rw [List.drop_one] at hdrop
    simp [hsingle, hdrop, plain, Digits.zeros]

theorem plain_write (negative : Bool) (m : Magnitude) :
    plain.write (.finite negative m) =
      String.ofList ((if negative && !m.isZero then ['-'] else []) ++ plain.magnitude m) :=
  rfl

/-- Without a power of ten, the text of a double is the decimal of its digits. -/
theorem plain_write_of_positional (negative : Bool) {m : Magnitude}
    (h : -6 ≤ (m.shortest .upward).exponent ∧ (m.shortest .upward).exponent ≤ 20) :
    plain.write (.finite negative m) =
      String.ofList ((m.shortest .upward).decimal (negative && !m.isZero)
        (m.shortest .upward).exponent).mantissa := by
  have hmagnitude : plain.magnitude m = plain.positional (m.shortest .upward) := if_pos h
  rw [plain_write, hmagnitude, positional_plain (m.digits_shortest_ne_nil .upward)]

/-- The text of a double is the literal of the decimal that is written for it. -/
theorem parse?_plain (negative : Bool) (m : Magnitude) :
    Decimal.parse? (plain.write (.finite negative m)) = some (m.shown negative) := by
  have hdigits := m.digits_shortest_ne_nil .upward
  have hbounds := m.exponent_shortest_bounds .upward
  have hwell := m.wellFormed_shown negative
  by_cases h : -6 ≤ (m.shortest .upward).exponent ∧ (m.shortest .upward).exponent ≤ 20
  · have hshift : ({} : NumberFormat).shift (m.shortest .upward).exponent =
        (m.shortest .upward).exponent := by
      rw [Magnitude.shift_eq, if_pos (by omega)]
    have hnone := Scientific.exponent_decimal_self (m.shortest .upward) (negative && !m.isZero)
    rw [Magnitude.shown, hshift] at hwell ⊢
    rw [plain_write_of_positional negative h, ← List.append_nil (Decimal.mantissa _)]
    exact Decimal.parse?_literal hwell (hnone ▸ .none)
  · have hshift : ({} : NumberFormat).shift (m.shortest .upward).exponent = 0 := by
      rw [Magnitude.shift_eq, if_neg (by omega)]
    have hmagnitude : plain.magnitude m = plain.withPower (m.shortest .upward) := if_neg h
    have hfits := Decimal.fitsWord_of_bounds (n := (m.shortest .upward).exponent) (by omega)
    obtain ⟨power, hpower, htext⟩ := exists_withPower_plain hdigits (by omega) hfits
      (negative && !m.isZero)
    rw [Magnitude.shown, hshift] at hwell ⊢
    rw [plain_write, hmagnitude, htext]
    exact Decimal.parse?_literal hwell hpower

end Layout

/-! ### Literals -/

/-- The number that is written: the value of the shortest digits of a double, and the value of a
decimal. -/
def Number.decimalValue? : Number → Option ℚ
  | .machine (.finite negative m) => some (signed negative (m.shortest .upward).value)
  | .machine _ => none
  | .decimal d => some d.value

namespace Double

theorem special?_of_isDigit {c : Char} {cs : List Char} (h : c.isDigit = true) (negative : Bool) :
    special? negative (c :: cs) = none := by
  have hlower : (c :: cs).map Char.toLower = c :: cs.map Char.toLower := by
    rw [List.map_cons, Digits.toLower_of_isDigit h]
  have hne : ∀ name : String, name.toList.head?.any Char.isDigit = false →
      String.ofList (c :: cs.map Char.toLower) ≠ name := by
    rintro _ hname rfl
    rw [String.toList_ofList, List.head?_cons, Option.any_some, h] at hname
    cases hname
  unfold special?
  rw [hlower]
  simp only [hne "inf" rfl, hne "infinity" rfl, hne "nan" rfl, decide_false, Bool.or_self,
    Bool.false_eq_true, if_false]

theorem ofText?_eq (text : String) :
    ofText? text =
      (special? (Decimal.splitSign text.toList).1 (Decimal.splitSign text.toList).2).or
        (unsignedOfText? (Decimal.splitSign text.toList).1 (Decimal.splitSign text.toList).2) :=
  rfl

/-- Without what repeats and without an exponent, a literal denotes the double nearest to it. -/
theorem ofText?_mantissa {d : Decimal} (hd : d.WellFormed) (hwhole : d.whole ≠ "")
    (hrepeating : d.repeating = "") :
    ofText? (String.ofList d.mantissa) =
      some (ofDecimal d.negative (Digits.value (d.whole.toList ++ d.fraction.toList))
        (0 - d.fraction.toList.length)) := by
  have hsign := Decimal.splitSign_literal hd []
  rw [List.append_nil, List.append_nil, hrepeating, String.toList_empty] at hsign
  obtain ⟨c, cs, hlist, hc⟩ := Decimal.exists_whole_eq_cons hd hwhole
  have hname : special? d.negative (d.whole.toList ++ Decimal.afterWhole d.fraction.toList []) =
      none := by
    rw [hlist]
    exact special?_of_isDigit hc d.negative
  have hnonempty : d.whole.toList.isEmpty = false := by
    rw [hlist]
    rfl
  rw [ofText?_eq, String.toList_ofList, hsign, hname, Option.none_or]
  unfold unsignedOfText? Decimal.afterWhole
  by_cases hfraction : d.fraction.toList = []
  · rw [if_pos ⟨hfraction, rfl⟩]
    have htake := Text.takeWhile_append (r := []) hd.whole rfl
    have hdrop := Text.dropWhile_append (r := []) hd.whole rfl
    simp only [htake, hdrop, hnonempty, hfraction]
    rfl
  · rw [if_neg fun h => hfraction h.1]
    have htake := Text.takeWhile_append (r := '.' :: (d.fraction.toList ++ [])) hd.whole rfl
    have hdrop := Text.dropWhile_append (r := '.' :: (d.fraction.toList ++ [])) hd.whole rfl
    have htake' := Text.takeWhile_append (r := []) hd.fraction rfl
    have hdrop' := Text.dropWhile_append (r := []) hd.fraction rfl
    simp only [if_true, htake, hdrop, htake', hdrop', hnonempty]
    rfl

/-- The digits of a double with the point among them denote it. -/
theorem ofText?_decimal (negative : Bool) (m : Magnitude) :
    ofText? (String.ofList ((m.shortest .upward).decimal negative
      (m.shortest .upward).exponent).mantissa) = some (.finite negative m) := by
  have hrun : ∀ c ∈ (m.shortest .upward).digits, c.isDigit = true := m.isDigit_of_mem_shortest
  rw [ofText?_mantissa (Scientific.wellFormed_decimal_self hrun negative)
    (Scientific.whole_decimal_ne_empty _ _ _) rfl]
  refine congrArg some (ofDecimal_of_value .upward ?_ negative)
  rw [Scientific.decimal, String.toList_ofList, String.toList_ofList, zero_sub, zpow_neg,
    zpow_natCast, ← div_eq_mul_inv, Scientific.value_split, Scientific.value]

end Double

namespace Number

variable {d : Decimal} {power : List Char}

theorem withoutPlus_literal (hd : d.WellFormed) (hwhole : d.whole ≠ "") (power : List Char) :
    withoutPlus (String.ofList (d.mantissa ++ power)) = String.ofList (d.mantissa ++ power) := by
  obtain ⟨c, cs, hlist, hc⟩ := Decimal.exists_whole_eq_cons hd hwhole
  unfold withoutPlus
  rw [String.toList_ofList, Decimal.mantissa, hlist]
  split
  · next heq =>
    exfalso
    cases hsign : d.negative <;> rw [hsign] at heq
    · exact Digits.ne_of_isDigit hc rfl (List.cons.inj heq).1
    · cases heq
  · rfl

/-- A literal is read as the double that is written with its digits, or stays a decimal. -/
theorem ofLiteral?_cases (hd : d.WellFormed) (hwhole : d.whole ≠ "")
    (hpower : Decimal.PowerText d.exponent power) :
    ofLiteral? (String.ofList (d.mantissa ++ power)) = some (.decimal d) ∨
      ∃ negative m, ofLiteral? (String.ofList (d.mantissa ++ power)) =
        some (.machine (.finite negative m)) ∧ m.shown negative = d := by
  have hparse := Decimal.parse?_literal hd hpower
  unfold ofLiteral?
  rw [hparse, Option.map_some, withoutPlus_literal hd hwhole]
  split
  · cases hmachine : machine? (String.ofList (d.mantissa ++ power)) with
    | none => exact .inl rfl
    | some value =>
      unfold machine? at hmachine
      split at hmachine
      · next negative m _ =>
        split at hmachine
        · next htext =>
          cases hmachine
          have hplain := Layout.parse?_plain negative m
          rw [htext, hparse] at hplain
          exact .inr ⟨negative, m, rfl, (Option.some.inj hplain).symm⟩
        · cases hmachine
      · cases hmachine
  · exact .inl rfl

/-- A literal is read as a number with its value. -/
theorem exists_ofLiteral? (hd : d.WellFormed) (hwhole : d.whole ≠ "")
    (hpower : Decimal.PowerText d.exponent power) :
    ∃ value, ofLiteral? (String.ofList (d.mantissa ++ power)) = some value ∧
      value.decimalValue? = some d.value := by
  rcases ofLiteral?_cases hd hwhole hpower with h | ⟨negative, m, h, rfl⟩
  · exact ⟨_, h, rfl⟩
  · exact ⟨_, h, congrArg some (m.value_shown negative).symm⟩

/-- A double that is written without a power of ten is read from its own digits. -/
theorem ofLiteral?_decimal (negative : Bool) {m : Magnitude}
    (h : -6 ≤ (m.shortest .upward).exponent ∧ (m.shortest .upward).exponent ≤ 20) :
    ofLiteral? (String.ofList ((m.shortest .upward).decimal (negative && !m.isZero)
        (m.shortest .upward).exponent).mantissa) =
      some (.machine (.finite (negative && !m.isZero) m)) := by
  have htext := Layout.plain_write_of_positional (negative && !m.isZero) h
  rw [Bool.and_assoc, Bool.and_self] at htext
  have hdouble := Double.ofText?_decimal (negative && !m.isZero) m
  have hrun : ∀ c ∈ (m.shortest .upward).digits, c.isDigit = true := m.isDigit_of_mem_shortest
  have hwell := Scientific.wellFormed_decimal_self hrun (negative && !m.isZero)
  have hwhole := Scientific.whole_decimal_ne_empty (m.shortest .upward) (negative && !m.isZero)
    (m.shortest .upward).exponent
  have hnone := Scientific.exponent_decimal_self (m.shortest .upward) (negative && !m.isZero)
  have hrepeating : ((m.shortest .upward).decimal (negative && !m.isZero)
    (m.shortest .upward).exponent).repeating = "" := rfl
  generalize (m.shortest .upward).decimal (negative && !m.isZero) (m.shortest .upward).exponent =
    d at *
  have hparse := Decimal.parse?_literal hwell (hnone.symm ▸ Decimal.PowerText.none)
  have hplus := withoutPlus_literal hwell hwhole []
  rw [List.append_nil] at hparse hplus
  unfold ofLiteral?
  rw [hparse, Option.map_some, if_pos hrepeating, hplus, machine?, hdouble]
  simp only [htext, if_true]

end Number

end TexFormula
