import TexFormula.MathJson
import TexFormula.Proofs.NumberLiterals

/-!
# Expressions in MathJSON are read as they were

`MathJson.decode` undoes `MathJson.encode` (`decode_encode`) for the expressions that have a form of
their own in MathJSON (`Expression.Encodable`). Only the sign of zero is lost, as zeros are written
as the integer 0.
-/

namespace TexFormula

/-! ### Whole doubles -/

theorem Magnitude.coversDecimal_of_toNat? {m : Magnitude} {n : Nat} (h : m.toNat? = some n)
    (hm : m.isZero = false) : m.CoversDecimal n 0 := by
  have hvalue := significand_mul_of_toNat? h
  have hpos := Nat.mul_pos (significand_pos hm) (twoPow_pos m.scale)
  have hlow : m.lowerEnd < 4 * m.significand := by
    have := significand_pos hm
    unfold lowerEnd quarters
    split <;> omega
  have hhigh : 4 * m.significand < m.upperEnd := by
    rw [upperEnd_eq]
    omega
  have hlow' := Nat.mul_lt_mul_of_pos_right hlow (twoPow_pos m.scale)
  have hhigh' := Nat.mul_lt_mul_of_pos_right hhigh (twoPow_pos m.scale)
  have hone : tenPow (-(0 : Int)).toNat = 1 ∧ tenPow (0 : Int).toNat = 1 := ⟨rfl, rfl⟩
  rw [Nat.mul_assoc, hvalue] at hlow' hhigh'
  unfold CoversDecimal Covers
  rw [hone.1, hone.2, Nat.mul_one, Nat.mul_one]
  split
  · exact ⟨Nat.le_of_lt hlow', Nat.le_of_lt hhigh'⟩
  · exact ⟨hlow', hhigh'⟩

/-- A whole number is read as the double that has its value. -/
theorem Double.ofDecimal_of_toNat? {m : Magnitude} {n : Nat} (h : m.toNat? = some n)
    (negative : Bool) : ofDecimal negative n 0 = .finite negative m := by
  cases hm : m.isZero with
  | false => exact ofDecimal_of_covers (Magnitude.coversDecimal_of_toNat? h hm) hm negative
  | true =>
    have hn : n = 0 := by simpa [Magnitude.isZero_of_toNat? h] using hm
    rw [Magnitude.eq_zero_of_isZero hm, hn]
    rfl

/-- The value with no sign at zero. -/
def Double.withOneZero : Double → Double
  | .finite negative m => .finite (negative && !m.isZero) m
  | x => x

theorem Double.ofInt_of_toInt? {x : Double} {n : Int} (h : x.toInt? = some n) :
    ofInt n = x.withOneZero := by
  cases x with
  | nan => cases h
  | infinity negative => cases h
  | finite negative m =>
    cases hk : m.toNat? with
    | none => simp [toInt?, hk] at h
    | some k =>
      have hzero := Magnitude.isZero_of_toNat? hk
      have hread := ofDecimal_of_toNat? hk
      cases negative with
      | false =>
        obtain rfl : (k : Int) = n := by simpa [toInt?, hk] using h
        simp [ofInt, withOneZero, hread]
      | true =>
        obtain rfl : -(k : Int) = n := by simpa [toInt?, hk] using h
        simp [ofInt, withOneZero, hread, hzero, Nat.pos_iff_ne_zero, beq_eq_decide]

theorem Double.withOneZero_of_toInt?_ne {x : Double} (h : x.toInt? ≠ some 0) :
    x.withOneZero = x := by
  cases x with
  | nan => rfl
  | infinity negative => rfl
  | finite negative m =>
    cases hm : m.isZero with
    | false => simp [withOneZero, hm]
    | true =>
      rw [Magnitude.eq_zero_of_isZero hm] at h
      simp [toInt?, Magnitude.toNat?_zero] at h

/-! ### What has a form of its own -/

namespace Number

/-- The number has a form that is read as it: all but "not a number" and decimals of other texts
than digits. -/
def Encodable : Number → Prop
  | .machine value => value ≠ .nan
  | .decimal value => value.WellFormed

def withOneZero : Number → Number
  | .machine value => .machine value.withOneZero
  | .decimal value => .decimal value

/-- The payload of a decimal is not the name of a value without digits. -/
theorem ofPayload?_text {d : Decimal} (hd : d.WellFormed) : ofPayload? d.text = some (.decimal d) := by
  have hname : 'n' ∉ (Text.withoutBlanks d.text.toList).map Char.toLower := by
    intro hn
    obtain ⟨c, hc, hlower⟩ := List.mem_map.mp hn
    have hmem := (List.mem_filter.mp hc).1
    rw [Decimal.text_eq_literal, Decimal.literal, String.toList_ofList] at hmem
    rcases hd.mem_literal hd.powerText c hmem with hdigit | hmark
    · rw [Digits.toLower_of_isDigit hdigit] at hlower
      rw [hlower] at hdigit
      cases hdigit
    · have hmarks : ∀ c ∈ ['-', '+', '.', '(', ')', 'e'], c.toLower ≠ 'n' := by simp
      exact hmarks c hmark hlower
  have hne : ∀ name : String, 'n' ∈ name.toList →
      String.ofList ((Text.withoutBlanks d.text.toList).map Char.toLower) ≠ name := by
    rintro name hmem rfl
    rw [String.toList_ofList] at hmem
    exact hname hmem
  unfold ofPayload?
  simp only [hne "infinity" (by decide), hne "+infinity" (by decide), hne "-infinity" (by decide),
    hne "nan" (by decide), decide_false, Bool.or_self, Bool.false_eq_true, if_false,
    Decimal.parse?_text hd, Option.map_some]

end Number

namespace Expression

mutual

/-- The expression has a form in MathJSON that is read as it. The names of symbols are not empty and
are not read as a text or as the mark for what is missing. -/
def Encodable : Expression → Prop
  | .number value => value.Encodable
  | .symbol name => name ≠ "" ∧ name ≠ "Missing" ∧ ∀ content, name ≠ "'" ++ content ++ "'"
  | .text _ => True
  | .apply head arguments => head.Encodable ∧ AllEncodable arguments
  | .dictionary entries => ValuesEncodable entries
  | .missing => True

def AllEncodable : List Expression → Prop
  | [] => True
  | e :: rest => e.Encodable ∧ AllEncodable rest

def ValuesEncodable : List (String × Expression) → Prop
  | [] => True
  | (_, e) :: rest => e.Encodable ∧ ValuesEncodable rest

end

mutual

/-- The expression with no sign at its zeros. -/
def withOneZero : Expression → Expression
  | .number value => .number value.withOneZero
  | .apply head arguments => .apply head.withOneZero (allWithOneZero arguments)
  | .dictionary entries => .dictionary (valuesWithOneZero entries)
  | e => e

def allWithOneZero : List Expression → List Expression
  | [] => []
  | e :: rest => e.withOneZero :: allWithOneZero rest

def valuesWithOneZero : List (String × Expression) → List (String × Expression)
  | [] => []
  | (key, e) :: rest => (key, e.withOneZero) :: valuesWithOneZero rest

end

end Expression

namespace MathJson

open Expression (Encodable AllEncodable ValuesEncodable)

theorem decode_payload {text : String} {value : Number} (h : Number.ofPayload? text = some value) :
    decode (payload text) = .ok (.number value) := by
  unfold payload decode ofLeafObject?
  simp [ofPayload, h]

/-- The forms of finite doubles. -/
theorem encodeNumber_finite (negative : Bool) (m : Magnitude) :
    (∃ n, (Double.finite negative m).toInt? = some n ∧
        encodeNumber (.machine (.finite negative m)) = .integer n) ∨
      (Double.finite negative m).withOneZero = .finite negative m ∧
        encodeNumber (.machine (.finite negative m)) = .real (.finite negative m) := by
  cases hn : (Double.finite negative m).toInt? with
  | none => exact .inr ⟨Double.withOneZero_of_toInt?_ne (by simp [hn]), by simp [encodeNumber, hn]⟩
  | some n =>
    by_cases hsmall : n.natAbs < twoPow 53
    · exact .inl ⟨n, rfl, by simp [encodeNumber, hn, hsmall]⟩
    · have hne : n ≠ 0 := by
        rintro rfl
        exact hsmall (twoPow_pos 53)
      refine .inr ⟨Double.withOneZero_of_toInt?_ne ?_, by simp [encodeNumber, hn, hsmall]⟩
      simpa [hn] using hne

theorem decode_encodeNumber {value : Number} (h : value.Encodable) :
    decode (encodeNumber value) = .ok (.number value.withOneZero) := by
  cases value with
  | decimal d => exact decode_payload (Number.ofPayload?_text h)
  | machine x =>
    cases x with
    | nan => exact absurd rfl h
    | infinity negative => cases negative <;> exact decode_payload (by decide)
    | finite negative m =>
      rcases encodeNumber_finite negative m with ⟨n, hn, hform⟩ | ⟨hzero, hform⟩
      · rw [hform, decode, Double.ofInt_of_toInt? hn]
        rfl
      · rw [hform, decode, Number.withOneZero, hzero]
        rfl

theorem unquoted?_text (content : String) :
    unquoted? ("'" ++ content ++ "'").toList = some content.toList := by
  have hquotes : ("'" ++ content ++ "'").toList = '\'' :: (content.toList ++ ['\'']) := by simp
  rw [hquotes, unquoted?]
  simp

theorem unquoted?_eq_none {name : String} (h : ∀ content, name ≠ "'" ++ content ++ "'") :
    unquoted? name.toList = none := by
  unfold unquoted?
  split
  · next rest hname =>
    refine if_neg fun hlast => h (String.ofList rest.dropLast) (String.toList_inj.mp ?_)
    simp [hname, List.dropLast_append_getLast? _ hlast]
  · rfl

theorem ofString_text (content : String) : ofString ("'" ++ content ++ "'") = .ok (.text content) := by
  simp only [ofString, unquoted?_text, String.ofList_toList]

theorem ofString_symbol {name : String} (h : (Expression.symbol name).Encodable) :
    ofString name = .ok (.symbol name) := by
  rw [ofString, unquoted?_eq_none h.2.2]
  simp [h.1, h.2.1]

theorem decode_dictionary (members : List (String × Json)) :
    decode (.object [("dict", .object members)]) = (decodeEntries members).map .dictionary := by
  have hleaf : ofLeafObject? [("dict", .object members)] = none := rfl
  simp [decode, hleaf, functionMember?, dictionaryMember?]

mutual

theorem decode_encodeTree : ∀ {e : Expression}, e.Encodable →
    decode (encode e) = .ok e.withOneZero
  | .number value, h => by
    rw [encode, decode_encodeNumber h, Expression.withOneZero]
  | .symbol name, h => by
    rw [encode, decode, ofString_symbol h]
    rfl
  | .text content, _ => by
    rw [encode, decode, ofString_text]
    rfl
  | .apply head arguments, h => by
    rw [encode, decode, decodeFunction, decode_encodeTree h.1, decodeItems_encodeItems h.2]
    rfl
  | .dictionary entries, h => by
    rw [encode, decode_dictionary, decodeEntries_encodeEntries h]
    rfl
  | .missing, _ => rfl

theorem decodeItems_encodeItems : ∀ {es : List Expression}, AllEncodable es →
    decodeItems (encodeItems es) = .ok (Expression.allWithOneZero es)
  | [], _ => rfl
  | e :: rest, h => by
    rw [encodeItems, decodeItems, decode_encodeTree h.1, decodeItems_encodeItems h.2]
    rfl

theorem decodeEntries_encodeEntries : ∀ {entries : List (String × Expression)},
    ValuesEncodable entries →
    decodeEntries (encodeEntries entries) = .ok (Expression.valuesWithOneZero entries)
  | [], _ => rfl
  | (key, e) :: rest, h => by
    rw [encodeEntries, decodeEntries, decode_encodeTree h.1, decodeEntries_encodeEntries h.2]
    rfl

end

/-- Reading undoes writing, up to the sign of zero. -/
theorem decode_encode {e : Expression} (h : e.Encodable) :
    decode (encode e) = .ok e.withOneZero :=
  decode_encodeTree h

/-- A head that is an application, keys that name forms of objects, and numbers of all sorts. -/
def manyForms : Expression :=
  .apply (.function "g" [.symbol "'"])
    [.dictionary
      [("fn", .text "''"),
        ("num", .dictionary
          [("dict", .number (.decimal ⟨true, "", "", "5", some (-7)⟩))])],
      .number (.machine (.finite true .zero)), .number (.machine (.infinity true)), .missing]

theorem decode_encode_manyForms : manyForms.Encodable ∧
    decode (encode manyForms) = .ok manyForms.withOneZero := by
  have hdecimal : Decimal.WellFormed ⟨true, "", "", "5", some (-7)⟩ :=
    ⟨by simp, by simp, by simp, by decide, by decide⟩
  have hquote : ∀ content : String, "'" ≠ "'" ++ content ++ "'" := by
    intro content h
    have hlength := congrArg String.length h
    simp only [String.length_append] at hlength
    have : "'".length = 1 := rfl
    omega
  have hg : ∀ content : String, "g" ≠ "'" ++ content ++ "'" := by
    intro content h
    have hlist := congrArg String.toList h
    simp at hlist
  have h : manyForms.Encodable := by
    simp [manyForms, Expression.function, Expression.Encodable, AllEncodable, ValuesEncodable,
      Number.Encodable, hdecimal, hquote, hg]
  exact ⟨h, decode_encode h⟩

end MathJson

end TexFormula
