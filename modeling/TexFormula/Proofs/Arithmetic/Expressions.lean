import Mathlib.Algebra.Order.Ring.Rat
import TexFormula.Notation.Writers
import TexFormula.Proofs.Arithmetic.Units
import TexFormula.Proofs.SignedFactors

/-!
# Arithmetic expressions

`Arithmetic e` says that `e` is built from whole numbers and letters by the arithmetic operations.
Sorting the factors of a product does not change its value (`meaning_multiply`). A product keeps its
signs if none of its factors but the first one is written with a minus sign in front
(`KeepsSigns`).
-/

open TexFormula.Parser

namespace TexFormula

namespace Number

/-- A double that is a whole number below a quadrillion, by its sign and its magnitude. -/
def IsWhole (n : Number) (negative : Bool) (k : Nat) : Prop :=
  ∃ m : Magnitude, n = .machine (.finite negative m) ∧ m.toNat? = some k ∧ k < tenPow 15

namespace IsWhole

variable {n : Number} {negative : Bool} {k : Nat}

theorem lt (h : n.IsWhole negative k) : k < tenPow 15 := by
  obtain ⟨m, -, -, hk⟩ := h
  exact hk

theorem neg (h : n.IsWhole negative k) : n.neg.IsWhole (!negative) k := by
  obtain ⟨m, rfl, hm, hk⟩ := h
  exact ⟨m, rfl, hm, hk⟩

theorem value?_eq (h : n.IsWhole negative k) : n.value? = some (signed negative k) := by
  obtain ⟨m, rfl, hm, -⟩ := h
  show some (signed negative m.value) = _
  rw [Magnitude.value_eq_of_toNat? hm]

theorem isNegative_eq (h : n.IsWhole negative k) : n.isNegative = (negative && k != 0) := by
  obtain ⟨m, rfl, hm, -⟩ := h
  show (negative && !m.isZero) = _
  rw [Magnitude.isZero_of_toNat? hm]
  rfl

theorem toInt?_eq (h : n.IsWhole negative k) :
    n.toInt? = some (if negative then -(k : Int) else k) := by
  obtain ⟨m, rfl, hm, hk⟩ := h
  have hsmall : k < 9 * tenPow 15 := by omega
  rw [toInt?, Double.toInt?, hm]
  cases negative <;> simp [hsmall]

/-- One half is no whole number. -/
theorem toDouble?_ne (h : n.IsWhole negative k) (sign : Bool) :
    n.toDouble? ≠ some (.half sign) := by
  obtain ⟨m, rfl, hm, -⟩ := h
  intro heq
  have hhalf : m.toNat? = none := by
    rw [(Double.finite.inj (Option.some.inj heq)).2]
    decide
  rw [hm] at hhalf
  cases hhalf

end IsWhole

end Number

namespace Expression

inductive Arithmetic : Expression → Prop
  | number {n : Number} {negative : Bool} {k : Nat} (h : n.IsWhole negative k) :
      Arithmetic (.number n)
  | letter {c : Char} (hc : IsSymbolLetter c) : Arithmetic (.symbol (String.singleton c))
  | add {es : List Expression} (hne : es ≠ []) (h : ∀ e ∈ es, Arithmetic e) :
      Arithmetic (.function "Add" es)
  | multiply {es : List Expression} (hne : es ≠ []) (h : ∀ e ∈ es, Arithmetic e) :
      Arithmetic (.function "Multiply" es)
  | subtract {a b : Expression} (ha : Arithmetic a) (hb : Arithmetic b) :
      Arithmetic (.function "Subtract" [a, b])
  | divide {a b : Expression} (ha : Arithmetic a) (hb : Arithmetic b) :
      Arithmetic (.function "Divide" [a, b])
  | negate {a : Expression} (ha : Arithmetic a) : Arithmetic (.function "Negate" [a])
  | power {a : Expression} {n : Number} {negative : Bool} {k : Nat} (ha : Arithmetic a)
      (h : n.IsWhole negative k) : Arithmetic (.function "Power" [a, .number n])

/-- The expression stands in another one, or is all of it. -/
inductive Part (e : Expression) : Expression → Prop
  | whole : Part e e
  | argument {name : String} {es : List Expression} {a : Expression} (ha : a ∈ es) (h : Part e a) :
      Part e (.function name es)

/-! ### Signs in front of factors -/

mutual

/-- The factor is written with a minus sign in front. -/
def leadingMinus : Expression → Bool
  | .number n => n.isNegative
  | .apply (.symbol name) factors =>
    name == "Multiply" && (Product.oddSigns factors ||
      ((Product.ofFactors factors).denominator.isEmpty && leadingFactor factors))
  | _ => false

/-- The first factor that is written has a minus sign in front. Those of numbers are moved away. -/
def leadingFactor : List Expression → Bool
  | [] => false
  | [first] => !first.isNumber && leadingMinus first
  | first :: second :: _ =>
    if Product.isMinusOne first then !second.isNumber && leadingMinus second
    else !first.isNumber && leadingMinus first

end

/-- Among the factors above the fraction bar, and among those below it, no one but the first is
written with a minus sign in front. Numbers may be, as there is a times sign before them. -/
def KeepsSigns (factors : List Expression) : Prop :=
  ∀ e ∈ (Product.ofFactors factors).numerator.tail ++ (Product.ofFactors factors).denominator.tail,
    e.isNumber = false → e.leadingMinus = false

instance (factors : List Expression) : Decidable (KeepsSigns factors) :=
  inferInstanceAs (Decidable (∀ e ∈ _, _))

/-! ### Meanings -/

/-- The value of the expression, and zero where it has none. -/
def meaning (e : Expression) : Meaning :=
  fun σ => (e.value? σ).getD 0

/-- The expression has a value at each of the assignments. -/
def DefinedOn (D : Set (String → ℚ)) (e : Expression) : Prop :=
  ∀ σ ∈ D, e.value? σ = some (e.meaning σ)

variable {D : Set (String → ℚ)} {σ : String → ℚ} {e a b : Expression} {es : List Expression}
  {name : String} {n : Number} {negative : Bool} {k : Nat}

theorem value?_eq_of_isSome (h : (e.value? σ).isSome = true) : e.value? σ = some (e.meaning σ) := by
  obtain ⟨v, hv⟩ := Option.isSome_iff_exists.mp h
  rw [meaning, hv]
  rfl

theorem values?_eq (h : ∀ e ∈ es, e.value? σ = some (e.meaning σ)) :
    values? σ es = some (es.map (·.meaning σ)) := by
  induction es with
  | nil => rfl
  | cons e es ih =>
    rw [values?, h e List.mem_cons_self, ih fun a ha => h a (List.mem_cons_of_mem _ ha)]
    rfl

theorem value?_eq_of_values? {vs : List ℚ} (h : values? σ es = some vs) :
    ∀ e ∈ es, e.value? σ = some (e.meaning σ) := by
  induction es generalizing vs with
  | nil => exact List.forall_mem_nil _
  | cons e es ih =>
    rw [values?] at h
    obtain ⟨v, hv, hvs⟩ := Option.bind_eq_some_iff.mp h
    obtain ⟨ws, hws, -⟩ := Option.map_eq_some_iff.mp hvs
    refine List.forall_mem_cons.mpr ⟨value?_eq_of_isSome (by rw [hv]; rfl), ih hws⟩

theorem DefinedOn.arguments (h : DefinedOn D (.function name es)) : ∀ e ∈ es, DefinedOn D e := by
  intro e he σ hσ
  have hvalue := h σ hσ
  rw [value?_function] at hvalue
  obtain ⟨vs, hvs, -⟩ := Option.bind_eq_some_iff.mp hvalue
  exact value?_eq_of_values? hvs e he

theorem DefinedOn.operation (h : DefinedOn D (.function name es)) (hσ : σ ∈ D) :
    operation? name (es.map (·.meaning σ)) = some ((function name es).meaning σ) := by
  have hvalue := h σ hσ
  rw [value?_function, values?_eq fun e he => h.arguments e he σ hσ] at hvalue
  exact hvalue

theorem DefinedOn.of_operation (h : ∀ e ∈ es, DefinedOn D e) {f : Meaning}
    (hf : ∀ σ ∈ D, operation? name (es.map (·.meaning σ)) = some (f σ)) :
    DefinedOn D (.function name es) ∧ ∀ σ ∈ D, (function name es).meaning σ = f σ := by
  have hvalue : ∀ σ ∈ D, (function name es).value? σ = some (f σ) := by
    intro σ hσ
    rw [value?_function, values?_eq fun e he => h e he σ hσ]
    exact hf σ hσ
  have hmeaning : ∀ σ ∈ D, (function name es).meaning σ = f σ := by
    intro σ hσ
    rw [meaning, hvalue σ hσ]
    rfl
  exact ⟨fun σ hσ => by rw [hvalue σ hσ, hmeaning σ hσ], hmeaning⟩

theorem meaning_number (h : n.IsWhole negative k) : (number n).meaning σ = signed negative k := by
  rw [meaning, value?, h.value?_eq]
  rfl

theorem DefinedOn.number (h : n.IsWhole negative k) : DefinedOn D (.number n) := by
  intro σ _
  rw [meaning_number h, value?, h.value?_eq]

/-! ### Factors -/

theorem negativeNumber?_number (h : n.IsWhole negative k) :
    Product.negativeNumber? (.number n) = if negative && k != 0 then some n else none := by
  rw [Product.negativeNumber?, number?, Option.filter_some, h.isNegative_eq]

/-- Only numbers lose their signs. -/
theorem Arithmetic.unsigned (he : Arithmetic e) (hD : DefinedOn D e) :
    Arithmetic (Product.unsigned e) ∧ DefinedOn D (Product.unsigned e) ∧
      ∀ σ ∈ D, e.meaning σ =
        signed (Product.negativeNumber? e).isSome ((Product.unsigned e).meaning σ) := by
  have hunsigned := he
  cases he with
  | @number n negative k h =>
    rw [Product.unsigned, negativeNumber?_number h]
    cases hsign : negative && k != 0 with
    | false => exact ⟨.number h, hD, fun σ _ => rfl⟩
    | true =>
      refine ⟨.number h.neg, .number h.neg, fun σ _ => ?_⟩
      rw [meaning_number h, if_pos rfl]
      show _ = signed true ((Expression.number n.neg).meaning σ)
      rw [meaning_number h.neg, (Bool.and_eq_true _ _ |>.mp hsign).1]
      simp [signed]
  | _ => exact ⟨hunsigned, hD, fun σ _ => rfl⟩

theorem operation?_power_natCast (q : ℚ) (k : Nat) :
    operation? "Power" [q, (k : ℚ)] = some (q ^ k) := by
  simp

theorem operation?_power_neg (q : ℚ) {k : Nat} (hk : k ≠ 0) :
    operation? "Power" [q, -(k : ℚ)] = if q = 0 then none else some (q ^ k)⁻¹ := by
  have hpos : ¬(k : ℚ) ≤ 0 := by
    rw [not_le]
    exact_mod_cast Nat.pos_of_ne_zero hk
  by_cases hq : q = 0
  · simp [hq, hpos]
  · simp [hq]

theorem Arithmetic.exists_of_reciprocal? (he : Arithmetic e) {r : Expression}
    (hr : Product.reciprocal? e = some r) :
    ∃ a n k, e = .function "Power" [a, .number n] ∧ n.IsWhole true k ∧ k ≠ 0 ∧
      (k = 1 ∧ r = a ∨ k ≠ 1 ∧ r = .function "Power" [a, .number n.neg]) := by
  cases he with
  | @power a n negative k ha h =>
    rw [function, Product.reciprocal?, negativeNumber?_number h] at hr
    cases hsign : negative && k != 0 with
    | false =>
      rw [hsign] at hr
      cases hr
    | true =>
      rw [hsign, if_pos rfl, Option.map_some] at hr
      rw [Bool.and_eq_true, bne_iff_ne] at hsign
      obtain ⟨rfl, hk⟩ := hsign
      have hone : n.neg.toInt? = some 1 ↔ k = 1 := by
        rw [h.neg.toInt?_eq]
        simp
      refine ⟨a, n, k, rfl, h, hk, ?_⟩
      split at hr
      · next htext => exact .inl ⟨hone.mp htext, (Option.some.inj hr).symm⟩
      · next htext => exact .inr ⟨fun heq => htext (hone.mpr heq), (Option.some.inj hr).symm⟩
  | _ => cases hr

/-- A power with a negative exponent is a reciprocal. -/
theorem DefinedOn.reciprocal (hD : DefinedOn D (.function "Power" [a, .number n]))
    (h : n.IsWhole true k) (hk : k ≠ 0) :
    ∀ σ ∈ D, a.meaning σ ≠ 0 ∧
      (function "Power" [a, .number n]).meaning σ = (a.meaning σ ^ k)⁻¹ := by
  intro σ hσ
  have hvalue := hD.operation hσ
  have hneg : signed true (k : ℚ) = -k := rfl
  rw [List.map_cons, List.map_cons, List.map_nil, meaning_number h, hneg,
    operation?_power_neg _ hk] at hvalue
  split at hvalue
  · cases hvalue
  · next hne => exact ⟨hne, (Option.some.inj hvalue).symm⟩

theorem DefinedOn.power (ha : DefinedOn D a) (h : n.IsWhole negative k)
    (hsign : negative = false ∨ k = 0) :
    DefinedOn D (.function "Power" [a, .number n]) ∧
      ∀ σ ∈ D, (function "Power" [a, .number n]).meaning σ = a.meaning σ ^ k := by
  refine DefinedOn.of_operation
    (List.forall_mem_cons.mpr ⟨ha, List.forall_mem_singleton.mpr (.number h)⟩) fun σ _ => ?_
  have hexponent : (Expression.number n).meaning σ = (k : ℚ) := by
    rw [meaning_number h]
    rcases hsign with rfl | rfl
    · rfl
    · cases negative <;> simp [signed]
  rw [List.map_cons, List.map_cons, List.map_nil, hexponent]
  exact operation?_power_natCast _ k

/-- What goes below the fraction bar is the reciprocal of the factor. -/
theorem Arithmetic.reciprocal (he : Arithmetic e) (hD : DefinedOn D e) {r : Expression}
    (hr : Product.reciprocal? e = some r) :
    DefinedOn D r ∧ ∀ σ ∈ D, r.meaning σ ≠ 0 ∧ e.meaning σ = (r.meaning σ)⁻¹ := by
  obtain ⟨a, n, k, rfl, h, hk, hcases⟩ := he.exists_of_reciprocal? hr
  have hbase : DefinedOn D a := hD.arguments a List.mem_cons_self
  have hvalue := hD.reciprocal h hk
  rcases hcases with ⟨rfl, rfl⟩ | ⟨-, rfl⟩
  · refine ⟨hbase, fun σ hσ => ?_⟩
    rw [(hvalue σ hσ).2, pow_one]
    exact ⟨(hvalue σ hσ).1, rfl⟩
  · obtain ⟨hr, hmeaning⟩ := hbase.power h.neg (.inl rfl)
    refine ⟨hr, fun σ hσ => ?_⟩
    rw [hmeaning σ hσ, (hvalue σ hσ).2]
    exact ⟨pow_ne_zero _ (hvalue σ hσ).1, rfl⟩

/-! ### Products -/

/-- The product of the values. -/
def valueOfProduct (σ : String → ℚ) (es : List Expression) : ℚ :=
  (es.map (·.meaning σ)).prod

theorem valueOfProduct_cons (e : Expression) (es : List Expression) :
    valueOfProduct σ (e :: es) = e.meaning σ * valueOfProduct σ es :=
  List.prod_cons

/-- A factor that is minus one is nothing but its sign. -/
theorem Arithmetic.meaning_unsigned_of_isMinusOne (he : Arithmetic e)
    (hone : Product.isMinusOne e = true) : (Product.unsigned e).meaning σ = 1 := by
  cases he with
  | @number n negative k h =>
    rw [Product.isMinusOne, negativeNumber?_number h] at hone
    rw [Product.unsigned, negativeNumber?_number h]
    split at hone
    · next hsign =>
      rw [Bool.and_eq_true] at hsign
      obtain ⟨rfl, -⟩ := hsign
      have hk : k = 1 := by
        rw [Option.any_some, h.toInt?_eq] at hone
        simpa using hone
      rw [if_pos (by simpa using hk ▸ Nat.one_ne_zero)]
      show (Expression.number n.neg).meaning σ = 1
      rw [meaning_number h.neg, hk]
      simp [signed]
    · cases hone
  | _ => cases hone

/-- Where a product has a value, the values of its factors agree with how they are sorted. -/
theorem Arithmetic.sorts (he : Arithmetic e) (hD : DefinedOn D e) (hσ : σ ∈ D) :
    Product.Sorts (·.meaning σ) e where
  sign := (he.unsigned hD).2.2 σ hσ
  unit := he.meaning_unsigned_of_isMinusOne
  inverse hr := ((he.reciprocal hD hr).2 σ hσ).2

theorem meaning_multiply (h : ∀ e ∈ es, Arithmetic e) (hD : DefinedOn D (.function "Multiply" es))
    (hσ : σ ∈ D) :
    (function "Multiply" es).meaning σ =
      signed (Product.ofFactors es).negative (valueOfProduct σ (Product.ofFactors es).numerator /
        valueOfProduct σ (Product.ofFactors es).denominator) := by
  have hvalue : (function "Multiply" es).meaning σ = valueOfProduct σ es :=
    (Option.some.inj (hD.operation hσ)).symm
  rw [hvalue]
  exact (Product.value_ofFactors fun e he => (h e he).sorts (hD.arguments e he) hσ).symm

end Expression

end TexFormula
