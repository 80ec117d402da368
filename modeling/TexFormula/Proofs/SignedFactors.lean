import TexFormula.Notation.Product
import TexFormula.Proofs.Value

/-!
# The value of the factors of a product

Sorting the factors of a product does not change its value (`Product.value_ofFactors`), if the values
of the factors agree with what sorting does to each of them (`Product.Sorts`).
-/

namespace TexFormula

theorem Number.isNegative_neg {n : Number} (h : n.isNegative) : n.neg.isNegative = false := by
  cases n with
  | machine value =>
    cases value with
    | nan => cases h
    | infinity negative => simpa [isNegative, neg, Double.isNegative, Double.neg] using h
    | finite negative m =>
      obtain ⟨hsign, -⟩ := Bool.and_eq_true_iff.mp h
      simp [isNegative, neg, Double.isNegative, Double.neg, hsign]
  | decimal value =>
    obtain ⟨hsign, -⟩ := Bool.and_eq_true_iff.mp h
    simp [isNegative, neg, Decimal.neg, hsign]

theorem Number.neg_involutive : Function.Involutive Number.neg := by
  intro n
  cases n with
  | machine value => exact congrArg Number.machine value.neg_neg
  | decimal value => simp [Number.neg, Decimal.neg]

namespace Product

variable {v : Expression → ℚ} {e f r : Expression} {es : List Expression} {n : Number}

/-! ### The factors by themselves -/

theorem eq_of_negativeNumber? (h : negativeNumber? e = some n) :
    e = .number n ∧ n.isNegative := by
  obtain ⟨hnumber, hnegative⟩ := Option.filter_eq_some_iff.mp h
  cases e with
  | number m =>
    cases hnumber
    exact ⟨rfl, hnegative⟩
  | _ => cases hnumber

theorem negativeNumber?_of_not (h : n.isNegative = false) : negativeNumber? (.number n) = none := by
  show (some n).filter Number.isNegative = none
  rw [Option.filter_some, h]
  rfl

theorem isNegative_eq_false (h : negativeNumber? (.number n) = none) : n.isNegative = false := by
  have hnot : ¬n.isNegative = true := (Option.filter_eq_none_iff.mp h) n rfl
  exact Bool.eq_false_iff.mpr hnot

theorem negativeNumber?_neg (h : n.isNegative) : negativeNumber? (.number n.neg) = none := by
  show (some n.neg).filter Number.isNegative = none
  rw [Option.filter_some, Number.isNegative_neg h]
  rfl

theorem negativeNumber?_unsigned (f : Expression) : negativeNumber? (unsigned f) = none := by
  unfold unsigned
  split
  · next m hm => exact negativeNumber?_neg (eq_of_negativeNumber? hm).2
  · next hnone => exact hnone

theorem reciprocal?_unsigned (f : Expression) : reciprocal? (unsigned f) = reciprocal? f := by
  unfold unsigned
  split
  · next m hm =>
    obtain ⟨rfl, -⟩ := eq_of_negativeNumber? hm
    rfl
  · rfl

theorem unsigned_eq_self (h : negativeNumber? e = none) : unsigned e = e := by
  rw [unsigned, h]

theorem isMinusOne_eq_false (h : negativeNumber? e = none) : isMinusOne e = false := by
  rw [isMinusOne, h]
  rfl

theorem exists_of_reciprocal? (h : reciprocal? e = some r) :
    ∃ base n, e = .function "Power" [base, .number n] ∧ n.isNegative ∧
      r = if n.neg.toInt? = some 1 then base else .function "Power" [base, .number n.neg] := by
  unfold reciprocal? at h
  split at h
  · next base exponent =>
    obtain ⟨n, hn, rfl⟩ := Option.map_eq_some_iff.mp h
    obtain ⟨rfl, hnegative⟩ := eq_of_negativeNumber? hn
    exact ⟨base, n, rfl, hnegative, rfl⟩
  · cases h

theorem unsigned_of_reciprocal? (h : reciprocal? e = some r) : unsigned e = e := by
  obtain ⟨base, n, rfl, -⟩ := exists_of_reciprocal? h
  rfl

/-! ### The factors that are left -/

theorem exists_of_mem_magnitudes (hf : f ∈ magnitudes es) : ∃ e ∈ es, f = unsigned e := by
  have hsubset : magnitudes es ⊆ es.map unsigned := by
    unfold magnitudes
    split
    · split
      · exact List.subset_cons_self _ _
      · exact List.Subset.refl _
    · exact List.Subset.refl _
  obtain ⟨e, he, rfl⟩ := List.mem_map.mp (hsubset hf)
  exact ⟨e, he, rfl⟩

theorem exists_of_mem_numerator (hf : f ∈ (ofFactors es).numerator) : ∃ e ∈ es, f = unsigned e :=
  exists_of_mem_magnitudes (List.mem_filter.mp hf).1

theorem exists_of_mem_denominator (hr : r ∈ (ofFactors es).denominator) :
    ∃ e ∈ es, reciprocal? e = some r := by
  obtain ⟨f, hf, hreciprocal⟩ := List.mem_filterMap.mp hr
  obtain ⟨e, he, rfl⟩ := exists_of_mem_magnitudes hf
  exact ⟨e, he, (reciprocal?_unsigned e).symm.trans hreciprocal⟩

/-! ### Counting the signs -/

/-- By induction on the factors: the signs before them change what is counted, or leave it. -/
theorem foldl_oddSigns (es : List Expression) (odd : Bool) :
    es.foldl (fun odd e => odd != (negativeNumber? e).isSome) odd = (odd != oddSigns es) := by
  induction es generalizing odd with
  | nil => cases odd <;> rfl
  | cons e es ih =>
    have hodd : oddSigns (e :: es) = ((false != (negativeNumber? e).isSome) != oddSigns es) := ih _
    rw [List.foldl_cons, ih, hodd, Bool.false_bne, Bool.bne_assoc]

theorem oddSigns_cons (e : Expression) (es : List Expression) :
    oddSigns (e :: es) = ((negativeNumber? e).isSome != oddSigns es) := by
  have hodd : oddSigns (e :: es) = ((false != (negativeNumber? e).isSome) != oddSigns es) :=
    foldl_oddSigns es _
  rw [hodd, Bool.false_bne]

theorem oddSigns_eq_false (h : ∀ e ∈ es, negativeNumber? e = none) : oddSigns es = false := by
  induction es with
  | nil => rfl
  | cons e es ih =>
    obtain ⟨he, hes⟩ := List.forall_mem_cons.mp h
    rw [oddSigns_cons, he, ih hes]
    rfl

/-- Nothing is dropped if the first factor is not -1. -/
theorem magnitudes_cons (h : isMinusOne e = false) (es : List Expression) :
    magnitudes (e :: es) = (e :: es).map unsigned := by
  unfold magnitudes
  split
  · next heq =>
    rw [← (List.cons.inj heq).1, h]
    rfl
  · rfl

/-- Factors without signs that are no reciprocals are all above the bar. -/
theorem ofFactors_eq_self (hsign : ∀ e ∈ es, negativeNumber? e = none)
    (hwhole : ∀ e ∈ es, reciprocal? e = none) : ofFactors es = ⟨false, es, []⟩ := by
  have hmagnitudes : magnitudes es = es := by
    cases es with
    | nil => rfl
    | cons e es =>
      rw [magnitudes_cons (isMinusOne_eq_false (hsign e List.mem_cons_self))]
      exact (List.map_congr_left fun e he => unsigned_eq_self (hsign e he)).trans (List.map_id' _)
  unfold ofFactors
  rw [oddSigns_eq_false hsign, hmagnitudes]
  congr 1
  · exact List.filter_eq_self.mpr fun e he => by rw [hwhole e he]; rfl
  · exact List.filterMap_eq_nil_iff.mpr hwhole

/-- One more sign on the first factor is one on the product. -/
theorem ofFactors_neg (hn : n.isNegative = false) (hneg : n.neg.isNegative = true)
    (hone : n.neg.toInt? ≠ some (-1)) (others : List Expression) :
    ofFactors (.number n.neg :: others) =
      { ofFactors (.number n :: others) with negative := !oddSigns (.number n :: others) } := by
  have hnone := negativeNumber?_of_not hn
  have hsome : negativeNumber? (.number n.neg) = some n.neg := by
    show (some n.neg).filter Number.isNegative = _
    rw [Option.filter_some, hneg]
    rfl
  have hminusOne : isMinusOne (.number n.neg) = false := by
    rw [isMinusOne, hsome]
    exact beq_false_of_ne hone
  have hunsigned : unsigned (.number n.neg) = unsigned (.number n) := by
    rw [unsigned_eq_self hnone, unsigned, hsome]
    exact congrArg Expression.number (Number.neg_involutive n)
  have hmagnitudes : magnitudes (.number n.neg :: others) = magnitudes (.number n :: others) := by
    rw [magnitudes_cons hminusOne, magnitudes_cons (isMinusOne_eq_false hnone), List.map_cons,
      List.map_cons, hunsigned]
  have hodd : oddSigns (.number n.neg :: others) = !oddSigns (.number n :: others) := by
    rw [oddSigns_cons, oddSigns_cons, hsome, hnone]
    cases oddSigns others <;> rfl
  unfold ofFactors
  rw [hmagnitudes, hodd]

/-! ### Values -/

/-- The value of a sorted product whose factors have the values `v`. -/
def value (v : Expression → ℚ) (parts : Product) : ℚ :=
  signed parts.negative ((parts.numerator.map v).prod / (parts.denominator.map v).prod)

/-- The values `v` agree with what sorting does to the factor: they count its sign, a -1 is nothing
but its sign, and what goes below the bar is the inverse of the factor. -/
structure Sorts (v : Expression → ℚ) (e : Expression) : Prop where
  sign : v e = signed (negativeNumber? e).isSome (v (unsigned e))
  unit : isMinusOne e = true → v (unsigned e) = 1
  inverse {r : Expression} : reciprocal? e = some r → v e = (v r)⁻¹

/-- By induction on the factors: their signs are gathered from left to right. -/
theorem prod_unsigned (h : ∀ e ∈ es, Sorts v e) (odd : Bool) :
    signed (es.foldl (fun odd e => odd != (negativeNumber? e).isSome) odd)
      ((es.map unsigned).map v).prod = signed odd (es.map v).prod := by
  induction es generalizing odd with
  | nil => rfl
  | cons e es ih =>
    obtain ⟨he, hes⟩ := List.forall_mem_cons.mp h
    calc signed ((e :: es).foldl (fun odd e => odd != (negativeNumber? e).isSome) odd)
          (((e :: es).map unsigned).map v).prod
        = signed (odd != (negativeNumber? e).isSome) (es.map v).prod * v (unsigned e) := by
          rw [← ih hes, ← signed_mul, mul_comm]
          rfl
      _ = signed odd (signed (negativeNumber? e).isSome (v (unsigned e)) * (es.map v).prod) := by
          rw [← signed_mul, signed_xor, mul_comm, signed_mul]
      _ = signed odd ((e :: es).map v).prod := by rw [← he.sign, List.map_cons, List.prod_cons]

/-- The -1 that is dropped has left nothing but a factor one. -/
theorem prod_magnitudes (h : ∀ e ∈ es, Sorts v e) :
    ((magnitudes es).map v).prod = ((es.map unsigned).map v).prod := by
  unfold magnitudes
  split
  · next first second rest =>
    split
    · next hone =>
      have hunit : v (unsigned first) = 1 := (h first List.mem_cons_self).unit hone
      rw [List.map_cons (a := first), List.map_cons (a := unsigned first), List.prod_cons, hunit,
        one_mul]
    · rfl
  · rfl

/-- By induction on the factors: each is above or below the fraction bar. -/
theorem prod_split (h : ∀ e ∈ es, ∀ r, reciprocal? e = some r → v e = (v r)⁻¹) :
    (es.map v).prod = ((es.filter fun e => (reciprocal? e).isNone).map v).prod /
      ((es.filterMap reciprocal?).map v).prod := by
  induction es with
  | nil => simp
  | cons e es ih =>
    obtain ⟨he, hes⟩ := List.forall_mem_cons.mp h
    cases hr : reciprocal? e with
    | none =>
      rw [List.filter_cons_of_pos (by rw [hr]; rfl), List.filterMap_cons_none hr, List.map_cons,
        List.map_cons, List.prod_cons, List.prod_cons, ih hes, mul_div_assoc]
    | some r =>
      rw [List.filter_cons_of_neg (by rw [hr]; exact Bool.false_ne_true),
        List.filterMap_cons_some hr, List.map_cons, List.map_cons, List.prod_cons, List.prod_cons,
        ih hes, he r hr, inv_mul_eq_div, div_div, mul_comm]

theorem value_ofFactors (h : ∀ e ∈ es, Sorts v e) : (ofFactors es).value v = (es.map v).prod := by
  have hsplit : ∀ f ∈ magnitudes es, ∀ r, reciprocal? f = some r → v f = (v r)⁻¹ := by
    intro f hf r hr
    obtain ⟨e, he, rfl⟩ := exists_of_mem_magnitudes hf
    rw [reciprocal?_unsigned] at hr
    rw [unsigned_of_reciprocal? hr]
    exact (h e he).inverse hr
  calc (ofFactors es).value v
      = signed (oddSigns es) ((magnitudes es).map v).prod := by rw [prod_split hsplit]; rfl
    _ = signed (oddSigns es) ((es.map unsigned).map v).prod := by rw [prod_magnitudes h]
    _ = (es.map v).prod := prod_unsigned h false

end Product

end TexFormula
