import TexFormula.Proofs.RoundingInterval
import TexFormula.Proofs.Value

/-!
# The shortest digits of a double

On the grid of 17 digits the points are less than a step of the format apart, so the one nearest to a
double always reads back as it. `Magnitude.shortest` therefore finds digits (`exists_shortest`), and
they are read as the double again (`Double.ofDecimal_of_value`).
-/

namespace TexFormula

namespace Magnitude

/-- The power of ten is not greater than the quotient. -/
theorem leadingExponent_le {num den : Nat} (hnum : 0 < num) (hden : 0 < den) :
    tenPow (leadingExponent num den).toNat * den ≤ num * tenPow (-leadingExponent num den).toNat := by
  unfold leadingExponent
  split
  · next hle =>
    have hquotient : 0 < num / den := Nat.div_pos hle hden
    have hcount : 0 < Digits.count (num / den) := by
      rw [Digits.count, if_neg (Nat.ne_of_gt hquotient)]
      exact Digits.length_ofNat_pos _
    have hup : ((Digits.count (num / den) : Int) - 1).toNat = Digits.count (num / den) - 1 := by omega
    have hdown : (-((Digits.count (num / den) : Int) - 1)).toNat = 0 := by omega
    rw [hup, hdown, show tenPow 0 = 1 from rfl, Nat.mul_one, ← Nat.le_div_iff_mul_le hden]
    exact Digits.tenPow_count_le hquotient
  · next hlt =>
    generalize hceil : (den + num - 1) / num = ceil
    have hbound : den ≤ num * ceil := by
      have := Nat.lt_mul_div_succ (den + num - 1) hnum
      rw [hceil, Nat.mul_succ] at this
      omega
    have hsucc : ceil ≤ tenPow (Digits.count (ceil - 1)) := by
      have := Digits.lt_tenPow_count (ceil - 1)
      omega
    have hup : (-(Digits.count (ceil - 1) : Int)).toNat = 0 := by omega
    rw [hup, show tenPow 0 = 1 from rfl, Nat.one_mul, Int.neg_neg, Int.toNat_natCast]
    exact Nat.le_trans hbound (Nat.mul_le_mul_left num hsucc)

/-- A grid that is fine enough has a point for the value: the nearer one of its neighbours. -/
theorem Grid.inside_neighbour {g : Grid} (hstep : 0 < g.step)
    (hlow : 2 * g.low + g.step < 2 * g.value) (hhigh : 2 * g.value + g.step < 2 * g.high) :
    g.inside (g.value / g.step) = true ∨ g.inside (g.value / g.step + 1) = true := by
  have hsplit := Nat.div_add_mod g.value g.step
  have hmod := Nat.mod_lt g.value hstep
  rw [Nat.mul_comm] at hsplit
  have hupper : (g.value / g.step + 1) * g.step = g.value / g.step * g.step + g.step :=
    Nat.succ_mul _ _
  have hinside {n : Nat} (h : g.low < n * g.step) (h' : n * g.step < g.high) : g.inside n = true := by
    unfold inside
    split <;> simp only [Bool.and_eq_true, decide_eq_true_eq] <;> omega
  generalize g.value % g.step = r at *
  rcases Nat.le_total (2 * r) g.step with hnear | hfar
  · exact .inl (hinside (by omega) (by omega))
  · exact .inr (hinside (by omega) (by omega))

/-- On the grid of 17 digits, 10^16 steps make at most the value. -/
theorem step_mul_le_value {m : Magnitude} (hm : m.isZero = false) :
    let g := m.grid (leadingExponent (m.quarters * m.quarterStep.1) m.quarterStep.2 - 16)
    g.step * tenPow 16 ≤ g.value := by
  obtain ⟨-, hden⟩ := m.quarterStep_mul
  have hnum := m.quarterStep_pos
  have hquarters : 0 < m.quarters * m.quarterStep.1 :=
    Nat.mul_pos (Nat.mul_pos (by decide) (significand_pos hm)) hnum
  have hleading := leadingExponent_le hquarters hden
  rw [grid_eq]
  dsimp only
  generalize leadingExponent (m.quarters * m.quarterStep.1) m.quarterStep.2 = top at *
  generalize m.quarters * m.quarterStep.1 = value at *
  generalize m.quarterStep.2 = den at *
  have hexponents : tenPow (top - 16).toNat * (tenPow 16 * tenPow (-top).toNat) =
      tenPow top.toNat * tenPow (-(top - 16)).toNat := by
    rw [← tenPow_eq_mul rfl, ← tenPow_eq_mul rfl, ← tenPow_eq_mul rfl]
    congr 1
    omega
  refine Nat.le_of_mul_le_mul_right ?_ (tenPow_pos (-top).toNat)
  calc tenPow (top - 16).toNat * den * tenPow 16 * tenPow (-top).toNat
      = tenPow (top - 16).toNat * (tenPow 16 * tenPow (-top).toNat) * den := by
        rw [Nat.mul_assoc, Nat.mul_right_comm]
    _ = tenPow top.toNat * den * tenPow (-(top - 16)).toNat := by
        rw [hexponents, Nat.mul_right_comm]
    _ ≤ value * tenPow (-top).toNat * tenPow (-(top - 16)).toNat := Nat.mul_le_mul_right _ hleading
    _ = value * tenPow (-(top - 16)).toNat * tenPow (-top).toNat := Nat.mul_right_comm _ _ _

/-- With 17 digits the grid is fine enough. -/
theorem isSome_nearest?_grid {m : Magnitude} (hm : m.isZero = false) (tie : Tie) :
    ((m.grid (leadingExponent (m.quarters * m.quarterStep.1) m.quarterStep.2 - 16)).nearest?
      tie).isSome = true := by
  obtain ⟨-, hden⟩ := m.quarterStep_mul
  have hnum := m.quarterStep_pos
  have hfine := step_mul_le_value hm
  have hpos := significand_pos hm
  have hfits := m.significand_lt
  rw [grid_eq] at hfine ⊢
  generalize leadingExponent (m.quarters * m.quarterStep.1) m.quarterStep.2 - 16 = e at *
  dsimp only at hfine
  have hunit : 0 < m.quarterStep.1 * tenPow (-e).toNat := Nat.mul_pos hnum (tenPow_pos _)
  have htenth : tenPow 16 = 10000000000000000 := rfl
  have hbits : twoPow 53 = 9007199254740992 := rfl
  have hpower : twoPow 52 = 4503599627370496 := rfl
  have hgreatest := Nat.mul_le_mul_right (m.quarterStep.1 * tenPow (-e).toNat) (Nat.le_of_lt hfits)
  have hvalue : m.quarters * m.quarterStep.1 * tenPow (-e).toNat =
      4 * (m.significand * (m.quarterStep.1 * tenPow (-e).toNat)) := by
    rw [quarters, Nat.mul_assoc, Nat.mul_assoc]
  have hhigh : m.upperEnd * m.quarterStep.1 * tenPow (-e).toNat =
      4 * (m.significand * (m.quarterStep.1 * tenPow (-e).toNat)) +
        2 * (m.quarterStep.1 * tenPow (-e).toNat) := by
    rw [upperEnd_eq, Nat.mul_assoc, Nat.add_mul, Nat.mul_assoc]
  rw [htenth, hvalue] at hfine
  rw [hbits] at hgreatest
  refine Grid.isSome_nearest? tie (Grid.inside_neighbour (Nat.mul_pos (tenPow_pos _) hden) ?_ ?_)
  · dsimp only
    by_cases hsmall : m.significand = twoPow 52 ∧ m.scale ≠ 0
    · -- below a power of two the interval is half as wide, but the value is small
      have hlow : m.lowerEnd * m.quarterStep.1 * tenPow (-e).toNat =
          4 * (m.significand * (m.quarterStep.1 * tenPow (-e).toNat)) -
            1 * (m.quarterStep.1 * tenPow (-e).toNat) := by
        rw [lowerEnd_eq hsmall, Nat.mul_assoc, Nat.sub_mul, Nat.mul_assoc]
      rw [hlow, hvalue, hsmall.1, hpower]
      rw [hsmall.1, hpower] at hfine
      omega
    · have hlow : m.lowerEnd * m.quarterStep.1 * tenPow (-e).toNat =
          4 * (m.significand * (m.quarterStep.1 * tenPow (-e).toNat)) -
            2 * (m.quarterStep.1 * tenPow (-e).toNat) := by
        rw [lowerEnd_of_not hsmall, Nat.mul_assoc, Nat.sub_mul, Nat.mul_assoc]
      have hone := Nat.mul_le_mul_right (m.quarterStep.1 * tenPow (-e).toNat) hpos
      rw [hlow, hvalue]
      omega
  · dsimp only
    rw [hhigh, hvalue]
    omega

/-- The shortest digits are those of a decimal that reads back as the magnitude. -/
theorem exists_shortest {m : Magnitude} (hm : m.isZero = false) (tie : Tie) :
    ∃ c e, m.CoversDecimal c e ∧ m.shortest tie = .ofCoefficient c e := by
  have hsome : ((List.range 17).findSome? fun (n : Nat) =>
      ((m.grid (leadingExponent (m.quarters * m.quarterStep.1) m.quarterStep.2 - n)).nearest?
        tie).map fun c => Scientific.ofCoefficient c
          (leadingExponent (m.quarters * m.quarterStep.1) m.quarterStep.2 - n)).isSome = true := by
    refine List.findSome?_isSome_iff.mpr ⟨16, by simp, ?_⟩
    rw [Option.isSome_map]
    exact isSome_nearest?_grid hm tie
  obtain ⟨found, hfound⟩ := Option.isSome_iff_exists.mp hsome
  obtain ⟨n, -, hn⟩ := List.exists_of_findSome?_eq_some hfound
  obtain ⟨c, hc, rfl⟩ := Option.map_eq_some_iff.mp hn
  refine ⟨c, _, inside_iff_covers.mp (Grid.inside_of_nearest? hc), ?_⟩
  unfold shortest
  rw [hm]
  dsimp only
  rw [if_neg Bool.false_ne_true, hfound]
  rfl

/-- All zeros of the format are one. -/
theorem eq_zero_of_isZero {m : Magnitude} (hm : m.isZero = true) : m = zero := by
  have hsignificand : m.significand = 0 := eq_of_beq hm
  have hscale : m.scale = 0 := by
    refine m.normal.resolve_right fun hnormal => ?_
    rw [hsignificand] at hnormal
    exact absurd hnormal (by decide)
  cases m
  simp only at hsignificand hscale
  subst hsignificand hscale
  rfl

end Magnitude

/-! ### The digits themselves -/

theorem Scientific.isDigit_of_mem_ofCoefficient {coefficient : Nat} {exponent : Int} :
    ∀ c ∈ (ofCoefficient coefficient exponent).digits, c.isDigit = true := by
  intro c hc
  have hmem : c ∈ Digits.ofNat coefficient := by
    rw [← Digits.withoutTrailingZeros_append_zeros (Digits.ofNat coefficient)]
    exact List.mem_append_left _ hc
  exact Digits.isDigit_of_mem_ofNat c hmem

theorem Magnitude.isDigit_of_mem_shortest {m : Magnitude} {tie : Tie} :
    ∀ c ∈ (m.shortest tie).digits, c.isDigit = true := by
  have hzero : ∀ c ∈ Scientific.zero.digits, c.isDigit = true :=
    List.all_eq_true.mp (by decide)
  unfold shortest
  split
  · exact hzero
  · dsimp only
    generalize hfound : List.findSome? _ _ = found
    cases found with
    | none => exact hzero
    | some s =>
      obtain ⟨n, -, hn⟩ := List.exists_of_findSome?_eq_some hfound
      obtain ⟨c, -, rfl⟩ := Option.map_eq_some_iff.mp hn
      exact Scientific.isDigit_of_mem_ofCoefficient

theorem Scientific.digits_ofCoefficient_ne_nil {c : Nat} (hc : 0 < c) (e : Int) :
    (ofCoefficient c e).digits ≠ [] := by
  intro hnil
  have hfilled := Digits.withoutTrailingZeros_append_zeros (Digits.ofNat c)
  rw [show Digits.withoutTrailingZeros (Digits.ofNat c) = [] from hnil] at hfilled
  have hvalue := congrArg Digits.value hfilled
  rw [Digits.value_append_zeros, Digits.value_ofNat, show Digits.value [] = 0 from rfl,
    Nat.zero_mul] at hvalue
  omega

theorem Magnitude.digits_shortest_ne_nil (m : Magnitude) (tie : Tie) : (m.shortest tie).digits ≠ [] := by
  cases hm : m.isZero with
  | true =>
    rw [shortest, hm, if_pos rfl]
    exact List.cons_ne_nil _ _
  | false =>
    obtain ⟨c, e, hcovers, hshortest⟩ := exists_shortest hm tie
    rw [hshortest]
    exact Scientific.digits_ofCoefficient_ne_nil (hcovers.pos hm) e

/-- The powers of ten that the format has room for. -/
theorem Magnitude.exponent_shortest_bounds (m : Magnitude) (tie : Tie) :
    -326 ≤ (m.shortest tie).exponent ∧ (m.shortest tie).exponent ≤ 309 := by
  cases hm : m.isZero with
  | true =>
    rw [shortest, hm, if_pos rfl]
    decide
  | false =>
    obtain ⟨c, e, hcovers, hshortest⟩ := exists_shortest hm tie
    have hbounds := hcovers.count_bounds hm
    rw [Digits.count, if_neg (Nat.ne_of_gt (hcovers.pos hm))] at hbounds
    rw [hshortest, Scientific.ofCoefficient]
    dsimp only
    omega

/-! ### The value of the digits -/

theorem cast_tenPow (n : Nat) : ((tenPow n : Nat) : ℚ) = 10 ^ n := by
  rw [tenPow, Nat.pow_eq, Nat.cast_pow]
  rfl

theorem tenPow_toNat (e : Int) : (10 : ℚ) ^ e = tenPow e.toNat / tenPow (-e).toNat := by
  have hsplit : e = e.toNat - (-e).toNat := by omega
  conv_lhs => rw [hsplit]
  rw [zpow_sub₀ (by norm_num), zpow_natCast, zpow_natCast, cast_tenPow, cast_tenPow]

/-- The number that the digits stand for. -/
def Scientific.value (s : Scientific) : ℚ :=
  Digits.value s.digits * 10 ^ (s.exponent + 1 - s.digits.length)

theorem Scientific.value_ofCoefficient (c : Nat) (e : Int) :
    (ofCoefficient c e).value = c * 10 ^ e := by
  have hfilled := Digits.withoutTrailingZeros_append_zeros (Digits.ofNat c)
  have hlength := congrArg List.length hfilled
  have hvalue := congrArg Digits.value hfilled
  rw [List.length_append, Digits.zeros, List.length_replicate] at hlength
  rw [Digits.value_append_zeros, Digits.value_ofNat] at hvalue
  rw [value, ofCoefficient]
  dsimp only
  generalize Digits.withoutTrailingZeros (Digits.ofNat c) = digits at *
  generalize (Digits.ofNat c).length - digits.length = zeros at *
  have hexponent : e + (Digits.ofNat c).length - 1 + 1 - digits.length = zeros + e := by omega
  rw [hexponent, zpow_add₀ (by norm_num), zpow_natCast, ← cast_tenPow, ← mul_assoc, ← hvalue,
    Nat.cast_mul]

theorem Magnitude.CoversDecimal.congr {m : Magnitude} {c c' : Nat} {e e' : Int}
    (h : m.CoversDecimal c e) (heq : (c : ℚ) * 10 ^ e = c' * 10 ^ e') : m.CoversDecimal c' e' := by
  have hpos (n : Nat) : (tenPow n : ℚ) ≠ 0 := Nat.cast_ne_zero.mpr (Nat.ne_of_gt (tenPow_pos n))
  rw [tenPow_toNat, tenPow_toNat, mul_div_assoc', mul_div_assoc',
    div_eq_div_iff (hpos _) (hpos _)] at heq
  have hnat : c * tenPow e.toNat * tenPow (-e').toNat = c' * tenPow e'.toNat * tenPow (-e).toNat := by
    exact_mod_cast heq
  refine Covers.congr h ?_ (tenPow_pos _) (tenPow_pos _)
  rw [Nat.mul_right_comm, hnat, Nat.mul_right_comm]

theorem Magnitude.value_shortest_of_isZero {m : Magnitude} (hm : m.isZero = true) (tie : Tie) :
    (m.shortest tie).value = 0 := by
  rw [shortest, hm, if_pos rfl, Scientific.value, Scientific.zero]
  simp [Digits.value, Digits.digitValue]

/-- A zero has no sign. -/
theorem Magnitude.signed_value_shortest (negative : Bool) (m : Magnitude) (tie : Tie) :
    signed (negative && !m.isZero) (m.shortest tie).value =
      signed negative (m.shortest tie).value := by
  cases hm : m.isZero with
  | true =>
    rw [value_shortest_of_isZero hm]
    cases negative <;> simp [signed]
  | false => rw [Bool.not_false, Bool.and_true]

/-- The digits of a double, wherever the point stands among them, are read as it. -/
theorem Double.ofDecimal_of_value {m : Magnitude} (tie : Tie) {c : Nat} {e : Int}
    (h : (c : ℚ) * 10 ^ e = (m.shortest tie).value) (negative : Bool) :
    ofDecimal negative c e = .finite negative m := by
  cases hm : m.isZero with
  | true =>
    rw [Magnitude.value_shortest_of_isZero hm, mul_eq_zero] at h
    obtain rfl := Magnitude.eq_zero_of_isZero hm
    have hc : c = 0 := Nat.cast_eq_zero.mp (h.resolve_right (zpow_ne_zero e (by norm_num)))
    rw [hc]
    rfl
  | false =>
    obtain ⟨c', e', hcovers, hshortest⟩ := Magnitude.exists_shortest hm tie
    rw [hshortest, Scientific.value_ofCoefficient] at h
    exact ofDecimal_of_covers (hcovers.congr h.symm) hm negative

end TexFormula
