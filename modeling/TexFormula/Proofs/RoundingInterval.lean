import TexFormula.Number.Double.Shortest
import TexFormula.Proofs.WholeDoubles

/-!
# The decimals that read back as a double

`m.Covers x d` says that the quotient `x / d`, counted in the smallest steps of the format, lies in
the interval around `m` that `lowerEnd` and `upperEnd` enclose. Whatever lies there is rounded to `m`
(`ofRatio?_of_covers`), in particular every decimal on the grid of `Grid.inside`
(`inside_iff_covers`, `Double.ofDecimal_of_covers`).
-/

namespace TexFormula

theorem twoPow_le_twoPow {a b : Nat} (h : a ≤ b) : twoPow a ≤ twoPow b :=
  Nat.pow_le_pow_right (by decide) h

theorem tenPow_lt_tenPow_iff {a b : Nat} : tenPow a < tenPow b ↔ a < b :=
  Nat.pow_lt_pow_iff_right (by decide)

theorem tenPow_eq_mul {a b c : Nat} (h : a + b = c) : tenPow c = tenPow a * tenPow b := by
  subst h
  exact Nat.pow_add 10 a b

theorem Digits.lt_tenPow_count (n : Nat) : n < tenPow (count n) := by
  rcases Nat.eq_zero_or_pos n with rfl | hn
  · exact Nat.one_pos
  · rw [count, if_neg (Nat.ne_of_gt hn)]
    exact (length_ofNat_le_iff (length_ofNat_pos n)).mp (Nat.le_refl _)

theorem Digits.tenPow_count_le {n : Nat} (hn : 0 < n) : tenPow (count n - 1) ≤ n := by
  rw [count, if_neg (Nat.ne_of_gt hn)]
  rcases Nat.eq_zero_or_pos ((ofNat n).length - 1) with hone | hlonger
  · rw [hone]
    exact hn
  · refine Nat.le_of_not_lt fun hlt => ?_
    have := (length_ofNat_le_iff hlonger).mpr hlt
    omega

/-- The number is the nearest one to the quotient, and even if another one is equally near. -/
theorem roundHalfEven_eq {x d n : Nat} (hd : 0 < d) (hlow : 2 * (n * d) ≤ 2 * x + d)
    (hhigh : 2 * x ≤ 2 * (n * d) + d)
    (heven : 2 * (n * d) = 2 * x + d ∨ 2 * x = 2 * (n * d) + d → n % 2 = 0) :
    roundHalfEven x d = n := by
  have hsplit := Nat.div_add_mod x d
  have hmod := Nat.mod_lt x hd
  rw [Nat.mul_comm] at hsplit
  unfold roundHalfEven
  dsimp only
  generalize x / d = q at *
  generalize x % d = r at *
  have hle : q ≤ n := by
    refine Nat.le_of_not_lt fun hlt => ?_
    have hstep := Nat.mul_le_mul_right d (Nat.succ_le_of_lt hlt)
    rw [Nat.succ_mul] at hstep
    omega
  have hnext : n ≤ q + 1 := by
    refine Nat.le_of_not_lt fun hlt => ?_
    have hstep := Nat.mul_le_mul_right d (Nat.succ_le_of_lt hlt)
    rw [Nat.succ_mul, Nat.succ_mul] at hstep
    omega
  rcases Nat.eq_or_lt_of_le hle with rfl | hlt
  · split
    · rfl
    · split
      · next htie => omega
      · omega
  · obtain rfl : n = q + 1 := Nat.le_antisymm hnext hlt
    have hsucc : (q + 1) * d = q * d + d := Nat.succ_mul q d
    split
    · omega
    · split
      · next htie => omega
      · rfl

namespace Magnitude

variable {m : Magnitude} {x d x' d' num den : Nat}

/-- The quotient, in the smallest steps of the format, reads back as the magnitude. -/
def Covers (m : Magnitude) (x d : Nat) : Prop :=
  if m.withEnds then
    m.lowerEnd * (twoPow m.scale * d) ≤ 4 * x ∧ 4 * x ≤ m.upperEnd * (twoPow m.scale * d)
  else
    m.lowerEnd * (twoPow m.scale * d) < 4 * x ∧ 4 * x < m.upperEnd * (twoPow m.scale * d)

theorem Covers.low (h : m.Covers x d) : m.lowerEnd * (twoPow m.scale * d) ≤ 4 * x := by
  unfold Covers at h
  split at h
  · exact h.1
  · exact Nat.le_of_lt h.1

theorem Covers.high (h : m.Covers x d) : 4 * x ≤ m.upperEnd * (twoPow m.scale * d) := by
  unfold Covers at h
  split at h
  · exact h.2
  · exact Nat.le_of_lt h.2

/-- The ends of the interval belong to even significands only. -/
theorem Covers.even (h : m.Covers x d) (hend : m.lowerEnd * (twoPow m.scale * d) = 4 * x ∨
    4 * x = m.upperEnd * (twoPow m.scale * d)) : m.significand % 2 = 0 := by
  unfold Covers at h
  split at h
  · next heven => exact of_decide_eq_true heven
  · omega

/-- Only the quotient matters. -/
theorem Covers.congr (h : m.Covers x d) (heq : x * d' = x' * d) (hd : 0 < d) (hd' : 0 < d') :
    m.Covers x' d' := by
  have hleft (k : Nat) : k * (twoPow m.scale * d') * d = k * (twoPow m.scale * d) * d' := by
    rw [Nat.mul_assoc, Nat.mul_assoc, Nat.mul_assoc, Nat.mul_assoc, Nat.mul_comm d' d]
  have hright : 4 * x' * d = 4 * x * d' := by rw [Nat.mul_assoc, ← heq, Nat.mul_assoc]
  unfold Covers at h ⊢
  split at h
  · next hends =>
    rw [if_pos hends]
    constructor <;> refine Nat.le_of_mul_le_mul_right ?_ hd <;> rw [hleft, hright]
    · exact Nat.mul_le_mul_right d' h.1
    · exact Nat.mul_le_mul_right d' h.2
  · next hends =>
    rw [if_neg hends]
    constructor <;> refine Nat.lt_of_mul_lt_mul_right (a := d) ?_ <;> rw [hleft, hright]
    · exact Nat.mul_lt_mul_of_pos_right h.1 hd'
    · exact Nat.mul_lt_mul_of_pos_right h.2 hd'

/-! ### Rounding -/

theorem significand_pos (hm : m.isZero = false) : 0 < m.significand :=
  Nat.pos_of_ne_zero (ne_of_beq_false hm)

theorem lowerEnd_eq (h : m.significand = twoPow 52 ∧ m.scale ≠ 0) :
    m.lowerEnd = 4 * m.significand - 1 :=
  if_pos h

theorem lowerEnd_of_not (h : ¬(m.significand = twoPow 52 ∧ m.scale ≠ 0)) :
    m.lowerEnd = 4 * m.significand - 2 :=
  if_neg h

theorem lowerEnd_pos (hm : m.isZero = false) : 0 < m.lowerEnd := by
  have hpos := significand_pos hm
  unfold lowerEnd quarters
  split <;> omega

theorem upperEnd_eq (m : Magnitude) : m.upperEnd = 4 * m.significand + 2 := rfl

/-- The bounds that the ends set, without subtraction. Just above a power of two the lower one is
nearer. -/
theorem Covers.bounds (h : m.Covers x d) (hm : m.isZero = false) :
    4 * (m.significand * (twoPow m.scale * d)) ≤ 4 * x + 2 * (twoPow m.scale * d) ∧
      4 * x ≤ 4 * (m.significand * (twoPow m.scale * d)) + 2 * (twoPow m.scale * d) ∧
      (4 * (m.significand * (twoPow m.scale * d)) = 4 * x + 2 * (twoPow m.scale * d) ∨
        4 * x = 4 * (m.significand * (twoPow m.scale * d)) + 2 * (twoPow m.scale * d) →
          m.significand % 2 = 0) ∧
      (m.significand = twoPow 52 ∧ m.scale ≠ 0 →
        4 * (m.significand * (twoPow m.scale * d)) ≤ 4 * x + twoPow m.scale * d) := by
  have hpos := significand_pos hm
  have hlow := h.low
  have hhigh := h.high
  have heven := h.even
  rw [upperEnd_eq, Nat.add_mul, Nat.mul_assoc] at hhigh heven
  by_cases hpower : m.significand = twoPow 52 ∧ m.scale ≠ 0
  · rw [lowerEnd_eq hpower, Nat.sub_mul, Nat.mul_assoc] at hlow heven
    have hone := Nat.mul_le_mul_right (twoPow m.scale * d) hpos
    exact ⟨by omega, by omega, by omega, fun _ => by omega⟩
  · rw [lowerEnd_of_not hpower, Nat.sub_mul, Nat.mul_assoc] at hlow heven
    have hone := Nat.mul_le_mul_right (twoPow m.scale * d) hpos
    exact ⟨by omega, by omega, by omega, fun h => absurd h hpower⟩

/-- The quotient is rounded to the significand on the scale of the magnitude. -/
theorem Covers.roundHalfEven_eq (h : m.Covers x d) (hm : m.isZero = false) (hd : 0 < d) :
    roundHalfEven x (d * twoPow m.scale) = m.significand := by
  obtain ⟨hlow, hhigh, heven, -⟩ := h.bounds hm
  rw [Nat.mul_comm d]
  exact TexFormula.roundHalfEven_eq (Nat.mul_pos (twoPow_pos _) hd) (by omega) (by omega)
    fun htie => heven (by omega)

theorem log2_eq_of_le_of_lt {q k : Nat} (hlow : twoPow k ≤ q) (hhigh : q < twoPow (k + 1)) :
    q.log2 = k :=
  (Nat.log2_eq_iff (Nat.ne_of_gt (Nat.lt_of_lt_of_le (twoPow_pos k) hlow))).mpr ⟨hlow, hhigh⟩

theorem log2_div_eq {k s : Nat} (hden : 0 < den) (hlow : twoPow k * (twoPow s * den) ≤ x)
    (hhigh : x < twoPow (k + 1) * (twoPow s * den)) : (x / den).log2 = k + s := by
  refine log2_eq_of_le_of_lt ?_ ?_
  · rw [Nat.le_div_iff_mul_le hden, twoPow_eq_mul rfl, Nat.mul_assoc]
    exact hlow
  · rw [Nat.div_lt_iff_lt_mul hden, twoPow_eq_mul (a := k + 1) (b := s) (by omega), Nat.mul_assoc]
    exact hhigh

/-- Just below a power of two the steps are half as large, and the quotient is rounded up to it. -/
theorem ofRatio?_of_lt_power {s : Nat} (hm : m.significand = twoPow 52) (hs : m.scale = s + 1)
    (hden : 0 < den) (hlow : 4 * (twoPow 52 * (twoPow (s + 1) * den)) ≤
      4 * (num * twoPow 1074) + twoPow (s + 1) * den)
    (hhigh : num * twoPow 1074 < twoPow 52 * (twoPow (s + 1) * den)) :
    ofRatio? num den = some m := by
  unfold ofRatio?
  generalize num * twoPow 1074 = x at *
  dsimp only
  have hhalf : twoPow (s + 1) * den = 2 * (twoPow s * den) := by
    rw [twoPow_succ, Nat.mul_comm (twoPow s), Nat.mul_assoc]
  have hpos : 0 < twoPow s * den := Nat.mul_pos (twoPow_pos s) hden
  have hdouble : twoPow 53 = 2 * twoPow 52 := by decide
  rw [hhalf] at hlow hhigh
  have hlog : (x / den).log2 = 52 + s := by
    refine log2_div_eq hden ?_ ?_
    · have : twoPow 52 * (2 * (twoPow s * den)) = 2 * (twoPow 52 * (twoPow s * den)) :=
        Nat.mul_left_comm _ _ _
      have := Nat.le_mul_of_pos_left (twoPow s * den) (twoPow_pos 52)
      omega
    · rw [show twoPow (52 + 1) = twoPow 52 * 2 from rfl, Nat.mul_assoc]
      exact hhigh
  have hround : roundHalfEven x (den * twoPow s) = twoPow 53 := by
    have hproduct : twoPow 53 * (twoPow s * den) = twoPow 52 * (2 * (twoPow s * den)) := by
      rw [hdouble, Nat.mul_comm 2, Nat.mul_assoc]
    rw [Nat.mul_comm den]
    exact roundHalfEven_eq hpos (by omega) (by omega) fun _ => by decide
  have hexponent : 52 + s + 1 - 53 = s := by omega
  rw [hlog, hexponent, hround, if_neg (Nat.lt_irrefl _), ← hm, ← hs]
  exact ofParts?_eq m

/-- What reads back as a magnitude is rounded to it. -/
theorem ofRatio?_of_covers (hm : m.isZero = false) (hden : 0 < den)
    (h : m.Covers (num * twoPow 1074) den) : ofRatio? num den = some m := by
  have hround := h.roundHalfEven_eq hm hden
  have hfits := m.significand_lt
  obtain ⟨hlow, hhigh, -, hnear⟩ := h.bounds hm
  have hgreatest := Nat.mul_le_mul_right (twoPow m.scale * den) (Nat.succ_le_of_lt hfits)
  rw [Nat.succ_mul] at hgreatest
  have hpos : 0 < twoPow m.scale * den := Nat.mul_pos (twoPow_pos _) hden
  have hbelow : num * twoPow 1074 < twoPow 53 * (twoPow m.scale * den) := by omega
  have hlog (hlog : (num * twoPow 1074 / den).log2 + 1 - 53 = m.scale) : ofRatio? num den = some m := by
    unfold ofRatio?
    dsimp only
    rw [hlog, hround, if_pos hfits]
    exact ofParts?_eq m
  rcases Nat.eq_zero_or_eq_succ_pred m.scale with hscale | hscale
  · refine hlog ?_
    have hquotient : num * twoPow 1074 / den < twoPow 53 := by
      rw [hscale, show twoPow 0 * den = den from Nat.one_mul den] at hbelow
      exact (Nat.div_lt_iff_lt_mul hden).mpr hbelow
    rcases Nat.eq_zero_or_pos (num * twoPow 1074 / den) with hzero | hquotientPos
    · rw [hzero, hscale]
      rfl
    · have := (Nat.log2_lt (Nat.ne_of_gt hquotientPos)).mpr hquotient
      omega
  · have hnormal := m.normal.resolve_left (by omega)
    rcases Nat.lt_or_ge (num * twoPow 1074) (twoPow 52 * (twoPow m.scale * den)) with hlt | hge
    · have hpower : m.significand = twoPow 52 := by
        refine Nat.le_antisymm (Nat.le_of_not_lt fun hlt => ?_) hnormal
        have hnext := Nat.mul_le_mul_right (twoPow m.scale * den) (Nat.succ_le_of_lt hlt)
        rw [Nat.succ_mul] at hnext
        omega
      have hclose := hnear ⟨hpower, by omega⟩
      rw [hpower] at hclose
      rw [hscale] at hclose hlt
      exact ofRatio?_of_lt_power hpower hscale hden hclose hlt
    · refine hlog ?_
      rw [log2_div_eq (k := 52) hden hge hbelow]
      omega

/-! ### Decimals -/

/-- The numerator and the denominator of `c * 10 ^ e`, the former in the smallest steps. -/
def CoversDecimal (m : Magnitude) (c : Nat) (e : Int) : Prop :=
  m.Covers (c * tenPow e.toNat * twoPow 1074) (tenPow (-e).toNat)

theorem quarterStep_mul (m : Magnitude) :
    m.quarterStep.1 * twoPow 1076 = twoPow m.scale * m.quarterStep.2 ∧ 0 < m.quarterStep.2 := by
  unfold quarterStep
  split
  · next h =>
    rw [← twoPow_eq_mul (c := m.scale) (by omega), Nat.mul_one]
    exact ⟨rfl, Nat.one_pos⟩
  · next h =>
    rw [← twoPow_eq_mul (a := m.scale) (c := 1076) (by omega), Nat.one_mul]
    exact ⟨rfl, twoPow_pos _⟩

theorem quarterStep_pos (m : Magnitude) : 0 < m.quarterStep.1 := by
  rw [quarterStep]
  split <;> dsimp only
  · exact twoPow_pos _
  · exact Nat.one_pos

theorem grid_eq (m : Magnitude) (e : Int) :
    m.grid e =
      { step := tenPow e.toNat * m.quarterStep.2
        value := m.quarters * m.quarterStep.1 * tenPow (-e).toNat
        low := m.lowerEnd * m.quarterStep.1 * tenPow (-e).toNat
        high := m.upperEnd * m.quarterStep.1 * tenPow (-e).toNat
        withEnds := m.withEnds } :=
  rfl

/-- The points of a grid that lie inside are the decimals that read back. -/
theorem inside_iff_covers {c : Nat} {e : Int} :
    (m.grid e).inside c = true ↔ m.CoversDecimal c e := by
  obtain ⟨hstep, hpos⟩ := m.quarterStep_mul
  have hfour : 4 * twoPow 1074 = twoPow 1076 := by decide +kernel
  have hscaled : 0 < twoPow 1076 := twoPow_pos _
  rw [grid_eq]
  unfold CoversDecimal Covers Grid.inside
  generalize m.quarterStep.1 = num at *
  generalize m.quarterStep.2 = den at *
  generalize tenPow e.toNat = up at *
  generalize tenPow (-e).toNat = down at *
  generalize twoPow 1076 = quarters at *
  generalize twoPow 1074 = steps at *
  have hend (k : Nat) : k * (twoPow m.scale * down) * den = k * num * down * quarters := by
    calc k * (twoPow m.scale * down) * den = k * down * (twoPow m.scale * den) := by ac_rfl
      _ = k * num * down * quarters := by rw [← hstep]; ac_rfl
  have hpoint : 4 * (c * up * steps) * den = c * (up * den) * quarters := by
    rw [← hfour]
    ac_rfl
  have hiff {a b a' b' : Nat} (ha : a * den = a' * quarters) (hb : b * den = b' * quarters) :
      (a' ≤ b' ↔ a ≤ b) ∧ (a' < b' ↔ a < b) := by
    have hle : a' ≤ b' ↔ a ≤ b := by
      rw [← Nat.mul_le_mul_right_iff hscaled, ← ha, ← hb, Nat.mul_le_mul_right_iff hpos]
    have hlt : a' < b' ↔ a < b := by
      rw [← Nat.mul_lt_mul_right hscaled, ← ha, ← hb, Nat.mul_lt_mul_right hpos]
    exact ⟨hle, hlt⟩
  have hlow := hiff (hend m.lowerEnd) hpoint
  have hhigh := hiff hpoint (hend m.upperEnd)
  cases m.withEnds <;> simp only [Bool.and_eq_true, decide_eq_true_eq, Bool.false_eq_true, if_false,
    if_true]
  · exact and_congr hlow.2 hhigh.2
  · exact and_congr hlow.1 hhigh.1

theorem CoversDecimal.pos {c : Nat} {e : Int} (h : m.CoversDecimal c e) (hm : m.isZero = false) :
    0 < c := by
  have hlow := Covers.low h
  refine Nat.pos_of_ne_zero fun hc => ?_
  rw [hc, Nat.zero_mul, Nat.zero_mul] at hlow
  have := Nat.mul_pos (lowerEnd_pos hm) (Nat.mul_pos (twoPow_pos m.scale) (tenPow_pos (-e).toNat))
  exact Nat.not_lt_of_le hlow this

/-- Decimals that read back as a magnitude are neither too small nor too great for the format. -/
theorem CoversDecimal.count_bounds {c : Nat} {e : Int} (h : m.CoversDecimal c e)
    (hm : m.isZero = false) : -325 ≤ e + Digits.count c ∧ e + Digits.count c ≤ 310 := by
  have hleast := Digits.tenPow_count_le (h.pos hm)
  have hgreatest := Digits.lt_tenPow_count c
  have hlow := Covers.low h
  have hhigh := Covers.high h
  have hscale := twoPow_le_twoPow m.scale_le
  generalize Digits.count c = count at *
  constructor
  · -- the least magnitude is more than 10^-325
    refine Int.not_lt.mp fun hsmall => ?_
    have hup : e.toNat = 0 := by omega
    rw [hup, show tenPow 0 = 1 from rfl, Nat.mul_one] at hlow
    have hone : 1 * tenPow (-e).toNat ≤ m.lowerEnd * (twoPow m.scale * tenPow (-e).toNat) := by
      rw [← Nat.mul_assoc]
      exact Nat.mul_le_mul_right _ (Nat.mul_pos (lowerEnd_pos hm) (twoPow_pos _))
    have hpower : tenPow (-e).toNat < tenPow (count + 324) := by
      calc tenPow (-e).toNat ≤ 4 * (c * twoPow 1074) := by omega
        _ = c * (4 * twoPow 1074) := Nat.mul_left_comm _ _ _
        _ < tenPow count * (4 * twoPow 1074) := Nat.mul_lt_mul_of_pos_right hgreatest (by decide +kernel)
        _ ≤ tenPow count * tenPow 324 := Nat.mul_le_mul_left _ (by decide +kernel)
        _ = tenPow (count + 324) := (tenPow_eq_mul rfl).symm
    have := tenPow_lt_tenPow_iff.mp hpower
    omega
  · -- the greatest one is less than 10^309
    refine Int.not_lt.mp fun hgreat => ?_
    have hend : m.upperEnd ≤ twoPow 56 := by
      have := m.significand_lt
      rw [upperEnd_eq]
      have : 4 * twoPow 53 + 2 ≤ twoPow 56 := by decide +kernel
      omega
    have hpower : tenPow (count - 1 + e.toNat) < tenPow (309 + (-e).toNat) := by
      have hgap : twoPow 56 * twoPow 2045 < tenPow 309 * (4 * twoPow 1074) := by decide +kernel
      refine Nat.lt_of_mul_lt_mul_right (a := 4 * twoPow 1074) ?_
      calc tenPow (count - 1 + e.toNat) * (4 * twoPow 1074)
          = 4 * (tenPow (count - 1) * tenPow e.toNat * twoPow 1074) := by
            rw [tenPow_eq_mul rfl, Nat.mul_left_comm]
        _ ≤ 4 * (c * tenPow e.toNat * twoPow 1074) :=
            Nat.mul_le_mul_left _ (Nat.mul_le_mul_right _ (Nat.mul_le_mul_right _ hleast))
        _ ≤ m.upperEnd * (twoPow m.scale * tenPow (-e).toNat) := hhigh
        _ ≤ twoPow 56 * (twoPow 2045 * tenPow (-e).toNat) :=
            Nat.mul_le_mul hend (Nat.mul_le_mul_right _ hscale)
        _ = twoPow 56 * twoPow 2045 * tenPow (-e).toNat := (Nat.mul_assoc _ _ _).symm
        _ < tenPow 309 * (4 * twoPow 1074) * tenPow (-e).toNat :=
            Nat.mul_lt_mul_of_pos_right hgap (tenPow_pos _)
        _ = tenPow (309 + (-e).toNat) * (4 * twoPow 1074) := by
            rw [tenPow_eq_mul rfl, Nat.mul_right_comm]
    have := tenPow_lt_tenPow_iff.mp hpower
    omega

end Magnitude

/-- A decimal that reads back as a magnitude is read as it. -/
theorem Double.ofDecimal_of_covers {m : Magnitude} {c : Nat} {e : Int} (h : m.CoversDecimal c e)
    (hm : m.isZero = false) (negative : Bool) : ofDecimal negative c e = .finite negative m := by
  obtain ⟨hlow, hhigh⟩ := h.count_bounds hm
  have hratio := Magnitude.ofRatio?_of_covers hm (tenPow_pos _) h
  have hone : tenPow (0 : Int).toNat = 1 := rfl
  unfold ofDecimal
  dsimp only
  rw [decide_eq_false (Nat.ne_of_gt (h.pos hm)), decide_eq_false (Int.not_lt.mpr hlow), Bool.or_self,
    if_neg Bool.false_ne_true, if_neg (Int.not_lt.mpr hhigh)]
  by_cases he : 0 ≤ e
  · have hdown : (-e).toNat = 0 := by omega
    rw [hdown] at hratio
    rw [if_pos he, show Magnitude.ofRatio? (c * tenPow e.toNat) 1 = some m from hratio]
  · have hup : e.toNat = 0 := by omega
    rw [hup, show tenPow 0 = 1 from rfl, Nat.mul_one] at hratio
    rw [if_neg he, hratio]

end TexFormula
