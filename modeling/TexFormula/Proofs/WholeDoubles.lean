import TexFormula.Number.Double.Layout
import TexFormula.Number.Double.Rounding
import TexFormula.Proofs.DigitRuns

/-!
# Doubles that are whole numbers

Below 10^15 the whole numbers lie at least eight steps of the format apart. So the shortest digits of
a whole double are those of the number (`split_shortest`), and its digits read back as it
(`ofDecimal_eq`).
-/

namespace TexFormula

theorem lt_twoPow_of_lt_tenPow {n : Nat} (h : n < tenPow 15) : n < twoPow 50 :=
  Nat.lt_trans h (by decide)

namespace Magnitude

variable {m : Magnitude} {n t : Nat}

/-- The magnitude is the whole number `n`, and `2 ^ t` steps of the format make one. -/
structure IsWhole (m : Magnitude) (n t : Nat) : Prop where
  scale : m.scale + t = 1074
  significand : m.significand = n * twoPow t
  fine : 3 ≤ t

theorem isWhole_of_toNat? (h : m.toNat? = some n) (hsmall : n < tenPow 15) :
    ∃ t, IsWhole m n t := by
  have hsmall := lt_twoPow_of_lt_tenPow hsmall
  unfold toNat? at h
  split at h
  · next hscale =>
    have hproduct : m.significand * twoPow (m.scale - 1074) = n := Option.some.inj h
    have hnormal := m.normal.resolve_left (by omega)
    have hle := Nat.le_mul_of_pos_right m.significand (twoPow_pos (m.scale - 1074))
    have : twoPow 50 < twoPow 52 := by decide
    omega
  · next hscale =>
    split at h
    · next hmod =>
      have hquotient := Option.some.inj h
      have hsignificand : m.significand = n * twoPow (1074 - m.scale) := by
        rw [← hquotient]
        exact (Nat.div_mul_cancel (Nat.dvd_of_mod_eq_zero hmod)).symm
      refine ⟨1074 - m.scale, by omega, hsignificand, ?_⟩
      rcases m.normal with hzero | hnormal
      · rw [hzero]
        decide
      · -- a number below 2^50 needs 2^2 < 2^t to have a significand of 53 bits
        rcases Nat.lt_or_ge (1074 - m.scale) 3 with hsteps | hsteps
        · have hpow : twoPow (1074 - m.scale) ≤ twoPow 2 :=
            Nat.pow_le_pow_right (by decide) (by omega)
          have hbound : m.significand < twoPow 50 * twoPow 2 := by
            rw [hsignificand]
            exact Nat.mul_lt_mul_of_lt_of_le hsmall hpow (twoPow_pos 2)
          have : twoPow 50 * twoPow 2 = twoPow 52 := by decide
          omega
        · exact hsteps
    · cases h

namespace IsWhole

theorem quarterStep_eq (h : IsWhole m n t) : m.quarterStep = (1, twoPow (t + 2)) := by
  have hscale := h.scale
  have hfine := h.fine
  have hexponent : 1076 - m.scale = t + 2 := by omega
  unfold quarterStep
  rw [if_neg (by omega), hexponent]

theorem quarters_eq (h : IsWhole m n t) : m.quarters = n * twoPow (t + 2) := by
  rw [quarters, h.significand, twoPow_succ, twoPow_succ, Nat.mul_comm 4, Nat.mul_assoc n,
    Nat.mul_assoc (twoPow t)]

theorem lt_twoPow (h : IsWhole m n t) : 4 < twoPow (t + 2) := by
  have hpow : twoPow 5 ≤ twoPow (t + 2) :=
    Nat.pow_le_pow_right (by decide) (Nat.add_le_add_right h.fine 2)
  exact Nat.lt_of_lt_of_le (by decide) hpow

/-- The only whole number among the decimals that read back as `m` is `n`. -/
theorem eq_of_inside (h : IsWhole m n t) {e c : Nat} (hinside : (m.grid (e : Int)).inside c = true) :
    c * tenPow e = n := by
  have hgrid : m.grid (e : Int) =
      { step := tenPow e * twoPow (t + 2), value := m.quarters, low := m.lowerEnd,
        high := m.upperEnd, withEnds := m.withEnds } := by
    unfold grid
    rw [h.quarterStep_eq]
    simp [tenPow]
  rw [hgrid] at hinside
  have hlow : m.lowerEnd ≤ c * (tenPow e * twoPow (t + 2)) := by
    unfold Grid.inside at hinside
    split at hinside <;> simp only [Bool.and_eq_true, decide_eq_true_eq] at hinside <;> omega
  have hhigh : c * (tenPow e * twoPow (t + 2)) ≤ m.upperEnd := by
    unfold Grid.inside at hinside
    split at hinside <;> simp only [Bool.and_eq_true, decide_eq_true_eq] at hinside <;> omega
  rw [← Nat.mul_assoc] at hlow hhigh
  unfold lowerEnd at hlow
  unfold upperEnd at hhigh
  rw [h.quarters_eq] at hlow hhigh
  have hquarters : n * twoPow (t + 2) ≤ c * tenPow e * twoPow (t + 2) + 2 := by
    split at hlow <;> omega
  have hwide := h.lt_twoPow
  rcases Nat.lt_trichotomy (c * tenPow e) n with hlt | heq | hgt
  · have hstep := Nat.mul_le_mul_right (twoPow (t + 2)) (Nat.succ_le_of_lt hlt)
    rw [Nat.succ_mul] at hstep
    omega
  · exact heq
  · have hstep := Nat.mul_le_mul_right (twoPow (t + 2)) (Nat.succ_le_of_lt hgt)
    rw [Nat.succ_mul] at hstep
    omega

end IsWhole

theorem Grid.inside_of_nearest? {g : Grid} {tie : Tie} {c : Nat} (h : g.nearest? tie = some c) :
    g.inside c = true := by
  unfold nearest? at h
  simp only at h
  split at h
  · cases h
  · next hlower _ =>
    cases h
    exact hlower
  · next _ hupper =>
    cases h
    exact hupper
  · next hlower hupper =>
    split at h
    · cases h
      exact hlower
    · split at h
      · cases h
        exact hupper
      · cases tie with
        | upward =>
          cases h
          exact hupper
        | toEven =>
          cases h
          rcases Nat.mod_two_eq_zero_or_one (g.value / g.step) with heven | hodd
          · rw [heven]
            exact hlower
          · rw [hodd]
            exact hupper

theorem Grid.isSome_nearest? {g : Grid} (tie : Tie)
    (h : g.inside (g.value / g.step) = true ∨ g.inside (g.value / g.step + 1) = true) :
    (g.nearest? tie).isSome = true := by
  unfold nearest?
  dsimp only
  split
  · next hlower hupper =>
    rw [hlower, hupper] at h
    rcases h with h | h <;> cases h
  · rfl
  · rfl
  · split
    · rfl
    · split
      · rfl
      · cases tie <;> rfl

/-- Some neighbour of the value stands for it on the grid of the whole numbers: the value itself. -/
theorem IsWhole.isSome_nearest? (h : IsWhole m n t) (hn : 0 < n) (tie : Tie) :
    ((m.grid 0).nearest? tie).isSome = true := by
  have hpos := twoPow_pos (t + 2)
  have hvalue : (m.grid 0).value / (m.grid 0).step = n := by
    unfold grid
    rw [h.quarterStep_eq]
    simp only [Int.toNat_zero, Int.neg_zero, tenPow, Nat.pow_eq, Nat.pow_zero, Nat.one_mul,
      Nat.mul_one]
    rw [h.quarters_eq, Nat.mul_div_cancel _ hpos]
  have hinside : (m.grid 0).inside n = true := by
    have hwide := h.lt_twoPow
    have hlow : m.lowerEnd < n * twoPow (t + 2) := by
      unfold lowerEnd
      rw [h.quarters_eq]
      have := Nat.mul_le_mul_right (twoPow (t + 2)) hn
      split <;> omega
    have hhigh : n * twoPow (t + 2) < m.upperEnd := by
      rw [upperEnd, h.quarters_eq]
      omega
    unfold grid Grid.inside
    rw [h.quarterStep_eq]
    simp [tenPow, hlow, hhigh, Nat.le_of_lt]
  refine Grid.isSome_nearest? tie (.inl ?_)
  rw [hvalue]
  exact hinside

/-! ### The shortest digits -/

theorem leadingExponent_eq (h : IsWhole m n t) (hn : 0 < n) :
    leadingExponent (m.quarters * m.quarterStep.1) m.quarterStep.2 =
      ((Digits.ofNat n).length - 1 : Nat) := by
  have hpos := twoPow_pos (t + 2)
  have hle := Nat.le_mul_of_pos_left (twoPow (t + 2)) hn
  have hlength := Digits.length_ofNat_pos n
  rw [h.quarterStep_eq, Nat.mul_one, h.quarters_eq]
  unfold leadingExponent
  rw [if_pos hle, Nat.mul_div_cancel _ hpos, Digits.count, if_neg (Nat.ne_of_gt hn)]
  omega

/-- The shortest digits of a whole number are its own, without zeros at the end. -/
theorem exists_shortest_eq (h : IsWhole m n t) (hn : 0 < n) (hsmall : n < tenPow 15) (tie : Tie) :
    ∃ c e : Nat, c * tenPow e = n ∧ m.shortest tie = .ofCoefficient c e := by
  have hlength := (Digits.length_ofNat_le_iff (by decide)).mpr hsmall
  have hzero : m.isZero = false := by
    refine beq_false_of_ne fun hzero => ?_
    have hquarters := h.quarters_eq
    rw [quarters, hzero] at hquarters
    have := Nat.mul_pos hn (twoPow_pos (t + 2))
    omega
  unfold shortest
  rw [hzero]
  simp only [Bool.false_eq_true, if_false]
  rw [leadingExponent_eq h hn]
  generalize htop : (Digits.ofNat n).length - 1 = top
  have hrange : List.range 17 = List.range (top + 1) ++ (List.range (16 - top)).map (top + 1 + ·) := by
    rw [← List.range_add]
    congr 1
    omega
  have hsome : ((List.range (top + 1)).findSome? fun (k : Nat) =>
      ((m.grid ((top : Int) - k)).nearest? tie).map fun c =>
        Scientific.ofCoefficient c ((top : Int) - k)).isSome = true := by
    refine List.findSome?_isSome_iff.mpr ⟨top, by simp, ?_⟩
    rw [Int.sub_self, Option.isSome_map]
    exact h.isSome_nearest? hn tie
  obtain ⟨found, hfound⟩ := Option.isSome_iff_exists.mp hsome
  obtain ⟨k, hk, hmap⟩ := List.exists_of_findSome?_eq_some hfound
  obtain ⟨c, hc, rfl⟩ := Option.map_eq_some_iff.mp hmap
  rw [List.mem_range] at hk
  have hexponent : (top : Int) - k = ((top - k : Nat) : Int) := by omega
  rw [hexponent] at hc
  refine ⟨c, top - k, h.eq_of_inside (Grid.inside_of_nearest? hc), ?_⟩
  rw [hrange, List.findSome?_append, hfound, hexponent]
  rfl

end Magnitude

/-! ### Rounding -/

theorem roundHalfEven_mul {q den : Nat} (hden : 0 < den) : roundHalfEven (q * den) den = q := by
  unfold roundHalfEven
  rw [Nat.mul_mod_left, Nat.mul_div_cancel _ hden]
  exact if_pos hden

theorem twoPow_eq_mul {a b c : Nat} (h : a + b = c) : twoPow c = twoPow a * twoPow b := by
  subst h
  exact Nat.pow_add 2 a b

theorem log2_mul_twoPow {n : Nat} (hn : 0 < n) (k : Nat) : (n * twoPow k).log2 = n.log2 + k := by
  have hlow : twoPow n.log2 ≤ n := Nat.log2_self_le (Nat.ne_of_gt hn)
  have hhigh : n < twoPow (n.log2 + 1) := Nat.lt_log2_self
  refine (Nat.log2_eq_iff (Nat.ne_of_gt (Nat.mul_pos hn (twoPow_pos k)))).mpr ⟨?_, ?_⟩
  · show twoPow (n.log2 + k) ≤ _
    rw [twoPow_eq_mul rfl]
    exact Nat.mul_le_mul_right _ hlow
  · show _ < twoPow (n.log2 + k + 1)
    rw [Nat.add_right_comm, twoPow_eq_mul rfl]
    exact Nat.mul_lt_mul_of_pos_right hhigh (twoPow_pos k)

/-- A whole number of at most 53 bits is a double. -/
theorem Magnitude.ofRatio?_one {n : Nat} (hn : 0 < n) (hsmall : n < twoPow 53) :
    ∃ m : Magnitude, ofRatio? n 1 = some m ∧ m.toNat? = some n := by
  have hlow : twoPow n.log2 ≤ n := Nat.log2_self_le (Nat.ne_of_gt hn)
  have hhigh : n < twoPow (n.log2 + 1) := Nat.lt_log2_self
  have hlog : n.log2 < 53 := (Nat.log2_lt (Nat.ne_of_gt hn)).mpr hsmall
  have hscale := log2_mul_twoPow hn 1074
  generalize n.log2 = bits at *
  -- scaled to 53 bits
  have hfull : twoPow 52 ≤ n * twoPow (52 - bits) := by
    rw [twoPow_eq_mul (a := bits) (b := 52 - bits) (c := 52) (by omega)]
    exact Nat.mul_le_mul_right _ hlow
  have hfits : n * twoPow (52 - bits) < twoPow 53 := by
    rw [twoPow_eq_mul (a := bits + 1) (b := 52 - bits) (c := 53) (by omega)]
    exact Nat.mul_lt_mul_of_pos_right hhigh (twoPow_pos _)
  have hsteps : n * twoPow 1074 = n * twoPow (52 - bits) * (1 * twoPow (bits + 1022)) := by
    rw [twoPow_eq_mul (a := 52 - bits) (b := bits + 1022) (c := 1074) (by omega), Nat.one_mul,
      Nat.mul_assoc]
  have hround : roundHalfEven (n * twoPow 1074) (1 * twoPow (bits + 1022)) =
      n * twoPow (52 - bits) := by
    rw [hsteps]
    exact roundHalfEven_mul (Nat.mul_pos Nat.one_pos (twoPow_pos _))
  have hexponent : bits + 1074 + 1 - 53 = bits + 1022 := by omega
  have hparts : n * twoPow (52 - bits) < twoPow 53 ∧ bits + 1022 ≤ 2045 ∧
      (bits + 1022 = 0 ∨ twoPow 52 ≤ n * twoPow (52 - bits)) :=
    ⟨hfits, by omega, .inr hfull⟩
  refine ⟨⟨n * twoPow (52 - bits), bits + 1022, hparts.1, hparts.2.1, hparts.2.2⟩, ?_, ?_⟩
  · unfold ofRatio?
    simp only [Nat.div_one]
    rw [hscale, hexponent, hround, if_pos hfits]
    exact dif_pos hparts
  · unfold toNat?
    simp only
    split
    · have hbits : 52 - bits = 0 ∧ bits + 1022 - 1074 = 0 := by omega
      rw [hbits.1, hbits.2]
      show some (n * 1 * 1) = some n
      rw [Nat.mul_one, Nat.mul_one]
    · have hshift : 1074 - (bits + 1022) = 52 - bits := by omega
      rw [hshift, Nat.mul_mod_left, if_pos rfl, Nat.mul_div_cancel _ (twoPow_pos _)]

theorem Magnitude.toNat?_zero : zero.toNat? = some 0 := by
  simp [toNat?, zero]

/-- The digits of a whole number are read as a double of just this value. -/
theorem Double.ofDecimal_zero_exponent {n : Nat} (hsmall : n < tenPow 15) (negative : Bool) :
    ∃ m : Magnitude, ofDecimal negative n 0 = .finite negative m ∧ m.toNat? = some n := by
  rcases Nat.eq_zero_or_pos n with rfl | hn
  · exact ⟨.zero, rfl, Magnitude.toNat?_zero⟩
  · have hbits : n < twoPow 53 := Nat.lt_trans hsmall (by decide)
    obtain ⟨m, hm, hvalue⟩ := Magnitude.ofRatio?_one hn hbits
    have hlength := (Digits.length_ofNat_le_iff (by decide)).mpr hsmall
    have hcount : Digits.count n ≤ 15 := by
      rw [Digits.count, if_neg (Nat.ne_of_gt hn)]
      exact hlength
    refine ⟨m, ?_, hvalue⟩
    unfold ofDecimal
    have hlow : (decide (n = 0) || decide ((0 : Int) + Digits.count n < -325)) = false := by
      simp only [Bool.or_eq_false_iff, decide_eq_false_iff_not]
      omega
    have hhigh : ¬ 310 < (0 : Int) + Digits.count n := by omega
    simp only [hlow, Bool.false_eq_true, if_false, hhigh, Int.le_refl, if_true]
    rw [show tenPow (Int.toNat 0) = 1 from rfl, Nat.mul_one, hm]

end TexFormula
