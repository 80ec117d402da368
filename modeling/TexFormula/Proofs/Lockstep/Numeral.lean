import TexFormula.Parser.Numeral
import TexFormula.Proofs.Lockstep

/-!
# Numerals are read alike

Numerals depend on no dictionary. That a number is read to its end, and that a token is read where
a number starts, is all that other parts of the parser need.
-/

namespace TexFormula.Parser

variable {env : Env} {n : Nat} {s : State}

theorem State.length_forward_le (hs : s.rest.length ≤ n) (count : Nat) :
    (s.forward count).rest.length ≤ n :=
  Nat.le_trans (length_rest_forward_le s count) hs

theorem State.length_forward_one_le (hs : s.rest.length ≤ n + 1) :
    (s.forward 1).rest.length ≤ n := by
  rw [rest_forward, List.length_drop]
  omega

theorem agree_thinSpaceGroups (run : String) (hs : s.rest.length ≤ n) :
    Agree (AtMost n) s (thinSpaceGroups env run) (thinSpaceGroups env run) := by
  unfold thinSpaceGroups
  exact .get (.skip (.pure (State.length_forward_le hs _)))

theorem agree_commaGroups (run : String) (hs : s.rest.length ≤ n) :
    Agree (AtMost n) s (commaGroups env run) (commaGroups env run) := by
  unfold commaGroups
  refine .get ?_
  dsimp only
  split
  · exact .pure hs
  · split
    · exact .skip (.pure (State.length_forward_le hs _))
    · split
      · exact .record (.pure hs)
      · exact .pure hs

theorem agree_wholeDigits_of_digits (h : (s.current env).digits?.isSome)
    (hs : s.rest.length ≤ n + 1) : Agree (AtMost n) s (wholeDigits env) (wholeDigits env) := by
  unfold wholeDigits
  have hforward := State.length_forward_one_le hs
  refine .current ?_
  obtain ⟨run, hrun⟩ := Option.isSome_iff_exists.mp h
  rw [hrun]
  refine .advance (.get ?_)
  split
  · exact agree_commaGroups _ hforward
  · exact agree_thinSpaceGroups _ hforward

theorem runs_wholeDigits_of_no_digits (h : (s.current env).digits? = none) :
    Runs (wholeDigits env) s "" s := by
  unfold wholeDigits
  rw [runs_current, h]
  exact .pure "" s

theorem agree_wholeDigits (hs : s.rest.length ≤ n) :
    Agree (AtMost n) s (wholeDigits env) (wholeDigits env) := by
  cases h : (s.current env).digits? with
  | none => exact .refl (runs_wholeDigits_of_no_digits h) hs
  | some run =>
    exact agree_wholeDigits_of_digits (Option.isSome_iff_exists.mpr ⟨run, h⟩)
      (Nat.le_succ_of_le hs)

theorem agree_barredDigits (hs : s.rest.length ≤ n) :
    Agree (AtMost n) s barredDigits barredDigits := by
  unfold barredDigits
  refine .get ?_
  split
  · split
    · split
      · exact .skip (.pure (State.length_forward_le hs _))
      · exact .pure hs
    · exact .pure hs
  · exact .pure hs

/-- Behind a point that digits follow. -/
theorem agree_fraction (hs : s.rest.length ≤ n) :
    Agree (AtMost n) s
      (do
        let fraction ← match (← current env).digits? with
          | some run => do
            advance
            thinSpaceGroups env run
          | none => pure ""
        return (fraction, ← barredDigits))
      (do
        let fraction ← match (← current env).digits? with
          | some run => do
            advance
            thinSpaceGroups env run
          | none => pure ""
        return (fraction, ← barredDigits)) := by
  have hforward := State.length_forward_le hs 1
  refine .current ?_
  dsimp only
  split
  · refine .advance (.bind (agree_thinSpaceGroups _ hforward) fun fraction t ht => ?_)
    exact .bind (agree_barredDigits ht) fun _ _ hu => .pure hu
  · exact .pure_bind (.bind (agree_barredDigits hs) fun _ _ hu => .pure hu)

theorem agree_fractionDigits (whole : String) (hs : s.rest.length ≤ n) :
    Agree (AtMost n) s (fractionDigits env whole) (fractionDigits env whole) := by
  have hforward := State.length_forward_le hs 1
  unfold fractionDigits
  refine .get ?_
  dsimp only
  split
  · exact .pure hs
  · split
    · exact .advance (agree_fraction hforward)
    · split
      · exact .advance (.pure hforward)
      · exact .pure hs

theorem agree_fractionDigits_of_point (whole : String) (hpoint : (s.current env).isPunct '.')
    (hdigits : (s.following env).digits?.isSome) (hs : s.rest.length ≤ n + 1) :
    Agree (AtMost n) s (fractionDigits env whole) (fractionDigits env whole) := by
  unfold fractionDigits
  refine .get ?_
  simp only [hpoint, hdigits, Bool.not_true, Bool.false_eq_true, if_false, Bool.true_or, if_true]
  exact .advance (agree_fraction (State.length_forward_one_le hs))

theorem agree_exponent (hs : s.rest.length ≤ n) : Agree (AtMost n) s exponent exponent := by
  unfold exponent
  refine .get ?_
  split
  · exact .skip (.pure (State.length_forward_le hs _))
  · exact .pure hs

/-- A number is read to its end if its whole digits and its fraction are. -/
theorem agree_number_of_parts {Q : String → State → Prop} (negative : Bool)
    (hwhole : Agree Q s (wholeDigits env) (wholeDigits env))
    (hfraction : ∀ whole t, Q whole t →
      Agree (AtMost n) t (fractionDigits env whole) (fractionDigits env whole)) :
    Agree (AtMost n) s (number env negative) (number env negative) := by
  unfold number
  refine .current (.bind hwhole fun whole t ht => ?_)
  refine .bind (hfraction whole t ht) fun fraction u hu => ?_
  refine .bind (agree_exponent hu) fun exponent v hv => ?_
  dsimp only
  split
  · exact .pure hv
  · exact .get (.record (.pure hv))

theorem agree_number (negative : Bool) (hs : s.rest.length ≤ n) :
    Agree (AtMost n) s (number env negative) (number env negative) :=
  agree_number_of_parts negative (agree_wholeDigits hs) fun whole _ ht =>
    agree_fractionDigits whole ht

/-- Where a number starts, a token is read. -/
theorem agree_number_of_startsNumber (negative : Bool) (h : startsNumber s.rest)
    (hs : s.rest.length ≤ n + 1) :
    Agree (AtMost n) s (number env negative) (number env negative) := by
  cases hrest : s.rest with
  | nil => simp [hrest, startsNumber] at h
  | cons t ts =>
    have hcurrent : s.current env = t := State.current_of_rest hrest
    simp only [hrest, startsNumber, Bool.or_eq_true, Bool.and_eq_true] at h
    by_cases hdigits : t.digits?.isSome
    · refine agree_number_of_parts negative (agree_wholeDigits_of_digits ?_ hs)
        fun whole _ ht => agree_fractionDigits whole ht
      rw [hcurrent]
      exact hdigits
    · obtain ⟨hpoint, hnext⟩ := h.resolve_left hdigits
      have hwhole : Runs (wholeDigits env) s "" s := by
        apply runs_wholeDigits_of_no_digits
        rw [hcurrent]
        exact Option.not_isSome_iff_eq_none.mp hdigits
      refine agree_number_of_parts (Q := fun _ t => t = s) negative (.refl hwhole rfl) ?_
      rintro whole _ rfl
      refine agree_fractionDigits_of_point whole (by rw [hcurrent]; exact hpoint) ?_ hs
      cases ts with
      | nil => simp at hnext
      | cons u us => simpa [State.following, hrest] using hnext

end TexFormula.Parser
