import Mathlib.Data.List.TakeWhile
import TexFormula.Number.Digits

/-!
# Digit runs and the numbers they stand for

`Digits.value` reads what `Digits.ofNat` writes, and zeros at the end of a run multiply by ten.
-/

namespace TexFormula.Digits

theorem value_eq_ofDigitChars (cs : List Char) : value cs = Nat.ofDigitChars 10 cs 0 := rfl

@[simp] theorem value_ofNat (n : Nat) : value (ofNat n) = n :=
  Nat.ofDigitChars_ten_toDigits

theorem isDigit_of_mem_ofNat {n : Nat} : ∀ c ∈ ofNat n, c.isDigit = true :=
  fun _ hc => Nat.isDigit_of_mem_toDigits (by decide) (by decide) hc

theorem areDigits_ofNat (n : Nat) : areDigits (ofNat n) = true :=
  List.all_eq_true.mpr isDigit_of_mem_ofNat

theorem ofNat_ne_nil (n : Nat) : ofNat n ≠ [] :=
  Nat.toDigits_ne_nil

theorem length_ofNat_pos (n : Nat) : 0 < (ofNat n).length :=
  Nat.length_toDigits_pos

theorem length_ofNat_le_iff {n k : Nat} (hk : 0 < k) : (ofNat n).length ≤ k ↔ n < tenPow k :=
  Nat.length_toDigits_le_iff (by decide) hk

theorem value_append (cs ds : List Char) :
    value (cs ++ ds) = value cs * tenPow ds.length + value ds := by
  rw [value_eq_ofDigitChars, value_eq_ofDigitChars, value_eq_ofDigitChars, Nat.ofDigitChars_append,
    Nat.ofDigitChars_eq_ofDigitChars_zero, Nat.mul_comm]
  rfl

theorem value_append_zeros (cs : List Char) (k : Nat) :
    value (cs ++ zeros k) = value cs * tenPow k := by
  rw [value_eq_ofDigitChars, value_eq_ofDigitChars, zeros, Nat.ofDigitChars_append,
    Nat.ofDigitChars_replicate_zero, Nat.mul_comm]
  rfl

theorem ofNat_mul_tenPow {n : Nat} (hn : 0 < n) (k : Nat) :
    ofNat (n * tenPow k) = ofNat n ++ zeros k := by
  induction k with
  | zero =>
    rw [show tenPow 0 = 1 from rfl, Nat.mul_one]
    exact (List.append_nil _).symm
  | succ k ih =>
    have hpos : 0 < n * tenPow k := Nat.mul_pos hn (tenPow_pos k)
    have hstep := Nat.toDigits_append_toDigits (d := 0) (by decide : 1 < 10) hpos (by decide)
    rw [Nat.add_zero, Nat.toDigits_zero] at hstep
    rw [tenPow_succ, ← Nat.mul_assoc, Nat.mul_comm _ 10]
    show Nat.toDigits 10 _ = _
    rw [← hstep]
    show ofNat (n * tenPow k) ++ ['0'] = _
    rw [ih, List.append_assoc, zeros, zeros, List.replicate_succ']

/-- The zeros taken off the end of a run fill it up again. -/
theorem withoutTrailingZeros_append_zeros (cs : List Char) :
    withoutTrailingZeros cs ++ zeros (cs.length - (withoutTrailingZeros cs).length) = cs := by
  have hsplit := List.takeWhile_append_dropWhile (p := (· == '0')) (l := cs.reverse)
  have hzeros : cs.reverse.takeWhile (· == '0') =
      zeros (cs.length - (withoutTrailingZeros cs).length) := by
    refine List.eq_replicate_iff.mpr ⟨?_, fun c hc => ?_⟩
    · have hlength := congrArg List.length hsplit
      rw [List.length_append, List.length_reverse] at hlength
      rw [withoutTrailingZeros, List.length_reverse]
      omega
    · have hzero := List.mem_takeWhile_imp hc
      exact eq_of_beq hzero
  have hreverse := congrArg List.reverse hsplit
  rw [List.reverse_append, List.reverse_reverse, hzeros, zeros, List.reverse_replicate] at hreverse
  exact hreverse

/-- A digit run without a sign is read as it is. -/
theorem int?_of_areDigits {cs : List Char} (hne : cs ≠ []) (h : areDigits cs = true) :
    int? cs = some (value cs : Int) := by
  have hvalue : value? cs = some (value cs) := by
    rw [value?, h, List.isEmpty_eq_false_iff.mpr hne]
    rfl
  unfold int?
  split
  · simp [areDigits] at h
  · simp [areDigits] at h
  · rw [hvalue]
    rfl

end TexFormula.Digits
