import TexFormula.Number

/-!
# Number literals

What the text of a literal says about the number that is read from it.
-/

namespace TexFormula

namespace Decimal

theorem mem_of_mem_withoutMark {c : Char} {cs : List Char} (h : c ∈ withoutMark cs) : c ∈ cs := by
  unfold withoutMark at h
  split at h
  · split at h
    · exact List.dropLast_subset cs h
    · exact h
  · exact h

theorem splitSign_of_not_mem {cs : List Char} (h : '-' ∉ cs) : (splitSign cs).1 = false := by
  unfold splitSign
  split
  · exact absurd List.mem_cons_self h
  · rfl
  · rfl

theorem negative_of_parse? {payload : String} {d : Decimal} (h : parse? payload = some d) :
    d.negative = (splitSign (withoutMark (Text.withoutBlanks payload.toList))).1 := by
  unfold parse? at h
  simp only [Option.bind_eq_bind, Option.bind_eq_some_iff] at h
  obtain ⟨exponent, -, ⟨fraction, repeating⟩, -, h⟩ := h
  split at h
  · cases h
    rfl
  · cases h

/-- A decimal without a minus sign in its text is not negative. -/
theorem negative_of_not_mem {payload : String} {d : Decimal} (h : parse? payload = some d)
    (hsign : '-' ∉ payload.toList) : d.negative = false := by
  rw [negative_of_parse? h]
  refine splitSign_of_not_mem fun hmem => hsign ?_
  exact (List.mem_filter.mp (mem_of_mem_withoutMark hmem)).1

end Decimal

namespace Number

theorem mem_of_mem_withoutPlus {c : Char} {literal : String}
    (h : c ∈ (withoutPlus literal).toList) : c ∈ literal.toList := by
  unfold withoutPlus at h
  split at h
  · next cs heq =>
    rw [String.toList_ofList] at h
    rw [heq]
    exact List.mem_cons_of_mem _ h
  · exact h

theorem isNegative_of_machine? {literal : String} {value : Double}
    (h : machine? literal = some value) (hsign : '-' ∉ literal.toList) :
    value.isNegative = false := by
  unfold machine? at h
  split at h
  · next negative m _ =>
    split at h
    · next hwrite =>
      cases h
      cases hnegative : negative && !m.isZero with
      | false => exact hnegative
      | true =>
        refine absurd ?_ hsign
        rw [← hwrite, Layout.write, String.toList_ofList]
        simp [Layout.plain, hnegative]
    · cases h
  · cases h

/-- A literal without a minus sign is not negative. -/
theorem isNegative_of_ofLiteral? {literal : String} {n : Number} (h : ofLiteral? literal = some n)
    (hsign : '-' ∉ literal.toList) : n.isNegative = false := by
  unfold ofLiteral? at h
  obtain ⟨d, hd, hn⟩ := Option.map_eq_some_iff.mp h
  have hdecimal : (Number.decimal d).isNegative = false := by
    rw [isNegative, Decimal.negative_of_not_mem hd hsign]
    rfl
  split at hn
  · split at hn
    · next value hvalue =>
      cases hn
      exact isNegative_of_machine? hvalue fun hmem => hsign (mem_of_mem_withoutPlus hmem)
    · cases hn
      exact hdecimal
  · cases hn
    exact hdecimal

/-- A literal of at most one character is no negative number. -/
theorem isNegative_of_ofLiteral?_short {cs : List Char} {n : Number} (hcs : cs.length ≤ 1)
    (h : ofLiteral? (String.ofList cs) = some n) : n.isNegative = false := by
  by_cases hsign : '-' ∈ (String.ofList cs).toList
  · rw [String.toList_ofList] at hsign
    cases cs with
    | nil => cases hsign
    | cons c rest =>
      have hrest : rest = [] := List.length_eq_zero_iff.mp (Nat.le_zero.mp (Nat.le_of_succ_le_succ hcs))
      subst hrest
      have hminus : c = '-' := (List.mem_singleton.mp hsign).symm
      subst hminus
      have hnone : Decimal.parse? (String.ofList ['-']) = none := by decide +kernel
      rw [ofLiteral?, hnone] at h
      cases h
  · exact isNegative_of_ofLiteral? h hsign

end Number

end TexFormula
