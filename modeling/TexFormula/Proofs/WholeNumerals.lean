import TexFormula.Proofs.DoubleTexts

/-!
# Whole numbers as numerals

A whole double is written by its digits in groups of three (`write_machine`), and a literal of
digits, perhaps with an exponent, is read as the number it denotes (`ofLiteral?_digits`).
-/

namespace TexFormula

/-! ### Writing -/

/-- Before the marker stand the digits of the whole number, and nothing behind it. -/
theorem Scientific.split_ofCoefficient {c : Nat} (hc : 0 < c) (e : Nat) :
    (Scientific.ofCoefficient c e).split (Scientific.ofCoefficient c e).exponent =
      (Digits.ofNat (c * tenPow e), []) := by
  have hfilled := Digits.withoutTrailingZeros_append_zeros (Digits.ofNat c)
  have hlength := congrArg List.length hfilled
  rw [List.length_append, Digits.zeros, List.length_replicate] at hlength
  generalize hdigits : Digits.withoutTrailingZeros (Digits.ofNat c) = digits at *
  have hexponent : (Scientific.ofCoefficient c e).exponent + 1 =
      ((e + (Digits.ofNat c).length : Nat) : Int) := by
    rw [ofCoefficient]
    dsimp only
    omega
  have hpos := Digits.length_ofNat_pos c
  have hle : digits.length ≤ e + (Digits.ofNat c).length := by omega
  have hzeros : Digits.zeros (e + (Digits.ofNat c).length - digits.length) =
      Digits.zeros ((Digits.ofNat c).length - digits.length) ++ Digits.zeros e := by
    rw [Digits.zeros, Digits.zeros, Digits.zeros, ← List.replicate_add]
    congr 1
    omega
  unfold split
  rw [hexponent, if_neg (by omega), Int.toNat_natCast]
  rw [show (ofCoefficient c (e : Int)).digits = digits from hdigits, List.take_of_length_le hle,
    List.drop_of_length_le hle, hzeros, ← List.append_assoc,
    hfilled, Digits.ofNat_mul_tenPow hc]

theorem Scientific.exponent_ofCoefficient_lt {c e : Nat} (hc : 0 < c)
    (h : c * tenPow e < tenPow 15) : (Scientific.ofCoefficient c e).exponent < 21 := by
  have hdigits := (Digits.length_ofNat_le_iff (by decide)).mpr h
  rw [Digits.ofNat_mul_tenPow hc, List.length_append, Digits.zeros, List.length_replicate] at hdigits
  rw [ofCoefficient]
  dsimp only
  omega

namespace NumberFormat

/-- The digits of a whole number as they are written. -/
def grouped (n : Nat) : List Char :=
  ({} : NumberFormat).whole (Digits.ofNat n)

theorem assemble_whole (negative : Bool) (digits : List Char) :
    ({} : NumberFormat).assemble negative digits [] [] none =
      (if negative then ['-'] else []) ++ ({} : NumberFormat).whole digits := by
  have hfraction : ({} : NumberFormat).shortFraction [] = [] := by decide
  simp [assemble, hfraction]

theorem scientific_of_whole {s : Scientific} {digits : List Char} (negative : Bool)
    (hlow : -7 < s.exponent) (hhigh : s.exponent < 21) (hsplit : s.split s.exponent = (digits, [])) :
    ({} : NumberFormat).scientific negative s =
      (if negative then ['-'] else []) ++ ({} : NumberFormat).whole digits := by
  have hshift : ({} : NumberFormat).shift s.exponent = s.exponent := if_pos ⟨hlow, hhigh⟩
  unfold scientific
  simp only [hshift, hsplit, Int.sub_self, if_true]
  exact assemble_whole negative digits

/-- A whole double is written by its digits. -/
theorem write_machine {m : Magnitude} {n : Nat} (h : m.toNat? = some n) (hsmall : n < tenPow 15)
    (negative : Bool) :
    ({} : NumberFormat).write (.machine (.finite negative m)) =
      String.ofList ((if negative && n != 0 then ['-'] else []) ++ grouped n) := by
  have hzero := Magnitude.isZero_of_toNat? h
  have hsign : (negative && !m.isZero) = (negative && n != 0) := by rw [hzero]; rfl
  unfold write double grouped
  simp only
  rw [hsign]
  congr 1
  rcases Nat.eq_zero_or_pos n with rfl | hn
  · rw [Magnitude.shortest, hzero, if_pos (beq_self_eq_true 0)]
    exact scientific_of_whole _ (by decide) (by decide) rfl
  · obtain ⟨t, hwhole⟩ := Magnitude.isWhole_of_toNat? h hsmall
    obtain ⟨c, e, hvalue, hshortest⟩ := Magnitude.exists_shortest_eq hwhole hn hsmall .upward
    have hc : 0 < c := by
      refine Nat.pos_of_ne_zero fun hc => ?_
      rw [hc, Nat.zero_mul] at hvalue
      omega
    have hhigh := Scientific.exponent_ofCoefficient_lt hc (hvalue ▸ hsmall)
    have hlow : -7 < (Scientific.ofCoefficient c e).exponent := by
      have := Digits.length_ofNat_pos c
      rw [Scientific.ofCoefficient]
      dsimp only
      omega
    rw [hshortest, ← hvalue]
    exact scientific_of_whole _ hlow hhigh (Scientific.split_ofCoefficient hc e)

end NumberFormat

/-! ### Reading -/

/-- The characters of a numeral: perhaps a minus sign, digits, and perhaps a power of ten. -/
def numeral (negative : Bool) (digits : List Char) (exponent : Option Nat) : List Char :=
  (if negative then ['-'] else []) ++ (digits ++ (exponent.map fun k => 'e' :: Digits.ofNat k).getD [])

theorem isDigit_of_mem_numeral {negative : Bool} {digits : List Char} {exponent : Option Nat}
    (h : ∀ c ∈ digits, c.isDigit = true) :
    ∀ c ∈ numeral negative digits exponent, c.isDigit = true ∨ c = '-' ∨ c = 'e' := by
  intro c hc
  rw [numeral, List.mem_append, List.mem_append] at hc
  rcases hc with hc | hc | hc
  · split at hc
    · exact .inr (.inl (List.mem_singleton.mp hc))
    · cases hc
  · exact .inl (h c hc)
  · cases exponent with
    | none => cases hc
    | some k =>
      rcases List.mem_cons.mp hc with rfl | hc
      · exact .inr (.inr rfl)
      · exact .inl (Digits.isDigit_of_mem_ofNat c hc)

/-- A numeral ends in a digit. -/
theorem isDigit_getLast_numeral {negative : Bool} {digits : List Char} {exponent : Option Nat}
    (hne : digits ≠ []) (h : ∀ c ∈ digits, c.isDigit = true) :
    ∀ c ∈ (numeral negative digits exponent).getLast?, c.isDigit = true := by
  intro c hc
  rw [numeral, List.getLast?_append_of_ne_nil _ (by simp [hne])] at hc
  cases exponent with
  | none =>
    rw [Option.map_none, Option.getD_none, List.append_nil] at hc
    exact h c (List.mem_of_getLast? hc)
  | some k =>
    rw [Option.map_some, Option.getD_some, List.getLast?_append_of_ne_nil _ (List.cons_ne_nil _ _),
      List.getLast?_cons_of_ne_nil (Digits.ofNat_ne_nil k)] at hc
    exact Digits.isDigit_of_mem_ofNat c (List.mem_of_getLast? hc)

namespace Decimal

theorem splitSign_numeral {negative : Bool} {digits : List Char} {exponent : Option Nat}
    (hne : digits ≠ []) (h : ∀ c ∈ digits, c.isDigit = true) :
    splitSign (numeral negative digits exponent) = (negative, numeral false digits exponent) := by
  cases negative with
  | true => rfl
  | false =>
    cases digits with
    | nil => exact absurd rfl hne
    | cons d ds =>
      have hd := h d List.mem_cons_self
      have hminus := Digits.ne_of_isDigit hd (d := '-') rfl
      have hplus := Digits.ne_of_isDigit hd (d := '+') rfl
      show splitSign (d :: (ds ++ _)) = (false, d :: (ds ++ _))
      unfold splitSign
      split
      · next heq => exact absurd (List.cons.inj heq).1 hminus
      · next heq => exact absurd (List.cons.inj heq).1 hplus
      · rfl

theorem withoutMark_of_getLast {cs : List Char} (h : ∀ c ∈ cs.getLast?, c.isDigit = true) :
    withoutMark cs = cs := by
  unfold withoutMark
  split
  · next c hc =>
    have hdigit := h c hc
    have hn := beq_false_of_ne (Digits.ne_of_isDigit hdigit (d := 'n') rfl)
    have hd := beq_false_of_ne (Digits.ne_of_isDigit hdigit (d := 'd') rfl)
    rw [hn, hd]
    rfl
  · rfl

/-- A numeral is the decimal of its parts. -/
theorem parse?_numeral {negative : Bool} {digits : List Char} {exponent : Option Nat}
    (hne : digits ≠ []) (h : ∀ c ∈ digits, c.isDigit = true) (hexponent : ∀ k ∈ exponent, k < 1000) :
    parse? (String.ofList (numeral negative digits exponent)) =
      some { negative, whole := String.ofList digits, exponent := exponent.map Int.ofNat } := by
  have hblanks : Text.withoutBlanks (numeral negative digits exponent) =
      numeral negative digits exponent := by
    refine Text.withoutBlanks_of_forall fun c hc => ?_
    rcases isDigit_of_mem_numeral h c hc with hdigit | rfl | rfl
    · exact Text.isBlank_of_isDigit hdigit
    · rfl
    · rfl
  have hpower : ∀ c ∈ digits, (c == 'e' || c == 'E') = false := by
    intro c hc
    rw [beq_false_of_ne (Digits.ne_of_isDigit (h c hc) (d := 'e') rfl),
      beq_false_of_ne (Digits.ne_of_isDigit (h c hc) (d := 'E') rfl)]
    rfl
  have hpoint : ∀ c ∈ digits, (c == '.') = false := fun c hc =>
    beq_false_of_ne (Digits.ne_of_isDigit (h c hc) rfl)
  have hmantissa : splitAt (fun c => c == 'e' || c == 'E') (numeral false digits exponent) =
      (digits, exponent.map Digits.ofNat) := by
    cases exponent with
    | none =>
      show splitAt _ (digits ++ []) = _
      rw [List.append_nil]
      exact splitAt_of_forall hpower
    | some k => exact splitAt_append hpower rfl
  have hvalue : exponent? (exponent.map Digits.ofNat) = some (exponent.map Int.ofNat) := by
    cases exponent with
    | none => rfl
    | some k =>
      have hk := hexponent k rfl
      have hfits : fitsWord (k : Int) = true := by
        rw [fitsWord, Bool.and_eq_true, decide_eq_true_eq, decide_eq_true_eq]
        have : (1000 : Int) < twoPow 63 := by decide
        omega
      show Option.map some (Option.filter _ (Digits.int? (Digits.ofNat k))) = _
      rw [Digits.int?_of_areDigits (Digits.ofNat_ne_nil k) (Digits.areDigits_ofNat k),
        Digits.value_ofNat, Option.filter_some, hfits]
      rfl
  have hdigits : Digits.areDigits digits = true := List.all_eq_true.mpr h
  unfold parse?
  rw [String.toList_ofList, hblanks, withoutMark_of_getLast (isDigit_getLast_numeral hne h),
    splitSign_numeral hne h]
  simp only [hmantissa, hvalue, splitAt_of_forall hpoint, Option.bind_eq_bind, Option.bind_some,
    Option.getD_none]
  have hfraction : splitFraction? [] = some ([], []) := rfl
  rw [hfraction]
  simp only [hdigits, List.isEmpty_eq_false_iff.mpr hne]
  rfl

end Decimal

/-! ### Doubles with a power of ten -/

namespace Layout

theorem not_mem_positional {s : Scientific} (h : ∀ c ∈ s.digits, c.isDigit = true) :
    'e' ∉ plain.positional s := by
  have hdigits : 'e' ∉ s.digits := fun hc => absurd (h 'e' hc) (by decide)
  have hzeros : ∀ n, 'e' ∉ Digits.zeros n := fun n hc =>
    absurd (List.eq_of_mem_replicate hc) (by decide)
  have htake : ∀ n, 'e' ∉ s.digits.take n := fun n hc => hdigits (List.mem_of_mem_take hc)
  have hdrop : ∀ n, 'e' ∉ s.digits.drop n := fun n hc => hdigits (List.mem_of_mem_drop hc)
  unfold positional
  split
  · simp [hdigits, hzeros]
  · dsimp only
    split
    · simp [hdigits, hzeros, plain]
    · simp [htake, hdrop]

/-- The letter before an exponent has a sign behind it. -/
theorem dropWhile_withPower {s : Scientific} (h : ∀ c ∈ s.digits, c.isDigit = true) {sign : List Char}
    (hsign : 'e' ∉ sign) :
    ∃ c cs, (sign ++ plain.withPower s).dropWhile (· != 'e') = 'e' :: c :: cs ∧
      c.isDigit = false := by
  have hdigits : 'e' ∉ s.digits := fun hc => absurd (h 'e' hc) (by decide)
  have hmantissa : ∀ c ∈ sign ++ (s.digits.take 1 ++
      (if s.digits.length ≤ 1 then [] else '.' :: s.digits.drop 1)), (c != 'e') = true := by
    intro c hc
    rw [bne_iff_ne]
    rintro rfl
    rcases List.mem_append.mp hc with hc | hc
    · exact hsign hc
    · rcases List.mem_append.mp hc with hc | hc
      · exact hdigits (List.mem_of_mem_take hc)
      · split at hc
        · cases hc
        · rcases List.mem_cons.mp hc with hc | hc
          · cases hc
          · exact hdigits (List.mem_of_mem_drop hc)
  unfold withPower
  dsimp only
  rw [← List.append_assoc, Text.dropWhile_append hmantissa rfl]
  split
  · exact ⟨'-', _, rfl, rfl⟩
  · exact ⟨'+', _, rfl, rfl⟩

/-- No double is written with a power of ten that has no sign. -/
theorem write_ne_numeral {negative : Bool} {digits : List Char} (h : ∀ c ∈ digits, c.isDigit = true)
    (k : Nat) (sign : Bool) (m : Magnitude) :
    plain.write (.finite sign m) ≠ String.ofList (numeral negative digits (some k)) := by
  intro heq
  have hlist := congrArg String.toList heq
  rw [write, String.toList_ofList, String.toList_ofList] at hlist
  have hpower : (numeral negative digits (some k)).dropWhile (· != 'e') = 'e' :: Digits.ofNat k := by
    have hmantissa : ∀ c ∈ (if negative then ['-'] else []) ++ digits, (c != 'e') = true := by
      intro c hc
      rw [bne_iff_ne]
      rintro rfl
      rcases List.mem_append.mp hc with hc | hc
      · split at hc
        · exact absurd (List.mem_singleton.mp hc) (by decide)
        · cases hc
      · exact absurd (h 'e' hc) (by decide)
    rw [numeral, ← List.append_assoc]
    exact Text.dropWhile_append hmantissa rfl
  have hminus : 'e' ∉ (if sign && (plain.signedZero || !m.isZero) then ['-'] else []) := by
    split
    · decide
    · exact List.not_mem_nil
  generalize (if sign && (plain.signedZero || !m.isZero) then ['-'] else []) = front at hlist hminus
  have hshortest : ∀ c ∈ (m.shortest plain.tie).digits, c.isDigit = true :=
    m.isDigit_of_mem_shortest
  unfold magnitude at hlist
  dsimp only at hlist
  split at hlist
  · have hmem : 'e' ∈ numeral negative digits (some k) := by simp [numeral]
    rw [← hlist] at hmem
    rcases List.mem_append.mp hmem with hmem | hmem
    · exact hminus hmem
    · exact not_mem_positional hshortest hmem
  · obtain ⟨c, cs, hdrop, hdigit⟩ := dropWhile_withPower hshortest hminus
    rw [hlist, hpower] at hdrop
    have hc : c ∈ Digits.ofNat k := by
      rw [(List.cons.inj hdrop).2]
      exact List.mem_cons_self
    rw [Digits.isDigit_of_mem_ofNat c hc] at hdigit
    cases hdigit

end Layout

/-! ### Literals -/

namespace Double

/-- The digits of a whole number below 10^15 are read as just this number. -/
theorem ofText?_numeral {n : Nat} (hsmall : n < tenPow 15) (negative : Bool) :
    ∃ m : Magnitude, m.toNat? = some n ∧
      ofText? (String.ofList (numeral negative (Digits.ofNat n) none)) =
        some (.finite negative m) := by
  obtain ⟨m, hm, hvalue⟩ := ofDecimal_zero_exponent hsmall negative
  refine ⟨m, hvalue, ?_⟩
  have hdigits : ∀ c ∈ Digits.ofNat n, c.isDigit = true := Digits.isDigit_of_mem_ofNat
  have hunsigned : unsignedOfText? negative (Digits.ofNat n) = some (.finite negative m) := by
    have htake := Text.takeWhile_append (r := []) hdigits rfl
    have hdrop := Text.dropWhile_append (r := []) hdigits rfl
    rw [List.append_nil] at htake hdrop
    unfold unsignedOfText?
    simp only [htake, hdrop, List.isEmpty_eq_false_iff.mpr (Digits.ofNat_ne_nil n), List.append_nil,
      Digits.value_ofNat, Bool.false_and, Bool.false_eq_true, if_false]
    rw [show exponentOfText? [] = some 0 from rfl, Option.map_some]
    exact congrArg some hm
  have hname : special? negative (Digits.ofNat n) = none := by
    cases hcs : Digits.ofNat n with
    | nil => exact absurd hcs (Digits.ofNat_ne_nil n)
    | cons c cs => exact special?_of_isDigit (hdigits c (hcs ▸ List.mem_cons_self)) negative
  rw [ofText?_eq, String.toList_ofList,
    Decimal.splitSign_numeral (Digits.ofNat_ne_nil n) hdigits]
  have hplain : numeral false (Digits.ofNat n) none = Digits.ofNat n := List.append_nil _
  rw [hplain, hname, hunsigned]
  rfl

end Double

namespace Number

theorem withoutPlus_numeral {negative : Bool} {digits : List Char} {exponent : Option Nat}
    (hne : digits ≠ []) (h : ∀ c ∈ digits, c.isDigit = true) :
    withoutPlus (String.ofList (numeral negative digits exponent)) =
      String.ofList (numeral negative digits exponent) := by
  unfold withoutPlus
  rw [String.toList_ofList]
  split
  · next cs heq =>
    exfalso
    cases negative with
    | true => cases heq
    | false =>
      cases digits with
      | nil => exact hne rfl
      | cons c cs =>
        exact Digits.ne_of_isDigit (h c List.mem_cons_self) rfl (List.cons.inj heq).1
  · rfl

theorem machine?_numeral {negative : Bool} {n : Nat} (hsmall : n < tenPow 15)
    {exponent : Option Nat} {value : Double}
    (h : machine? (String.ofList (numeral negative (Digits.ofNat n) exponent)) = some value) :
    value.value? = some (signed negative (n * 10 ^ exponent.getD 0)) := by
  unfold machine? at h
  cases exponent with
  | none =>
    obtain ⟨m, hm, htext⟩ := Double.ofText?_numeral hsmall negative
    rw [htext] at h
    simp only at h
    split at h
    · cases h
      rw [Double.value?, Magnitude.value_eq_of_toNat? hm, Option.getD_none, pow_zero, mul_one]
    · cases h
  | some k =>
    split at h
    · next sign m _ =>
      rw [if_neg (Layout.write_ne_numeral Digits.isDigit_of_mem_ofNat k sign m)] at h
      cases h
    · cases h

/-- A literal of digits and perhaps an exponent is read as the number it denotes. -/
theorem ofLiteral?_numeral {n : Nat} (hsmall : n < tenPow 15) (negative : Bool)
    {exponent : Option Nat} (hexponent : ∀ k ∈ exponent, k < 1000) :
    ∃ value, ofLiteral? (String.ofList (numeral negative (Digits.ofNat n) exponent)) = some value ∧
      value.value? = some (signed negative (n * 10 ^ exponent.getD 0)) := by
  have hdigits : ∀ c ∈ Digits.ofNat n, c.isDigit = true := Digits.isDigit_of_mem_ofNat
  have hdecimal : (Decimal.value
      { negative, whole := String.ofList (Digits.ofNat n), exponent := exponent.map Int.ofNat }) =
      signed negative (n * 10 ^ exponent.getD 0) := by
    have hcycle : Digits.value [] = 0 := rfl
    cases exponent <;> simp [Decimal.value, hcycle]
  unfold ofLiteral?
  rw [Decimal.parse?_numeral (Digits.ofNat_ne_nil n) hdigits hexponent, Option.map_some,
    withoutPlus_numeral (Digits.ofNat_ne_nil n) hdigits]
  simp only [if_true]
  cases hmachine : machine? (String.ofList (numeral negative (Digits.ofNat n) exponent)) with
  | none => exact ⟨_, rfl, congrArg some hdecimal⟩
  | some value => exact ⟨_, rfl, machine?_numeral hsmall hmachine⟩

end Number

end TexFormula
