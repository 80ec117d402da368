import Mathlib.Data.List.PeriodicityLemma
import Mathlib.Order.Bounds.Basic
import TexFormula.Number.Format

/-!
# Cycles of digits

`IsCycle digits precision offset period` says that the digits from `offset` on repeat in a way that
counts as a cycle. `findCycle?` finds the first one (`IsFirstCycle`) if there is any, in the digits
without the last one (`findCycle?_eq_some_iff`). Being the first one makes it canonical: it is no block
that repeats itself, and the digits in front of it cannot be rolled into it (`findCycle?_canonical`).
-/

namespace TexFormula.NumberFormat

variable {digits before cycle : List Char} {precision offset period : Nat}

/-- The digits repeat with the period, twice at least. -/
structure Recurs (digits : List Char) (precision period : Nat) : Prop where
  pos : 1 ≤ period
  le : period ≤ precision + 2
  twice : 2 * period ≤ digits.length
  hasPeriod : digits.HasPeriod period

/-- From `offset` on there are enough digits, and they repeat with the period to the end. -/
structure IsCycle (digits : List Char) (precision offset period : Nat) : Prop where
  enough : max precision 1 ≤ (digits.drop offset).length
  recurs : Recurs (digits.drop offset) precision period

/-- The cycle with the fewest digits in front of it, and of those the one with the least period. -/
structure IsFirstCycle (digits : List Char) (precision offset period : Nat) : Prop where
  fewest : IsLeast {o | ∃ p, IsCycle digits precision o p} offset
  shortest : IsLeast {p | IsCycle digits precision offset p} period

/-! ### The two searches -/

theorem repeats_iff_hasPeriod : repeats digits period = true ↔ digits.HasPeriod period := by
  rw [repeats, List.isPrefixOf_iff_prefix, List.HasPeriod,
    ← List.prefix_append_right_inj (digits.take period), List.take_append_drop]

theorem period?_eq_some_iff :
    period? digits precision = some period ↔ IsLeast {p | Recurs digits precision p} period := by
  simp only [period?, List.find?_map, Option.map_eq_some_iff, List.find?_range_eq_some, List.mem_range,
    Function.comp_apply, Bool.not_eq_true', ← Bool.not_eq_true, repeats_iff_hasPeriod]
  constructor
  · rintro ⟨n, ⟨hperiod, hn, hleast⟩, rfl⟩
    refine ⟨⟨by omega, by omega, by omega, hperiod⟩, fun p hp => ?_⟩
    by_contra hlt
    have hpos := hp.pos
    refine hleast (p - 1) (by omega) ?_
    rw [Nat.sub_add_cancel hpos]
    exact hp.hasPeriod
  · rintro ⟨⟨hpos, hle, htwice, hperiod⟩, hleast⟩
    obtain ⟨n, rfl⟩ := Nat.exists_eq_add_of_le' hpos
    refine ⟨n, ⟨hperiod, by omega, fun p hp hrepeats => ?_⟩, rfl⟩
    have hle' : n + 1 ≤ p + 1 := hleast ⟨by omega, by omega, by omega, hrepeats⟩
    omega

theorem period?_eq_none_iff :
    period? digits precision = none ↔ ∀ p, ¬ Recurs digits precision p := by
  constructor
  · intro hnone p hp
    classical
    have hfound := period?_eq_some_iff.mpr (Nat.isLeast_find ⟨p, hp⟩)
    rw [hnone] at hfound
    cases hfound
  · intro h
    refine Option.eq_none_iff_forall_not_mem.mpr fun p hp => ?_
    exact h p (period?_eq_some_iff.mp hp).1

theorem findSome?_range_eq_some_iff {β : Type} {f : Nat → Option β} {n : Nat} {b : β} :
    (List.range n).findSome? f = some b ↔ ∃ i < n, f i = some b ∧ ∀ j < i, f j = none := by
  induction n with
  | zero => simp
  | succ n ih =>
    rw [List.range_succ, List.findSome?_append, Option.or_eq_some_iff, ih,
      List.findSome?_eq_none_iff]
    constructor
    · rintro (⟨i, hi, hb, hnone⟩ | ⟨hnone, hb⟩)
      · exact ⟨i, by omega, hb, hnone⟩
      · exact ⟨n, by omega, by simpa using hb, fun j hj => hnone j (List.mem_range.mpr hj)⟩
    · rintro ⟨i, hi, hb, hnone⟩
      rcases Nat.lt_succ_iff_lt_or_eq.mp hi with hlt | rfl
      · exact .inl ⟨i, hlt, hb, hnone⟩
      · exact .inr ⟨fun j hj => hnone j (List.mem_range.mp hj), by simpa using hb⟩

theorem lt_range_iff : offset < digits.length + 1 - max precision 1 ↔
    max precision 1 ≤ (digits.drop offset).length := by
  rw [List.length_drop]
  omega

theorem findCycle?_eq_some_iff :
    findCycle? digits precision = some (before, cycle) ↔
      ∃ offset period, IsFirstCycle digits.dropLast precision offset period ∧
        before = digits.dropLast.take offset ∧
        cycle = (digits.dropLast.drop offset).take period := by
  rw [List.dropLast_eq_take]
  simp only [findCycle?, findSome?_range_eq_some_iff, Option.map_eq_some_iff, Prod.mk.injEq,
    Option.map_eq_none_iff, period?_eq_none_iff, lt_range_iff]
  generalize digits.take (digits.length - 1) = candidate
  constructor
  · rintro ⟨offset, henough, ⟨period, hperiod, rfl, rfl⟩, hnone⟩
    obtain ⟨hrecurs, hleast⟩ := period?_eq_some_iff.mp hperiod
    refine ⟨offset, period, ⟨⟨⟨period, henough, hrecurs⟩, ?_⟩, ⟨henough, hrecurs⟩, ?_⟩, rfl, rfl⟩
    · rintro o ⟨p, hcycle⟩
      by_contra hlt
      exact hnone o (Nat.lt_of_not_le hlt) p hcycle.recurs
    · exact fun p hcycle => hleast hcycle.recurs
  · rintro ⟨offset, period, ⟨⟨-, hfirst⟩, hcycle, hleast⟩, rfl, rfl⟩
    have henough := hcycle.enough
    refine ⟨offset, henough, ⟨period, ?_, rfl, rfl⟩, fun o ho p hrecurs => ?_⟩
    · exact period?_eq_some_iff.mpr ⟨hcycle.recurs, fun p hp => hleast ⟨henough, hp⟩⟩
    · have henough' : max precision 1 ≤ (candidate.drop o).length := by
        rw [List.length_drop] at henough ⊢
        omega
      exact Nat.not_lt.mpr (hfirst ⟨p, henough', hrecurs⟩) ho

/-- Where there is a cycle, there is a first one. -/
theorem IsCycle.exists_isFirstCycle (h : IsCycle digits precision offset period) :
    ∃ o p, IsFirstCycle digits precision o p := by
  classical
  have hsome : ∃ o p, IsCycle digits precision o p := ⟨offset, period, h⟩
  have hfewest := Nat.isLeast_find hsome
  have hperiod : ∃ p, IsCycle digits precision (Nat.find hsome) p := hfewest.1
  exact ⟨_, _, hfewest, Nat.isLeast_find hperiod⟩

theorem findCycle?_eq_none_iff :
    findCycle? digits precision = none ↔
      ∀ offset period, ¬ IsCycle digits.dropLast precision offset period := by
  constructor
  · intro hnone offset period hcycle
    obtain ⟨o, p, hfirst⟩ := hcycle.exists_isFirstCycle
    have hfound := findCycle?_eq_some_iff.mpr ⟨o, p, hfirst, rfl, rfl⟩
    rw [hnone] at hfound
    cases hfound
  · intro h
    refine Option.eq_none_iff_forall_not_mem.mpr fun (before, cycle) hfound => ?_
    obtain ⟨offset, period, hfirst, -⟩ := findCycle?_eq_some_iff.mp hfound
    exact h offset period hfirst.shortest.1

/-! ### The first cycle -/

theorem hasPeriod_flatten_replicate (block : List Char) (n : Nat) :
    (List.replicate n block).flatten.HasPeriod block.length := by
  cases n with
  | zero => exact List.hasPeriod_empty _
  | succ n =>
    rw [List.HasPeriod]
    conv_lhs => rw [List.replicate_succ, List.flatten_cons]
    rw [List.replicate_succ, List.flatten_cons, List.take_left, List.prefix_append_right_inj,
      ← List.flatten_cons, ← List.replicate_succ, List.replicate_succ', List.flatten_append]
    exact List.prefix_append _ _

/-- A period of the block that is repeated is one of the whole, if it fills up the block. -/
theorem hasPeriod_of_take {n : Nat} (h : digits.HasPeriod period)
    (hblock : (digits.take period).HasPeriod n) (hdvd : n ∣ period) (hpos : 0 < period) :
    digits.HasPeriod n := by
  rw [List.hasPeriod_iff_forall_getElem?_mod]
  intro i hi
  have hmod : i % period < period := Nat.mod_lt i hpos
  have hmod' : i % n < period := by
    have hle := Nat.le_of_dvd hpos hdvd
    have hn : 0 < n := Nat.pos_of_dvd_of_pos hdvd hpos
    exact Nat.lt_of_lt_of_le (Nat.mod_lt i hn) hle
  have hlength : i % period < (digits.take period).length := by
    rw [List.length_take]
    exact Nat.lt_min.mpr ⟨hmod, Nat.lt_of_le_of_lt (Nat.mod_le i period) hi⟩
  calc digits[i]? = digits[i % period]? := (h.getElem?_mod period i digits hi).symm
    _ = (digits.take period)[i % period]? := (List.getElem?_take_of_lt hmod).symm
    _ = (digits.take period)[i % period % n]? := (hblock.getElem?_mod n _ _ hlength).symm
    _ = (digits.take period)[i % n]? := by rw [Nat.mod_mod_of_dvd i hdvd]
    _ = digits[i % n]? := List.getElem?_take_of_lt hmod'

theorem IsFirstCycle.length_cycle (h : IsFirstCycle digits precision offset period) :
    ((digits.drop offset).take period).length = period := by
  have htwice := h.shortest.1.recurs.twice
  rw [List.length_take]
  omega

/-- The first cycle is no repetition of a shorter block. -/
theorem IsFirstCycle.ne_flatten_replicate (h : IsFirstCycle digits precision offset period)
    {block : List Char} (hshort : block.length < period) (n : Nat) :
    (digits.drop offset).take period ≠ (List.replicate n block).flatten := by
  intro heq
  obtain ⟨henough, hpos, hle, htwice, hperiod⟩ := h.shortest.1
  have hlength : period = n * block.length := by
    rw [← h.length_cycle, heq, List.length_flatten, List.map_replicate,
      List.sum_replicate_nat]
  have hdvd : block.length ∣ period := hlength ▸ Nat.dvd_mul_left _ n
  have hblock : (digits.drop offset).HasPeriod block.length :=
    hasPeriod_of_take hperiod (heq ▸ hasPeriod_flatten_replicate block n) hdvd hpos
  have hleast := h.shortest.2 (⟨henough, Nat.pos_of_dvd_of_pos hdvd hpos, by omega, by omega, hblock⟩ :
    IsCycle digits precision offset block.length)
  omega

/-- A cycle rolls back over a digit in front of it that is the last one of the cycle. -/
theorem hasPeriod_cons {c : Char} (h : digits.HasPeriod period) (hpos : 0 < period)
    (hlast : digits[period - 1]? = some c) : (c :: digits).HasPeriod period := by
  rw [List.hasPeriod_iff_getElem?] at h ⊢
  intro i hi
  obtain ⟨p, rfl⟩ : ∃ p, period = p + 1 := ⟨period - 1, by omega⟩
  rw [List.length_cons] at hi
  cases i with
  | zero => simpa using hlast.symm
  | succ i =>
    rw [List.getElem?_cons_succ, Nat.add_right_comm i 1 (p + 1), List.getElem?_cons_succ]
    exact h i (by omega)

theorem IsFirstCycle.getLast?_ne (h : IsFirstCycle digits precision offset period)
    (hoffset : digits.take offset ≠ []) :
    (digits.take offset).getLast? ≠ ((digits.drop offset).take period).getLast? := by
  intro heq
  obtain ⟨henough, hpos, hle, htwice, hperiod⟩ := h.shortest.1
  obtain ⟨o, rfl⟩ : ∃ o, offset = o + 1 :=
    Nat.exists_eq_add_one_of_ne_zero fun hzero => hoffset (by rw [hzero, List.take_zero])
  have ho : o < digits.length := by
    rw [List.length_drop] at henough
    omega
  have hfront : (digits.take (o + 1)).getLast? = some digits[o] := by
    rw [List.take_add_one, List.getElem?_eq_getElem ho]
    exact List.getLast?_concat
  have hback : (digits.drop (o + 1))[period - 1]? = some digits[o] := by
    rw [← hfront, heq, List.getLast?_eq_getElem?, h.length_cycle,
      List.getElem?_take_of_lt (by omega)]
  have hcons : digits.drop o = digits[o] :: digits.drop (o + 1) := List.drop_eq_getElem_cons ho
  have hrolled : IsCycle digits precision o period := by
    refine ⟨?_, hpos, hle, ?_, ?_⟩
    · rw [hcons, List.length_cons]
      omega
    · rw [hcons, List.length_cons]
      omega
    · rw [hcons]
      exact hasPeriod_cons hperiod hpos hback
  have hleast : o + 1 ≤ o := h.fewest.2 ⟨period, hrolled⟩
  omega

/-- The search for a cycle finds the first one in all digits but the last, and none just if there is
none. The cycle that is found is no block repeated, and digits in front of it end in another digit. -/
theorem findCycle?_canonical (digits : List Char) (precision : Nat) :
    (∀ before cycle, findCycle? digits precision = some (before, cycle) ↔
      ∃ offset period, IsFirstCycle digits.dropLast precision offset period ∧
        before = digits.dropLast.take offset ∧
        cycle = (digits.dropLast.drop offset).take period) ∧
    (findCycle? digits precision = none ↔
      ∀ offset period, ¬ IsCycle digits.dropLast precision offset period) ∧
    ∀ before cycle, findCycle? digits precision = some (before, cycle) →
      (∀ block n, block.length < cycle.length → cycle ≠ (List.replicate n block).flatten) ∧
      (before ≠ [] → before.getLast? ≠ cycle.getLast?) := by
  refine ⟨fun before cycle => findCycle?_eq_some_iff, findCycle?_eq_none_iff, ?_⟩
  intro before cycle hfound
  obtain ⟨offset, period, hfirst, rfl, rfl⟩ := findCycle?_eq_some_iff.mp hfound
  rw [hfirst.length_cycle]
  exact ⟨fun block n hshort => hfirst.ne_flatten_replicate hshort n, hfirst.getLast?_ne⟩

example : findCycle? "123456785678567856785678567856785678".toList 15 =
    some ("1234".toList, "5678".toList) := by decide +kernel

end TexFormula.NumberFormat
