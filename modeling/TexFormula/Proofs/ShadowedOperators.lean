import TexFormula.MathJson
import TexFormula.Proofs.AliasChains
import TexFormula.Proofs.ReadsAlike
import TexFormula.Proofs.ResolvedNotations

/-!
# Operators in the shadow of a later one

A notation without a hook that follows an operand shadows the earlier ones at its trigger that bind no
more tightly: no source is read otherwise if they are left out (`parse_of_shadows`). Those that bind
more tightly are still found where the later one is too loose.
-/

namespace TexFormula

open Dictionary

/-- The notation follows an operand at the trigger of `e` and binds no more tightly than `e`. -/
def Notation.shadowedBy (e m : Notation) : Bool :=
  m.followsOperand && m.trigger == e.trigger && decide (m.precedence ≤ e.precedence)

namespace Dictionary

variable {entries : List Notation} {e : Notation}

/-! ### What is found -/

theorem readAt_filter (hplain : ∀ n ∈ entries, n.aliasOf = none) (p : Notation → Bool)
    (trigger : String) :
    readAt ⟨entries.filter p, []⟩ trigger = (readAt ⟨entries, []⟩ trigger).filter p := by
  have hfilter : ∀ n ∈ entries.filter p, n.aliasOf = none := fun n hn =>
    hplain n (List.mem_filter.mp hn).1
  rw [readAt_of_plain hfilter, readAt_of_plain hplain, ← List.filter_reverse, List.filter_filter,
    List.filter_filter]
  simp only [Bool.and_comm]

theorem readAt_append (hplain : ∀ n ∈ entries, n.aliasOf = none) (halias : e.aliasOf = none)
    (hread : e.serializeOnly = false) (trigger : String) :
    readAt ⟨entries ++ [e], []⟩ trigger =
      (if e.trigger = some trigger then [e] else []) ++ readAt ⟨entries, []⟩ trigger := by
  have happend : ∀ n ∈ entries ++ [e], n.aliasOf = none :=
    List.forall_mem_append.mpr ⟨hplain, List.forall_mem_singleton.mpr halias⟩
  rw [readAt_of_plain happend, readAt_of_plain hplain, List.reverse_append, List.filter_append,
    List.reverse_singleton, List.filter_singleton, hread]
  simp only [Bool.not_false, Bool.true_and, Bool.cond_eq_ite, beq_iff_eq]

/-! ### Shadowed notations -/

section

variable (hplain : ∀ n ∈ entries, n.aliasOf = none) (halias : e.aliasOf = none)
  (hread : e.serializeOnly = false)

include hplain

theorem shadowedBy_of_mem_operators {trigger : String} {m : Notation}
    (hm : m ∈ operators ⟨entries, []⟩ trigger) :
    e.shadowedBy m = (e.trigger == some trigger && decide (m.precedence ≤ e.precedence)) := by
  obtain ⟨hm, hfollows⟩ := List.mem_filter.mp hm
  obtain ⟨-, htrigger⟩ := trigger_of_mem_readAt hplain hm
  rw [Notation.shadowedBy, hfollows, htrigger, Bool.true_and, BEq.comm]

theorem operands_filter_shadowedBy (trigger : String) :
    operands ⟨entries.filter (!e.shadowedBy ·), []⟩ trigger = operands ⟨entries, []⟩ trigger := by
  rw [operands, readAt_filter hplain, List.filter_filter, operands]
  refine List.filter_congr fun m _ => ?_
  rw [Notation.shadowedBy]
  cases m.followsOperand with
  | true => rfl
  | false => rfl

theorem operators_filter_shadowedBy (trigger : String) :
    operators ⟨entries.filter (!e.shadowedBy ·), []⟩ trigger =
      (operators ⟨entries, []⟩ trigger).filter (!e.shadowedBy ·) := by
  rw [operators, readAt_filter hplain, operators, List.filter_filter, List.filter_filter]
  simp only [Bool.and_comm]

/-- Where the later notation is too loose, so are those in its shadow. -/
theorem filter_operators_shadowedBy {trigger : String} (htrigger : e.trigger = some trigger)
    {loosest : Precedence} (hloose : ¬loosest ≤ e.precedence) :
    ((operators ⟨entries.filter (!e.shadowedBy ·), []⟩ trigger).filter
        fun n => loosest ≤ n.precedence) =
      (operators ⟨entries, []⟩ trigger).filter fun n => loosest ≤ n.precedence := by
  rw [operators_filter_shadowedBy hplain, List.filter_filter]
  refine List.filter_congr fun m hm => ?_
  rw [shadowedBy_of_mem_operators hplain hm, htrigger, beq_self_eq_true, Bool.true_and]
  by_cases hle : loosest ≤ m.precedence
  · have hnot : ¬m.precedence ≤ e.precedence := fun hme => hloose (Nat.le_trans hle hme)
    rw [decide_eq_true hle, decide_eq_false hnot]
    rfl
  · rw [decide_eq_false hle]
    rfl

include halias hread

theorem operators_append (hfollows : e.followsOperand) (trigger : String) :
    operators ⟨entries ++ [e], []⟩ trigger =
      (if e.trigger = some trigger then [e] else []) ++ operators ⟨entries, []⟩ trigger := by
  rw [operators, readAt_append hplain halias hread, List.filter_append, operators]
  split
  · rw [List.filter_singleton, hfollows]
    rfl
  · rfl

theorem operands_append (hfollows : e.followsOperand) (trigger : String) :
    operands ⟨entries ++ [e], []⟩ trigger = operands ⟨entries, []⟩ trigger := by
  rw [operands, readAt_append hplain halias hread, List.filter_append, operands]
  split
  · rw [List.filter_singleton, hfollows]
    rfl
  · rfl

end

section

variable (hplain : ∀ n ∈ entries, n.aliasOf = none) (halias : e.aliasOf = none)
  (hread : e.serializeOnly = false) (hfollows : e.followsOperand)

include hplain halias hread hfollows

theorem operators_shadowed_of_ne {trigger : String} (h : e.trigger ≠ some trigger) :
    operators ⟨entries.filter (!e.shadowedBy ·) ++ [e], []⟩ trigger =
      operators ⟨entries ++ [e], []⟩ trigger := by
  have hfilter : ∀ n ∈ entries.filter (!e.shadowedBy ·), n.aliasOf = none := fun n hn =>
    hplain n (List.mem_filter.mp hn).1
  rw [operators_append hfilter halias hread hfollows, operators_append hplain halias hread hfollows,
    if_neg h, operators_filter_shadowedBy hplain]
  refine congrArg _ (List.filter_eq_self.mpr fun m hm => ?_)
  rw [shadowedBy_of_mem_operators hplain hm, beq_false_of_ne h]
  rfl

/-- At the trigger of the later notation it comes first, with and without those in its shadow. -/
theorem operators_shadowed_of_eq {trigger : String} (h : e.trigger = some trigger) :
    operators ⟨entries ++ [e], []⟩ trigger = e :: operators ⟨entries, []⟩ trigger ∧
      operators ⟨entries.filter (!e.shadowedBy ·) ++ [e], []⟩ trigger =
        e :: operators ⟨entries.filter (!e.shadowedBy ·), []⟩ trigger := by
  have hfilter : ∀ n ∈ entries.filter (!e.shadowedBy ·), n.aliasOf = none := fun n hn =>
    hplain n (List.mem_filter.mp hn).1
  rw [operators_append hfilter halias hread hfollows, operators_append hplain halias hread hfollows,
    if_pos h]
  exact ⟨rfl, rfl⟩

theorem sameFirst_operators (hreader : e.reader = none) (trigger : String) (loosest : Precedence) :
    SameFirst
      ((operators ⟨entries.filter (!e.shadowedBy ·) ++ [e], []⟩ trigger).filter
        fun n => loosest ≤ n.precedence)
      ((operators ⟨entries ++ [e], []⟩ trigger).filter fun n => loosest ≤ n.precedence) := by
  by_cases h : e.trigger = some trigger
  · obtain ⟨hall, hkept⟩ := operators_shadowed_of_eq hplain halias hread hfollows h
    rw [hall, hkept]
    by_cases hle : loosest ≤ e.precedence
    · exact .inr ⟨e, _, _, hreader, List.filter_cons_of_pos (decide_eq_true hle),
        List.filter_cons_of_pos (decide_eq_true hle)⟩
    · left
      rw [List.filter_cons_of_neg (by simpa using hle), List.filter_cons_of_neg (by simpa using hle),
        filter_operators_shadowedBy hplain h hle]
  · left
    rw [operators_shadowed_of_ne hplain halias hread hfollows h]

end

/-- Without the notations in its shadow the list reads alike. -/
theorem readsAlike_of_shadows (hplain : ∀ n ∈ entries, n.aliasOf = none)
    (hsteady : ∀ n ∈ entries, n.Steady) (halias : e.aliasOf = none) (hread : e.serializeOnly = false)
    (hfollows : e.followsOperand) (hreader : e.reader = none) :
    ReadsAlike ⟨entries.filter (!e.shadowedBy ·) ++ [e], []⟩ ⟨entries ++ [e], []⟩ := by
  have hfilter : ∀ n ∈ entries.filter (!e.shadowedBy ·), n.aliasOf = none := fun n hn =>
    hplain n (List.mem_filter.mp hn).1
  constructor
  case operands =>
    intro trigger
    rw [operands_append hplain halias hread hfollows, operands_append hfilter halias hread hfollows,
      operands_filter_shadowedBy hplain]
  case hasOperator =>
    intro trigger
    rw [hasOperator, hasOperator]
    by_cases h : e.trigger = some trigger
    · obtain ⟨hall, hkept⟩ := operators_shadowed_of_eq hplain halias hread hfollows h
      rw [hall, hkept]
      rfl
    · rw [operators_shadowed_of_ne hplain halias hread hfollows h]
  case operators => exact sameFirst_operators hplain halias hread hfollows hreader
  case steady =>
    intro trigger n hn
    rcases List.mem_append.mp (mem_entries_of_mem_readAt hn) with hn | hn
    · exact hsteady n (List.mem_filter.mp hn).1
    · rw [List.mem_singleton.mp hn]
      exact .of_reader_eq_none hreader

end Dictionary

/-- A notation without a hook that follows an operand shadows the earlier ones at its trigger that bind
no more tightly: the dictionary without them, in which only notations that bind more tightly are left
there, reads every source alike. -/
theorem parse_of_shadows {e : Notation} {d' : Dictionary}
    (h : Dictionary.standard.withOverrides [e] = .ok d') (hreader : e.reader = none)
    (hfollows : e.followsOperand) (halias : e.aliasOf = none) (hread : e.serializeOnly = false) :
    ∃ d, Dictionary.ofList (standardEntries.filter (!e.shadowedBy ·) ++ [e]) = .ok d ∧
      (∀ trigger, e.trigger = some trigger →
        ∀ m ∈ d.operators trigger, m = e ∨ e.precedence < m.precedence) ∧
      ∀ options source, parse d' options source = parse d options source := by
  have hplain := aliasOf_standardEntries
  have hfilter : ∀ n ∈ standardEntries.filter (!e.shadowedBy ·), n.aliasOf = none := fun n hn =>
    hplain n (List.mem_filter.mp hn).1
  obtain ⟨hcheck, -, -⟩ := ofList_eq_ok_iff.mp h
  obtain ⟨hstandard, he⟩ := List.forall_mem_append.mp hcheck
  have hd' : Dictionary.ofList (standardEntries ++ [e]) = .ok ⟨standardEntries ++ [e], []⟩ :=
    ofList_of_plain (List.forall_mem_append.mpr ⟨hplain, List.forall_mem_singleton.mpr halias⟩) hcheck
  obtain rfl : ⟨standardEntries ++ [e], []⟩ = d' := Except.ok.inj (hd'.symm.trans h)
  refine ⟨⟨standardEntries.filter (!e.shadowedBy ·) ++ [e], []⟩, ?_, ?_, ?_⟩
  · have hplain' : ∀ n ∈ standardEntries.filter (!e.shadowedBy ·) ++ [e], n.aliasOf = none :=
      List.forall_mem_append.mpr ⟨hfilter, List.forall_mem_singleton.mpr halias⟩
    refine ofList_of_plain hplain' ?_
    exact List.forall_mem_append.mpr ⟨fun n hn => hstandard n (List.mem_filter.mp hn).1, he⟩
  · intro trigger htrigger m hm
    rw [operators_append hfilter halias hread hfollows, if_pos htrigger, List.singleton_append,
      List.mem_cons, operators_filter_shadowedBy hplain] at hm
    rcases hm with rfl | hm
    · exact .inl rfl
    · right
      obtain ⟨hm, hkept⟩ := List.mem_filter.mp hm
      rw [shadowedBy_of_mem_operators hplain hm, htrigger, beq_self_eq_true, Bool.true_and,
        Bool.not_eq_true', decide_eq_false_iff_not] at hkept
      exact Nat.lt_of_not_le hkept
  · exact parse_readsAlike
      (readsAlike_of_shadows hplain steady_standardEntries halias hread hfollows hreader)

/-- A second operator at the plus sign, as tight as a sum. -/
def Notation.combination : Notation :=
  (ofInfix "Combine" "+" .addition).variadic

theorem parse_of_shadows_combination :
    ∃ d' d, Dictionary.standard.withOverrides [.combination] = .ok d' ∧
      Dictionary.ofList (standardEntries.filter (!Notation.combination.shadowedBy ·) ++
        [.combination]) = .ok d ∧
      (∀ m ∈ d.operators "+", m = .combination ∨ Precedence.addition < m.precedence) ∧
      parse d' {} "a+b+c" = parse d {} "a+b+c" := by
  have h : Dictionary.standard.withOverrides [.combination] =
      .ok ⟨standardEntries ++ [.combination], []⟩ := by rfl
  obtain ⟨d, hd, hoperators, hparse⟩ := parse_of_shadows h rfl rfl rfl rfl
  exact ⟨_, d, h, hd, hoperators "+" rfl, hparse {} "a+b+c"⟩

/-- A second operator at the plus sign, looser than a sequence. -/
def Notation.looseSum : Notation :=
  ofInfix "Loose" "+" { rank := 5 }

/-- Inside a sequence the loose sum is too loose, and the sum of the standard notations is built there
although it was defined before. Without it the whole sequence is the operand of the loose sum. -/
theorem not_parse_of_shadows_looseSum :
    ∃ d' d, Dictionary.standard.withOverrides [.looseSum] = .ok d' ∧
      Dictionary.ofList (standardEntries.filter
        (fun m => !(m.followsOperand && m.trigger == some "+")) ++ [.looseSum]) = .ok d ∧
      (parse d' {} "a,b+c").toOption.map (fun p => (MathJson.encode p.expression).compact) =
        some "[\"Sequence\",\"a\",[\"Add\",\"b\",\"c\"]]" ∧
      (parse d {} "a,b+c").toOption.map (fun p => (MathJson.encode p.expression).compact) =
        some "[\"Loose\",[\"Sequence\",\"a\",\"b\"],\"c\"]" := by
  refine ⟨⟨standardEntries ++ [.looseSum], []⟩, ⟨standardEntries.filter
    (fun m => !(m.followsOperand && m.trigger == some "+")) ++ [.looseSum], []⟩, rfl, rfl, ?_, ?_⟩
  · decide +kernel
  · decide +kernel

end TexFormula
