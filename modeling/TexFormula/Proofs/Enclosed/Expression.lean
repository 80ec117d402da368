import TexFormula.Proofs.Enclosed.Operand
import TexFormula.Proofs.ParsedTrees.Expression

/-!
# Expressions between delimiters

The loop of operators and factors takes the same steps on both sides. Where the one has come to the end
of the source the other one is at the closing delimiter, and an expression ends at both.
-/

namespace TexFormula.Parser.Enclosure

variable {w : Enclosure} {α : Type} {levels : Nat} {s s' t t' : State}

/-! ### Operands -/

theorem Echoed.atOperator {β : Type} {bad : β → State → Prop} {f f' : Bool → Parser β}
    (hs : w.Abreast s s') (h : ∀ operator, w.Echoed bad s s' (f operator) (f' operator)) :
    w.Echoed bad s s' (Parser.atOperator w.whole >>= f) (Parser.atOperator w.part >>= f') := by
  have hsame : ((s.current w.whole).trigger?).any w.whole.dictionary.hasOperator =
      ((s'.current w.part).trigger?).any w.part.dictionary.hasOperator := by
    rw [← Option.isSome_filter, ← Option.isSome_filter, hs.operator_current]
  refine (h (((s'.current w.part).trigger?).any w.part.dictionary.hasOperator)).of_step ?_ rfl
  rw [← hsame]
  rfl

theorem leavesNothingOut_part (w : Enclosure) : w.part.LeavesNothingOut := by
  unfold Env.LeavesNothingOut
  rw [w.options]
  exact w.leavesNothingOut

theorem Level.operandWithin (hl : w.Level levels) (hs : w.Abreast s s') (fuel fuel' : Nat) :
    w.Echoed w.Lost s s'
      (Parser.operandWithin w.whole (nested w.whole levels) (fuel + 1))
      (Parser.operandWithin w.part (nested w.part levels) (fuel' + 1)) := by
  rw [Parser.operandWithin, Parser.operandWithin]
  refine .skipSpacing hs fun ht => .atTerminator ht (.ite (fun _ => .pure ht none) fun hgoes => ?_)
  have hne := State.rest_ne_nil_of_atTerminator hgoes
  refine .orElse (hl.known ht hne) ?_ ?_ fun u u' hnone hu => ?_
  · rintro x u (hdoomed | ⟨hnone, -⟩)
    · exact .inl hdoomed.2
    · cases hnone
  · rintro u (⟨hsome, -⟩ | ⟨-, rfl, hoperator⟩)
    · cases hsome
    · -- at the operator nothing more is tried
      refine .bind (Q := fun operator v => operator = true ∧ v = s'.pastSpacing)
        (.current (.pure ⟨?_, rfl⟩)) ?_
      · rw [← Option.isSome_filter]
        exact hoperator
      · rintro _ v ⟨rfl, rfl⟩
        exact .pure (.inr ⟨rfl, hoperator, Bool.eq_false_iff.mpr hgoes⟩)
  · obtain rfl := (begun_known w.dictionary' _ none u' hnone).eq_of_none rfl
    refine .atOperator hu fun operator => .ite (fun _ => .pure hu none) fun _ => ?_
    refine .orElse (echoed_unknown hu hne _ _) (fun x v hdoomed => .inl hdoomed.2) ?_ ?_
    · rintro v ⟨hsome, -⟩
      cases hsome
    · intro v v' hnone' _
      obtain ⟨x, hx, -⟩ := present_unknown w.leavesNothingOut_part _ none v' hnone'
      cases hx

theorem Abreast.pastSpacing_of_nil (hs : w.Abreast s s') (hnil : s'.rest = []) :
    w.Abreast s.pastSpacing s' ∧ s.pastSpacing.atTerminator w.whole = true := by
  have habreast := hs.pastSpacing
  rw [show s'.pastSpacing = s' from State.forward_of_rest_nil hnil _] at habreast
  refine ⟨habreast, ?_⟩
  rw [habreast.atTerminator, State.atTerminator, State.current_of_rest_nil hnil]
  rfl

theorem Level.operandHere (hl : w.Level levels) (hs : w.Abreast s s') :
    w.Echoed w.Lost s s' (Parser.operand w.whole (nested w.whole levels))
      (Parser.operand w.part (nested w.part levels)) := by
  refine .get ?_
  rw [hs.length_rest]
  by_cases hnil : s'.rest = []
  · obtain ⟨habreast, hstop⟩ := hs.pastSpacing_of_nil hnil
    rw [hnil]
    intro o t' ht'
    obtain ⟨rfl, rfl⟩ := runs_pure.mp ht'
    exact .inl ⟨_, (runs_operandWithin_iff w.dictionary).mpr (.inl ⟨hstop, rfl, rfl⟩), habreast⟩
  · obtain ⟨x, xs, hrest⟩ := List.exists_cons_of_ne_nil hnil
    rw [hrest]
    exact hl.operandWithin hs _ _

/-! ### Operators -/

theorem Level.applyOperator (hl : w.Level levels) {n : Notation} {trigger : String}
    (hn : n ∈ Dictionary.standardEntries) (hfollows : n.followsOperand)
    (htrigger : n.trigger = some trigger) (lhs : Expression) (chained : Option String)
    (hs : w.Abreast s s') :
    w.Echoed DoomedGroup s s'
      (Parser.applyOperator w.whole (nested w.whole levels) n lhs chained)
      (Parser.applyOperator w.part (nested w.part levels) n lhs chained) := by
  have hpresent : Ensures (fun o _ => Present o ∧ o.isSome) s'
      (Parser.applyOperator w.part (nested w.part levels) n lhs chained) :=
    present_applyOperator hn hfollows lhs chained s'
  suffices hdoomed : w.Echoed Doomed s s' _ _ from
    hdoomed.and_runs.mono fun o t h => ⟨(hpresent o t h.1).2, h.2⟩
  unfold Parser.applyOperator
  split
  · next hook hreader =>
    exact hl.run (some lhs) (Dictionary.standard_of_reader_eq hn htrigger hreader) hs
  · split
    · exact .pure hs _
    · exact hl.expected _ _ _ (fun rhs => some (extend n.name _ lhs rhs)) hs
    · exact .pure hs _

theorem Level.firstOperator (hl : w.Level levels) {trigger : String} {notations : List Notation}
    (hn : ∀ n ∈ notations, (n ∈ Dictionary.standardEntries ∧ n.trigger = some trigger) ∧
      n.followsOperand)
    (lhs : Expression) (chained : Option String) (hs : w.Abreast s s')
    (htrigger : (s'.current w.part).trigger? = some trigger) :
    w.Echoed DoomedGroup s s'
      (Parser.firstOperator w.whole (nested w.whole levels) lhs chained notations)
      (Parser.firstOperator w.part (nested w.part levels) lhs chained notations) := by
  induction notations generalizing s with
  | nil => exact .pure hs none
  | cons n rest ih =>
    obtain ⟨⟨⟨hmem, hfiled⟩, hfollows⟩, hrest⟩ := List.forall_mem_cons.mp hn
    have hplain := not_takesDelimiter_of_trigger? htrigger (not_mem_growing_of_trigger hmem hfiled)
    have happly : w.Echoed DoomedGroup s s'
        (do
          advance
          return (← Parser.applyOperator w.whole (nested w.whole levels) n lhs chained).map fun e =>
            (e, n))
        (do
          advance
          return (← Parser.applyOperator w.part (nested w.part levels) n lhs chained).map fun e =>
            (e, n)) := by
      refine .advance hs (rest_ne_nil_of_trigger? htrigger) hplain fun ht => ?_
      refine (hl.applyOperator hmem hfollows hfiled lhs chained ht).bind ?_ fun o u u' hu => .pure hu _
      exact fun o u hdoomed => .pure ⟨Option.isSome_map.trans hdoomed.1, hdoomed.2⟩
    refine .orElse (happly.attempt hs (fun _ _ h => h) ?_ : w.Echoed DoomedGroup s s' _ _)
      (fun _ _ h => h) ?_ ?_
    · rintro t - ⟨hsome, -⟩
      cases hsome
    · rintro t ⟨hsome, -⟩
      cases hsome
    · intro t t' hnone ht
      rcases runs_attempt.mp hnone with ⟨-, rfl, -⟩ | ⟨hsome, -⟩
      · exact ih hrest ht
      · cases hsome

/-! ### The loop -/

theorem keeps_chain (w : Enclosure) (levels : Nat) (loosest : Precedence) (fuel : Nat) (lhs : Operand)
    (chained : Option String) :
    Keeps w.part.options.maxDepth (chain w.part (nested w.part levels) loosest fuel lhs chained) :=
  Inners.keeps_chain (w.dictionary' ▸ Dictionary.hasStandardHooks_standard).abortsOnly
    (w.keeps_part levels) loosest fuel lhs chained

/-- From where a token more than at `u'` has been read the loop goes on alike, with less fuel. -/
def ChainsOn (w : Enclosure) (levels : Nat) (loosest : Precedence) (fuel fuel' : Nat) (u' : State) :
    Prop :=
  ∀ v v', w.Abreast v v' → ReadsOn u' v' → ∀ (lhs : Operand) (chained : Option String),
    w.Echoed Doomed v v' (Parser.chain w.whole (nested w.whole levels) loosest fuel lhs chained)
      (Parser.chain w.part (nested w.part levels) loosest fuel' lhs chained)

section

variable {loosest : Precedence} {fuel fuel' : Nat} {u u' : State}
  (hl : w.Level levels) (hon : w.ChainsOn levels loosest fuel fuel' u') (hu : w.Abreast u u')
  (lhs : Expression)

include hl hon hu

theorem Level.chainApplication (hopen : (u'.current w.part).isPunct '(') :
    w.Echoed Doomed u u'
      (do
        let arguments ← Parser.delimitedArguments w.whole (nested w.whole levels)
        Parser.chain w.whole (nested w.whole levels) loosest fuel ⟨.apply lhs arguments, true⟩ none)
      (do
        let arguments ← Parser.delimitedArguments w.part (nested w.part levels)
        Parser.chain w.part (nested w.part levels) loosest fuel' ⟨.apply lhs arguments, true⟩ none) := by
  have hreads : Ensures (fun _ t => ReadsOn u' t) u'
      (Parser.delimitedArguments w.part (nested w.part levels)) :=
    readsOn_delimitedArguments (w.keeps_part levels) (rest_ne_nil_of_isPunct hopen)
  refine (hl.delimitedArguments hu hopen).bind_of_runs (fun arguments v hdoomed => ?_)
    fun arguments v v' _ hruns hv => hon v v' hv (hreads _ _ hruns) _ _
  exact ensures_doomed (keeps_chain w levels loosest fuel' _ none) hdoomed

theorem Level.chainOperator {trigger : String} (htrigger : (u'.current w.part).trigger? = some trigger)
    (chained : Option String) :
    w.Echoed Doomed u u'
      (do
        match ← Parser.firstOperator w.whole (nested w.whole levels) lhs chained
            (candidates w.whole trigger loosest) with
        | some (e, n) =>
          Parser.chain w.whole (nested w.whole levels) loosest fuel ⟨e, false⟩ (chainName? n)
        | none => return lhs)
      (do
        match ← Parser.firstOperator w.part (nested w.part levels) lhs chained
            (candidates w.part trigger loosest) with
        | some (e, n) =>
          Parser.chain w.part (nested w.part levels) loosest fuel' ⟨e, false⟩ (chainName? n)
        | none => return lhs) := by
  have hmem : ∀ n ∈ candidates w.part trigger loosest, (n ∈ Dictionary.standardEntries ∧
      n.trigger = some trigger) ∧ n.followsOperand := entry_of_mem_candidates w.dictionary'
  have hsame : candidates w.whole trigger loosest = candidates w.part trigger loosest := by
    rw [candidates, candidates, w.dictionary, w.dictionary']
  have hreads : Ensures (fun found t => found.isSome → ReadsOn u' t) u'
      (Parser.firstOperator w.part (nested w.part levels) lhs chained
        (candidates w.part trigger loosest)) :=
    readsOn_firstOperator (w.keeps_part levels)
      (fun n hn => (Dictionary.steady_standardEntries n (hmem n hn).1.1).abortsOnly) _ _
      (rest_ne_nil_of_trigger? htrigger)
  rw [hsame]
  refine (hl.firstOperator hmem lhs chained hu htrigger).bind_of_runs (fun found v hdoomed => ?_)
    fun found v v' _ hruns hv => ?_
  · obtain ⟨⟨e, n⟩, rfl⟩ := Option.isSome_iff_exists.mp hdoomed.1
    exact ensures_doomed (keeps_chain w levels loosest fuel' _ _) hdoomed.2
  · cases found with
    | some found => exact hon v v' hv (hreads _ _ hruns rfl) _ _
    | none => exact .pure hv _

theorem Level.chainFactor (chained : Option String) :
    w.Echoed Doomed u u'
      (do
        let before := (← get).position
        let factor ← (nested w.whole levels).expression Precedence.multiplication.tighter
        if (← get).position == before || factor.isMissing then
          return lhs
        else
          let product := extend "Multiply" (chained == some "Multiply") lhs factor
          Parser.chain w.whole (nested w.whole levels) loosest fuel ⟨product, false⟩ (some "Multiply"))
      (do
        let before := (← get).position
        let factor ← (nested w.part levels).expression Precedence.multiplication.tighter
        if (← get).position == before || factor.isMissing then
          return lhs
        else
          let product := extend "Multiply" (chained == some "Multiply") lhs factor
          Parser.chain w.part (nested w.part levels) loosest fuel' ⟨product, false⟩
            (some "Multiply")) := by
  refine .get ?_
  dsimp only
  refine (hl.expression Precedence.multiplication.tighter hu).bind_of_runs
    (fun factor v hdoomed => .get ?_) fun factor v v' _ hruns hv => .get ?_
  · split
    · exact .pure hdoomed
    · exact ensures_doomed (keeps_chain w levels loosest fuel' _ _) hdoomed
  · have hplace : (v.position == u.position) = (v'.position == u'.position) := by
      rw [hv.position, hu.position, Bool.eq_iff_iff, beq_iff_eq, beq_iff_eq, Nat.add_right_cancel_iff]
    rw [hplace]
    refine .ite (fun _ => .pure hv _) fun hmore => ?_
    simp only [Bool.or_eq_true, not_or, beq_iff_eq] at hmore
    have hfollows := ((w.keeps_part levels).expression _).follows hruns
    exact hon v v' hv ⟨hfollows, hfollows.length_rest_lt hmore.1⟩ _ _

end

theorem Level.chain (hl : w.Level levels) (loosest : Precedence) {fuel fuel' : Nat}
    (hs : w.Abreast s s') (hfuel : s.rest.length ≤ fuel) (hfuel' : s'.rest.length ≤ fuel')
    (lhs : Operand) (chained : Option String) :
    w.Echoed Doomed s s'
      (Parser.chain w.whole (nested w.whole levels) loosest fuel lhs chained)
      (Parser.chain w.part (nested w.part levels) loosest fuel' lhs chained) := by
  -- the closing delimiter is one token more, so there is always fuel to find it
  induction fuel' generalizing s s' fuel lhs chained with
  | zero =>
    obtain ⟨fuel, rfl⟩ : ∃ less, fuel = less + 1 := by
      rw [hs.length_rest] at hfuel
      exact Nat.exists_eq_add_of_le' (Nat.le_of_add_left_le hfuel)
    obtain ⟨ht, hstop⟩ := hs.pastSpacing_of_nil (List.eq_nil_of_length_eq_zero (Nat.le_zero.mp hfuel'))
    rw [Parser.chain, Parser.chain]
    refine (Echoed.pure ht lhs.expression).of_step (k := Pure.pure lhs.expression) ?_ rfl
    show (if s.pastSpacing.atTerminator w.whole = true then _ else _ : Parser Expression) s.pastSpacing =
      _
    rw [if_pos hstop]
  | succ fuel' ih =>
    obtain ⟨fuel, rfl⟩ : ∃ less, fuel = less + 1 := by
      rw [hs.length_rest] at hfuel
      exact Nat.exists_eq_add_of_le' (Nat.le_of_add_left_le hfuel)
    rw [Parser.chain, Parser.chain]
    have hlengths := hs.length_rest
    have hle : s'.pastSpacing.rest.length ≤ s'.rest.length := State.length_rest_forward_le s' _
    refine .skipSpacing hs fun hu => .atTerminator hu (.ite (fun _ => .pure hu _) fun _ => .current ?_)
    generalize s.pastSpacing = u at hu
    generalize s'.pastSpacing = u' at hu hle
    have hon : w.ChainsOn levels loosest fuel fuel' u' := fun v v' hv hreads lhs chained => by
      have hless := hreads.2
      have hlengths' := hv.length_rest
      exact ih hv (by omega) (by omega) lhs chained
    rw [hu.isPunct_current (by decide), hu.operator_current]
    refine .ite (fun hopen => hl.chainApplication hon hu _ (Bool.and_eq_true_iff.mp hopen).2) fun _ => ?_
    split
    · next htrigger =>
      exact hl.chainOperator hon hu _ (Option.filter_eq_some_iff.mp htrigger).1 chained
    · exact .ite (fun _ => .pure hu _) fun _ => hl.chainFactor hon hu _ chained

/-! ### Levels -/

/-- Behind an operand that is not echoed something is recorded. -/
theorem ensures_goOn {o : Option Operand} (h : w.Lost o s') (loosest : Precedence) :
    Ensures Doomed s' (Excerpt.goOn w.part (nested w.part levels) loosest o) := by
  have hchain {u : State} (hu : Doomed () u) (lhs : Operand) : Ensures Doomed u
      (Parser.chain w.part (nested w.part levels) loosest u.rest.length lhs none) :=
    ensures_doomed (keeps_chain w levels loosest _ lhs none) hu
  cases o with
  | some lhs =>
    rcases h with hdoomed | ⟨hnone, -⟩
    · exact .get (hchain hdoomed lhs)
    · cases hnone
  | none =>
    refine .current ?_
    split
    · next htrigger =>
      refine .atTerminator ?_
      split
      · next hstop =>
        rcases h with hdoomed | ⟨-, -, hgoes⟩
        · exact .pure hdoomed
        · rw [hgoes] at hstop
          cases hstop
      · exact .recordAt (.get (hchain doomed_record _))
    · next hnone =>
      rcases h with hdoomed | ⟨-, hoperator, -⟩
      · exact .pure hdoomed
      · rw [State.AtOperator, hnone] at hoperator
        cases hoperator

theorem Level.goOn (hl : w.Level levels) (loosest : Precedence) (hs : w.Abreast s s')
    (o : Option Operand) :
    w.Echoed Doomed s s' (Excerpt.goOn w.whole (nested w.whole levels) loosest o)
      (Excerpt.goOn w.part (nested w.part levels) loosest o) := by
  cases o with
  | some lhs => exact .get (hl.chain loosest hs (Nat.le_refl _) (Nat.le_refl _) lhs none)
  | none =>
    refine .current ?_
    rw [hs.operator_current]
    split
    · refine .atTerminator hs (.ite (fun _ => .pure hs _) fun _ => .of_ensures (.recordAt (.get ?_)))
      exact ensures_doomed (a := ()) (keeps_chain w levels loosest _ _ none) doomed_record
    · exact .pure hs _

theorem Level.expressionAt (hl : w.Level levels) (loosest : Precedence) (hs : w.Abreast s s') :
    w.Echoed Doomed s s' (Parser.expressionAt w.whole (nested w.whole levels) loosest)
      (Parser.expressionAt w.part (nested w.part levels) loosest) := by
  rw [Excerpt.expressionAt_eq, Excerpt.expressionAt_eq]
  exact (hl.operandHere hs).bind (fun o t hlost => ensures_goOn hlost loosest)
    fun o t t' ht => hl.goOn loosest ht o

/-- Whatever is read in the source without a diagnostic is read alike between the delimiters. By
induction on the levels that are left. -/
theorem level (w : Enclosure) (levels : Nat) : w.Level levels := by
  induction levels with
  | zero => exact ⟨fun _ _ _ _ => .of_ensures .throw, fun _ => .of_ensures .throw⟩
  | succ levels ih =>
    refine ⟨fun loosest _ _ hs => ih.expressionAt loosest hs, fun hs => ?_⟩
    exact (ih.operandHere hs).map fun o t hlost => hlost.imp_right fun ⟨hnone, hplace⟩ =>
      ⟨Option.map_eq_none_iff.mpr hnone, hplace⟩

end TexFormula.Parser.Enclosure
