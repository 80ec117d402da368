import TexFormula.Proofs.Excerpt.Unknown
import TexFormula.Proofs.ExpressionEnds

/-!
# Expressions of a piece
-/

namespace TexFormula.Parser.Excerpt

variable {w : Excerpt} {α : Type} {levels : Nat} {s s' t t' : State}

theorem not_closes_of_atTerminator {env : Env} (h : s.atTerminator env = false) :
    ¬ Closes (s.current env) := by
  intro hclose
  unfold State.atTerminator at h
  rw [Bool.or_eq_false_iff] at h
  rcases hclose with hkind | hkind <;> · rw [hkind] at h; cases h.1

/-- Digits are a number and no unknown token. -/
theorem digits?_of_runs_known {env : Env} {inner : Inner}
    (h : Runs (orElse (builtin env inner) (notated env inner)) s none t) :
    (s.current env).digits? = none := by
  rw [Option.eq_none_iff_forall_ne_some]
  intro run hrun
  have hstarts : startsNumber s.rest := by
    cases hrest : s.rest with
    | nil =>
      rw [State.current_of_rest_nil hrest] at hrun
      cases hrun
    | cons x xs =>
      rw [State.current_of_rest hrest] at hrun
      rw [startsNumber, hrun]
      rfl
  rcases runs_orElse.mp h with ⟨hsome, -⟩ | ⟨u, hnone, -⟩
  · cases hsome
  · obtain ⟨v, -, hv⟩ := runs_builtin_of_startsNumber hstarts hnone
    cases hv

theorem Mirrored.atOperator {β : Type} {bad : β → State → Prop} {f f' : Bool → Parser β}
    (hs : w.Beside s s')
    (h : ∀ operator, w.Mirrored bad s s' (f operator) (f' operator)) :
    w.Mirrored bad s s' (Parser.atOperator w.whole >>= f) (Parser.atOperator w.part >>= f') := by
  have hsame : ((s'.current w.part).trigger?).any w.part.dictionary.hasOperator =
      ((s.current w.whole).trigger?).any w.whole.dictionary.hasOperator := by
    rw [hs.current, trigger?_place, w.dictionary, w.dictionary']
  refine (h (((s.current w.whole).trigger?).any w.whole.dictionary.hasOperator)).of_step rfl ?_
  rw [← hsame]
  rfl

theorem Level.operandWithin (hl : w.Level levels) (hs : w.Beside s s') (fuel fuel' : Nat) :
    w.Mirrored (fun o => w.StrayOperand s (o.map Operand.expression)) s s'
      (Parser.operandWithin w.whole (nested w.whole levels) (fuel + 1))
      (Parser.operandWithin w.part (nested w.part levels) (fuel' + 1)) := by
  rw [Parser.operandWithin, Parser.operandWithin]
  refine .skipSpacing hs fun ht => .atTerminator ht (.ite (fun _ => .pure ht none) fun hgoes => ?_)
  have hclose := not_closes_of_atTerminator (Bool.eq_false_iff.mpr hgoes)
  have hle : s.pastSpacing.rest.length ≤ s.rest.length := State.length_rest_forward_le s _
  refine .orElse (hl.known ht hclose) ?_ ?_ fun u u' hnone hu => ?_
  · rintro x u (⟨y, hy, hstray⟩ | ⟨hnone, -⟩)
    · cases hy
      rcases hstray with hnothing | ⟨hstranded, hpresent, hlt⟩
      · exact .inl hnothing
      · have hbefore := Nat.lt_of_lt_of_le hlt hle
        exact .inr ⟨hstranded, .inr ⟨x.expression, rfl, hpresent, hbefore⟩⟩
    · cases hnone
  · rintro u (⟨y, hy, -⟩ | ⟨-, rfl, hstranded⟩)
    · cases hy
    · -- at the plus sign there is an operator, so nothing is read
      refine .bind (Q := fun operator v => operator = true ∧ v = s.pastSpacing)
        (.current (.pure ⟨?_, rfl⟩)) ?_
      · rw [trigger?_of_plus hstranded.plus, Option.any_some, hasOperator_plus w.dictionary]
      · rintro _ v ⟨rfl, rfl⟩
        exact .pure (.inr ⟨hstranded, .inl ⟨rfl, hstranded.plus⟩⟩)
  · obtain rfl := (begun_known w.dictionary _ none u hnone).eq_of_none rfl
    have hdigits := digits?_of_runs_known hnone
    rw [hu.current] at hdigits
    have hclose' := fun h => hclose (ht.closes_iff.mp (hu.closes_iff.mpr h))
    refine .atOperator hu fun operator => .ite (fun _ => .pure hu none) fun _ => ?_
    refine .orElse (hl.unknown hu hclose' hdigits) (fun x v hstray => .inl hstray.2) ?_ ?_
    · rintro v ⟨hsome, -⟩
      cases hsome
    · intro v v' hnone' _
      obtain ⟨x, hx, -⟩ := present_unknown w.leavesNothingOut _ none v hnone'
      cases hx

theorem Level.operandHere (hl : w.Level levels) (hs : w.Beside s s') :
    w.Mirrored (fun o => w.StrayOperand s (o.map Operand.expression)) s s'
      (Parser.operand w.whole (nested w.whole levels))
      (Parser.operand w.part (nested w.part levels)) := by
  obtain ⟨x, xs, hrest', hrest⟩ := hs.exists_rest
  refine .get ?_
  rw [hrest, hrest', List.length_cons, List.length_cons]
  exact hl.operandWithin hs _ _

/-! ### Operators -/

/-- The runs of an operator that are not mirrored. -/
def StrayOperator (w : Excerpt) {β : Type} (o : Option β) (t : State) : Prop :=
  o.isSome ∧ w.Astray o t

theorem Level.applyOperator (hl : w.Level levels) {n : Notation} {trigger : String}
    (hn : n ∈ Dictionary.standardEntries) (hfollows : n.followsOperand)
    (htrigger : n.trigger = some trigger) (lhs : Expression) (chained : Option String)
    (hs : w.Beside s s') :
    w.Mirrored w.StrayOperator s s'
      (Parser.applyOperator w.whole (nested w.whole levels) n lhs chained)
      (Parser.applyOperator w.part (nested w.part levels) n lhs chained) := by
  have hpresent : Ensures (fun o _ => Present o ∧ o.isSome) s
      (Parser.applyOperator w.whole (nested w.whole levels) n lhs chained) :=
    present_applyOperator hn hfollows lhs chained s
  unfold Parser.applyOperator at hpresent ⊢
  split
  · next hook hreader =>
    have hhook := Dictionary.standard_of_reader_eq hn htrigger hreader
    rw [hreader] at hpresent
    refine (hl.run (some lhs) hhook hs).and_runs.mono fun o t hstray => ?_
    have hsome := (hpresent o t hstray.1).2
    refine ⟨hsome, ?_⟩
    rcases hstray.2 with ⟨e, -, hastray⟩ | ⟨rfl, -⟩
    · exact hastray.imp_right And.left
    · cases hsome
  · split
    · exact .pure hs _
    · refine (hl.expression (rightPrecedence n) hs).bind (fun rhs t hstray => ?_) fun rhs t t' ht => ?_
      · dsimp only
        split
        · exact .recordHere (.pure ⟨rfl, hstray.astray.record _ _ _ _⟩)
        · exact .pure ⟨rfl, hstray.astray⟩
      · exact .ite (fun _ => .recordHere ht fun u u' hu _ => .pure hu _) fun _ => .pure ht _
    · exact .pure hs _

theorem Level.firstOperator (hl : w.Level levels) {trigger : String} {notations : List Notation}
    (hn : ∀ n ∈ notations, n ∈ Dictionary.standardEntries ∧ n.followsOperand ∧ n.trigger = some trigger)
    (lhs : Expression) (chained : Option String) (hs : w.Beside s s')
    (hclose : ¬ Closes (s.current w.whole)) :
    w.Mirrored w.StrayOperator s s'
      (Parser.firstOperator w.whole (nested w.whole levels) lhs chained notations)
      (Parser.firstOperator w.part (nested w.part levels) lhs chained notations) := by
  induction notations generalizing s' with
  | nil => exact .pure hs none
  | cons n rest ih =>
    obtain ⟨⟨hmem, hfollows, htrigger⟩, hrest⟩ := List.forall_mem_cons.mp hn
    refine .orElse (?_ : w.Mirrored w.StrayOperator s s' _ _) (fun x t hstray => hstray)
      (fun t hstray => ?_) ?_
    · refine .attempt hs (?_ : w.Mirrored w.StrayOperator s s' _ _) (fun x t hstray => hstray)
        fun t _ hstray => ?_
      · refine .advance hs (fun h => hclose (hs.closes_iff.mpr h)) fun ht => ?_
        refine (hl.applyOperator hmem hfollows htrigger lhs chained ht).bind (fun o u hstray => .pure ?_)
          fun o u u' hu => .pure hu _
        exact ⟨Option.isSome_map.trans hstray.1, hstray.2⟩
      · cases hstray.1
    · cases hstray.1
    · intro t t' hnone ht
      rcases runs_attempt.mp hnone with ⟨-, rfl, -⟩ | ⟨hsome, -⟩
      · exact ih hrest ht
      · cases hsome

/-! ### The loop -/

/-- The runs of the loop that are not mirrored. -/
def StrayChain (w : Excerpt) (loosest : Precedence) (s : State) (e : Expression) (t : State) : Prop :=
  w.Past t ∨ Precedence.addition < loosest ∧ Stranded w.whole w.after.length t ∧
    e.isMissing = false ∧ t.rest.length < s.rest.length

theorem StrayChain.of_le {loosest : Precedence} {e : Expression} {u : State}
    (h : w.StrayChain loosest u e t) (hu : u.rest.length ≤ s.rest.length) : w.StrayChain loosest s e t :=
  h.imp_right fun ⟨htight, hstranded, he, hlt⟩ => ⟨htight, hstranded, he, Nat.lt_of_lt_of_le hlt hu⟩

theorem keeps_chain (w : Excerpt) (levels : Nat) (loosest : Precedence) (fuel : Nat) (lhs : Operand)
    (chained : Option String) :
    Keeps w.whole.options.maxDepth (chain w.whole (nested w.whole levels) loosest fuel lhs chained) :=
  Inners.keeps_chain w.hasStandardHooks.abortsOnly (w.keeps_inner levels) loosest fuel lhs chained

/-- From a sign that has been taken back the loop leaves the piece, or it leaves the sign alone. -/
theorem ensures_chain_of_stranded (h : Stranded w.whole w.after.length s) (hs : s.Signless)
    {fuel : Nat} (hfuel : s.rest.length ≤ fuel) (loosest : Precedence) (lhs : Operand)
    (chained : Option String) :
    Ensures (fun e t => w.Past t ∨ Precedence.addition < loosest ∧ e = lhs.expression ∧ t = s) s
      (chain w.whole (nested w.whole levels) loosest fuel lhs chained) := by
  by_cases hloose : loosest ≤ .addition
  · intro e t ht
    rw [← s.noting_self] at ht
    exact .inl (h.length_le_of_chain w.dictionary hs hloose hfuel ht)
  · have htight := Nat.lt_of_not_le hloose
    exact (chain_of_plus w.dictionary h.plus hs htight fuel lhs chained).mono fun e t ht =>
      .inr ⟨htight, ht⟩

theorem Astray.ensures_chain {a : α} {u : State} (h : w.Astray a u) (hu : u.Signless) {fuel : Nat}
    (hfuel : u.rest.length ≤ fuel) (hlt : u.rest.length < s.rest.length) {lhs : Operand}
    (hlhs : lhs.expression.isMissing = false) (loosest : Precedence) (chained : Option String) :
    Ensures (w.StrayChain loosest s) u
      (chain w.whole (nested w.whole levels) loosest fuel lhs chained) := by
  rcases h with hpast | hstranded
  · exact (ensures_past (keeps_chain w levels loosest fuel lhs chained) hpast).mono fun _ _ h => .inl h
  · refine (ensures_chain_of_stranded hstranded hu hfuel loosest lhs chained).mono fun e t ht => ?_
    refine ht.imp_right fun ⟨htight, he, ht⟩ => ?_
    rw [he, ht]
    exact ⟨htight, hstranded, hlhs, hlt⟩

/-- The loop goes on from where it has come from `u`, with less fuel: it is mirrored, or it strays on. -/
structure ChainsOn (w : Excerpt) (levels : Nat) (loosest : Precedence) (fuel fuel' : Nat)
    (s u : State) : Prop where
  mirrored {v v' : State} (hv : w.Beside v v') (hreads : ReadsOn u v) (lhs : Operand)
    (chained : Option String) : w.Mirrored (w.StrayChain loosest s) v v'
      (Parser.chain w.whole (nested w.whole levels) loosest fuel lhs chained)
      (Parser.chain w.part (nested w.part levels) loosest fuel' lhs chained)
  astray {v : State} (hv : w.Astray () v) (hreads : ReadsOn u v) {lhs : Operand}
    (hlhs : lhs.expression.isMissing = false) (chained : Option String) :
    Ensures (w.StrayChain loosest s) v
      (Parser.chain w.whole (nested w.whole levels) loosest fuel lhs chained)

section

variable {loosest : Precedence} {fuel fuel' : Nat} {u u' : State}
  (hl : w.Level levels) (hon : w.ChainsOn levels loosest fuel fuel' s u) (hu : w.Beside u u')
  (lhs : Expression)

include hl hon hu

theorem Level.chainApplication (hgoes : ¬ u.atTerminator w.whole) :
    w.Mirrored (w.StrayChain loosest s) u u'
      (do
        let arguments ← Parser.delimitedArguments w.whole (nested w.whole levels)
        Parser.chain w.whole (nested w.whole levels) loosest fuel ⟨.apply lhs arguments, true⟩ none)
      (do
        let arguments ← Parser.delimitedArguments w.part (nested w.part levels)
        Parser.chain w.part (nested w.part levels) loosest fuel' ⟨.apply lhs arguments, true⟩ none) := by
  have hclose := not_closes_of_atTerminator (Bool.eq_false_iff.mpr hgoes)
  have hreads : Ensures (fun _ t => ReadsOn u t) u
      (Parser.delimitedArguments w.whole (nested w.whole levels)) :=
    readsOn_delimitedArguments (w.keeps_inner levels) (State.rest_ne_nil_of_atTerminator hgoes)
  refine (hl.delimitedArguments hu fun h => hclose (hu.closes_iff.mpr h)).and_runs.bind_of_runs
    (fun arguments v hv => ?_) fun arguments v v' hruns hv => hon.mirrored hv (hreads _ _ hruns) _ _
  exact hon.astray (.inl hv.2) (hreads _ _ hv.1) rfl none

theorem Level.chainOperator (hgoes : ¬ u.atTerminator w.whole) (trigger : String)
    (chained : Option String) :
    w.Mirrored (w.StrayChain loosest s) u u'
      (do
        match ← Parser.firstOperator w.whole (nested w.whole levels) lhs chained
            (candidates w.whole trigger loosest) with
        | some (e, n) =>
          Parser.chain w.whole (nested w.whole levels) loosest fuel ⟨e, false⟩ (chainName? n)
        | none => return lhs)
      (do
        match ← Parser.firstOperator w.part (nested w.part levels) lhs chained
            (candidates w.part trigger loosest) with
        | some (e, n) =>
          Parser.chain w.part (nested w.part levels) loosest fuel' ⟨e, false⟩ (chainName? n)
        | none => return lhs) := by
  have hmem := mem_standardEntries_of_mem_candidates w.dictionary trigger loosest
  have hfiled : ∀ n ∈ candidates w.whole trigger loosest,
      n ∈ Dictionary.standardEntries ∧ n.followsOperand ∧ n.trigger = some trigger := by
    intro n hn
    have hoperator := (List.mem_filter.mp hn).1
    rw [w.dictionary] at hoperator
    exact ⟨(hmem n hn).1, (hmem n hn).2, (Dictionary.entry_of_mem_operators hoperator).2⟩
  have hsame : candidates w.part trigger loosest = candidates w.whole trigger loosest := by
    rw [candidates, candidates, w.dictionary, w.dictionary']
  have hreads : Ensures (fun found t => found.isSome → ReadsOn u t) u
      (Parser.firstOperator w.whole (nested w.whole levels) lhs chained
        (candidates w.whole trigger loosest)) :=
    readsOn_firstOperator (w.keeps_inner levels)
      (fun n hn => (Dictionary.steady_standardEntries n (hmem n hn).1).abortsOnly) _ _
      (State.rest_ne_nil_of_atTerminator hgoes)
  have hclose := not_closes_of_atTerminator (Bool.eq_false_iff.mpr hgoes)
  rw [hsame]
  refine (hl.firstOperator hfiled lhs chained hu hclose).and_runs.bind_of_runs
    (fun found v hv => ?_) fun found v v' hruns hv => ?_
  · obtain ⟨hruns, hsome, hastray⟩ := hv
    obtain ⟨⟨e, n⟩, rfl⟩ := Option.isSome_iff_exists.mp hsome
    have hbuilt := (built_firstOperator hmem lhs chained u _ _ hruns).1
    exact hon.astray hastray (hreads _ _ hruns rfl) (hbuilt e n rfl) _
  · cases found with
    | some found => exact hon.mirrored hv (hreads _ _ hruns rfl) _ _
    | none => exact .pure hv _

theorem Level.chainFactor (hspaced : u.pastSpacing = u)
    (hnone : (u.current w.whole).trigger?.filter Dictionary.standard.hasOperator = none)
    (chained : Option String) :
    w.Mirrored (w.StrayChain loosest s) u u'
      (do
        let before := (← get).position
        let factor ← (nested w.whole levels).expression Precedence.multiplication.tighter
        if (← get).position == before || factor.isMissing then
          return lhs
        else
          let product := extend "Multiply" (chained == some "Multiply") lhs factor
          Parser.chain w.whole (nested w.whole levels) loosest fuel ⟨product, false⟩ (some "Multiply"))
      (do
        let before := (← get).position
        let factor ← (nested w.part levels).expression Precedence.multiplication.tighter
        if (← get).position == before || factor.isMissing then
          return lhs
        else
          let product := extend "Multiply" (chained == some "Multiply") lhs factor
          Parser.chain w.part (nested w.part levels) loosest fuel' ⟨product, false⟩
            (some "Multiply")) := by
  refine .get ?_
  dsimp only
  refine (hl.expression Precedence.multiplication.tighter hu).and_runs.bind_of_runs
    (fun factor v hv => .get ?_) fun factor v v' hruns hv => .get ?_
  · obtain ⟨hruns, hv⟩ := hv
    have hfollows := ((w.keeps_inner levels).expression _).follows hruns
    split
    · next hends =>
      refine .pure (hv.imp_right fun ⟨_, _, hread⟩ => ?_)
      rcases hread with hplus | ⟨hpresent, hlt⟩
      · -- there is an operator, so no factor is read
        rw [State.FacesPlus, hspaced] at hplus
        rw [trigger?_of_plus hplus, Option.filter_some, ← w.dictionary, hasOperator_plus w.dictionary]
          at hnone
        cases hnone
      · have htotal := hfollows.position_add_length_rest
        rw [hpresent, Bool.or_false, beq_iff_eq] at hends
        omega
    · next hmore =>
      simp only [Bool.or_eq_true, not_or, beq_iff_eq] at hmore
      exact hon.astray hv.astray ⟨hfollows, hfollows.length_rest_lt hmore.1⟩ (isMissing_extend ..) _
  · have hplace : (v'.position == u'.position) = (v.position == u.position) := by
      rw [hv.position, hu.position, Bool.eq_iff_iff, beq_iff_eq, beq_iff_eq]
      omega
    rw [hplace]
    refine .ite (fun _ => .pure hv _) fun hmore => ?_
    simp only [Bool.or_eq_true, not_or, beq_iff_eq] at hmore
    have hfollows := ((w.keeps_inner levels).expression _).follows hruns
    exact hon.mirrored hv ⟨hfollows, hfollows.length_rest_lt hmore.1⟩ _ _

end

theorem Level.chain (hl : w.Level levels) (loosest : Precedence) {fuel fuel' : Nat}
    (hs : w.Beside s s') (hfuel : s.rest.length ≤ fuel) (hfuel' : s'.rest.length ≤ fuel')
    (lhs : Operand) (chained : Option String) :
    w.Mirrored (w.StrayChain loosest s) s s'
      (Parser.chain w.whole (nested w.whole levels) loosest fuel lhs chained)
      (Parser.chain w.part (nested w.part levels) loosest fuel' lhs chained) := by
  -- every step reads a token on both sides, so neither runs out of fuel
  induction fuel generalizing s s' fuel' lhs chained with
  | zero =>
    obtain ⟨x, xs, -, hrest⟩ := hs.exists_rest
    rw [hrest] at hfuel
    cases hfuel
  | succ fuel ih =>
    obtain ⟨x, xs, hrest', hrest⟩ := hs.exists_rest
    obtain ⟨fuel', rfl⟩ : ∃ more, fuel' = more + 1 := by
      rw [hrest', List.length_cons] at hfuel'
      exact Nat.exists_eq_add_of_le' (Nat.le_of_add_left_le hfuel')
    rw [Parser.chain, Parser.chain]
    refine .skipSpacing hs fun hu =>
      .atTerminator hu (.ite (fun _ => .pure hu _) fun hgoes => .current ?_)
    rw [← hu.atTerminator] at hgoes
    have hspaced := s.pastSpacing_pastSpacing
    have hle : s.pastSpacing.rest.length ≤ s.rest.length := State.length_rest_forward_le s _
    have hlengths := hs.length_rest
    generalize s.pastSpacing = u at hu hgoes hspaced hle
    generalize s'.pastSpacing = u' at hu
    have hon : w.ChainsOn levels loosest fuel fuel' s u :=
      { mirrored := fun {v v'} hv hreads lhs chained => by
          have hless := hreads.2
          have hlengths' := hv.length_rest
          exact (ih hv (by omega) (by omega) lhs chained).mono fun e t h => h.of_le (by omega)
        astray := fun {v} hv hreads lhs hlhs chained => by
          have hless := hreads.2
          exact hv.ensures_chain (hu.signless_of_follows hreads.1) (by omega) (by omega) hlhs loosest
            chained }
    have htrigger : (u'.current w.part).trigger? = (u.current w.whole).trigger? := by
      rw [hu.current, trigger?_place]
    rw [htrigger, hu.current, isPunct_place, w.dictionary, w.dictionary', ← hu.current]
    refine .ite (fun _ => hl.chainApplication hon hu _ hgoes) fun _ => ?_
    split
    · exact hl.chainOperator hon hu _ hgoes _ chained
    · next hnone =>
      exact .ite (fun _ => .pure hu _) fun _ => hl.chainFactor hon hu _ hspaced hnone chained

/-! ### Levels -/

theorem StrayChain.expression {loosest : Precedence} {e : Expression} {u : State}
    (h : w.StrayChain loosest u e t) (hu : u.rest.length ≤ s.rest.length) :
    w.StrayExpression loosest s e t :=
  (h.of_le hu).imp_right fun ⟨htight, hstranded, he, hlt⟩ => ⟨htight, hstranded, .inr ⟨he, hlt⟩⟩

/-- What an expression does behind its first operand. -/
def goOn (env : Env) (inner : Inner) (loosest : Precedence) : Option Operand → Parser Expression
  | some lhs => do Parser.chain env inner loosest (← get).rest.length lhs none
  | none => do
    let t ← current env
    match t.trigger?.filter env.dictionary.hasOperator with
    | some trigger =>
      if ← atTerminator env then
        return .missing
      else
        recordAt t .expectedOperand trigger
        Parser.chain env inner loosest (← get).rest.length { expression := .missing } none
    | none => return .missing

theorem expressionAt_eq (env : Env) (inner : Inner) (loosest : Precedence) :
    Parser.expressionAt env inner loosest = operand env inner >>= goOn env inner loosest :=
  rfl

theorem ensures_goOn_of_past {u : State} (hpast : w.Past u) (loosest : Precedence) (o : Option Operand) :
    Ensures (w.StrayExpression loosest s) u (goOn w.whole (nested w.whole levels) loosest o) := by
  have hchain (lhs : Operand) {v : State} (hv : w.Past v) :
      Ensures (w.StrayExpression loosest s) v
        (Parser.chain w.whole (nested w.whole levels) loosest v.rest.length lhs none) :=
    (ensures_past (keeps_chain w levels loosest _ lhs none) hv).mono fun _ _ h => .inl h
  cases o with
  | some lhs => exact .get (hchain lhs hpast)
  | none =>
    refine .current ?_
    split
    · refine .atTerminator ?_
      split
      · exact .pure (.inl hpast)
      · exact .recordAt (.get (hchain _ hpast))
    · exact .pure (.inl hpast)

theorem ensures_goOn_of_strayOperand {u : State} {o : Option Operand}
    (h : w.StrayOperand s (o.map Operand.expression) u) (hu : u.Signless) (loosest : Precedence) :
    Ensures (w.StrayExpression loosest s) u (goOn w.whole (nested w.whole levels) loosest o) := by
  rcases h with hpast | ⟨hstranded, ⟨ho, hplus⟩ | ⟨e, ho, hpresent, hlt⟩⟩
  · exact ensures_goOn_of_past hpast loosest o
  · -- the sign is an operator without an operand before it
    obtain rfl := Option.map_eq_none_iff.mp ho
    refine .current ?_
    simp only [trigger?_of_plus hstranded.plus, Option.filter_some, hasOperator_plus w.dictionary,
      if_true]
    refine .atTerminator ?_
    rw [atTerminator_of_sign hu (by decide) hstranded.plus, if_neg Bool.false_ne_true]
    have hreported (problem : Problem) (start stop : Nat) :
        Stranded w.whole w.after.length (u.record problem start stop) :=
      hstranded.noting _
    refine .recordAt (.get ((ensures_chain_of_stranded (hreported _ _ _) hu (Nat.le_refl _) loosest _
      none).mono ?_))
    rintro e t (hpast | ⟨htight, rfl, rfl⟩)
    · exact .inl hpast
    · exact .inr ⟨htight, hreported _ _ _, .inl hplus⟩
  · obtain ⟨lhs, rfl, rfl⟩ := Option.map_eq_some_iff.mp ho
    refine .get ?_
    refine (ensures_chain_of_stranded hstranded hu (Nat.le_refl _) loosest lhs none).mono ?_
    rintro e t (hpast | ⟨htight, rfl, rfl⟩)
    · exact .inl hpast
    · exact .inr ⟨htight, hstranded, .inr ⟨hpresent, hlt⟩⟩

theorem Level.goOn (hl : w.Level levels) (loosest : Precedence) {u u' : State} (hu : w.Beside u u')
    (hle : u.rest.length ≤ s.rest.length) (o : Option Operand) :
    w.Mirrored (w.StrayExpression loosest s) u u'
      (Excerpt.goOn w.whole (nested w.whole levels) loosest o)
      (Excerpt.goOn w.part (nested w.part levels) loosest o) := by
  cases o with
  | some lhs =>
    refine .get ?_
    exact (hl.chain loosest hu (Nat.le_refl _) (Nat.le_refl _) lhs none).mono fun e t h =>
      h.expression hle
  | none =>
    refine .current ?_
    rw [hu.current, trigger?_place, w.dictionary, w.dictionary']
    split
    · refine .atTerminator hu (.ite (fun _ => .pure hu _) fun _ => ?_)
      refine .recordAt hu fun v v' hv hrest => .get ?_
      exact (hl.chain loosest hv (Nat.le_refl _) (Nat.le_refl _) _ none).mono fun e t h =>
        h.expression (hrest ▸ hle)
    · exact .pure hu _

theorem Level.expressionAt (hl : w.Level levels) (loosest : Precedence) (hs : w.Beside s s') :
    w.Mirrored (w.StrayExpression loosest s) s s'
      (Parser.expressionAt w.whole (nested w.whole levels) loosest)
      (Parser.expressionAt w.part (nested w.part levels) loosest) := by
  have hkeeps := Inners.keeps_operand w.hasStandardHooks.abortsOnly (w.keeps_inner levels)
  rw [expressionAt_eq, expressionAt_eq]
  refine (hl.operandHere hs).and_runs.bind_of_runs (fun o u hu => ?_) fun o u u' hruns hu => ?_
  · exact ensures_goOn_of_strayOperand hu.2 (hs.signless_of_follows (hkeeps.follows hu.1)) loosest
  · exact hl.goOn loosest hu (hkeeps.follows hruns).length_rest_le o

/-- Whatever is read inside of the piece is read alike in it and in the whole source. By induction on the
levels that are left. -/
theorem level (w : Excerpt) (levels : Nat) : w.Level levels := by
  induction levels with
  | zero => exact ⟨fun _ _ _ _ => .of_ensures .throw, fun _ => .of_ensures .throw⟩
  | succ levels ih =>
    exact ⟨fun loosest _ _ hs => ih.expressionAt loosest hs, fun hs =>
      (ih.operandHere hs).map fun _ _ hstray => hstray⟩

end TexFormula.Parser.Excerpt
