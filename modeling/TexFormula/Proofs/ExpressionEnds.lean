import TexFormula.MathJson
import TexFormula.Proofs.MissingOperands
import TexFormula.Proofs.Operations
import TexFormula.Proofs.ParsedLevels.Expression
import TexFormula.Proofs.Replays

/-!
# Where expressions end

The loop of operators and factors goes on as long as something can be read. With the standard notations
it stops in two cases only: before a token that ends every expression, and behind a factor that has
been read and is missing, such as an empty pair of braces (`EndsBehindGap`). So if no factor is
missing, all stray tokens between the parts of a source are closing tokens.
-/

namespace TexFormula.Parser

variable {α : Type} {env : Env} {inner : Inner} {s t u : State} {limit : Nat}

theorem Keeps.ensures {m : Parser α} (h : Keeps limit m) (s : State) :
    Ensures (fun _ t => Follows s t) s m :=
  fun _ _ ht => h.follows ht

/-! ### The loop -/

/-- From the first state on tokens have been read. -/
def ReadsOn (s t : State) : Prop :=
  Follows s t ∧ t.rest.length < s.rest.length

theorem ReadsOn.of_forward (hs : s.rest ≠ []) (h : Follows (s.forward 1) t) : ReadsOn s t :=
  ⟨(Follows.forward s 1).trans h,
    Nat.lt_of_le_of_lt h.length_rest_le (State.length_rest_forward_one_lt hs)⟩

theorem State.rest_ne_nil_of_atTerminator (h : ¬s.atTerminator env) : s.rest ≠ [] := by
  intro hnil
  rw [State.atTerminator, State.current_of_rest_nil hnil] at h
  exact h rfl

theorem takeWhile_drop_takeWhile (p : α → Bool) (l : List α) :
    (l.drop (l.takeWhile p).length).takeWhile p = [] := by
  induction l with
  | nil => rfl
  | cons a l ih =>
    by_cases ha : p a
    · rw [List.takeWhile_cons_of_pos ha, List.length_cons, List.drop_succ_cons, ih]
    · rw [List.takeWhile_cons_of_neg ha, List.length_nil, List.drop_zero, List.takeWhile_cons_of_neg ha]

theorem State.pastSpacing_pastSpacing (s : State) : s.pastSpacing.pastSpacing = s.pastSpacing := by
  have hnone : s.pastSpacing.rest.takeWhile State.isSpacing = [] := by
    rw [State.pastSpacing, State.rest_forward, takeWhile_drop_takeWhile]
  rw [State.pastSpacing, hnone, List.length_nil, State.forward_zero]

theorem isSpacing_current_pastSpacing (s : State) :
    State.isSpacing (s.pastSpacing.current env) = false := by
  have hnone : s.pastSpacing.rest.takeWhile State.isSpacing = [] := by
    rw [State.pastSpacing, State.rest_forward, takeWhile_drop_takeWhile]
  cases hrest : s.pastSpacing.rest with
  | nil =>
    rw [State.current_of_rest_nil hrest]
    rfl
  | cons x rest =>
    rw [hrest] at hnone
    rw [State.current_of_rest hrest]
    exact Bool.eq_false_of_not_eq_true fun hx => by simp [hx] at hnone

theorem pastSpacing_of_current (h : State.isSpacing (s.current env) = false) : s.pastSpacing = s := by
  unfold State.pastSpacing
  cases hrest : s.rest with
  | nil => exact State.forward_zero s
  | cons t ts =>
    rw [State.current_of_rest hrest] at h
    rw [List.takeWhile_cons_of_neg (by rw [h]; exact Bool.false_ne_true)]
    exact State.forward_zero s

/-- The last thing that has been read is a factor that is missing. -/
def EndsBehindGap (env : Env) (inner : Inner) (s t : State) : Prop :=
  ∃ u, Follows s u ∧ ReadsOn u t ∧ opensGap (u.current env) ∧
    Runs (inner.expression Precedence.multiplication.tighter) u .missing t

theorem EndsBehindGap.of_follows (hs : Follows s u) (h : EndsBehindGap env inner u t) :
    EndsBehindGap env inner s t := by
  obtain ⟨v, hv, hrest⟩ := h
  exact ⟨v, hs.trans hv, hrest⟩

/-- Where neither the expression ends nor an operator is next, a factor is read, and it is missing
only if it starts with a token that opens a gap. -/
def ReadsFactors (env : Env) (inner : Inner) : Prop :=
  ∀ s, s.pastSpacing = s → ¬s.atTerminator env → ¬s.AtOperator env →
    Ensures (fun e t => ReadsOn s t ∧ (e.isMissing → opensGap (s.current env))) s
      (inner.expression Precedence.multiplication.tighter)

/-- Where a factor has been read that took no token or is missing, it is a gap. -/
theorem ReadsFactors.endsBehindGap (hf : ReadsFactors env inner) (hspaced : s.pastSpacing = s)
    (hstop : ¬s.atTerminator env) (hoperator : ¬s.AtOperator env) {factor : Expression}
    (hruns : Runs (inner.expression Precedence.multiplication.tighter) s factor t)
    (hends : (t.position == s.position || factor.isMissing) = true) : EndsBehindGap env inner s t := by
  obtain ⟨hreads, hgap⟩ := hf s hspaced hstop hoperator factor t hruns
  rcases Bool.or_eq_true_iff.mp hends with hplace | hmissing
  · have hlength := hreads.1.position_add_length_rest
    have hless := hreads.2
    have hsame : t.position = s.position := eq_of_beq hplace
    omega
  · cases factor with
    | missing => exact ⟨s, .refl s, hreads, hgap hmissing, hruns⟩
    | _ => cases hmissing

section

variable (hk : (keeps limit).Inners inner inner)

include hk

theorem readsOn_delimitedArguments (hs : s.rest ≠ []) :
    Ensures (fun _ t => ReadsOn s t) s (delimitedArguments env inner) := by
  have hbody : (keeps limit).rel (groupBody env inner ")" (.punct ')'))
      (groupBody (env.allowing limit) inner ")" (.punct ')')) :=
    hk.groupBody _ _
  refine .advance (.bind (Keeps.ensures hbody _) fun body t ht => .pure ?_)
  exact .of_forward hs ht

theorem readsOn_firstOperator {notations : List Notation}
    (h : ∀ n ∈ notations, n.AbortsOnly (· = .depthExceeded limit)) (lhs : Expression)
    (chained : Option String) (hs : s.rest ≠ []) :
    Ensures (fun found t => found.isSome → ReadsOn s t) s
      (firstOperator env inner lhs chained notations) := by
  induction notations with
  | nil => exact .pure nofun
  | cons n rest ih =>
    obtain ⟨hn, hrest⟩ := List.forall_mem_cons.mp h
    have happly : (keeps limit).rel (applyOperator env inner n lhs chained)
        (applyOperator (env.allowing limit) inner n lhs chained) :=
      hk.applyOperator hn lhs chained
    refine .orElse (Q := fun found t => (found.isSome → ReadsOn s t) ∧ (found = none → t = s)) ?_
      (fun _ _ ht => ht.1) fun t ht => ?_
    · refine .attempt (Q := fun _ t => ReadsOn s t) (.advance ?_) ⟨nofun, fun _ => rfl⟩
        fun _ _ ht => ⟨fun _ => ht, nofun⟩
      exact .bind (Keeps.ensures happly _) fun o t ht => .pure (.of_forward hs ht)
    · rw [ht.2 rfl]
      exact ih hrest

variable (hd : env.dictionary = .standard)

include hd

/-- An operator that is next is always applied in the loop that takes all of them. -/
theorem readsOn_candidates {trigger : String} (hoperator : env.dictionary.hasOperator trigger)
    (lhs : Expression) (chained : Option String) (hs : s.rest ≠ []) :
    Ensures (fun found t => found.isSome ∧ ReadsOn s t) s
      (firstOperator env inner lhs chained (candidates env trigger .loosest)) := by
  have hmem := mem_standardEntries_of_mem_candidates hd trigger .loosest
  have haborts : ∀ n ∈ candidates env trigger .loosest, n.AbortsOnly (· = .depthExceeded limit) :=
    fun n hn => (Dictionary.steady_standardEntries n (hmem n hn).1).abortsOnly
  refine ((built_firstOperator hmem lhs chained s).and
    (readsOn_firstOperator hk haborts lhs chained hs)).mono fun found t ht => ?_
  have hfound : found.isSome := ht.1.2 (candidates_loosest_ne_nil hoperator)
  exact ⟨hfound, ht.2 hfound⟩

variable (hf : ReadsFactors env inner)

include hf

/-- The loop stops where the expression ends or behind a factor that is missing. -/
theorem stops_chain {fuel : Nat} (hfuel : s.rest.length ≤ fuel) (lhs : Operand)
    (chained : Option String) :
    Ensures (fun _ t => t.atTerminator env ∨ EndsBehindGap env inner s t) s
      (chain env inner .loosest fuel lhs chained) := by
  induction fuel generalizing s lhs chained with
  | zero =>
    refine .pure (.inl ?_)
    by_contra hstop
    exact State.rest_ne_nil_of_atTerminator hstop (List.length_eq_zero_iff.mp (Nat.le_zero.mp hfuel))
  | succ fuel ih =>
    have hpast : Follows s s.pastSpacing := .forward s _
    have hfuel : s.pastSpacing.rest.length ≤ fuel + 1 := Nat.le_trans hpast.length_rest_le hfuel
    have hspaced := State.pastSpacing_pastSpacing s
    refine .skipSpacing ?_
    change Ensures _ s.pastSpacing _
    generalize s.pastSpacing = u at hpast hfuel hspaced
    -- a step of the loop reads on
    have hgo {t : State} (ht : ReadsOn u t) (lhs : Operand) (chained : Option String) :
        Ensures (fun _ t => t.atTerminator env ∨ EndsBehindGap env inner s t) t
          (chain env inner .loosest fuel lhs chained) := by
      refine (ih (Nat.le_of_lt_succ (Nat.lt_of_lt_of_le ht.2 hfuel)) lhs chained).mono fun _ v hv => ?_
      exact hv.imp_right (.of_follows (hpast.trans ht.1))
    refine .atTerminator ?_
    split
    · next hstop => exact .pure (.inl hstop)
    · next hstop =>
      have hne := State.rest_ne_nil_of_atTerminator hstop
      refine .current ?_
      dsimp only
      split
      · exact .bind (readsOn_delimitedArguments hk hne) fun arguments t ht => hgo ht _ _
      · split
        · next trigger htrigger =>
          have hoperator : env.dictionary.hasOperator trigger :=
            (Option.filter_eq_some_iff.mp htrigger).2
          refine .bind (readsOn_candidates hk hd hoperator lhs.expression chained hne)
            fun found t ht => ?_
          split
          · exact hgo ht.2 _ _
          · cases ht.1
        · next hnone =>
          have hoperator : ¬u.AtOperator env := by
            rw [State.AtOperator, hnone]
            exact Bool.false_ne_true
          split
          · exact .pure (.inl (by contradiction))
          · refine .get (.bind (Q := fun e t => Runs (inner.expression _) u e t) (fun _ _ h => h)
              fun factor t hruns => .get ?_)
            split
            · next hends =>
              have hgap := hf.endsBehindGap hspaced hstop hoperator hruns hends
              exact .pure (.inr (.of_follows hpast hgap))
            · exact hgo (hf u hspaced hstop hoperator factor t hruns).1 _ _

/-- An expression ends where no other can, or behind a factor that is missing. -/
theorem stops_expressionAt (hkeep : env.LeavesNothingOut) (s : State) :
    Ensures (fun _ t => t.atTerminator env ∨ EndsBehindGap env inner s t) s
      (expressionAt env inner .loosest) := by
  have hhooks : env.dictionary.HasStandardHooks := hd ▸ Dictionary.hasStandardHooks_standard
  have hfollows := Keeps.ensures (Inners.keeps_operand hhooks.abortsOnly hk) s
  unfold expressionAt
  refine .bind ((operandBegun_operand hd hkeep s).and hfollows) fun o t hall => ?_
  obtain ⟨hbegun, ht⟩ := hall
  split
  · refine .get ((stops_chain hk hd hf (Nat.le_refl _) _ none).mono fun _ v hv => ?_)
    exact hv.imp_right (.of_follows ht)
  · have hstops := hbegun.stops_of_none rfl
    rw [← hbegun.eq_of_none rfl] at hstops
    refine .current ?_
    split
    · refine .atTerminator ?_
      split
      · next hstop => exact .pure (.inl hstop)
      · refine .recordAt (.get ((stops_chain hk hd hf (Nat.le_refl _) _ none).mono fun _ v hv => ?_))
        exact hv.imp_right (.of_follows (ht.trans (.record ..)))
    · next hnone =>
      refine .pure (.inl (hstops.resolve_right fun hoperator => ?_))
      rw [State.AtOperator, hnone] at hoperator
      cases hoperator

end

/-! ### All levels of nesting -/

/-- By the levels allowed: the readers of each level read factors by those of the next. -/
theorem readsFactors_nested (hd : env.dictionary = .standard) (hkeep : env.LeavesNothingOut)
    (levels : Nat) : ReadsFactors env (nested env levels) := by
  intro s hspaced hstop hoperator
  cases levels with
  | zero => exact .throw
  | succ levels =>
    have hne := State.rest_ne_nil_of_atTerminator hstop
    obtain ⟨n, hn⟩ : ∃ n, s.rest.length = n + 1 := Nat.exists_eq_succ_of_ne_zero
      (Nat.pos_iff_ne_zero.mp (List.length_pos_iff.mpr hne))
    have hhooks : env.dictionary.HasStandardHooks := hd ▸ Dictionary.hasStandardHooks_standard
    have hk := keeps_nested hhooks levels
    have hfollows := Keeps.ensures (Inners.keeps_operand hhooks.abortsOnly hk) s
    have hfits : Ensures (OperandFits n) s (operand env (nested env levels)) :=
      operandFits_operandWithin (fitting_nested hd levels) hd _ (Nat.le_of_eq hn)
    have hbegun : Ensures (OperandBegun env s.pastSpacing) s (operand env (nested env levels)) :=
      operandBegun_operand hd hkeep s
    rw [hspaced] at hbegun
    show Ensures _ s (expressionAt env (nested env levels) _)
    unfold expressionAt
    refine .bind ((hbegun.and hfits).and hfollows) fun o t hall => ?_
    obtain ⟨⟨hbegun, hfits⟩, ht⟩ := hall
    split
    · next lhs =>
      have hchain := Keeps.ensures (Inners.keeps_chain hhooks.abortsOnly hk
        Precedence.multiplication.tighter t.rest.length lhs none) t
      refine .get ((hchain.and (missing_of_chain hd _ _ lhs none t)).mono ?_)
      intro e u ⟨hu, hmissing⟩
      -- an operand takes a token: it fits into one less than there were
      have hread : t.rest.length < s.rest.length := by
        rw [hn]
        exact Nat.lt_succ_of_le (hfits.1 lhs rfl).2
      exact ⟨⟨ht.trans hu, Nat.lt_of_le_of_lt hu.length_rest_le hread⟩,
        fun he => hbegun.opensGap_of_missing lhs rfl (hmissing he)⟩
    · rcases hbegun.stops_of_none rfl with hends | hends
      · exact absurd hends hstop
      · exact absurd hends hoperator

/-- What the readers of the outermost level read from a state in which no level is taken. -/
theorem runs_readers_iff (hs : s.depth = 0) (loosest : Precedence) {e : Expression} :
    Runs (env.readers.expression loosest) s e t ↔
      Runs ((nested env env.options.maxDepth).expression loosest) s e t := by
  have hsame : SameAtDepths env.options.maxDepth env.options.maxDepth _ _ :=
    (inners_within env env.options.maxDepth).expression loosest
  rw [Runs, Runs, Env.readers, hsame.apply_eq (by rw [hs, Nat.zero_add])]

theorem follows_parts (hd : env.dictionary.HasStandardHooks) (rounds : Nat) (s : State) :
    Ensures (fun _ t => Follows s t) s (parts env env.readers rounds) := by
  have hparts : (keeps env.options.maxDepth).rel (parts env env.readers rounds)
      (parts (env.allowing env.options.maxDepth) env.readers rounds) :=
    (inners_keeps hd.abortsOnly env.options.maxDepth).parts rounds
  exact Keeps.ensures hparts s

theorem stops_readers (hd : env.dictionary = .standard) (hkeep : env.LeavesNothingOut)
    (hs : s.depth = 0) {e : Expression} (h : Runs (env.readers.expression .loosest) s e t) :
    t.atTerminator env ∨ EndsBehindGap env env.readers s t := by
  have hhooks : env.dictionary.HasStandardHooks := hd ▸ Dictionary.hasStandardHooks_standard
  rw [runs_readers_iff hs] at h
  cases hdepth : env.options.maxDepth with
  | zero =>
    rw [hdepth] at h
    exact absurd h not_runs_throw
  | succ levels =>
    rw [hdepth] at h
    have hstops := stops_expressionAt (keeps_nested hhooks levels) hd
      (readsFactors_nested hd hkeep levels) hkeep s e t h
    refine hstops.imp_right fun ⟨u, hu, hread, hgap, hmissing⟩ => ⟨u, hu, hread, hgap, ?_⟩
    rw [runs_readers_iff (hu.depth.trans hs), hdepth]
    exact runs_expression_of_le hhooks (Nat.le_succ levels) hmissing

/-- A source under the standard notations and the default options. -/
def Env.standard (source : String) : Env :=
  ⟨source, .standard, {}⟩

theorem leavesNothingOut_standard (source : String) : (Env.standard source).LeavesNothingOut := by
  intro token
  show UnknownTokenPolicy.standardDisposition token ≠ .skip
  unfold UnknownTokenPolicy.standardDisposition
  split <;> nofun

/-- After any number of rounds, what is read as the next part of a source ends before a token that
ends every expression, or behind a factor that is missing. Such a factor starts with a brace, `\left`
or one of the commands for names, texts and open places. -/
theorem stops_of_parts {source : String} {rounds : Nat} {es : List Expression} {e : Expression}
    {s t : State}
    (hs : Runs (parts (.standard source) (Env.standard source).readers rounds) (.ofSource source) es s)
    (h : Runs ((Env.standard source).readers.expression .loosest) s e t) :
    State.endsExpression (t.current (.standard source)).kind ∨
      EndsBehindGap (.standard source) (Env.standard source).readers s t := by
  have hhooks := Dictionary.hasStandardHooks_standard
  have hfollows : Follows (.ofSource source) s := follows_parts hhooks rounds _ es s hs
  have hread : Ensures (fun _ t => Follows s t) s
      ((Env.standard source).readers.expression .loosest) :=
    Keeps.ensures ((inners_keeps hhooks.abortsOnly _).expression .loosest) s
  have hclosers : t.closers = [] := (hfollows.trans (hread e t h)).closers
  refine (stops_readers rfl (leavesNothingOut_standard source) hfollows.depth h).imp_left fun hstop => ?_
  rw [State.atTerminator, hclosers] at hstop
  exact (Bool.or_false _).symm.trans hstop

theorem exists_runs_of_eq_some {m : Parser α} {a : α} (h : m.run' s = some a) : ∃ t, Runs m s a t := by
  unfold EStateM.run' at h
  split at h
  · next t hm =>
    cases h
    exact ⟨t, hm⟩
  · cases h

/-- Behind the stray parenthesis the second part is read to the end. -/
theorem stops_of_parts_parenthesis : ∃ es s e t,
    Runs (parts (.standard "x)y") (Env.standard "x)y").readers 1) (.ofSource "x)y") es s ∧
    Runs ((Env.standard "x)y").readers.expression .loosest) s e t ∧
    (State.endsExpression (t.current (.standard "x)y")).kind ∨
      EndsBehindGap (.standard "x)y") (Env.standard "x)y").readers s t) := by
  have hread : (parts (.standard "x)y") (Env.standard "x)y").readers 1 >>= fun _ =>
      (Env.standard "x)y").readers.expression .loosest >>= fun _ => pure ()).run'
      (.ofSource "x)y") = some () := by decide +kernel
  obtain ⟨_, hruns⟩ := exists_runs_of_eq_some hread
  obtain ⟨es, s, hs, hruns⟩ := runs_bind.mp hruns
  obtain ⟨e, t, h, -⟩ := runs_bind.mp hruns
  exact ⟨es, s, e, t, hs, h, stops_of_parts hs h⟩

/-- A letter behind an open place, which is a factor of the letter before it. -/
def openFactor : String :=
  "x\\placeholder y"

/-- Behind the open place the expression ends before the letter, which is reported as a stray token. -/
theorem not_stops_of_parts_openFactor : ∃ e t,
    Runs (parts (.standard openFactor) (Env.standard openFactor).readers 0) (.ofSource openFactor) []
      (.ofSource openFactor) ∧
    Runs ((Env.standard openFactor).readers.expression .loosest) (.ofSource openFactor) e t ∧
    State.endsExpression (t.current (.standard openFactor)).kind = false ∧
    (parse .standard {} openFactor).toOption.map (fun p => (MathJson.encode p.expression).compact) =
      some "[\"Sequence\",\"x\",[\"Error\",[\"LatexString\",\"'y'\"],\"'unexpected-token'\"]]" := by
  have hends : ((Env.standard openFactor).readers.expression .loosest >>= fun _ => do
      return State.endsExpression (← current (.standard openFactor)).kind).run'
      (.ofSource openFactor) = some false := by decide +kernel
  obtain ⟨_, hruns⟩ := exists_runs_of_eq_some hends
  obtain ⟨e, t, h, hruns⟩ := runs_bind.mp hruns
  rw [runs_current, runs_pure] at hruns
  refine ⟨e, t, rfl, h, hruns.1.symm, ?_⟩
  decide +kernel

end TexFormula.Parser
