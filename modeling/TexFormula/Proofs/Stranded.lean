import TexFormula.Proofs.MissingOperands
import TexFormula.Proofs.Replays

/-!
# Plus signs that are taken back

A plus sign in front of an operand is taken back if the operand is missing. Then it is an operator
behind something missing, and its right operand is read from the same place again. So if what has been
taken back had come past some place, a loop that goes on with the sign comes past it as well
(`Stranded.length_le_of_chain`), and all others leave the sign alone (`chain_of_plus`).
-/

namespace TexFormula.Parser

variable {env : Env} {inner : Inner} {s t : State} {n levels : Nat} {loosest : Precedence}
  {e : Expression}

/-- No sign and no point is waited for. -/
def State.Signless (s : State) : Prop :=
  ∀ closer ∈ s.closers.head?, closer ∉ ["+", "-", "."]

theorem State.Signless.forward (h : s.Signless) (count : Nat) : (s.forward count).Signless := by
  unfold Signless
  rw [closers_forward]
  exact h

/-- The plus sign that is next has been taken back, as it stands before something missing. What had been
read behind it goes on to a place where at most `n` tokens are left, or to another such sign. -/
inductive Stranded (env : Env) (n : Nat) : State → Prop
  | passes {s t : State} {levels : Nat} {e : Expression} (hplus : (s.current env).isPunct '+')
      (hruns : Runs ((nested env levels).expression Precedence.addition.tighter) (s.forward 1) e t)
      (hmissing : e.isMissing) (hpast : t.rest.length ≤ n) : Stranded env n s
  | again {s t : State} {levels : Nat} {e : Expression} (hplus : (s.current env).isPunct '+')
      (hruns : Runs ((nested env levels).expression Precedence.addition.tighter) (s.forward 1) e t)
      (hmissing : e.isMissing) (ht : Stranded env n t) : Stranded env n s

namespace Stranded

theorem plus (h : Stranded env n s) : (s.current env).isPunct '+' := by
  cases h with
  | passes hplus => exact hplus
  | again hplus => exact hplus

theorem exists_run (h : Stranded env n s) : ∃ levels e t, e.isMissing ∧
    Runs ((nested env levels).expression Precedence.addition.tighter) (s.forward 1) e t := by
  cases h with
  | passes _ hruns hmissing _ => exact ⟨_, _, _, hmissing, hruns⟩
  | again _ hruns hmissing _ => exact ⟨_, _, _, hmissing, hruns⟩

theorem noting (h : Stranded env n s) (diagnostics : List Diagnostic) :
    Stranded env n (s.noting diagnostics) := by
  induction h generalizing diagnostics with
  | passes hplus hruns hmissing hpast =>
    obtain ⟨after, hafter⟩ := (unswayed_nested env _).expression _ _ diagnostics _ _ hruns
    rw [← State.noting_forward] at hafter
    exact .passes hplus hafter hmissing hpast
  | again hplus hruns hmissing _ ih =>
    obtain ⟨after, hafter⟩ := (unswayed_nested env _).expression _ _ diagnostics _ _ hruns
    rw [← State.noting_forward] at hafter
    exact .again hplus hafter hmissing (ih after)

end Stranded

/-! ### Tokens that are no delimiters -/

theorem exists_rest_of_isPunct {c : Char} (h : (s.current env).isPunct c) :
    ∃ t rest, s.rest = t :: rest ∧ t.kind = .punct c := by
  cases hrest : s.rest with
  | nil =>
    rw [State.current_of_rest_nil hrest] at h
    cases h
  | cons t rest =>
    rw [State.current_of_rest hrest] at h
    exact ⟨t, rest, rfl, eq_of_beq h⟩

theorem forward_spacing_of_punct {c : Char} {u : Token} {rest : List Token} (hs : s.rest = u :: rest)
    (hu : u.kind = .punct c) : s.forward (s.rest.takeWhile State.isSpacing).length = s := by
  have hspacing : State.isSpacing u = false := by simp only [State.isSpacing, hu]
  rw [hs, List.takeWhile_cons_of_neg (by rw [hspacing]; exact Bool.false_ne_true)]
  exact State.forward_zero s

theorem atTerminator_of_sign (hs : s.Signless) {c : Char} (hc : c ∈ ['+', '-', '.'])
    (h : (s.current env).isPunct c) : s.atTerminator env = false := by
  have hkind : (s.current env).kind = .punct c := eq_of_beq h
  have htrigger : (s.current env).trigger? = some (String.singleton c) := by
    rw [Token.trigger?, hkind]
    rfl
  have hlisted : String.singleton c ∈ ["+", "-", "."] := by
    revert hc
    simp only [List.mem_cons, List.not_mem_nil, or_false]
    rintro (rfl | rfl | rfl) <;> decide
  unfold State.atTerminator
  simp only [hkind, htrigger, Bool.or_eq_false_iff]
  constructor
  · revert hc
    simp only [List.mem_cons, List.not_mem_nil, or_false]
    rintro (rfl | rfl | rfl) <;> rfl
  · split
    · next closer trigger hcloser heq =>
      cases heq
      refine beq_false_of_ne fun heq => hs closer hcloser ?_
      rw [heq]
      exact hlisted
    · rfl

/-! ### Numbers -/

theorem startsNumber_cases (h : startsNumber s.rest) : ∃ u rest, s.rest = u :: rest ∧
    ((∃ run, u.kind = .digits run) ∨ u.kind = .punct '.') := by
  cases hrest : s.rest with
  | nil => simp [hrest, startsNumber] at h
  | cons u rest =>
    refine ⟨u, rest, rfl, ?_⟩
    simp only [hrest, startsNumber, Bool.or_eq_true, Bool.and_eq_true] at h
    rcases h with hdigits | ⟨hpoint, -⟩
    · left
      unfold Token.digits? at hdigits
      split at hdigits
      · next run hkind => exact ⟨run, hkind⟩
      · cases hdigits
    · exact .inr (eq_of_beq hpoint)

/-- Where a number starts, no other shape does. -/
theorem runs_builtin_of_startsNumber {o : Option Operand} (h : startsNumber s.rest)
    (hruns : Runs (builtin env inner) s o t) :
    ∃ v, Runs (number env false) s v t ∧ o = some { expression := v } := by
  have hnumber {o : Option Operand} (h : Runs (do return some { expression := ← number env false })
      s o t) : ∃ v, Runs (number env false) s v t ∧ o = some { expression := v } := by
    obtain ⟨v, u, hv, hend⟩ := runs_bind.mp h
    obtain ⟨rfl, rfl⟩ := runs_pure.mp hend
    exact ⟨v, hv, rfl⟩
  obtain ⟨u, rest, hrest, ⟨run, hkind⟩ | hkind⟩ := startsNumber_cases h
  all_goals
    unfold builtin at hruns
    rw [runs_get] at hruns
    simp only [State.current_of_rest hrest, hkind] at hruns
  · exact hnumber hruns
  · rw [if_neg (by decide), h] at hruns
    exact hnumber hruns

theorem startsNumber_goes (hs : s.Signless) (h : startsNumber s.rest) :
    (s.rest.takeWhile State.isSpacing).length = 0 ∧ s.atTerminator env = false := by
  obtain ⟨first, rest, hrest, hkind⟩ := startsNumber_cases h
  constructor
  · have hspacing : State.isSpacing first = false := by
      rcases hkind with ⟨run, hkind⟩ | hkind <;> simp only [State.isSpacing, hkind]
    rw [hrest, List.takeWhile_cons_of_neg (by rw [hspacing]; exact Bool.false_ne_true)]
    rfl
  · rcases hkind with ⟨run, hkind⟩ | hkind
    · rw [State.atTerminator, State.current_of_rest hrest, Token.trigger?, hkind]
      cases s.closers.head? <;> rfl
    · refine atTerminator_of_sign hs (c := '.') (by decide) ?_
      rw [State.current_of_rest hrest, Token.isPunct, hkind]
      rfl

/-- What is built in comes first and answers. -/
theorem runs_operand_of_startsNumber {o : Option Operand} (hs : s.Signless) (h : startsNumber s.rest)
    (hruns : Runs (operand env inner) s o t) :
    ∃ v, Runs (number env false) s v t ∧ o = some { expression := v } := by
  obtain ⟨first, rest, hrest, -⟩ := startsNumber_cases h
  obtain ⟨hspacing, hgoes⟩ := @startsNumber_goes env s hs h
  rw [hrest] at hspacing
  unfold operand at hruns
  rw [runs_get, hrest, List.length_cons, operandWithin, runs_skipSpacing, hrest, hspacing,
    State.forward_zero, runs_atTerminator, hgoes, if_neg Bool.false_ne_true] at hruns
  have hknown {o : Option Operand} {u : State}
      (ho : Runs (orElse (builtin env inner) (notated env inner)) s o u) :
      ∃ v, Runs (number env false) s v u ∧ o = some { expression := v } := by
    rcases runs_orElse.mp ho with ⟨-, ho⟩ | ⟨u', hnone, -⟩
    · exact runs_builtin_of_startsNumber h ho
    · obtain ⟨v, -, hv⟩ := runs_builtin_of_startsNumber h hnone
      cases hv
  rcases runs_orElse.mp hruns with ⟨-, ho⟩ | ⟨u', hnone, -⟩
  · exact hknown ho
  · obtain ⟨v, -, hv⟩ := hknown hnone
    cases hv

/-- An expression that starts with a number is there, and it goes at least as far as the number. -/
theorem runs_expression_of_startsNumber (hd : env.dictionary = .standard) (hs : s.Signless)
    (h : startsNumber s.rest) (hruns : Runs ((nested env levels).expression loosest) s e t) :
    e.isMissing = false ∧
      ∃ v u, Runs (number env false) s v u ∧ t.rest.length ≤ u.rest.length := by
  cases levels with
  | zero => exact absurd hruns not_runs_throw
  | succ levels =>
    obtain ⟨o, u, ho, hruns⟩ := runs_bind.mp hruns
    obtain ⟨v, hv, rfl⟩ := runs_operand_of_startsNumber hs h ho
    have hhooks : env.dictionary.HasStandardHooks := hd ▸ Dictionary.hasStandardHooks_standard
    refine ⟨?_, v, u, hv, ?_⟩
    · have hpresent : v.isMissing = false := present_number false s v u hv
      refine Bool.eq_false_iff.mpr fun hmissing => ?_
      have hnumber : v.isMissing := missing_of_chain hd loosest _ _ _ _ _ _ hruns hmissing
      rw [hpresent] at hnumber
      cases hnumber
    · have hkeeps := Inners.keeps_chain hhooks.abortsOnly (keeps_nested hhooks levels)
      exact ((hkeeps _ _ _ _).follows hruns).length_rest_le

/-! ### Operands and loops at a sign that has been taken back -/

/-- The operator of sums. -/
def infixPlus : Notation :=
  ((Notation.ofInfix "Add" "+" .addition).variadic.withArity 0 none).withWriter Writers.sum

/-- The plus sign in front of an operand. -/
def prefixPlus : Notation :=
  ((Notation.ofPrefix "Add" "+" .addition).withReader Readers.unaryPlus).onlyParsed

theorem operands_plus (hd : env.dictionary = .standard) :
    env.dictionary.operands "+" = [prefixPlus] := by
  rw [hd]
  rfl

theorem operators_plus (hd : env.dictionary = .standard) :
    env.dictionary.operators "+" = [infixPlus] := by
  rw [hd]
  rfl

theorem candidates_plus (hd : env.dictionary = .standard) (loosest : Precedence) :
    candidates env "+" loosest = if loosest ≤ .addition then [infixPlus] else [] := by
  rw [candidates, operators_plus hd]
  split
  · next hloose => exact List.filter_cons_of_pos (decide_eq_true hloose)
  · next htight =>
    exact List.filter_cons_of_neg fun hloose => htight (of_decide_eq_true hloose)

theorem trigger?_of_plus (h : (s.current env).isPunct '+') : (s.current env).trigger? = some "+" := by
  rw [Token.trigger?, eq_of_beq h]
  rfl

theorem hasOperator_plus (hd : env.dictionary = .standard) : env.dictionary.hasOperator "+" = true := by
  rw [Dictionary.hasOperator, operators_plus hd]
  rfl

namespace Stranded

theorem builtin (hd : env.dictionary = .standard) (h : Stranded env n s) (hs : s.Signless) :
    Ensures (fun o t => o = none ∧ t = s) s (builtin env inner) := by
  obtain ⟨u, rest, hrest, hkind⟩ := exists_rest_of_isPunct h.plus
  obtain ⟨levels, e, t, hmissing, hruns⟩ := h.exists_run
  have hnumber : startsNumber (s.rest.drop 1) = false := by
    refine Bool.eq_false_iff.mpr fun hstarts => ?_
    rw [← State.rest_forward] at hstarts
    have hpresent := (runs_expression_of_startsNumber hd (hs.forward 1) hstarts hruns).1
    rw [hmissing] at hpresent
    cases hpresent
  unfold Parser.builtin
  refine .get ?_
  dsimp only
  rw [State.current_of_rest hrest, hkind]
  dsimp only
  rw [if_neg (by decide), if_neg (by simp), hnumber, Bool.and_false, if_neg Bool.false_ne_true]
  exact .pure ⟨rfl, rfl⟩

/-- The sign is taken back again, as what is behind it is missing again. -/
theorem notated (hd : env.dictionary = .standard) (h : Stranded env n s) :
    Ensures (fun o t => o = none ∧ t = s) s (notated env (nested env levels)) := by
  obtain ⟨levels', e, t, hmissing, hruns⟩ := h.exists_run
  have hhooks : env.dictionary.HasStandardHooks := hd ▸ Dictionary.hasStandardHooks_standard
  refine .current ?_
  rw [trigger?_of_plus h.plus]
  dsimp only
  rw [operands_plus hd]
  refine .orElse (Q := fun o t => o = none ∧ t = s) ?_ (by rintro o t ⟨⟨⟩, -⟩) ?_
  · refine .attempt (Q := fun o _ => o = none) (.advance ?_) ⟨rfl, rfl⟩ (by rintro o t ⟨⟩)
    refine .map (Q := fun o _ => o = none) ?_ (by rintro _ _ rfl; rfl)
    refine .bind (Q := fun e' _ => e' = e) (fun e' t' h' => ?_) ?_
    · have hagain : Runs _ ((s.forward 1).noting (s.forward 1).diagnostics) e' t' := h'
      exact (runs_expression_again hhooks hruns hagain).1
    · rintro _ _ rfl
      refine .pure ?_
      rw [if_pos hmissing]
  · rintro _ ⟨-, rfl⟩
    exact .pure ⟨rfl, rfl⟩

/-- Nobody reads an operand from such a sign on. -/
theorem operand (hd : env.dictionary = .standard) (h : Stranded env n s) (hs : s.Signless) :
    Ensures (fun o t => o = none ∧ t = s) s (operand env (nested env levels)) := by
  obtain ⟨u, rest, hrest, hkind⟩ := exists_rest_of_isPunct h.plus
  refine .get ?_
  rw [hrest, List.length_cons, operandWithin]
  refine .skipSpacing ?_
  rw [forward_spacing_of_punct hrest hkind]
  refine .atTerminator ?_
  rw [atTerminator_of_sign hs (by decide) h.plus, if_neg Bool.false_ne_true]
  refine .orElse (Q := fun o t => o = none ∧ t = s) ?_ (by rintro o t ⟨⟨⟩, -⟩) ?_
  · refine .orElse (h.builtin hd hs) (by rintro o t ⟨⟨⟩, -⟩) ?_
    rintro _ ⟨-, rfl⟩
    exact h.notated hd
  · rintro t ⟨-, ht⟩
    rw [ht]
    refine .bind (Q := fun operator t => operator = true ∧ t = s) (.current (.pure ⟨?_, rfl⟩)) ?_
    · rw [trigger?_of_plus h.plus, Option.any_some, hasOperator_plus hd]
    · rintro _ t ⟨rfl, ht⟩
      exact .pure ⟨rfl, ht⟩

end Stranded

/-- At a plus sign a loop tries the operators that the sign can stand for. -/
theorem runs_firstOperator_of_chain (hd : env.dictionary = .standard)
    (hplus : (s.current env).isPunct '+') (hs : s.Signless) {fuel : Nat} {lhs : Operand}
    {chained : Option String} (hruns : Runs (chain env inner loosest (fuel + 1) lhs chained) s e t) :
    Runs (do
      match ← firstOperator env inner lhs.expression chained
          (if loosest ≤ .addition then [infixPlus] else []) with
      | some (e, n) => chain env inner loosest fuel ⟨e, false⟩ (chainName? n)
      | none => return lhs.expression) s e t := by
  obtain ⟨u, rest, hrest, hkind⟩ := exists_rest_of_isPunct hplus
  have hcall : (lhs.callable && (s.current env).isPunct '(') = false := by
    rw [State.current_of_rest hrest, Token.isPunct, hkind, Bool.and_eq_false_iff]
    exact .inr rfl
  rw [chain, runs_skipSpacing, forward_spacing_of_punct hrest hkind, runs_atTerminator,
    atTerminator_of_sign hs (by decide) hplus, if_neg Bool.false_ne_true, runs_current, hcall,
    if_neg Bool.false_ne_true, trigger?_of_plus hplus, Option.filter_some, hasOperator_plus hd,
    if_pos rfl] at hruns
  dsimp only at hruns
  rw [candidates_plus hd] at hruns
  exact hruns

/-- A loop of operators that bind more tightly leaves a plus sign alone. -/
theorem chain_of_plus (hd : env.dictionary = .standard) (hplus : (s.current env).isPunct '+')
    (hs : s.Signless) (htight : Precedence.addition < loosest) (fuel : Nat) (lhs : Operand)
    (chained : Option String) :
    Ensures (fun e t => e = lhs.expression ∧ t = s) s
      (chain env inner loosest fuel lhs chained) := by
  cases fuel with
  | zero => exact .pure ⟨rfl, rfl⟩
  | succ fuel =>
    intro e t hruns
    have htight : ¬loosest ≤ Precedence.addition := Nat.not_le_of_lt htight
    have hnone := runs_firstOperator_of_chain hd hplus hs hruns
    rw [if_neg htight] at hnone
    exact runs_pure.mp hnone

/-- The operator of sums always applies, and it reads the operand behind the sign. -/
theorem exists_operand_of_firstOperator {lhs : Expression} {chained : Option String}
    {found : Option (Expression × Notation)}
    (hruns : Runs (firstOperator env inner lhs chained [infixPlus]) s found t) :
    ∃ rhs u sum diagnostics, Runs (inner.expression Precedence.addition.tighter) (s.forward 1) rhs u ∧
      found = some (sum, infixPlus) ∧ t = u.noting diagnostics := by
  have happly {found : Option (Expression × Notation)} {v : State}
      (h : Runs (do
        advance
        return (← applyOperator env inner infixPlus lhs chained).map (·, infixPlus)) s found v) :
      ∃ rhs u sum diagnostics, Runs (inner.expression Precedence.addition.tighter) (s.forward 1) rhs u ∧
        found = some (sum, infixPlus) ∧ v = u.noting diagnostics := by
    rw [runs_advance] at h
    obtain ⟨applied, w, happlied, h⟩ := runs_bind.mp h
    obtain ⟨rfl, rfl⟩ := runs_pure.mp h
    obtain ⟨rhs, u, hrhs, happlied⟩ := runs_bind.mp happlied
    split at happlied
    · dsimp only at happlied
      rw [runs_recordHere] at happlied
      obtain ⟨rfl, rfl⟩ := runs_pure.mp happlied
      exact ⟨rhs, u, _, _, hrhs, rfl, rfl⟩
    · obtain ⟨rfl, rfl⟩ := runs_pure.mp happlied
      exact ⟨rhs, v, _, v.diagnostics, hrhs, rfl, rfl⟩
  rcases runs_orElse.mp hruns with ⟨hsome, hfound⟩ | ⟨v', hnone, -⟩
  · rcases runs_attempt.mp hfound with ⟨rfl, -, -⟩ | ⟨-, hfound⟩
    · cases hsome
    · exact happly hfound
  · rcases runs_attempt.mp hnone with ⟨-, -, v, hnone⟩ | ⟨hsome, -⟩
    · obtain ⟨_, _, _, _, -, hsome, -⟩ := happly hnone
      cases hsome
    · cases hsome

/-- Other loops take a plus sign for the operator and read the operand behind it. -/
theorem exists_operand_of_chain (hd : env.dictionary = .standard) (hplus : (s.current env).isPunct '+')
    (hs : s.Signless) (hloose : loosest ≤ .addition) {fuel : Nat} (hfuel : s.rest.length ≤ fuel)
    {lhs : Operand} {chained : Option String}
    (hruns : Runs (chain env inner loosest fuel lhs chained) s e t) :
    ∃ rhs u sum diagnostics fuel', fuel = fuel' + 1 ∧
      Runs (inner.expression Precedence.addition.tighter) (s.forward 1) rhs u ∧
      Runs (chain env inner loosest fuel' ⟨sum, false⟩ (some "Add")) (u.noting diagnostics) e t := by
  obtain ⟨first, rest, hrest, -⟩ := exists_rest_of_isPunct hplus
  rw [hrest, List.length_cons] at hfuel
  obtain ⟨fuel, rfl⟩ := Nat.exists_eq_add_of_le' (Nat.le_of_add_left_le hfuel)
  have hfirst := runs_firstOperator_of_chain hd hplus hs hruns
  rw [if_pos hloose] at hfirst
  obtain ⟨found, v, hfound, hruns⟩ := runs_bind.mp hfirst
  obtain ⟨rhs, u, sum, diagnostics, hrhs, rfl, rfl⟩ := exists_operand_of_firstOperator hfound
  exact ⟨rhs, u, sum, diagnostics, fuel, rfl, hrhs, hruns⟩

/-- A loop that goes on with the sign comes as far as what has been taken back. -/
theorem Stranded.length_le_of_chain (hd : env.dictionary = .standard) (h : Stranded env n s)
    (hs : s.Signless) (hloose : loosest ≤ .addition) {fuel : Nat} (hfuel : s.rest.length ≤ fuel)
    {lhs : Operand} {chained : Option String} {diagnostics : List Diagnostic}
    (hruns : Runs (chain env (nested env levels) loosest fuel lhs chained) (s.noting diagnostics) e t) :
    t.rest.length ≤ n := by
  have hhooks : env.dictionary.HasStandardHooks := hd ▸ Dictionary.hasStandardHooks_standard
  have hkeeps := keeps_nested hhooks levels
  induction h generalizing fuel lhs chained diagnostics with
  | @passes s v levels' first hplus hfirst hmissing hpast =>
    obtain ⟨rhs, u, sum, after, fuel', rfl, hrhs, hruns⟩ :=
      exists_operand_of_chain hd (s := s.noting diagnostics) hplus hs hloose hfuel hruns
    rw [State.noting_forward] at hrhs
    obtain ⟨-, after', rfl⟩ := runs_expression_again hhooks hfirst hrhs
    have hchain : Keeps _ _ :=
      Inners.keeps_chain hhooks.abortsOnly hkeeps loosest fuel' ⟨sum, false⟩ (some "Add")
    exact Nat.le_trans (hchain.follows hruns).length_rest_le hpast
  | @again s v levels' first hplus hfirst hmissing hv ih =>
    obtain ⟨rhs, u, sum, after, fuel', rfl, hrhs, hruns⟩ :=
      exists_operand_of_chain hd (s := s.noting diagnostics) hplus hs hloose hfuel hruns
    rw [State.noting_forward] at hrhs
    obtain ⟨-, after', rfl⟩ := runs_expression_again hhooks hfirst hrhs
    have hfollows := (keeps_nested hhooks levels' |>.expression _).follows hfirst
    refine ih ?_ ?_ hruns
    · unfold State.Signless
      rw [hfollows.closers, State.closers_forward]
      exact hs
    · have hless := State.length_rest_forward_one_lt (s := s) (by
        obtain ⟨_, _, hrest, -⟩ := exists_rest_of_isPunct hplus
        rw [hrest]
        exact List.cons_ne_nil _ _)
      have hle := hfollows.length_rest_le
      omega

end TexFormula.Parser
