import TexFormula.Proofs.Excerpt.Expression
import TexFormula.Proofs.SkippedLetters.Operand

/-!
# Expressions between letters

The loop of operators and factors with and without letters, and from it all levels of nesting
(`siftsLevel_nested`). In front of a letter the loop reads a factor, which starts behind the letters;
where they are missing the same factor is read, or the loop ends there.
-/

namespace TexFormula.Parser

open Token (sift sift_cons_of_isLetter sift_cons_of_not_isLetter lettersApart)

variable {env : Env} {inner : Inner} {s s' t t' : State} {token : Token} {rest : List Token}
  {loosest : Precedence} {trigger : String}

/-! ### Operators -/

/-- An operator mark, which is neither a letter nor a command, is next. -/
structure AtMark (trigger : String) (s : State) (token : Token) (rest : List Token) : Prop where
  rest : s.rest = token :: rest
  operator : token.trigger? = some trigger
  not_isLetter : token.isLetter = false
  not_command : trigger.toList.head? ≠ some '\\'

theorem AtMark.kind {c : Char} (h : AtMark (String.singleton c) s token rest) (hc : c ∉ ['[', ']']) :
    token.kind = .punct c := by
  obtain ⟨-, htrigger, hletter, hcommand⟩ := h
  rw [Token.trigger?] at htrigger
  cases hkind : token.kind with
  | command name =>
    rw [hkind] at htrigger
    refine absurd ?_ hcommand
    rw [← Option.some.inj htrigger, String.toList_append]
    rfl
  | letter d =>
    rw [Token.isLetter_of_kind hkind] at hletter
    cases hletter
  | punct d =>
    rw [hkind] at htrigger
    rw [eq_of_trigger?_eq htrigger]
  | optionalOpen =>
    rw [hkind] at htrigger
    exact absurd (.head _) (eq_of_trigger?_eq (c := '[') htrigger ▸ hc)
  | optionalClose =>
    rw [hkind] at htrigger
    exact absurd (.tail _ (.head _)) (eq_of_trigger?_eq (c := ']') htrigger ▸ hc)
  | _ =>
    rw [hkind] at htrigger
    cases htrigger

section

variable (hlevel : SiftsLevel env inner)

include hlevel

/-- A script, whose mark takes digits for its own. -/
theorem sifts_script {c : Char} (hc : c ∈ ['^', '_']) (name : String) (lhs : Option Expression)
    (hat : AtMark (String.singleton c) s token rest) (h : Sifted (s.forward 1) s') :
    Sifts (fun _ t => t.Sated) (s.forward 1) s'
      (run env inner (Readers.script name (String.singleton c) lhs))
      (run env inner (Readers.script name (String.singleton c) lhs)) := by
  refine .bind (sifts_argument hlevel _ h ⟨token, ?_, fun u hu => ?_⟩) fun e t t' ht hsated =>
    .pure ht hsated
  · rw [State.sift_seen_forward_one hat.rest hat.not_isLetter]
    rfl
  · have hkind := hat.kind (by revert hc; simp; rintro (rfl | rfl) <;> decide)
    simp only [List.mem_cons, List.not_mem_nil, or_false] at hc
    rcases hc with rfl | rfl <;> simp [Token.joins, Token.isPunct, hkind, hu]

theorem sifts_applyOperator {n : Notation} (hn : n ∈ Dictionary.standard.operators trigger)
    (hat : AtMark trigger s token rest) (h : Sifted (s.forward 1) s') (lhs : Expression)
    (chained : Option String) :
    Sifts (fun _ t => t.Sated) (s.forward 1) s' (applyOperator env inner n lhs chained)
      (applyOperator env inner n lhs chained) := by
  obtain ⟨hmem, htrigger⟩ := Dictionary.entry_of_mem_operators hn
  have hfollows : n.followsOperand = true := (List.mem_filter.mp hn).2
  unfold applyOperator
  split
  · next hook hreader =>
    have hhook := Dictionary.standard_of_reader_eq hmem htrigger hreader
    rw [hfollows] at hhook
    cases hhook with
    | power => exact sifts_script hlevel (c := '^') (.head _) "Power" (some lhs) hat h
    | subscript => exact sifts_script hlevel (c := '_') (.tail _ (.head _)) "Subscript" (some lhs) hat h
  · split
    · next hreader hkind =>
      have hpostfix : (Dictionary.standardEntries.all fun n => match n.kind with
          | .postfixOp => n.trigger == some "!"
          | _ => true) = true := by decide +kernel
      have hmark := List.all_eq_true.mp hpostfix n hmem
      rw [hkind, htrigger] at hmark
      have hmark : trigger = "!" := Option.some.inj (eq_of_beq hmark)
      subst hmark
      have hkind := hat.kind (c := '!') (by decide)
      refine .pure h (.forward_one hat.rest hat.not_isLetter ?_)
      rw [Token.awaitsOperand, Token.operates, Token.isPunct, Token.isPunct, Token.isPunct,
        Token.trigger?, hkind]
      decide +kernel
    · refine .bind (hlevel.expression _ h) fun rhs t t' ht hends => .ite (fun _ => ?_) fun _ => ?_
      · exact .recordHere ht (by decide) fun u u' hu hseen hrest =>
          .pure hu (hends.sated.congr hseen hrest)
      · exact .pure ht hends.sated
    · next hpostfix hvariadic =>
      unfold Notation.followsOperand at hfollows
      split at hfollows
      · next hkind => exact absurd hkind (hvariadic _)
      · next hkind => exact absurd hkind hpostfix
      · cases hfollows

/-- If no operator applies nothing has been read. -/
theorem sifts_firstOperator {notations : List Notation}
    (hn : ∀ n ∈ notations, n ∈ Dictionary.standard.operators trigger)
    (hat : AtMark trigger s token rest) (h : Sifted s s') (lhs : Expression)
    (chained : Option String) :
    Sifts (fun found t => (found = none → t = s) ∧ (found.isSome → t.Sated)) s s'
      (firstOperator env inner lhs chained notations)
      (firstOperator env inner lhs chained notations) := by
  have hs : s.atLetter = false := (State.atLetter_of_rest hat.rest).trans hat.not_isLetter
  induction notations generalizing s' with
  | nil => exact .pure h ⟨fun _ => rfl, nofun⟩
  | cons n notations ih =>
    obtain ⟨hn, hmore⟩ := List.forall_mem_cons.mp hn
    refine .orElse (Q := fun found t => (found = none → t = s) ∧ (found.isSome → t.Sated)) ?_
      (fun _ _ ht => ht) fun t t' ht hends => ?_
    · refine .attempt (Q := fun _ t => t.Sated) h ?_ ⟨fun _ => rfl, nofun⟩ fun _ _ ht =>
        ⟨nofun, fun _ => ht⟩
      refine .advance h hs fun hnext => ?_
      exact .bind (sifts_applyOperator hlevel hn hat hnext lhs chained) fun o u u' hu hsated =>
        .pure hu hsated
    · obtain rfl := hends.1 rfl
      exact ih hmore ht

end

/-! ### The loop -/

theorem State.atTerminator_of_rest_nil (hs : s.rest = []) : s.atTerminator env = true := by
  by_contra hgoes
  exact rest_ne_nil_of_atTerminator hgoes hs

/-- What is known of the readers of the next level without regard to letters. -/
structure ReadsLevel (env : Env) (inner : Inner) : Prop where
  keeps : (Parser.keeps env.options.maxDepth).Inners inner inner
  fits : inner.Fitting
  stops (loosest : Precedence) {s : State} : s.pastSpacing = s → s.atTerminator env = true →
    Ensures (fun e t => e = .missing ∧ t = s) s (inner.expression loosest)

/-- Applies the operator that is next and goes on with the loop. -/
def chainOperator (env : Env) (inner : Inner) (loosest : Precedence) (fuel : Nat) (lhs : Operand)
    (chained : Option String) (trigger : String) : Parser Expression := do
  match ← firstOperator env inner lhs.expression chained (candidates env trigger loosest) with
  | some (e, n) => chain env inner loosest fuel ⟨e, false⟩ (chainName? n)
  | none => return lhs.expression

/-- Reads one more factor and goes on with the loop. -/
def chainFactor (env : Env) (inner : Inner) (loosest : Precedence) (fuel : Nat) (lhs : Operand)
    (chained : Option String) : Parser Expression := do
  let before := (← get).position
  let factor ← inner.expression Precedence.multiplication.tighter
  if (← get).position == before || factor.isMissing then
    return lhs.expression
  else
    let product := extend "Multiply" (chained == some "Multiply") lhs.expression factor
    chain env inner loosest fuel ⟨product, false⟩ (some "Multiply")

/-- What the loop does at the token `t`, at which the expression does not end. -/
def chainAt (env : Env) (inner : Inner) (loosest : Precedence) (fuel : Nat) (lhs : Operand)
    (chained : Option String) (t : Token) : Parser Expression :=
  match t.trigger?.filter env.dictionary.hasOperator with
  | some trigger => chainOperator env inner loosest fuel lhs chained trigger
  | none =>
    if Precedence.multiplication < loosest then
      return lhs.expression
    else
      chainFactor env inner loosest fuel lhs chained

section

variable {fuel : Nat} {lhs : Operand} {chained : Option String} (hspaced : s.pastSpacing = s)

include hspaced

theorem chain_of_terminator (hstop : s.atTerminator env = true) :
    chain env inner loosest fuel lhs chained s = .ok lhs.expression s := by
  cases fuel with
  | zero => rfl
  | succ fuel =>
    have hruns : Runs (chain env inner loosest (fuel + 1) lhs chained) s lhs.expression s := by
      rw [chain, runs_skipSpacing]
      show Runs _ s.pastSpacing _ s
      rw [hspaced, runs_atTerminator, hstop]
      exact .pure _ s
    exact hruns

theorem chain_of_not_terminator (hgoes : s.atTerminator env = false) (hcallable : lhs.callable = false) :
    chain env inner loosest (fuel + 1) lhs chained s =
      chainAt env inner loosest fuel lhs chained (s.current env) s := by
  have hspacing : Runs skipSpacing s () s := by
    show EStateM.Result.ok () s.pastSpacing = _
    rw [hspaced]
  have hterminator : Runs (atTerminator env) s false s := by
    show EStateM.Result.ok (s.atTerminator env) s = _
    rw [hgoes]
  rw [chain, bind_eq_of_ok hspacing, bind_eq_of_ok hterminator, if_neg Bool.false_ne_true]
  show (if (lhs.callable && (s.current env).isPunct '(') = true then _ else _ : Parser Expression) s = _
  rw [hcallable, Bool.false_and, if_neg Bool.false_ne_true]
  rfl

end

/-- How the loop ends behind `lhs`. With operators as loose as products it takes the letters that follow
it, and only an operand that is missing stays so. -/
structure ChainEnds (loosest : Precedence) (s : State) (lhs e : Expression) (t : State) : Prop where
  sated : t.Sated
  passes : loosest ≤ Precedence.multiplication → t.atLetter = false
  missing : e.isMissing → lhs.isMissing ∧ t.atLetter = false ∧ (s.BehindBrace → t.BehindBrace)

theorem ChainEnds.of_present {lhs lhs' e : Expression} (hlhs : lhs.isMissing = false)
    (h : ChainEnds loosest s lhs e t) : ChainEnds loosest s' lhs' e t where
  sated := h.sated
  passes := h.passes
  missing he := by
    rw [(h.missing he).1] at hlhs
    cases hlhs

/-- The loop has nothing to do: it has read its operand. -/
theorem ChainEnds.refl {lhs : Expression} (hsated : s.Sated)
    (hpasses : loosest ≤ Precedence.multiplication → s.atLetter = false)
    (hlhs : lhs.isMissing → s.atLetter = false) : ChainEnds loosest s lhs lhs s :=
  ⟨hsated, hpasses, fun he => ⟨he, hlhs he, id⟩⟩

/-- Behind an operand that is there the loop goes on without the letters, once it has read on. -/
def SiftsOn (env : Env) (inner : Inner) (loosest : Precedence) (fuel fuel' : Nat) (s s' : State) :
    Prop :=
  ∀ {t t' : State}, Sifted t t' → t.Sated → ReadsOn s t → ReadsOn s' t' →
    ∀ (e : Expression) (chained : Option String), e.isMissing = false →
      Sifts (ChainEnds loosest t e) t t' (chain env inner loosest fuel ⟨e, false⟩ chained)
        (chain env inner loosest fuel' ⟨e, false⟩ chained)

/-- In front of a letter there is no operator, and where the letters are missing there is none either. -/
theorem Sifted.filter_trigger? (hd : env.dictionary = .standard) (h : Sifted s s') (hsated : s.Sated)
    (hs : s.atLetter = true) :
    (s.current env).trigger?.filter env.dictionary.hasOperator = none ∧
      (s'.current env).trigger?.filter env.dictionary.hasOperator = none := by
  have hnone {t : Token} (ht : t.operates = false) :
      t.trigger?.filter env.dictionary.hasOperator = none := by
    rw [Token.operates] at ht
    rw [hd]
    cases htrigger : t.trigger? with
    | none => rfl
    | some trigger =>
      rw [htrigger, Option.any_some] at ht
      rw [Option.filter_some, ht]
      rfl
  obtain ⟨l, rest, hrest, hl⟩ := State.exists_of_atLetter hs
  obtain ⟨c, hkind⟩ := Token.exists_kind_of_isLetter hl
  have hc := (h.simple_of_mem (by rw [hrest]; exact .head _)).letter hkind
  constructor
  · refine hnone ?_
    rw [State.current_of_rest hrest, Token.operates, Token.trigger?, hkind]
    exact Dictionary.hasOperator_standard_letter hc
  · cases hrest' : s'.rest with
    | nil =>
      rw [State.current_of_rest_nil hrest']
      rfl
    | cons t behind =>
      rw [State.current_of_rest hrest']
      exact hnone (h.not_operates hsated hs (by rw [hrest']; rfl))

section

variable (hlevel : SiftsLevel env inner) (hreads : ReadsLevel env inner)

include hlevel hreads

section

variable {fuel fuel' : Nat} (hon : SiftsOn env inner loosest fuel fuel' s s') (h : Sifted s s')
  (lhs : Operand) (chained : Option String)

include hon h

theorem sifts_chainFactor :
    Sifts (ChainEnds loosest s lhs.expression) s s'
      (chainFactor env inner loosest fuel lhs chained)
      (chainFactor env inner loosest fuel' lhs chained) := by
  refine .get (.bind_of_runs (hlevel.expression _ h) fun factor t t' hruns hruns' ht hends => .get ?_)
  dsimp only
  cases hmissing : factor.isMissing with
  | true =>
    obtain ⟨hletter, hbrace⟩ := hends.missing hmissing
    rw [Bool.or_true, Bool.or_true, if_pos rfl, if_pos rfl]
    exact .pure ht ⟨hends.sated, fun _ => hletter, fun he => ⟨he, hletter, hbrace⟩⟩
  | false =>
    -- a factor that is there has taken a token on both sides
    have hon' {u v : State} (hu : Runs (inner.expression Precedence.multiplication.tighter) u factor v) :
        ReadsOn u v ∧ (v.position == u.position) = false := by
      have hfollows := (hreads.keeps.expression _).follows hu
      have hless : v.rest.length < u.rest.length := by
        rcases (hreads.fits.expression _ u factor v hu).2 with habsent | hless
        · rw [hmissing] at habsent
          cases habsent
        · exact hless
      have htotal := hfollows.position_add_length_rest
      exact ⟨⟨hfollows, hless⟩, beq_false_of_ne (by omega)⟩
    obtain ⟨hread, hplace⟩ := hon' hruns
    obtain ⟨hread', hplace'⟩ := hon' hruns'
    rw [hplace, hplace', Bool.or_false, if_neg Bool.false_ne_true, if_neg Bool.false_ne_true]
    have hproduct := isMissing_extend "Multiply" (chained == some "Multiply") lhs.expression factor
    exact (hon ht hends.sated hread hread' _ _ hproduct).mono fun _ _ hu => hu.of_present hproduct

theorem sifts_chainOperator (hd : env.dictionary = .standard) (hat : AtMark trigger s token rest)
    (hne : s'.rest ≠ []) :
    Sifts (ChainEnds loosest s lhs.expression) s s'
      (chainOperator env inner loosest fuel lhs chained trigger)
      (chainOperator env inner loosest fuel' lhs chained trigger) := by
  have hmem := mem_standardEntries_of_mem_candidates hd trigger loosest
  have haborts : ∀ n ∈ candidates env trigger loosest,
      n.AbortsOnly (· = .depthExceeded env.options.maxDepth) :=
    fun n hn => (Dictionary.steady_standardEntries n (hmem n hn).1).abortsOnly
  have hfiled : ∀ n ∈ candidates env trigger loosest, n ∈ Dictionary.standard.operators trigger := by
    intro n hn
    rw [← hd]
    exact (List.mem_filter.mp hn).1
  have hs : s.atLetter = false := (State.atLetter_of_rest hat.rest).trans hat.not_isLetter
  have hne₁ : s.rest ≠ [] := by
    rw [hat.rest]
    exact List.cons_ne_nil _ _
  have hread {u : State} (hu : u.rest ≠ []) : Ensures (fun found t => found.isSome → ReadsOn u t) u
      (firstOperator env inner lhs.expression chained (candidates env trigger loosest)) :=
    readsOn_firstOperator hreads.keeps haborts lhs.expression chained hu
  refine .bind_of_runs (sifts_firstOperator hlevel hfiled hat h lhs.expression chained)
    fun found t t' hruns hruns' ht hends => ?_
  cases found with
  | none =>
    obtain rfl := hends.1 rfl
    exact .pure ht ⟨.of_not hs, fun _ => hs, fun he => ⟨he, hs, id⟩⟩
  | some found =>
    obtain ⟨e, n⟩ := found
    have hbuilt : e.isMissing = false :=
      (built_firstOperator hmem lhs.expression chained s _ _ hruns).1 e n rfl
    exact (hon ht (hends.2 rfl) (hread hne₁ _ _ hruns rfl) (hread hne _ _ hruns' rfl) e _ hbuilt).mono
      fun _ _ hu => hu.of_present hbuilt

/-- Where both go on: in front of a letter no operator is next on either side, and elsewhere the same
one. -/
theorem sifts_chainAt (hd : env.dictionary = .standard) (hsated : s.Sated)
    (hlhs : lhs.expression.isMissing → s.atLetter = false) (hne : s.rest ≠ []) (hne' : s'.rest ≠ []) :
    Sifts (ChainEnds loosest s lhs.expression) s s'
      (chainAt env inner loosest fuel lhs chained (s.current env))
      (chainAt env inner loosest fuel' lhs chained (s'.current env)) := by
  have hproduct : Sifts (ChainEnds loosest s lhs.expression) s s'
      (if Precedence.multiplication < loosest then
        return lhs.expression
      else
        chainFactor env inner loosest fuel lhs chained)
      (if Precedence.multiplication < loosest then
        return lhs.expression
      else
        chainFactor env inner loosest fuel' lhs chained) := by
    refine .ite (fun htight => .pure h (.refl hsated (fun hloose => ?_) hlhs)) fun _ => ?_
    · exact absurd hloose (Nat.not_le_of_lt htight)
    · exact sifts_chainFactor hlevel hreads hon h lhs chained
  unfold chainAt
  cases hs : s.atLetter with
  | true =>
    obtain ⟨hnone, hnone'⟩ := h.filter_trigger? hd hsated hs
    rw [hnone, hnone']
    exact hproduct
  | false =>
    rw [h.current hs]
    split
    · next trigger hoperator =>
      obtain ⟨token, rest, hrest⟩ := List.exists_cons_of_ne_nil hne
      rw [State.current_of_rest hrest] at hoperator
      have htrigger := (Option.filter_eq_some_iff.mp hoperator).1
      have hat : AtMark trigger s token rest :=
        { rest := hrest
          operator := htrigger
          not_isLetter := (State.atLetter_of_rest hrest).symm.trans hs
          not_command := (h.simple_of_mem (by rw [hrest]; exact .head _)).trigger htrigger }
      exact sifts_chainOperator hlevel hreads hon h lhs chained hd hat hne'
    · exact hproduct

end

/-- In front of a letter the loop goes on, and without the letters it ends there: no factor is read. -/
theorem sifts_chainAt_of_terminator (hd : env.dictionary = .standard) (h : Sifted s s')
    (hsated : s.Sated) (hs : s.atLetter = true) (hstop : s'.atTerminator env = true) {lhs : Operand}
    (hlhs : lhs.expression.isMissing = false) (fuel : Nat) (chained : Option String) :
    Sifts (ChainEnds loosest s lhs.expression) s s'
      (chainAt env inner loosest fuel lhs chained (s.current env)) (pure lhs.expression) := by
  have hpresent (he : lhs.expression.isMissing = true) : s.atLetter = false := by
    rw [hlhs] at he
    cases he
  unfold chainAt
  rw [(h.filter_trigger? hd hsated hs).1]
  dsimp only
  split
  · next htight =>
    exact .pure h (.refl hsated (fun hloose => absurd hloose (Nat.not_le_of_lt htight)) hpresent)
  · intro e u hruns
    obtain ⟨factor, t, hfactor, hruns⟩ := runs_bind.mp (runs_get.mp hruns)
    obtain ⟨t', hfactor', ht, hends⟩ := hlevel.expression _ h factor t hfactor
    obtain ⟨rfl, rfl⟩ := hreads.stops _ h.pastSpacing.2 hstop factor t' hfactor'
    have hletter := (hends.missing rfl).1
    rw [runs_get] at hruns
    dsimp only at hruns
    rw [show Expression.isMissing .missing = true from rfl, Bool.or_true, if_pos rfl] at hruns
    obtain ⟨rfl, rfl⟩ := runs_pure.mp hruns
    refine ⟨t', .pure _ _, ht, hends.sated, fun _ => hletter, fun he => ?_⟩
    rw [hlhs] at he
    cases he

/-- The loop with and without letters. Each step reads a token on both sides, so neither runs out of
fuel. -/
theorem sifts_chain (hd : env.dictionary = .standard) {fuel fuel' : Nat} (h : Sifted s s')
    (hfuel : s.rest.length ≤ fuel) (hfuel' : s'.rest.length ≤ fuel') (hsated : s.Sated) {lhs : Operand}
    (hcallable : lhs.callable = false) (hlhs : lhs.expression.isMissing → s.atLetter = false)
    (chained : Option String) :
    Sifts (ChainEnds loosest s lhs.expression) s s' (chain env inner loosest fuel lhs chained)
      (chain env inner loosest fuel' lhs chained) := by
  induction fuel generalizing s s' fuel' lhs chained with
  | zero =>
    have hnil := List.length_eq_zero_iff.mp (Nat.le_zero.mp hfuel)
    have hnil' := h.rest_nil hnil
    have hs : s.atLetter = false := by rw [State.atLetter, hnil]; rfl
    refine .of_eq (chain_of_terminator h.pastSpacing.1 (State.atTerminator_of_rest_nil hnil))
      (chain_of_terminator h.pastSpacing.2 (State.atTerminator_of_rest_nil hnil'))
      (.pure h (.refl hsated (fun _ => hs) fun _ => hs))
  | succ fuel ih =>
    cases hstop : s.atTerminator env with
    | true =>
      have hs : s.atLetter = false := by
        by_contra hletter
        rw [h.not_atTerminator (Bool.eq_true_of_not_eq_false hletter)] at hstop
        cases hstop
      exact .of_eq (chain_of_terminator h.pastSpacing.1 hstop)
        (chain_of_terminator h.pastSpacing.2 ((h.atTerminator hs).trans hstop))
        (.pure h (.refl hsated (fun _ => hs) fun _ => hs))
    | false =>
      have hleft : chain env inner loosest (fuel + 1) lhs chained s =
          chainAt env inner loosest fuel lhs chained (s.current env) s :=
        chain_of_not_terminator h.pastSpacing.1 hstop hcallable
      have hne := State.rest_ne_nil_of_atTerminator (Bool.eq_false_iff.mp hstop)
      cases hstop' : s'.atTerminator env with
      | true =>
        have hs : s.atLetter = true := by
          by_contra hletter
          rw [h.atTerminator (Bool.eq_false_of_not_eq_true hletter), hstop] at hstop'
          cases hstop'
        have hpresent : lhs.expression.isMissing = false := by
          by_contra hmissing
          rw [hlhs (Bool.eq_true_of_not_eq_false hmissing)] at hs
          cases hs
        exact .of_eq hleft (chain_of_terminator h.pastSpacing.2 hstop')
          (sifts_chainAt_of_terminator hlevel hreads hd h hsated hs hstop' hpresent fuel chained)
      | false =>
        have hne' := State.rest_ne_nil_of_atTerminator (Bool.eq_false_iff.mp hstop')
        obtain ⟨fuel', rfl⟩ : ∃ more, fuel' = more + 1 :=
          Nat.exists_eq_add_of_le' (Nat.le_trans (List.length_pos_iff.mpr hne') hfuel')
        have hon : SiftsOn env inner loosest fuel fuel' s s' := by
          intro t t' ht hsated hread hread' e chained he
          have hless := hread.2
          have hless' := hread'.2
          refine ih ht (by omega) (by omega) hsated rfl (fun hmissing => ?_) chained
          rw [he] at hmissing
          cases hmissing
        exact .of_eq hleft (chain_of_not_terminator h.pastSpacing.2 hstop' hcallable)
          (sifts_chainAt hlevel hreads hon h lhs chained hd hsated hlhs hne hne')

/-! ### Expressions -/

omit hlevel hreads in
theorem ChainEnds.expressionEnds {lhs e : Expression} {u : State} (h : ChainEnds loosest t lhs e u)
    (hbrace : lhs.isMissing → s.BehindBrace → t.BehindBrace) : ExpressionEnds loosest s e u where
  sated := h.sated
  passes := h.passes
  missing he := by
    obtain ⟨hlhs, hletter, hkept⟩ := h.missing he
    exact ⟨hletter, fun hs => hkept (hbrace hlhs hs)⟩

theorem sifts_goOn (henv : env.LeavesOut) {o : Option Operand} (ht : Sifted t t')
    (h : OperandAnswers s o t) :
    Sifts (ExpressionEnds loosest s) t t' (Excerpt.goOn env inner loosest o)
      (Excerpt.goOn env inner loosest o) := by
  cases o with
  | some lhs =>
    obtain ⟨hcallable, hends⟩ := h.read rfl
    refine .get ((sifts_chain hlevel hreads henv.dictionary ht (Nat.le_refl _) (Nat.le_refl _)
      hends.sated hcallable (fun he => (hends.missing he).1) none).mono fun e u hu => ?_)
    exact hu.expressionEnds fun he _ => (hends.missing he).2
  | none =>
    obtain ⟨hletter, hbrace⟩ := h.stops rfl
    have hnothing : Sifts (ExpressionEnds loosest s) t t' (pure .missing) (pure .missing) :=
      .pure ht ⟨.of_not hletter, fun _ => hletter, fun _ => ⟨hletter, hbrace⟩⟩
    refine .current ht hletter ?_
    split
    · refine .atTerminator ht hletter (.ite (fun _ => hnothing) fun _ => ?_)
      refine .record ht nofun fun u u' hu hseen hrest => .get ?_
      have hoff := (State.atLetter_congr hrest).trans hletter
      refine (sifts_chain hlevel hreads henv.dictionary hu (Nat.le_refl _) (Nat.le_refl _) (.of_not hoff)
        rfl (fun _ => hoff) none).mono fun e v hv => ?_
      exact hv.expressionEnds fun _ hs => (hbrace hs).congr hseen
    · exact hnothing

theorem sifts_expressionAt (henv : env.LeavesOut) (h : Sifted s s') :
    Sifts (ExpressionEnds loosest s) s s' (expressionAt env inner loosest)
      (expressionAt env inner loosest) :=
  .bind (sifts_operand hlevel henv h) fun _ _ _ ht hends =>
    sifts_goOn hlevel hreads henv ht hends

end

/-! ### Levels -/

theorem runs_operand_of_terminator (hspaced : s.pastSpacing = s) (hstop : s.atTerminator env = true) :
    Runs (operand env inner) s none s := by
  unfold operand
  rw [runs_get]
  cases s.rest.length with
  | zero => exact .pure none s
  | succ fuel =>
    rw [operandWithin, runs_skipSpacing]
    show Runs _ s.pastSpacing none s
    rw [hspaced, runs_atTerminator, hstop]
    exact .pure none s

/-- Where an expression ends none is read. -/
theorem runs_expressionAt_of_terminator (hspaced : s.pastSpacing = s)
    (hstop : s.atTerminator env = true) :
    Runs (expressionAt env inner loosest) s .missing s := by
  refine (runs_operand_of_terminator hspaced hstop).bind ?_
  dsimp only
  rw [runs_current]
  split
  · rw [runs_atTerminator, hstop]
    exact .pure _ s
  · exact .pure _ s

theorem readsLevel_nested (henv : env.LeavesOut) (levels : Nat) :
    ReadsLevel env (nested env levels) where
  keeps := keeps_nested (henv.dictionary ▸ Dictionary.hasStandardHooks_standard) levels
  fits := fitting_nested henv.dictionary levels
  stops loosest s hspaced hstop := by
    cases levels with
    | zero => exact .throw
    | succ levels => exact .of_runs (runs_expressionAt_of_terminator hspaced hstop) ⟨rfl, rfl⟩

/-- In front of a group in braces the operand is the group. -/
theorem runs_braceGroup_of_operand {o : Option Operand} (hspaced : s.pastSpacing = s)
    (hopen : (s.current env).kind = .groupOpen) (h : Runs (operand env inner) s o t) :
    ∃ x, o = some x ∧ Runs (braceGroup env inner) s (some x.expression) t := by
  have hgroup {x : Operand} {u : State} (hx : Runs (braced env inner) s x u) :
      Runs (braceGroup env inner) s (some x.expression) u := by
    rw [braceGroup, runs_skipSpacing]
    show Runs _ s.pastSpacing _ u
    obtain ⟨body, v, hbody, hx⟩ := runs_bind.mp (runs_advance.mp hx)
    obtain ⟨rfl, rfl⟩ := runs_pure.mp hx
    rw [hspaced, runs_current, if_pos (by rw [hopen]; rfl), runs_advance]
    exact hbody.bind (.pure _ _)
  have hknown {o : Option Operand} {u : State}
      (ho : Runs (orElse (builtin env inner) (notated env inner)) s o u) :
      ∃ x, o = some x ∧ Runs (braced env inner) s x u := by
    have hbuiltin {o : Option Operand} {u : State} (ho : Runs (builtin env inner) s o u) :
        ∃ x, o = some x ∧ Runs (braced env inner) s x u := by
      rw [builtin, runs_get] at ho
      simp only [hopen] at ho
      obtain ⟨x, v, hx, ho⟩ := runs_bind.mp ho
      obtain ⟨rfl, rfl⟩ := runs_pure.mp ho
      exact ⟨x, rfl, hx⟩
    rcases runs_orElse.mp ho with ⟨-, ho⟩ | ⟨v, hnone, -⟩
    · exact hbuiltin ho
    · obtain ⟨x, hx, -⟩ := hbuiltin hnone
      cases hx
  obtain ⟨token, rest, hrest⟩ := List.exists_cons_of_ne_nil
    (State.rest_ne_nil_of_current (s := s) (by rw [hopen]; simp))
  have hgoes : s.atTerminator env = false := by
    rw [State.atTerminator, Token.trigger?, hopen]
    cases s.closers.head? <;> rfl
  unfold operand at h
  rw [runs_get, hrest, List.length_cons, operandWithin, runs_skipSpacing] at h
  change Runs _ s.pastSpacing o t at h
  rw [hspaced, runs_atTerminator, hgoes, if_neg Bool.false_ne_true] at h
  rcases runs_orElse.mp h with ⟨-, ho⟩ | ⟨u, hnone, -⟩
  · obtain ⟨x, rfl, hx⟩ := hknown ho
    exact ⟨x, rfl, hgroup hx⟩
  · obtain ⟨x, hx, -⟩ := hknown hnone
    cases hx

/-- With a level more a group in braces is the same. -/
theorem runs_braceGroup_succ (hd : env.dictionary.HasStandardHooks) {levels : Nat}
    {o : Option Expression} (h : Runs (braceGroup env (nested env levels)) s o t) :
    Runs (braceGroup env (nested env (levels + 1))) s o t := by
  have hrises : Rises env.options.maxDepth (braceGroup env (nested env levels))
      (braceGroup env (nested env (levels + 1))) :=
    (rises_nested env env.options.maxDepth hd (Nat.le_succ levels)).braceGroup
  rcases hrises s with ⟨o', t', hlow, hmore⟩ | ⟨t', hlow⟩
  · obtain ⟨rfl, rfl⟩ := h.det hlow
    exact hmore
  · have hcontra := h.symm.trans hlow
    cases hcontra

/-- What is read at any level with letters is read without them. By induction on the levels that are
left. -/
theorem siftsLevel_nested (henv : env.LeavesOut) (levels : Nat) :
    SiftsLevel env (nested env levels) := by
  induction levels with
  | zero => exact ⟨fun _ _ _ _ => .throw, fun _ => .throw, fun _ _ => .throw⟩
  | succ levels ih =>
    have hreads := readsLevel_nested henv levels
    have hsated {s t : State} {o : Option Operand} (h : OperandAnswers s o t) : t.Sated := by
      cases o with
      | none => exact .of_not (h.stops rfl).1
      | some x => exact (h.read rfl).ends.sated
    refine ⟨fun loosest _ _ h => sifts_expressionAt ih hreads henv h, fun {s s'} h => ?_,
      fun {s s'} h hopen => ?_⟩
    · exact .map (sifts_operand ih henv h) fun _ _ hends => hsated hends
    · intro o t ho
      obtain ⟨found, hfound, rfl⟩ := runs_map.mp ho
      obtain ⟨t', ho', ht, hends⟩ := sifts_operand ih henv h found t hfound
      obtain ⟨x, rfl, hgroup⟩ := runs_braceGroup_of_operand h.pastSpacing.2 hopen ho'
      have hhooks : env.dictionary.HasStandardHooks :=
        henv.dictionary ▸ Dictionary.hasStandardHooks_standard
      exact ⟨t', runs_braceGroup_succ hhooks hgroup, ht, rfl, hsated hends⟩

end TexFormula.Parser
