import TexFormula.Proofs.Operations
import TexFormula.Proofs.QuotedTexts.Operand

/-!
# Diagnostics point into the source

`located_and_quoted`: whatever a parser is asked for, and whether it succeeds or not, its diagnostics
are about pieces of the source (`Env.Locates`) and its answers are taken from it (`Quoting`).
-/

namespace TexFormula.Parser

variable {env : Env} {inner : Inner} {reports : List Problem} {s : State} {lhs : Expression}

/-! ### Expressions -/

section

variable (hi : inner.Placing env reports) (hd : env.dictionary.HasStandardHooks)

include hi hd

theorem places_applyOperator {n : Notation} {trigger : String}
    (hn : n ∈ env.dictionary.readAt trigger) (hlhs : Quoting env lhs) (chained : Option String)
    (s : State) :
    Places env reports (fun o _ => ∀ e ∈ o, Quoting env e) s
      (applyOperator env inner n lhs chained) := by
  have hname : env.Names n.name := .entry (Dictionary.mem_entries_of_mem_readAt hn)
  unfold applyOperator
  split
  · next hook hreader => exact hookPlaces_of_mem hi hd hn hreader (some lhs) s (by simpa using hlhs)
  split
  · exact .pure (by simpa using Quoting.function hname (List.forall_mem_singleton.mpr hlhs))
  · refine .bind (hi.expression _ s) fun rhs t _ _ hrhs => ?_
    have hend (grows : Bool) : ∀ e ∈ some (extend n.name grows lhs rhs), Quoting env e := by
      simpa using Quoting.extend hname grows hlhs hrhs
    dsimp only
    exact .ite (fun _ => .recordHere (fun _ _ => trivial) fun _ => .pure (hend _)) fun _ =>
      .pure (hend _)
  · exact .pure (by simpa using hlhs)

theorem places_firstOperator {trigger : String} {notations : List Notation}
    (h : ∀ n ∈ notations, n ∈ env.dictionary.readAt trigger) (hlhs : Quoting env lhs)
    (chained : Option String) (s : State) :
    Places env reports (fun o _ => ∀ p ∈ o, Quoting env p.1) s
      (firstOperator env inner lhs chained notations) := by
  induction notations with
  | nil => exact .pure (by simp)
  | cons n rest ih =>
    obtain ⟨hn, hrest⟩ := List.forall_mem_cons.mp h
    refine .attempt_orElse (P := fun o _ => ∀ p ∈ o, Quoting env p.1) (.advance ?_) (fun _ _ => id)
      (ih hrest)
    refine .bind (places_applyOperator hi hd hn hlhs chained _) fun o t _ _ ho => .pure ?_
    cases o with
    | none => simp
    | some e => simpa using ho

theorem places_chain (loosest : Precedence) (fuel : Nat) (lhs : Operand)
    (hlhs : Quoting env lhs.expression) (chained : Option String) (s : State) :
    Places env reports (fun e _ => Quoting env e) s
      (chain env inner loosest fuel lhs chained) := by
  induction fuel generalizing s lhs chained with
  | zero => exact .pure hlhs
  | succ fuel ih =>
    refine .skipSpacing (.atTerminator (.ite (fun _ => .pure hlhs) fun _ => ?_))
    refine .current fun _ => .ite (fun _ => ?_) fun _ => ?_
    · refine .bind (places_delimitedArguments hi _) fun arguments t _ _ harguments => ?_
      exact ih ⟨.apply lhs.expression arguments, true⟩ (.apply hlhs harguments) none t
    split
    · next trigger _ =>
      have hfitting : ∀ n ∈ candidates env trigger loosest, n ∈ env.dictionary.readAt trigger :=
        fun n hn => (List.mem_filter.mp (List.mem_filter.mp hn).1).1
      refine .bind (places_firstOperator hi hd hfitting hlhs _ _) fun applied t _ _ happlied => ?_
      split
      · next e n => exact ih ⟨e, false⟩ (happlied (e, n) rfl) _ t
      · exact .pure hlhs
    · refine .ite (fun _ => .pure hlhs) fun _ => .get fun _ => ?_
      refine .bind (hi.expression _ _) fun factor t _ _ hfactor => .get fun _ => ?_
      refine .ite (fun _ => .pure hlhs) fun _ => ?_
      exact ih ⟨_, false⟩ (.extend (.given (by decide)) _ hlhs hfactor) _ t

theorem places_expressionAt (loosest : Precedence) (s : State) :
    Places env reports (fun e _ => Quoting env e) s (expressionAt env inner loosest) := by
  unfold expressionAt
  refine .bind (places_operand hi hd s) fun o t _ _ ho => ?_
  split
  · next lhs => exact .get fun _ => places_chain hi hd _ _ lhs (ho lhs rfl) none t
  · refine .current fun hfits => ?_
    split
    · refine .atTerminator (.ite (fun _ => .pure .missing) fun _ => ?_)
      refine .recordAt hfits trivial fun u => .get fun _ => ?_
      exact places_chain hi hd _ _ { expression := .missing } .missing none u
    · exact .pure .missing

end

/-! ### All levels of nesting -/

/-- By the levels allowed. -/
theorem placing_within (hd : env.dictionary.HasStandardHooks) (levels : Nat) :
    (within env levels).Placing env reports := by
  induction levels with
  | zero => exact ⟨fun _ _ => .throw, fun _ => .throw⟩
  | succ levels ih =>
    refine ⟨fun loosest s => .descend (places_expressionAt ih hd loosest _), fun s => ?_⟩
    have hoperand : Places env reports (fun o _ => ∀ e ∈ o, Quoting env e) s
        ((fun o => o.map Operand.expression) <$> descend env (operand env (within env levels))) := by
      refine (Places.descend (places_operand ih hd _)).map fun o _ ho => ?_
      cases o with
      | none => simp
      | some x => simpa using ho
    exact hoperand

theorem places_parts (hd : env.dictionary.HasStandardHooks) (fuel : Nat) (s : State) :
    Places env reports (fun es _ => ∀ e ∈ es, Quoting env e) s (parts env env.readers fuel) := by
  induction fuel generalizing s with
  | zero => exact .pure (by simp)
  | succ fuel ih =>
    refine .bind ((placing_within hd _).expression .loosest s) fun e t _ _ he => .get fun _ => ?_
    have hhere : ∀ a ∈ (if e.isMissing then [] else [e]), Quoting env a := by
      split
      · simp
      · simpa using he
    refine .ite (fun _ => .pure hhere) fun hmore => .get fun ht => ?_
    have hkind := ht.current_ne_ending (by simpa using hmore)
    refine .bind (places_unexpected ht.fits_current hkind t) fun stray u _ _ hstray => ?_
    refine .bind (ih u) fun others v _ _ hothers => .pure ?_
    exact List.forall_mem_append.mpr ⟨hhere, List.forall_mem_cons.mpr ⟨hstray, hothers⟩⟩

theorem places_root (hd : env.dictionary.HasStandardHooks) (s : State) :
    Places env reports (fun e _ => Quoting env e) s (root env) := by
  refine .get fun _ => .bind (places_parts hd _ s) fun es t _ _ hes => .pure ?_
  unfold assemble
  split
  · exact .missing
  · exact hes _ (by simp)
  · exact .function (.given (by decide)) hes

theorem places_perform (hd : env.dictionary.HasStandardHooks) (request : Request)
    (hreport : ∀ problem, request = .report problem → problem ∈ reports) (s : State) :
    Places env reports (fun a _ => env.Answers request a) s (perform env request) :=
  places_answer (placing_within hd _) request hreport s

/-! ### Operations -/

/-- What is reported from outside. -/
def reported (operations : List Operation) : List Problem :=
  operations.filterMap fun
    | .request (.report problem) => some problem
    | _ => none

theorem placed_after (hd : env.dictionary.HasStandardHooks) (o : Operation)
    (hreport : ∀ problem, o = .request (.report problem) → problem ∈ reports)
    (hs : s.Placed env reports) : (o.after env s).Placed env reports := by
  have hall : Places env reports (fun _ _ => True) s (o.perform env) := by
    cases o with
    | root => exact .bind (places_root hd s) fun _ _ _ _ _ => .pure trivial
    | request r =>
      refine .bind (places_perform hd r (fun problem hr => hreport problem (by rw [hr])) s) ?_
      exact fun _ _ _ _ _ => .pure trivial
  have hend := hall hs
  unfold Operation.after
  split
  · next heq => rw [heq] at hend; exact hend.1
  · next heq => rwa [heq] at hend

/-- By induction on the operations. -/
theorem placed_afterAll (hd : env.dictionary.HasStandardHooks) (operations : List Operation)
    (hreports : reported operations ⊆ reports) (hs : s.Placed env reports) :
    (env.afterAll s operations).Placed env reports := by
  induction operations generalizing s with
  | nil => exact hs
  | cons o rest ih =>
    refine ih (fun x hx => hreports ?_) (placed_after hd o (fun problem ho => hreports ?_) hs)
    · unfold reported at hx ⊢
      rw [List.filterMap_cons]
      split
      · exact hx
      · exact List.mem_cons_of_mem _ hx
    · rw [ho, reported, List.filterMap_cons]
      exact List.mem_cons_self

/-- After any operations, successful or not, every diagnostic has a span that is a piece of the source
and quotes the source as it stands. What the parser then answers is taken from the source. -/
theorem located_and_quoted {d : Dictionary} (hd : d.HasStandardHooks) (options : ParseOptions)
    (source : String) (operations : List Operation) :
    let env : Env := ⟨source, d, options⟩
    let s := env.afterAll (.ofSource source) operations
    (∀ x ∈ s.diagnostics, env.Locates (reported operations) x) ∧
      (∀ e t, root env s = .ok e t → Quoting env e) ∧
      ∀ request a t, perform env request s = .ok a t → env.Answers request a := by
  intro env s
  have hplaced {reports : List Problem} (h : reported operations ⊆ reports) :
      s.Placed env reports :=
    placed_afterAll hd operations h (.ofSource env reports)
  refine ⟨(hplaced (List.Subset.refl _)).located, fun e t h => ?_, fun request a t h => ?_⟩
  · exact ((places_root hd s).of_runs (hplaced (List.Subset.refl _)) h).2.2
  · -- the request counts as one more operation
    have hs : s.Placed env (reported (operations ++ [.request request])) :=
      hplaced (by simp [reported])
    refine ((places_perform hd request (fun problem hproblem => ?_) s).of_runs hs h).2.2
    simp [reported, hproblem]

/-- A stray bracket behind a letter of two bytes is quoted as it stands, and a numeral with an exponent
that is too large in its plain form, with the sign in front of it. -/
theorem located_and_quoted_accent :
    let env : Env := ⟨"é]-1,000\\times10^\x7b99999999999999999999\x7d", .standard, {}⟩
    let s := env.afterAll (.ofSource env.source) [.root]
    s.diagnostics.map (fun x => (x.span, x.problem.text)) =
        [(some (.between 4 40), "-1000e99999999999999999999"), (some (.between 2 3), "]")] ∧
      ∀ x ∈ s.diagnostics, env.Locates [] x :=
  ⟨by decide +kernel, (located_and_quoted Dictionary.hasStandardHooks_standard {} _ [.root]).1⟩

end TexFormula.Parser
