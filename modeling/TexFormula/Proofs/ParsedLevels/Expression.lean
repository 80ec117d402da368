import TexFormula.Proofs.Lockstep.Expression
import TexFormula.Proofs.ParsedLevels.Operand

/-!
# Levels of expressions

The loop of operators and factors lets the operand before it grow by one level for each token or
factor that it reads. An operand that is a chain of a variadic operator (`ChainOf`) takes one more
operand without a level of its own.

The parser counts the levels of its recursion, and the serializer counts the levels of the tree. An
operator after an operand lets the tree grow without any recursion, so a tree that has been read may
be too deep to be written with the same limit. This is all that can go wrong (`run_of_parse`), and
it takes a source of as many tokens as there are levels.
-/

namespace TexFormula

namespace Parser

open Expression

variable {env : Env} {inner : Inner} {n : Nat} {s t : State} {e lhs rhs : Expression}
  {name : String}

/-- The expression is a chain of the operator of that name, if there is one. -/
def ChainOf (chained : Option String) (e : Expression) : Prop :=
  ∀ name, chained = some name →
    (name ≠ "Power" ∧ name ≠ "Error") ∧ ∃ es, e = .function name es

theorem ChainOf.none : ChainOf none e :=
  nofun

/-- An operator on both its operands, each of which has room for one level more. -/
theorem Fits.extend {chained : Option String} (hchain : ChainOf chained lhs)
    (hname : name ≠ "Power" ∧ name ≠ "Error") (hlhs : lhs.Plain)
    (hroom : lhs.writtenLevels + t.rest.length ≤ n) (hrhs : rhs.Plain)
    (hroom' : rhs.writtenLevels + t.rest.length ≤ n) (chains : Bool) :
    Fits n (extend name (chains && chained == some name) lhs rhs) t ∧
      ∃ es, extend name (chains && chained == some name) lhs rhs = .function name es := by
  have hpair : Fits n (.function name [lhs, rhs]) t := by
    refine ⟨.apply (.symbol name) ?_, ?_⟩
    · simp only [List.forall_mem_cons]
      exact ⟨hlhs, hrhs, List.forall_mem_nil _⟩
    · have hle : levelsBelowName name [lhs, rhs] [lhs.writtenLevels, rhs.writtenLevels] ≤
          n - t.rest.length := by
        refine levelsBelowName_le (.inl hname.1) ?_
        simp only [List.forall_mem_cons]
        exact ⟨by omega, by omega, List.forall_mem_nil _⟩
      have hlevels : (function name [lhs, rhs]).writtenLevels =
          1 + levelsBelowName name [lhs, rhs] [lhs.writtenLevels, rhs.writtenLevels] :=
        writtenLevels_function
      omega
  cases hgrows : chains && chained == some name with
  | false => exact ⟨hpair, _, rfl⟩
  | true =>
    obtain ⟨-, hsame⟩ := Bool.and_eq_true_iff.mp hgrows
    obtain ⟨-, es, rfl⟩ := hchain name (eq_of_beq hsame)
    refine ⟨?_, es ++ [rhs], rfl⟩
    rw [writtenLevels_function] at hroom
    show Fits n (.function name (es ++ [rhs])) t
    refine ⟨.apply (.symbol name) ?_, ?_⟩
    · cases hlhs with
      | apply _ hes => exact List.forall_mem_append.mpr ⟨hes, List.forall_mem_singleton.mpr hrhs⟩
    · have hbelow : levelsBelowName name (es ++ [rhs]) ((es ++ [rhs]).map writtenLevels) ≤
          n - t.rest.length :=
        levelsBelowName_append_le hname (by omega) (by omega)
      rw [writtenLevels_function]
      omega

/-! ### Operators -/

/-- The standard operators that are read by the rule of their kind. -/
theorem operator_name {m : Notation} (hm : m ∈ Dictionary.standardEntries)
    (hreader : m.reader = none) : m.name ≠ "Power" ∧ m.name ≠ "Error" ∨ m.kind = .custom := by
  have hall : Dictionary.standardEntries.all fun m =>
      m.reader.isSome || (m.name != "Power" && m.name != "Error") || m.kind == .custom := by
    decide +kernel
  have h := List.all_eq_true.mp hall m hm
  rw [hreader] at h
  rcases Bool.or_eq_true_iff.mp h with hname | hkind
  · obtain ⟨hpower, herror⟩ := Bool.and_eq_true_iff.mp hname
    exact .inl ⟨bne_iff_ne.mp hpower, bne_iff_ne.mp herror⟩
  · exact .inr (eq_of_beq hkind)

theorem reader_eq_none_of_isVariadic {m : Notation} (hm : m ∈ Dictionary.standardEntries)
    (hvariadic : m.isVariadic) : m.reader = none := by
  have hall : Dictionary.standardEntries.all fun m => !m.isVariadic || m.reader.isNone := by
    decide +kernel
  have h := List.all_eq_true.mp hall m hm
  rw [hvariadic] at h
  exact Option.isNone_iff_eq_none.mp h

section

variable (hi : inner.Fitting)

include hi

/-- An operator whose trigger has been read, when with the trigger there was room for the operand
before it. -/
theorem readFits_applyOperator {m : Notation} (hm : m ∈ Dictionary.standardEntries)
    {chained : Option String} (hchain : ChainOf chained lhs) (hlhs : lhs.Plain)
    (hroom : lhs.writtenLevels + s.rest.length ≤ n) :
    Ensures (fun o t => ReadFits n s o t ∧ ∀ e, o = some e → ChainOf (chainName? m) e) s
      (applyOperator env inner m lhs chained) := by
  have hrest := rest_lt_of_levels hroom
  unfold applyOperator
  split
  · next hook hreader =>
    have hfits : HookFits env inner hook := hookFits_standardEntries hi hm hreader
    refine (hfits (some lhs) n s hlhs hroom).mono fun o t ht => ⟨ht, fun e _ => ?_⟩
    have hchain : chainName? m = none := by
      unfold chainName?
      split
      · next hvariadic =>
        rw [reader_eq_none_of_isVariadic hm hvariadic] at hreader
        cases hreader
      · rfl
    rw [hchain]
    exact .none
  · next hreader =>
    have hname (h : m.kind ≠ .custom) : m.name ≠ "Power" ∧ m.name ≠ "Error" :=
      (operator_name hm hreader).resolve_right h
    split
    · next hkind =>
      have hnone : chainName? m = none := by
        rw [chainName?, Notation.isVariadic, hkind]
        rfl
      rw [hnone]
      refine .pure ⟨.some ?_ (Nat.le_refl _), fun e _ => .none⟩
      obtain ⟨k, rfl⟩ : ∃ k, n = k + 1 := ⟨n - 1, by omega⟩
      refine AllFit.fits_function (hname (by rw [hkind]; nofun)).1 ⟨?_, by omega⟩
      exact List.forall_mem_singleton.mpr ⟨hlhs, hroom⟩
    · next variadic hkind =>
      refine .bind (hi.fits_expression _ s) fun rhs t ht => ?_
      have hle := ht.rest_le
      have hlevels := ht.2
      have hextend := Fits.extend hchain (hname (by rw [hkind]; nofun)) hlhs
        (by omega : lhs.writtenLevels + t.rest.length ≤ n) ht.1 (by omega) variadic
      have hend : ReadFits n s (some (extend m.name (variadic && chained == some m.name) lhs rhs)) t ∧
          ∀ e, some (extend m.name (variadic && chained == some m.name) lhs rhs) = some e →
            ChainOf (chainName? m) e := by
        refine ⟨.some hextend.1 hle, fun e he name hchained => ?_⟩
        cases he
        unfold chainName? at hchained
        split at hchained
        · cases hchained
          exact ⟨hname (by rw [hkind]; nofun), hextend.2⟩
        · cases hchained
      dsimp only
      split
      · exact .recordHere (.pure hend)
      · exact .pure hend
    · next hother =>
      have hnone : chainName? m = none := by
        unfold chainName?
        split
        · next hvariadic => exact absurd (eq_of_beq hvariadic) (hother true)
        · rfl
      rw [hnone]
      exact .pure ⟨.some ⟨hlhs, Nat.le_succ_of_le hroom⟩ (Nat.le_refl _), fun e _ => .none⟩

/-- An operator and its operands, or nothing and no token read. -/
def OperatorFits (n : Nat) (s : State) (found : Option (Expression × Notation)) (t : State) : Prop :=
  match found with
  | some (e, m) => Costs n e t ∧ ChainOf (chainName? m) e
  | none => t = s

/-- The first operator that does not decline. Its trigger is a token. -/
theorem fits_firstOperator {notations : List Notation}
    (h : ∀ m ∈ notations, m ∈ Dictionary.standardEntries) {chained : Option String}
    (hchain : ChainOf chained lhs) (hlhs : Fits (n + 1) lhs s) (hs : s.rest ≠ []) :
    Ensures (OperatorFits n s) s (firstOperator env inner lhs chained notations) := by
  have hlt := State.length_rest_forward_one_lt hs
  have hrest := hlhs.rest_le
  have hlevels := hlhs.2
  induction notations with
  | nil => exact .pure rfl
  | cons m rest ih =>
    have ih := ih fun m hm => h m (List.mem_cons_of_mem _ hm)
    have hroom : lhs.writtenLevels + (s.forward 1).rest.length ≤ n + 1 := by omega
    refine .orElse (Q := OperatorFits n s) ?_ (fun _ _ ht => ht) fun t ht => ?_
    · refine .attempt (Q := fun found t => found.isSome → OperatorFits n s found t)
        (.advance (.bind (readFits_applyOperator hi (h m List.mem_cons_self) hchain hlhs.1 hroom)
          fun o t ht => .pure fun hfound => ?_)) rfl fun found t ht => ht rfl
      cases o with
      | none => cases hfound
      | some e => exact ⟨⟨ht.1.1 e rfl, Nat.le_trans ht.1.2 (by omega)⟩, ht.2 e rfl⟩
    · have hsame : t = s := ht
      rw [hsame]
      exact ih

/-! ### Operators and factors one after the other -/

omit hi in
/-- The call of an operand. Its parenthesis is a token. -/
theorem Costs.call {u : State} {body : Expression} (hlhs : Fits (n + 1) lhs u) (hu : u.rest ≠ [])
    (hbody : Fits (u.rest.length - 1) body t) : Costs n (.apply lhs body.sequenceItems) t := by
  have hpos := List.length_pos_iff.mpr hu
  have hrest := hbody.rest_le
  have hbound := hlhs.rest_le
  have hlevels := hlhs.2
  have hbodyLevels := hbody.2
  refine ⟨⟨.apply hlhs.1 hbody.1.sequenceItems, ?_⟩, by omega⟩
  have hle : (Expression.apply lhs body.sequenceItems).writtenLevels ≤ n + 1 - t.rest.length + 1 :=
    writtenLevels_apply_sequenceItems_le (by omega) (by omega)
  omega

omit hi in
/-- A factor, which is not missing, behind an operand. -/
theorem Costs.factor {u : State} {chained : Option String} (hchain : ChainOf chained lhs)
    (hlhs : Fits (n + 1) lhs u) (hu : u.rest.length ≤ n)
    (hfactor : ExpressionFits u.rest.length rhs t) (hmissing : rhs.isMissing = false) :
    Costs n (extend "Multiply" (chained == some "Multiply") lhs rhs) t ∧
      ChainOf (some "Multiply") (extend "Multiply" (chained == some "Multiply") lhs rhs) := by
  obtain ⟨hfits, hcost⟩ := hfactor
  rw [hmissing] at hcost
  have hlt : t.rest.length < u.rest.length := hcost.resolve_left Bool.false_ne_true
  have hlevels := hlhs.2
  have hfactorLevels := hfits.2
  have hname : "Multiply" ≠ "Power" ∧ "Multiply" ≠ "Error" := by decide
  have hextend := Fits.extend hchain hname hlhs.1
    (by omega : lhs.writtenLevels + t.rest.length ≤ n + 1) hfits.1 (by omega) true
  rw [Bool.true_and] at hextend
  refine ⟨⟨hextend.1, by omega⟩, fun name hsome => ?_⟩
  cases hsome
  exact ⟨hname, hextend.2⟩

/-- What the loop gives. If it has not come further than the operand before it, it gives that. -/
def ChainFits (n : Nat) (s : State) (lhs e : Expression) (t : State) : Prop :=
  Fits (n + 1) e t ∧ (s.rest.length ≤ n → t.rest.length ≤ n) ∧ (t.rest.length ≤ n ∨ e = lhs)

theorem fits_chain (hd : env.dictionary = .standard) (loosest : Precedence) (fuel : Nat)
    (lhs : Operand) {chained : Option String} (hchain : ChainOf chained lhs.expression)
    (hlhs : Fits (n + 1) lhs.expression s)
    (hs : s.rest.length ≤ n ∨ s.rest.length ≤ n + 1 ∧ s.AtOperator env) :
    Ensures (ChainFits n s lhs.expression) s (chain env inner loosest fuel lhs chained) := by
  induction fuel generalizing s lhs chained with
  | zero => exact .pure ⟨hlhs, id, .inr rfl⟩
  | succ fuel ih =>
    have hspace : (s.forward (s.rest.takeWhile State.isSpacing).length).rest.length ≤ n ∨
        (s.forward (s.rest.takeWhile State.isSpacing).length).rest.length ≤ n + 1 ∧
          (s.forward (s.rest.takeWhile State.isSpacing).length).AtOperator env := by
      rcases hs with hs | ⟨hs, hop⟩
      · exact .inl (State.length_forward_le hs _)
      · exact hop.forward hs _
    have hlhs := hlhs.forward (s.rest.takeWhile State.isSpacing).length
    have hforward := State.length_rest_forward_le s (s.rest.takeWhile State.isSpacing).length
    refine .skipSpacing (.atTerminator ?_)
    generalize s.forward (s.rest.takeWhile State.isSpacing).length = u at hspace hlhs hforward
    have hlevels := hlhs.2
    -- the loop stops, or it goes on after reading a token
    have hstop : ChainFits n s lhs.expression lhs.expression u :=
      ⟨hlhs, fun h => Nat.le_trans hforward h, .inr rfl⟩
    have hgo {t : State} {e : Expression} {callable : Bool} {chained : Option String}
        (hchain : ChainOf chained e) (h : Costs n e t) :
        Ensures (ChainFits n s lhs.expression) t
          (chain env inner loosest fuel ⟨e, callable⟩ chained) := by
      refine (ih ⟨e, callable⟩ hchain h.1 (.inl h.2)).mono fun e' v hv => ?_
      exact ⟨hv.1, fun _ => hv.2.1 h.2, .inl (hv.2.1 h.2)⟩
    split
    · exact .pure hstop
    · refine .current ?_
      dsimp only
      split
      · next hcall =>
        have hkind : (u.current env).kind ≠ .ending := by
          rw [eq_of_beq (Bool.and_eq_true_iff.mp hcall).2]
          nofun
        have hu := State.rest_ne_nil_of_current hkind
        have hpos := List.length_pos_iff.mpr hu
        refine .bind (fits_delimitedArguments hi (n := u.rest.length - 1) (by omega)) ?_
        rintro _ t ⟨body, rfl, hbody⟩
        exact hgo .none (.call hlhs hu hbody)
      · split
        · next trigger htrigger =>
          have hkind : (u.current env).kind ≠ .ending := by
            intro hending
            rw [Token.trigger?, hending] at htrigger
            cases htrigger
          have hmem : ∀ m ∈ candidates env trigger loosest, m ∈ Dictionary.standardEntries := by
            intro m hm
            have hoperator := (List.mem_filter.mp hm).1
            rw [hd] at hoperator
            exact Dictionary.mem_entries_of_mem_readAt (List.mem_filter.mp hoperator).1
          refine .bind (fits_firstOperator hi hmem hchain hlhs
            (State.rest_ne_nil_of_current hkind)) fun found t ht => ?_
          cases found with
          | none =>
            have hsame : t = u := ht
            rw [hsame]
            exact .pure hstop
          | some found => exact hgo ht.2 ht.1
        · next hnone =>
          have hle : u.rest.length ≤ n := by
            rcases hspace with hle | ⟨-, hop⟩
            · exact hle
            · rw [State.AtOperator, hnone] at hop
              exact absurd hop Bool.false_ne_true
          split
          · exact .pure hstop
          · refine .get (.bind (hi.expression _ u) fun factor t ht => .get ?_)
            split
            · refine .pure ⟨hlhs.of_rest_le ht.1.rest_le, fun _ => ?_, .inr rfl⟩
              exact Nat.le_trans ht.1.rest_le hle
            · next hgoes =>
              have hmissing : factor.isMissing = false := by
                cases hcase : factor.isMissing with
                | false => rfl
                | true => exact absurd (Bool.or_eq_true_iff.mpr (.inr hcase)) hgoes
              obtain ⟨hcosts, hproduct⟩ := Costs.factor hchain hlhs hle ht hmissing
              exact hgo hproduct hcosts

/-- An expression where `n + 1` tokens are left. -/
theorem expressionFits_expressionAt (hd : env.dictionary = .standard) (loosest : Precedence)
    (hs : s.rest.length = n + 1) :
    Ensures (ExpressionFits (n + 1)) s (expressionAt env inner loosest) := by
  unfold expressionAt
  refine .bind (operandFits_operandWithin hi hd _ (Nat.le_of_eq hs)) fun o t ht => ?_
  split
  · next lhs =>
    obtain ⟨hfits, hle⟩ := ht.1 lhs rfl
    refine .get ((fits_chain hi hd loosest _ lhs .none hfits (.inl hle)).mono fun e u hu => ?_)
    exact ⟨hu.1, .inr (Nat.lt_succ_of_le (hu.2.1 hle))⟩
  · refine .current ?_
    split
    · next trigger htrigger =>
      refine .atTerminator ?_
      split
      · exact .pure ⟨.missing ht.2, .inl rfl⟩
      · have hop : State.AtOperator env t := Option.isSome_iff_exists.mpr ⟨trigger, htrigger⟩
        refine .recordAt (.get ?_)
        refine (fits_chain (n := n) hi hd loosest _ { expression := .missing } .none ?_ ?_).mono ?_
        · exact .missing ht.2
        · exact .inr ⟨ht.2, hop⟩
        · intro e u hu
          refine ⟨hu.1, ?_⟩
          rcases hu.2.2 with hle | rfl
          · exact .inr (Nat.lt_succ_of_le hle)
          · exact .inl rfl
    · exact .pure ⟨.missing ht.2, .inl rfl⟩

end

/-! ### All levels of nesting -/

/-- By induction on the levels allowed: what is read at any level fits. -/
theorem fitting_nested (hd : env.dictionary = .standard) (levels : Nat) :
    (nested env levels).Fitting := by
  induction levels with
  | zero => exact ⟨fun _ _ => .throw, fun _ => .throw⟩
  | succ levels ih =>
    constructor
    · intro loosest s
      cases hlength : s.rest.length with
      | zero =>
        have hnil := List.length_eq_zero_iff.mp hlength
        exact .of_runs (runs_expressionAt_of_rest_nil hnil loosest)
          ⟨.missing (Nat.le_of_eq hlength), .inl rfl⟩
      | succ n => exact expressionFits_expressionAt ih hd loosest hlength
    · intro s
      cases hlength : s.rest.length with
      | zero =>
        have hnil := List.length_eq_zero_iff.mp hlength
        exact .of_runs (runs_map.mpr ⟨none, runs_operand_of_rest_nil hnil, rfl⟩)
          (.none (Nat.le_of_eq hlength))
      | succ n =>
        have hfits : Ensures (OperandFits n) s (operand env (nested env levels)) :=
          operandFits_operandWithin ih hd _ (Nat.le_of_eq hlength)
        refine Ensures.map hfits fun o t ht => ?_
        cases o with
        | none => exact .none ht.2
        | some x =>
          obtain ⟨hfits, hle⟩ := ht.1 x rfl
          exact .some hfits (Nat.lt_succ_of_le hle)

/-! ### The whole source -/

/-- The parts of a source of `n` tokens. Among several ones, each has cost less than all tokens. -/
def PartsFit (n : Nat) (es : List Expression) : Prop :=
  (∀ e ∈ es, e.Plain ∧ e.writtenLevels ≤ n + 1) ∧
    (2 ≤ es.length → ∀ e ∈ es, e.writtenLevels ≤ n)

theorem partsFit_parts (hd : env.dictionary = .standard) (fuel : Nat) (s : State) :
    Ensures (fun es _ => PartsFit s.rest.length es) s
      (parts env (nested env env.options.maxDepth) fuel) := by
  induction fuel generalizing s with
  | zero => exact .pure ⟨List.forall_mem_nil _, nofun⟩
  | succ fuel ih =>
    refine .bind ((fitting_nested hd _).fits_expression .loosest s) fun e t ht => .get ?_
    have hlevels := ht.2
    have hhere : ∀ a ∈ (if e.isMissing then [] else [e]),
        a.Plain ∧ a.writtenLevels + t.rest.length ≤ s.rest.length + 1 := by
      split
      · exact List.forall_mem_nil _
      · exact List.forall_mem_singleton.mpr ht
    have hcount : (if e.isMissing then [] else [e]).length ≤ 1 := by
      split
      · exact Nat.zero_le 1
      · exact Nat.le_refl 1
    generalize (if e.isMissing then [] else [e]) = here at hhere hcount
    split
    · refine .pure ⟨fun a ha => ⟨(hhere a ha).1, ?_⟩, fun htwo => by omega⟩
      have := (hhere a ha).2
      omega
    · next hgoes =>
      have hne : t.rest ≠ [] := fun hnil => hgoes (by rw [hnil]; rfl)
      have hpos := List.length_pos_iff.mpr hne
      refine .current (.bind (leaf_unexpected (n := t.rest.length - 1) _ (by omega))
        fun stray u hu => .bind (ih u) fun others v hv => .pure ?_)
      have hle := ht.rest_le
      obtain ⟨hplain, hone, hu_le⟩ := hu
      have hall : ∀ a ∈ here ++ stray.expression :: others,
          a.Plain ∧ a.writtenLevels ≤ s.rest.length := by
        refine List.forall_mem_append.mpr ⟨fun a ha => ⟨(hhere a ha).1, ?_⟩,
          List.forall_mem_cons.mpr ⟨⟨hplain, by omega⟩, fun a ha => ⟨(hv.1 a ha).1, ?_⟩⟩⟩
        · have := (hhere a ha).2
          omega
        · have := (hv.1 a ha).2
          omega
      exact ⟨fun a ha => ⟨(hall a ha).1, Nat.le_succ_of_le (hall a ha).2⟩,
        fun _ a ha => (hall a ha).2⟩

theorem PartsFit.assemble {es : List Expression} (h : PartsFit n es) :
    (assemble es).Plain ∧ (assemble es).writtenLevels ≤ n + 1 := by
  unfold Parser.assemble
  split
  · exact ⟨.missing, Nat.le_add_left 1 n⟩
  · exact h.1 _ List.mem_cons_self
  · next hnil hone =>
    have htwo : 2 ≤ es.length := by
      match es, hnil, hone with
      | [], hnil, _ => exact absurd rfl hnil
      | [e], _, hone => exact absurd rfl (hone e)
      | _ :: _ :: _, _, _ => simp
    have hsequence : "Sequence" ∉ ["Power", "Multiply", "Error", "LatexString", "LatexTokens"] := by
      decide
    exact ⟨.apply (.symbol _) fun a ha => (h.1 a ha).1,
      (writtenLevels_function_le_iff hsequence).mpr (h.2 htwo)⟩

/-- A parsed tree holds no dictionary, and its levels number at most the tokens and one more. -/
theorem writtenLevels_le_of_parse {options : ParseOptions} {source : String} {p : Parsed}
    (h : parse .standard options source = .ok p) :
    p.expression.Plain ∧ p.expression.writtenLevels ≤ (Token.meaningful source).length + 1 := by
  have hroot : Ensures (fun e _ => e.Plain ∧
      e.writtenLevels ≤ (Token.meaningful source).length + 1) (.ofSource source)
      (root ⟨source, .standard, options⟩) := by
    refine .of_eq (root_eq_rootNested _ rfl) ?_
    exact .get (.bind (partsFit_parts rfl _ _) fun es t hes => .pure hes.assemble)
  unfold parse at h
  split at h
  · next e t hruns =>
    cases h
    exact hroot e t hruns
  · cases h

end Parser

/-! ### Writing what has been read -/

/-- What has been read by the standard notations is written without diagnostics if its levels, which
number at most the tokens of the source and one more, are allowed; otherwise the limit is reported. -/
theorem run_of_parse {source : String} {p : Parsed} (h : parse .standard {} source = .ok p) :
    p.expression.writtenLevels ≤ (Token.meaningful source).length + 1 ∧
      (p.expression.writtenLevels ≤ 64 →
        ∃ latex, (Serializer.mk .standard {}).run p.expression = .ok ⟨latex, []⟩) ∧
      (64 < p.expression.writtenLevels →
        (Serializer.mk .standard {}).run p.expression = .error (.depthExceeded 64)) := by
  obtain ⟨hplain, hlevels⟩ := Parser.writtenLevels_le_of_parse h
  obtain ⟨hwritten, hstopped⟩ :=
    (Serializer.gated_within (s := ⟨.standard, {}⟩) rfl 64 hplain)
  refine ⟨hlevels, fun hle => ?_, fun hlt => ?_⟩
  · obtain ⟨latex, hlatex⟩ := hwritten hle
    refine ⟨latex, ?_⟩
    have hserialize : (Serializer.mk .standard {}).serialize p.expression = .ok latex := hlatex
    rw [Serializer.run, hserialize]
  · have hserialize : (Serializer.mk .standard {}).serialize p.expression =
        .error (.fatal (.depthExceeded 64)) := hstopped (Nat.not_le_of_lt hlt)
    rw [Serializer.run, hserialize]

/-- A letter with factorials of factorials. -/
def factorials (count : Nat) : String :=
  String.ofList ('x' :: List.replicate count '!')

/-- As many factorials as there are levels are read without complaint, and each of them is a level
of the tree. -/
theorem not_run_of_parse_factorials : ∃ p, parse .standard {} (factorials 64) = .ok p ∧
    p.diagnostics = [] ∧
    (Serializer.mk .standard {}).run p.expression = .error (.depthExceeded 64) := by
  have hrun : (match parse .standard {} (factorials 64) with
      | .ok p => p.diagnostics.isEmpty &&
        match (Serializer.mk .standard {}).run p.expression with
        | .error fault => decide (fault = .depthExceeded 64)
        | .ok _ => false
      | .error _ => false) = true := by decide +kernel
  split at hrun
  · next p hp =>
    rw [Bool.and_eq_true] at hrun
    obtain ⟨hempty, hrun⟩ := hrun
    refine ⟨p, hp, List.isEmpty_iff.mp hempty, ?_⟩
    split at hrun
    · next fault hfault => rw [hfault, of_decide_eq_true hrun]
    · cases hrun
  · cases hrun

/-- Two factorials less are read and written. -/
theorem run_of_parse_factorials : ∃ p latex, parse .standard {} (factorials 62) = .ok p ∧
    (Serializer.mk .standard {}).run p.expression = .ok ⟨latex, []⟩ := by
  have htokens : (Token.meaningful (factorials 62)).length ≤ 63 := by decide +kernel
  have hread : (parse .standard {} (factorials 62)).isOk = true := by decide +kernel
  cases hp : parse .standard {} (factorials 62) with
  | error fault =>
    rw [hp] at hread
    cases hread
  | ok p =>
    obtain ⟨hlevels, hwritten, -⟩ := run_of_parse hp
    obtain ⟨latex, hlatex⟩ := hwritten (Nat.le_trans hlevels (Nat.succ_le_succ htokens))
    exact ⟨p, latex, rfl, hlatex⟩

end TexFormula
