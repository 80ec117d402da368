import TexFormula.Proofs.AliasChains
import TexFormula.Proofs.Lockstep.Expression
import TexFormula.Proofs.ParserRun
import TexFormula.Proofs.ResolvedNotations
import TexFormula.Proofs.StandardHooks

/-!
# Operands that are missing

With the standard notations few tokens start an operand that is read and comes out missing all the
same: a brace, `\left`, and the commands for names, texts and open places (`opensGap`). Whatever has
been built by an operator or a product is there (`missing_of_chain`), so an expression is missing just
if its first operand is.
-/

namespace TexFormula

/-! ### What hooks read -/

/-- Whatever the replies are, what the program gives in the end satisfies `p`. -/
inductive Reading.Gives {α : Type} (p : α → Prop) : Reading α → Prop where
  | done {value : α} (h : p value) : Gives p (.done value)
  | ask {request : Request} {next : request.Answer → Reading α}
      (h : ∀ reply, Gives p (next reply)) : Gives p (.ask request next)

/-- What is answered, if anything is, is not missing. -/
def Present (o : Option Expression) : Prop :=
  ∀ e, o = some e → e.isMissing = false

theorem Present.none : Present none :=
  nofun

theorem Present.some {e : Expression} (h : e.isMissing = false) : Present (some e) := by
  intro e' he
  cases he
  exact h

/-- The triggers of operands that can be missing. -/
def gaps : List String :=
  ["\\left", "\\placeholder", "\\operatorname", "\\mathrm", "\\text"]

namespace Readers

variable {hook : ReadingHook} {follows : Bool} {trigger : String}

theorem gives_script (name command : String) (lhs : Option Expression) :
    (script name command lhs).Gives fun o => Present o ∧ o.isSome :=
  .ask fun _ => .done ⟨.some rfl, rfl⟩

/-- The scripts, which are the hooks behind operands, always apply. -/
theorem Standard.gives_isSome (h : Standard true trigger hook) (lhs : Option Expression) :
    (hook lhs).Gives fun o => Present o ∧ o.isSome := by
  cases h with
  | power => exact gives_script _ _ lhs
  | subscript => exact gives_script _ _ lhs

/-- What the other hooks read is there, but for names, texts and open places. -/
theorem Standard.gives_present (h : Standard follows trigger hook) (hgap : trigger ∉ gaps)
    (lhs : Option Expression) : (hook lhs).Gives Present := by
  cases h with
  | unaryPlus =>
    refine .ask fun operand => .done ?_
    cases hmissing : Expression.isMissing operand with
    | true => exact .none
    | false => exact .some hmissing
  | power => exact .ask fun _ => .done (.some rfl)
  | subscript => exact .ask fun _ => .done (.some rfl)
  | squareRoot =>
    refine .ask fun index => .ask fun radicand => .done (.some ?_)
    cases index with
    | none => rfl
    | some index => rfl
  | infinity => exact .done (.some rfl)
  | operatorname => exact absurd (by decide) hgap
  | mathrm => exact absurd (by decide) hgap
  | text => exact absurd (by decide) hgap
  | placeholder => exact absurd (by decide) hgap

end Readers

namespace Parser

variable {α : Type} {env : Env} {inner : Inner} {s t : State}

theorem ensures_run {p : α → Prop} {r : Reading α} (hr : r.Gives p) (s : State) :
    Ensures (fun a _ => p a) s (run env inner r) := by
  induction hr generalizing s with
  | done h => exact .pure h
  | ask _ ih => exact .bind (Q := fun _ _ => True) (fun _ _ _ => trivial) fun reply t _ => ih reply t

/-- A value whatever the program reads before it. -/
theorem ensures_of_value {Q : α → State → Prop} {β : Type} {m : Parser β} {f : β → Parser α}
    (h : ∀ b t, Ensures Q t (f b)) : Ensures Q s (m >>= f) :=
  .bind (Q := fun _ _ => True) (fun _ _ _ => trivial) fun b t _ => h b t

/-! ### Operands -/

/-- An operand that can be missing starts with the token. -/
def opensGap (t : Token) : Bool :=
  t.kind == .groupOpen || t.trigger?.any gaps.contains

/-- If nothing is answered nothing has been read, and if what is answered is missing it started with a
token that opens a gap. -/
structure Begun (env : Env) (s : State) (o : Option Operand) (t : State) : Prop where
  eq_of_none : o = none → t = s
  opensGap_of_missing (x : Operand) : o = some x → x.expression.isMissing → opensGap (s.current env)

theorem Begun.none : Begun env s none s :=
  ⟨fun _ => rfl, nofun⟩

theorem Begun.present {x : Operand} (h : x.expression.isMissing = false) : Begun env s (some x) t := by
  refine ⟨nofun, fun y hy hmissing => ?_⟩
  cases hy
  rw [h] at hmissing
  cases hmissing

theorem Begun.gap {x : Operand} (h : opensGap (s.current env)) : Begun env s (some x) t :=
  ⟨nofun, fun _ _ _ => h⟩

theorem present_number (negative : Bool) (s : State) :
    Ensures (fun e _ => e.isMissing = false) s (number env negative) := by
  unfold number
  refine ensures_of_value fun first _ => ensures_of_value fun whole _ => ?_
  refine ensures_of_value fun fraction _ => ensures_of_value fun exponent _ => ?_
  dsimp only
  split
  · exact .pure rfl
  · exact ensures_of_value fun _ _ => ensures_of_value fun _ _ => .pure rfl

theorem present_unexpected (token : Token) (s : State) :
    Ensures (fun x _ => x.expression.isMissing = false) s (unexpected env token) :=
  .advance (.recordAt (.pure rfl))

theorem begun_signedNumber (negative : Bool) (s : State) :
    Ensures (Begun env s) s (signedNumber env negative) := by
  refine .attempt (Q := fun o _ => ∀ x, o = some x → x.expression.isMissing = false) (.advance ?_) .none
    fun x t hx => .present (hx x rfl)
  refine .bind (present_number negative _) fun value t ht => .current ?_
  split
  · exact .pure nofun
  · refine .pure fun x hx => ?_
    cases hx
    exact ht

theorem present_parenthesized (s : State) :
    Ensures (fun x _ => x.expression.isMissing = false) s (parenthesized env inner) := by
  refine ensures_of_value fun _ _ => ensures_of_value fun body _ => .pure ?_
  dsimp only
  split
  · rfl
  · next h => exact Bool.eq_false_iff.mpr h

theorem begun_builtin (s : State) : Ensures (Begun env s) s (builtin env inner) := by
  have hnumber : Ensures (Begun env s) s (do return some { expression := ← number env false }) :=
    .bind (present_number false s) fun _ _ h => .pure (.present h)
  unfold builtin
  refine .get ?_
  dsimp only
  cases hkind : (s.current env).kind with
  | digits run => exact hnumber
  | punct c =>
    dsimp only
    split
    · exact .bind (present_parenthesized s) fun _ _ h => .pure (.present h)
    · split
      · exact hnumber
      · split
        · exact begun_signedNumber _ s
        · exact .pure .none
  | groupOpen =>
    refine ensures_of_value fun x t => .pure (.gap ?_)
    rw [opensGap, hkind]
    rfl
  | command name =>
    dsimp only
    split
    · next hleft =>
      refine ensures_of_value fun x t => .pure (.gap ?_)
      rw [opensGap, Token.trigger?, hkind, eq_of_beq hleft]
      decide
    · exact .pure .none
  | loneBackslash => exact .bind (present_unexpected _ s) fun _ _ h => .pure (.present h)
  | _ => exact .pure .none

/-- A notation with any trigger that opens no gap reads what is there. -/
theorem present_applyNotation {n : Notation} (hn : n ∈ Dictionary.standardEntries) (s : State) :
    Ensures (fun o _ => ∀ x, o = some x → x.expression.isMissing → n.trigger.any gaps.contains) s
      (applyNotation env inner n) := by
  have hfunction {es : List Expression} : ∀ x : Operand,
      some { expression := .function n.name es : Operand } = some x → x.expression.isMissing →
        n.trigger.any gaps.contains := by
    intro x hx hmissing
    cases hx
    cases hmissing
  unfold applyNotation
  split
  · next hook hreader =>
    obtain ⟨trigger, htrigger, hhook⟩ :=
      Dictionary.hookedAsStandard_standardEntries n hn hook hreader
    rw [htrigger]
    by_cases hgap : trigger ∈ gaps
    · exact fun _ _ _ _ _ _ => List.contains_iff_mem.mpr hgap
    · refine .bind (ensures_run (hhook.gives_present hgap none) s) fun o t ho => .pure ?_
      intro x hx hmissing
      obtain ⟨e, he, rfl⟩ := Option.map_eq_some_iff.mp hx
      have hpresent := ho e he
      rw [ofHook, hpresent] at hmissing
      cases hmissing
  · split
    · refine .pure fun x hx hmissing => ?_
      cases hx
      cases hmissing
    · exact ensures_of_value fun _ _ => .pure hfunction
    · exact ensures_of_value fun _ _ => .pure hfunction
    · exact ensures_of_value fun _ _ => .pure hfunction
    · exact ensures_of_value fun _ _ => .pure hfunction
    · exact .pure nofun
    · exact .pure nofun
    · exact .pure nofun

theorem begun_firstNotation {notations : List Notation}
    (h : ∀ n ∈ notations, n ∈ Dictionary.standardEntries ∧ n.trigger = (s.current env).trigger?) :
    Ensures (Begun env s) s (firstNotation env inner notations) := by
  induction notations with
  | nil => exact .pure .none
  | cons n rest ih =>
    obtain ⟨⟨hn, htrigger⟩, hrest⟩ := List.forall_mem_cons.mp h
    refine .orElse (Q := Begun env s) ?_ (fun _ _ ht => ht) fun t ht => ?_
    · refine .attempt (.advance (present_applyNotation hn _)) .none fun x t hx => ?_
      refine ⟨nofun, fun y hy hmissing => ?_⟩
      rw [opensGap, ← htrigger, hx y hy hmissing, Bool.or_true]
    · rw [ht.eq_of_none rfl]
      exact ih hrest

theorem begun_notated (hd : env.dictionary = .standard) (s : State) :
    Ensures (Begun env s) s (notated env inner) := by
  unfold notated
  refine .current ?_
  split
  · next trigger htrigger =>
    rw [hd]
    refine begun_firstNotation fun n hn => ?_
    rw [htrigger]
    exact Dictionary.entry_of_mem_operands hn
  · exact .pure .none

theorem begun_known (hd : env.dictionary = .standard) (s : State) :
    Ensures (Begun env s) s (orElse (builtin env inner) (notated env inner)) := by
  refine .orElse (begun_builtin s) (fun _ _ ht => ht) fun t ht => ?_
  rw [ht.eq_of_none rfl]
  exact begun_notated hd s

/-- The options leave no unknown token out. -/
def Env.LeavesNothingOut (env : Env) : Prop :=
  ∀ token, env.options.unknownTokens.disposition token ≠ .skip

theorem present_disposed (hkeep : env.LeavesNothingOut) (token : Token) (name : String)
    (found : List Expression × Nat) (s : State) :
    Ensures (fun o _ => ∃ x : Operand, o = some x ∧ x.expression.isMissing = false) s
      (match env.options.unknownTokens.disposition ("\\" ++ name) with
        | .skip => return none
        | .error => do
          record .unknownCommand ("\\" ++ name) token.start found.2
          return some
            { expression := .error Problem.Cause.unknownCommand.code
                (env.slice token.start found.2) }
        | kind => do
          record .unknownSymbol ("\\" ++ name) token.start found.2
          if found.1.isEmpty then
            return some { expression := .symbol ("\\" ++ name), callable := kind == .function }
          else
            return some { expression := .function ("\\" ++ name) found.1 }) := by
  split
  · next hskip => exact absurd hskip (hkeep _)
  · exact .record (.pure ⟨_, rfl, rfl⟩)
  · refine .record ?_
    split
    · exact .pure ⟨_, rfl, rfl⟩
    · exact .pure ⟨_, rfl, rfl⟩

theorem present_unknown (hkeep : env.LeavesNothingOut) (s : State) :
    Ensures (fun o _ => ∃ x : Operand, o = some x ∧ x.expression.isMissing = false) s
      (unknown env inner) := by
  unfold unknown
  refine .current ?_
  generalize s.current env = token
  split
  · next c _ =>
    unfold unknownLetter
    refine .advance ?_
    split
    · exact .pure ⟨_, rfl, rfl⟩
    · exact .pure ⟨_, rfl, rfl⟩
    · next hskip => exact absurd hskip (hkeep _)
    · exact .recordAt (.pure ⟨_, rfl, rfl⟩)
  · next name _ =>
    unfold unknownCommand
    refine .advance ?_
    dsimp only
    split
    · exact .get (ensures_of_value fun found t => present_disposed hkeep token name found t)
    · exact present_disposed hkeep token name ([], token.stop) _
  · exact .bind (present_unexpected _ s) fun x _ hx => .pure ⟨x, rfl, hx⟩

/-- The state behind commands that only set space. -/
def State.pastSpacing (s : State) : State :=
  s.forward (s.rest.takeWhile State.isSpacing).length

/-- Nothing is answered only before a token that ends the expression or is an operator. -/
structure OperandBegun (env : Env) (s : State) (o : Option Operand) (t : State) : Prop
    extends Begun env s o t where
  stops_of_none : o = none → s.atTerminator env ∨ s.AtOperator env

theorem operandBegun_operandWithin (hd : env.dictionary = .standard) (hkeep : env.LeavesNothingOut)
    {fuel : Nat} (hfuel : s.rest.length ≤ fuel) :
    Ensures (OperandBegun env s.pastSpacing) s (operandWithin env inner fuel) := by
  cases fuel with
  | zero =>
    have hnil := List.length_eq_zero_iff.mp (Nat.le_zero.mp hfuel)
    have hpast : s.pastSpacing = s := State.forward_of_rest_nil hnil _
    refine .pure ⟨⟨fun _ => hpast.symm, nofun⟩, fun _ => .inl ?_⟩
    rw [hpast, State.atTerminator, State.current_of_rest_nil hnil]
    rfl
  | succ fuel =>
    refine .skipSpacing ?_
    change Ensures _ s.pastSpacing _
    generalize s.pastSpacing = u
    refine .atTerminator ?_
    split
    · next hstop => exact .pure ⟨.none, fun _ => .inl hstop⟩
    · refine .orElse (Q := Begun env u) ?_ (fun x t ht => ⟨ht, nofun⟩) fun t ht => ?_
      · refine .orElse (begun_builtin u) (fun _ _ ht => ht) fun t ht => ?_
        rw [ht.eq_of_none rfl]
        exact begun_notated hd u
      · rw [ht.eq_of_none rfl]
        refine .bind (Q := fun operator v => v = u ∧
          operator = ((u.current env).trigger?).any env.dictionary.hasOperator)
          (.current (.pure ⟨rfl, rfl⟩)) ?_
        rintro operator _ ⟨rfl, hoperator⟩
        split
        · next hat =>
          refine .pure ⟨.none, fun _ => .inr ?_⟩
          rw [State.AtOperator, Option.isSome_filter]
          exact hoperator.symm.trans hat
        · refine .orElse (present_unknown hkeep _) (fun x t hx => ?_) fun t hnone => ?_
          · obtain ⟨y, hy, hpresent⟩ := hx
            cases hy
            exact ⟨.present hpresent, nofun⟩
          · obtain ⟨y, hy, -⟩ := hnone
            cases hy

theorem operandBegun_operand (hd : env.dictionary = .standard) (hkeep : env.LeavesNothingOut)
    (s : State) : Ensures (OperandBegun env s.pastSpacing) s (operand env inner) :=
  .get (operandBegun_operandWithin hd hkeep (Nat.le_refl _))

/-! ### Operators and factors -/

/-- A standard operator always applies, and what it builds is there. -/
theorem present_applyOperator {n : Notation} (hn : n ∈ Dictionary.standardEntries)
    (hfollows : n.followsOperand) (lhs : Expression) (chained : Option String) (s : State) :
    Ensures (fun o _ => Present o ∧ o.isSome) s (applyOperator env inner n lhs chained) := by
  unfold applyOperator
  split
  · next hook hreader =>
    obtain ⟨trigger, -, hhook⟩ := Dictionary.hookedAsStandard_standardEntries n hn hook hreader
    rw [hfollows] at hhook
    exact ensures_run (hhook.gives_isSome (some lhs)) s
  · split
    · exact .pure ⟨.some rfl, rfl⟩
    · refine ensures_of_value fun rhs _ => ?_
      dsimp only
      split
      · exact .recordHere (.pure ⟨.some (isMissing_extend _ _ _ _), rfl⟩)
      · exact .pure ⟨.some (isMissing_extend _ _ _ _), rfl⟩
    · next hpostfix hvariadic =>
      unfold Notation.followsOperand at hfollows
      split at hfollows
      · next hkind => exact absurd hkind (hvariadic _)
      · next hkind => exact absurd hkind hpostfix
      · cases hfollows

/-- An operator and what has been built by it, which is there. -/
def Built (found : Option (Expression × Notation)) : Prop :=
  ∀ e n, found = some (e, n) → e.isMissing = false

/-- Among standard operators the first one applies, so the others are not tried. -/
theorem built_firstOperator {notations : List Notation}
    (h : ∀ n ∈ notations, n ∈ Dictionary.standardEntries ∧ n.followsOperand) (lhs : Expression)
    (chained : Option String) (s : State) :
    Ensures (fun found _ => Built found ∧ (notations ≠ [] → found.isSome)) s
      (firstOperator env inner lhs chained notations) := by
  cases notations with
  | nil => exact .pure ⟨fun _ _ heq => (by cases heq), fun hne => absurd rfl hne⟩
  | cons n rest =>
    obtain ⟨⟨hn, hfollows⟩, -⟩ := List.forall_mem_cons.mp h
    have happly : Ensures (fun found _ => Built found ∧ found.isSome) s (do
        advance
        return (← applyOperator env inner n lhs chained).map fun e => (e, n)) := by
      refine .advance (.bind (present_applyOperator hn hfollows lhs chained _) fun o t ho => .pure ?_)
      obtain ⟨hpresent, hsome⟩ := ho
      obtain ⟨e, rfl⟩ := Option.isSome_iff_exists.mp hsome
      refine ⟨fun e' n' heq => ?_, rfl⟩
      cases heq
      exact hpresent e rfl
    intro found t ht
    rcases runs_orElse.mp ht with ⟨-, hfound⟩ | ⟨u, hnone, -⟩
    · rcases runs_attempt.mp hfound with ⟨rfl, rfl, u, hu⟩ | ⟨-, hfound⟩
      · cases (happly none u hu).2
      · exact ⟨(happly found t hfound).1, fun _ => (happly found t hfound).2⟩
    · rcases runs_attempt.mp hnone with ⟨-, rfl, u, hu⟩ | ⟨hsome, -⟩
      · cases (happly none u hu).2
      · cases hsome

theorem mem_standardEntries_of_mem_candidates (hd : env.dictionary = .standard) (trigger : String)
    (loosest : Precedence) : ∀ n ∈ candidates env trigger loosest,
      n ∈ Dictionary.standardEntries ∧ n.followsOperand := by
  intro n hn
  have hoperator := (List.mem_filter.mp hn).1
  rw [hd] at hoperator
  obtain ⟨hread, hfollows⟩ := List.mem_filter.mp hoperator
  exact ⟨Dictionary.mem_entries_of_mem_readAt hread, hfollows⟩

/-- Where an operator is next, one of those that bind loosely enough applies: all of them do. -/
theorem candidates_loosest_ne_nil {trigger : String} (h : env.dictionary.hasOperator trigger) :
    candidates env trigger .loosest ≠ [] := by
  have hall : candidates env trigger .loosest = env.dictionary.operators trigger :=
    List.filter_eq_self.mpr fun n _ => decide_eq_true (Nat.zero_le n.precedence.rank)
  rw [hall]
  intro hnil
  rw [Dictionary.hasOperator, hnil] at h
  cases h

/-- What the loop builds is there, so it gives what is missing just if it gives its operand back. -/
theorem missing_of_chain (hd : env.dictionary = .standard) (loosest : Precedence) (fuel : Nat)
    (lhs : Operand) (chained : Option String) (s : State) :
    Ensures (fun e _ => e.isMissing → lhs.expression.isMissing) s
      (chain env inner loosest fuel lhs chained) := by
  induction fuel generalizing lhs chained s with
  | zero => exact .pure id
  | succ fuel ih =>
    -- once something has been built the result is not missing
    have hbuilt {e : Expression} {callable : Bool} (he : e.isMissing = false) (chained : Option String)
        (t : State) : Ensures (fun e _ => e.isMissing → lhs.expression.isMissing) t
          (chain env inner loosest fuel ⟨e, callable⟩ chained) := by
      refine (ih ⟨e, callable⟩ chained t).mono fun e' _ hmissing he' => ?_
      have hcontra := hmissing he'
      rw [he] at hcontra
      cases hcontra
    refine .skipSpacing (.atTerminator ?_)
    split
    · exact .pure id
    · refine .current ?_
      dsimp only
      split
      · exact ensures_of_value fun arguments t => hbuilt rfl none t
      · split
        · refine .bind (built_firstOperator (mem_standardEntries_of_mem_candidates hd _ _) _ _ _)
            fun found t hfound => ?_
          split
          · next e n => exact hbuilt (hfound.1 e n rfl) _ t
          · exact .pure id
        · split
          · exact .pure id
          · refine .get (ensures_of_value fun factor t => .get ?_)
            split
            · exact .pure id
            · exact hbuilt (isMissing_extend ..) _ t

end Parser

end TexFormula
