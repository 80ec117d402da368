import TexFormula.Proofs.ExpressionEnds
import TexFormula.Proofs.ParsedTrees

/-!
# Trees of operands

Every operand that is read with the standard notations is a tree that can be read
(`Parser.Tree`).
-/

namespace TexFormula.Parser

variable {env : Env} {inner : Inner} {found : List Diagnostic} {s t : State}

/-- What is read as an operand, if anything is, is a tree. -/
def OperandTree (env : Env) (found : List Diagnostic) (o : Option Operand) : Prop :=
  ∀ x ∈ o, Tree env found x.expression

theorem OperandTree.none : OperandTree env found none :=
  forall_mem_none

theorem OperandTree.some {x : Operand} (h : Tree env found x.expression) :
    OperandTree env found (some x) :=
  forall_mem_some h

theorem sequence_mem_names : "Sequence" ∈ names := by
  decide +kernel

/-- The notations at a trigger have names of their own. -/
theorem mem_names_of_mem_operands {trigger : String} {n : Notation}
    (h : n ∈ Dictionary.standard.operands trigger) : n.name ∈ names := by
  obtain ⟨hn, htrigger⟩ := Dictionary.entry_of_mem_operands h
  exact mem_names hn htrigger

/-! ### Built-in shapes -/

theorem yields_unexpected (token : Token) (s : State) :
    Yields env found (fun x _ => Tree env found x.expression) s (unexpected env token) :=
  .advance (.recordAt fun _ => .pure fun h => .error (.unexpectedToken h))

theorem yields_signedNumber (negative : Bool) (s : State) :
    Yields env found (fun o _ => OperandTree env found o) s (signedNumber env negative) := by
  refine .attempt (.advance (.bind (yields_number negative _) fun value t => ?_)) .none
  refine .current fun _ => ?_
  exact .ite (fun _ => .pure fun _ => .none) fun _ => .pure fun h => .some h

section

variable (hi : inner.Trees env found)

include hi

theorem yields_delimitedArguments (s : State) :
    Yields env found (fun es _ => ∀ e ∈ es, Tree env found e) s (delimitedArguments env inner) :=
  .advance (.bind (yields_groupBody hi _ _ _) fun _ _ => .pure Tree.sequenceItems)

theorem yields_parenthesized (s : State) :
    Yields env found (fun x _ => Tree env found x.expression) s (parenthesized env inner) := by
  refine .advance (.bind (yields_groupBody hi _ _ _) fun body _ => .pure fun hbody => ?_)
  dsimp only
  split
  · exact .function sequence_mem_names (List.forall_mem_nil _)
  · exact hbody

theorem yields_braced (s : State) :
    Yields env found (fun x _ => Tree env found x.expression) s (braced env inner) :=
  .advance (.bind (yields_groupBody hi _ _ _) fun _ _ => .pure id)

theorem yields_leftRight (hd : env.dictionary = .standard) (s : State) :
    Yields env found (fun x _ => Tree env found x.expression) s (leftRight env inner) := by
  unfold leftRight
  rw [hd]
  refine .advance (.current fun _ => .advance (.bind (yields_body hi _ _) fun body t => ?_))
  -- the delimiter that closes may be there or not
  refine .current fun _ => .ite (fun _ => .skip ?_) fun _ => .recordHere fun _ => ?_
  all_goals
    split
    · next n hn =>
      obtain ⟨opening, -, hfind⟩ := Option.bind_eq_some_iff.mp hn
      have hname := mem_names_of_mem_operands (List.mem_of_find?_eq_some hfind)
      exact .pure fun hbody => .function hname hbody.sequenceItems
    · refine .ite (fun _ => .pure fun _ => ?_) fun _ => .pure id
      exact .function sequence_mem_names (List.forall_mem_nil _)

theorem yields_builtin (hd : env.dictionary = .standard) (s : State) :
    Yields env found (fun o _ => OperandTree env found o) s (builtin env inner) := by
  have hnumber : Yields env found (fun o _ => OperandTree env found o) s
      (do return some { expression := ← number env false }) :=
    .bind (yields_number false s) fun _ _ => .pure fun h => .some h
  unfold builtin
  refine .get fun _ => ?_
  dsimp only
  cases (s.current env).kind with
  | digits run => exact hnumber
  | punct c =>
    refine .ite (fun _ => .bind (yields_parenthesized hi s) fun _ _ => .pure .some) fun _ => ?_
    refine .ite (fun _ => hnumber) fun _ => ?_
    exact .ite (fun _ => yields_signedNumber _ s) fun _ => .pure .none
  | groupOpen => exact .bind (yields_braced hi s) fun _ _ => .pure .some
  | command name =>
    refine .ite (fun _ => ?_) fun _ => .pure .none
    exact .bind (yields_leftRight hi hd s) fun _ _ => .pure .some
  | loneBackslash => exact .bind (yields_unexpected _ s) fun _ _ => .pure .some
  | _ => exact .pure .none

/-! ### Notations -/

theorem yields_arguments (command : String) (count : Nat) (s : State) :
    Yields env found (fun es _ => ∀ e ∈ es, Tree env found e) s (arguments env inner command count) := by
  induction count generalizing s with
  | zero => exact .pure (List.forall_mem_nil _)
  | succ count ih =>
    refine .bind (yields_argument hi command s) fun first t => ?_
    refine .bind (ih t) fun others u => .pure fun hothers hfirst => ?_
    exact List.forall_mem_cons.mpr ⟨hfirst, hothers⟩

theorem yields_functionArguments (command : String) (s : State) :
    Yields env found (fun es _ => ∀ e ∈ es, Tree env found e) s
      (functionArguments env inner command) := by
  refine .skipSpacing (.current fun _ => .ite (fun _ => yields_delimitedArguments hi _) fun _ => ?_)
  refine .bind (hi.expression _ _) fun argument t => ?_
  dsimp only
  exact .ite (fun _ => .recordHere fun _ => .pure List.forall_mem_singleton.mpr)
    fun _ => .pure List.forall_mem_singleton.mpr

theorem yields_enclosed (close : String) (s : State) :
    Yields env found (fun es _ => ∀ e ∈ es, Tree env found e) s (enclosed env inner close) := by
  refine .bind (yields_body hi close s) fun body t => .current fun _ => ?_
  dsimp only
  exact .ite (fun _ => .advance (.pure Tree.sequenceItems))
    fun _ => .recordHere fun _ => .pure Tree.sequenceItems

theorem yields_prefixed (n : Notation) (s : State) :
    Yields env found (fun e _ => Tree env found e) s (prefixed env inner n) := by
  refine .bind (hi.expression _ s) fun operand t => ?_
  dsimp only
  exact .ite (fun _ => .recordHere fun _ => .pure id) fun _ => .pure id

theorem yields_applyNotation {n : Notation} {trigger : String} (hn : n ∈ Dictionary.standardEntries)
    (htrigger : n.trigger = some trigger) (hs : Behind env trigger s) :
    Yields env found (fun o _ => OperandTree env found o) s (applyNotation env inner n) := by
  have hname := mem_names hn htrigger
  have hfunction {es : List Expression} (h : ∀ e ∈ es, Tree env found e) :
      OperandTree env found (some { expression := .function n.name es }) :=
    .some (.function hname h)
  unfold applyNotation
  split
  · next hook hreader =>
    have hhook := Dictionary.standard_of_reader_eq hn htrigger hreader
    refine .bind (hookTrees_standard hi hhook none s hs) fun o t => .pure fun ho => ?_
    cases o with
    | none => exact .none
    | some e => exact .some (ho forall_mem_none e rfl)
  · split
    · exact .pure (.some (.named hname))
    · refine .bind (yields_prefixed hi n s) fun operand _ => .pure fun hoperand => ?_
      exact hfunction (List.forall_mem_singleton.mpr hoperand)
    · exact .bind (yields_enclosed hi _ s) fun _ _ => .pure hfunction
    · exact .bind (yields_arguments hi _ _ s) fun _ _ => .pure hfunction
    · exact .bind (yields_functionArguments hi _ s) fun _ _ => .pure hfunction
    · exact .pure .none
    · exact .pure .none
    · exact .pure .none

theorem yields_firstNotation {trigger : String} {notations : List Notation}
    (h : ∀ n ∈ notations, n ∈ Dictionary.standardEntries ∧ n.trigger = some trigger)
    (htrigger : (s.current env).trigger? = some trigger) :
    Yields env found (fun o _ => OperandTree env found o) s (firstNotation env inner notations) := by
  induction notations with
  | nil => exact .pure .none
  | cons n rest ih =>
    obtain ⟨⟨hn, hat⟩, hrest⟩ := List.forall_mem_cons.mp h
    refine .attempt_orElse (fun hs => ?_) (ih hrest)
    exact Yields.advance (yields_applyNotation hi hn hat (hs.behind htrigger)) hs

theorem yields_notated (hd : env.dictionary = .standard) (s : State) :
    Yields env found (fun o _ => OperandTree env found o) s (notated env inner) := by
  unfold notated
  refine .current fun _ => ?_
  split
  · next trigger htrigger =>
    rw [hd]
    exact yields_firstNotation hi (fun n => Dictionary.entry_of_mem_operands) htrigger
  · exact .pure .none

end

/-! ### Unknown letters and commands -/

theorem yields_unknownLetter (token : Token) (c : Char) (s : State) :
    Yields env found (fun o _ => OperandTree env found o) s (unknownLetter env token c) := by
  unfold unknownLetter
  refine .advance ?_
  split
  · exact .pure (.some (.letter c))
  · exact .pure (.some (.letter c))
  · exact .pure .none
  · next hpolicy => exact .recordAt fun _ => .pure fun h => .some (.error (.unknownSymbol hpolicy h))

section

variable (hi : inner.Trees env found)

include hi

theorem yields_unknownArguments (fuel stop : Nat) (s : State) :
    Yields env found (fun read _ => ∀ e ∈ read.1, Tree env found e) s
      (unknownArguments env inner fuel stop) := by
  induction fuel generalizing s stop with
  | zero => exact .pure (List.forall_mem_nil _)
  | succ fuel ih =>
    refine .current fun _ => ?_
    split
    · exact .pure (List.forall_mem_nil _)
    · refine .advance (.bind (yields_body hi _ _) fun body t => .current fun _ => ?_)
      refine .ite (fun _ => ?_) fun _ => ?_
      · refine .advance (.bind (ih _ _) fun read u => .pure fun hread hbody => ?_)
        exact List.forall_mem_cons.mpr ⟨hbody, hread⟩
      · exact .recordHere fun _ => .pure List.forall_mem_singleton.mpr

theorem yields_unknownCommand (token : Token) (name : String) (s : State) :
    Yields env found (fun o _ =>
      (∀ literal, o = some (unknownError literal) → ReadsUnknown env literal) →
        OperandTree env found o) s (unknownCommand env inner token name) := by
  -- the groups are read or not, and all else is the same
  refine .advance (.ite (fun _ => .get fun _ => .bind (yields_unknownArguments hi _ _ _) ?_) fun _ =>
    .bind (P := fun read _ => ∀ e ∈ read.1, Tree env found e) (.pure (List.forall_mem_nil _)) ?_)
  all_goals
    intro read t
    split
    · exact .pure fun _ _ => .none
    · exact .record fun _ => .pure fun h _ hreads => .some (.error (.unknownCommand (hreads _ rfl) h))
    · refine .record fun _ => .ite (fun _ => .pure fun _ _ _ => .some (.command name)) fun _ => ?_
      exact .pure fun _ h _ => .some (.apply (.command name) h)

end

/-! ### One operand -/

theorem runs_unless_operator {m : Parser (Option Operand)} {o : Option Operand} :
    Runs (do if ← atOperator env then return none else m) s o t ↔
      ((s.current env).trigger?.any env.dictionary.hasOperator = true ∧ o = none ∧ t = s) ∨
      ((s.current env).trigger?.any env.dictionary.hasOperator = false ∧ Runs m s o t) := by
  rw [atOperator, bind_assoc, runs_current]
  simp only [pure_bind]
  cases (s.current env).trigger?.any env.dictionary.hasOperator with
  | true => simp [runs_pure]
  | false => simp

/-- How an operand is read: the reader of unknown tokens is asked where nothing else is left. -/
theorem runs_operandWithin_iff (hd : env.dictionary = .standard) {fuel : Nat} {o : Option Operand} :
    Runs (operandWithin env inner (fuel + 1)) s o t ↔
      (s.pastSpacing.atTerminator env = true ∧ o = none ∧ t = s.pastSpacing) ∨
      (s.pastSpacing.atTerminator env = false ∧ o.isSome ∧
        Runs (orElse (builtin env inner) (notated env inner)) s.pastSpacing o t) ∨
      (s.pastSpacing.atTerminator env = false ∧
        (s.pastSpacing.current env).trigger?.any env.dictionary.hasOperator = true ∧
        Runs (orElse (builtin env inner) (notated env inner)) s.pastSpacing none s.pastSpacing ∧
        o = none ∧ t = s.pastSpacing) ∨
      (AtUnknown env inner s.pastSpacing ∧
        Runs (orElse (unknown env inner) (operandWithin env inner fuel)) s.pastSpacing o t) := by
  rw [operandWithin, runs_skipSpacing]
  show Runs _ s.pastSpacing o t ↔ _
  rw [runs_atTerminator]
  have hspaced := @isSpacing_current_pastSpacing env s
  generalize s.pastSpacing = u at hspaced ⊢
  cases hgoes : u.atTerminator env with
  | true =>
    rw [if_pos rfl, runs_pure]
    constructor
    · rintro ⟨rfl, rfl⟩
      exact .inl ⟨rfl, rfl, rfl⟩
    · rintro (⟨-, rfl, rfl⟩ | ⟨hfalse, -⟩ | ⟨hfalse, -⟩ | ⟨hat, -⟩)
      · exact ⟨rfl, rfl⟩
      · cases hfalse
      · cases hfalse
      · rw [hat.goes] at hgoes
        cases hgoes
  | false =>
    have hnone {v : State} (h : Runs (orElse (builtin env inner) (notated env inner)) u none v) :
        u = v := ((begun_known hd u none v h).eq_of_none rfl).symm
    rw [if_neg Bool.false_ne_true, runs_orElse]
    constructor
    · rintro (⟨hsome, hfound⟩ | ⟨v, hknown, hruns⟩)
      · exact .inr (.inl ⟨rfl, hsome, hfound⟩)
      · obtain rfl := hnone hknown
        rcases runs_unless_operator.mp hruns with ⟨hoperator, rfl, rfl⟩ | ⟨hoperator, hunknown⟩
        · exact .inr (.inr (.inl ⟨rfl, hoperator, hknown, rfl, rfl⟩))
        · exact .inr (.inr (.inr ⟨⟨hspaced, hgoes, ⟨_, hknown⟩, hoperator⟩, hunknown⟩))
    · rintro (⟨hfalse, -⟩ | ⟨-, hsome, hfound⟩ | ⟨-, hoperator, hknown, rfl, rfl⟩ | ⟨hat, hunknown⟩)
      · cases hfalse
      · exact .inl ⟨hsome, hfound⟩
      · exact .inr ⟨_, hknown, runs_unless_operator.mpr (.inl ⟨hoperator, rfl, rfl⟩)⟩
      · obtain ⟨v, hknown⟩ := hat.known
        obtain rfl := hnone hknown
        exact .inr ⟨_, hknown, runs_unless_operator.mpr (.inr ⟨hat.operator, hunknown⟩)⟩

section

variable {levels : Nat} (hlevels : levels < env.options.maxDepth)

include hlevels

/-- Where the levels are counted in the state, a command is as unknown as where they are not. -/
theorem AtUnknown.atCommand {name : String} (h : AtUnknown env (nested env levels) s)
    (hs : s.OfSource env) (hkind : (s.current env).kind = .command name) :
    AtCommand env levels name (s.atDepth (env.options.maxDepth - levels)) where
  source := hs
  depth := Nat.sub_add_cancel hlevels.le
  below := hlevels
  unknown := by
    obtain ⟨t, hknown⟩ := h.known
    have hreaders : ∀ trigger, ∀ n ∈ env.dictionary.readAt trigger, n.AbortsOnly fun _ => True :=
      fun _ _ _ hook _ lhs => (hook lhs).abortsOnly_of_forall fun _ => trivial
    have hsame : SameAtDepths env.options.maxDepth levels
        (orElse (builtin env (within env levels)) (notated env (within env levels)))
        (orElse (builtin env (nested env levels)) (notated env (nested env levels))) :=
      (sameAtDepths env.options.maxDepth levels).orElse (inners_within env levels).builtin
        ((inners_within env levels).notated hreaders)
    exact ⟨h.spaced, h.goes, ⟨_, hsame.runs_atDepth hlevels.le hknown⟩, h.operator⟩
  command := hkind

variable (hi : (nested env levels).Trees env found)

include hi

theorem yields_unknown (hat : AtUnknown env (nested env levels) s) :
    Yields env found (fun o _ => OperandTree env found o) s (unknown env (nested env levels)) := by
  unfold unknown
  refine .current fun _ => ?_
  split
  · exact yields_unknownLetter _ _ s
  · next name hkind =>
    intro hs o t h
    obtain ⟨hsource, hadded, htree⟩ := yields_unknownCommand hi _ _ s hs o t h
    refine ⟨hsource, hadded, fun hfound => htree hfound fun literal ho => ?_⟩
    have hsame : SameAtDepths env.options.maxDepth levels
        (unknownCommand env (within env levels) (s.current env) name)
        (unknownCommand env (nested env levels) (s.current env) name) :=
      (inners_within env levels).unknownCommand (s.current env) name
    subst ho
    exact ⟨levels, name, _, _, hat.atCommand hlevels hs hkind, hsame.runs_atDepth hlevels.le h⟩
  · exact .bind (yields_unexpected _ s) fun _ _ => .pure .some

theorem yields_operandWithin (hd : env.dictionary = .standard) (fuel : Nat) (s : State) :
    Yields env found (fun o _ => OperandTree env found o) s
      (operandWithin env (nested env levels) fuel) := by
  induction fuel generalizing s with
  | zero => exact .pure .none
  | succ fuel ih =>
    intro hs o t h
    have hbehind {m : Parser (Option Operand)} (hruns : Runs m s.pastSpacing o t)
        (hm : Yields env found (fun o _ => OperandTree env found o) s.pastSpacing m) :=
      Yields.forward (f := fun _ => m) hm hs o t hruns
    rcases (runs_operandWithin_iff hd).mp h with
      ⟨-, rfl, rfl⟩ | ⟨-, -, hfound⟩ | ⟨-, -, -, rfl, rfl⟩ | ⟨hat, hruns⟩
    · exact hbehind (.pure none _) (.pure .none)
    · exact hbehind hfound (.either (yields_builtin hi hd _) (yields_notated hi hd))
    · exact hbehind (.pure none _) (.pure .none)
    · exact hbehind hruns (.either (yields_unknown hlevels hi hat) ih)

theorem yields_operand (hd : env.dictionary = .standard) (s : State) :
    Yields env found (fun o _ => OperandTree env found o) s (operand env (nested env levels)) :=
  .get fun _ => yields_operandWithin hlevels hi hd _ s

end

end TexFormula.Parser
