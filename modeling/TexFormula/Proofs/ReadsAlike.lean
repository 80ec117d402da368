import TexFormula.Proofs.Lockstep.Expression

/-!
# Dictionaries that read alike

For reading only the first operator counts that binds tightly enough, unless it has a hook that can
decline. Two dictionaries whose operators differ behind such a notation read every source alike, with
the same faults (`parse_readsAlike`): each part of the parser is the same program with both.
-/

namespace TexFormula

/-- Both lists are the same, or start with the same notation, which never declines. -/
def SameFirst (operators operators' : List Notation) : Prop :=
  operators' = operators ∨
    ∃ e rest rest', e.reader = none ∧ operators = e :: rest ∧ operators' = e :: rest'

/-- The same operands are found with both dictionaries, the same triggers have operators, and of those
that bind tightly enough the first is the same. -/
structure Dictionary.ReadsAlike (d d' : Dictionary) : Prop where
  operands (trigger : String) : d'.operands trigger = d.operands trigger
  hasOperator (trigger : String) : d'.hasOperator trigger = d.hasOperator trigger
  operators (trigger : String) (loosest : Precedence) :
    SameFirst ((d.operators trigger).filter fun n => loosest ≤ n.precedence)
      ((d'.operators trigger).filter fun n => loosest ≤ n.precedence)
  steady {trigger : String} {n : Notation} : n ∈ d.readAt trigger → n.Steady

namespace Parser

variable {α : Type} {env : Env} {d : Dictionary} {inner : Inner}

/-! ### Groups and reading programs -/

theorem argument_on (command : String) :
    argument (env.on d) inner command = argument env inner command := rfl

theorem answer_on {request : Request} (hrequest : ∀ name, request ≠ .glyph name) :
    answer (env.on d) inner request = answer env inner request := by
  cases request with
  | glyph name => exact absurd rfl (hrequest name)
  | _ => rfl

theorem run_on {r : Reading α} (hr : r.Steady) : run (env.on d) inner r = run env inner r := by
  induction hr with
  | done value => rfl
  | ask hrequest _ ih =>
    rw [run, run, answer_on hrequest]
    exact congrArg _ (funext ih)

/-! ### Operands -/

theorem delimitedArguments_on :
    delimitedArguments (env.on d) inner = delimitedArguments env inner := rfl

theorem leftRight_on (hd : env.dictionary.ReadsAlike d) :
    leftRight (env.on d) inner = leftRight env inner := by
  have hoperands : (env.on d).dictionary.operands = env.dictionary.operands := funext hd.operands
  unfold leftRight
  rw [hoperands]
  rfl

theorem builtin_on (hd : env.dictionary.ReadsAlike d) :
    builtin (env.on d) inner = builtin env inner := by
  unfold builtin
  rw [leftRight_on hd]
  rfl

theorem arguments_on (command : String) (count : Nat) :
    arguments (env.on d) inner command count = arguments env inner command count := by
  induction count with
  | zero => rfl
  | succ count ih =>
    rw [arguments, arguments, argument_on, ih]

theorem functionArguments_on (command : String) :
    functionArguments (env.on d) inner command = functionArguments env inner command := rfl

theorem enclosed_on (close : String) :
    enclosed (env.on d) inner close = enclosed env inner close := rfl

theorem prefixed_on (n : Notation) : prefixed (env.on d) inner n = prefixed env inner n := rfl

theorem applyNotation_on {n : Notation} (hn : n.Steady) :
    applyNotation (env.on d) inner n = applyNotation env inner n := by
  unfold applyNotation
  split
  · next hook hreader =>
    rw [run_on (hn hook hreader none)]
    rfl
  · simp only [prefixed_on, enclosed_on, arguments_on, functionArguments_on]

theorem firstNotation_on {notations : List Notation} (h : ∀ n ∈ notations, n.Steady) :
    firstNotation (env.on d) inner notations = firstNotation env inner notations := by
  induction notations with
  | nil => rfl
  | cons n rest ih =>
    obtain ⟨hn, hrest⟩ := List.forall_mem_cons.mp h
    rw [firstNotation, firstNotation, applyNotation_on hn, ih hrest]

theorem notated_on (hd : env.dictionary.ReadsAlike d) :
    notated (env.on d) inner = notated env inner := by
  have hfirst (trigger : String) : firstNotation (env.on d) inner (d.operands trigger) =
      firstNotation env inner (env.dictionary.operands trigger) := by
    rw [hd.operands]
    exact firstNotation_on fun n hn => hd.steady (List.mem_filter.mp hn).1
  unfold notated
  simp only [Env.on] at hfirst ⊢
  simp only [hfirst]
  rfl

theorem unknownArguments_on (fuel stop : Nat) :
    unknownArguments (env.on d) inner fuel stop = unknownArguments env inner fuel stop := by
  induction fuel generalizing stop with
  | zero => rfl
  | succ fuel ih =>
    unfold unknownArguments
    simp only [ih]
    rfl

theorem unknownCommand_on (t : Token) (name : String) :
    unknownCommand (env.on d) inner t name = unknownCommand env inner t name := by
  unfold unknownCommand
  simp only [unknownArguments_on]
  rfl

theorem unknown_on : unknown (env.on d) inner = unknown env inner := by
  unfold unknown
  simp only [unknownCommand_on]
  rfl

theorem atOperator_on (hd : env.dictionary.ReadsAlike d) : atOperator (env.on d) = atOperator env := by
  have hoperator : (env.on d).dictionary.hasOperator = env.dictionary.hasOperator :=
    funext hd.hasOperator
  unfold atOperator
  rw [hoperator]
  rfl

theorem operandWithin_on (hd : env.dictionary.ReadsAlike d) (fuel : Nat) :
    operandWithin (env.on d) inner fuel = operandWithin env inner fuel := by
  induction fuel with
  | zero => rfl
  | succ fuel ih =>
    rw [operandWithin, operandWithin, builtin_on hd, notated_on hd, unknown_on, atOperator_on hd, ih]
    rfl

theorem operand_on (hd : env.dictionary.ReadsAlike d) :
    operand (env.on d) inner = operand env inner := by
  unfold operand
  simp only [operandWithin_on hd]

/-! ### Operators -/

theorem applyOperator_on {n : Notation} (hn : n.Steady) (lhs : Expression) (chain : Option String) :
    applyOperator (env.on d) inner n lhs chain = applyOperator env inner n lhs chain := by
  unfold applyOperator
  split
  · next hook hreader => rw [run_on (hn hook hreader (some lhs))]
  · rfl

theorem firstOperator_on {notations : List Notation} (h : ∀ n ∈ notations, n.Steady)
    (lhs : Expression) (chain : Option String) :
    firstOperator (env.on d) inner lhs chain notations =
      firstOperator env inner lhs chain notations := by
  induction notations with
  | nil => rfl
  | cons n rest ih =>
    obtain ⟨hn, hrest⟩ := List.forall_mem_cons.mp h
    rw [firstOperator, firstOperator, applyOperator_on hn, ih hrest]

/-- What always answers something is never taken back. -/
theorem attempt_map_some (m : Parser α) : attempt (some <$> m) = some <$> m := by
  funext s
  have hmap : (some <$> m) s = EStateM.map some m s := rfl
  rw [attempt, hmap, EStateM.map]
  cases m s with
  | ok a t => rfl
  | error fault t => rfl

theorem orElse_map_some (m : Parser α) (second : Parser (Option α)) :
    orElse (some <$> m) second = some <$> m := by
  rw [orElse, bind_map_left, map_eq_pure_bind]

/-- A notation without a hook always applies where it follows an operand. -/
theorem exists_applyOperator_eq {n : Notation} (h : n.reader = none) (lhs : Expression)
    (chain : Option String) : ∃ m, applyOperator env inner n lhs chain = some <$> m := by
  unfold applyOperator
  rw [h]
  dsimp only
  split
  · exact ⟨pure _, (map_pure _ _).symm⟩
  · next variadic _ =>
    -- the program of infix notations without the `some` around its answer
    refine ⟨do
      let rhs ← inner.expression (rightPrecedence n)
      if rhs.isMissing then
        recordHere env .expectedOperand (String.ofList (Text.trim n.glyph.toList))
      return extend n.name (variadic && chain == some n.name) lhs rhs, ?_⟩
    rw [map_bind]
    refine bind_congr fun rhs => ?_
    dsimp only
    split
    · rw [map_bind]
      rfl
    · rfl
  · exact ⟨pure _, (map_pure _ _).symm⟩

/-- Operators behind one without a hook are not tried. -/
theorem firstOperator_cons {n : Notation} (h : n.reader = none) (lhs : Expression)
    (chain : Option String) (rest rest' : List Notation) :
    firstOperator env inner lhs chain (n :: rest) = firstOperator env inner lhs chain (n :: rest') := by
  obtain ⟨m, hm⟩ : ∃ m, applyOperator env inner n lhs chain = some <$> m :=
    exists_applyOperator_eq h lhs chain
  have happly : (do
      advance
      return (← applyOperator env inner n lhs chain).map fun e => (e, n)) =
      some <$> (do advance; return (← m, n)) := by
    rw [hm]
    simp only [bind_map_left, map_bind, map_pure, Option.map_some]
  rw [firstOperator, firstOperator, happly, attempt_map_some, orElse_map_some, orElse_map_some]

theorem candidates_on (hd : env.dictionary.ReadsAlike d) (lhs : Expression) (chain : Option String)
    (trigger : String) (loosest : Precedence) :
    firstOperator (env.on d) inner lhs chain (candidates (env.on d) trigger loosest) =
      firstOperator env inner lhs chain (candidates env trigger loosest) := by
  have hsteady : ∀ n ∈ candidates env trigger loosest, n.Steady := fun n hn =>
    hd.steady (List.mem_filter.mp (List.mem_filter.mp hn).1).1
  obtain hsame | ⟨e, rest, rest', hreader, hfirst, hfirst'⟩ := hd.operators trigger loosest
  · have hcandidates : candidates (env.on d) trigger loosest = candidates env trigger loosest := hsame
    rw [hcandidates, firstOperator_on hsteady]
  · have hcandidates : candidates env trigger loosest = e :: rest := hfirst
    have hcandidates' : candidates (env.on d) trigger loosest = e :: rest' := hfirst'
    rw [hcandidates] at hsteady ⊢
    rw [hcandidates', firstOperator_cons hreader lhs chain rest' rest, firstOperator_on hsteady]

/-! ### Expressions -/

theorem chain_on (hd : env.dictionary.ReadsAlike d) (loosest : Precedence) (fuel : Nat)
    (lhs : Operand) (chained : Option String) :
    chain (env.on d) inner loosest fuel lhs chained = chain env inner loosest fuel lhs chained := by
  have hoperator : (env.on d).dictionary.hasOperator = env.dictionary.hasOperator :=
    funext hd.hasOperator
  induction fuel generalizing lhs chained with
  | zero => rfl
  | succ fuel ih =>
    unfold chain
    rw [hoperator]
    simp only [ih, candidates_on hd, delimitedArguments_on]
    rfl

theorem expressionAt_on (hd : env.dictionary.ReadsAlike d) (loosest : Precedence) :
    expressionAt (env.on d) inner loosest = expressionAt env inner loosest := by
  have hoperator : (env.on d).dictionary.hasOperator = env.dictionary.hasOperator :=
    funext hd.hasOperator
  unfold expressionAt
  rw [hoperator, operand_on hd]
  simp only [chain_on hd]
  rfl

theorem nested_on (hd : env.dictionary.ReadsAlike d) (levels : Nat) :
    nested (env.on d) levels = nested env levels := by
  induction levels with
  | zero => rfl
  | succ levels ih =>
    unfold nested
    simp only [ih, expressionAt_on hd, operand_on hd]

/-! ### The whole source -/

theorem parts_on (readers : Inner) (fuel : Nat) :
    parts (env.on d) readers fuel = parts env readers fuel := by
  induction fuel with
  | zero => rfl
  | succ fuel ih =>
    unfold parts
    simp only [ih]
    rfl

end Parser

/-- Dictionaries that read alike give the same tree, diagnostics or fault for every source. -/
theorem parse_readsAlike {d d' : Dictionary} (hd : d.ReadsAlike d') (options : ParseOptions)
    (source : String) : parse d' options source = parse d options source := by
  have hnested : Parser.nested ⟨source, d', options⟩ options.maxDepth =
      Parser.nested ⟨source, d, options⟩ options.maxDepth :=
    @Parser.nested_on ⟨source, d, options⟩ d' hd options.maxDepth
  have hparts : Parser.parts ⟨source, d', options⟩ = Parser.parts ⟨source, d, options⟩ :=
    funext fun readers => funext fun fuel => @Parser.parts_on ⟨source, d, options⟩ d' readers fuel
  have hroot : Parser.rootNested ⟨source, d', options⟩ = Parser.rootNested ⟨source, d, options⟩ := by
    unfold Parser.rootNested
    rw [hparts]
    dsimp only
    rw [hnested]
  rw [Parser.parse_eq_rootNested, Parser.parse_eq_rootNested, hroot]

end TexFormula
