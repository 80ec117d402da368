import TexFormula.Parser
import TexFormula.Proofs.Idle

/-!
# Relations between parsers

A `Congruence` is a relation between programs that every way of putting programs together keeps. If
it relates the readers of the next level, it relates everything that the parser makes of them
(`Inners.expressionAt`, `Inners.parts`), so what is to be shown of the whole parser only needs to be
shown of its steps. The two sides may differ in the number of levels that they allow.

No step looks at the depth of a state or at what has been recorded. A hook may abort with those faults
only that the relation allows (`Notation.AbortsOnly`).
-/

namespace TexFormula

/-- Whatever the replies are, the program aborts with no fault but those that satisfy `p`. -/
inductive Reading.AbortsOnly {α : Type} (p : Fault → Prop) : Reading α → Prop where
  | done (value : α) : AbortsOnly p (.done value)
  | abort {fault : Fault} (h : p fault) : AbortsOnly p (.abort fault)
  | ask {request : Request} {next : request.Answer → Reading α}
      (h : ∀ reply, AbortsOnly p (next reply)) : AbortsOnly p (.ask request next)

/-- The hook of the notation, if it has one, aborts with no fault but those that satisfy `p`. -/
def Notation.AbortsOnly (p : Fault → Prop) (n : Notation) : Prop :=
  ∀ hook, n.reader = some hook → ∀ lhs, (hook lhs).AbortsOnly p

namespace Reading

variable {α : Type} {p : Fault → Prop}

theorem abortsOnly_of_forall (h : ∀ fault, p fault) (r : Reading α) : r.AbortsOnly p := by
  induction r with
  | done value => exact .done value
  | abort fault => exact .abort (h fault)
  | ask request next ih => exact .ask ih

theorem Steady.abortsOnly {r : Reading α} (h : r.Steady) : r.AbortsOnly p := by
  induction h with
  | done value => exact .done value
  | ask _ _ ih => exact .ask ih

theorem Declines.abortsOnly {r : Reading (Option α)} (h : r.Declines) : r.AbortsOnly p := by
  induction h with
  | done => exact .done none
  | ask _ ih => exact .ask ih

end Reading

section

variable {p : Fault → Prop} {n : Notation}

theorem Notation.Steady.abortsOnly (h : n.Steady) : n.AbortsOnly p :=
  fun hook hhook lhs => (h hook hhook lhs).abortsOnly

theorem Notation.Idle.abortsOnly (h : n.Idle) : n.AbortsOnly p := by
  intro hook hhook lhs
  obtain ⟨own, hown, hdeclines⟩ := h.declines
  obtain rfl : own = hook := Option.some.inj (hown.symm.trans hhook)
  exact (hdeclines lhs).abortsOnly

/-- Neither the notations that come first nor the others abort. -/
theorem Dictionary.IdleExtension.abortsOnly {d d' : Dictionary} (h : d.IdleExtension d') :
    ∀ trigger, ∀ n ∈ d'.readAt trigger, n.AbortsOnly p := by
  intro trigger n hn
  have hmem : n ∈ d'.operands trigger ∨ n ∈ d'.operators trigger := by
    simp only [Dictionary.operands, Dictionary.operators, List.mem_filter]
    cases n.followsOperand <;> simp [hn]
  rcases hmem with hmem | hmem
  · obtain ⟨idle, heq, hidle⟩ := h.operands trigger
    rw [heq] at hmem
    rcases List.mem_append.mp hmem with hmem | hmem
    · exact (hidle n hmem).abortsOnly
    · exact (h.steady_operands hmem).abortsOnly
  · obtain ⟨idle, heq, hidle⟩ := h.operators trigger
    rw [heq] at hmem
    rcases List.mem_append.mp hmem with hmem | hmem
    · exact (hidle n hmem).abortsOnly
    · exact (h.steady_operators hmem).abortsOnly

end

namespace Parser

/-- The same source, dictionary and options with another limit of nesting. -/
def Env.allowing (env : Env) (limit : Nat) : Env :=
  { env with options := { env.options with maxDepth := limit } }

theorem Env.dictionary_allowing (env : Env) (limit : Nat) :
    (env.allowing limit).dictionary = env.dictionary := rfl

/-- The state with another depth. -/
def State.atDepth (s : State) (depth : Nat) : State :=
  { s with depth }

/-- What is computed from a state depends neither on its depth nor on its diagnostics. -/
def Heedless {α : Type} (f : State → α) : Prop :=
  ∀ s depth diagnostics, f { s with depth, diagnostics } = f s

theorem Heedless.atDepth {α : Type} {f : State → α} (h : Heedless f) (s : State) (depth : Nat) :
    f (s.atDepth depth) = f s :=
  h s depth s.diagnostics

/-- A relation that steps have to themselves and that programs put together inherit. -/
structure Congruence where
  rel : {α : Type} → Parser α → Parser α → Prop
  /-- The faults that a hook may abort with. -/
  faults : Fault → Prop
  throw {α : Type} {fault : Fault} :
    faults fault → rel (MonadExcept.throw fault : Parser α) (MonadExcept.throw fault)
  pure {α : Type} (a : α) : rel (Pure.pure a) (Pure.pure a)
  bind {α β : Type} {m m' : Parser α} {f f' : α → Parser β} :
    rel m m' → (∀ a, rel (f a) (f' a)) → rel (m >>= f) (m' >>= f')
  get {α : Type} {f f' : State → Parser α} :
    Heedless f' → (∀ s, rel (f s) (f' s)) → rel (MonadState.get >>= f) (MonadState.get >>= f')
  forward {count : State → Nat} :
    Heedless count →
      rel (modify fun s => s.forward (count s)) (modify fun s => s.forward (count s))
  cutDigit : rel (modify (·.cutDigit)) (modify (·.cutDigit))
  record (cause : Problem.Cause) (text : String) (start stop : Nat) :
    rel (Parser.record cause text start stop) (Parser.record cause text start stop)
  awaiting {α : Type} {m m' : Parser α} (close : String) :
    rel m m' → rel (Parser.awaiting close m) (Parser.awaiting close m')
  attempt {α : Type} {m m' : Parser (Option α)} :
    rel m m' → rel (Parser.attempt m) (Parser.attempt m')

namespace Congruence

variable {α β : Type} {env : Env} {limit : Nat} {inner inner' : Inner} (c : Congruence)

/-! ### Steps -/

theorem current : c.rel (Parser.current env) (Parser.current env) :=
  c.get (fun _ _ _ => rfl) fun _ => c.pure _

theorem advance : c.rel Parser.advance Parser.advance :=
  c.forward fun _ _ _ => rfl

theorem skip (count : Nat) : c.rel (Parser.skip count) (Parser.skip count) :=
  c.forward fun _ _ _ => rfl

theorem skipSpacing : c.rel Parser.skipSpacing Parser.skipSpacing :=
  c.forward fun _ _ _ => rfl

theorem atTerminator : c.rel (Parser.atTerminator env) (Parser.atTerminator env) :=
  c.get (fun _ _ _ => rfl) fun _ => c.pure _

theorem recordAt (t : Token) (cause : Problem.Cause) (text : String) :
    c.rel (Parser.recordAt t cause text) (Parser.recordAt t cause text) :=
  c.record cause text t.start t.stop

theorem recordHere (cause : Problem.Cause) (text : String) :
    c.rel (Parser.recordHere env cause text) (Parser.recordHere env cause text) :=
  c.bind c.current fun t => c.recordAt t cause text

theorem orElse {m₁ m₁' m₂ m₂' : Parser (Option α)} (h₁ : c.rel m₁ m₁') (h₂ : c.rel m₂ m₂') :
    c.rel (Parser.orElse m₁ m₂) (Parser.orElse m₁' m₂') := by
  refine c.bind h₁ fun a => ?_
  cases a with
  | none => exact h₂
  | some a => exact c.pure _

theorem map {m m' : Parser α} (f : α → β) (h : c.rel m m') : c.rel (f <$> m) (f <$> m') :=
  c.bind h fun a => c.pure (f a)

theorem ite {b : Prop} [Decidable b] {m₁ m₁' m₂ m₂' : Parser α} (h₁ : c.rel m₁ m₁')
    (h₂ : c.rel m₂ m₂') : c.rel (if b then m₁ else m₂) (if b then m₁' else m₂') := by
  by_cases hb : b
  · rw [if_pos hb, if_pos hb]
    exact h₁
  · rw [if_neg hb, if_neg hb]
    exact h₂

/-! ### Numerals -/

theorem thinSpaceGroups (run : String) :
    c.rel (Parser.thinSpaceGroups env run) (Parser.thinSpaceGroups env run) :=
  c.get (fun _ _ _ => rfl) fun _ => c.bind (c.skip _) fun _ => c.pure _

theorem commaGroups (run : String) :
    c.rel (Parser.commaGroups env run) (Parser.commaGroups env run) := by
  unfold Parser.commaGroups
  refine c.get (fun _ _ _ => rfl) fun s => ?_
  dsimp only
  split
  · exact c.pure run
  · refine c.ite (c.bind (c.skip _) fun _ => c.pure _) (c.ite ?_ (c.pure _))
    exact c.bind (c.record ..) fun _ => c.pure _

theorem wholeDigits : c.rel (Parser.wholeDigits env) (Parser.wholeDigits env) := by
  unfold Parser.wholeDigits
  refine c.bind c.current fun t => ?_
  split
  · exact c.pure ""
  · refine c.bind c.advance fun _ => c.get (fun _ _ _ => rfl) fun s => ?_
    exact c.ite (c.commaGroups _) (c.thinSpaceGroups _)

theorem barredDigits : c.rel Parser.barredDigits Parser.barredDigits := by
  unfold Parser.barredDigits
  refine c.get (fun _ _ _ => rfl) fun s => ?_
  split
  · refine c.ite ?_ (c.pure "")
    split
    · exact c.bind (c.skip 4) fun _ => c.pure _
    · exact c.pure ""
  · exact c.pure ""

theorem fractionDigits (whole : String) :
    c.rel (Parser.fractionDigits env whole) (Parser.fractionDigits env whole) := by
  unfold Parser.fractionDigits
  refine c.get (fun _ _ _ => rfl) fun s => ?_
  dsimp only
  refine c.ite (c.pure _) (c.ite (c.bind c.advance fun _ => c.bind c.current fun t => ?_) ?_)
  · split
    · refine c.bind c.advance fun _ => c.bind (c.thinSpaceGroups _) fun _ => ?_
      exact c.bind c.barredDigits fun _ => c.pure _
    · exact c.bind (c.pure _) fun _ => c.bind c.barredDigits fun _ => c.pure _
  · exact c.ite (c.bind c.advance fun _ => c.pure _) (c.pure _)

theorem exponent : c.rel Parser.exponent Parser.exponent := by
  unfold Parser.exponent
  refine c.get (fun _ _ _ => rfl) fun s => ?_
  split
  · exact c.bind (c.skip _) fun _ => c.pure _
  · exact c.pure none

theorem number (negative : Bool) :
    c.rel (Parser.number env negative) (Parser.number env negative) := by
  unfold Parser.number
  refine c.bind c.current fun t => c.bind c.wholeDigits fun whole => ?_
  refine c.bind (c.fractionDigits whole) fun fraction => c.bind c.exponent fun power => ?_
  dsimp only
  split
  · exact c.pure _
  · refine c.get (fun _ _ _ => rfl) fun s => ?_
    exact c.bind (c.record ..) fun _ => c.pure _

theorem signedNumber (negative : Bool) :
    c.rel (Parser.signedNumber env negative) (Parser.signedNumber env negative) := by
  refine c.attempt (c.bind c.advance fun _ => c.bind (c.number negative) fun value => ?_)
  exact c.bind c.current fun t => c.ite (c.pure none) (c.pure _)

/-! ### Single tokens -/

theorem firstDigit (run : String) : c.rel (Parser.firstDigit run) (Parser.firstDigit run) := by
  unfold Parser.firstDigit
  split
  · exact c.pure _
  · exact c.bind c.advance fun _ => c.pure _
  · exact c.bind c.cutDigit fun _ => c.pure _

theorem unexpected (t : Token) : c.rel (Parser.unexpected env t) (Parser.unexpected env t) :=
  c.bind c.advance fun _ => c.bind (c.recordAt ..) fun _ => c.pure _

theorem unknownLetter (t : Token) (letter : Char) :
    c.rel (Parser.unknownLetter env t letter) (Parser.unknownLetter env t letter) := by
  unfold Parser.unknownLetter
  refine c.bind c.advance fun _ => ?_
  split
  · exact c.pure _
  · exact c.pure _
  · exact c.pure _
  · exact c.bind (c.recordAt ..) fun _ => c.pure _

theorem rawGroup : c.rel (Parser.rawGroup env) (Parser.rawGroup env) := by
  unfold Parser.rawGroup
  refine c.bind c.skipSpacing fun _ => c.get (fun _ _ _ => rfl) fun s => ?_
  split
  · exact c.pure _
  · refine c.ite (c.pure none) ?_
    split
    · refine c.bind (c.skip _) fun _ => ?_
      exact c.get (fun _ _ _ => rfl) fun _ => c.pure _
    · exact c.bind (c.skip _) fun _ => c.bind (c.recordHere ..) fun _ => c.pure _

/-! ### Groups and arguments -/

/-- The readers of the next level are related. -/
structure Inners (inner inner' : Inner) : Prop where
  expression (loosest : Precedence) : c.rel (inner.expression loosest) (inner'.expression loosest)
  operand : c.rel inner.operand inner'.operand

section

variable {c} (h : c.Inners inner inner')

include h

theorem Inners.groupBody (close : String) (closing : Token.Kind) :
    c.rel (Parser.groupBody env inner close closing)
      (Parser.groupBody (env.allowing limit) inner' close closing) := by
  refine c.bind (c.awaiting close (h.expression .loosest)) fun body => c.bind c.current fun t => ?_
  exact c.ite (c.bind c.advance fun _ => c.pure body) (c.bind (c.recordHere ..) fun _ => c.pure body)

theorem Inners.braceGroup :
    c.rel (Parser.braceGroup env inner) (Parser.braceGroup (env.allowing limit) inner') := by
  refine c.bind c.skipSpacing fun _ => c.bind c.current fun t => c.ite ?_ (c.pure none)
  exact c.bind c.advance fun _ => c.bind (h.groupBody _ _) fun _ => c.pure _

theorem Inners.bracketGroup :
    c.rel (Parser.bracketGroup env inner) (Parser.bracketGroup (env.allowing limit) inner') := by
  refine c.bind c.skipSpacing fun _ => c.bind c.current fun t => c.ite ?_ (c.pure none)
  exact c.bind c.advance fun _ => c.bind (h.groupBody _ _) fun _ => c.pure _

theorem Inners.argument (command : String) :
    c.rel (Parser.argument env inner command)
      (Parser.argument (env.allowing limit) inner' command) := by
  refine c.bind h.braceGroup fun group => ?_
  split
  · exact c.pure _
  · refine c.bind c.current fun t => ?_
    split
    · exact c.firstDigit _
    · refine c.bind h.operand fun operand => ?_
      split
      · exact c.pure _
      · exact c.bind (c.recordHere ..) fun _ => c.pure _

theorem Inners.answer (request : Request) :
    c.rel (Parser.answer env inner request)
      (Parser.answer (env.allowing limit) inner' request) := by
  cases request with
  | expression loosest => exact h.expression loosest
  | argument command => exact h.argument command
  | braceGroup => exact h.braceGroup
  | bracketGroup => exact h.bracketGroup
  | rawGroup => exact c.rawGroup
  | skipSpacing => exact c.skipSpacing
  | report problem => exact c.recordHere ..
  | glyph name => exact c.pure _

theorem Inners.run {r : Reading α} (hr : r.AbortsOnly c.faults) :
    c.rel (Parser.run env inner r) (Parser.run (env.allowing limit) inner' r) := by
  induction hr with
  | done value => exact c.pure value
  | abort hfault => exact c.throw hfault
  | ask _ ih => exact c.bind (h.answer _) ih

/-! ### Operands -/

theorem Inners.delimitedArguments :
    c.rel (Parser.delimitedArguments env inner)
      (Parser.delimitedArguments (env.allowing limit) inner') :=
  c.bind c.advance fun _ => c.bind (h.groupBody _ _) fun _ => c.pure _

theorem Inners.parenthesized :
    c.rel (Parser.parenthesized env inner) (Parser.parenthesized (env.allowing limit) inner') :=
  c.bind c.advance fun _ => c.bind (h.groupBody _ _) fun _ => c.pure _

theorem Inners.braced :
    c.rel (Parser.braced env inner) (Parser.braced (env.allowing limit) inner') :=
  c.bind c.advance fun _ => c.bind (h.groupBody _ _) fun _ => c.pure _

theorem Inners.leftRight :
    c.rel (Parser.leftRight env inner) (Parser.leftRight (env.allowing limit) inner') := by
  refine c.bind c.advance fun _ => c.bind c.current fun t => c.bind c.advance fun _ => ?_
  refine c.bind (c.awaiting _ (h.expression .loosest)) fun body => c.bind c.current fun u => ?_
  refine c.ite (c.bind (c.skip 2) fun _ => ?_) (c.bind (c.recordHere ..) fun _ => ?_)
  all_goals
    dsimp only [Env.allowing]
    split
    · exact c.pure _
    · exact c.ite (c.pure _) (c.pure _)

theorem Inners.builtin :
    c.rel (Parser.builtin env inner) (Parser.builtin (env.allowing limit) inner') := by
  have hnumber : c.rel (do return some { expression := ← Parser.number env false : Operand })
      (do return some { expression := ← Parser.number (env.allowing limit) false }) :=
    c.bind (c.number false) fun _ => c.pure _
  refine c.get (fun _ _ _ => rfl) fun s => ?_
  have hcurrent : s.current (env.allowing limit) = s.current env := rfl
  dsimp only
  rw [hcurrent]
  cases (s.current env).kind with
  | digits run => exact hnumber
  | punct mark =>
    refine c.ite (c.bind h.parenthesized fun _ => c.pure _) (c.ite hnumber ?_)
    exact c.ite (c.signedNumber _) (c.pure none)
  | groupOpen => exact c.bind h.braced fun _ => c.pure _
  | command name => exact c.ite (c.bind h.leftRight fun _ => c.pure _) (c.pure none)
  | loneBackslash => exact c.bind (c.unexpected _) fun _ => c.pure _
  | _ => exact c.pure none

theorem Inners.arguments (command : String) (count : Nat) :
    c.rel (Parser.arguments env inner command count)
      (Parser.arguments (env.allowing limit) inner' command count) := by
  induction count with
  | zero => exact c.pure _
  | succ count ih => exact c.bind (h.argument command) fun _ => c.bind ih fun _ => c.pure _

theorem Inners.functionArguments (command : String) :
    c.rel (Parser.functionArguments env inner command)
      (Parser.functionArguments (env.allowing limit) inner' command) := by
  refine c.bind c.skipSpacing fun _ => c.bind c.current fun t => c.ite h.delimitedArguments ?_
  refine c.bind (h.expression _) fun argument => c.ite ?_ (c.pure _)
  exact c.bind (c.recordHere ..) fun _ => c.pure _

theorem Inners.enclosed (close : String) :
    c.rel (Parser.enclosed env inner close) (Parser.enclosed (env.allowing limit) inner' close) := by
  refine c.bind (c.awaiting close (h.expression .loosest)) fun body => c.bind c.current fun t => ?_
  exact c.ite (c.bind c.advance fun _ => c.pure _) (c.bind (c.recordHere ..) fun _ => c.pure _)

theorem Inners.prefixed (n : Notation) :
    c.rel (Parser.prefixed env inner n) (Parser.prefixed (env.allowing limit) inner' n) := by
  refine c.bind (h.expression _) fun operand => c.ite ?_ (c.pure _)
  exact c.bind (c.recordHere ..) fun _ => c.pure _

theorem Inners.applyNotation {n : Notation} (hn : n.AbortsOnly c.faults) :
    c.rel (Parser.applyNotation env inner n) (Parser.applyNotation (env.allowing limit) inner' n) := by
  unfold Parser.applyNotation
  split
  · next hook hreader => exact c.bind (h.run (hn hook hreader none)) fun _ => c.pure _
  · split
    · exact c.pure _
    · exact c.bind (h.prefixed n) fun _ => c.pure _
    · exact c.bind (h.enclosed _) fun _ => c.pure _
    · exact c.bind (h.arguments _ _) fun _ => c.pure _
    · exact c.bind (h.functionArguments _) fun _ => c.pure _
    · exact c.pure _
    · exact c.pure _
    · exact c.pure _

theorem Inners.firstNotation {notations : List Notation} (hn : ∀ n ∈ notations, n.AbortsOnly c.faults) :
    c.rel (Parser.firstNotation env inner notations)
      (Parser.firstNotation (env.allowing limit) inner' notations) := by
  induction notations with
  | nil => exact c.pure none
  | cons n rest ih =>
    refine c.orElse (c.attempt (c.bind c.advance fun _ => ?_)) ?_
    · exact h.applyNotation (hn n List.mem_cons_self)
    · exact ih fun n hmem => hn n (List.mem_cons_of_mem _ hmem)

theorem Inners.unknownArguments (fuel stop : Nat) :
    c.rel (Parser.unknownArguments env inner fuel stop)
      (Parser.unknownArguments (env.allowing limit) inner' fuel stop) := by
  induction fuel generalizing stop with
  | zero => exact c.pure _
  | succ fuel ih =>
    refine c.bind c.current fun t => ?_
    split
    · exact c.pure _
    · refine c.bind c.advance fun _ => c.bind (c.awaiting _ (h.expression .loosest)) fun body => ?_
      refine c.bind c.current fun t => c.ite ?_ (c.bind (c.recordHere ..) fun _ => c.pure _)
      exact c.bind c.advance fun _ => c.bind (ih _) fun _ => c.pure _

theorem Inners.unknownCommand (t : Token) (name : String) :
    c.rel (Parser.unknownCommand env inner t name)
      (Parser.unknownCommand (env.allowing limit) inner' t name) := by
  -- the groups are read or not, and all else is the same
  refine c.bind c.advance fun _ => c.ite (c.get (fun _ _ _ => rfl) fun _ =>
    c.bind (h.unknownArguments _ _) ?_) (c.bind (c.pure _) ?_)
  all_goals
    intro found
    dsimp only [Env.allowing]
    split
    · exact c.pure _
    · exact c.bind (c.record ..) fun _ => c.pure _
    · exact c.bind (c.record ..) fun _ => c.ite (c.pure _) (c.pure _)

theorem Inners.unknown :
    c.rel (Parser.unknown env inner) (Parser.unknown (env.allowing limit) inner') := by
  refine c.bind c.current fun t => ?_
  split
  · exact c.unknownLetter _ _
  · exact h.unknownCommand _ _
  · exact c.bind (c.unexpected _) fun _ => c.pure _

variable (hd : ∀ trigger, ∀ n ∈ env.dictionary.readAt trigger, n.AbortsOnly c.faults)

include hd

theorem Inners.notated :
    c.rel (Parser.notated env inner) (Parser.notated (env.allowing limit) inner') := by
  refine c.bind c.current fun t => ?_
  split
  · exact h.firstNotation fun n hn => hd _ n (List.mem_filter.mp hn).1
  · exact c.pure none

theorem Inners.operandWithin (fuel : Nat) :
    c.rel (Parser.operandWithin env inner fuel)
      (Parser.operandWithin (env.allowing limit) inner' fuel) := by
  induction fuel with
  | zero => exact c.pure none
  | succ fuel ih =>
    refine c.bind c.skipSpacing fun _ => c.bind c.atTerminator fun _ => c.ite (c.pure none) ?_
    refine c.orElse (c.orElse h.builtin (h.notated hd)) ?_
    refine c.bind (c.bind c.current fun _ => c.pure _) fun _ => c.ite (c.pure none) ?_
    exact c.orElse h.unknown ih

theorem Inners.operandHere :
    c.rel (Parser.operand env inner) (Parser.operand (env.allowing limit) inner') :=
  c.get (fun _ _ _ => rfl) fun _ => h.operandWithin hd _

/-! ### Expressions -/

omit hd in
theorem Inners.applyOperator {n : Notation} (hn : n.AbortsOnly c.faults) (lhs : Expression)
    (chained : Option String) :
    c.rel (Parser.applyOperator env inner n lhs chained)
      (Parser.applyOperator (env.allowing limit) inner' n lhs chained) := by
  unfold Parser.applyOperator
  split
  · next hook hreader => exact h.run (hn hook hreader (some lhs))
  · split
    · exact c.pure _
    · refine c.bind (h.expression _) fun rhs => c.ite ?_ (c.pure _)
      exact c.bind (c.recordHere ..) fun _ => c.pure _
    · exact c.pure _

omit hd in
theorem Inners.firstOperator {notations : List Notation} (hn : ∀ n ∈ notations, n.AbortsOnly c.faults)
    (lhs : Expression) (chained : Option String) :
    c.rel (Parser.firstOperator env inner lhs chained notations)
      (Parser.firstOperator (env.allowing limit) inner' lhs chained notations) := by
  induction notations with
  | nil => exact c.pure none
  | cons n rest ih =>
    refine c.orElse (c.attempt (c.bind c.advance fun _ => ?_)) ?_
    · exact c.bind (h.applyOperator (hn n List.mem_cons_self) lhs chained) fun _ => c.pure _
    · exact ih fun n hmem => hn n (List.mem_cons_of_mem _ hmem)

theorem Inners.chain (loosest : Precedence) (fuel : Nat) (lhs : Operand) (chained : Option String) :
    c.rel (Parser.chain env inner loosest fuel lhs chained)
      (Parser.chain (env.allowing limit) inner' loosest fuel lhs chained) := by
  induction fuel generalizing lhs chained with
  | zero => exact c.pure _
  | succ fuel ih =>
    refine c.bind c.skipSpacing fun _ => c.bind c.atTerminator fun _ => c.ite (c.pure _) ?_
    refine c.bind c.current fun t => c.ite (c.bind h.delimitedArguments fun _ => ih _ _) ?_
    rw [Env.dictionary_allowing]
    split
    · refine c.bind (h.firstOperator (fun n hn => ?_) _ _) fun found => ?_
      · exact hd _ n (List.mem_filter.mp (List.mem_filter.mp hn).1).1
      · split
        · exact ih _ _
        · exact c.pure _
    · refine c.ite (c.pure _) (c.get (fun _ _ _ => rfl) fun _ => ?_)
      refine c.bind (h.expression _) fun factor => ?_
      exact c.get (fun _ _ _ => rfl) fun _ => c.ite (c.pure _) (ih ..)

theorem Inners.expressionAt (loosest : Precedence) :
    c.rel (Parser.expressionAt env inner loosest)
      (Parser.expressionAt (env.allowing limit) inner' loosest) := by
  refine c.bind (h.operandHere hd) fun lhs => ?_
  split
  · exact c.get (fun _ _ _ => rfl) fun _ => h.chain hd ..
  · refine c.bind c.current fun t => ?_
    rw [Env.dictionary_allowing]
    split
    · refine c.bind c.atTerminator fun _ => c.ite (c.pure _) (c.bind (c.recordAt ..) fun _ => ?_)
      exact c.get (fun _ _ _ => rfl) fun _ => h.chain hd ..
    · exact c.pure _

omit hd in
theorem Inners.parts (fuel : Nat) :
    c.rel (Parser.parts env inner fuel) (Parser.parts (env.allowing limit) inner' fuel) := by
  induction fuel with
  | zero => exact c.pure []
  | succ fuel ih =>
    refine c.bind (h.expression .loosest) fun e => ?_
    refine c.get (fun _ _ _ => rfl) fun _ => c.ite (c.pure _) ?_
    exact c.bind c.current fun t => c.bind (c.unexpected t) fun _ => c.bind ih fun _ => c.pure _

end

end Congruence

end Parser

end TexFormula
