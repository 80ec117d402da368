import TexFormula.Proofs.Checkpoint
import TexFormula.Proofs.NestingLimit

/-!
# Sequences of operations

A hook, or whoever holds a parser, asks for one operation after the other, and some of them may fail
at the limit of nesting. Whatever comes out, the state that an operation leaves follows the state it
found (`Keeps`), since every step of the parser does.
-/

namespace TexFormula.Parser

variable {α β : Type} {env : Env} {limit levels : Nat}

/-- Whether the program succeeds or meets the limit, which alone can end it, the state it leaves
follows the state it found. -/
def Keeps (limit : Nat) (m : Parser α) : Prop :=
  ∀ s, (∃ a t, m s = .ok a t ∧ Follows s t) ∨
    ∃ t, m s = .error (.depthExceeded limit) t ∧ Follows s t

/-- Reads what may turn out not to apply; in that case it comes back to a checkpoint. -/
def restoring (m : Parser (Option α)) : Parser (Option α) := fun s =>
  match m s with
  | .ok none t => .ok none (t.restore s.checkpoint)
  | outcome => outcome

namespace Keeps

variable {m : Parser α}

theorem bind {f : α → Parser β} (h : Keeps limit m) (hf : ∀ a, Keeps limit (f a)) :
    Keeps limit (m >>= f) := by
  intro s
  obtain ⟨a, t, hm, ht⟩ | ⟨t, hm, ht⟩ := h s
  · rw [bind_eq_of_ok hm]
    obtain ⟨b, u, hb, hu⟩ | ⟨u, hb, hu⟩ := hf a t
    · exact .inl ⟨b, u, hb, ht.trans hu⟩
    · exact .inr ⟨u, hb, ht.trans hu⟩
  · exact .inr ⟨t, bind_eq_of_error hm, ht⟩

theorem awaiting (close : String) (h : Keeps limit m) : Keeps limit (Parser.awaiting close m) := by
  intro s
  unfold Parser.awaiting
  obtain ⟨a, t, hm, ht⟩ | ⟨t, hm, ht⟩ := h { s with closers := close :: s.closers }
  · rw [hm]
    exact .inl ⟨a, _, rfl, ht.awaiting⟩
  · rw [hm]
    exact .inr ⟨_, rfl, ht.awaiting⟩

theorem descend (h : Keeps env.options.maxDepth m) :
    Keeps env.options.maxDepth (Parser.descend env m) := by
  intro s
  unfold Parser.descend
  split
  · exact .inr ⟨s, rfl, .refl s⟩
  · obtain ⟨a, t, hm, ht⟩ | ⟨t, hm, ht⟩ := h { s with depth := s.depth + 1 }
    · rw [hm]
      exact .inl ⟨a, _, rfl, ht.descend⟩
    · rw [hm]
      exact .inr ⟨_, rfl, ht.descend⟩

theorem attempt {m : Parser (Option α)} (h : Keeps limit m) : Keeps limit (Parser.attempt m) := by
  intro s
  unfold Parser.attempt
  obtain ⟨a, t, hm, ht⟩ | ⟨t, hm, ht⟩ := h s
  · rw [hm]
    cases a with
    | none => exact .inl ⟨none, s, rfl, .refl s⟩
    | some a => exact .inl ⟨some a, t, rfl, ht⟩
  · rw [hm]
    exact .inr ⟨t, rfl, ht⟩

/-- To take a notation back is to go back to a checkpoint of the state before it. -/
theorem attempt_eq_restoring {m : Parser (Option α)} (h : Keeps limit m) :
    Parser.attempt m = restoring m := by
  funext s
  unfold Parser.attempt restoring
  obtain ⟨a, t, hm, ht⟩ | ⟨t, hm, -⟩ := h s
  · rw [hm]
    cases a with
    | none => exact congrArg (EStateM.Result.ok none) ht.restore.symm
    | some a => rfl
  · rw [hm]

end Keeps

/-- Programs whose last state follows their first one. -/
def keeps (limit : Nat) : Congruence where
  rel m _ := Keeps limit m
  faults fault := fault = .depthExceeded limit
  throw hfault := fun s => .inr ⟨s, by rw [hfault]; rfl, .refl s⟩
  pure a := fun s => .inl ⟨a, s, rfl, .refl s⟩
  bind := .bind
  get _ h := fun s => h s s
  forward _ := fun s => .inl ⟨(), _, rfl, .forward s _⟩
  cutDigit := fun s => .inl ⟨(), s.cutDigit, rfl, .cutDigit s⟩
  record _ _ _ _ := fun s => .inl ⟨(), _, rfl, .record ..⟩
  awaiting := .awaiting
  attempt := .attempt

section

variable {inner : Inner}
  (hd : ∀ trigger, ∀ n ∈ env.dictionary.readAt trigger, n.AbortsOnly (· = .depthExceeded limit))
  (hk : (keeps limit).Inners inner inner)

include hd hk

theorem Inners.keeps_operand : Keeps limit (operand env inner) :=
  show (keeps limit).rel (operand env inner) (operand (env.allowing limit) inner) from
    hk.operandHere hd

theorem Inners.keeps_chain (loosest : Precedence) (fuel : Nat) (lhs : Operand)
    (chained : Option String) : Keeps limit (chain env inner loosest fuel lhs chained) :=
  show (keeps limit).rel (chain env inner loosest fuel lhs chained)
      (chain (env.allowing limit) inner loosest fuel lhs chained) from
    hk.chain hd loosest fuel lhs chained

theorem Inners.keeps_expressionAt (loosest : Precedence) :
    Keeps limit (expressionAt env inner loosest) :=
  show (keeps limit).rel (expressionAt env inner loosest)
      (expressionAt (env.allowing limit) inner loosest) from
    hk.expressionAt hd loosest

/-- Whichever notation is tried for an operand, it is taken back as if by a checkpoint. -/
theorem Inners.attempt_applyNotation {trigger : String} {n : Notation}
    (hn : n ∈ env.dictionary.readAt trigger) :
    attempt (do advance; applyNotation env inner n) =
      restoring (do advance; applyNotation env inner n) :=
  have happly : (keeps limit).rel (applyNotation env inner n)
      (applyNotation (env.allowing limit) inner n) := hk.applyNotation (hd trigger n hn)
  Keeps.attempt_eq_restoring (Keeps.bind (keeps limit).advance fun _ => happly)

/-- And so is an operator. -/
theorem Inners.attempt_applyOperator {trigger : String} {n : Notation}
    (hn : n ∈ env.dictionary.readAt trigger) (lhs : Expression) (chained : Option String) :
    attempt (do advance; return (← applyOperator env inner n lhs chained).map fun e => (e, n)) =
      restoring (do advance; return (← applyOperator env inner n lhs chained).map fun e => (e, n)) :=
  have happly : (keeps limit).rel (applyOperator env inner n lhs chained)
      (applyOperator (env.allowing limit) inner n lhs chained) :=
    hk.applyOperator (hd trigger n hn) lhs chained
  Keeps.attempt_eq_restoring (Keeps.bind (keeps limit).advance fun _ =>
    Keeps.bind happly fun _ => (keeps limit).pure _)

end

/-- The readers keep the state, level by level. -/
theorem inners_keeps (hd : ∀ trigger, ∀ n ∈ env.dictionary.readAt trigger,
      n.AbortsOnly (· = .depthExceeded env.options.maxDepth)) (levels : Nat) :
    (keeps env.options.maxDepth).Inners (within env levels) (within env levels) := by
  induction levels with
  | zero => exact ⟨fun _ => (keeps _).throw rfl, (keeps _).throw rfl⟩
  | succ levels ih =>
    constructor
    · exact fun loosest => Keeps.descend (Inners.keeps_expressionAt hd ih loosest)
    · exact (keeps _).map _ (Keeps.descend (Inners.keeps_operand hd ih))

/-! ### Operations -/

/-- What can be asked of a parser: the whole source, or one of the requests of hooks. -/
inductive Operation where
  | root
  | request (r : Request)

/-- Answers an operation and drops the answer. -/
def Operation.perform (env : Env) : Operation → Parser Unit
  | .root => do let _ ← Parser.root env
  | .request r => do let _ ← Parser.perform env r

/-- The state that an operation leaves, whether it succeeds or fails. -/
def Operation.after (env : Env) (s : State) (o : Operation) : State :=
  match o.perform env s with
  | .ok _ t => t
  | .error _ t => t

/-- The state that operations leave, one after the other. -/
def Env.afterAll (env : Env) (s : State) (operations : List Operation) : State :=
  operations.foldl (Operation.after env) s

theorem keeps_perform (env : Env) (hd : env.dictionary.HasStandardHooks) (o : Operation) :
    Keeps env.options.maxDepth (o.perform env) := by
  let same := env.allowing env.options.maxDepth
  have hinners := inners_keeps hd.abortsOnly env.options.maxDepth
  cases o with
  | root =>
    have hparts (fuel : Nat) : (keeps env.options.maxDepth).rel (parts env env.readers fuel)
        (parts same env.readers fuel) :=
      hinners.parts fuel
    have hroot : Keeps env.options.maxDepth (root env) :=
      fun s => (Keeps.bind (hparts (s.rest.length + 1)) fun es => (keeps _).pure (assemble es)) s
    exact hroot.bind fun _ => (keeps _).pure ()
  | request r =>
    have hanswer : (keeps env.options.maxDepth).rel (Parser.perform env r)
        (answer same env.readers r) :=
      hinners.answer r
    exact Keeps.bind hanswer fun _ => (keeps _).pure ()

theorem follows_after (env : Env) (hd : env.dictionary.HasStandardHooks) (s : State)
    (o : Operation) : Follows s (o.after env s) := by
  unfold Operation.after
  obtain ⟨a, t, h, ht⟩ | ⟨t, h, ht⟩ := keeps_perform env hd o s
  · rw [h]
    exact ht
  · rw [h]
    exact ht

theorem follows_afterAll (env : Env) (hd : env.dictionary.HasStandardHooks) (s : State)
    (operations : List Operation) : Follows s (env.afterAll s operations) := by
  induction operations generalizing s with
  | nil => exact .refl s
  | cons o rest ih => exact (follows_after env hd s o).trans (ih _)

/-- What holds of the state of a parser of a source at all times. -/
structure Sound (source : String) (s : State) : Prop where
  depth : s.depth = 0
  closers : s.closers = []
  /-- The end of the source, which is not among the tokens, can be the place as well. -/
  position : s.position ≤ s.tokens.length
  /-- With all cuts undone, the tokens are those of the source. -/
  tokens : undo s.cuts s.tokens = Token.meaningful source

theorem Follows.sound {source : String} {s : State} (h : Follows (.ofSource source) s) :
    Sound source s where
  depth := h.depth
  closers := h.closers
  position := by
    rw [State.tokens, List.length_append, List.length_reverse]
    exact Nat.le_add_right _ _
  tokens := by
    obtain ⟨since, hcuts, htokens⟩ := h.cuts
    have hall : s.cuts = since := hcuts.trans (List.append_nil since)
    rw [hall, htokens]
    rfl

/-- The state of a parser at all times. After any `earlier` operations and one more, no level is
taken, no delimiter is waited for, the place is inside the source and not before where it was, no
diagnostic is lost, and the tokens are those of the source but for the cuts that are kept. Only the
limit of nesting ends an operation. And whatever operations come `later`, a checkpoint leads back. -/
theorem operations_keep_state {d : Dictionary} (hd : d.HasStandardHooks) (options : ParseOptions)
    (source : String) (earlier later : List Operation) (o : Operation) :
    let env : Env := ⟨source, d, options⟩
    let s := env.afterAll (.ofSource source) earlier
    let t := o.after env s
    Sound source t ∧ s.position ≤ t.position ∧ s.diagnostics.reverse <+: t.diagnostics.reverse ∧
      (∀ fault u, o.perform env s = .error fault u → fault = .depthExceeded options.maxDepth) ∧
      (env.afterAll s later).restore s.checkpoint = s := by
  intro env s t
  have hs : Follows (.ofSource source) s := follows_afterAll env hd _ earlier
  have ht : Follows s t := follows_after env hd s o
  refine ⟨(hs.trans ht).sound, ht.position, ?_, fun fault u h => ?_,
    (follows_afterAll env hd s later).restore⟩
  · rw [List.reverse_prefix]
    exact ht.diagnostics
  · obtain ⟨a, t', h', -⟩ | ⟨t', h', -⟩ := keeps_perform env hd o s
    · rw [h'] at h
      cases h
    · rw [h'] at h
      cases h
      rfl

/-- An argument takes a digit off `34`. What is left is then read as a source of its own, and the
checkpoint from before both puts the run together again. -/
theorem operations_keep_state_digits :
    let env : Env := ⟨"34", .standard, {}⟩
    let operations : List Operation := [.request (.argument "^"), .root]
    let s := env.afterAll (.ofSource "34") operations
    s.cuts ≠ [] ∧ s.rest = [] ∧ undo s.cuts s.tokens = Token.meaningful "34" ∧
      s.restore (State.ofSource "34").checkpoint = .ofSource "34" := by
  intro env operations s
  have hd : Dictionary.standard.HasStandardHooks := fun n hn hook hhook => ⟨n, hn, hhook⟩
  have h := operations_keep_state hd {} "34" [.request (.argument "^")] operations .root
  have hcuts : s.cuts.isEmpty = false := by decide +kernel
  have hrest : s.rest.isEmpty = true := by decide +kernel
  exact ⟨fun hnil => (by rw [hnil] at hcuts; cases hcuts), List.isEmpty_iff.mp hrest, h.1.tokens,
    (operations_keep_state hd {} "34" [] operations .root).2.2.2.2⟩

end TexFormula.Parser
