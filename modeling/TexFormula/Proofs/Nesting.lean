import TexFormula.Proofs.Congruence
import TexFormula.Proofs.ParserRun

/-!
# Levels of nesting without a count in the state

The readers of `within` count the levels in the state and give them back on every way out. Those of
`nested` are as many levels deep as their argument says, and they neither look at the depth of a
state nor change it. `root_eq_rootNested`: a whole source is read by `nested` just as by `within`.
-/

namespace TexFormula.Parser

/-- The readers with the given number of levels of nesting left. -/
def nested (env : Env) : (levels : Nat) → Inner
  | 0 =>
    { expression := fun _ => throw (.depthExceeded env.options.maxDepth)
      operand := throw (.depthExceeded env.options.maxDepth) }
  | levels + 1 =>
    { expression := fun loosest => expressionAt env (nested env levels) loosest
      operand := (fun o => o.map Operand.expression) <$> operand env (nested env levels) }

variable {α β : Type} {env : Env} {s t : State} {limit levels : Nat}

/-- What follows a program that has ended well. -/
theorem bind_eq_of_ok {m : Parser α} {f : α → Parser β} {a : α} (h : m s = .ok a t) :
    (m >>= f) s = f a t := by
  show EStateM.bind m f s = f a t
  rw [EStateM.bind, h]

/-- Nothing follows a program that has ended with a fault. -/
theorem bind_eq_of_error {m : Parser α} {f : α → Parser β} {fault : Fault}
    (h : m s = .error fault t) : (m >>= f) s = .error fault t := by
  show EStateM.bind m f s = .error fault t
  rw [EStateM.bind, h]

namespace State

@[simp] theorem atDepth_atDepth (s : State) (d d' : Nat) :
    (s.atDepth d).atDepth d' = s.atDepth d' := rfl

theorem atDepth_forward (s : State) (d n : Nat) :
    (s.atDepth d).forward n = (s.forward n).atDepth d := by
  induction n generalizing s with
  | zero => simp
  | succ n ih =>
    cases h : s.rest with
    | nil => rw [forward_of_rest_nil h, forward_of_rest_nil (s := s.atDepth d) h]
    | cons t ts =>
      rw [forward_succ h, forward_succ (s := s.atDepth d) h]
      exact ih { s with seen := t :: s.seen, rest := ts }

theorem atDepth_cutDigit (s : State) (d : Nat) :
    (s.atDepth d).cutDigit = s.cutDigit.atDepth d := by
  unfold cutDigit
  have hrest : (s.atDepth d).rest = s.rest := rfl
  rw [hrest]
  cases s.rest with
  | nil => rfl
  | cons t rest =>
    dsimp only
    cases t.digits? <;> rfl

end State

/-- From a state with `levels` levels left, and from the same state at any other depth, both programs
have the same outcome, and each keeps its depth. -/
def SameAtDepths (limit levels : Nat) (m m' : Parser α) : Prop :=
  ∀ s d, s.depth + levels = limit →
    (∃ (a : α) (t : State), m s = .ok a (t.atDepth s.depth) ∧
      m' (s.atDepth d) = .ok a (t.atDepth d)) ∨
    ∃ (fault : Fault) (t : State), m s = .error fault (t.atDepth s.depth) ∧
      m' (s.atDepth d) = .error fault (t.atDepth d)

namespace SameAtDepths

theorem bind {m m' : Parser α} {f f' : α → Parser β} (h : SameAtDepths limit levels m m')
    (hf : ∀ a, SameAtDepths limit levels (f a) (f' a)) :
    SameAtDepths limit levels (m >>= f) (m' >>= f') := by
  intro s d hs
  obtain ⟨a, t, hm, hm'⟩ | ⟨fault, t, hm, hm'⟩ := h s d hs
  · rw [bind_eq_of_ok hm, bind_eq_of_ok hm']
    exact hf a (t.atDepth s.depth) d hs
  · exact .inr ⟨fault, t, bind_eq_of_error hm, bind_eq_of_error hm'⟩

theorem modify {g : State → State} (hg : ∀ s d, g (s.atDepth d) = (g s).atDepth d) :
    SameAtDepths limit levels (modify g : Parser Unit) (modify g) := by
  intro s d _
  refine .inl ⟨(), g s, ?_, ?_⟩
  · rw [← hg]
    rfl
  · rw [← hg]
    rfl

theorem get {f f' : State → Parser α} (hf : Heedless f')
    (h : ∀ s, SameAtDepths limit levels (f s) (f' s)) :
    SameAtDepths limit levels (MonadState.get >>= f) (MonadState.get >>= f') := by
  intro s d hs
  have hsame := h s s d hs
  rw [← hf.atDepth s d] at hsame
  exact hsame

theorem awaiting {m m' : Parser α} (close : String) (h : SameAtDepths limit levels m m') :
    SameAtDepths limit levels (Parser.awaiting close m) (Parser.awaiting close m') := by
  intro s d hs
  obtain ⟨a, t, hm, hm'⟩ | ⟨fault, t, hm, hm'⟩ := h { s with closers := close :: s.closers } d hs
  · refine .inl ⟨a, { t with closers := t.closers.tail }, ?_, ?_⟩
    · unfold Parser.awaiting
      rw [hm]
      rfl
    · unfold Parser.awaiting
      rw [show ({ s.atDepth d with closers := close :: (s.atDepth d).closers } : State) =
        State.atDepth { s with closers := close :: s.closers } d from rfl, hm']
      rfl
  · refine .inr ⟨fault, { t with closers := t.closers.tail }, ?_, ?_⟩
    · unfold Parser.awaiting
      rw [hm]
      rfl
    · unfold Parser.awaiting
      rw [show ({ s.atDepth d with closers := close :: (s.atDepth d).closers } : State) =
        State.atDepth { s with closers := close :: s.closers } d from rfl, hm']
      rfl

theorem attempt {m m' : Parser (Option α)} (h : SameAtDepths limit levels m m') :
    SameAtDepths limit levels (Parser.attempt m) (Parser.attempt m') := by
  intro s d hs
  unfold Parser.attempt
  obtain ⟨a, t, hm, hm'⟩ | ⟨fault, t, hm, hm'⟩ := h s d hs
  · rw [hm, hm']
    cases a with
    | none => exact .inl ⟨none, s, rfl, rfl⟩
    | some a => exact .inl ⟨some a, t, rfl, rfl⟩
  · rw [hm, hm']
    exact .inr ⟨fault, t, rfl, rfl⟩

/-- At the depth that goes with the levels left the programs do the same. -/
theorem apply_eq {m m' : Parser α} (h : SameAtDepths limit levels m m')
    (hs : s.depth + levels = limit) : m s = m' s := by
  have hdepth : s.atDepth s.depth = s := rfl
  obtain ⟨a, t, hm, hm'⟩ | ⟨fault, t, hm, hm'⟩ := h s s.depth hs
  · rw [hdepth] at hm'
    exact hm.trans hm'.symm
  · rw [hdepth] at hm'
    exact hm.trans hm'.symm

/-- What is read without a count is read at the depth that goes with the levels left. -/
theorem runs_atDepth {m m' : Parser α} {a : α} (h : SameAtDepths limit levels m m')
    (hlevels : levels ≤ limit) (hruns : Runs m' s a t) :
    Runs m (s.atDepth (limit - levels)) a (t.atDepth (limit - levels)) := by
  have hdepth : (s.atDepth (limit - levels)).depth + levels = limit := Nat.sub_add_cancel hlevels
  have hback : (s.atDepth (limit - levels)).atDepth s.depth = s := rfl
  obtain ⟨b, u, hm, hm'⟩ | ⟨fault, u, -, hm'⟩ := h (s.atDepth (limit - levels)) s.depth hdepth
  · rw [hback, hruns] at hm'
    cases hm'
    exact hm
  · rw [hback, hruns] at hm'
    cases hm'

end SameAtDepths

/-- With `levels` levels left, programs do the same at all depths. -/
def sameAtDepths (limit levels : Nat) : Congruence where
  rel := SameAtDepths limit levels
  faults _ := True
  throw _ := fun s _ _ => .inr ⟨_, s, rfl, rfl⟩
  pure a := fun s _ _ => .inl ⟨a, s, rfl, rfl⟩
  bind := .bind
  get := .get
  forward hcount := .modify fun s d => by rw [hcount.atDepth, State.atDepth_forward]
  cutDigit := .modify State.atDepth_cutDigit
  record _ _ _ _ := .modify fun _ _ => rfl
  awaiting := .awaiting
  attempt := .attempt

/-- One level down there is one level less. -/
theorem SameAtDepths.descend {m m' : Parser α}
    (h : SameAtDepths env.options.maxDepth levels m m') :
    SameAtDepths env.options.maxDepth (levels + 1) (Parser.descend env m) m' := by
  intro s d hs
  have hguard : ¬ env.options.maxDepth ≤ s.depth := by omega
  unfold Parser.descend
  rw [if_neg hguard]
  have hdown : (s.atDepth (s.depth + 1)).depth + levels = env.options.maxDepth := by
    show s.depth + 1 + levels = _
    omega
  obtain ⟨a, t, hm, hm'⟩ | ⟨fault, t, hm, hm'⟩ := h (s.atDepth (s.depth + 1)) d hdown
  · exact .inl ⟨a, t, by rw [show ({ s with depth := s.depth + 1 } : State) =
      s.atDepth (s.depth + 1) from rfl, hm]; rfl, hm'⟩
  · exact .inr ⟨fault, t, by rw [show ({ s with depth := s.depth + 1 } : State) =
      s.atDepth (s.depth + 1) from rfl, hm]; rfl, hm'⟩

/-- The readers that count in the state and those that do not, level by level. -/
theorem inners_within (env : Env) (levels : Nat) :
    (sameAtDepths env.options.maxDepth levels).Inners (within env levels) (nested env levels) := by
  induction levels with
  | zero => exact ⟨fun _ => (sameAtDepths _ 0).throw trivial, (sameAtDepths _ 0).throw trivial⟩
  | succ levels ih =>
    have hd : ∀ trigger, ∀ n ∈ env.dictionary.readAt trigger, n.AbortsOnly fun _ => True :=
      fun _ _ _ hook _ lhs => (hook lhs).abortsOnly_of_forall fun _ => trivial
    have hexpression (loosest : Precedence) :
        SameAtDepths env.options.maxDepth levels (expressionAt env (within env levels) loosest)
          (expressionAt env (nested env levels) loosest) :=
      ih.expressionAt hd loosest
    have hoperand : SameAtDepths env.options.maxDepth levels (operand env (within env levels))
        (operand env (nested env levels)) :=
      ih.operandHere hd
    constructor
    · exact fun loosest => (hexpression loosest).descend
    · exact (sameAtDepths _ (levels + 1)).map _ hoperand.descend

/-- A whole source as the readers that do not look at the depth read it. -/
def rootNested (env : Env) : Parser Expression := do
  return assemble (← parts env (nested env env.options.maxDepth) ((← get).rest.length + 1))

theorem root_eq_rootNested (env : Env) (hs : s.depth = 0) : root env s = rootNested env s := by
  have hparts : SameAtDepths env.options.maxDepth env.options.maxDepth
      (parts env env.readers (s.rest.length + 1))
      (parts env (nested env env.options.maxDepth) (s.rest.length + 1)) :=
    (inners_within env _).parts _
  have hsame : SameAtDepths env.options.maxDepth env.options.maxDepth _ _ :=
    (sameAtDepths _ _).map assemble hparts
  exact hsame.apply_eq (by rw [hs, Nat.zero_add])

/-- Parsing by the readers that do not look at the depth. -/
theorem parse_eq_rootNested (d : Dictionary) (options : ParseOptions) (source : String) :
    parse d options source = match rootNested ⟨source, d, options⟩ (.ofSource source) with
      | .ok e t => .ok ⟨e, t.diagnostics.reverse⟩
      | .error fault _ => .error fault := by
  have hroot := root_eq_rootNested ⟨source, d, options⟩ (show (State.ofSource source).depth = 0 from rfl)
  exact hroot ▸ rfl

theorem parse_eq_of_runs_rootNested {source : String} {d : Dictionary} {options : ParseOptions}
    {e : Expression} (h : Runs (rootNested ⟨source, d, options⟩) (.ofSource source) e t) :
    parse d options source = .ok ⟨e, t.diagnostics.reverse⟩ := by
  have hroot : rootNested ⟨source, d, options⟩ (.ofSource source) = .ok e t := h
  rw [parse_eq_rootNested, hroot]

theorem runs_rootNested_of_parse {source : String} {d : Dictionary} {options : ParseOptions} {p : Parsed}
    (h : parse d options source = .ok p) : ∃ t,
      Runs (rootNested ⟨source, d, options⟩) (.ofSource source) p.expression t ∧
        p.diagnostics = t.diagnostics.reverse := by
  rw [parse_eq_rootNested] at h
  split at h
  · next e t hruns =>
    cases h
    exact ⟨t, hruns, rfl⟩
  · cases h

end TexFormula.Parser
