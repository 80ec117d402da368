import TexFormula.Proofs.Operations

/-!
# Readings that come again

What has been recorded before a run does not sway it (`Unswayed`), and neither do levels of nesting
beyond those that it takes. So expressions that are read from the same place come to the same place,
whatever was tried and taken back in between (`runs_expression_again`).
-/

namespace TexFormula.Parser

variable {α β : Type} {env : Env} {s t : State} {levels : Nat}

/-- The state with other diagnostics. -/
def State.noting (s : State) (diagnostics : List Diagnostic) : State :=
  { s with diagnostics }

namespace State

theorem noting_self (s : State) : s.noting s.diagnostics = s := rfl

theorem noting_forward (s : State) (diagnostics : List Diagnostic) (count : Nat) :
    (s.noting diagnostics).forward count = (s.forward count).noting diagnostics := by
  induction count generalizing s with
  | zero => rw [forward_zero, forward_zero]
  | succ count ih =>
    cases h : s.rest with
    | nil => rw [forward_of_rest_nil h, forward_of_rest_nil (s := s.noting diagnostics) h]
    | cons t ts =>
      rw [forward_succ h, forward_succ (s := s.noting diagnostics) h]
      exact ih { s with seen := t :: s.seen, rest := ts }

theorem noting_cutDigit (s : State) (diagnostics : List Diagnostic) :
    (s.noting diagnostics).cutDigit = s.cutDigit.noting diagnostics := by
  unfold cutDigit
  rw [show (s.noting diagnostics).rest = s.rest from rfl]
  cases s.rest with
  | nil => rfl
  | cons t rest =>
    dsimp only
    cases t.digits? <;> rfl

end State

/-- With other diagnostics before it a run has the same value and comes to the same place. -/
def Unswayed (m : Parser α) : Prop :=
  ∀ s diagnostics a t, Runs m s a t →
    ∃ diagnostics', Runs m (s.noting diagnostics) a (t.noting diagnostics')

namespace Unswayed

variable {m : Parser α}

theorem bind {f : α → Parser β} (h : Unswayed m) (hf : ∀ a, Unswayed (f a)) :
    Unswayed (m >>= f) := by
  intro s diagnostics b u hrun
  obtain ⟨a, t, ha, hb⟩ := runs_bind.mp hrun
  obtain ⟨between, ha⟩ := h s diagnostics a t ha
  obtain ⟨after, hb⟩ := hf a t between b u hb
  exact ⟨after, .bind ha hb⟩

theorem modify {g : State → State}
    (hg : ∀ s diagnostics, ∃ diagnostics', g (s.noting diagnostics) = (g s).noting diagnostics') :
    Unswayed (modify g : Parser Unit) := by
  rintro s diagnostics ⟨⟩ t hrun
  obtain rfl : g s = t := by cases hrun; rfl
  obtain ⟨after, hafter⟩ := hg s diagnostics
  refine ⟨after, ?_⟩
  rw [← hafter]
  rfl

theorem get {f : State → Parser α} (hf : Heedless f) (h : ∀ s, Unswayed (f s)) :
    Unswayed (MonadState.get >>= f) := by
  intro s diagnostics a t hrun
  obtain ⟨after, hafter⟩ := h s s diagnostics a t hrun
  rw [← hf s s.depth diagnostics] at hafter
  exact ⟨after, hafter⟩

theorem awaiting (close : String) (h : Unswayed m) : Unswayed (Parser.awaiting close m) := by
  intro s diagnostics a u hrun
  obtain ⟨t, ht, rfl⟩ := runs_awaiting.mp hrun
  obtain ⟨after, hafter⟩ := h _ diagnostics a t ht
  exact ⟨after, runs_awaiting.mpr ⟨_, hafter, rfl⟩⟩

theorem attempt {m : Parser (Option α)} (h : Unswayed m) : Unswayed (Parser.attempt m) := by
  intro s diagnostics a u hrun
  rcases runs_attempt.mp hrun with ⟨rfl, rfl, t, ht⟩ | ⟨hsome, hrun⟩
  · obtain ⟨after, hafter⟩ := h u diagnostics none t ht
    exact ⟨diagnostics, runs_attempt.mpr (.inl ⟨rfl, rfl, _, hafter⟩)⟩
  · obtain ⟨after, hafter⟩ := h s diagnostics a u hrun
    exact ⟨after, runs_attempt.mpr (.inr ⟨hsome, hafter⟩)⟩

end Unswayed

/-- What has been recorded sways no step. -/
def unswayed : Congruence where
  rel _ m := Unswayed m
  faults _ := True
  throw _ := fun _ _ _ _ h => absurd h not_runs_throw
  pure a := by
    intro s diagnostics b t hrun
    obtain ⟨rfl, rfl⟩ := runs_pure.mp hrun
    exact ⟨diagnostics, .pure b _⟩
  bind := .bind
  get := .get
  forward {count} hcount := .modify fun s diagnostics => ⟨diagnostics, by
    rw [show count (s.noting diagnostics) = count s from hcount s s.depth diagnostics,
      State.noting_forward]⟩
  cutDigit := .modify fun s diagnostics => ⟨diagnostics, s.noting_cutDigit diagnostics⟩
  record _ _ _ _ := .modify fun _ _ => ⟨_, rfl⟩
  awaiting := .awaiting
  attempt := .attempt

/-- A relation that allows every fault relates the readers of each level to themselves. -/
theorem Congruence.inners_nested (c : Congruence) (hfaults : ∀ fault, c.faults fault) (env : Env)
    (levels : Nat) : c.Inners (nested env levels) (nested env levels) := by
  induction levels with
  | zero => exact ⟨fun _ => c.throw (hfaults _), c.throw (hfaults _)⟩
  | succ levels ih =>
    have hd : ∀ trigger, ∀ n ∈ env.dictionary.readAt trigger, n.AbortsOnly c.faults :=
      fun _ _ _ hook _ lhs => (hook lhs).abortsOnly_of_forall hfaults
    have hexpression (loosest : Precedence) :
        c.rel (expressionAt env (nested env levels) loosest)
          (expressionAt (env.allowing env.options.maxDepth) (nested env levels) loosest) :=
      ih.expressionAt hd loosest
    have hoperand : c.rel (operand env (nested env levels))
        (operand (env.allowing env.options.maxDepth) (nested env levels)) :=
      ih.operandHere hd
    exact ⟨hexpression, c.map _ hoperand⟩

theorem unswayed_nested (env : Env) (levels : Nat) :
    unswayed.Inners (nested env levels) (nested env levels) :=
  unswayed.inners_nested (fun _ => trivial) env levels

/-- The readers keep the state, level by level. -/
theorem keeps_nested (hd : env.dictionary.HasStandardHooks) (levels : Nat) :
    (keeps env.options.maxDepth).Inners (nested env levels) (nested env levels) := by
  induction levels with
  | zero => exact ⟨fun _ => (keeps _).throw rfl, (keeps _).throw rfl⟩
  | succ levels ih =>
    exact ⟨fun loosest => Inners.keeps_expressionAt hd.abortsOnly ih loosest,
      (keeps _).map _ (Inners.keeps_operand hd.abortsOnly ih)⟩

theorem Keeps.follows {limit : Nat} {m : Parser α} {a : α} (h : Keeps limit m) (hrun : Runs m s a t) :
    Follows s t := by
  rcases h s with ⟨b, u, hm, hu⟩ | ⟨u, hm, -⟩
  · obtain ⟨-, rfl⟩ := hrun.det hm
    exact hu
  · have hcontra := hrun.symm.trans hm
    cases hcontra

/-- With a higher limit and more levels left an expression is the same. -/
theorem runs_expression_allowing (hd : env.dictionary.HasStandardHooks) (limit : Nat) {more : Nat}
    (hle : levels ≤ more) {loosest : Precedence} {e : Expression}
    (h : Runs ((nested env levels).expression loosest) s e t) :
    Runs ((nested (env.allowing limit) more).expression loosest) s e t := by
  rcases (rises_nested env limit hd hle).expression loosest s with ⟨e', t', hlow, hmore⟩ | ⟨t', hlow⟩
  · obtain ⟨rfl, rfl⟩ := h.det hlow
    exact hmore
  · have hcontra := h.symm.trans hlow
    cases hcontra

theorem runs_expression_of_le (hd : env.dictionary.HasStandardHooks) {more : Nat} (hle : levels ≤ more)
    {loosest : Precedence} {e : Expression} (h : Runs ((nested env levels).expression loosest) s e t) :
    Runs ((nested env more).expression loosest) s e t :=
  runs_expression_allowing hd env.options.maxDepth hle h

/-- Read from the same place again, with other diagnostics before it and with other levels left, an
expression is the same and ends at the same place. -/
theorem runs_expression_again (hd : env.dictionary.HasStandardHooks) {levels' : Nat}
    {loosest : Precedence} {e e' : Expression} {t' : State} {diagnostics : List Diagnostic}
    (h : Runs ((nested env levels).expression loosest) s e t)
    (h' : Runs ((nested env levels').expression loosest) (s.noting diagnostics) e' t') :
    e' = e ∧ ∃ diagnostics', t' = t.noting diagnostics' := by
  have hmost := runs_expression_of_le hd (Nat.le_max_left levels levels') h
  have hmost' := runs_expression_of_le hd (Nat.le_max_right levels levels') h'
  obtain ⟨after, hafter⟩ := (unswayed_nested env _).expression loosest s diagnostics e t hmost
  obtain ⟨rfl, rfl⟩ := hmost'.det hafter
  exact ⟨rfl, after, rfl⟩

end TexFormula.Parser
