import TexFormula.Proofs.AliasChains
import TexFormula.Proofs.Lockstep.Expression

/-!
# The limit of nesting is a limit of resources

Whether a parse succeeds depends on the limit of nesting, but what it gives does not: with a higher
limit a program either does the same or goes on where the lower limit has ended it (`Rises`). Before
each level a token is read, so with one level more than there are tokens no limit is met.
-/

namespace TexFormula

/-- The notations are read by the rules of their kinds or by hooks of the standard notations. -/
def Dictionary.HasStandardHooks (d : Dictionary) : Prop :=
  ∀ n ∈ d.entries, ∀ hook, n.reader = some hook → ∃ m ∈ standardEntries, m.reader = some hook

theorem Dictionary.HasStandardHooks.steady {d : Dictionary} (hd : d.HasStandardHooks)
    {trigger : String} {n : Notation} (hn : n ∈ d.readAt trigger) : n.Steady := by
  intro hook hhook
  obtain ⟨m, hm, hreader⟩ := hd n (mem_entries_of_mem_readAt hn) hook hhook
  exact steady_standardEntries m hm hook hreader

theorem Dictionary.HasStandardHooks.abortsOnly {d : Dictionary} (hd : d.HasStandardHooks)
    {p : Fault → Prop} : ∀ trigger, ∀ n ∈ d.readAt trigger, n.AbortsOnly p :=
  fun _ _ hn => (hd.steady hn).abortsOnly

theorem Dictionary.hasStandardHooks_standard : standard.HasStandardHooks :=
  fun n hn _ hhook => ⟨n, hn, hhook⟩

/-- Nothing comes before the notations of a dictionary in itself. -/
theorem Dictionary.HasStandardHooks.idleExtension {d : Dictionary} (hd : d.HasStandardHooks) :
    d.IdleExtension d where
  operands _ := ⟨[], rfl, List.forall_mem_nil _⟩
  operators _ := ⟨[], rfl, List.forall_mem_nil _⟩
  hasOperator _ := rfl
  steady := hd.steady

namespace Parser

variable {α β : Type} {env : Env} {limit levels : Nat}

/-- The second program does what the first one does, unless the limit ends the first. -/
def Rises (limit : Nat) (m m' : Parser α) : Prop :=
  ∀ s, (∃ a t, m s = .ok a t ∧ m' s = .ok a t) ∨ ∃ t, m s = .error (.depthExceeded limit) t

namespace Rises

variable {m m' : Parser α}

theorem bind {f f' : α → Parser β} (h : Rises limit m m') (hf : ∀ a, Rises limit (f a) (f' a)) :
    Rises limit (m >>= f) (m' >>= f') := by
  intro s
  obtain ⟨a, t, hm, hm'⟩ | ⟨t, hm⟩ := h s
  · rw [bind_eq_of_ok hm, bind_eq_of_ok hm']
    exact hf a t
  · exact .inr ⟨t, bind_eq_of_error hm⟩

theorem awaiting (close : String) (h : Rises limit m m') :
    Rises limit (Parser.awaiting close m) (Parser.awaiting close m') := by
  intro s
  unfold Parser.awaiting
  obtain ⟨a, t, hm, hm'⟩ | ⟨t, hm⟩ := h { s with closers := close :: s.closers }
  · rw [hm, hm']
    exact .inl ⟨a, _, rfl, rfl⟩
  · rw [hm]
    exact .inr ⟨_, rfl⟩

theorem attempt {m m' : Parser (Option α)} (h : Rises limit m m') :
    Rises limit (Parser.attempt m) (Parser.attempt m') := by
  intro s
  unfold Parser.attempt
  obtain ⟨a, t, hm, hm'⟩ | ⟨t, hm⟩ := h s
  · rw [hm, hm']
    cases a with
    | none => exact .inl ⟨none, s, rfl, rfl⟩
    | some a => exact .inl ⟨some a, t, rfl, rfl⟩
  · rw [hm]
    exact .inr ⟨t, rfl⟩

end Rises

/-- Programs that the limit ends earlier or not at all. -/
def rises (limit : Nat) : Congruence where
  rel := Rises limit
  faults fault := fault = .depthExceeded limit
  throw hfault := fun s => .inr ⟨s, by rw [hfault]; rfl⟩
  pure a := fun s => .inl ⟨a, s, rfl, rfl⟩
  bind := .bind
  get _ h := fun s => h s s
  forward _ := fun s => .inl ⟨(), _, rfl, rfl⟩
  cutDigit := fun s => .inl ⟨(), s.cutDigit, rfl, rfl⟩
  record _ _ _ _ := fun s => .inl ⟨(), _, rfl, rfl⟩
  awaiting := .awaiting
  attempt := .attempt

/-- With more levels left nothing is read in another way. By induction on the levels of the side with
less of them, at whose end its limit is met. -/
theorem rises_nested (env : Env) (limit : Nat) (hd : env.dictionary.HasStandardHooks) {more : Nat}
    (hle : levels ≤ more) :
    (rises env.options.maxDepth).Inners (nested env levels) (nested (env.allowing limit) more) := by
  induction levels generalizing more with
  | zero => exact ⟨fun _ => (fun s => .inr ⟨s, rfl⟩), fun s => .inr ⟨s, rfl⟩⟩
  | succ levels ih =>
    cases more with
    | zero => exact absurd hle (Nat.not_succ_le_zero levels)
    | succ more =>
      have hinner := ih (Nat.le_of_succ_le_succ hle)
      constructor
      · exact fun loosest => hinner.expressionAt hd.abortsOnly loosest
      · exact (rises _).map _ (hinner.operandHere hd.abortsOnly)

end Parser

variable {d : Dictionary} {options : ParseOptions} {source : String} {limit : Nat}

/-- With a higher limit a source has the same tree and diagnostics, unless the lower limit ends the
parse. -/
theorem parse_of_limit_le (source : String) (hd : d.HasStandardHooks) (hle : options.maxDepth ≤ limit) :
    (∃ p, parse d options source = .ok p ∧
      parse d { options with maxDepth := limit } source = .ok p) ∨
      parse d options source = .error (.depthExceeded options.maxDepth) := by
  let env : Parser.Env := ⟨source, d, options⟩
  have hroot : Parser.Rises options.maxDepth (Parser.rootNested env)
      (Parser.rootNested (env.allowing limit)) :=
    (Parser.rises _).get (fun _ _ _ => rfl) fun _ =>
      (Parser.rises _).map _ ((Parser.rises_nested env limit hd hle).parts _)
  obtain ⟨e, t, h, h'⟩ | ⟨t, h⟩ := hroot (.ofSource source)
  · exact .inl ⟨⟨e, t.diagnostics.reverse⟩, Parser.parse_eq_of_runs_rootNested h,
      Parser.parse_eq_of_runs_rootNested h'⟩
  · right
    rw [Parser.parse_eq_rootNested, h]

/-- The limit of nesting is the only thing that can end a parse, higher limits do not change its
outcome, and one level more than there are tokens is always enough. -/
theorem parse_limit (hd : d.HasStandardHooks) :
    (∀ fault, parse d options source = .error fault → fault = .depthExceeded options.maxDepth) ∧
      (∀ p limit, parse d options source = .ok p → options.maxDepth ≤ limit →
        parse d { options with maxDepth := limit } source = .ok p) ∧
      ((Token.meaningful source).length + 1 ≤ options.maxDepth →
        ∃ p, parse d options source = .ok p) := by
  refine ⟨fun fault h => ?_, fun p limit h hle => ?_, fun hlevels => ?_⟩
  · obtain ⟨p, hp, -⟩ | hlow := parse_of_limit_le source hd (Nat.le_refl options.maxDepth)
    · rw [hp] at h
      cases h
    · rw [hlow] at h
      cases h
      rfl
  · obtain ⟨q, hq, hlimit⟩ | hlow := parse_of_limit_le source hd hle
    · rw [hq] at h
      cases h
      exact hlimit
    · rw [hlow] at h
      cases h
  · obtain ⟨p, hp, -⟩ := @Parser.parse_idleExtension _ _ hd.idleExtension options source hlevels
    exact ⟨p, hp⟩

/-- Parentheses take a level of their own: one level is not enough for them, and two are. -/
theorem parse_limit_parentheses :
    (∃ fault, parse .standard { maxDepth := 1 } "(x)" = .error fault ∧ fault = .depthExceeded 1) ∧
      (∃ p, parse .standard { maxDepth := 2 } "(x)" = .ok p ∧
        parse .standard { maxDepth := 64 } "(x)" = .ok p) ∧
      ∃ p, parse .standard { maxDepth := 4 } "(x)" = .ok p := by
  have hd : Dictionary.standard.HasStandardHooks := fun n hn hook hhook => ⟨n, hn, hhook⟩
  have hstopped : (match parse .standard { maxDepth := 1 } "(x)" with
      | .ok _ => false
      | .error _ => true) = true := by decide +kernel
  have hread : (match parse .standard { maxDepth := 2 } "(x)" with
      | .ok _ => true
      | .error _ => false) = true := by decide +kernel
  have htokens : (Token.meaningful "(x)").length + 1 ≤ 4 := by decide +kernel
  refine ⟨?_, ?_, (parse_limit hd).2.2 htokens⟩
  · cases h : parse .standard { maxDepth := 1 } "(x)" with
    | ok p => rw [h] at hstopped; cases hstopped
    | error fault => exact ⟨fault, rfl, (parse_limit hd).1 fault h⟩
  · cases h : parse .standard { maxDepth := 2 } "(x)" with
    | ok p => exact ⟨p, rfl, (parse_limit hd).2.1 p 64 h (by decide)⟩
    | error fault => rw [h] at hread; cases hread

end TexFormula
