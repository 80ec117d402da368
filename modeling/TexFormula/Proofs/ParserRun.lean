import TexFormula.Parser

/-!
# Runs of the parser

`Runs m s a s'`: from state `s` the program `m` gives `a` and ends in state `s'`, without a fault.
There is one equivalence for each step of the parser, so that a run can be followed forwards (to
find the outcome) and backwards (to take a given run apart).

`State.forward` is the only way in which tokens are read; its lemmas say how much of a state a step
keeps. `Ensures Q s m`: whenever the program `m` ends without a fault from state `s`, its value and its
last state satisfy `Q`. As for two parsers in step, there is one rule for each way in which programs
are put together.
-/

namespace TexFormula.Parser

variable {α β : Type} {env : Env} {s s' : State}

/-- From state `s` the program gives `a` and ends in state `s'`. -/
def Runs (m : Parser α) (s : State) (a : α) (s' : State) : Prop :=
  m s = .ok a s'

/-- A program has one outcome. -/
theorem Runs.det {m : Parser α} {a b : α} {s₁ s₂ : State} (h₁ : Runs m s a s₁)
    (h₂ : Runs m s b s₂) : a = b ∧ s₁ = s₂ := by
  have h := h₁.symm.trans h₂
  simpa using h

/-! ### Steps -/

theorem runs_pure {a b : α} : Runs (pure a) s b s' ↔ b = a ∧ s' = s := by
  constructor
  · intro h
    cases h
    exact ⟨rfl, rfl⟩
  · rintro ⟨rfl, rfl⟩
    rfl

theorem Runs.pure (a : α) (s : State) : Runs (Pure.pure a) s a s := rfl

theorem not_runs_throw {fault : Fault} {a : α} : ¬ Runs (throw fault) s a s' := by
  intro h
  cases h

theorem runs_bind {m : Parser α} {f : α → Parser β} {b : β} :
    Runs (m >>= f) s b s' ↔ ∃ a t, Runs m s a t ∧ Runs (f a) t b s' := by
  show EStateM.bind m f s = _ ↔ _
  unfold EStateM.bind Runs
  cases m s with
  | ok a t =>
    constructor
    · intro h
      exact ⟨a, t, rfl, h⟩
    · rintro ⟨_, _, h, hf⟩
      cases h
      exact hf
  | error fault t => simp

theorem Runs.bind {m : Parser α} {f : α → Parser β} {a : α} {b : β} {t : State}
    (h : Runs m s a t) (hf : Runs (f a) t b s') : Runs (m >>= f) s b s' :=
  runs_bind.mpr ⟨a, t, h, hf⟩

theorem runs_map {m : Parser α} {f : α → β} {b : β} :
    Runs (f <$> m) s b s' ↔ ∃ a, Runs m s a s' ∧ b = f a := by
  rw [map_eq_pure_bind, runs_bind]
  simp only [runs_pure]
  constructor
  · rintro ⟨a, t, h, rfl, rfl⟩
    exact ⟨a, h, rfl⟩
  · rintro ⟨a, h, rfl⟩
    exact ⟨a, s', h, rfl, rfl⟩

theorem runs_get {f : State → Parser β} {b : β} :
    Runs ((get : Parser State) >>= f) s b s' ↔ Runs (f s) s b s' := Iff.rfl

theorem runs_current {f : Token → Parser β} {b : β} :
    Runs (current env >>= f) s b s' ↔ Runs (f (s.current env)) s b s' := Iff.rfl

theorem runs_advance {f : Unit → Parser β} {b : β} :
    Runs (advance >>= f) s b s' ↔ Runs (f ()) (s.forward 1) b s' := Iff.rfl

theorem runs_skip {count : Nat} {f : Unit → Parser β} {b : β} :
    Runs (skip count >>= f) s b s' ↔ Runs (f ()) (s.forward count) b s' := Iff.rfl

theorem runs_skipSpacing {f : Unit → Parser β} {b : β} :
    Runs (skipSpacing >>= f) s b s' ↔
      Runs (f ()) (s.forward (s.rest.takeWhile State.isSpacing).length) b s' := Iff.rfl

theorem runs_atTerminator {f : Bool → Parser β} {b : β} :
    Runs (atTerminator env >>= f) s b s' ↔ Runs (f (s.atTerminator env)) s b s' := Iff.rfl

theorem runs_recordHere {cause : Problem.Cause} {text : String} {f : Unit → Parser β} {b : β} :
    Runs (recordHere env cause text >>= f) s b s' ↔
      Runs (f ()) (s.record ⟨cause, text⟩ (s.current env).start (s.current env).stop) b s' := Iff.rfl

theorem runs_awaiting {m : Parser α} {close : String} {a : α} :
    Runs (awaiting close m) s a s' ↔
      ∃ t, Runs m { s with closers := close :: s.closers } a t ∧
        s' = { t with closers := t.closers.tail } := by
  unfold Runs awaiting
  cases m { s with closers := close :: s.closers } with
  | ok b t => simp only [EStateM.Result.ok.injEq]; grind
  | error fault t => simp

theorem runs_attempt {m : Parser (Option α)} {a : Option α} :
    Runs (attempt m) s a s' ↔
      (a = none ∧ s' = s ∧ ∃ t, Runs m s none t) ∨ (a.isSome ∧ Runs m s a s') := by
  unfold Runs attempt
  cases m s with
  | ok b t => cases b <;> simp only [EStateM.Result.ok.injEq] <;> grind
  | error fault t => simp

theorem runs_orElse {first second : Parser (Option α)} {a : Option α} :
    Runs (orElse first second) s a s' ↔
      (a.isSome ∧ Runs first s a s') ∨ ∃ t, Runs first s none t ∧ Runs second t a s' := by
  unfold orElse
  rw [runs_bind]
  constructor
  · rintro ⟨b, t, h, ht⟩
    cases b with
    | none => exact .inr ⟨t, h, ht⟩
    | some b =>
      obtain ⟨rfl, rfl⟩ := runs_pure.mp ht
      exact .inl ⟨rfl, h⟩
  · rintro (⟨ha, h⟩ | ⟨t, h, ht⟩)
    · obtain ⟨b, rfl⟩ := Option.isSome_iff_exists.mp ha
      exact ⟨some b, s', h, runs_pure.mpr ⟨rfl, rfl⟩⟩
    · exact ⟨none, t, h, ht⟩

/-! ### What a state keeps -/

namespace State

@[simp] theorem forward_zero (s : State) : s.forward 0 = s := by
  unfold forward; rfl

theorem forward_of_rest_nil (h : s.rest = []) (n : Nat) : s.forward n = s := by
  cases n with
  | zero => exact forward_zero s
  | succ n => simp [forward, h]

theorem forward_succ {t : Token} {ts : List Token} (h : s.rest = t :: ts) (n : Nat) :
    s.forward (n + 1) = forward { s with seen := t :: s.seen, rest := ts } n := by
  simp [forward, h]

theorem seen_forward_one {t : Token} {ts : List Token} (h : s.rest = t :: ts) :
    (s.forward 1).seen = t :: s.seen := by
  rw [forward_succ h, forward_zero]

@[simp] theorem rest_forward (s : State) (n : Nat) : (s.forward n).rest = s.rest.drop n := by
  induction n generalizing s with
  | zero => simp
  | succ n ih =>
    cases h : s.rest with
    | nil => simp [forward_of_rest_nil h, h]
    | cons t ts => simp [forward_succ h, ih]

theorem seen_forward (s : State) (n : Nat) :
    (s.forward n).seen = (s.rest.take n).reverse ++ s.seen := by
  induction n generalizing s with
  | zero => simp
  | succ n ih =>
    cases h : s.rest with
    | nil => simp [forward_of_rest_nil h]
    | cons t ts => simp [forward_succ h, ih]

@[simp] theorem closers_forward (s : State) (n : Nat) : (s.forward n).closers = s.closers := by
  induction n generalizing s with
  | zero => simp
  | succ n ih =>
    cases h : s.rest with
    | nil => simp [forward_of_rest_nil h]
    | cons t ts => simp [forward_succ h, ih]

@[simp] theorem diagnostics_forward (s : State) (n : Nat) :
    (s.forward n).diagnostics = s.diagnostics := by
  induction n generalizing s with
  | zero => simp
  | succ n ih =>
    cases h : s.rest with
    | nil => simp [forward_of_rest_nil h]
    | cons t ts => simp [forward_succ h, ih]

theorem forward_forward (s : State) (m n : Nat) : (s.forward m).forward n = s.forward (m + n) := by
  induction m generalizing s with
  | zero => simp
  | succ m ih =>
    cases h : s.rest with
    | nil => simp [forward_of_rest_nil h]
    | cons t ts => rw [Nat.add_right_comm, forward_succ h, forward_succ h, ih]

theorem position_forward {n : Nat} (h : n ≤ s.rest.length) :
    (s.forward n).position = s.position + n := by
  induction n generalizing s with
  | zero => simp
  | succ n ih =>
    cases hs : s.rest with
    | nil => simp [hs] at h
    | cons t ts =>
      rw [hs] at h
      rw [forward_succ hs, ih (Nat.le_of_succ_le_succ h)]
      simp only [position, List.length_cons]
      omega

theorem length_rest_forward_le (s : State) (n : Nat) : (s.forward n).rest.length ≤ s.rest.length := by
  simp

theorem length_rest_forward_one_lt (h : s.rest ≠ []) :
    (s.forward 1).rest.length < s.rest.length := by
  have := List.length_pos_iff.mpr h
  simp only [rest_forward, List.length_drop]
  omega

@[simp] theorem rest_record (s : State) (p : Problem) (start stop : Nat) :
    (s.record p start stop).rest = s.rest := rfl

@[simp] theorem closers_record (s : State) (p : Problem) (start stop : Nat) :
    (s.record p start stop).closers = s.closers := rfl

@[simp] theorem length_rest_cutDigit (s : State) : s.cutDigit.rest.length = s.rest.length := by
  unfold cutDigit
  repeat' split
  all_goals simp [*]

theorem current_of_rest {t : Token} {ts : List Token} (h : s.rest = t :: ts) : s.current env = t := by
  simp [current, h]

theorem current_of_rest_nil (h : s.rest = []) : s.current env = env.ending := by
  simp [current, h]

theorem previous_forward_one {t : Token} {ts : List Token} (h : s.rest = t :: ts) :
    (s.forward 1).previous env = t := by
  rw [forward_succ h, forward_zero]
  rfl

theorem previous_forward_succ {count : Nat} {t : Token} (h : s.rest[count]? = some t) :
    (s.forward (count + 1)).previous env = t := by
  induction count generalizing s with
  | zero =>
    cases hrest : s.rest with
    | nil => simp [hrest] at h
    | cons u ts =>
      rw [hrest] at h
      rw [previous_forward_one hrest]
      exact Option.some.inj h
  | succ count ih =>
    cases hrest : s.rest with
    | nil => simp [hrest] at h
    | cons u ts =>
      rw [hrest] at h
      rw [forward_succ hrest]
      exact ih h

/-- At the end of the source no other token is next. -/
theorem rest_ne_nil_of_current (h : (s.current env).kind ≠ .ending) : s.rest ≠ [] := by
  intro hs
  rw [current_of_rest_nil hs] at h
  exact h rfl

end State

theorem rest_ne_nil_of_digits? (h : (s.current env).digits?.isSome) :
    s.rest ≠ [] := by
  intro hnil
  rw [State.current_of_rest_nil hnil] at h
  cases h

theorem rest_ne_nil_of_isPunct {c : Char} (h : (s.current env).isPunct c) :
    s.rest ≠ [] := by
  intro hnil
  rw [State.current_of_rest_nil hnil] at h
  cases h

/-- What an operator builds is there. -/
theorem isMissing_extend (name : String) (chains : Bool) (lhs rhs : Expression) :
    (extend name chains lhs rhs).isMissing = false := by
  unfold extend
  split
  · rfl
  · rfl

/-! ### What holds after a run -/

/-- What a run from state `s` gives satisfies `Q`. -/
def Ensures (Q : α → State → Prop) (s : State) (m : Parser α) : Prop :=
  ∀ a t, Runs m s a t → Q a t

namespace Ensures

variable {Q R : α → State → Prop} {P : β → State → Prop} {m : Parser α}

theorem pure {a : α} (h : Q a s) : Ensures Q s (Pure.pure a) := by
  intro b t hb
  obtain ⟨rfl, rfl⟩ := runs_pure.mp hb
  exact h

theorem throw {fault : Fault} : Ensures Q s (throw fault) :=
  fun _ _ h => absurd h not_runs_throw

/-- A program whose outcome is known. -/
theorem of_runs {a : α} {t : State} (h : Runs m s a t) (hQ : Q a t) : Ensures Q s m := by
  intro b u hb
  obtain ⟨rfl, rfl⟩ := hb.det h
  exact hQ

/-- A program that does the same from here. -/
theorem of_eq {m' : Parser α} (heq : m s = m' s) (h : Ensures Q s m') : Ensures Q s m :=
  fun a t ht => h a t (heq.symm.trans ht)

theorem mono (h : Ensures Q s m) (hQ : ∀ a t, Q a t → R a t) : Ensures R s m :=
  fun a t ht => hQ a t (h a t ht)

theorem and (h : Ensures Q s m) (h' : Ensures R s m) : Ensures (fun a t => Q a t ∧ R a t) s m :=
  fun a t ht => ⟨h a t ht, h' a t ht⟩

theorem bind {f : α → Parser β} (h : Ensures Q s m) (hf : ∀ a t, Q a t → Ensures P t (f a)) :
    Ensures P s (m >>= f) := by
  intro b u hb
  obtain ⟨a, t, ha, hb⟩ := runs_bind.mp hb
  exact hf a t (h a t ha) b u hb

theorem map {f : α → β} (h : Ensures Q s m) (hf : ∀ a t, Q a t → P (f a) t) :
    Ensures P s (f <$> m) := by
  intro b t hb
  obtain ⟨a, ha, rfl⟩ := runs_map.mp hb
  exact hf a t (h a t ha)

theorem get {f : State → Parser β} (h : Ensures P s (f s)) :
    Ensures P s (MonadState.get >>= f) := h

theorem current {f : Token → Parser β} (h : Ensures P s (f (s.current env))) :
    Ensures P s (Parser.current env >>= f) := h

theorem atTerminator {f : Bool → Parser β} (h : Ensures P s (f (s.atTerminator env))) :
    Ensures P s (Parser.atTerminator env >>= f) := h

theorem skip {count : Nat} {f : Unit → Parser β} (h : Ensures P (s.forward count) (f ())) :
    Ensures P s (Parser.skip count >>= f) := h

theorem skipSpacing {f : Unit → Parser β}
    (h : Ensures P (s.forward (s.rest.takeWhile State.isSpacing).length) (f ())) :
    Ensures P s (Parser.skipSpacing >>= f) := h

theorem advance {f : Unit → Parser β} (h : Ensures P (s.forward 1) (f ())) :
    Ensures P s (Parser.advance >>= f) := h

theorem modify {g : State → State} {f : Unit → Parser β} (h : Ensures P (g s) (f ())) :
    Ensures P s ((modify g : Parser Unit) >>= f) := h

theorem record {cause : Problem.Cause} {text : String} {start stop : Nat} {f : Unit → Parser β}
    (h : Ensures P (s.record ⟨cause, text⟩ start stop) (f ())) :
    Ensures P s (Parser.record cause text start stop >>= f) := h

theorem recordAt {token : Token} {cause : Problem.Cause} {text : String} {f : Unit → Parser β}
    (h : Ensures P (s.record ⟨cause, text⟩ token.start token.stop) (f ())) :
    Ensures P s (Parser.recordAt token cause text >>= f) := h

theorem recordHere {cause : Problem.Cause} {text : String} {f : Unit → Parser β}
    (h : Ensures P (s.record ⟨cause, text⟩ (s.current env).start (s.current env).stop) (f ())) :
    Ensures P s (Parser.recordHere env cause text >>= f) := h

theorem awaiting {close : String} (h : Ensures Q { s with closers := close :: s.closers } m)
    (hQ : ∀ a t, Q a t → R a { t with closers := t.closers.tail }) :
    Ensures R s (awaiting close m) := by
  intro a u hu
  obtain ⟨t, ht, rfl⟩ := runs_awaiting.mp hu
  exact hQ a t (h a t ht)

theorem attempt {m : Parser (Option α)} {Q R : Option α → State → Prop} (h : Ensures Q s m)
    (hs : R none s) (hQ : ∀ a t, Q (some a) t → R (some a) t) : Ensures R s (attempt m) := by
  intro a t ht
  rcases runs_attempt.mp ht with ⟨rfl, rfl, -⟩ | ⟨hsome, ht⟩
  · exact hs
  · obtain ⟨a, rfl⟩ := Option.isSome_iff_exists.mp hsome
    exact hQ a t (h (some a) t ht)

theorem orElse {m m₂ : Parser (Option α)} {Q R : Option α → State → Prop} (h : Ensures Q s m)
    (hQ : ∀ a t, Q (some a) t → R (some a) t) (h₂ : ∀ t, Q none t → Ensures R t m₂) :
    Ensures R s (orElse m m₂) := by
  intro a u hu
  rcases runs_orElse.mp hu with ⟨hsome, hu⟩ | ⟨t, ht, hu⟩
  · obtain ⟨a, rfl⟩ := Option.isSome_iff_exists.mp hsome
    exact hQ a u (h (some a) u hu)
  · exact h₂ t (h none t ht) a u hu

end Ensures

end TexFormula.Parser
