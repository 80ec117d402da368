import TexFormula.Proofs.ParserRun

/-!
# Two parsers in step

`Agree Q s m m'`: from state `s` the programs `m` and `m'` end without a fault, with the same value
and in the same state, and these two satisfy `Q`. There is one rule for each way in which the parser
puts programs together, so that two parsers are compared piece by piece.

The condition met most is `AtMost n`: at most `n` tokens are left to be read.
-/

namespace TexFormula.Parser

variable {α β : Type} {env : Env} {s : State}

/-- From state `s` both programs give the same value and end in the same state, and `Q` holds of
the two. -/
def Agree (Q : α → State → Prop) (s : State) (m m' : Parser α) : Prop :=
  ∃ a t, Runs m s a t ∧ Runs m' s a t ∧ Q a t

/-- At most `n` tokens are left. -/
def AtMost (n : Nat) : α → State → Prop :=
  fun _ t => t.rest.length ≤ n

/-- At most `n + 1` tokens are left, and at most `n` if something has been read. -/
def Consumed (n : Nat) : Option α → State → Prop :=
  fun a t => t.rest.length ≤ n + 1 ∧ (a.isSome → t.rest.length ≤ n)

theorem AtMost.mono {m n : Nat} {a : α} (h : AtMost m a s) (hm : m ≤ n) : AtMost n a s :=
  Nat.le_trans h hm

namespace Agree

variable {Q R : α → State → Prop} {P : β → State → Prop} {m m' : Parser α}

theorem pure {a : α} (h : Q a s) : Agree Q s (Pure.pure a) (Pure.pure a) :=
  ⟨a, s, .pure a s, .pure a s, h⟩

/-- A program agrees with itself where it has an outcome. -/
theorem refl {a : α} {t : State} (h : Runs m s a t) (hQ : Q a t) : Agree Q s m m :=
  ⟨a, t, h, h, hQ⟩

theorem mono (h : Agree Q s m m') (hQ : ∀ a t, Q a t → R a t) : Agree R s m m' := by
  obtain ⟨a, t, hm, hm', ht⟩ := h
  exact ⟨a, t, hm, hm', hQ a t ht⟩

theorem refl_right (h : Agree Q s m m') : Agree Q s m' m' := by
  obtain ⟨a, t, -, hm', ht⟩ := h
  exact ⟨a, t, hm', hm', ht⟩

/-- What holds of the common outcome holds of every outcome of the first program. -/
theorem of_runs (h : Agree Q s m m') {a : α} {t : State} (ht : Runs m s a t) : Q a t := by
  obtain ⟨b, u, hm, -, hu⟩ := h
  obtain ⟨rfl, rfl⟩ := ht.det hm
  exact hu

theorem bind {f f' : α → Parser β} (h : Agree Q s m m')
    (hf : ∀ a t, Q a t → Agree P t (f a) (f' a)) : Agree P s (m >>= f) (m' >>= f') := by
  obtain ⟨a, t, hm, hm', ht⟩ := h
  obtain ⟨b, u, hb, hb', hu⟩ := hf a t ht
  exact ⟨b, u, hm.bind hb, hm'.bind hb', hu⟩

theorem map {f : α → β} (h : Agree Q s m m') (hf : ∀ a t, Q a t → P (f a) t) :
    Agree P s (f <$> m) (f <$> m') := by
  obtain ⟨a, t, hm, hm', ht⟩ := h
  exact ⟨f a, t, runs_map.mpr ⟨a, hm, rfl⟩, runs_map.mpr ⟨a, hm', rfl⟩, hf a t ht⟩

theorem pure_bind {a : α} {f f' : α → Parser β} (h : Agree P s (f a) (f' a)) :
    Agree P s (Pure.pure a >>= f) (Pure.pure a >>= f') := h

theorem ite {c : Prop} [Decidable c] {m₁ m₁' m₂ m₂' : Parser α} (h₁ : c → Agree Q s m₁ m₁')
    (h₂ : ¬ c → Agree Q s m₂ m₂') : Agree Q s (if c then m₁ else m₂) (if c then m₁' else m₂') := by
  by_cases h : c
  · simpa [h] using h₁ h
  · simpa [h] using h₂ h

theorem get {f f' : State → Parser β} (h : Agree P s (f s) (f' s)) :
    Agree P s (MonadState.get >>= f) (MonadState.get >>= f') := h

theorem current {f f' : Token → Parser β} (h : Agree P s (f (s.current env)) (f' (s.current env))) :
    Agree P s (Parser.current env >>= f) (Parser.current env >>= f') := h

theorem atTerminator {f f' : Bool → Parser β}
    (h : Agree P s (f (s.atTerminator env)) (f' (s.atTerminator env))) :
    Agree P s (Parser.atTerminator env >>= f) (Parser.atTerminator env >>= f') := h

theorem skip {count : Nat} {f f' : Unit → Parser β} (h : Agree P (s.forward count) (f ()) (f' ())) :
    Agree P s (Parser.skip count >>= f) (Parser.skip count >>= f') := h

theorem skipSpacing {f f' : Unit → Parser β}
    (h : Agree P (s.forward (s.rest.takeWhile State.isSpacing).length) (f ()) (f' ())) :
    Agree P s (Parser.skipSpacing >>= f) (Parser.skipSpacing >>= f') := h

theorem advance {f f' : Unit → Parser β} (h : Agree P (s.forward 1) (f ()) (f' ())) :
    Agree P s (Parser.advance >>= f) (Parser.advance >>= f') := h

theorem modify {g : State → State} {f f' : Unit → Parser β} (h : Agree P (g s) (f ()) (f' ())) :
    Agree P s ((modify g : Parser Unit) >>= f) ((modify g : Parser Unit) >>= f') := h

theorem record {cause : Problem.Cause} {text : String} {start stop : Nat}
    {f f' : Unit → Parser β} (h : Agree P (s.record ⟨cause, text⟩ start stop) (f ()) (f' ())) :
    Agree P s (Parser.record cause text start stop >>= f)
      (Parser.record cause text start stop >>= f') := h

theorem recordAt {token : Token} {cause : Problem.Cause} {text : String} {f f' : Unit → Parser β}
    (h : Agree P (s.record ⟨cause, text⟩ token.start token.stop) (f ()) (f' ())) :
    Agree P s (Parser.recordAt token cause text >>= f)
      (Parser.recordAt token cause text >>= f') := h

theorem recordHere {cause : Problem.Cause} {text : String} {f f' : Unit → Parser β}
    (h : Agree P (s.record ⟨cause, text⟩ (s.current env).start (s.current env).stop) (f ())
      (f' ())) :
    Agree P s (Parser.recordHere env cause text >>= f)
      (Parser.recordHere env cause text >>= f') := h

theorem awaiting {close : String}
    (h : Agree Q { s with closers := close :: s.closers } m m')
    (hQ : ∀ a t, Q a t → R a { t with closers := t.closers.tail }) :
    Agree R s (awaiting close m) (awaiting close m') := by
  obtain ⟨a, t, hm, hm', ht⟩ := h
  exact ⟨a, _, runs_awaiting.mpr ⟨t, hm, rfl⟩, runs_awaiting.mpr ⟨t, hm', rfl⟩, hQ a t ht⟩

theorem attempt {m m' : Parser (Option α)} {Q R : Option α → State → Prop} (h : Agree Q s m m')
    (hs : R none s) (hQ : ∀ a t, Q (some a) t → R (some a) t) :
    Agree R s (attempt m) (attempt m') := by
  obtain ⟨a, t, hm, hm', ht⟩ := h
  cases a with
  | none =>
    exact ⟨none, s, runs_attempt.mpr (.inl ⟨rfl, rfl, t, hm⟩),
      runs_attempt.mpr (.inl ⟨rfl, rfl, t, hm'⟩), hs⟩
  | some a =>
    exact ⟨some a, t, runs_attempt.mpr (.inr ⟨rfl, hm⟩), runs_attempt.mpr (.inr ⟨rfl, hm'⟩),
      hQ a t ht⟩

theorem orElse {m m' m₂ m₂' : Parser (Option α)} {Q R : Option α → State → Prop}
    (h : Agree Q s m m') (hQ : ∀ a t, Q (some a) t → R (some a) t)
    (h₂ : ∀ t, Q none t → Agree R t m₂ m₂') : Agree R s (orElse m m₂) (orElse m' m₂') := by
  refine bind h fun a t ht => ?_
  cases a with
  | none => exact h₂ t ht
  | some a => exact pure (hQ a t ht)

end Agree

end TexFormula.Parser
