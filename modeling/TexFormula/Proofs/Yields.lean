import TexFormula.Proofs.Congruence
import TexFormula.Proofs.ParserRun

/-!
# What a program yields in view of all diagnostics

A diagnostic that has been recorded stays unless a notation is taken back, and then its value is
taken back as well. So what holds of a value may rest on the diagnostics of the whole parse:
`Yields env found P s m` says that value and last state satisfy `P` if all diagnostics that the run
leaves behind are `found` in the end. As diagnostics are only added, whatever the rest of a program does
leaves its first part with diagnostics among those found.

Beside that, the tokens that are left are always those of the source (`LeftOf`).
-/

namespace TexFormula.Parser

variable {α β : Type} {env : Env} {found : List Diagnostic} {s t : State} {tokens rest : List Token}

/-- What is left of some tokens: the last ones, perhaps behind what a cut has left of a digit run. -/
inductive LeftOf (tokens : List Token) : List Token → Prop where
  | suffix {rest : List Token} (h : rest <:+ tokens) : LeftOf tokens rest
  | cut {t : Token} {rest : List Token} (hdigits : t.digits?.isSome) (h : rest <:+ tokens) :
    LeftOf tokens (t :: rest)

namespace LeftOf

theorem drop (h : LeftOf tokens rest) (count : Nat) : LeftOf tokens (rest.drop count) := by
  cases h with
  | suffix h => exact .suffix ((List.drop_suffix count rest).trans h)
  | cut hdigits h =>
    cases count with
    | zero => exact .cut hdigits h
    | succ count => exact .suffix ((List.drop_suffix count _).trans h)

theorem tail_suffix {t : Token} (h : LeftOf tokens (t :: rest)) : rest <:+ tokens := by
  cases h with
  | suffix h => exact (List.suffix_cons t rest).trans h
  | cut _ h => exact h

/-- A token that is no digit run stands in front of what is left as it does among all tokens. -/
theorem cons_suffix {t : Token} (h : LeftOf tokens (t :: rest)) (hdigits : t.digits? = none) :
    t :: rest <:+ tokens := by
  cases h with
  | suffix h => exact h
  | cut hcut _ =>
    rw [hdigits] at hcut
    cases hcut

theorem mem {t : Token} (h : LeftOf tokens rest) (ht : t ∈ rest) :
    t ∈ tokens ∨ t.digits?.isSome := by
  cases h with
  | suffix h => exact .inl (h.mem ht)
  | cut hdigits h =>
    rcases List.mem_cons.mp ht with rfl | ht
    · exact .inr hdigits
    · exact .inl (h.mem ht)

theorem cutDigit (h : LeftOf tokens s.rest) : LeftOf tokens s.cutDigit.rest := by
  unfold State.cutDigit
  split
  · exact h
  · next t rest hrest =>
    split
    · exact h
    · rw [hrest] at h
      exact .cut rfl h.tail_suffix

end LeftOf

/-- The token is one of the source, what a cut has left of a digit run, or the end. -/
def Env.Has (env : Env) (t : Token) : Prop :=
  t ∈ Token.meaningful env.source ∨ t.digits?.isSome ∨ t.kind = .ending

/-- What is left to be read is left of the tokens of the source. -/
def State.OfSource (env : Env) (s : State) : Prop :=
  LeftOf (Token.meaningful env.source) s.rest

theorem State.OfSource.has_current (h : s.OfSource env) : env.Has (s.current env) := by
  unfold State.current
  cases hrest : s.rest with
  | nil => exact .inr (.inr rfl)
  | cons t rest =>
    have hmem : t ∈ s.rest := by
      rw [hrest]
      exact List.mem_cons_self
    exact (LeftOf.mem h hmem).imp_right .inl

/-- Only tokens of the source have triggers. -/
theorem Env.Has.mem_of_trigger {token : Token} {trigger : String} (h : env.Has token)
    (ht : token.trigger? = some trigger) : token ∈ Token.meaningful env.source := by
  unfold Token.trigger? at ht
  rcases h with h | h | h
  · exact h
  · unfold Token.digits? at h
    split at h
    · next hkind =>
      rw [hkind] at ht
      cases ht
    · cases h
  · rw [h] at ht
    cases ht

/-- From state `s` the program goes on in the source and adds diagnostics at most, and if those in the
end are all among `found`, its value and its last state satisfy `P`. -/
def Yields (env : Env) (found : List Diagnostic) (P : α → State → Prop) (s : State)
    (m : Parser α) : Prop :=
  s.OfSource env → Ensures (fun a t => t.OfSource env ∧ s.diagnostics ⊆ t.diagnostics ∧
    (t.diagnostics ⊆ found → P a t)) s m

/-- Programs that go on in the source and add diagnostics at most. -/
def Advances (env : Env) (m : Parser α) : Prop :=
  ∀ s, Yields env [] (fun _ _ => True) s m

namespace Yields

variable {P R : α → State → Prop} {Q : β → State → Prop} {m : Parser α}

theorem pure {a : α} (h : P a s) : Yields env found P s (Pure.pure a) :=
  fun hs => .pure ⟨hs, List.Subset.refl _, fun _ => h⟩

theorem throw {fault : Fault} : Yields env found P s (throw fault) :=
  fun _ => .throw

theorem mono (h : Yields env found P s m) (hP : ∀ a t, P a t → R a t) : Yields env found R s m :=
  fun hs => (h hs).mono fun a t ht => ⟨ht.1, ht.2.1, fun hfound => hP a t (ht.2.2 hfound)⟩

theorem of_advances (h : Advances env m) : Yields env found (fun _ _ => True) s m :=
  fun hs => (h s hs).mono fun _ _ ht => ⟨ht.1, ht.2.1, fun _ => trivial⟩

theorem bind {f : α → Parser β} (h : Yields env found P s m)
    (hf : ∀ a t, Yields env found (fun b u => P a t → Q b u) t (f a)) :
    Yields env found Q s (m >>= f) := by
  refine fun hs => (h hs).bind fun a t ht => (hf a t ht.1).mono fun b u hu => ?_
  exact ⟨hu.1, List.Subset.trans ht.2.1 hu.2.1, fun hfound =>
    hu.2.2 hfound (ht.2.2 (List.Subset.trans hu.2.1 hfound))⟩

/-- What follows a program whose value does not matter. -/
theorem after {f : α → Parser β} (h : Advances env m) (hf : ∀ a t, Yields env found Q t (f a)) :
    Yields env found Q s (m >>= f) :=
  .bind (.of_advances h) fun a t => (hf a t).mono fun _ _ hb _ => hb

theorem map {f : α → β} (h : Yields env found P s m) (hf : ∀ a t, P a t → Q (f a) t) :
    Yields env found Q s (f <$> m) :=
  fun hs => (h hs).map fun a t ht => ⟨ht.1, ht.2.1, fun hfound => hf a t (ht.2.2 hfound)⟩

theorem get {f : State → Parser β} (h : s.OfSource env → Yields env found Q s (f s)) :
    Yields env found Q s (MonadState.get >>= f) :=
  fun hs => .get (h hs hs)

theorem current {f : Token → Parser β}
    (h : env.Has (s.current env) → Yields env found Q s (f (s.current env))) :
    Yields env found Q s (Parser.current env >>= f) :=
  fun hs => .current (h hs.has_current hs)

theorem atTerminator {f : Bool → Parser β} (h : Yields env found Q s (f (s.atTerminator env))) :
    Yields env found Q s (Parser.atTerminator env >>= f) :=
  fun hs => .atTerminator (h hs)

theorem forward {count : Nat} {f : Unit → Parser β}
    (h : Yields env found Q (s.forward count) (f ())) (hs : s.OfSource env) :
    Ensures (fun b t => t.OfSource env ∧ s.diagnostics ⊆ t.diagnostics ∧
      (t.diagnostics ⊆ found → Q b t)) (s.forward count) (f ()) := by
  have hforward : (s.forward count).OfSource env := by
    rw [State.OfSource, State.rest_forward]
    exact LeftOf.drop hs count
  have hend := h hforward
  rw [State.diagnostics_forward] at hend
  exact hend

theorem skip {count : Nat} {f : Unit → Parser β} (h : Yields env found Q (s.forward count) (f ())) :
    Yields env found Q s (Parser.skip count >>= f) :=
  fun hs => .skip (h.forward hs)

theorem advance {f : Unit → Parser β} (h : Yields env found Q (s.forward 1) (f ())) :
    Yields env found Q s (Parser.advance >>= f) :=
  fun hs => .advance (h.forward hs)

theorem skipSpacing {f : Unit → Parser β}
    (h : Yields env found Q (s.forward (s.rest.takeWhile State.isSpacing).length) (f ())) :
    Yields env found Q s (Parser.skipSpacing >>= f) :=
  fun hs => .skipSpacing (h.forward hs)

theorem cutDigit {f : Unit → Parser β} (h : Yields env found Q s.cutDigit (f ())) :
    Yields env found Q s ((modify (·.cutDigit) : Parser Unit) >>= f) := by
  refine fun hs => .modify ((h (LeftOf.cutDigit hs)).mono fun b t ht => ⟨ht.1, ?_, ht.2.2⟩)
  have hsame : s.cutDigit.diagnostics = s.diagnostics := by
    unfold State.cutDigit
    repeat' split
    all_goals rfl
  rw [← hsame]
  exact ht.2.1

/-- What follows a diagnostic may rest on its being among those found in the end. -/
theorem record {cause : Problem.Cause} {text : String} {start stop : Nat} {f : Unit → Parser β}
    (h : ∀ t, Yields env found
      (fun b u => Diagnostic.of ⟨cause, text⟩ (some (.between start stop)) ∈ found → Q b u) t (f ())) :
    Yields env found Q s (Parser.record cause text start stop >>= f) := by
  refine fun hs => .record ((h (s.record ⟨cause, text⟩ start stop) hs).mono fun b t ht => ?_)
  obtain ⟨ht, hadded, hQ⟩ := ht
  obtain ⟨hhere, hmore⟩ := List.cons_subset.mp hadded
  exact ⟨ht, hmore, fun hfound => hQ hfound (hfound hhere)⟩

theorem recordAt {token : Token} {cause : Problem.Cause} {text : String} {f : Unit → Parser β}
    (h : ∀ t, Yields env found (fun b u => Diagnostic.of ⟨cause, text⟩
      (some (.between token.start token.stop)) ∈ found → Q b u) t (f ())) :
    Yields env found Q s (Parser.recordAt token cause text >>= f) :=
  record h

/-- What follows a diagnostic on which nothing rests. -/
theorem recordHere {cause : Problem.Cause} {text : String} {f : Unit → Parser β}
    (h : ∀ t, Yields env found Q t (f ())) :
    Yields env found Q s (Parser.recordHere env cause text >>= f) :=
  record (s := s) fun t => (h t).mono fun _ _ hb _ => hb

theorem ite {c : Prop} [Decidable c] {m' : Parser α} (h : c → Yields env found P s m)
    (h' : ¬c → Yields env found P s m') : Yields env found P s (if c then m else m') := by
  split
  · next hc => exact h hc
  · next hc => exact h' hc

theorem awaiting {close : String} (h : Yields env found P { s with closers := close :: s.closers } m)
    (hP : ∀ a t, P a t → R a { t with closers := t.closers.tail }) :
    Yields env found R s (Parser.awaiting close m) :=
  fun hs => .awaiting (h hs) fun a t ht => ⟨ht.1, ht.2.1, fun hfound => hP a t (ht.2.2 hfound)⟩

theorem attempt {m : Parser (Option α)} {P : Option α → State → Prop} (h : Yields env found P s m)
    (hnone : P none s) : Yields env found P s (Parser.attempt m) :=
  fun hs => .attempt (h hs) ⟨hs, List.Subset.refl _, fun _ => hnone⟩ fun _ _ ht => ht

theorem orElse {m m' : Parser (Option α)} {P : Option α → State → Prop} (h : Yields env found P s m)
    (h' : ∀ t, Yields env found (fun o u => P none t → P o u) t m') :
    Yields env found P s (Parser.orElse m m') := by
  refine fun hs => .orElse (h hs) (fun _ _ ht => ht) fun t ht => ?_
  refine (h' t ht.1).mono fun _ _ hu => ⟨hu.1, List.Subset.trans ht.2.1 hu.2.1, fun hfound => ?_⟩
  exact hu.2.2 hfound (ht.2.2 (List.Subset.trans hu.2.1 hfound))

theorem either {m m' : Parser (Option α)} {P : Option α → State → Prop} (h : Yields env found P s m)
    (h' : ∀ t, Yields env found P t m') : Yields env found P s (Parser.orElse m m') :=
  .orElse h fun t => (h' t).mono fun _ _ ho _ => ho

/-- A notation that is taken back leaves the state to the next one. -/
theorem attempt_orElse {m m' : Parser (Option α)} {P : Option α → State → Prop}
    (h : Yields env found P s m) (h' : Yields env found P s m') :
    Yields env found P s (Parser.orElse (Parser.attempt m) m') := by
  intro hs
  refine .orElse (Q := fun o t => (o = none → t = s) ∧ (o.isSome → t.OfSource env ∧
    s.diagnostics ⊆ t.diagnostics ∧ (t.diagnostics ⊆ found → P o t))) ?_ (fun _ _ ht => ht.2 rfl)
    fun t ht => ?_
  · exact .attempt (h hs) ⟨fun _ => rfl, nofun⟩ fun _ _ ht => ⟨nofun, fun _ => ht⟩
  · rw [ht.1 rfl]
    exact h' hs

end Yields

/-- Going on in the source is inherited by whatever is put together of the steps of the parser. -/
def advancing (env : Env) : Congruence where
  rel m _ := Advances env m
  faults _ := True
  throw _ := fun _ => .throw
  pure _ := fun _ => .pure trivial
  bind h hf := fun _ => .after h fun a t => hf a t
  get _ h := fun s => .get fun _ => h s s
  forward _ := fun _ hs => (Yields.pure trivial).forward hs
  cutDigit := fun _ => .cutDigit (.pure trivial)
  record _ _ _ _ := fun _ => .record fun _ => .pure fun _ => trivial
  awaiting _ h := fun _ => .awaiting (h _) fun _ _ _ => trivial
  attempt h := fun s => .attempt (h s) trivial

end TexFormula.Parser
