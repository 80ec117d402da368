import TexFormula.Proofs.Delimiters
import TexFormula.Proofs.ParsedTrees
import TexFormula.Proofs.SideBySide.Source

/-!
# Programs that close what is open

`Matches env owed s m` says that from state `s` the program `m` either records a diagnostic or reads
tokens that close the delimiters `owed`, the innermost first, and all those that they open. There is
one rule for each way in which programs are put together: to read a delimiter that opens is to owe the
one that closes it, and reading that settles the debt.
-/

namespace TexFormula

namespace Token

variable {token : Token} {c : Char} {name trigger : String}

/-! ### Tokens that are no delimiters -/

theorem isPlain_of_digits? (h : token.digits?.isSome) : token.kind.isPlain := by
  unfold digits? at h
  split at h
  · next hkind =>
    rw [hkind]
    rfl
  · cases h

theorem isPlain_of_isCommand (h : token.isCommand name) : token.kind.isPlain := by
  rw [eq_of_beq h]
  rfl

theorem isPlain_of_isPunct (h : token.isPunct c) (hopen : c ≠ '(') (hclose : c ≠ ')') :
    token.kind.isPlain := by
  rw [eq_of_beq h, Kind.isPlain, Kind.opens?_punct, Kind.closes?_punct, if_neg hopen, if_neg hclose]
  rfl

theorem isPlain_of_isSpacing (h : Parser.State.isSpacing token) : token.kind.isPlain := by
  unfold Parser.State.isSpacing at h
  split at h
  · next hkind =>
    rw [hkind]
    rfl
  · cases h

/-- The triggers of delimiters. -/
def delimiterTriggers : List String :=
  ["(", ")", "[", "]"]

theorem isPlain_of_trigger? (h : token.trigger? = some trigger)
    (htrigger : trigger ∉ delimiterTriggers) : token.kind.isPlain := by
  have hne {c : Char} (hc : String.singleton c = trigger)
      (hmem : String.singleton c ∈ delimiterTriggers) : False :=
    htrigger (hc ▸ hmem)
  rcases Parser.trigger?_cases h with ⟨name, hkind, -⟩ | ⟨c, hkind | hkind, hc⟩ | ⟨-, hc⟩ | ⟨-, hc⟩
  · rw [hkind]
    rfl
  · rw [hkind]
    rfl
  · refine isPlain_of_isPunct (c := c) (beq_iff_eq.mpr hkind) ?_ ?_
    · rintro rfl
      exact hne hc (by decide)
    · rintro rfl
      exact hne hc (by decide)
  · exact (hne (c := '[') hc (by decide)).elim
  · exact (hne (c := ']') hc (by decide)).elim

/-! ### Brackets -/

/-- No letter, command or punctuation mark of a source has the trigger of a bracket. -/
theorem kind_of_trigger?_mark {source : String} (h : token ∈ meaningful source)
    (hc : c ∈ Text.marks) (hne : c ≠ '\\') (hletter : Text.isLetter c = false)
    (ht : token.trigger? = some (String.singleton c)) :
    token.kind = .optionalOpen ∨ token.kind = .optionalClose := by
  obtain ⟨-, text, hcovers, -⟩ := exists_covers_of_mem_meaningful h
  rcases Parser.trigger?_cases ht with ⟨name, -, hname⟩ | ⟨d, hkind, hd⟩ | ⟨hkind, -⟩ | ⟨hkind, -⟩
  · have hlist := congrArg String.toList hname
    rw [String.toList_append, String.toList_singleton] at hlist
    exact absurd (List.cons.inj hlist).1.symm hne
  · rw [String.singleton_inj.mp hd] at hkind
    rcases hkind with hkind | hkind
    · rw [hkind] at hcovers
      exact absurd hcovers.2 (by rw [hletter]; nofun)
    · rw [hkind] at hcovers
      exact absurd hc hcovers.2.1
  · exact .inl hkind
  · exact .inr hkind

theorem opens?_of_trigger? {source : String} (h : token ∈ meaningful source)
    (ht : token.trigger? = some "[") : token.kind.opens? = some .bracket := by
  rcases kind_of_trigger?_mark (c := '[') h (by decide) (by decide) (by decide) ht with hkind | hkind
  · rw [hkind]
    rfl
  · rw [trigger?, hkind] at ht
    exact absurd ht (by decide)

theorem closes?_of_trigger? {source : String} (h : token ∈ meaningful source)
    (ht : token.trigger? = some "]") : token.kind.closes? = some .bracket := by
  rcases kind_of_trigger?_mark (c := ']') h (by decide) (by decide) (by decide) ht with hkind | hkind
  · rw [trigger?, hkind] at ht
    exact absurd ht (by decide)
  · rw [hkind]
    rfl

end Token

namespace Parser

open Token (Balanced closes closes_of_plain closes_of_opens? closes_of_closes?)

variable {α β : Type} {env : Env} {s t u : State} {delimiter : Delimiter} {owed : List Delimiter}

/-! ### What has been read -/

/-- The tokens read between the states close the delimiters that are owed and all that they open. -/
def Matched (owed : List Delimiter) (s t : State) : Prop :=
  ∀ opened, closes opened t.rest = closes (owed ++ opened) s.rest

namespace Matched

theorem refl (s : State) : Matched [] s s :=
  fun _ => rfl

theorem trans (h : Matched [] s t) (h' : Matched owed t u) : Matched owed s u :=
  fun opened => (h' opened).trans (h (owed ++ opened))

theorem skip {count : Nat} (h : Balanced (s.rest.take count)) (h' : Matched owed (s.forward count) t) :
    Matched owed s t := by
  intro opened
  have hsplit := h.closes_append (owed ++ opened) (s.rest.drop count)
  rw [List.take_append_drop] at hsplit
  rw [h' opened, State.rest_forward, hsplit]

/-- Reading a token that is no delimiter. At the end there is none. -/
theorem advance (hplain : (s.current env).kind.isPlain) (h : Matched owed (s.forward 1) t) :
    Matched owed s t := by
  suffices hnext : Balanced (s.rest.take 1) from skip hnext h
  refine .of_forall_plain fun token htoken => ?_
  cases hrest : s.rest with
  | nil =>
    rw [hrest] at htoken
    cases htoken
  | cons next rest =>
    rw [hrest] at htoken
    rw [State.current_of_rest hrest] at hplain
    rw [List.mem_singleton.mp htoken]
    exact hplain

theorem opening (hopen : (s.current env).kind.opens? = some delimiter)
    (h : Matched (delimiter :: owed) (s.forward 1) t) : Matched owed s t := by
  intro opened
  rw [h opened, State.rest_forward]
  cases hrest : s.rest with
  | nil =>
    rw [State.current_of_rest_nil hrest] at hopen
    cases hopen
  | cons token rest =>
    rw [State.current_of_rest hrest] at hopen
    exact (closes_of_opens? hopen).symm

theorem closing (hclose : (s.current env).kind.closes? = some delimiter)
    (h : Matched owed (s.forward 1) t) : Matched (delimiter :: owed) s t := by
  intro opened
  rw [h opened, State.rest_forward]
  cases hrest : s.rest with
  | nil =>
    rw [State.current_of_rest_nil hrest] at hclose
    cases hclose
  | cons token rest =>
    rw [State.current_of_rest hrest] at hclose
    exact (closes_of_closes? hclose).symm

theorem cutDigit (h : Matched owed s.cutDigit t) : Matched owed s t := by
  intro opened
  rw [h opened]
  unfold State.cutDigit
  split
  · rfl
  · next token rest hrest =>
    split
    · rfl
    · next run hdigits =>
      have hplain : token.kind.isPlain := Token.isPlain_of_digits? (Option.isSome_of_eq_some hdigits)
      rw [hrest, closes_of_plain hplain]
      exact closes_of_plain rfl

end Matched

/-! ### What a program reads -/

/-- From state `s` the program records a diagnostic, or it closes the delimiters that are owed and all
that it opens. -/
def Matches (env : Env) (owed : List Delimiter) (s : State) (m : Parser α) : Prop :=
  Yields env [] (fun _ t => Matched owed s t) s m

namespace Matches

variable {m : Parser α}

theorem pure {a : α} : Matches env [] s (Pure.pure a) :=
  Yields.pure (.refl s)

theorem throw {fault : Fault} : Matches env owed s (throw fault : Parser α) :=
  Yields.throw

theorem get {f : State → Parser β} (h : s.OfSource env → Matches env owed s (f s)) :
    Matches env owed s (MonadState.get >>= f) :=
  Yields.get h

theorem current {f : Token → Parser β}
    (h : env.Has (s.current env) → Matches env owed s (f (s.current env))) :
    Matches env owed s (Parser.current env >>= f) :=
  Yields.current h

theorem atTerminator {f : Bool → Parser β} (h : Matches env owed s (f (s.atTerminator env))) :
    Matches env owed s (Parser.atTerminator env >>= f) :=
  Yields.atTerminator h

theorem ite {c : Prop} [Decidable c] {m' : Parser α} (h : c → Matches env owed s m)
    (h' : ¬c → Matches env owed s m') : Matches env owed s (if c then m else m') :=
  Yields.ite h h'

theorem bind {f : α → Parser β} (h : Matches env [] s m) (hf : ∀ a t, Matches env owed t (f a)) :
    Matches env owed s (m >>= f) :=
  Yields.bind h fun a t => (hf a t).mono fun _ _ hu ht => ht.trans hu

/-- What closes all that is owed, and what follows it. -/
theorem followed {f : α → Parser β} (h : Matches env owed s m) (hf : ∀ a t, Matches env [] t (f a)) :
    Matches env owed s (m >>= f) :=
  Yields.bind h fun a t => (hf a t).mono fun _ _ hu ht opened => (hu opened).trans (ht opened)

theorem map {f : α → β} (h : Matches env owed s m) : Matches env owed s (f <$> m) :=
  Yields.map h fun _ _ ht => ht

theorem skip {count : Nat} {f : Unit → Parser β} (h : Balanced (s.rest.take count))
    (hf : Matches env owed (s.forward count) (f ())) : Matches env owed s (Parser.skip count >>= f) :=
  Yields.skip (hf.mono fun _ _ ht => ht.skip h)

theorem skipSpacing {f : Unit → Parser β} (hf : ∀ t, Matches env owed t (f ())) :
    Matches env owed s (Parser.skipSpacing >>= f) := by
  have hplain : Balanced (s.rest.take (s.rest.takeWhile State.isSpacing).length) := by
    rw [← List.prefix_iff_eq_take.mp (List.takeWhile_prefix _)]
    exact .of_forall_plain fun t ht => Token.isPlain_of_isSpacing (List.mem_takeWhile_imp ht)
  exact Yields.skipSpacing ((hf _).mono fun _ _ ht => ht.skip hplain)

theorem advance {f : Unit → Parser β} (h : (s.current env).kind.isPlain)
    (hf : Matches env owed (s.forward 1) (f ())) : Matches env owed s (Parser.advance >>= f) :=
  Yields.advance (hf.mono fun _ _ ht => ht.advance h)

theorem opening {f : Unit → Parser β} (h : (s.current env).kind.opens? = some delimiter)
    (hf : Matches env (delimiter :: owed) (s.forward 1) (f ())) :
    Matches env owed s (Parser.advance >>= f) :=
  Yields.advance (hf.mono fun _ _ ht => ht.opening h)

theorem closing {f : Unit → Parser β} (h : (s.current env).kind.closes? = some delimiter)
    (hf : Matches env owed (s.forward 1) (f ())) :
    Matches env (delimiter :: owed) s (Parser.advance >>= f) :=
  Yields.advance (hf.mono fun _ _ ht => ht.closing h)

theorem cutDigit {f : Unit → Parser β} (hf : Matches env owed s.cutDigit (f ())) :
    Matches env owed s ((modify (·.cutDigit) : Parser Unit) >>= f) :=
  Yields.cutDigit (hf.mono fun _ _ ht => ht.cutDigit)

/-- After a diagnostic nothing is owed. -/
theorem record {cause : Problem.Cause} {text : String} {start stop : Nat} {f : Unit → Parser β}
    (hf : ∀ t, Matches env [] t (f ())) :
    Matches env owed s (Parser.record cause text start stop >>= f) :=
  Yields.record fun t => (hf t).mono fun _ _ _ => nofun

theorem recordAt {token : Token} {cause : Problem.Cause} {text : String} {f : Unit → Parser β}
    (hf : ∀ t, Matches env [] t (f ())) :
    Matches env owed s (Parser.recordAt token cause text >>= f) :=
  record hf

theorem recordHere {cause : Problem.Cause} {text : String} {f : Unit → Parser β}
    (hf : ∀ t, Matches env [] t (f ())) :
    Matches env owed s (Parser.recordHere env cause text >>= f) :=
  record (s := s) hf

theorem awaiting {close : String} (h : ∀ t, Matches env [] t m) :
    Matches env [] s (Parser.awaiting close m) :=
  Yields.awaiting (h _) fun _ _ ht => ht

theorem attempt {m : Parser (Option α)} (h : Matches env [] s m) :
    Matches env [] s (Parser.attempt m) :=
  Yields.attempt h (.refl s)

theorem orElse {m m' : Parser (Option α)} (h : Matches env [] s m) (h' : ∀ t, Matches env [] t m') :
    Matches env [] s (Parser.orElse m m') :=
  Yields.orElse h fun t => (h' t).mono fun _ _ hu ht => ht.trans hu

/-- What is taken back has not been read. -/
theorem attempt_orElse {m m' : Parser (Option α)} (h : Matches env [] s m)
    (h' : Matches env [] s m') : Matches env [] s (Parser.orElse (Parser.attempt m) m') :=
  Yields.attempt_orElse h h'

end Matches

end Parser

end TexFormula
