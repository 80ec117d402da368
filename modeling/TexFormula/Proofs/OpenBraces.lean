import TexFormula.Proofs.Excerpt.Unknown
import TexFormula.Proofs.Matches.Group

/-!
# Braces that stay open

An `OpenBrace` opens a group at the end of the tokens that no brace closes. As long as it is still to be
read (`Ahead`) and is not taken as a growing delimiter, whatever reads it waits for a brace behind it.
So a program either leaves it where it is or records a diagnostic (`OpenBrace.Spares`).
-/

namespace TexFormula.Parser

/-- The token takes the next one as its delimiter. -/
def TakesDelimiter (t : Token) : Prop :=
  t.kind = .command "left" ∨ t.kind = .command "right"

instance : DecidablePred TakesDelimiter :=
  fun _ => inferInstanceAs (Decidable (_ ∨ _))

theorem not_takesDelimiter_of_kind {t : Token} {kind : Token.Kind} (h : t.kind = kind)
    (hleft : kind ≠ .command "left") (hright : kind ≠ .command "right") : ¬ TakesDelimiter t := by
  subst h
  exact fun htakes => htakes.elim hleft hright

theorem not_takesDelimiter_of_digits? {t : Token} (h : t.digits?.isSome) : ¬ TakesDelimiter t := by
  rintro (hkind | hkind) <;> simp [Token.digits?, hkind] at h

theorem not_takesDelimiter_of_close {t : Token} (h : t.kind = .groupClose) : ¬ TakesDelimiter t :=
  not_takesDelimiter_of_kind h nofun nofun

theorem not_takesDelimiter_of_isPunct {t : Token} {c : Char} (h : t.isPunct c) :
    ¬ TakesDelimiter t :=
  not_takesDelimiter_of_kind (eq_of_beq h) nofun nofun

theorem not_takesDelimiter_of_isCommand {t : Token} {name : String} (h : t.isCommand name)
    (hname : name ≠ "left" ∧ name ≠ "right") : ¬ TakesDelimiter t := by
  have hkind : t.kind = .command name := eq_of_beq h
  rintro (hgrows | hgrows) <;> rw [hkind] at hgrows <;> cases hgrows
  · exact hname.1 rfl
  · exact hname.2 rfl

/-- A brace and the tokens behind it, of which none closes its group. -/
structure OpenBrace where
  brace : Token
  behind : List Token
  opens : brace.kind = .groupOpen
  unclosed : ∀ t ∈ behind, t.kind ≠ .groupClose

namespace OpenBrace

variable (b : OpenBrace)

/-- The tokens end with the brace and what stands behind it, and it is not the delimiter of a token in
front of it. -/
def Ahead (tokens : List Token) : Prop :=
  ∃ front, tokens = front ++ b.brace :: b.behind ∧ ∀ t ∈ front.getLast?, ¬ TakesDelimiter t

variable {b} {t c : Token} {ts tokens : List Token}

namespace Ahead

theorem not_nil : ¬ b.Ahead [] := by
  rintro ⟨front, hnil, -⟩
  cases front <;> cases hnil

theorem not_mem_of_close {n : Nat} (hc : (b.brace :: b.behind)[n]? = some c) :
    c.kind ≠ .groupClose := by
  intro hclose
  rcases List.mem_cons.mp (List.mem_of_getElem? hc) with rfl | hmem
  · rw [b.opens] at hclose
    cases hclose
  · exact b.unclosed c hmem hclose

theorem tail (h : b.Ahead (t :: ts)) (ht : t.kind ≠ .groupOpen) : b.Ahead ts := by
  obtain ⟨front, hfront, hlast⟩ := h
  cases front with
  | nil =>
    obtain ⟨rfl, -⟩ := List.cons.inj hfront
    exact absurd b.opens ht
  | cons u front =>
    obtain ⟨rfl, rfl⟩ := List.cons.inj hfront
    refine ⟨front, rfl, fun x hx => hlast x ?_⟩
    rw [List.getLast?_cons, Option.mem_def.mp hx]
    rfl

theorem drop {n : Nat} (h : b.Ahead ts) (hn : ∀ t ∈ ts.take n, t.kind ≠ .groupOpen) :
    b.Ahead (ts.drop n) := by
  induction n generalizing ts with
  | zero => exact h
  | succ n ih =>
    cases ts with
    | nil => exact h
    | cons t ts =>
      rw [List.take_succ_cons] at hn
      obtain ⟨ht, hn⟩ := List.forall_mem_cons.mp hn
      exact ih (h.tail ht) hn

/-- The brace stands behind every brace that closes a group. -/
theorem drop_of_close {n : Nat} (h : b.Ahead ts) (hc : ts[n]? = some c)
    (hclose : c.kind = .groupClose) : b.Ahead (ts.drop (n + 1)) := by
  obtain ⟨front, rfl, hlast⟩ := h
  have hn : n < front.length := by
    by_contra hle
    rw [List.getElem?_append_right (Nat.not_lt.mp hle)] at hc
    exact not_mem_of_close hc hclose
  refine ⟨front.drop (n + 1), List.drop_append_of_le_length hn, fun x hx => hlast x ?_⟩
  rw [List.getLast?_drop] at hx
  split at hx
  · cases hx
  · exact hx

theorem of_suffix (h : b.Ahead tokens) (hsuffix : c :: ts <:+ tokens) (hclose : c.kind = .groupClose) :
    b.Ahead ts := by
  obtain ⟨before, rfl⟩ := hsuffix
  have hc : (before ++ c :: ts)[before.length]? = some c := by
    rw [List.getElem?_append_right (Nat.le_refl _), Nat.sub_self]
    rfl
  have hdrop := h.drop_of_close hc hclose
  rwa [List.drop_append, List.drop_of_length_le (Nat.le_succ _), Nat.succ_sub (Nat.le_refl _),
    Nat.sub_self] at hdrop

/-- A token and the delimiter that it takes. -/
theorem drop_two (h : b.Ahead (t :: ts)) (ht : TakesDelimiter t) : b.Ahead (ts.drop 1) := by
  have hopen : t.kind ≠ .groupOpen := by
    rcases ht with hkind | hkind <;> rw [hkind] <;> nofun
  obtain ⟨front, hfront, hlast⟩ := h
  rcases front with - | ⟨u, - | ⟨d, front⟩⟩
  · obtain ⟨rfl, -⟩ := List.cons.inj hfront
    exact absurd b.opens hopen
  · obtain ⟨rfl, -⟩ := List.cons.inj hfront
    exact absurd ht (hlast _ rfl)
  · obtain ⟨rfl, rfl⟩ := List.cons.inj hfront
    refine ⟨front, rfl, fun x hx => hlast x ?_⟩
    rw [List.getLast?_cons, List.getLast?_cons, Option.mem_def.mp hx]
    rfl

theorem cons_of_digits (h : b.Ahead (t :: ts)) (ht : t.digits?.isSome) (hc : c.digits?.isSome) :
    b.Ahead (c :: ts) := by
  obtain ⟨front, hfront, hlast⟩ := h
  cases front with
  | nil =>
    obtain ⟨rfl, -⟩ := List.cons.inj hfront
    simp [Token.digits?, b.opens] at ht
  | cons u front =>
    obtain ⟨rfl, rfl⟩ := List.cons.inj hfront
    refine ⟨c :: front, rfl, fun x hx => ?_⟩
    rw [List.getLast?_cons] at hx
    cases hlast' : front.getLast? with
    | none =>
      rw [hlast'] at hx
      cases hx
      exact not_takesDelimiter_of_digits? hc
    | some y =>
      rw [hlast'] at hx
      cases hx
      exact hlast y (by rw [List.getLast?_cons, hlast']; rfl)

theorem cutDigit {s : State} (h : b.Ahead s.rest) : b.Ahead s.cutDigit.rest := by
  unfold State.cutDigit
  split
  · exact h
  · next t rest hrest =>
    split
    · exact h
    · next run hrun =>
      rw [hrest] at h
      exact h.cons_of_digits (Option.isSome_of_eq_some hrun) rfl

end Ahead

/-! ### What a program spares -/

variable {α β : Type} {env : Env} {s : State}

/-- From state `s` the program records a diagnostic, or the brace is still to be read behind it. -/
def Spares (b : OpenBrace) (env : Env) (s : State) (m : Parser α) : Prop :=
  Yields env [] (fun _ t => b.Ahead s.rest → b.Ahead t.rest) s m

/-- What is recorded is there in the end. -/
theorem reported_recordHere (cause : Problem.Cause) (text : String) (s : State) :
    Yields env [] (fun _ _ => False) s (recordHere env cause text) := by
  rw [← bind_pure (recordHere env cause text)]
  exact Yields.record (s := s) fun _ => .pure nofun

namespace Spares

variable {m : Parser α}

theorem pure {a : α} : b.Spares env s (Pure.pure a) :=
  Yields.pure id

theorem throw {fault : Fault} : b.Spares env s (throw fault : Parser α) :=
  Yields.throw

theorem advances (h : ∀ s, b.Spares env s m) : Advances env m :=
  fun s hs => (h s hs).mono fun _ _ ht => ⟨ht.1, ht.2.1, fun _ => trivial⟩

/-- What comes behind the brace only by closing its group does not come behind it. -/
theorem of_yields (h : Yields env [] (fun _ t => b.Ahead t.rest) s m) : b.Spares env s m :=
  h.mono fun _ _ ht _ => ht

theorem of_reported (h : Yields env [] (fun _ _ => False) s m) : b.Spares env s m :=
  h.mono fun _ _ => False.elim

theorem get {f : State → Parser β} (h : s.OfSource env → b.Spares env s (f s)) :
    b.Spares env s (MonadState.get >>= f) :=
  Yields.get h

theorem current {f : Token → Parser β}
    (h : env.Has (s.current env) → b.Spares env s (f (s.current env))) :
    b.Spares env s (Parser.current env >>= f) :=
  Yields.current h

theorem atTerminator {f : Bool → Parser β} (h : b.Spares env s (f (s.atTerminator env))) :
    b.Spares env s (Parser.atTerminator env >>= f) :=
  Yields.atTerminator h

theorem ite {c : Prop} [Decidable c] {m' : Parser α} (h : c → b.Spares env s m)
    (h' : ¬c → b.Spares env s m') : b.Spares env s (if c then m else m') :=
  Yields.ite h h'

theorem bind {f : α → Parser β} (h : b.Spares env s m) (hf : ∀ a t, b.Spares env t (f a)) :
    b.Spares env s (m >>= f) :=
  Yields.bind h fun a t => (hf a t).mono fun _ _ hu ht hs => hu (ht hs)

theorem map {f : α → β} (h : b.Spares env s m) : b.Spares env s (f <$> m) :=
  Yields.map h fun _ _ ht => ht

theorem skip {count : Nat} {f : Unit → Parser β} (h : b.Ahead s.rest → b.Ahead (s.rest.drop count))
    (hf : b.Spares env (s.forward count) (f ())) : b.Spares env s (Parser.skip count >>= f) := by
  refine Yields.skip (hf.mono fun _ _ ht hs => ht ?_)
  rw [State.rest_forward]
  exact h hs

theorem skipSpacing {f : Unit → Parser β} (hf : ∀ t, b.Spares env t (f ())) :
    b.Spares env s (Parser.skipSpacing >>= f) := by
  refine Yields.skipSpacing ((hf _).mono fun _ _ ht hs => ht ?_)
  rw [State.rest_forward]
  refine hs.drop fun t ht hopen => ?_
  rw [← List.prefix_iff_eq_take.mp (List.takeWhile_prefix _)] at ht
  have hspacing := List.mem_takeWhile_imp ht
  rw [State.isSpacing, hopen] at hspacing
  cases hspacing

theorem advance {f : Unit → Parser β} (h : (s.current env).kind ≠ .groupOpen)
    (hf : b.Spares env (s.forward 1) (f ())) : b.Spares env s (Parser.advance >>= f) := by
  refine skip (fun hs => ?_) hf
  cases hrest : s.rest with
  | nil =>
    rw [hrest] at hs
    exact absurd hs Ahead.not_nil
  | cons t rest =>
    rw [State.current_of_rest hrest] at h
    rw [hrest] at hs
    exact hs.tail h

theorem cutDigit {f : Unit → Parser β} (hf : b.Spares env s.cutDigit (f ())) :
    b.Spares env s ((modify (·.cutDigit) : Parser Unit) >>= f) :=
  Yields.cutDigit (hf.mono fun _ _ ht hs => ht hs.cutDigit)

theorem record {cause : Problem.Cause} {text : String} {start stop : Nat} {f : Unit → Parser β}
    (hf : ∀ t, b.Spares env t (f ())) :
    b.Spares env s (Parser.record cause text start stop >>= f) :=
  Yields.record fun t => (hf t).mono fun _ _ _ => nofun

theorem recordAt {token : Token} {cause : Problem.Cause} {text : String} {f : Unit → Parser β}
    (hf : ∀ t, b.Spares env t (f ())) :
    b.Spares env s (Parser.recordAt token cause text >>= f) :=
  record hf

theorem recordHere {cause : Problem.Cause} {text : String} {f : Unit → Parser β}
    (hf : ∀ t, b.Spares env t (f ())) :
    b.Spares env s (Parser.recordHere env cause text >>= f) :=
  record (s := s) hf

theorem awaiting {close : String} (h : ∀ t, b.Spares env t m) :
    b.Spares env s (Parser.awaiting close m) :=
  Yields.awaiting (h _) fun _ _ ht => ht

theorem attempt {m : Parser (Option α)} (h : b.Spares env s m) : b.Spares env s (Parser.attempt m) :=
  Yields.attempt h id

theorem orElse {m m' : Parser (Option α)} (h : b.Spares env s m) (h' : ∀ t, b.Spares env t m') :
    b.Spares env s (Parser.orElse m m') :=
  Yields.orElse h fun t => (h' t).mono fun _ _ hu ht hs => hu (ht hs)

theorem attempt_orElse {m m' : Parser (Option α)} (h : b.Spares env s m) (h' : b.Spares env s m') :
    b.Spares env s (Parser.orElse (Parser.attempt m) m') :=
  Yields.attempt_orElse h h'

end Spares

end OpenBrace

end TexFormula.Parser
