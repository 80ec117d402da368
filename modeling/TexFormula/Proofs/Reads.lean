import Mathlib.Order.Filter.AtTopBot.Basic
import TexFormula.Proofs.Nesting
import TexFormula.Proofs.Spelling

/-!
# Reading what has been written

`Reads env inner p follow R P`: where tokens of the language `P` are next, and `follow` holds of
those after them, an expression as loose as `p` starts with an operand that these tokens make up.
The operand and the chain that it ends satisfy `R`; the expression then goes on with the operators
behind it, which is what `LeadsTo` says.
-/

open Filter

namespace TexFormula

/-- What needs one more level of nesting holds from some level on, too. -/
theorem eventually_succ {p q : Nat → Prop} (h : ∀ᶠ n in atTop, p n)
    (hpq : ∀ n, p n → q (n + 1)) : ∀ᶠ n in atTop, q n := by
  obtain ⟨depth, hdepth⟩ := eventually_atTop.mp h
  refine eventually_atTop.mpr ⟨depth + 1, fun n hn => ?_⟩
  obtain ⟨m, rfl⟩ := Nat.exists_eq_add_of_le' (Nat.le_of_add_left_le hn)
  exact hpq m (hdepth m (Nat.le_of_succ_le_succ hn))

/-- One level of nesting further down. -/
theorem eventually_below {p : Nat → Prop} (h : ∀ᶠ n in atTop, p n) :
    ∀ᶠ n in atTop, ∃ below, n = below + 1 ∧ p below :=
  eventually_succ h fun below hbelow => ⟨below, rfl, hbelow⟩

theorem eventually_and_succ {p : Nat → Prop} (h : ∀ᶠ n in atTop, p n) :
    ∀ᶠ n in atTop, p n ∧ p (n + 1) :=
  h.and ((tendsto_add_atTop_nat 1).eventually h)

namespace Parser

variable {env : Env} {inner : Inner} {s s₁ s₂ : State} {loosest p : Precedence}

/-! ### Places in a written text -/

namespace State

/-- Groups are waited for, and nothing else. -/
def Delimited (s : State) : Prop :=
  ∀ closer ∈ s.closers.head?, closer = ")" ∨ closer = "\x7d"

/-- The state with one more closing delimiter to wait for. -/
def await (close : String) (s : State) : State :=
  { s with closers := close :: s.closers }

@[simp] theorem rest_await (close : String) (s : State) : (s.await close).rest = s.rest := rfl

@[simp] theorem await_forward (close : String) (s : State) (n : Nat) :
    (s.await close).forward n = (s.forward n).await close := by
  induction n generalizing s with
  | zero => simp
  | succ n ih =>
    cases h : s.rest with
    | nil => rw [forward_of_rest_nil h, forward_of_rest_nil ((rest_await close s).trans h)]
    | cons t ts =>
      rw [forward_succ h, forward_succ ((rest_await close s).trans h)]
      exact ih { s with seen := t :: s.seen, rest := ts }

theorem Delimited.forward (h : s.Delimited) (n : Nat) : (s.forward n).Delimited := by
  unfold Delimited
  rw [closers_forward]
  exact h

theorem Delimited.await {close : String} (h : close = ")" ∨ close = "\x7d") (s : State) :
    (s.await close).Delimited := by
  intro closer hcloser
  rw [← Option.some.inj hcloser]
  exact h

end State

/-- A token that ends an expression in a written text. -/
def Closing (t : Token) : Prop :=
  t.kind = .groupClose ∨ t.kind = .punct ')'

/-- A kind of token that an expression goes on with. -/
structure Continues (kind : Token.Kind) : Prop where
  visible : ∀ name, kind = .command name → name ∉ State.spacing
  goes_on : State.endsExpression kind = false
  not_closing : ∀ closer, closer = ")" ∨ closer = "\x7d" → kind.trigger? ≠ some closer

/-- A kind of token to which only notations give a meaning. -/
def Free : Token.Kind → Prop
  | .punct c => c ∉ ['(', ')', '[', ']', '\x7b', '\x7d', '&']
  | .command name => name ∉ ["left", "right", "\\"] ∧ name ∉ State.spacing
  | _ => False

instance : DecidablePred Free
  | .punct c => inferInstanceAs (Decidable (c ∉ ['(', ')', '[', ']', '\x7b', '\x7d', '&']))
  | .command name =>
    inferInstanceAs (Decidable (name ∉ ["left", "right", "\\"] ∧ name ∉ State.spacing))
  | .ending => .isFalse id
  | .blank => .isFalse id
  | .comment _ => .isFalse id
  | .loneBackslash => .isFalse id
  | .groupOpen => .isFalse id
  | .groupClose => .isFalse id
  | .optionalOpen => .isFalse id
  | .optionalClose => .isFalse id
  | .digits _ => .isFalse id
  | .letter _ => .isFalse id

theorem eq_of_trigger?_eq {c d : Char} (h : some (String.singleton c) = some (String.singleton d)) :
    c = d := by
  have hlist := congrArg String.toList (Option.some.inj h)
  rw [String.toList_singleton, String.toList_singleton] at hlist
  exact (List.cons.inj hlist).1

theorem Free.continues {kind : Token.Kind} (h : Free kind) : Continues kind := by
  cases kind with
  | punct c =>
    have hne : ∀ d ∈ [')', '\x7d', '&'], c ≠ d := by
      rintro d hd rfl
      exact h (by revert hd; simp; grind)
    refine ⟨nofun, ?_, ?_⟩
    · simp [State.endsExpression, hne ')', hne '&']
    · rintro closer (rfl | rfl) heq
      · exact hne ')' (by simp) (eq_of_trigger?_eq heq)
      · exact hne '\x7d' (by simp) (eq_of_trigger?_eq heq)
  | command name =>
    refine ⟨fun _ hname => by cases hname; exact h.2, ?_, ?_⟩
    · have hright : name ≠ "right" := fun heq => h.1 (by simp [heq])
      have hrow : name ≠ "\\" := fun heq => h.1 (by simp [heq])
      simp [State.endsExpression, hright, hrow]
    · rintro closer hcloser heq
      have hlist := congrArg String.toList (Option.some.inj heq)
      rcases hcloser with rfl | rfl <;> simp at hlist
  | _ => exact h.elim

theorem Free.ne_parenthesis {kind : Token.Kind} (h : Free kind) : kind ≠ .punct '(' := by
  rintro rfl
  exact h (by decide)

theorem Continues.letter {c : Char} (h : Text.isLetter c = true) : Continues (.letter c) := by
  refine ⟨nofun, rfl, ?_⟩
  rintro closer (rfl | rfl) heq
  · rw [eq_of_trigger?_eq (d := ')') heq] at h
    exact absurd h (by decide)
  · rw [eq_of_trigger?_eq (d := '\x7d') heq] at h
    exact absurd h (by decide)

theorem Continues.isSpacing {t : Token} (h : Continues t.kind) : State.isSpacing t = false := by
  unfold State.isSpacing
  split
  · next name hkind =>
    exact Bool.eq_false_of_not_eq_true fun hmem =>
      h.visible name hkind (List.contains_iff_mem.mp hmem)
  · rfl

theorem Closing.isSpacing {t : Token} (h : Closing t) : State.isSpacing t = false := by
  unfold State.isSpacing
  rcases h with h | h <;> rw [h]

section

variable {t : Token} {rest : List Token}

theorem takeWhile_isSpacing (hs : s.rest = t :: rest) (ht : State.isSpacing t = false) :
    (s.rest.takeWhile State.isSpacing).length = 0 := by
  rw [hs, List.takeWhile_cons_of_neg (by rw [ht]; exact Bool.false_ne_true)]
  rfl

theorem Continues.atTerminator (h : Continues t.kind) (hs : s.rest = t :: rest)
    (hclosers : s.Delimited) : s.atTerminator env = false := by
  unfold State.atTerminator
  rw [State.current_of_rest hs]
  dsimp only
  rw [h.goes_on, Bool.false_or]
  split
  · next closer trigger hcloser htrigger =>
    have hne := h.not_closing closer (hclosers closer hcloser)
    rw [show t.kind.trigger? = some trigger from htrigger] at hne
    exact beq_false_of_ne fun heq => hne (congrArg some heq.symm)
  · rfl

theorem Closing.atTerminator (h : Closing t) (hs : s.rest = t :: rest) :
    s.atTerminator env = true := by
  unfold State.atTerminator
  rw [State.current_of_rest hs]
  dsimp only
  rcases h with h | h <;> rw [h] <;> rfl

end

/-- The token is next, and an expression can go on with it. -/
structure Meets (env : Env) (s : State) (t : Token) (rest : List Token) : Prop where
  rest : s.rest = t :: rest
  visible : State.isSpacing t = false
  goes_on : s.atTerminator env = false

theorem Continues.meets {t : Token} {rest : List Token} (h : Continues t.kind) (hs : s.rest = t :: rest)
    (hclosers : s.Delimited) : Meets env s t rest :=
  ⟨hs, h.isSpacing, h.atTerminator hs hclosers⟩

/-! ### Operands -/

section

variable {t : Token} {ts rest : List Token} {o : Operand} {e : Expression}

/-- The shapes and notations that are tried before any unknown token. -/
theorem Meets.runs_operand_of_known (hs : Meets env s t rest)
    (h : Runs (orElse (builtin env inner) (notated env inner)) s (some o) s₁) :
    Runs (operand env inner) s (some o) s₁ := by
  unfold operand
  rw [runs_get, hs.rest, List.length_cons, operandWithin, runs_skipSpacing,
    takeWhile_isSpacing hs.rest hs.visible, State.forward_zero, runs_atTerminator, hs.goes_on]
  exact runs_orElse.mpr (.inl ⟨rfl, h⟩)

theorem runs_operand_of_known (hs : s.rest = t :: rest) (ht : Continues t.kind)
    (hclosers : s.Delimited)
    (h : Runs (orElse (builtin env inner) (notated env inner)) s (some o) s₁) :
    Runs (operand env inner) s (some o) s₁ :=
  (ht.meets hs hclosers).runs_operand_of_known h

theorem runs_operand_of_builtin (hs : s.rest = t :: rest) (ht : Continues t.kind)
    (hclosers : s.Delimited) (h : Runs (builtin env inner) s (some o) s₁) :
    Runs (operand env inner) s (some o) s₁ :=
  runs_operand_of_known hs ht hclosers (runs_orElse.mpr (.inl ⟨rfl, h⟩))

/-- No shape is tried in front of a token to which only notations give a meaning, unless a number
starts there. -/
theorem runs_builtin_of_free (hs : s.rest = t :: rest) (ht : Free t.kind)
    (hnumber : startsNumber (t :: rest) = false) (hsigned : startsNumber rest = false) :
    Runs (builtin env inner) s none s := by
  unfold builtin
  rw [runs_get]
  dsimp only
  rw [State.current_of_rest hs, hs]
  cases hkind : t.kind with
  | punct c =>
    rw [hkind] at ht
    have hopening : (c == '(') = false := beq_false_of_ne fun hc => ht (by simp [hc])
    simp only [hopening, hnumber, List.drop_one, List.tail_cons, hsigned, Bool.and_false,
      Bool.false_eq_true, if_false]
    exact .pure none s
  | command name =>
    rw [hkind] at ht
    have hleft : (name == "left") = false := beq_false_of_ne fun hname => ht.1 (by simp [hname])
    simp only [hleft, Bool.false_eq_true, if_false]
    exact .pure none s
  | _ => rw [hkind] at ht; exact ht.elim

/-- A token with one notation that can start an operand. -/
theorem Meets.runs_operand_notated (hs : Meets env s t rest)
    (hbuiltin : Runs (builtin env inner) s none s) {trigger : String}
    {n : Notation} (htrigger : t.trigger? = some trigger) (hn : env.dictionary.operands trigger = [n])
    (h : Runs (applyNotation env inner n) (s.forward 1) (some o) s₁) :
    Runs (operand env inner) s (some o) s₁ := by
  refine hs.runs_operand_of_known (runs_orElse.mpr (.inr ⟨s, hbuiltin, ?_⟩))
  unfold notated
  rw [runs_current, State.current_of_rest hs.rest, htrigger]
  dsimp only
  rw [hn]
  refine runs_orElse.mpr (.inl ⟨rfl, runs_attempt.mpr (.inr ⟨rfl, ?_⟩)⟩)
  rw [runs_advance]
  exact h

theorem runs_operand_notated (hs : s.rest = t :: rest) (ht : Continues t.kind)
    (hclosers : s.Delimited) (hbuiltin : Runs (builtin env inner) s none s) {trigger : String}
    {n : Notation} (htrigger : t.trigger? = some trigger) (hn : env.dictionary.operands trigger = [n])
    (h : Runs (applyNotation env inner n) (s.forward 1) (some o) s₁) :
    Runs (operand env inner) s (some o) s₁ :=
  (ht.meets hs hclosers).runs_operand_notated hbuiltin htrigger hn h

/-- A letter is a symbol. Whether it can be applied depends on which one it is. -/
theorem disposition_letter {c : Char} (h : Text.isLetter c = true) :
    UnknownTokenPolicy.standard.disposition (String.singleton c) = .symbol ∨
      UnknownTokenPolicy.standard.disposition (String.singleton c) = .function := by
  show UnknownTokenPolicy.standardDisposition _ = _ ∨ UnknownTokenPolicy.standardDisposition _ = _
  unfold UnknownTokenPolicy.standardDisposition
  rw [String.toList_singleton]
  split
  · next hslash =>
    rw [(List.cons.inj hslash).1] at h
    exact absurd h (by decide)
  · exact .inr rfl
  · exact .inr rfl
  · exact .inr rfl
  · exact .inr rfl
  · exact .inl rfl

theorem Meets.runs_operand_of_letter (hs : Meets env s t rest) {c : Char} (ht : t.kind = .letter c)
    (hc : Text.isLetter c = true) (hoptions : env.options.unknownTokens = .standard)
    (hn : env.dictionary.operands (String.singleton c) = [])
    (hoperator : env.dictionary.hasOperator (String.singleton c) = false) :
    Runs (operand env inner) s
      (some ⟨.symbol (String.singleton c),
        UnknownTokenPolicy.standard.disposition (String.singleton c) == .function⟩)
      (s.forward 1) := by
  have htrigger : t.trigger? = some (String.singleton c) := by rw [Token.trigger?, ht]; rfl
  have hknown : Runs (orElse (builtin env inner) (notated env inner)) s none s := by
    refine runs_orElse.mpr (.inr ⟨s, ?_, ?_⟩)
    · unfold builtin
      rw [runs_get]
      dsimp only
      rw [State.current_of_rest hs.rest, ht]
      exact .pure none s
    · unfold notated
      rw [runs_current, State.current_of_rest hs.rest, htrigger]
      dsimp only
      rw [hn]
      exact .pure none s
  have hunknown : Runs (unknown env inner) s
      (some ⟨.symbol (String.singleton c),
        UnknownTokenPolicy.standard.disposition (String.singleton c) == .function⟩)
      (s.forward 1) := by
    unfold unknown
    simp only [runs_current, State.current_of_rest hs.rest, ht, unknownLetter, runs_advance, hoptions]
    rcases disposition_letter hc with hsymbol | hfunction
    · rw [hsymbol]
      exact .pure _ _
    · rw [hfunction]
      exact .pure _ _
  unfold operand
  rw [runs_get, hs.rest, List.length_cons, operandWithin, runs_skipSpacing,
    takeWhile_isSpacing hs.rest hs.visible, State.forward_zero, runs_atTerminator, hs.goes_on]
  refine runs_orElse.mpr (.inr ⟨s, hknown, ?_⟩)
  have hat : Runs (atOperator env) s false s := by
    unfold atOperator
    rw [runs_current, State.current_of_rest hs.rest, htrigger]
    exact runs_pure.mpr ⟨by simp [hoperator], rfl⟩
  exact hat.bind (runs_orElse.mpr (.inl ⟨rfl, hunknown⟩))

theorem runs_operand_of_letter (hs : s.rest = t :: rest) {c : Char} (ht : t.kind = .letter c)
    (hc : Text.isLetter c = true) (hclosers : s.Delimited)
    (hoptions : env.options.unknownTokens = .standard)
    (hn : env.dictionary.operands (String.singleton c) = [])
    (hoperator : env.dictionary.hasOperator (String.singleton c) = false) :
    Runs (operand env inner) s
      (some ⟨.symbol (String.singleton c),
        UnknownTokenPolicy.standard.disposition (String.singleton c) == .function⟩)
      (s.forward 1) :=
  Meets.runs_operand_of_letter (Continues.meets (ht ▸ .letter hc) hs hclosers) ht hc hoptions hn
    hoperator

end

/-! ### Groups -/

section

variable {t opening : Token} {ts rest : List Token} {e : Expression} {n : Nat}

/-- The body of a group, and the token that closes it. -/
theorem runs_groupBody_of_runs {close : String} {closing : Token.Kind} {s₁ : State}
    (h : Runs (inner.expression .loosest) (s.await close) e s₁) (hs₁ : s₁.rest = t :: rest)
    (ht : t.kind = closing) :
    Runs (groupBody env inner close closing) s e
      (State.forward { s₁ with closers := s₁.closers.tail } 1) := by
  unfold groupBody
  have hbody : Runs (awaiting close (inner.expression .loosest)) s e
      { s₁ with closers := s₁.closers.tail } :=
    runs_awaiting.mpr ⟨s₁, h, rfl⟩
  have hthere : State.rest { s₁ with closers := s₁.closers.tail } = t :: rest := hs₁
  refine hbody.bind ?_
  rw [runs_current, State.current_of_rest hthere, ht, beq_self_eq_true, if_pos rfl]
  rw [runs_advance]
  exact .pure e _

theorem runs_groupBody {close : String} {closing : Token.Kind}
    (hs : (s.forward n).rest = t :: rest) (ht : t.kind = closing)
    (h : Runs (inner.expression .loosest) (s.await close) e ((s.await close).forward n)) :
    Runs (groupBody env inner close closing) s e (s.forward (n + 1)) := by
  rw [State.await_forward] at h
  rw [← State.forward_forward]
  exact runs_groupBody_of_runs h hs ht

theorem runs_braceGroup (hs : s.rest = opening :: rest) (hopening : opening.kind = .groupOpen)
    {s₁ : State} (h : Runs (groupBody env inner "\x7d" .groupClose) (s.forward 1) e s₁) :
    Runs (braceGroup env inner) s (some e) s₁ := by
  have hspace : State.isSpacing opening = false := by
    unfold State.isSpacing
    rw [hopening]
  unfold braceGroup
  rw [runs_skipSpacing, takeWhile_isSpacing hs hspace, State.forward_zero, runs_current,
    State.current_of_rest hs, hopening, beq_self_eq_true, if_pos rfl]
  rw [runs_advance]
  exact h.bind (.pure _ _)

theorem runs_argument {command : String} (h : Runs (braceGroup env inner) s (some e) s₁) :
    Runs (argument env inner command) s e s₁ :=
  h.bind (.pure e s₁)

theorem runs_operand_of_parenthesis (hs : s.rest = opening :: rest)
    (hopening : opening.kind = .punct '(') (hclosers : s.Delimited) (he : e.isMissing = false)
    (h : Runs (groupBody env inner ")" (.punct ')')) (s.forward 1) e s₁) :
    Runs (operand env inner) s (some { expression := e }) s₁ := by
  have hgoes : Continues opening.kind := by
    rw [hopening]
    exact ⟨nofun, rfl, by rintro closer (rfl | rfl) <;> decide⟩
  refine runs_operand_of_builtin hs hgoes hclosers ?_
  unfold builtin
  rw [runs_get]
  dsimp only
  rw [State.current_of_rest hs, hopening]
  have hparenthesized : Runs (parenthesized env inner) s { expression := e } s₁ := by
    unfold parenthesized
    rw [runs_advance]
    refine h.bind ?_
    rw [he]
    exact .pure _ _
  exact hparenthesized.bind (.pure _ _)

end

/-! ### Chains -/

/-- From state `s`, the program goes on with the chain behind the operand `o` in state `s₁`. -/
def LeadsTo (env : Env) (inner : Inner) (loosest : Precedence) (m : Parser Expression) (s : State)
    (o : Operand) (chained : Option String) (s₁ : State) : Prop :=
  ∀ e s₂, (∀ fuel, s₁.rest.length ≤ fuel → Runs (chain env inner loosest fuel o chained) s₁ e s₂) →
    Runs m s e s₂

/-- The chain ends where it is, whatever operand it has come to. -/
def Stops (env : Env) (inner : Inner) (loosest : Precedence) (s : State) : Prop :=
  ∀ fuel o chained, Runs (chain env inner loosest fuel o chained) s o.expression s

section

variable {t : Token} {rest : List Token} {o o₁ : Operand} {e : Expression} {m : Parser Expression}
  {chained chained₁ : Option String} {n : Notation} {trigger : String} {fuel : Nat}

theorem LeadsTo.runs (h : LeadsTo env inner loosest m s o chained s₁)
    (hstop : Stops env inner loosest s₁) : Runs m s o.expression s₁ :=
  h _ _ fun fuel _ => hstop fuel o chained

theorem LeadsTo.trans (h : LeadsTo env inner loosest m s o chained s₁)
    (h₁ : ∀ fuel, s₁.rest.length ≤ fuel →
      LeadsTo env inner loosest (chain env inner loosest fuel o chained) s₁ o₁ chained₁ s₂) :
    LeadsTo env inner loosest m s o₁ chained₁ s₂ :=
  fun e s₃ h₂ => h e s₃ fun fuel hfuel => h₁ fuel hfuel e s₃ h₂

theorem leadsTo_of_operand (h : Runs (operand env inner) s (some o) s₁) :
    LeadsTo env inner loosest (expressionAt env inner loosest) s o none s₁ := by
  intro e s₂ hchain
  unfold expressionAt
  refine h.bind ?_
  exact runs_get.mpr (hchain _ (Nat.le_refl _))

theorem stops_of_nil (hs : s.rest = []) : Stops env inner loosest s := by
  intro fuel o chained
  cases fuel with
  | zero => exact .pure _ _
  | succ fuel =>
    unfold chain
    rw [runs_skipSpacing, hs, List.takeWhile_nil, List.length_nil, State.forward_zero,
      runs_atTerminator]
    have hend : s.atTerminator env = true := by
      unfold State.atTerminator
      rw [State.current_of_rest_nil hs]
      rfl
    rw [hend]
    exact .pure _ _

theorem stops_of_atTerminator (hs : s.rest = t :: rest) (hvisible : State.isSpacing t = false)
    (hend : s.atTerminator env = true) : Stops env inner loosest s := by
  intro fuel o chained
  cases fuel with
  | zero => exact .pure _ _
  | succ fuel =>
    unfold chain
    rw [runs_skipSpacing, takeWhile_isSpacing hs hvisible, State.forward_zero, runs_atTerminator, hend]
    exact .pure _ _

theorem stops_of_closing (hs : s.rest = t :: rest) (ht : Closing t) :
    Stops env inner loosest s :=
  stops_of_atTerminator hs ht.isSpacing (ht.atTerminator hs)

/-- What the chain does at a token that it can go on with. -/
theorem Meets.runs_chain (hs : Meets env s t rest) (hcall : o.callable = true → t.kind ≠ .punct '(')
    (htrigger : t.trigger? = some trigger) (hoperator : env.dictionary.hasOperator trigger = true)
    (h : Runs (firstOperator env inner o.expression chained (candidates env trigger loosest) >>=
      fun
        | some (e, n) => chain env inner loosest fuel ⟨e, false⟩ (chainName? n)
        | none => return o.expression) s e s₁) :
    Runs (chain env inner loosest (fuel + 1) o chained) s e s₁ := by
  unfold chain
  rw [runs_skipSpacing, takeWhile_isSpacing hs.rest hs.visible, State.forward_zero,
    runs_atTerminator, hs.goes_on]
  simp only [Bool.false_eq_true, if_false]
  rw [runs_current, State.current_of_rest hs.rest]
  have happly : (o.callable && t.isPunct '(') = false := by
    cases hcallable : o.callable with
    | false => rfl
    | true => exact beq_false_of_ne (hcall hcallable)
  rw [happly, htrigger, Option.filter_some, if_pos hoperator]
  exact h

theorem hasOperator_of_operators_eq (hn : env.dictionary.operators trigger = [n]) :
    env.dictionary.hasOperator trigger = true := by
  unfold Dictionary.hasOperator
  rw [hn]
  rfl

/-- The chain ends in front of operators that bind too loosely. -/
theorem Meets.runs_chain_of_loose (hs : Meets env s t rest)
    (hcall : o.callable = true → t.kind ≠ .punct '(') (htrigger : t.trigger? = some trigger)
    (hn : env.dictionary.operators trigger = [n]) (hloose : ¬ loosest ≤ n.precedence) (fuel : Nat) :
    Runs (chain env inner loosest fuel o chained) s o.expression s := by
  cases fuel with
  | zero => exact .pure _ _
  | succ fuel =>
    refine hs.runs_chain hcall htrigger (hasOperator_of_operators_eq hn) ?_
    unfold candidates
    rw [hn, List.filter_cons_of_neg (by simpa using hloose), List.filter_nil]
    exact .pure _ _

theorem Meets.stops_of_loose (hs : Meets env s t rest) (hparenthesis : t.kind ≠ .punct '(')
    (htrigger : t.trigger? = some trigger) (hn : env.dictionary.operators trigger = [n])
    (hloose : ¬ loosest ≤ n.precedence) : Stops env inner loosest s :=
  fun fuel _ _ => hs.runs_chain_of_loose (fun _ => hparenthesis) htrigger hn hloose fuel

theorem stops_of_loose (hs : s.rest = t :: rest) (ht : Continues t.kind)
    (hparenthesis : t.kind ≠ .punct '(') (hclosers : s.Delimited)
    (htrigger : t.trigger? = some trigger) (hn : env.dictionary.operators trigger = [n])
    (hloose : ¬ loosest ≤ n.precedence) : Stops env inner loosest s :=
  (ht.meets hs hclosers).stops_of_loose hparenthesis htrigger hn hloose

/-- The chain goes on with an operator. -/
theorem Meets.leadsTo_of_operator (hs : Meets env s t rest)
    (hcall : o.callable = true → t.kind ≠ .punct '(')
    (htrigger : t.trigger? = some trigger) (hn : env.dictionary.operators trigger = [n])
    (htight : loosest ≤ n.precedence)
    (h : Runs (applyOperator env inner n o.expression chained) (s.forward 1) (some e) s₁)
    (hle : s₁.rest.length ≤ rest.length) (hfuel : s.rest.length ≤ fuel) :
    LeadsTo env inner loosest (chain env inner loosest fuel o chained) s ⟨e, false⟩
      (chainName? n) s₁ := by
  intro e' s₂ hchain
  rw [hs.rest, List.length_cons] at hfuel
  obtain ⟨fuel, rfl⟩ := Nat.exists_eq_add_of_le' (Nat.le_of_add_left_le hfuel)
  refine hs.runs_chain hcall htrigger (hasOperator_of_operators_eq hn) ?_
  unfold candidates
  rw [hn, List.filter_cons_of_pos (by simpa using htight), List.filter_nil]
  have hfirst : Runs (firstOperator env inner o.expression chained [n]) s (some (e, n)) s₁ := by
    refine runs_orElse.mpr (.inl ⟨rfl, runs_attempt.mpr (.inr ⟨rfl, ?_⟩)⟩)
    rw [runs_advance]
    exact h.bind (.pure _ _)
  exact hfirst.bind (hchain fuel (by omega))

theorem leadsTo_of_operator (hs : s.rest = t :: rest) (ht : Continues t.kind)
    (hparenthesis : t.kind ≠ .punct '(') (hclosers : s.Delimited)
    (htrigger : t.trigger? = some trigger) (hn : env.dictionary.operators trigger = [n])
    (htight : loosest ≤ n.precedence)
    (h : Runs (applyOperator env inner n o.expression chained) (s.forward 1) (some e) s₁)
    (hle : s₁.rest.length ≤ rest.length) (hfuel : s.rest.length ≤ fuel) :
    LeadsTo env inner loosest (chain env inner loosest fuel o chained) s ⟨e, false⟩
      (chainName? n) s₁ :=
  (ht.meets hs hclosers).leadsTo_of_operator (fun _ => hparenthesis) htrigger hn htight h hle hfuel

/-- An infix operator without a hook, and the expression on its right. -/
theorem runs_applyOperator_of_infixOp {variadic : Bool} (hreader : n.reader = none)
    (hkind : n.kind = .infixOp variadic)
    (hright : Runs (inner.expression (rightPrecedence n)) s e s₁) (he : e.isMissing = false)
    (lhs : Expression) (chained : Option String) :
    Runs (applyOperator env inner n lhs chained) s
      (some (extend n.name (variadic && chained == some n.name) lhs e)) s₁ := by
  unfold applyOperator
  rw [hreader, hkind]
  refine hright.bind ?_
  rw [he]
  exact .pure _ _

/-- The chain goes on with an infix operator and the expression behind it. -/
theorem Meets.leadsTo_of_infixOp {outer : Inner} {variadic : Bool} (hs : Meets env s t rest)
    (hcall : o.callable = true → t.kind ≠ .punct '(') (htrigger : t.trigger? = some trigger)
    (hn : env.dictionary.operators trigger = [n]) (hreader : n.reader = none)
    (hkind : n.kind = .infixOp variadic) (htight : loosest ≤ n.precedence)
    (hright : Runs (outer.expression (rightPrecedence n)) (s.forward 1) e s₁)
    (he : e.isMissing = false) (hle : s₁.rest.length ≤ rest.length) (hfuel : s.rest.length ≤ fuel) :
    LeadsTo env outer loosest (chain env outer loosest fuel o chained) s
      ⟨extend n.name (variadic && chained == some n.name) o.expression e, false⟩ (chainName? n) s₁ :=
  hs.leadsTo_of_operator hcall htrigger hn htight
    (runs_applyOperator_of_infixOp hreader hkind hright he o.expression chained) hle hfuel

theorem chainName?_of_variadic (hkind : n.kind = .infixOp true) : chainName? n = some n.name := by
  rw [chainName?, Notation.isVariadic, hkind]
  rfl

/-- The chain goes on with an operator for any number of operands. -/
theorem Meets.leadsTo_of_variadic {outer : Inner} (hs : Meets env s t rest)
    (hparenthesis : t.kind ≠ .punct '(') (htrigger : t.trigger? = some trigger)
    (hn : env.dictionary.operators trigger = [n]) (hreader : n.reader = none)
    (hkind : n.kind = .infixOp true) (htight : loosest ≤ n.precedence)
    (hright : Runs (outer.expression (rightPrecedence n)) (s.forward 1) e s₁)
    (he : e.isMissing = false) (hle : s₁.rest.length ≤ rest.length) (hfuel : s.rest.length ≤ fuel) :
    LeadsTo env outer loosest (chain env outer loosest fuel o chained) s
      ⟨extend n.name (chained == some n.name) o.expression e, false⟩ (some n.name) s₁ := by
  have hleads : LeadsTo env outer loosest (chain env outer loosest fuel o chained) s
      ⟨extend n.name (true && chained == some n.name) o.expression e, false⟩ (chainName? n) s₁ :=
    hs.leadsTo_of_infixOp (fun _ => hparenthesis) htrigger hn hreader hkind htight hright he hle hfuel
  rwa [chainName?_of_variadic hkind, Bool.true_and] at hleads

end

/-! ### Reading a language -/

/-- What is known of the states in which a written text is read. -/
structure Context where
  holds : State → Prop
  delimited : ∀ {s : State}, holds s → s.Delimited
  forward : ∀ {s : State} (n : Nat), holds s → holds (s.forward n)
  await : ∀ {s : State} {close : String}, close = ")" ∨ close = "\x7d" → holds s →
    holds (s.await close)

/-- Expressions as loose as `p` can start with the tokens of the language. -/
def Reads (env : Env) (inner : Inner) (ctx : Context) (p : Precedence)
    (follow : List Token → Prop) (R : Operand → Option String → Prop) (P : Language Token) : Prop :=
  ∀ ts ∈ P, ∀ (after : List Token) (s : State) (loosest : Precedence), s.rest = ts ++ after →
    ctx.holds s → loosest ≤ p → follow after →
    ∃ o chained, R o chained ∧
      LeadsTo env inner loosest (expressionAt env inner loosest) s o chained (s.forward ts.length)

namespace Reads

variable {ctx : Context} {outer : Inner} {follow follow' : List Token → Prop}
  {R R' : Operand → Option String → Prop} {P : Language Token} {ts after : List Token}
  {t : Token} {q : Precedence}

theorem mono (h : Reads env inner ctx p follow R P) (hp : q ≤ p)
    (hfollow : ∀ after, follow' after → follow after) (hR : ∀ o chained, R o chained → R' o chained) :
    Reads env inner ctx q follow' R' P := by
  intro ts hts after s loosest hs hctx hloosest hafter
  obtain ⟨o, chained, hout, hleads⟩ := h ts hts after s loosest hs hctx
    (Nat.le_trans hloosest hp) (hfollow after hafter)
  exact ⟨o, chained, hR o chained hout, hleads⟩

/-- The whole expression, if the chain stops behind the tokens. -/
theorem runs (h : Reads env inner ctx p follow R P) (hts : ts ∈ P) (hs : s.rest = ts ++ after)
    (hctx : ctx.holds s) (hp : loosest ≤ p) (hafter : follow after)
    (hstop : Stops env inner loosest (s.forward ts.length)) :
    ∃ o chained, R o chained ∧
      Runs (expressionAt env inner loosest) s o.expression (s.forward ts.length) := by
  obtain ⟨o, chained, hout, hleads⟩ := h ts hts after s loosest hs hctx hp hafter
  exact ⟨o, chained, hout, hleads.runs hstop⟩

/-- The body of a group. -/
theorem runs_groupBody (h : Reads env inner ctx p follow R P)
    (houter : outer.expression .loosest = expressionAt env inner .loosest) (hts : ts ∈ P)
    (hs : s.rest = ts ++ t :: after) (hctx : ctx.holds s) (hafter : follow (t :: after))
    {close : String} (hclose : close = ")" ∨ close = "\x7d") (ht : Closing t) :
    ∃ o chained, R o chained ∧
      Runs (groupBody env outer close t.kind) s o.expression (s.forward (ts.length + 1)) := by
  have hrest : (s.forward ts.length).rest = t :: after := by
    rw [State.rest_forward, hs, List.drop_left]
  have hstop : Stops env inner .loosest ((s.await close).forward ts.length) := by
    have hthere : ((s.await close).forward ts.length).rest = t :: after := by
      rw [State.await_forward, State.rest_await, hrest]
    exact stops_of_closing hthere ht
  obtain ⟨o, chained, hout, hruns⟩ := h.runs hts ((State.rest_await close s).trans hs)
    (ctx.await hclose hctx) (Nat.zero_le _) hafter hstop
  exact ⟨o, chained, hout, Parser.runs_groupBody hrest rfl (houter ▸ hruns)⟩

end Reads

theorem mem_one_iff {kind : Token.Kind} {ts : List Token} :
    ts ∈ Token.one kind ↔ ∃ t : Token, ts = [t] ∧ t.kind = kind := Iff.rfl

/-- Tokens between an opening and a closing one. -/
theorem mem_enclosed_iff {opening closing : Token.Kind} {P : Language Token} {us : List Token} :
    us ∈ Token.one opening * (P * Token.one closing) ↔
      ∃ t ts u, us = t :: (ts ++ [u]) ∧ t.kind = opening ∧ ts ∈ P ∧ u.kind = closing := by
  simp only [Language.mem_mul, mem_one_iff]
  constructor
  · rintro ⟨_, ⟨t, rfl, ht⟩, _, ⟨ts, hts, _, ⟨u, rfl, hu⟩, rfl⟩, rfl⟩
    exact ⟨t, ts, u, rfl, ht, hts, hu⟩
  · rintro ⟨t, ts, u, rfl, ht, hts, hu⟩
    exact ⟨[t], ⟨t, rfl, ht⟩, ts ++ [u], ⟨ts, hts, [u], ⟨u, rfl, hu⟩, rfl⟩, rfl⟩

/-- Parentheses make one operand of an expression, and end its chain. -/
theorem Reads.parenthesized {ctx : Context} {outer : Inner} {follow follow' : List Token → Prop}
    {R : Operand → Option String → Prop} {P : Language Token} {q : Precedence}
    (h : Reads env inner ctx p follow R P)
    (houter : outer.expression .loosest = expressionAt env inner .loosest)
    (hfollow : ∀ t after, Closing t → follow (t :: after))
    (hR : ∀ o chained, R o chained → o.expression.isMissing = false) :
    Reads env outer ctx q follow'
      (fun o chained => ∃ o' chained', R o' chained' ∧ o = { expression := o'.expression } ∧
        chained = none)
      (Token.one (.punct '(') * (P * Token.one (.punct ')'))) := by
  intro us hus after s loosest hs hctx _ _
  obtain ⟨t, ts, u, rfl, ht, hts, hu⟩ := mem_enclosed_iff.mp hus
  have hrest : s.rest = t :: (ts ++ u :: after) := by
    rw [hs, List.cons_append, List.append_assoc]
    rfl
  have hinside : (s.forward 1).rest = ts ++ u :: after := by
    rw [State.rest_forward, hrest]
    rfl
  have hclosing : Closing u := .inr hu
  obtain ⟨o, chained, hout, hruns⟩ := h.runs_groupBody houter hts hinside (ctx.forward 1 hctx)
    (hfollow u after hclosing) (.inl rfl) hclosing
  rw [hu] at hruns
  refine ⟨{ expression := o.expression }, none, ⟨o, chained, hout, rfl, rfl⟩, ?_⟩
  have hoperand := runs_operand_of_parenthesis hrest ht (ctx.delimited hctx) (hR o chained hout) hruns
  rw [State.forward_forward] at hoperand
  have hlength : (t :: (ts ++ [u])).length = 1 + (ts.length + 1) := by
    rw [List.length_cons, List.length_append, List.length_singleton, Nat.add_comm]
  rw [hlength]
  exact leadsTo_of_operand hoperand

/-- An expression goes on with an operator and what belongs to it. -/
theorem Reads.operator_of_le {ctx : Context} {follow follow' : List Token → Prop}
    {R R' : Operand → Option String → Prop} {P Q : Language Token} {kind : Token.Kind}
    {trigger : String} {n : Notation} {q : Precedence} (h : Reads env inner ctx p follow R P)
    (hfree : Free kind)
    (htrigger : kind.trigger? = some trigger) (hn : env.dictionary.operators trigger = [n])
    (hp : q ≤ p) (hq : q ≤ n.precedence)
    (hfollow : ∀ (t : Token) us after, us ∈ Q → t.kind = kind → follow' after →
      follow (t :: (us ++ after)))
    (happly : ∀ us ∈ Q, ∀ (after : List Token) (s : State) o chained, s.rest = us ++ after →
      ctx.holds s → follow' after → R o chained →
      ∃ e, R' ⟨e, false⟩ (chainName? n) ∧
        Runs (applyOperator env inner n o.expression chained) s (some e) (s.forward us.length)) :
    Reads env inner ctx q follow' R' (P * (Token.one kind * Q)) := by
  intro ws hws after s loosest hs hctx hloosest hafter
  obtain ⟨ts, hts, vs, hvs, rfl⟩ := Language.mem_mul.mp hws
  obtain ⟨_, ⟨t, rfl, rfl⟩, us, hus, rfl⟩ := Language.mem_mul.mp hvs
  have hs' : s.rest = ts ++ t :: (us ++ after) := by
    rw [hs, List.append_assoc]
    rfl
  obtain ⟨o, chained, hout, hleads⟩ := h ts hts _ s loosest hs' hctx (Nat.le_trans hloosest hp)
    (hfollow t us after hus rfl hafter)
  have hrest : (s.forward ts.length).rest = t :: (us ++ after) := by
    rw [State.rest_forward, hs', List.drop_left]
  have hinside : ((s.forward ts.length).forward 1).rest = us ++ after := by
    rw [State.rest_forward, hrest]
    rfl
  have hthere : ctx.holds (s.forward ts.length) := ctx.forward _ hctx
  obtain ⟨e, hR, hruns⟩ := happly us hus after _ o chained hinside (ctx.forward 1 hthere) hafter hout
  refine ⟨⟨e, false⟩, chainName? n, hR, hleads.trans fun fuel hfuel => ?_⟩
  have hlength : (ts ++ ([t] ++ us)).length = ts.length + (1 + us.length) := by
    rw [List.length_append, List.length_append, List.length_singleton]
  have hle : (((s.forward ts.length).forward 1).forward us.length).rest.length ≤
      (us ++ after).length := by
    rw [State.rest_forward, hinside]
    simp
  have hstep := leadsTo_of_operator hrest hfree.continues hfree.ne_parenthesis
    (ctx.delimited hthere) htrigger hn (Nat.le_trans hloosest hq) hruns hle hfuel
  rw [State.forward_forward, State.forward_forward] at hstep
  rw [hlength]
  exact hstep

theorem Reads.operator {ctx : Context} {follow follow' : List Token → Prop}
    {R R' : Operand → Option String → Prop} {P Q : Language Token} {kind : Token.Kind}
    {trigger : String} {n : Notation} (h : Reads env inner ctx p follow R P) (hfree : Free kind)
    (htrigger : kind.trigger? = some trigger) (hn : env.dictionary.operators trigger = [n])
    (hp : n.precedence ≤ p)
    (hfollow : ∀ (t : Token) us after, us ∈ Q → t.kind = kind → follow' after →
      follow (t :: (us ++ after)))
    (happly : ∀ us ∈ Q, ∀ (after : List Token) (s : State) o chained, s.rest = us ++ after →
      ctx.holds s → follow' after → R o chained →
      ∃ e, R' ⟨e, false⟩ (chainName? n) ∧
        Runs (applyOperator env inner n o.expression chained) s (some e) (s.forward us.length)) :
    Reads env inner ctx n.precedence follow' R' (P * (Token.one kind * Q)) :=
  h.operator_of_le hfree htrigger hn hp (Nat.le_refl _) hfollow happly

/-- The argument of a command, in braces. -/
theorem Reads.runs_argument {ctx : Context} {outer : Inner} {follow : List Token → Prop}
    {R : Operand → Option String → Prop} {P : Language Token} (h : Reads env inner ctx p follow R P)
    (houter : outer.expression .loosest = expressionAt env inner .loosest)
    (hfollow : ∀ t after, Closing t → follow (t :: after)) {us after : List Token}
    (hus : us ∈ Token.one .groupOpen * (P * Token.one .groupClose)) (hs : s.rest = us ++ after)
    (hctx : ctx.holds s) (command : String) :
    ∃ o chained, R o chained ∧
      Runs (argument env outer command) s o.expression (s.forward us.length) := by
  obtain ⟨t, ts, u, rfl, ht, hts, hu⟩ := mem_enclosed_iff.mp hus
  have hrest : s.rest = t :: (ts ++ u :: after) := by
    rw [hs, List.cons_append, List.append_assoc]
    rfl
  have hinside : (s.forward 1).rest = ts ++ u :: after := by
    rw [State.rest_forward, hrest]
    rfl
  have hclosing : Closing u := .inl hu
  obtain ⟨o, chained, hout, hruns⟩ := h.runs_groupBody houter hts hinside (ctx.forward 1 hctx)
    (hfollow u after hclosing) (.inr rfl) hclosing
  rw [hu, State.forward_forward] at hruns
  have hlength : (t :: (ts ++ [u])).length = 1 + (ts.length + 1) := by
    rw [List.length_cons, List.length_append, List.length_singleton, Nat.add_comm]
  rw [hlength]
  exact ⟨o, chained, hout, Parser.runs_argument (runs_braceGroup hrest ht hruns)⟩

/-! ### The whole source -/

/-- One expression that takes up the whole source is what is parsed. -/
theorem parse_eq_of_runs_expression {source : String} {d : Dictionary} {options : ParseOptions}
    {levels : Nat} {e : Expression} (hdepth : options.maxDepth = levels + 1)
    (he : e.isMissing = false)
    (h : Runs (expressionAt ⟨source, d, options⟩ (nested ⟨source, d, options⟩ levels) .loosest)
      (.ofSource source) e s) (hend : s.rest = []) :
    parse d options source = .ok ⟨e, s.diagnostics.reverse⟩ := by
  let env : Env := ⟨source, d, options⟩
  have hparts : Runs (parts env (nested env options.maxDepth)
      ((Token.meaningful source).length + 1)) (.ofSource source) [e] s := by
    unfold parts
    rw [hdepth]
    refine Runs.bind h ?_
    rw [he, runs_get, hend]
    exact .pure _ _
  rw [parse_eq_of_runs_rootNested (hparts.bind (.pure (assemble [e]) _))]
  rfl

theorem parse_eq_of_runs {source : String} {d : Dictionary} {options : ParseOptions} {levels : Nat}
    {e : Expression} (hdepth : options.maxDepth = levels + 1) (he : e.isMissing = false)
    (h : Runs (expressionAt ⟨source, d, options⟩ (nested ⟨source, d, options⟩ levels) .loosest)
      (.ofSource source) e ((State.ofSource source).forward (Token.meaningful source).length)) :
    parse d options source = .ok ⟨e, []⟩ := by
  have hend : ((State.ofSource source).forward (Token.meaningful source).length).rest = [] := by
    rw [State.rest_forward]
    exact List.drop_length
  rw [parse_eq_of_runs_expression hdepth he h hend, State.diagnostics_forward]
  rfl

/-- A text whose tokens are read as one operand with the operators behind it is parsed as that. -/
theorem Reads.exists_parse_eq {ctx : Context} {follow : List Token → Prop}
    {R : Operand → Option String → Prop} {P : Language Token} {text : String} {d : Dictionary}
    {options : ParseOptions} {levels : Nat}
    (h : Reads ⟨text, d, options⟩ (nested ⟨text, d, options⟩ levels) ctx p follow R P)
    (hspells : Spells text.toList P) (hctx : ctx.holds (.ofSource text)) (hafter : follow [])
    (hdepth : options.maxDepth = levels + 1)
    (hR : ∀ o chained, R o chained → o.expression.isMissing = false) :
    ∃ o chained, R o chained ∧ parse d options text = .ok ⟨o.expression, []⟩ := by
  have hrest : (State.ofSource text).rest = Token.meaningful text ++ [] := (List.append_nil _).symm
  have hend : ((State.ofSource text).forward (Token.meaningful text).length).rest = [] := by
    rw [State.rest_forward, hrest, List.append_nil, List.drop_length]
  have hloosest : Precedence.loosest ≤ p := Nat.zero_le _
  obtain ⟨o, chained, ho, hruns⟩ := h.runs hspells.laid_mem hrest hctx hloosest hafter
    (stops_of_nil hend)
  exact ⟨o, chained, ho, parse_eq_of_runs hdepth (hR o chained ho) hruns⟩

end Parser

end TexFormula
