import TexFormula.Proofs.OperatorTable

/-!
# Operators are read as they were written

The parentheses that the serializer sets are those that the parser needs: over any table of
operators, an expression is written as a text that reads as the same expression
(`parse_of_over`).

`Written R p edge text` is what is kept for every piece of a text: it reads as an operand that
satisfies `R` wherever operators as loose as `p` are accepted, if the operator behind it, if there is
one, binds more loosely than `edge`. There is one lemma for each way in which pieces are put together.
-/

open Filter TexFormula.Parser

namespace TexFormula

/-! ### Texts without digits -/

/-- The states in a text without digits. -/
def digitless : Context where
  holds s := s.Delimited ∧ ∀ t ∈ s.rest, t.digits? = none
  delimited h := h.1
  forward n h := ⟨h.1.forward n, fun t ht =>
    h.2 t (List.mem_of_mem_drop (State.rest_forward _ n ▸ ht))⟩
  await hclose h := ⟨.await hclose _, h.2⟩

theorem startsNumber_eq_false {ts : List Token} (h : ∀ t ∈ ts, t.digits? = none) :
    startsNumber ts = false := by
  cases ts with
  | nil => rfl
  | cons t ts =>
    rw [startsNumber, h t List.mem_cons_self]
    cases ts with
    | nil => simp
    | cons u ts => simp [h u (List.mem_cons_of_mem _ List.mem_cons_self)]

/-- No token of the language is a digit run. -/
def Digitless (P : Language Token) : Prop :=
  ∀ ts ∈ P, ∀ t ∈ ts, t.digits? = none

theorem Digitless.one {kind : Token.Kind} (h : ∀ run, kind ≠ .digits run) :
    Digitless (Token.one kind) := by
  rintro _ ⟨t, rfl, rfl⟩ u hu
  rw [List.mem_singleton.mp hu]
  unfold Token.digits?
  split
  · next run hrun => exact absurd hrun (h run)
  · rfl

theorem Digitless.of_free {kind : Token.Kind} (h : Free kind) : Digitless (Token.one kind) :=
  .one fun _ hrun => (hrun ▸ h).elim

theorem Digitless.mul {P Q : Language Token} (hP : Digitless P) (hQ : Digitless Q) :
    Digitless (P * Q) := by
  intro ts hts
  obtain ⟨us, hus, vs, hvs, rfl⟩ := Language.mem_mul.mp hts
  exact List.forall_mem_append.mpr ⟨hP us hus, hQ vs hvs⟩

theorem Digitless.enclosed {P : Language Token} (h : Digitless P) {opening closing : Token.Kind}
    (hopening : ∀ run, opening ≠ .digits run) (hclosing : ∀ run, closing ≠ .digits run) :
    Digitless (Token.one opening * (P * Token.one closing)) :=
  (Digitless.one hopening).mul (h.mul (.one hclosing))

/-! ### Pieces of a text -/

variable {entries : List Notation} {n : Notation} {a e : Expression} {p edge q : Precedence}
  {text : String} {R R' : Operand → Option String → Prop}

/-- What follows a piece of a text does not take part in it: a token that closes a group, or an
operator that binds more loosely than `edge`. -/
def Follows (entries : List Notation) (edge : Precedence) (after : List Token) : Prop :=
  ∀ t ∈ after.head?, Closing t ∨
    ∃ n ∈ entries, n.followsOperand = true ∧ Free t.kind ∧ n.trigger = t.trigger? ∧
      n.precedence < edge

/-- The operand is the expression, and can only be a chain of its own head. -/
def IsOf (e : Expression) (o : Operand) (chained : Option String) : Prop :=
  o.expression = e ∧ ∀ name ∈ chained, e.headName? = some name

/-- The text starts with something else than a digit. -/
def Opens (text : String) : Prop :=
  ∃ c cs, text.toList = c :: cs ∧ c.isDigit = false

structure Written (entries : List Notation) (R : Operand → Option String → Prop)
    (p edge : Precedence) (text : String) : Prop where
  opens : Opens text
  reads : ∃ P, Spells text.toList P ∧ Digitless P ∧ ∀ᶠ levels in atTop, ∀ env : Env,
    env.dictionary = ⟨entries, []⟩ → env.options.unknownTokens = .standard →
    Reads env (nested env levels) digitless p (Follows entries edge) R P

theorem Follows.stops (ht : OperatorTable entries) {env : Env}
    (hd : env.dictionary = ⟨entries, []⟩) {inner : Inner} {s : State}
    (h : Follows entries edge s.rest) (hs : digitless.holds s) {loosest : Precedence}
    (hle : edge ≤ loosest) : Stops env inner loosest s := by
  cases hrest : s.rest with
  | nil => exact stops_of_nil hrest
  | cons t rest =>
    rcases h t (by rw [hrest]; rfl) with hclosing | ⟨n, hn, hfollows, hfree, htrigger, hloose⟩
    · exact stops_of_closing hrest hclosing
    · obtain ⟨kind, -, -, -, hglyph⟩ := ht.mark_glyph hn
      refine stops_of_loose hrest hfree.continues hfree.ne_parenthesis (digitless.delimited hs)
        (htrigger.symm.trans hglyph) ?_ (Nat.not_le_of_lt (Nat.lt_of_lt_of_le hloose hle))
      rw [hd]
      exact ht.operators_eq hn hglyph hfollows

theorem Follows.mono {after : List Token} (h : Follows entries edge after) {edge' : Precedence}
    (hle : edge ≤ edge') : Follows entries edge' after := by
  intro t ht
  rcases h t ht with hclosing | ⟨n, hn, hfollows, hfree, htrigger, hloose⟩
  · exact .inl hclosing
  · exact .inr ⟨n, hn, hfollows, hfree, htrigger, Nat.lt_of_lt_of_le hloose hle⟩

theorem Follows.of_closing {t : Token} (ht : Closing t) (after : List Token) :
    Follows entries edge (t :: after) := by
  intro u hu
  rw [← Option.some.inj hu]
  exact .inl ht

theorem Opens.join {left right : String} (h : Opens left) : Opens (Text.join left right) := by
  obtain ⟨c, cs, hleft, hdigit⟩ := h
  unfold Text.join
  split
  · exact ⟨c, cs ++ " ".toList ++ right.toList, by simp [hleft], hdigit⟩
  · exact ⟨c, cs ++ right.toList, by simp [hleft], hdigit⟩

theorem Opens.of_mark {kind : Token.Kind} (h : Lexeme.Mark text.toList kind) : Opens text := by
  obtain ⟨c, cs, htext, -, hdigit⟩ := h.opens
  exact ⟨c, cs, htext, hdigit⟩

/-- Two pieces side by side, the second of which starts with no digit. -/
theorem Opens.spells_join {left right : String} {P Q : Language Token} (h : Opens right)
    (hl : Spells left.toList P) (hr : Spells right.toList Q) :
    Spells (Text.join left right).toList (P * Q) := by
  obtain ⟨c, cs, hright, hdigit⟩ := h
  refine hl.join hr (by rw [hright]; exact List.cons_ne_nil c cs) ?_
  rw [hright]
  intro hc
  rw [show (c :: cs).head?.any Char.isDigit = c.isDigit from rfl, hdigit] at hc
  cases hc

namespace Written

theorem mono (h : Written entries R p edge text) (hp : q ≤ p) {edge' : Precedence}
    (hedge : edge' ≤ edge) (hR : ∀ o chained, R o chained → R' o chained) :
    Written entries R' q edge' text := by
  obtain ⟨P, hspells, hdigits, hreads⟩ := h.reads
  refine ⟨h.opens, P, hspells, hdigits, hreads.mono fun levels hlevels env hd hoptions => ?_⟩
  exact (hlevels env hd hoptions).mono hp (fun _ hafter => hafter.mono hedge) hR

theorem letter (ht : OperatorTable entries) {c : Char} (hc : Text.isLetter c = true) :
    Written entries (IsOf (.symbol (String.singleton c))) .atomic .atomic (String.singleton c) := by
  refine ⟨⟨c, [], String.toList_singleton c, Text.isDigit_of_isLetter hc⟩, Token.one (.letter c),
    ?_, .one nofun, .of_forall fun levels env hd hoptions => ?_⟩
  · rw [String.toList_singleton]
    exact .letter hc
  · rintro _ ⟨t, rfl, hkind⟩ after s loosest hs hctx - -
    have hat : env.dictionary.readAt (String.singleton c) = [] := by
      rw [hd]
      exact ht.readAt_letter hc
    have hoperators : env.dictionary.hasOperator (String.singleton c) = false := by
      rw [Dictionary.hasOperator, Dictionary.operators, hat]
      rfl
    have hoperands : env.dictionary.operands (String.singleton c) = [] := by
      rw [Dictionary.operands, hat]
      rfl
    refine ⟨_, none, ?_, leadsTo_of_operand (runs_operand_of_letter hs hkind hc hctx.1 hoptions
      hoperands hoperators)⟩
    exact ⟨rfl, fun _ hname => absurd hname (Option.not_mem_none _)⟩

theorem parenthesized (h : Written entries (IsOf e) p edge text) (he : e.isMissing = false) :
    Written entries (IsOf e) .atomic .atomic (Text.parenthesized text) := by
  obtain ⟨P, hspells, hdigits, hreads⟩ := h.reads
  have hopens : (Text.parenthesized text).toList = '(' :: (text.toList ++ [')']) := by
    simp [Text.parenthesized, String.toList_append]
  refine ⟨⟨'(', _, hopens, rfl⟩, _, hspells.parenthesized, hdigits.enclosed (by simp) (by simp),
    eventually_succ hreads fun levels hlevels env hd hoptions => ?_⟩
  have hinside := hlevels env hd hoptions
  refine (hinside.parenthesized rfl (fun _ after ht => .of_closing ht after) ?_).mono
    (Nat.le_refl _) (fun _ h => h) ?_
  · rintro o chained ⟨rfl, -⟩
    exact he
  · rintro _ _ ⟨o, _, ⟨rfl, -⟩, rfl, rfl⟩
    exact ⟨rfl, by simp⟩

end Written

/-- A notation in front of what it takes. -/
theorem leadsTo_notated (ht : OperatorTable entries) (hn : n ∈ entries)
    (hplace : n.followsOperand = false) {env : Env} (hd : env.dictionary = ⟨entries, []⟩)
    {inner : Inner} {s s₁ : State} {t : Token} {rest : List Token} (hs : s.rest = t :: rest)
    (hctx : digitless.holds s) (hfree : Free t.kind) (htrigger : t.kind.trigger? = some n.glyph)
    (hglyph : n.trigger = some n.glyph) {o : Operand}
    (h : Runs (applyNotation env inner n) (s.forward 1) (some o) s₁) {loosest : Precedence} :
    LeadsTo env inner loosest (expressionAt env inner loosest) s o none s₁ := by
  have hdigits : ∀ u ∈ t :: rest, u.digits? = none := hs ▸ hctx.2
  have hbuiltin : Runs (builtin env inner) s none s :=
    runs_builtin_of_free hs hfree (startsNumber_eq_false hdigits)
      (startsNumber_eq_false fun u hu => hdigits u (List.mem_cons_of_mem _ hu))
  refine leadsTo_of_operand (runs_operand_notated hs hfree.continues hctx.1 hbuiltin htrigger ?_ h)
  rw [hd]
  exact ht.operands_eq hn hglyph hplace

/-- An expression that ends where operators bind too loosely for it. -/
theorem runs_expressionAt (ht : OperatorTable entries) {env : Env}
    (hd : env.dictionary = ⟨entries, []⟩) {inner : Inner} {P : Language Token}
    (h : Reads env inner digitless p (Follows entries edge) (IsOf a) P) {loosest : Precedence}
    (hp : loosest ≤ p) (hedge : loosest ≤ edge) {s : State} {ts after : List Token} (hts : ts ∈ P)
    (hs : s.rest = ts ++ after) (hctx : digitless.holds s)
    (hafter : Follows entries loosest after) :
    Runs (expressionAt env inner loosest) s a (s.forward ts.length) := by
  have hrest : (s.forward ts.length).rest = after := by
    rw [State.rest_forward, hs, List.drop_left]
  have hstop : Stops env inner loosest (s.forward ts.length) :=
    Follows.stops ht hd (hrest ▸ hafter) (digitless.forward _ hctx) (Nat.le_refl _)
  obtain ⟨o, chained, ⟨rfl, -⟩, hruns⟩ := h.runs hts hs hctx hp (hafter.mono hedge) hstop
  exact hruns

namespace Written

theorem ofPrefix (ht : OperatorTable entries) (hn : n ∈ entries) (hkind : n.kind = .prefixOp)
    (h : Written entries (IsOf a) p edge text) (ha : a.isMissing = false)
    (hp : n.precedence.tighter ≤ p) (hedge : n.precedence.tighter ≤ edge) :
    Written entries (IsOf (.function n.name [a])) .atomic n.precedence.tighter
      (Text.join n.glyph text) := by
  obtain ⟨P, hspells, hdigits, hreads⟩ := h.reads
  obtain ⟨kind, hmark, hfree, htrigger, hglyph⟩ := ht.mark_glyph hn
  refine ⟨(Opens.of_mark hmark).join, Token.one kind * P, h.opens.spells_join hmark.spells hspells,
    (Digitless.of_free hfree).mul hdigits,
    eventually_succ hreads fun levels hlevels env hd hoptions => ?_⟩
  intro us hus after s loosest hs hctx _ hafter
  obtain ⟨_, ⟨t, rfl, rfl⟩, ts, hts, rfl⟩ := Language.mem_mul.mp hus
  have hinside : (s.forward 1).rest = ts ++ after := by
    rw [State.rest_forward, hs]
    rfl
  have hoperand := runs_expressionAt ht hd (hlevels env hd hoptions) hp hedge hts hinside
    (digitless.forward 1 hctx) hafter
  rw [State.forward_forward, Nat.add_comm] at hoperand
  refine ⟨{ expression := .function n.name [a] }, none, ⟨rfl, nofun⟩, ?_⟩
  refine leadsTo_notated ht hn (by rw [Notation.followsOperand, hkind]) hd hs hctx hfree htrigger
    hglyph ?_
  unfold applyNotation
  rw [(ht.bare n hn).reader, hkind]
  have hprefixed : Runs (prefixed env (nested env (levels + 1)) n) (s.forward 1) a
      (s.forward (ts.length + 1)) := by
    unfold prefixed
    refine hoperand.bind ?_
    rw [ha]
    exact .pure _ _
  exact hprefixed.bind (.pure _ _)

theorem ofPostfix (ht : OperatorTable entries) (hn : n ∈ entries) (hkind : n.kind = .postfixOp)
    (h : Written entries (IsOf a) p edge text) (hp : n.precedence ≤ p)
    (hedge : n.precedence < edge) :
    Written entries (IsOf (.function n.name [a])) n.precedence .atomic (text ++ n.glyph) := by
  obtain ⟨P, hspells, hdigits, hreads⟩ := h.reads
  obtain ⟨kind, hmark, hfree, htrigger, hglyph⟩ := ht.mark_glyph hn
  obtain ⟨c, cs, htext, hdigit⟩ := h.opens
  have hfollows : n.followsOperand = true := by rw [Notation.followsOperand, hkind]
  refine ⟨⟨c, cs ++ n.glyph.toList, by rw [String.toList_append, htext, List.cons_append], hdigit⟩,
    P * Token.one kind, hspells.appendMark hmark, hdigits.mul (.of_free hfree),
    hreads.mono fun levels hlevels env hd hoptions => ?_⟩
  intro us hus after s loosest hs hctx hloosest hafter
  obtain ⟨ts, hts, _, ⟨t, rfl, rfl⟩, rfl⟩ := Language.mem_mul.mp hus
  have hs' : s.rest = ts ++ t :: after := by rw [hs, List.append_assoc]; rfl
  have hnext : Follows entries edge (t :: after) := by
    intro u hu
    rw [← Option.some.inj hu]
    exact .inr ⟨n, hn, hfollows, hfree, hglyph.trans htrigger.symm, hedge⟩
  obtain ⟨o, chained, ⟨rfl, -⟩, hleads⟩ := hlevels env hd hoptions ts hts (t :: after) s loosest hs'
    hctx (Nat.le_trans hloosest hp) hnext
  have hrest : (s.forward ts.length).rest = t :: after := by
    rw [State.rest_forward, hs', List.drop_left]
  refine ⟨⟨.function n.name [o.expression], false⟩, none, ⟨rfl, nofun⟩,
    hleads.trans fun fuel hfuel => ?_⟩
  have happly : Runs (applyOperator env (nested env levels) n o.expression chained)
      ((s.forward ts.length).forward 1) (some (.function n.name [o.expression]))
      (s.forward (ts.length + 1)) := by
    unfold applyOperator
    rw [(ht.bare n hn).reader, hkind, State.forward_forward]
    exact .pure _ _
  have hstep := leadsTo_of_operator hrest hfree.continues hfree.ne_parenthesis
    (digitless.delimited (digitless.forward _ hctx)) htrigger
    (hd ▸ ht.operators_eq hn hglyph hfollows) hloosest happly
    (by rw [State.rest_forward, hs', ← List.drop_drop, List.drop_left]; simp) hfuel
  have hchain : chainName? n = none := by
    rw [chainName?, Notation.isVariadic, hkind]
    rfl
  rw [hchain] at hstep
  rw [List.length_append]
  exact hstep

/-- One more operand behind an operator. -/
theorem ofInfix (ht : OperatorTable entries) (hn : n ∈ entries) {variadic : Bool}
    (hkind : n.kind = .infixOp variadic) {written : String} {pa edgea : Precedence}
    (h : Written entries R p edge written) (hp : n.precedence ≤ p) (hedge : n.precedence < edge)
    (htext : Written entries (IsOf a) pa edgea text) (ha : a.isMissing = false)
    (hpa : rightPrecedence n ≤ pa) (hedgea : rightPrecedence n ≤ edgea)
    (hR : ∀ o chained, R o chained →
      R' ⟨extend n.name (variadic && chained == some n.name) o.expression a, false⟩
        (chainName? n)) :
    Written entries R' n.precedence (rightPrecedence n)
      (Text.join (Text.join written n.glyph) text) := by
  obtain ⟨P, hspells, hdigits, hreads⟩ := h.reads
  obtain ⟨Q, hspellsa, hdigitsa, hreadsa⟩ := htext.reads
  obtain ⟨kind, hmark, hfree, htrigger, hglyph⟩ := ht.mark_glyph hn
  have hfollows : n.followsOperand = true := by rw [Notation.followsOperand, hkind]
  have hspelled := htext.opens.spells_join
    ((Opens.of_mark hmark).spells_join hspells hmark.spells) hspellsa
  have hbelow : ∀ᶠ levels in atTop, ∃ below, levels = below + 1 ∧ ∀ env : Env,
      env.dictionary = ⟨entries, []⟩ → env.options.unknownTokens = .standard →
      Reads env (nested env below) digitless pa (Follows entries edgea) (IsOf a) Q :=
    eventually_succ hreadsa fun below hlevels => ⟨below, rfl, hlevels⟩
  refine ⟨h.opens.join.join, P * Token.one kind * Q, hspelled,
    (hdigits.mul (.of_free hfree)).mul hdigitsa,
    (hreads.and hbelow).mono fun levels hlevels env hd hoptions => ?_⟩
  obtain ⟨hleft, below, rfl, hright⟩ := hlevels
  intro ws hws after s loosest hs hctx hloosest hafter
  obtain ⟨vs, hvs, us, hus, rfl⟩ := Language.mem_mul.mp hws
  obtain ⟨ts, hts, _, ⟨t, rfl, rfl⟩, rfl⟩ := Language.mem_mul.mp hvs
  have hs' : s.rest = ts ++ t :: (us ++ after) := by
    rw [hs, List.append_assoc, List.append_assoc]
    rfl
  have hnext : Follows entries edge (t :: (us ++ after)) := by
    intro u hu
    rw [← Option.some.inj hu]
    exact .inr ⟨n, hn, hfollows, hfree, hglyph.trans htrigger.symm, hedge⟩
  obtain ⟨o, chained, hout, hleads⟩ := hleft env hd hoptions ts hts _ s loosest hs' hctx
    (Nat.le_trans hloosest hp) hnext
  have hrest : (s.forward ts.length).rest = t :: (us ++ after) := by
    rw [State.rest_forward, hs', List.drop_left]
  have hinside : (s.forward (ts.length + 1)).rest = us ++ after := by
    rw [← State.forward_forward, State.rest_forward, hrest]
    rfl
  have hoperand := runs_expressionAt ht hd (hright env hd hoptions) hpa hedgea hus hinside
    (digitless.forward _ hctx) hafter
  rw [State.forward_forward] at hoperand
  refine ⟨_, _, hR o chained hout, hleads.trans fun fuel hfuel => ?_⟩
  have happly : Runs (applyOperator env (nested env (below + 1)) n o.expression chained)
      ((s.forward ts.length).forward 1)
      (some (extend n.name (variadic && chained == some n.name) o.expression a))
      (s.forward (ts.length + 1 + us.length)) := by
    unfold applyOperator
    rw [(ht.bare n hn).reader, hkind, State.forward_forward]
    refine hoperand.bind ?_
    rw [ha]
    exact .pure _ _
  have hlength : (ts ++ [t] ++ us).length = ts.length + 1 + us.length := by
    rw [List.length_append, List.length_append, List.length_singleton]
  rw [hlength]
  refine leadsTo_of_operator hrest hfree.continues hfree.ne_parenthesis
    (digitless.delimited (digitless.forward _ hctx)) htrigger
    (hd ▸ ht.operators_eq hn hglyph hfollows) hloosest happly ?_ hfuel
  rw [← State.forward_forward, State.rest_forward, hinside, List.drop_left, List.length_append]
  exact Nat.le_add_left _ _

end Written

/-! ### Arguments of commands -/

/-- Texts in braces behind a text. -/
def bracedBehind (start : String) (texts : List String) : String :=
  texts.foldl (fun written text => written ++ Text.braced text) start

theorem Opens.bracedBehind {start : String} (h : Opens start) (texts : List String) :
    Opens (bracedBehind start texts) := by
  induction texts generalizing start with
  | nil => exact h
  | cons text texts ih =>
    obtain ⟨c, cs, hstart, hdigit⟩ := h
    exact ih ⟨c, cs ++ (Text.braced text).toList, by simp [hstart], hdigit⟩

/-- By induction on the arguments: their texts in braces are read as all of them. -/
theorem exists_reads_arguments {arguments : List Expression} {texts : List String}
    (h : List.Forall₂ (fun a text => ∃ p edge, Written entries (IsOf a) p edge text) arguments
      texts) :
    ∃ Q : Language Token,
      (∀ start P, Spells start.toList P → Spells (bracedBehind start texts).toList (P * Q)) ∧
      Digitless Q ∧ ∀ᶠ levels in atTop, ∀ env : Env, env.dictionary = ⟨entries, []⟩ →
        env.options.unknownTokens = .standard → ∀ ts ∈ Q, ∀ (after : List Token) (s : State),
        s.rest = ts ++ after → digitless.holds s → ∀ command,
        Runs (Parser.arguments env (nested env levels) command arguments.length) s arguments
          (s.forward ts.length) := by
  induction h with
  | nil =>
    refine ⟨1, fun start P hstart => by rw [mul_one]; exact hstart,
      ?_,
      .of_forall fun levels env _ _ ts hts after s _ _ command => ?_⟩
    · intro ts hts
      rw [Language.mem_one] at hts
      rw [hts]
      exact List.forall_mem_nil _
    · rw [Language.mem_one] at hts
      rw [hts]
      exact .pure [] s
  | @cons a text arguments texts htext _ ih =>
    obtain ⟨Q, hspellsQ, hdigitsQ, hreadsQ⟩ := ih
    obtain ⟨p, edge, htext⟩ := htext
    obtain ⟨P, hspells, hdigits, hreads⟩ := htext.reads
    have hbraces : Digitless (Token.one .groupOpen * (P * Token.one .groupClose)) :=
      hdigits.enclosed nofun nofun
    refine ⟨Token.one .groupOpen * (P * Token.one .groupClose) * Q, fun start P₀ hstart => ?_,
      hbraces.mul hdigitsQ, ?_⟩
    · rw [← mul_assoc]
      exact hspellsQ _ _ (hstart.appendBraced hspells)
    · have hbelow : ∀ᶠ levels in atTop, ∃ below, levels = below + 1 ∧ ∀ env : Env,
          env.dictionary = ⟨entries, []⟩ → env.options.unknownTokens = .standard →
          Reads env (nested env below) digitless p (Follows entries edge) (IsOf a) P :=
        eventually_succ hreads fun below hlevels => ⟨below, rfl, hlevels⟩
      refine (hreadsQ.and hbelow).mono fun levels hlevels env hd hoptions => ?_
      obtain ⟨hothers, below, rfl, hfirst⟩ := hlevels
      intro ws hws after s hs hctx command
      obtain ⟨us, hus, ts, hts, rfl⟩ := Language.mem_mul.mp hws
      rw [List.append_assoc] at hs
      have hrest : (s.forward us.length).rest = ts ++ after := by
        rw [State.rest_forward, hs, List.drop_left]
      have houter : (nested env (below + 1)).expression .loosest =
          expressionAt env (nested env below) .loosest := rfl
      obtain ⟨o, _, ⟨rfl, -⟩, hargument⟩ := (hfirst env hd hoptions).runs_argument houter
        (fun _ after ht => .of_closing ht after) hus hs hctx command
      have harguments := hothers env hd hoptions ts hts after _ hrest (digitless.forward _ hctx)
        command
      rw [State.forward_forward, ← List.length_append] at harguments
      exact hargument.bind (harguments.bind (.pure _ _))

theorem Written.ofCommand (ht : OperatorTable entries) (hn : n ∈ entries)
    {arguments : List Expression} (hkind : n.kind = .command arguments.length)
    {texts : List String}
    (h : List.Forall₂ (fun a text => ∃ p edge, Written entries (IsOf a) p edge text) arguments
      texts) :
    Written entries (IsOf (.function n.name arguments)) .atomic .atomic
      (bracedBehind n.glyph texts) := by
  obtain ⟨Q, hspells, hdigits, hreads⟩ := exists_reads_arguments h
  obtain ⟨kind, hmark, hfree, htrigger, hglyph⟩ := ht.mark_glyph hn
  refine ⟨(Opens.of_mark hmark).bracedBehind texts, Token.one kind * Q, hspells _ _ hmark.spells,
    (Digitless.of_free hfree).mul hdigits, hreads.mono fun levels hlevels env hd hoptions => ?_⟩
  intro us hus after s loosest hs hctx _ _
  obtain ⟨_, ⟨t, rfl, rfl⟩, ts, hts, rfl⟩ := Language.mem_mul.mp hus
  have hinside : (s.forward 1).rest = ts ++ after := by
    rw [State.rest_forward, hs]
    rfl
  have harguments := hlevels env hd hoptions ts hts after _ hinside (digitless.forward 1 hctx)
    n.glyph
  rw [State.forward_forward, Nat.add_comm] at harguments
  refine ⟨{ expression := .function n.name arguments }, none, ⟨rfl, nofun⟩, ?_⟩
  refine leadsTo_notated ht hn (by rw [Notation.followsOperand, hkind]) hd hs hctx hfree htrigger
    hglyph ?_
  unfold applyNotation
  rw [(ht.bare n hn).reader, hkind]
  exact harguments.bind (.pure _ _)

/-! ### Writing -/

/-- At most levels, the expression is written as the text, which reads as the expression. -/
structure Renders (entries : List Notation) (e : Expression) (text : String) : Prop where
  written : Written entries (IsOf e) ((Serializer.mk ⟨entries, []⟩ {}).precedenceOf e)
    (rightEdge ⟨entries, []⟩ e) text
  within : ∀ᶠ levels in atTop, ∀ s : Serializer, s.dictionary = ⟨entries, []⟩ →
    s.within levels e = .ok text

theorem precedenceOf_eq {s : Serializer} (hs : s.dictionary = ⟨entries, []⟩) (e : Expression) :
    s.precedenceOf e = (Serializer.mk ⟨entries, []⟩ {}).precedenceOf e := by
  rw [Serializer.precedenceOf, Serializer.precedenceOf, hs]

/-- An application is written by the rule of its kind. -/
theorem within_succ_function (ht : OperatorTable entries) (hn : n ∈ entries)
    {arguments : List Expression} (haccepts : n.arity.accepts arguments.length = true)
    {s : Serializer} (hs : s.dictionary = ⟨entries, []⟩) (levels : Nat) :
    s.within (levels + 1) (.function n.name arguments) =
      Serializer.byKind (s.scribe (s.within levels)) n n.name arguments := by
  show s.named (s.scribe (s.within levels)) n.name arguments = _
  rw [Serializer.named, hs, ht.lookup_of_mem hn]
  dsimp only
  rw [(ht.bare n hn).writer, haccepts]
  rfl

/-- An operand as it stands beside an operator. -/
theorem Renders.wrap (ht : OperatorTable entries) (h : Renders entries a text)
    (ha : a.isMissing = false) (loosest : Precedence) :
    ∃ text p edge, Written entries (IsOf a) p edge text ∧ loosest ≤ p ∧ loosest ≤ edge ∧
      (∀ n ∈ entries, n.followsOperand = true → leftPrecedence n ≤ loosest →
        n.precedence < edge) ∧
      ∀ᶠ levels in atTop, ∀ s : Serializer, s.dictionary = ⟨entries, []⟩ →
        (s.scribe (s.within levels)).wrap a loosest = .ok text := by
  have hwrap : ∀ᶠ levels in atTop, ∀ s : Serializer, s.dictionary = ⟨entries, []⟩ →
      (s.scribe (s.within levels)).wrap a loosest =
        .ok (if (Serializer.mk ⟨entries, []⟩ {}).precedenceOf a < loosest then
          Text.parenthesized text else text) := by
    refine h.within.mono fun levels hlevels s hs => ?_
    rw [← precedenceOf_eq hs]
    show s.within levels a >>= _ = _
    rw [hlevels s hs]
    rfl
  by_cases hloose : (Serializer.mk ⟨entries, []⟩ {}).precedenceOf a < loosest
  · rw [if_pos hloose] at hwrap
    exact ⟨_, _, _, h.written.parenthesized ha, Precedence.le_atomic _, Precedence.le_atomic _,
      fun n hn hfollows _ => ht.precedence_lt hn (.inl hfollows), hwrap⟩
  · rw [if_neg hloose] at hwrap
    have hle := Nat.le_of_not_lt hloose
    exact ⟨_, _, _, h.written, hle, Nat.le_trans hle (OperatorTable.precedence_le_rightEdge a),
      fun n hn hfollows hleft => ht.lt_rightEdge hn hfollows (Nat.le_trans hleft hle), hwrap⟩

/-! ### Chains of operands -/

/-- The chain consists of the operands read so far. -/
def EndsWith (n : Notation) (done : List Expression) (o : Operand) (chained : Option String) :
    Prop :=
  o.expression = .function n.name done ∧ chained = chainName? n

theorem operandPrecedence_zero (h : n.isInfix = true) {last : Nat} (hlast : last ≠ 0) :
    Serializer.operandPrecedence n 0 last = leftPrecedence n := by
  unfold Serializer.operandPrecedence leftPrecedence
  rw [h]
  cases n.associativity with
  | left => rfl
  | right => exact if_neg hlast.symm
  | none => rfl

theorem operandPrecedence_succ {i last : Nat} (h : n.associativity = .right → i + 1 = last) :
    Serializer.operandPrecedence n (i + 1) last = rightPrecedence n := by
  unfold Serializer.operandPrecedence rightPrecedence
  cases hassociativity : n.associativity with
  | left => rfl
  | right => exact if_pos (h hassociativity)
  | none => rfl

theorem addOperand_zero (hbetween : n.isInfix = true) {scribe : Scribe} {last : Nat}
    (hlast : last ≠ 0) (h : scribe.wrap a (leftPrecedence n) = .ok text) :
    Serializer.addOperand scribe n last "" (a, 0) = .ok text := by
  unfold Serializer.addOperand
  rw [operandPrecedence_zero hbetween hlast, h]
  exact congrArg Except.ok (Text.join_empty_left text)

theorem addOperand_succ {scribe : Scribe} {i last : Nat}
    (hlast : n.associativity = .right → i + 1 = last)
    (h : scribe.wrap a (rightPrecedence n) = .ok text) (written : String) :
    Serializer.addOperand scribe n last written (a, i + 1) =
      .ok (Text.join (Text.join written n.glyph) text) := by
  unfold Serializer.addOperand
  rw [operandPrecedence_succ hlast, h]
  rfl

/-- By induction on the operands that are still to be written: a variadic operator takes up all of
them into its chain. -/
theorem written_operands (ht : OperatorTable entries) (hn : n ∈ entries)
    (hkind : n.kind = .infixOp true) {operands : List Expression}
    (h : ∀ a ∈ operands, a.isMissing = false ∧ ∃ text, Renders entries a text) {i last : Nat}
    {done : List Expression} {written : String}
    (hwritten : Written entries (EndsWith n done) n.precedence (rightPrecedence n) written) :
    ∃ text, Written entries (EndsWith n (done ++ operands)) n.precedence (rightPrecedence n) text ∧
      ∀ᶠ levels in atTop, ∀ s : Serializer, s.dictionary = ⟨entries, []⟩ →
        (operands.zipIdx (i + 1)).foldlM
          (Serializer.addOperand (s.scribe (s.within levels)) n last) written = .ok text := by
  have hoperates := ht.operates n hn
  rw [Notation.Operates, hkind] at hoperates
  obtain ⟨-, hleft, hatomic⟩ := hoperates
  have hright : rightPrecedence n = n.precedence.tighter := by rw [rightPrecedence, hleft]
  induction operands generalizing i done written with
  | nil =>
    rw [List.append_nil]
    exact ⟨written, hwritten, .of_forall fun _ _ _ => rfl⟩
  | cons a operands ih =>
    obtain ⟨ha, text, hrenders⟩ := h a List.mem_cons_self
    obtain ⟨text, p, edge, htext, hp, hedge, -, hwrap⟩ :=
      hrenders.wrap ht ha (rightPrecedence n)
    have hlt : n.precedence < rightPrecedence n := by
      rw [hright, Precedence.lt_def, Precedence.rank_tighter hatomic]
      exact Nat.lt_succ_self _
    have hstep : Written entries (EndsWith n (done ++ [a])) n.precedence (rightPrecedence n)
        (Text.join (Text.join written n.glyph) text) := by
      refine hwritten.ofInfix ht hn hkind (Nat.le_refl _) hlt htext ha hp hedge ?_
      rintro o _ ⟨ho, rfl⟩
      have hchain : chainName? n = some n.name := by
        rw [chainName?, Notation.isVariadic, hkind]
        rfl
      rw [ho, hchain, Bool.true_and, beq_self_eq_true]
      exact ⟨rfl, hchain.symm⟩
    obtain ⟨result, hresult, hfold⟩ := ih (fun b hb => h b (List.mem_cons_of_mem _ hb)) hstep
    rw [List.append_assoc] at hresult
    refine ⟨result, hresult, (hwrap.and hfold).mono fun levels hlevels s hs => ?_⟩
    have hlast : n.associativity = .right → i + 1 = last := fun h => by rw [hleft] at h; cases h
    rw [List.zipIdx_cons, List.foldlM_cons, addOperand_succ hlast (hlevels.1 s hs)]
    exact hlevels.2 s hs

/-- An operator between two operands, or a chain of more of them. -/
theorem exists_renders_infix (ht : OperatorTable entries) (hn : n ∈ entries) {variadic : Bool}
    (hkind : n.kind = .infixOp variadic) {first second : Expression} {others : List Expression}
    (hothers : variadic = false → others = [])
    (hhead : variadic = true → first.headName? ≠ some n.name)
    (h : ∀ a ∈ first :: second :: others, a.isMissing = false ∧ ∃ text, Renders entries a text)
    (haccepts : n.arity.accepts (first :: second :: others).length = true) :
    ∃ text, Renders entries (.function n.name (first :: second :: others)) text := by
  have hbetween : n.isInfix = true := by rw [Notation.isInfix, hkind]
  have hfollows : n.followsOperand = true := by rw [Notation.followsOperand, hkind]
  obtain ⟨hfirst, text₁, hrenders₁⟩ := h first List.mem_cons_self
  obtain ⟨hsecond, text₂, hrenders₂⟩ := h second (List.mem_cons_of_mem _ List.mem_cons_self)
  obtain ⟨text₁, p₁, edge₁, htext₁, hp₁, -, hedge₁, hwrap₁⟩ :=
    hrenders₁.wrap ht hfirst (leftPrecedence n)
  obtain ⟨text₂, p₂, edge₂, htext₂, hp₂, hedge₂, -, hwrap₂⟩ :=
    hrenders₂.wrap ht hsecond (rightPrecedence n)
  have hpair : Written entries (EndsWith n [first, second]) n.precedence (rightPrecedence n)
      (Text.join (Text.join text₁ n.glyph) text₂) := by
    refine htext₁.ofInfix ht hn hkind (Nat.le_trans (precedence_le_leftPrecedence n) hp₁)
      (hedge₁ n hn hfollows (Nat.le_refl _)) htext₂ hsecond hp₂ hedge₂ ?_
    rintro o chained ⟨rfl, hchained⟩
    have hnot : (variadic && chained == some n.name) = false := by
      cases variadic with
      | false => rfl
      | true =>
        refine beq_false_of_ne fun heq => hhead rfl (hchained n.name heq)
    rw [hnot]
    exact ⟨rfl, rfl⟩
  have hall : ∃ text, Written entries (EndsWith n (first :: second :: others)) n.precedence
      (rightPrecedence n) text ∧
      ∀ᶠ levels in atTop, ∀ s : Serializer, s.dictionary = ⟨entries, []⟩ →
        (others.zipIdx 2).foldlM
          (Serializer.addOperand (s.scribe (s.within levels)) n (others.length + 1))
          (Text.join (Text.join text₁ n.glyph) text₂) = .ok text := by
    cases variadic with
    | false =>
      rw [hothers rfl]
      exact ⟨_, hpair, .of_forall fun _ _ _ => rfl⟩
    | true =>
      exact written_operands ht hn hkind (fun a ha => h a (List.mem_cons_of_mem _
        (List.mem_cons_of_mem _ ha))) hpair
  obtain ⟨text, htext, hfold⟩ := hall
  have hlast : n.associativity = .right → 0 + 1 = others.length + 1 := by
    intro hright
    cases variadic with
    | false => rw [hothers rfl]; rfl
    | true =>
      have hoperates := ht.operates n hn
      rw [Notation.Operates, hkind] at hoperates
      rw [hoperates.2.1] at hright
      cases hright
  refine ⟨text, ?_, ?_⟩
  · rw [ht.precedenceOf_function hn, ht.rightEdge_function hn, hkind]
    refine htext.mono (Nat.le_refl _) (Nat.le_refl _) ?_
    rintro o _ ⟨ho, rfl⟩
    refine ⟨ho, fun name hname => ?_⟩
    rw [chainName?] at hname
    split at hname
    · exact congrArg some (Option.some.inj hname)
    · cases hname
  · refine eventually_succ ((hwrap₁.and hwrap₂).and hfold) fun levels hlevels s hs => ?_
    obtain ⟨⟨hlevels₁, hlevels₂⟩, hlevels⟩ := hlevels
    rw [within_succ_function ht hn haccepts hs, Serializer.byKind, hkind]
    show Serializer.chain _ n (first :: second :: others) = _
    have hcount : (first :: second :: others).length - 1 = others.length + 1 := rfl
    rw [Serializer.chain, hcount, List.zipIdx_cons, List.zipIdx_cons, List.foldlM_cons,
      addOperand_zero hbetween (Nat.succ_ne_zero _) (hlevels₁ s hs)]
    show List.foldlM _ text₁ _ = _
    rw [List.foldlM_cons, addOperand_succ hlast (hlevels₂ s hs)]
    exact hlevels s hs

/-! ### All expressions -/

/-- Expressions for which there are texts have texts side by side. -/
theorem exists_forall₂ {α β : Type} {Q : α → β → Prop} {as : List α} (h : ∀ a ∈ as, ∃ b, Q a b) :
    ∃ bs, List.Forall₂ Q as bs := by
  induction as with
  | nil => exact ⟨[], .nil⟩
  | cons a as ih =>
    obtain ⟨b, hb⟩ := h a List.mem_cons_self
    obtain ⟨bs, hbs⟩ := ih fun a ha => h a (List.mem_cons_of_mem _ ha)
    exact ⟨b :: bs, .cons hb hbs⟩

theorem bracedArguments_eq {arguments : List Expression} {texts : List String}
    (h : List.Forall₂ (Renders entries) arguments texts) :
    ∀ᶠ levels in atTop, ∀ s : Serializer, s.dictionary = ⟨entries, []⟩ → ∀ start,
      (s.scribe (s.within levels)).bracedArguments start arguments =
        .ok (bracedBehind start texts) := by
  induction h with
  | nil => exact .of_forall fun _ _ _ _ => rfl
  | cons hrenders _ ih =>
    refine (hrenders.within.and ih).mono fun levels hlevels s hs start => ?_
    rw [Scribe.bracedArguments, List.foldlM_cons]
    show (s.within levels _ >>= _) >>= _ = _
    rw [hlevels.1 s hs]
    exact hlevels.2 s hs _

theorem accepts_exactly {count given : Nat} (h : (Arity.exactly count).accepts given = true) :
    given = count := by
  unfold Arity.accepts Arity.exactly at h
  rw [Bool.and_eq_true, Option.all_some, decide_eq_true_eq, decide_eq_true_eq] at h
  exact Nat.le_antisymm h.2 h.1

theorem accepts_atLeast {count given : Nat} (h : (Arity.atLeast count).accepts given = true) :
    count ≤ given := by
  unfold Arity.accepts Arity.atLeast at h
  rw [Bool.and_eq_true, decide_eq_true_eq] at h
  exact h.1

theorem exists_renders_letter (ht : OperatorTable entries) {c : Char}
    (hc : Text.isLetter c = true) : ∃ text, Renders entries (.symbol (String.singleton c)) text := by
  refine ⟨_, .letter ht hc, eventually_succ (.of_forall fun _ => trivial) fun levels _ s hs => ?_⟩
  show Except.ok (s.symbol (String.singleton c)) = _
  have hname : ∀ n ∈ entries, n.name ≠ String.singleton c := by
    intro n hn heq
    have hlong := ht.long n hn
    rw [heq] at hlong
    simp at hlong
  rw [Serializer.symbol, hs, OperatorTable.lookup_eq_none hname]
  simp

theorem exists_renders_prefix (ht : OperatorTable entries) (hn : n ∈ entries)
    (hkind : n.kind = .prefixOp) (haccepts : n.arity.accepts [a].length = true)
    (ha : a.isMissing = false) (h : Renders entries a text) :
    ∃ text, Renders entries (.function n.name [a]) text := by
  obtain ⟨text, p, edge, htext, hp, hedge, -, hwrap⟩ := h.wrap ht ha n.precedence.tighter
  refine ⟨Text.join n.glyph text, ?_, eventually_succ hwrap fun levels hlevels s hs => ?_⟩
  · rw [ht.precedenceOf_function hn, ht.rightEdge_function hn, hkind]
    exact (htext.ofPrefix ht hn hkind ha hp hedge).mono (Precedence.le_atomic _) (Nat.le_refl _)
      fun _ _ h => h
  · rw [within_succ_function ht hn haccepts hs, Serializer.byKind, hkind]
    show Scribe.wrap _ a n.precedence.tighter >>= _ = _
    rw [hlevels s hs]
    rfl

theorem exists_renders_postfix (ht : OperatorTable entries) (hn : n ∈ entries)
    (hkind : n.kind = .postfixOp) (haccepts : n.arity.accepts [a].length = true)
    (ha : a.isMissing = false) (h : Renders entries a text) :
    ∃ text, Renders entries (.function n.name [a]) text := by
  have hfollows : n.followsOperand = true := by rw [Notation.followsOperand, hkind]
  have hleft : leftPrecedence n = n.precedence := by
    rw [leftPrecedence, Notation.isInfix, hkind]
    rfl
  obtain ⟨text, p, edge, htext, hp, -, hedge, hwrap⟩ := h.wrap ht ha n.precedence
  refine ⟨text ++ n.glyph, ?_, eventually_succ hwrap fun levels hlevels s hs => ?_⟩
  · rw [ht.precedenceOf_function hn, ht.rightEdge_function hn, hkind]
    exact htext.ofPostfix ht hn hkind hp (hedge n hn hfollows (Nat.le_of_eq (by rw [hleft])))
  · rw [within_succ_function ht hn haccepts hs, Serializer.byKind, hkind]
    show Scribe.wrap _ a n.precedence >>= _ = _
    rw [hlevels s hs]
    rfl

theorem exists_renders_command (ht : OperatorTable entries) (hn : n ∈ entries)
    {arguments : List Expression} (hkind : n.kind = .command arguments.length)
    (haccepts : n.arity.accepts arguments.length = true) {texts : List String}
    (h : List.Forall₂ (Renders entries) arguments texts) :
    ∃ text, Renders entries (.function n.name arguments) text := by
  refine ⟨bracedBehind n.glyph texts, ?_,
    eventually_succ (bracedArguments_eq h) fun levels hlevels s hs => ?_⟩
  · rw [ht.precedenceOf_function hn, ht.rightEdge_function hn, hkind]
    exact .ofCommand ht hn hkind (h.imp fun _ _ hrenders => ⟨_, _, hrenders.written⟩)
  · rw [within_succ_function ht hn haccepts hs]
    unfold Serializer.byKind
    rw [hkind]
    exact hlevels s hs n.glyph

/-- By induction on the expression: it has a text that reads as the expression. -/
theorem exists_renders (ht : OperatorTable entries) (he : Over entries e) :
    ∃ text, Renders entries e text := by
  induction he with
  | letter hc => exact exists_renders_letter ht hc
  | @application n arguments hn haccepts harguments hhead ih =>
    have hmissing : ∀ a ∈ arguments, a.isMissing = false :=
      fun a ha => (harguments a ha).isMissing_eq_false
    have hoperates := ht.operates n hn
    rw [Notation.Operates] at hoperates
    split at hoperates
    · next hkind =>
      have hlength := accepts_atLeast (hoperates.1 ▸ haccepts)
      obtain _ | ⟨first, _ | ⟨second, others⟩⟩ := arguments
      · simp at hlength
      · simp at hlength
      · exact exists_renders_infix ht hn hkind (by rintro ⟨⟩)
          (fun _ => hhead (by rw [Notation.isVariadic, hkind]; rfl) first rfl)
          (fun a ha => ⟨hmissing a ha, ih a ha⟩) haccepts
    · next hkind =>
      have hlength := accepts_exactly (hoperates.1 ▸ haccepts)
      obtain ⟨first, second, rfl⟩ := List.length_eq_two.mp hlength
      exact exists_renders_infix ht hn hkind (fun _ => rfl) (by rintro ⟨⟩)
        (fun a ha => ⟨hmissing a ha, ih a ha⟩) haccepts
    · next hkind =>
      have hlength := accepts_exactly (hoperates.1 ▸ haccepts)
      obtain ⟨a, rfl⟩ := List.length_eq_one_iff.mp hlength
      obtain ⟨text, htext⟩ := ih a List.mem_cons_self
      exact exists_renders_prefix ht hn hkind haccepts (hmissing a List.mem_cons_self) htext
    · next hkind =>
      have hlength := accepts_exactly (hoperates.1 ▸ haccepts)
      obtain ⟨a, rfl⟩ := List.length_eq_one_iff.mp hlength
      obtain ⟨text, htext⟩ := ih a List.mem_cons_self
      exact exists_renders_postfix ht hn hkind haccepts (hmissing a List.mem_cons_self) htext
    · next count hkind =>
      have hlength := accepts_exactly (hoperates ▸ haccepts)
      obtain ⟨texts, htexts⟩ := exists_forall₂ ih
      exact exists_renders_command ht hn (hlength ▸ hkind) haccepts htexts
    · exact hoperates.elim

/-! ### The whole text -/

/-- A text that reads as one expression is parsed as it. -/
theorem Written.parse_eq (h : Written entries (IsOf e) p edge text) (he : e.isMissing = false) :
    ∀ᶠ depth in atTop, parse ⟨entries, []⟩ { maxDepth := depth } text = .ok ⟨e, []⟩ := by
  obtain ⟨P, hspells, hdigits, hreads⟩ := h.reads
  refine eventually_succ hreads fun levels hlevels => ?_
  have hmem : Token.meaningful text ∈ P := hspells.laid_mem
  have hrest : (State.ofSource text).rest = Token.meaningful text ++ [] := by
    rw [List.append_nil]
    rfl
  have hend : ((State.ofSource text).forward (Token.meaningful text).length).rest = [] := by
    rw [State.rest_forward, hrest, List.append_nil, List.drop_length]
  have henv := hlevels ⟨text, ⟨entries, []⟩, { maxDepth := levels + 1 }⟩ rfl rfl
  obtain ⟨o, chained, ⟨rfl, -⟩, hruns⟩ := henv.runs hmem hrest
    ⟨nofun, hdigits _ hmem⟩ (show Precedence.loosest ≤ p from Nat.zero_le _) nofun
    (stops_of_nil hend)
  exact parse_eq_of_runs rfl he hruns

/-- Whatever the operators of a table are, parsing inverts serializing. -/
theorem parse_run_of_over {entries : List Notation} {d : Dictionary} (ht : OperatorTable entries)
    (hd : Dictionary.ofList entries = .ok d) {e : Expression} (he : Over entries e) :
    ∃ latex depth, ∀ levels, depth ≤ levels →
      (Serializer.mk d { maxDepth := levels }).run e = .ok ⟨latex, []⟩ ∧
      parse d { maxDepth := levels } latex = .ok ⟨e, []⟩ := by
  obtain rfl := ht.dictionary_eq hd
  obtain ⟨latex, hrenders⟩ := exists_renders ht he
  obtain ⟨depth, hdepth⟩ := eventually_atTop.mp
    (hrenders.within.and (hrenders.written.parse_eq he.isMissing_eq_false))
  refine ⟨latex, depth, fun levels hlevels => ?_⟩
  obtain ⟨hwithin, hparse⟩ := hdepth levels hlevels
  have hserialize : (Serializer.mk ⟨entries, []⟩ { maxDepth := levels }).serialize e = .ok latex :=
    hwithin _ rfl
  refine ⟨?_, hparse⟩
  rw [Serializer.run, hserialize]

/-- A table with an operator of each kind. -/
def arrows : List Notation :=
  [ (Notation.ofInfix "Both" "+" .addition).variadic,
    (Notation.ofInfix "Arrow" "\\to" .power).rightAssociative,
    Notation.ofPrefix "Dual" "-" .addition,
    Notation.ofPostfix "Star" "*" .trailing,
    Notation.ofCommand "Pair" "\\pair" 2 ]

theorem operatorTable_arrows : OperatorTable arrows where
  bare := by
    simp only [arrows, List.forall_mem_cons]
    exact ⟨⟨rfl, rfl, rfl, rfl, rfl, rfl⟩, ⟨rfl, rfl, rfl, rfl, rfl, rfl⟩,
      ⟨rfl, rfl, rfl, rfl, rfl, rfl⟩, ⟨rfl, rfl, rfl, rfl, rfl, rfl⟩,
      ⟨rfl, rfl, rfl, rfl, rfl, rfl⟩, List.forall_mem_nil _⟩
  operates := by
    simp only [arrows, List.forall_mem_cons]
    exact ⟨⟨rfl, rfl, by decide⟩, ⟨rfl, by decide⟩, ⟨rfl, by decide⟩, ⟨rfl, by decide⟩, rfl,
      List.forall_mem_nil _⟩
  free := by
    simp only [arrows, List.forall_mem_cons]
    exact ⟨⟨"+", .punct '+', rfl, by decide +kernel, by decide⟩,
      ⟨"\\to", .command "to", rfl, by decide +kernel, by decide⟩,
      ⟨"-", .punct '-', rfl, by decide +kernel, by decide⟩,
      ⟨"*", .punct '*', rfl, by decide +kernel, by decide⟩,
      ⟨"\\pair", .command "pair", rfl, by decide +kernel, by decide⟩, List.forall_mem_nil _⟩
  long := by decide
  distinct := by decide
  apart := by decide
  right := by decide

/-- An arrow between a dual and a starred sum, written `(-x)\to(x+y+x)*`. -/
theorem parse_run_of_over_arrows : ∃ latex depth, ∀ levels, depth ≤ levels →
    (Serializer.mk ⟨arrows, []⟩ { maxDepth := levels }).run
      (.function "Arrow" [.function "Dual" [.symbol "x"],
        .function "Star" [.function "Both" [.symbol "x", .symbol "y", .symbol "x"]]]) =
      .ok ⟨latex, []⟩ ∧
    parse ⟨arrows, []⟩ { maxDepth := levels } latex =
      .ok ⟨.function "Arrow" [.function "Dual" [.symbol "x"],
        .function "Star" [.function "Both" [.symbol "x", .symbol "y", .symbol "x"]]], []⟩ := by
  have hx : Over arrows (.symbol "x") := .letter (c := 'x') (by decide)
  have hy : Over arrows (.symbol "y") := .letter (c := 'y') (by decide)
  have hdual : Over arrows (.function "Dual" [.symbol "x"]) :=
    .application (n := arrows[2]) (List.getElem_mem _) rfl (List.forall_mem_singleton.mpr hx) nofun
  have hboth : Over arrows (.function "Both" [.symbol "x", .symbol "y", .symbol "x"]) :=
    .application (n := arrows[0]) (List.getElem_mem _) rfl
      (List.forall_mem_cons.mpr ⟨hx, List.forall_mem_cons.mpr ⟨hy, List.forall_mem_singleton.mpr hx⟩⟩)
      (by decide)
  have hstar : Over arrows
      (.function "Star" [.function "Both" [.symbol "x", .symbol "y", .symbol "x"]]) :=
    .application (n := arrows[3]) (List.getElem_mem _) rfl (List.forall_mem_singleton.mpr hboth)
      nofun
  have harrow : Over arrows (.function "Arrow" [.function "Dual" [.symbol "x"],
      .function "Star" [.function "Both" [.symbol "x", .symbol "y", .symbol "x"]]]) :=
    .application (n := arrows[1]) (List.getElem_mem _) rfl
      (List.forall_mem_cons.mpr ⟨hdual, List.forall_mem_singleton.mpr hstar⟩) nofun
  exact parse_run_of_over operatorTable_arrows rfl harrow

end TexFormula
