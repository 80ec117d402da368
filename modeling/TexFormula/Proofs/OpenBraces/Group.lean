import TexFormula.Proofs.OpenBraces

/-!
# Numerals, groups and arguments spare an open brace

A group in braces is read up to the brace that closes it or it is reported, and the open brace stands
behind all braces that close a group. All other groups open and close with tokens that are no braces.
-/

namespace TexFormula.Parser.OpenBrace

open Token (isPlain_of_digits? isPlain_of_isCommand isPlain_of_isPunct)

variable {b : OpenBrace} {env : Env} {inner : Inner} {s t : State} {tokens : List Token}

theorem ne_groupOpen_of_isPlain {kind : Token.Kind} (h : kind.isPlain) : kind ≠ .groupOpen := by
  rintro rfl
  cases h

theorem ne_groupOpen_of_isPunct {token : Token} {c : Char} (h : token.isPunct c) :
    token.kind ≠ .groupOpen := by
  rw [eq_of_beq h]
  nofun

theorem Ahead.drop_of_plain {n : Nat} (h : b.Ahead tokens)
    (hn : ∀ t ∈ tokens.take n, t.kind.isPlain) : b.Ahead (tokens.drop n) :=
  h.drop fun t ht => ne_groupOpen_of_isPlain (hn t ht)

theorem Spares.plain {β : Type} {f : Unit → Parser β} (h : (s.current env).kind.isPlain)
    (hf : b.Spares env (s.forward 1) (f ())) : b.Spares env s (Parser.advance >>= f) :=
  .advance (ne_groupOpen_of_isPlain h) hf

/-! ### Numerals -/

theorem spares_thinSpaceGroups (run : String) (s : State) :
    b.Spares env s (thinSpaceGroups env run) :=
  .get fun _ => .skip (fun hs => hs.drop_of_plain
    (isPlain_of_mem_digitGroups (fun _ => isPlain_of_isCommand) _ _)) .pure

theorem spares_commaGroups (run : String) (s : State) : b.Spares env s (commaGroups env run) := by
  have hcomma (t : Token) (ht : t.isPunct ',') : t.kind.isPlain :=
    isPlain_of_isPunct ht (by decide) (by decide)
  refine .get fun _ => ?_
  dsimp only
  split
  · exact .pure
  · refine .ite (fun _ => .skip (fun hs => ?_) .pure) fun _ => ?_
    · exact hs.drop_of_plain (isPlain_of_mem_digitGroups hcomma _ _)
    · exact .ite (fun _ => .record fun _ => .pure) fun _ => .pure

theorem spares_wholeDigits (s : State) : b.Spares env s (wholeDigits env) := by
  refine .current fun _ => ?_
  split
  · exact .pure
  · next run hrun =>
    refine .plain (isPlain_of_digits? (Option.isSome_of_eq_some hrun)) (.get fun _ => ?_)
    exact .ite (fun _ => spares_commaGroups run _) fun _ => spares_thinSpaceGroups run _

theorem spares_barredDigits (s : State) : b.Spares env s barredDigits := by
  refine .get fun _ => ?_
  split
  · next bar opening digits closing rest hrest =>
    refine .ite (fun hgroup => ?_) fun _ => .pure
    simp only [Bool.and_eq_true, beq_iff_eq] at hgroup
    split
    · refine .skip (fun hs => ?_) .pure
      rw [hrest] at hs ⊢
      exact hs.drop_of_close (n := 3) rfl hgroup.2
    · exact .pure
  · exact .pure

theorem spares_fractionDigits (whole : String) (s : State) :
    b.Spares env s (fractionDigits env whole) := by
  refine .get fun _ => ?_
  dsimp only
  refine .ite (fun _ => .pure) fun hpoint => ?_
  have hmark : (s.current env).kind ≠ .groupOpen :=
    ne_groupOpen_of_isPunct (c := '.') (by simpa using hpoint)
  refine .ite (fun _ => .advance hmark (.current fun _ => ?_)) fun _ => ?_
  · split
    · next run hrun =>
      refine .plain (isPlain_of_digits? (Option.isSome_of_eq_some hrun)) ?_
      refine .bind (spares_thinSpaceGroups run _) fun _ t => ?_
      exact .bind (spares_barredDigits t) fun _ _ => .pure
    · exact .bind .pure fun _ t => .bind (spares_barredDigits t) fun _ _ => .pure
  · exact .ite (fun _ => .advance hmark .pure) fun _ => .pure

theorem exists_close_of_digitsToBrace? {run : String} (h : digitsToBrace? tokens = some run) :
    ∃ c, tokens[1]? = some c ∧ c.kind = .groupClose := by
  unfold digitsToBrace? at h
  split at h
  · next digits closing rest =>
    split at h
    · next hclose => exact ⟨closing, rfl, eq_of_beq hclose⟩
    · cases h
  · cases h

/-- The last token of an exponent in braces closes them. -/
theorem exists_close_of_bracedExponent? {text : String} {count : Nat}
    (h : bracedExponent? tokens = some (text, count)) :
    ∃ n c, count = n + 1 ∧ tokens[n]? = some c ∧ c.kind = .groupClose := by
  unfold bracedExponent? at h
  split at h
  · next opening first rest =>
    split at h
    · cases h
    · split at h
      · obtain ⟨run, hrun, heq⟩ := Option.map_eq_some_iff.mp h
        cases heq
        obtain ⟨c, hc, hclose⟩ := exists_close_of_digitsToBrace? hrun
        exact ⟨3, c, rfl, hc, hclose⟩
      · obtain ⟨run, hrun, heq⟩ := Option.map_eq_some_iff.mp h
        cases heq
        obtain ⟨c, hc, hclose⟩ := exists_close_of_digitsToBrace? hrun
        exact ⟨2, c, rfl, hc, hclose⟩
  · cases h

theorem Ahead.drop_exponentText? {text : String} {count : Nat} (hs : b.Ahead tokens)
    (h : exponentText? tokens = some (text, count)) : b.Ahead (tokens.drop count) := by
  unfold exponentText? at h
  split at h
  · next run hrun =>
    split at h
    · cases h
      obtain ⟨digits, hdigits, hrun⟩ := Option.bind_eq_some_iff.mp hrun
      obtain ⟨rest, rfl⟩ := List.head?_eq_some_iff.mp hdigits
      exact hs.tail (ne_groupOpen_of_isPlain (isPlain_of_digits? (Option.isSome_of_eq_some hrun)))
    · cases h
  · obtain ⟨n, c, rfl, hc, hclose⟩ := exists_close_of_bracedExponent? h
    exact hs.drop_of_close hc hclose

theorem spares_exponent (s : State) : b.Spares env s exponent := by
  refine .get fun _ => ?_
  split
  · next text count hpower =>
    refine .skip (fun hs => ?_) .pure
    unfold powerOfTen? at hpower
    split at hpower
    · next times ten caret rest hrest =>
      split at hpower
      · next hten =>
        simp only [Bool.and_eq_true, Bool.or_eq_true, beq_iff_eq] at hten
        obtain ⟨⟨htimes, hten⟩, hcaret⟩ := hten
        obtain ⟨⟨text', count'⟩, hexponent, heq⟩ := Option.map_eq_some_iff.mp hpower
        cases heq
        rw [hrest] at hs ⊢
        have htimes := ne_groupOpen_of_isPlain (htimes.elim isPlain_of_isCommand isPlain_of_isCommand)
        have hten : ten.kind ≠ .groupOpen := by
          rw [hten]
          nofun
        exact (((hs.tail htimes).tail hten).tail (ne_groupOpen_of_isPunct hcaret)).drop_exponentText?
          hexponent
      · cases hpower
    · cases hpower
  · exact .pure

theorem spares_number (negative : Bool) (s : State) : b.Spares env s (number env negative) := by
  refine .current fun _ => .bind (spares_wholeDigits s) fun whole t => ?_
  refine .bind (spares_fractionDigits whole t) fun fraction u => ?_
  refine .bind (spares_exponent u) fun exponent v => ?_
  dsimp only
  split
  · exact .pure
  · exact .get fun _ => .record fun _ => .pure

theorem spares_signedNumber (negative : Bool) (hsign : (s.current env).kind ≠ .groupOpen) :
    b.Spares env s (signedNumber env negative) :=
  .attempt (.advance hsign (.bind (spares_number negative _) fun _ _ => .current fun _ =>
    .ite (fun _ => .pure) fun _ => .pure))

theorem spares_firstDigit {run : String} (h : (s.current env).digits? = some run) :
    b.Spares env s (firstDigit run) := by
  unfold firstDigit
  split
  · exact .pure
  · exact .plain (isPlain_of_digits? (Option.isSome_of_eq_some h)) .pure
  · exact .cutDigit .pure

/-! ### Groups and arguments -/

/-- The readers of the next level spare the brace. -/
structure Sparing (b : OpenBrace) (env : Env) (inner : Inner) : Prop where
  expression (loosest : Precedence) (s : State) : b.Spares env s (inner.expression loosest)
  operand (s : State) : b.Spares env s inner.operand

/-- The source has an open brace. -/
def Of (b : OpenBrace) (env : Env) : Prop :=
  b.Ahead (Token.meaningful env.source)

/-- What stands behind a brace that closes a group in the source is in front of the open brace. -/
theorem Of.ahead_forward (hb : b.Of env) (hs : s.OfSource env)
    (hclose : (s.current env).kind = .groupClose) : b.Ahead (s.forward 1).rest := by
  rw [State.rest_forward]
  cases hrest : s.rest with
  | nil =>
    rw [State.current_of_rest_nil hrest] at hclose
    cases hclose
  | cons c rest =>
    rw [State.current_of_rest hrest] at hclose
    rw [State.OfSource, hrest] at hs
    have hdigits : c.digits? = none := by rw [Token.digits?, hclose]
    exact hb.of_suffix (hs.cons_suffix hdigits) hclose

section

variable (hi : b.Sparing env inner)

include hi

theorem spares_groupBody {closing : Token.Kind} (hclosing : closing ≠ .groupOpen) (close : String)
    (s : State) : b.Spares env s (groupBody env inner close closing) := by
  refine .bind (.awaiting (hi.expression .loosest)) fun body t => .current fun _ => ?_
  dsimp only
  refine .ite (fun hkind => .advance ?_ .pure) fun _ => .recordHere fun _ => .pure
  rw [eq_of_beq hkind]
  exact hclosing

theorem yields_groupBody (hb : b.Of env) (close : String) (s : State) :
    Yields env [] (fun _ t => b.Ahead t.rest) s (groupBody env inner close .groupClose) := by
  refine .after (fun _ => .awaiting (.of_advances (Spares.advances (hi.expression .loosest)))
    fun _ _ => id) fun body t hs => ?_
  refine Yields.current (fun _ => ?_) hs
  dsimp only
  refine .ite (fun hkind => .advance (.pure ?_)) fun _ =>
    .bind (reported_recordHere _ _ t) fun _ _ => .pure False.elim
  exact hb.ahead_forward hs (eq_of_beq hkind)

/-- A group behind the token that opens it. -/
theorem spares_group {α : Type} {closing : Token.Kind} {f : Expression → Parser α} (hb : b.Of env)
    (hkind : (s.current env).kind = .groupOpen → closing = .groupClose)
    (hclosing : closing ≠ .groupOpen) (close : String) (hf : ∀ e t, b.Spares env t (f e)) :
    b.Spares env s (advance >>= fun _ => groupBody env inner close closing >>= f) := by
  by_cases hopen : (s.current env).kind = .groupOpen
  · rw [hkind hopen]
    exact .of_yields (.advance (.bind (yields_groupBody hi hb close _) fun e t => hf e t))
  · exact .advance hopen (.bind (spares_groupBody hi hclosing close _) hf)

theorem spares_braceGroup (hb : b.Of env) (s : State) : b.Spares env s (braceGroup env inner) :=
  .skipSpacing fun _ => .current fun _ => .ite
    (fun _ => spares_group hi hb (fun _ => rfl) nofun _ fun _ _ => .pure) fun _ => .pure

theorem spares_bracketGroup (hb : b.Of env) (s : State) :
    b.Spares env s (bracketGroup env inner) := by
  refine .skipSpacing fun t => .current fun _ => .ite (fun hopen => ?_) fun _ => .pure
  refine spares_group hi hb (fun h => ?_) (by nofun) _ fun _ _ => .pure
  rw [h] at hopen
  cases hopen

theorem spares_argument (hb : b.Of env) (command : String) (s : State) :
    b.Spares env s (argument env inner command) := by
  refine .bind (spares_braceGroup hi hb s) fun group t => ?_
  split
  · exact .pure
  · refine .current fun _ => ?_
    split
    · next run hrun => exact spares_firstDigit hrun
    · refine .bind (hi.operand t) fun operand u => ?_
      split
      · exact .pure
      · exact .recordHere fun _ => .pure

theorem spares_arguments (hb : b.Of env) (command : String) (count : Nat) (s : State) :
    b.Spares env s (arguments env inner command count) := by
  induction count generalizing s with
  | zero => exact .pure
  | succ count ih =>
    exact .bind (spares_argument hi hb command s) fun _ t => .bind (ih t) fun _ _ => .pure

theorem spares_delimitedArguments (hb : b.Of env) (hopen : (s.current env).isPunct '(') :
    b.Spares env s (delimitedArguments env inner) :=
  spares_group hi hb (fun h => absurd h (ne_groupOpen_of_isPunct hopen)) (by nofun) _ fun _ _ => .pure

theorem spares_functionArguments (hb : b.Of env) (command : String) (s : State) :
    b.Spares env s (functionArguments env inner command) := by
  refine .skipSpacing fun t => .current fun _ => .ite (spares_delimitedArguments hi hb) fun _ => ?_
  refine .bind (hi.expression _ t) fun argument u => ?_
  dsimp only
  exact .ite (fun _ => .recordHere fun _ => .pure) fun _ => .pure

end

theorem spares_rawGroup (s : State) : b.Spares env s (rawGroup env) := by
  refine .skipSpacing fun t => .get fun _ => ?_
  split
  · exact .pure
  · next opening rest hrest =>
    refine .ite (fun _ => .pure) fun _ => ?_
    split
    · next count hcount =>
      obtain ⟨closing, hclosing, hclose⟩ := getElem?_of_closing? hcount
      refine .skip (fun hs => ?_) (.get fun _ => .pure)
      rw [hrest] at hs ⊢
      exact hs.drop_of_close (n := count + 1) hclosing hclose
    · -- what is skipped here is reported
      exact .of_reported (.skip (.bind (reported_recordHere _ _ _) fun _ _ => .pure False.elim))

/-! ### Built-in shapes -/

/-- A growing delimiter is not the open brace, even if it is a brace. -/
theorem Ahead.drop_grown (h : b.Ahead s.rest) (hgrows : TakesDelimiter (s.current env)) :
    b.Ahead (s.rest.drop 2) := by
  cases hrest : s.rest with
  | nil =>
    rw [hrest] at h
    exact absurd h Ahead.not_nil
  | cons t rest =>
    rw [State.current_of_rest hrest] at hgrows
    rw [hrest] at h
    exact h.drop_two hgrows

theorem spares_leftRight (hi : b.Sparing env inner) (hleft : (s.current env).kind = .command "left") :
    b.Spares env s (leftRight env inner) := by
  rw [leftRight_eq]
  refine Yields.advance (.current fun _ => .advance ?_)
  have hbody (u : State) : b.Spares env u (awaiting "\\right" (inner.expression .loosest)) :=
    .awaiting (hi.expression .loosest)
  refine (Spares.bind (hbody _) fun body t => .current fun _ => ?_).mono fun _ _ ht hs => ht ?_
  · refine .ite (fun hright => ?_) fun _ => .recordHere fun _ => .pure
    have hgrows : TakesDelimiter (t.current env) := .inr (eq_of_beq hright)
    exact .skip (fun ht => ht.drop_grown hgrows) .pure
  · rw [State.rest_forward, State.rest_forward, List.drop_drop]
    exact hs.drop_grown (.inl hleft)

/-- A token that cannot be read is reported. -/
theorem spares_unexpected {α : Type} {token : Token} {f : Operand → Parser α}
    (hf : ∀ x t, b.Spares env t (f x)) : b.Spares env s (unexpected env token >>= f) :=
  .bind (.of_reported (reported_unexpected token s)) hf

theorem spares_builtin (hi : b.Sparing env inner) (hb : b.Of env) (s : State) :
    b.Spares env s (builtin env inner) := by
  refine .get fun _ => ?_
  dsimp only
  cases hkind : (s.current env).kind with
  | digits run => exact .bind (spares_number false s) fun _ _ => .pure
  | punct c =>
    have hmark : (s.current env).kind ≠ .groupOpen := by
      rw [hkind]
      nofun
    have hparenthesized : b.Spares env s (parenthesized env inner) :=
      spares_group hi hb (absurd · hmark) (by nofun) _ fun _ _ => .pure
    refine .ite (fun _ => .bind hparenthesized fun _ _ => .pure) fun _ => .ite (fun _ => ?_) fun _ => ?_
    · exact .bind (spares_number false s) fun _ _ => .pure
    · exact .ite (fun _ => spares_signedNumber _ hmark) fun _ => .pure
  | groupOpen =>
    have hbraced : b.Spares env s (braced env inner) :=
      spares_group hi hb (fun _ => rfl) nofun _ fun _ _ => .pure
    exact .bind hbraced fun _ _ => .pure
  | command name =>
    refine .ite (fun hleft => .bind (spares_leftRight hi ?_) fun _ _ => .pure) fun _ => .pure
    rw [hkind, eq_of_beq hleft]
  | loneBackslash => exact spares_unexpected fun _ _ => .pure
  | _ => exact .pure

end TexFormula.Parser.OpenBrace
