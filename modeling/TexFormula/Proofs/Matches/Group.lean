import TexFormula.Proofs.Matches

/-!
# Numerals and groups that are closed

Numerals, groups, arguments and the built-in shapes leave nothing open unless they are reported
(`Parser.Matches`).
-/

namespace TexFormula.Parser

open Token (Balanced isPlain_of_digits? isPlain_of_isCommand isPlain_of_isPunct isPlain_of_trigger?)

variable {env : Env} {inner : Inner} {s t : State} {delimiter : Delimiter}

/-- The commands behind which delimiters are read as they stand. -/
def verbatimCommands : List String :=
  ["left", "operatorname", "mathrm", "text", "placeholder"]

/-- No token of the source is one of these commands. -/
def WithoutVerbatim (source : String) : Prop :=
  ∀ t ∈ Token.ofSource source, ∀ name ∈ verbatimCommands, ¬t.isCommand name

instance : DecidablePred WithoutVerbatim :=
  fun _ => inferInstanceAs (Decidable (∀ _ ∈ _, ∀ _ ∈ _, _))

theorem WithoutVerbatim.not_isCommand {source name : String} {token : Token}
    (h : WithoutVerbatim source) (htoken : token ∈ Token.meaningful source)
    (hname : name ∈ verbatimCommands) : ¬token.isCommand name :=
  h token (List.mem_of_mem_filter htoken) name hname

/-! ### Numerals -/

/-- What holds of the marks and of all digits holds of the tokens of the groups. -/
theorem forall_mem_digitGroups {P : Token → Prop} {isMark : Token → Bool}
    (hmark : ∀ t, isMark t → P t) (hdigits : ∀ t, t.digits?.isSome → P t) (stop : Nat)
    (tokens : List Token) : ∀ t ∈ tokens.take (2 * (digitGroups isMark stop tokens).length), P t := by
  fun_induction digitGroups isMark stop tokens with
  | case1 stop mark group rest h ih =>
    simp only [Bool.and_eq_true] at h
    rw [List.length_cons, Nat.mul_succ, List.take_succ_cons, List.take_succ_cons]
    simp only [List.forall_mem_cons]
    exact ⟨hmark mark h.1.1.1, hdigits group h.2, ih⟩
  | case2 => exact List.forall_mem_nil _
  | case3 => exact List.forall_mem_nil _

theorem isPlain_of_mem_digitGroups {isMark : Token → Bool} (hmark : ∀ t, isMark t → t.kind.isPlain)
    (stop : Nat) (tokens : List Token) :
    ∀ t ∈ tokens.take (2 * (digitGroups isMark stop tokens).length), t.kind.isPlain :=
  forall_mem_digitGroups hmark (fun _ => isPlain_of_digits?) stop tokens

theorem balanced_digitGroups {isMark : Token → Bool} (hmark : ∀ t, isMark t → t.kind.isPlain)
    (stop : Nat) (tokens : List Token) :
    Balanced (tokens.take (2 * (digitGroups isMark stop tokens).length)) :=
  .of_forall_plain (isPlain_of_mem_digitGroups hmark stop tokens)

theorem matches_thinSpaceGroups (run : String) (s : State) :
    Matches env [] s (thinSpaceGroups env run) :=
  .get fun _ => .skip (balanced_digitGroups (fun _ => isPlain_of_isCommand) _ _) .pure

theorem matches_commaGroups (run : String) (s : State) : Matches env [] s (commaGroups env run) := by
  have hcomma (t : Token) (ht : t.isPunct ',') : t.kind.isPlain :=
    isPlain_of_isPunct ht (by decide) (by decide)
  refine .get fun _ => ?_
  dsimp only
  split
  · exact .pure
  · refine .ite (fun _ => .skip (balanced_digitGroups hcomma _ _) .pure) fun _ => ?_
    exact .ite (fun _ => .record fun _ => .pure) fun _ => .pure

theorem matches_wholeDigits (s : State) : Matches env [] s (wholeDigits env) := by
  refine .current fun _ => ?_
  split
  · exact .pure
  · next run hrun =>
    refine .advance (isPlain_of_digits? (Option.isSome_of_eq_some hrun)) (.get fun _ => ?_)
    exact .ite (fun _ => matches_commaGroups run _) fun _ => matches_thinSpaceGroups run _

theorem matches_barredDigits (s : State) : Matches env [] s barredDigits := by
  refine .get fun _ => ?_
  split
  · next bar opening digits closing rest hrest =>
    refine .ite (fun hgroup => ?_) fun _ => .pure
    simp only [Bool.and_eq_true, beq_iff_eq] at hgroup
    obtain ⟨⟨hbar, hopen⟩, hclose⟩ := hgroup
    split
    · next run hrun =>
      have hdigits : Balanced [digits] :=
        .plain (isPlain_of_digits? (Option.isSome_of_eq_some hrun)) .nil
      refine .skip ?_ .pure
      rw [hrest]
      exact .plain (isPlain_of_isCommand hbar)
        (.pair (congrArg Token.Kind.opens? hopen) hdigits (congrArg Token.Kind.closes? hclose) .nil)
    · exact .pure
  · exact .pure

theorem matches_fractionDigits (whole : String) (s : State) :
    Matches env [] s (fractionDigits env whole) := by
  refine .get fun _ => ?_
  dsimp only
  refine .ite (fun _ => .pure) fun hpoint => ?_
  have hplain : (s.current env).kind.isPlain :=
    isPlain_of_isPunct (by simpa using hpoint) (c := '.') (by decide) (by decide)
  refine .ite (fun _ => .advance hplain (.current fun _ => ?_)) fun _ => ?_
  · split
    · next run hrun =>
      refine .advance (isPlain_of_digits? (Option.isSome_of_eq_some hrun)) ?_
      refine .bind (matches_thinSpaceGroups run _) fun _ t => ?_
      exact .bind (matches_barredDigits t) fun _ _ => .pure
    · exact .bind .pure fun _ t => .bind (matches_barredDigits t) fun _ _ => .pure
  · exact .ite (fun _ => .advance hplain .pure) fun _ => .pure

theorem sign?_isPlain {sign : Token} {text : String} (h : sign? sign = some text) :
    sign.kind.isPlain := by
  unfold sign? at h
  split at h
  · next hminus => exact isPlain_of_isPunct hminus (by decide) (by decide)
  · split at h
    · next hplus => exact isPlain_of_isPunct hplus (by decide) (by decide)
    · cases h

/-- Digits up to a brace, with a brace in front and plain tokens between. -/
theorem balanced_digitsToBrace? {opening : Token} {signs tokens : List Token} {run : String}
    (hopen : opening.kind = .groupOpen) (hsigns : Balanced signs)
    (h : digitsToBrace? tokens = some run) : Balanced (opening :: (signs ++ tokens.take 2)) := by
  unfold digitsToBrace? at h
  split at h
  · next digits closing rest =>
    split at h
    · next hclose =>
      have hdigits : digits.kind.isPlain := isPlain_of_digits? (Option.isSome_of_eq_some h)
      have hinner : Balanced (signs ++ [digits]) := hsigns.append (.plain hdigits .nil)
      rw [List.take_succ_cons, List.take_succ_cons, List.take_zero,
        List.append_cons signs digits [closing]]
      exact .pair (congrArg Token.Kind.opens? hopen) hinner
        (congrArg Token.Kind.closes? (eq_of_beq hclose)) .nil
    · cases h
  · cases h

theorem balanced_bracedExponent? {tokens : List Token} {text : String} {count : Nat}
    (h : bracedExponent? tokens = some (text, count)) : Balanced (tokens.take count) := by
  unfold bracedExponent? at h
  split at h
  · next opening first rest =>
    split at h
    · cases h
    · next hopen =>
      have hkind : opening.kind = .groupOpen := by simpa using hopen
      split at h
      · next sign hsign =>
        obtain ⟨run, hrun, heq⟩ := Option.map_eq_some_iff.mp h
        cases heq
        exact balanced_digitsToBrace? hkind (.plain (sign?_isPlain hsign) .nil) hrun
      · obtain ⟨run, hrun, heq⟩ := Option.map_eq_some_iff.mp h
        cases heq
        exact balanced_digitsToBrace? hkind .nil hrun
  · cases h

theorem balanced_exponentText? {tokens : List Token} {text : String} {count : Nat}
    (h : exponentText? tokens = some (text, count)) : Balanced (tokens.take count) := by
  unfold exponentText? at h
  split at h
  · next run hrun =>
    split at h
    · cases h
      cases tokens with
      | nil => exact .nil
      | cons digits rest => exact .plain (isPlain_of_digits? (Option.isSome_of_eq_some hrun)) .nil
    · cases h
  · exact balanced_bracedExponent? h

theorem balanced_powerOfTen? {tokens : List Token} {text : String} {count : Nat}
    (h : powerOfTen? tokens = some (text, count)) : Balanced (tokens.take count) := by
  unfold powerOfTen? at h
  split at h
  · next times ten caret rest =>
    split at h
    · next hten =>
      simp only [Bool.and_eq_true, Bool.or_eq_true, beq_iff_eq] at hten
      obtain ⟨⟨htimes, hten⟩, hcaret⟩ := hten
      obtain ⟨⟨text', count'⟩, hexponent, heq⟩ := Option.map_eq_some_iff.mp h
      cases heq
      refine .plain (htimes.elim isPlain_of_isCommand isPlain_of_isCommand) (.plain ?_ (.plain ?_ ?_))
      · rw [hten]
        rfl
      · exact isPlain_of_isPunct hcaret (by decide) (by decide)
      · exact balanced_exponentText? hexponent
    · cases h
  · cases h

theorem matches_exponent (s : State) : Matches env [] s exponent := by
  refine .get fun _ => ?_
  split
  · next hpower => exact .skip (balanced_powerOfTen? hpower) .pure
  · exact .pure

theorem matches_number (negative : Bool) (s : State) : Matches env [] s (number env negative) := by
  refine .current fun _ => .bind (matches_wholeDigits s) fun whole t => ?_
  refine .bind (matches_fractionDigits whole t) fun fraction u => ?_
  refine .bind (matches_exponent u) fun exponent v => ?_
  dsimp only
  split
  · exact .pure
  · exact .get fun _ => .record fun _ => .pure

theorem matches_signedNumber (negative : Bool) (hsign : (s.current env).kind.isPlain) :
    Matches env [] s (signedNumber env negative) :=
  .attempt (.advance hsign (.bind (matches_number negative _) fun _ _ => .current fun _ =>
    .ite (fun _ => .pure) fun _ => .pure))

theorem matches_firstDigit {run : String} (h : (s.current env).digits? = some run) :
    Matches env [] s (firstDigit run) := by
  unfold firstDigit
  split
  · exact .pure
  · exact .advance (isPlain_of_digits? (Option.isSome_of_eq_some h)) .pure
  · exact .cutDigit .pure

/-! ### Groups and arguments -/

/-- The readers of the next level leave nothing open. -/
structure Inner.Matching (env : Env) (inner : Inner) : Prop where
  expression (loosest : Precedence) (s : State) : Matches env [] s (inner.expression loosest)
  operand (s : State) : Matches env [] s inner.operand

section

variable (hi : inner.Matching env)

include hi

theorem matches_groupBody {closing : Token.Kind} (hclose : closing.closes? = some delimiter)
    (close : String) (s : State) : Matches env [delimiter] s (groupBody env inner close closing) := by
  refine .bind (.awaiting (hi.expression .loosest)) fun body t => .current fun _ => ?_
  dsimp only
  refine .ite (fun hkind => .closing ?_ .pure) fun _ => .recordHere fun _ => .pure
  rw [eq_of_beq hkind]
  exact hclose

/-- A group behind the delimiter that opens it. -/
theorem matches_group {α : Type} {closing : Token.Kind} {f : Expression → Parser α}
    (hopen : (s.current env).kind.opens? = some delimiter) (hclose : closing.closes? = some delimiter)
    (close : String) (hf : ∀ e t, Matches env [] t (f e)) :
    Matches env [] s (advance >>= fun _ => groupBody env inner close closing >>= f) :=
  .opening hopen (.followed (matches_groupBody hi hclose close _) hf)

theorem matches_braceGroup (s : State) : Matches env [] s (braceGroup env inner) := by
  refine .skipSpacing fun t => .current fun _ => .ite (fun hopen => ?_) fun _ => .pure
  exact matches_group hi (congrArg Token.Kind.opens? (eq_of_beq hopen)) rfl _ fun _ _ => .pure

theorem matches_bracketGroup (s : State) : Matches env [] s (bracketGroup env inner) := by
  refine .skipSpacing fun t => .current fun _ => .ite (fun hopen => ?_) fun _ => .pure
  exact matches_group hi (congrArg Token.Kind.opens? (eq_of_beq hopen)) rfl _ fun _ _ => .pure

theorem matches_argument (command : String) (s : State) :
    Matches env [] s (argument env inner command) := by
  refine .bind (matches_braceGroup hi s) fun group t => ?_
  split
  · exact .pure
  · refine .current fun _ => ?_
    split
    · next run hrun => exact matches_firstDigit hrun
    · refine .bind (hi.operand t) fun operand u => ?_
      split
      · exact .pure
      · exact .recordHere fun _ => .pure

theorem matches_arguments (command : String) (count : Nat) (s : State) :
    Matches env [] s (arguments env inner command count) := by
  induction count generalizing s with
  | zero => exact .pure
  | succ count ih =>
    exact .bind (matches_argument hi command s) fun _ t => .bind (ih t) fun _ _ => .pure

theorem matches_delimitedArguments (hopen : (s.current env).isPunct '(') :
    Matches env [] s (delimitedArguments env inner) := by
  exact matches_group hi (congrArg Token.Kind.opens? (eq_of_beq hopen)) rfl _ fun _ _ => .pure

theorem matches_functionArguments (command : String) (s : State) :
    Matches env [] s (functionArguments env inner command) := by
  refine .skipSpacing fun t => .current fun _ => .ite (matches_delimitedArguments hi) fun _ => ?_
  refine .bind (hi.expression _ t) fun argument u => ?_
  dsimp only
  exact .ite (fun _ => .recordHere fun _ => .pure) fun _ => .pure

/-! ### Built-in shapes -/

theorem matches_parenthesized (hopen : (s.current env).kind = .punct '(') :
    Matches env [] s (parenthesized env inner) :=
  matches_group hi (congrArg Token.Kind.opens? hopen) rfl _ fun _ _ => .pure

theorem matches_braced (hopen : (s.current env).kind = .groupOpen) :
    Matches env [] s (braced env inner) :=
  matches_group hi (congrArg Token.Kind.opens? hopen) rfl _ fun _ _ => .pure

omit hi in
/-- A token that cannot be read is always reported. -/
theorem reported_unexpected (token : Token) (s : State) :
    Yields env [] (fun _ _ => False) s (unexpected env token) :=
  .advance (.recordAt fun _ => .pure nofun)

omit hi in
theorem matches_unexpected {α : Type} {owed : List Delimiter} {token : Token} {f : Operand → Parser α}
    (hf : ∀ x t, Matches env [] t (f x)) : Matches env owed s (unexpected env token >>= f) :=
  Yields.bind (reported_unexpected token s) fun x t => (hf x t).mono fun _ _ _ => False.elim

theorem matches_builtin (hverbatim : WithoutVerbatim env.source) (s : State) :
    Matches env [] s (builtin env inner) := by
  unfold builtin
  refine .get fun hs => ?_
  dsimp only
  cases hkind : (s.current env).kind with
  | digits run => exact .bind (matches_number false s) fun _ _ => .pure
  | punct c =>
    refine .ite (fun hc => ?_) fun _ => .ite (fun _ => ?_) fun _ => ?_
    · rw [eq_of_beq hc] at hkind
      exact .bind (matches_parenthesized hi hkind) fun _ _ => .pure
    · exact .bind (matches_number false s) fun _ _ => .pure
    · refine .ite (fun hsign => matches_signedNumber _ ?_) fun _ => .pure
      rw [Bool.and_eq_true, Bool.or_eq_true, beq_iff_eq, beq_iff_eq] at hsign
      rw [hkind]
      rcases hsign.1 with rfl | rfl <;> rfl
  | groupOpen => exact .bind (matches_braced hi hkind) fun _ _ => .pure
  | command name =>
    refine .ite (fun hleft => ?_) fun _ => .pure
    rw [eq_of_beq hleft] at hkind
    have htrigger : (s.current env).trigger? = some "\\left" := by
      rw [Token.trigger?, hkind]
      rfl
    have hmem := hs.has_current.mem_of_trigger htrigger
    have hverbatim := hverbatim.not_isCommand hmem (show "left" ∈ verbatimCommands by decide)
    refine absurd ?_ hverbatim
    rw [Token.isCommand, hkind]
    rfl
  | loneBackslash => exact matches_unexpected fun _ _ => .pure
  | _ => exact .pure

end

end TexFormula.Parser
