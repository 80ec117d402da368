import TexFormula.Proofs.SkippedLetters.Group
import TexFormula.Proofs.UnknownCommands

/-!
# Operands between letters

One operand with and without the letters in front of it and in it. Behind it no parenthesis applies it
(`OperandRead`), since letters are read for nothing.
-/

namespace TexFormula.Parser

open Token (sift sift_cons_of_isLetter sift_cons_of_not_isLetter lettersApart)

variable {env : Env} {inner : Inner} {s s' t t' : State} {token : Token} {rest : List Token}

/-! ### Built-in shapes -/

/-- How an operand ends. No parenthesis behind it applies it. -/
structure OperandRead (x : Operand) (t : State) : Prop where
  callable : x.callable = false
  ends : ValueEnds x.expression t

/-- How an operand ends, or nothing has been read. -/
structure OperandEnds (s : State) (o : Option Operand) (t : State) : Prop where
  eq_of_none : o = none → t = s
  read {x : Operand} : o = some x → OperandRead x t

theorem OperandEnds.none : OperandEnds s none s :=
  ⟨fun _ => rfl, nofun⟩

theorem OperandEnds.some {e : Expression} (h : ValueEnds e t) :
    OperandEnds s (some { expression := e }) t := by
  refine ⟨nofun, fun hx => ?_⟩
  cases hx
  exact ⟨rfl, h⟩

theorem ValueEnds.of_present {e : Expression} (he : e.isMissing = false) (ht : t.Sated) :
    ValueEnds e t :=
  ⟨ht, fun hmissing => by rw [he] at hmissing; cases hmissing⟩

theorem not_atLetter_of_startsNumber (h : startsNumber s.rest = true) : s.atLetter = false := by
  rcases hrest : s.rest with - | ⟨t, rest⟩
  · rw [hrest] at h
    cases h
  · rw [hrest, startsNumber, Bool.or_eq_true] at h
    rw [State.atLetter_of_rest hrest]
    rcases h with hdigits | hpoint
    · exact Token.not_isLetter_of_digits? hdigits
    · exact not_isLetter_of_isPunct (Bool.and_eq_true_iff.mp hpoint).1

theorem Sifted.startsNumber (h : Sifted s s') (hs : s.atLetter = false) :
    startsNumber s'.rest = startsNumber s.rest := by
  rcases hrest : s.rest with - | ⟨t, rest⟩
  · rw [h.rest_nil hrest]
  · have ht := (State.atLetter_of_rest hrest).symm.trans hs
    rw [h.rest_cons hrest ht, Parser.startsNumber, Parser.startsNumber]
    cases hpoint : t.isPunct '.' with
    | false => rfl
    | true => rw [h.digits?_behind hrest ht (joins_of_isPunct_point hpoint)]

theorem joins_of_sign (h : token.isPunct '+' ∨ token.isPunct '-') {u : Token}
    (hu : u.digits?.isSome ∨ u.isPunct '.') : token.joins u = true := by
  rcases h with h | h <;> rcases hu with hu | hu <;> simp [Token.joins, h, hu]

/-- Behind a sign a number starts on both sides or on none. -/
theorem Sifted.startsNumber_behind (h : Sifted s s') (hs : s.rest = token :: rest)
    (hsign : token.isPunct '+' ∨ token.isPunct '-') :
    Parser.startsNumber (s'.rest.drop 1) = Parser.startsNumber (s.rest.drop 1) := by
  have ht : token.isLetter = false := by
    rcases hsign with hsign | hsign <;> exact not_isLetter_of_isPunct hsign
  have hnext := h.forward_one ((State.atLetter_of_rest hs).trans ht)
  rw [← State.rest_forward, ← State.rest_forward]
  cases hletter : (s.forward 1).atLetter with
  | false => exact hnext.startsNumber hletter
  | true =>
    obtain ⟨l, behind, hrest, hl⟩ := State.exists_of_atLetter hletter
    have hleft : Parser.startsNumber (s.forward 1).rest = false := by
      by_contra hstarts
      rw [not_atLetter_of_startsNumber (Bool.eq_true_of_not_eq_false hstarts)] at hletter
      cases hletter
    have hapart := hnext.apart
    rw [hrest, State.sift_seen_forward_one hs ht] at hapart
    have hparts := (Token.parts_of_lettersApart hapart hl).1
    rw [hleft, hnext.rest, hrest, sift_cons_of_isLetter hl]
    rcases hsift : sift behind with - | ⟨u, more⟩
    · rfl
    · rw [hsift] at hparts
      by_contra hstarts
      have hstarts := Bool.eq_true_of_not_eq_false hstarts
      rw [Parser.startsNumber, Bool.or_eq_true] at hstarts
      have hjoins := joins_of_sign hsign (hstarts.imp_right fun h => (Bool.and_eq_true_iff.mp h).1)
      rw [Token.not_joins_of_parts hparts] at hjoins
      cases hjoins

/-- A sign stands in front of a number in both states or in none. -/
theorem Sifted.startsNumber_signed {c : Char} (h : Sifted s s') (hc : (s.current env).isPunct c) :
    ((c == '-' || c == '+') && Parser.startsNumber (s'.rest.drop 1)) =
      ((c == '-' || c == '+') && Parser.startsNumber (s.rest.drop 1)) := by
  obtain ⟨t, rest, hrest⟩ := List.exists_cons_of_ne_nil (rest_ne_nil_of_isPunct hc)
  rw [State.current_of_rest hrest] at hc
  cases hsign : c == '-' || c == '+' with
  | false => rfl
  | true =>
    rw [h.startsNumber_behind hrest]
    rcases Bool.or_eq_true_iff.mp hsign with hsign | hsign
    · rw [← eq_of_beq hsign]
      exact .inr hc
    · rw [← eq_of_beq hsign]
      exact .inl hc

/-- Behind an operand there is an operator mark on both sides or on none. -/
theorem Sifted.isPunct_operator (h : Sifted s s') (hsated : s.Sated) {c : Char}
    (hc : Dictionary.standard.hasOperator (String.singleton c) = true) :
    (s'.current env).isPunct c = (s.current env).isPunct c := by
  cases hs : s.atLetter with
  | false => rw [h.current hs]
  | true =>
    obtain ⟨l, rest, hrest, hl⟩ := State.exists_of_atLetter hs
    obtain ⟨d, hkind⟩ := Token.exists_kind_of_isLetter hl
    have hleft : (s.current env).isPunct c = false := by
      rw [State.current_of_rest hrest, Token.isPunct, hkind]
      rfl
    rw [hleft, isPunct_current]
    rcases hrest' : s'.rest with - | ⟨u, behind⟩
    · rfl
    · by_contra hpunct
      have hu : u.isPunct c := Bool.eq_true_of_not_eq_false hpunct
      have hkind : u.kind = .punct c := by simpa [Token.isPunct] using hu
      have hoperates := h.not_operates hsated hs (by rw [hrest']; rfl)
      rw [Token.operates, Token.trigger?, hkind] at hoperates
      exact Bool.false_ne_true (hoperates.symm.trans hc)

theorem sifts_signedNumber (negative : Bool) (h : Sifted s s') (hs : s.atLetter = false)
    (hstarts : startsNumber (s.forward 1).rest = true) :
    Sifts (OperandEnds s) s s' (signedNumber env negative) (signedNumber env negative) := by
  refine .attempt (Q := fun o t => ∀ x : Operand, o = some x → OperandRead x t) h ?_ .none
    fun x t hx => ⟨nofun, fun {y} hy => hx y hy⟩
  refine .advance h hs fun hnext => ?_
  refine .bind (sifts_number negative hnext (not_atLetter_of_startsNumber hstarts) hstarts)
    fun value t t' ht hends => .currents ?_
  have hcaret : (t'.current env).isPunct '^' = (t.current env).isPunct '^' :=
    ht.isPunct_operator hends.2.sated (by decide +kernel)
  rw [hcaret]
  refine .ite (fun _ => .pure ht nofun) fun _ => .pure ht fun x hx => ?_
  cases hx
  exact ⟨rfl, .of_present hends.1 hends.2.sated⟩

/-- The token opens no group that is built in. -/
def OpensNoGroup (t : Token) : Prop :=
  t.kind ≠ .groupOpen ∧ t.kind ≠ .punct '('

theorem startsNumber_of_digits? (h : (s.current env).digits?.isSome) : startsNumber s.rest = true := by
  obtain ⟨t, rest, hrest⟩ := List.exists_cons_of_ne_nil (rest_ne_nil_of_digits? h)
  rw [State.current_of_rest hrest] at h
  rw [hrest, startsNumber, h, Bool.true_or]

/-- A token that cannot be read. -/
theorem sifts_unexpected (h : Sifted s s') (hs : s.atLetter = false) :
    Sifts (fun x t => (s.current env).awaitsOperand = false → OperandRead x t) s s'
      (unexpected env (s.current env)) (unexpected env (s.current env)) := by
  refine .advance h hs fun hnext => .record hnext nofun fun t t' ht hseen hrest =>
    .pure ht fun hawaits => ?_
  refine ⟨rfl, .of_present rfl (State.Sated.congr ?_ hseen hrest)⟩
  cases hnil : s.rest with
  | nil =>
    rw [State.forward_of_rest_nil hnil]
    exact .of_not hs
  | cons u rest =>
    rw [State.current_of_rest hnil] at hawaits
    exact .forward_one hnil ((State.atLetter_of_rest hnil).symm.trans hs) hawaits

section

variable (hlevel : SiftsLevel env inner)

include hlevel

theorem sifts_parenthesized (h : Sifted s s') (hs : s.atLetter = false) :
    Sifts OperandRead s s' (parenthesized env inner) (parenthesized env inner) := by
  refine .advance h hs fun hnext => ?_
  refine .bind (sifts_groupBody hlevel closesGroup_parenthesis hnext) fun body t t' ht hends => ?_
  refine .pure ht ⟨rfl, .of_present ?_ hends.sated⟩
  dsimp only
  split
  · rfl
  · next hpresent => exact Bool.eq_false_of_not_eq_true hpresent

theorem sifts_braced (h : Sifted s s') (hs : s.atLetter = false)
    (hopen : (s.current env).kind = .groupOpen) :
    Sifts OperandRead s s' (braced env inner) (braced env inner) :=
  (sifts_group hlevel h hs hopen).map (P := OperandRead) fun _ _ hends => ⟨rfl, hends⟩

/-- If nothing is built in at a token, it opens no group. -/
theorem sifts_builtin (h : Sifted s s') (hs : s.atLetter = false) :
    Sifts (fun o t => OperandEnds s o t ∧ (o = none → OpensNoGroup (s.current env))) s s'
      (builtin env inner) (builtin env inner) := by
  have hnumber (hstarts : startsNumber s.rest = true) :
      Sifts (fun o t => OperandEnds s o t ∧ (o = none → OpensNoGroup (s.current env))) s s'
        (do return some { expression := ← number env false })
        (do return some { expression := ← number env false }) :=
    .bind (sifts_number false h hs hstarts) fun value t t' ht hends =>
      .pure ht ⟨.some (.of_present hends.1 hends.2.sated), nofun⟩
  have hsome {m : Parser Operand} (hm : Sifts OperandRead s s' m m) :
      Sifts (fun o t => OperandEnds s o t ∧ (o = none → OpensNoGroup (s.current env))) s s'
        (do return some (← m)) (do return some (← m)) := by
    refine .bind hm fun x t t' ht hends => .pure ht ⟨⟨nofun, fun hx => ?_⟩, nofun⟩
    cases hx
    exact hends
  unfold builtin
  refine .get ?_
  dsimp only
  rw [h.current hs]
  cases hkind : (s.current env).kind with
  | digits run =>
    have hdigits : (s.current env).digits?.isSome := by
      rw [Token.digits?, hkind]
      rfl
    exact hnumber (startsNumber_of_digits? hdigits)
  | punct c =>
    have hpunct : (s.current env).isPunct c := by rw [Token.isPunct, hkind]; exact beq_self_eq_true _
    have hplain (hopen : ¬(c == '(') = true) : OpensNoGroup (s.current env) := by
      rw [OpensNoGroup, hkind]
      refine ⟨by simp, fun heq => hopen ?_⟩
      rw [Token.Kind.punct.inj heq]
      rfl
    dsimp only
    rw [h.startsNumber hs, h.startsNumber_signed hpunct]
    refine .ite (fun _ => ?_) fun hopen => ?_
    · exact hsome (sifts_parenthesized hlevel h hs)
    · refine .ite (fun hpoint => ?_) fun _ => .ite (fun hstarts => ?_) fun _ => ?_
      · exact hnumber (Bool.and_eq_true_iff.mp hpoint).2
      · have hstarts := (Bool.and_eq_true_iff.mp hstarts).2
        rw [← State.rest_forward] at hstarts
        exact (sifts_signedNumber _ h hs hstarts).mono fun o u hu => ⟨hu, fun _ => hplain hopen⟩
      · exact .pure h ⟨.none, fun _ => hplain hopen⟩
  | groupOpen => exact hsome (sifts_braced hlevel h hs hkind)
  | command name =>
    obtain ⟨t, rest, hrest⟩ :=
      List.exists_cons_of_ne_nil (State.rest_ne_nil_of_current (s := s) (by rw [hkind]; simp))
    rw [State.current_of_rest hrest] at hkind
    exact absurd hkind ((h.simple_of_mem (by rw [hrest]; exact .head _)).not_command name)
  | loneBackslash =>
    have hawaits : (s.current env).awaitsOperand = false := by
      rw [Token.awaitsOperand, Token.operates, Token.isPunct, Token.isPunct, Token.isPunct,
        Token.trigger?, hkind]
      decide +kernel
    exact hsome ((sifts_unexpected h hs).mono fun _ _ hread => hread hawaits)
  | _ => exact .pure h ⟨.none, fun _ => by rw [OpensNoGroup, hkind]; simp⟩

end

/-! ### Notations -/

/-- The standard notations, with all unknown tokens left out. -/
structure Env.LeavesOut (env : Env) : Prop where
  dictionary : env.dictionary = .standard
  unknownTokens : env.options.unknownTokens = .always .skip

/-- The standard notations at marks are operators, signs and delimiters. -/
theorem kind_of_mark {n : Notation} {trigger : String} (hn : n ∈ Dictionary.standardEntries)
    (hreader : n.reader = none) (htrigger : n.trigger = some trigger)
    (hmark : trigger.toList.head? ≠ some '\\') :
    (match n.kind with
      | .symbol | .command _ | .function => false
      | .matchfix close => ["]", "|"].contains close
      | _ => true) = true := by
  have hall : (Dictionary.standardEntries.all fun n =>
      n.reader.isSome || n.trigger.all (fun trigger => trigger.toList.head? == some '\\') ||
        match n.kind with
        | .symbol | .command _ | .function => false
        | .matchfix close => ["]", "|"].contains close
        | _ => true) = true := by decide +kernel
  have hat := List.all_eq_true.mp hall n hn
  rw [hreader, htrigger, Option.all_some, beq_false_of_ne hmark] at hat
  exact hat

theorem awaitsOperand_of_close {close : String} (hclose : close = "]" ∨ close = "|")
    (ht : token.trigger? = some close) : token.awaitsOperand = false := by
  have hoperates : token.operates = false := by
    rw [Token.operates, ht]
    rcases hclose with rfl | rfl <;> decide +kernel
  have hopening : ∀ kind ∈ [Token.Kind.groupOpen, .optionalOpen, .punct '(', .punct '&'],
      kind.trigger? ≠ some "]" ∧ kind.trigger? ≠ some "|" := by decide
  have hkind : ∀ kind ∈ [Token.Kind.groupOpen, .optionalOpen, .punct '(', .punct '&'],
      token.kind ≠ kind := by
    rintro kind hmem rfl
    rcases hclose with rfl | rfl
    · exact (hopening _ hmem).1 ht
    · exact (hopening _ hmem).2 ht
  simp only [List.forall_mem_cons, List.not_mem_nil, false_implies, implies_true, and_true] at hkind
  obtain ⟨hgroup, hoptional, hparenthesis, hampersand⟩ := hkind
  rw [Token.awaitsOperand, hoperates, Token.isPunct, Token.isPunct, beq_false_of_ne hgroup,
    beq_false_of_ne hoptional, beq_false_of_ne hparenthesis, beq_false_of_ne hampersand]
  rfl

section

variable (hlevel : SiftsLevel env inner)

include hlevel

theorem sifts_enclosed {close : String} (hclose : close = "]" ∨ close = "|") (h : Sifted s s') :
    Sifts (fun _ t => t.Sated) s s' (enclosed env inner close) (enclosed env inner close) := by
  have hmark : close ∈ [")", "\x7d", "]", "|"] := by rcases hclose with rfl | rfl <;> decide
  refine .bind (sifts_awaiting hlevel hmark h) fun body t t' ht hends => ?_
  have hpasses := hends.passes (Nat.zero_le _)
  refine .current ht hpasses (.ite (fun htrigger => ?_) fun _ => ?_)
  · refine .advance ht hpasses fun hnext => .pure hnext ?_
    cases hrest : t.rest with
    | nil =>
      rw [State.forward_of_rest_nil hrest]
      exact hends.sated
    | cons u rest =>
      rw [State.current_of_rest hrest] at htrigger
      exact .forward_one hrest ((State.atLetter_of_rest hrest).symm.trans hpasses)
        (awaitsOperand_of_close hclose (eq_of_beq htrigger))
  · exact .recordHere ht nofun fun u u' hu hseen hrest => .pure hu (hends.sated.congr hseen hrest)

theorem sifts_prefixed (n : Notation) (h : Sifted s s') :
    Sifts (fun _ t => t.Sated) s s' (prefixed env inner n) (prefixed env inner n) := by
  refine .bind (hlevel.expression _ h) fun e t t' ht hends => .ite (fun _ => ?_) fun _ => ?_
  · exact .recordHere ht nofun fun u u' hu hseen hrest => .pure hu (hends.sated.congr hseen hrest)
  · exact .pure ht hends.sated

theorem sifts_unaryPlus (h : Sifted s s') :
    Sifts (fun o t => ∀ e, o = some e → e.isMissing = false ∧ t.Sated) s s'
      (run env inner (Readers.unaryPlus none)) (run env inner (Readers.unaryPlus none)) := by
  refine .bind (hlevel.expression _ h) fun e t t' ht hends => .pure ht fun e' he => ?_
  cases hmissing : e.isMissing with
  | true =>
    rw [show (if Expression.isMissing e then none else some e) = none from if_pos hmissing] at he
    cases he
  | false =>
    rw [show (if Expression.isMissing e then none else some e) = some e from
      if_neg (by rw [hmissing]; exact Bool.false_ne_true)] at he
    cases he
    exact ⟨hmissing, hends.sated⟩

variable (henv : env.LeavesOut)

include henv

/-- A notation at a mark that is no command. -/
theorem sifts_applyNotation {n : Notation} {trigger : String}
    (hn : n ∈ Dictionary.standard.operands trigger) (hmark : trigger.toList.head? ≠ some '\\')
    (h : Sifted s s') :
    Sifts (fun o t => ∀ x, o = some x → OperandRead x t) s s' (applyNotation env inner n)
      (applyNotation env inner n) := by
  obtain ⟨hmem, htrigger⟩ := Dictionary.entry_of_mem_operands hn
  have hbuilt {es : List Expression} {t : State} (ht : t.Sated) : ∀ x,
      some { expression := .function n.name es : Operand } = some x → OperandRead x t := by
    rintro x ⟨rfl⟩
    exact ⟨rfl, .of_present rfl ht⟩
  unfold applyNotation
  split
  · next hook hreader =>
    have hfollows : n.followsOperand = false := by
      have hkept := (List.mem_filter.mp hn).2
      simpa using hkept
    have hhook := Dictionary.standard_of_reader_eq hmem htrigger hreader
    rw [hfollows] at hhook
    cases hhook with
    | unaryPlus =>
      refine .bind (sifts_unaryPlus hlevel h) fun o t t' ht hends => .pure ht fun x hx => ?_
      obtain ⟨e, he, rfl⟩ := Option.map_eq_some_iff.mp hx
      obtain ⟨hpresent, hsated⟩ := hends e he
      refine ⟨?_, .of_present hpresent hsated⟩
      rw [ofHook, henv.unknownTokens]
      show e.symbol?.any (fun _ => false) = false
      cases e.symbol? <;> rfl
    | _ => exact absurd rfl hmark
  · next hreader =>
    have hkind := kind_of_mark hmem hreader htrigger hmark
    cases hn : n.kind with
    | symbol => rw [hn] at hkind; cases hkind
    | prefixOp =>
      exact .bind (sifts_prefixed hlevel n h) fun e t t' ht hsated => .pure ht (hbuilt hsated)
    | matchfix close =>
      rw [hn] at hkind
      have hclose : close = "]" ∨ close = "|" := by simpa using List.contains_iff_mem.mp hkind
      exact .bind (sifts_enclosed hlevel hclose h) fun es t t' ht hsated => .pure ht (hbuilt hsated)
    | command count => rw [hn] at hkind; cases hkind
    | function => rw [hn] at hkind; cases hkind
    | infixOp variadic => exact .pure h (by rintro _ ⟨⟩)
    | postfixOp => exact .pure h (by rintro _ ⟨⟩)
    | custom => exact .pure h (by rintro _ ⟨⟩)

omit hlevel henv in
/-- A bracket always opens a list. -/
theorem isSome_firstNotation_bracket (s : State) :
    Ensures (fun o _ => o.isSome) s
      (firstNotation env inner (Dictionary.standard.operands "[")) := by
  obtain ⟨n, rest, hlist⟩ :=
    List.exists_cons_of_ne_nil (show Dictionary.standard.operands "[" ≠ [] by decide +kernel)
  have hn : n ∈ Dictionary.standard.operands "[" := by rw [hlist]; exact .head _
  rw [hlist]
  refine .orElse (Q := fun o _ => o.isSome) ?_ (fun _ _ ht => ht) fun _ ht => by cases ht
  intro o t ho
  rcases runs_attempt.mp ho with ⟨-, -, u, hu⟩ | ⟨hsome, -⟩
  · cases isSome_applyNotation hn (by decide) _ none u (runs_advance.mp hu)
  · exact hsome

theorem sifts_firstNotation {notations : List Notation} {trigger : String}
    (hn : ∀ n ∈ notations, n ∈ Dictionary.standard.operands trigger)
    (hmark : trigger.toList.head? ≠ some '\\') (h : Sifted s s') (hs : s.atLetter = false) :
    Sifts (OperandEnds s) s s' (firstNotation env inner notations)
      (firstNotation env inner notations) := by
  induction notations generalizing s' with
  | nil => exact .pure h .none
  | cons n rest ih =>
    obtain ⟨hn, hrest⟩ := List.forall_mem_cons.mp hn
    refine .orElse (Q := OperandEnds s) (.attempt h (.advance h hs fun hnext =>
      sifts_applyNotation hlevel henv hn hmark hnext) .none fun x t hx => ⟨nofun, fun {y} hy => hx y hy⟩)
      (fun _ _ ht => ht) fun t t' ht hends => ?_
    obtain rfl := hends.eq_of_none rfl
    exact ih hrest ht

/-- If no notation applies, the token opens no group in brackets. -/
theorem sifts_notated (h : Sifted s s') (hs : s.atLetter = false) :
    Sifts (fun o t => OperandEnds s o t ∧ (o = none → (s.current env).kind ≠ .optionalOpen)) s s'
      (notated env inner) (notated env inner) := by
  refine .current h hs ?_
  cases htrigger : (s.current env).trigger? with
  | none =>
    refine .pure h ⟨.none, fun _ hkind => ?_⟩
    rw [Token.trigger?, hkind] at htrigger
    cases htrigger
  | some trigger =>
    have hending : (s.current env).kind ≠ .ending := by
      intro hkind
      rw [Token.trigger?, hkind] at htrigger
      cases htrigger
    obtain ⟨t, rest, hrest⟩ := List.exists_cons_of_ne_nil (State.rest_ne_nil_of_current hending)
    have hmark : trigger.toList.head? ≠ some '\\' := by
      rw [State.current_of_rest hrest] at htrigger
      exact (h.simple_of_mem (by rw [hrest]; exact .head _)).trigger htrigger
    dsimp only
    rw [henv.dictionary]
    refine ((sifts_firstNotation hlevel henv (fun _ hn => hn) hmark h hs).and
      (R := fun o _ => (s.current env).kind = .optionalOpen → o.isSome) ?_).mono ?_
    · intro o u hu hkind
      rw [Token.trigger?, hkind] at htrigger
      cases htrigger
      exact isSome_firstNotation_bracket s o u hu
    · exact fun o u hu => ⟨hu.1, fun hnone hkind => by rw [hnone] at hu; cases hu.2 hkind⟩

/-! ### One operand -/

/-- What is known at a token: how its operand ends, or if there is none, that it opens no group. -/
theorem sifts_known (h : Sifted s s') (hs : s.atLetter = false) :
    Sifts (fun o t => OperandEnds s o t ∧ (o = none → OpensNoGroup (s.current env) ∧
      (s.current env).kind ≠ .optionalOpen)) s s'
      (orElse (builtin env inner) (notated env inner))
      (orElse (builtin env inner) (notated env inner)) := by
  refine .orElse (sifts_builtin hlevel h hs) (fun x t ht => ⟨ht.1, nofun⟩) fun t t' ht hends => ?_
  obtain rfl := hends.1.eq_of_none rfl
  exact (sifts_notated hlevel henv ht hs).mono fun o u hu =>
    ⟨hu.1, fun hnone => ⟨hends.2 rfl, hu.2 hnone⟩⟩

omit hlevel henv in
/-- A token for which there is no other reader is no letter here. -/
theorem sifts_unknown (h : Sifted s s') (hs : s.atLetter = false)
    (hawaits : (s.current env).awaitsOperand = false) :
    Sifts (fun o t => ∃ x, o = some x ∧ OperandRead x t) s s' (unknown env inner)
      (unknown env inner) := by
  refine .current h hs ?_
  have hunexpected : Sifts (fun o t => ∃ x, o = some x ∧ OperandRead x t) s s'
      (do return some (← unexpected env (s.current env)))
      (do return some (← unexpected env (s.current env))) :=
    .bind (sifts_unexpected h hs) fun x t t' ht hread => .pure ht ⟨x, rfl, hread hawaits⟩
  have hrest (hkind : (s.current env).kind ≠ .ending) :
      ∃ rest, s.rest = s.current env :: rest := by
    obtain ⟨t, rest, hrest⟩ := List.exists_cons_of_ne_nil (State.rest_ne_nil_of_current hkind)
    exact ⟨rest, by rw [State.current_of_rest hrest, hrest]⟩
  cases hkind : (s.current env).kind with
  | letter c =>
    obtain ⟨rest, hrest⟩ := hrest (by rw [hkind]; nofun)
    rw [State.atLetter_of_rest hrest, Token.isLetter_of_kind hkind] at hs
    cases hs
  | command name =>
    obtain ⟨rest, hrest⟩ := hrest (by rw [hkind]; nofun)
    exact absurd hkind ((h.simple_of_mem (by rw [hrest]; exact .head _)).not_command name)
  | _ => exact hunexpected

/-- How an operand ends, or where none is read. -/
structure OperandAnswers (s : State) (o : Option Operand) (t : State) : Prop where
  stops : o = none → t.atLetter = false ∧ (s.BehindBrace → t.BehindBrace)
  read {x : Operand} : o = some x → OperandRead x t

omit hlevel henv in
theorem OperandAnswers.of_not_atLetter (hs : s.atLetter = false) : OperandAnswers s none s :=
  ⟨fun _ => ⟨hs, id⟩, nofun⟩

omit hlevel henv in
theorem runs_operandWithin_of_nil (hs : s.rest = []) (fuel : Nat) :
    operandWithin env inner fuel s = .ok none s := by
  cases fuel with
  | zero => rfl
  | succ fuel =>
    have hspaced : s.pastSpacing = s := State.forward_of_rest_nil hs _
    have hnone : Runs (operandWithin env inner (fuel + 1)) s none s := by
      rw [operandWithin, runs_skipSpacing]
      show Runs _ s.pastSpacing none s
      rw [hspaced, runs_atTerminator, State.atTerminator, State.current_of_rest_nil hs]
      exact .pure none s
    exact hnone

/-- An operand that does not start with a letter. -/
theorem sifts_operandWithin {fuel fuel' : Nat} (h : Sifted s s') (hs : s.atLetter = false)
    (hfuel : s.rest.length ≤ fuel) (hfuel' : s'.rest.length ≤ fuel') :
    Sifts (OperandAnswers s) s s' (operandWithin env inner fuel) (operandWithin env inner fuel') := by
  cases hrest : s.rest with
  | nil =>
    exact .of_eq (runs_operandWithin_of_nil hrest fuel)
      (runs_operandWithin_of_nil (h.rest_nil hrest) fuel')
      (.pure h (.of_not_atLetter hs))
  | cons token rest =>
    have htoken := (State.atLetter_of_rest hrest).symm.trans hs
    rw [hrest] at hfuel
    rw [h.rest_cons hrest htoken] at hfuel'
    have hsome {a b : Nat} (h : a + 1 ≤ b) : b ≠ 0 := Nat.ne_of_gt (Nat.lt_of_lt_of_le a.succ_pos h)
    obtain ⟨fuel, rfl⟩ := Nat.exists_eq_succ_of_ne_zero (hsome hfuel)
    obtain ⟨fuel', rfl⟩ := Nat.exists_eq_succ_of_ne_zero (hsome hfuel')
    refine .skipSpacing h (.atTerminator h hs
      (.ite (fun _ => .pure h (.of_not_atLetter hs)) fun hgoes => ?_))
    refine .orElse (sifts_known hlevel henv h hs) (fun x t ht => ⟨nofun, ht.1.read⟩)
      fun t t' ht hends => ?_
    obtain rfl := hends.1.eq_of_none rfl
    obtain ⟨hplain, hbracket⟩ := hends.2 rfl
    refine .atOperator ht hs (.ite (fun _ => .pure ht (.of_not_atLetter hs)) fun hoperator => ?_)
    have hawaits : (t.current env).awaitsOperand = false := by
      have hampersand : (t.current env).kind ≠ .punct '&' := by
        intro hkind
        rw [State.atTerminator, hkind] at hgoes
        exact hgoes rfl
      have hoperates : (t.current env).operates = false := by
        rw [Token.operates, ← henv.dictionary]
        exact Bool.eq_false_of_not_eq_true hoperator
      rw [Token.awaitsOperand, hoperates, Token.isPunct, Token.isPunct, beq_false_of_ne hplain.1,
        beq_false_of_ne hbracket, beq_false_of_ne hplain.2, beq_false_of_ne hampersand]
      rfl
    refine .orElse (sifts_unknown ht hs hawaits) (fun x u hu => ⟨nofun, ?_⟩) ?_
    · rintro y ⟨rfl⟩
      obtain ⟨z, hz, hread⟩ := hu
      cases hz
      exact hread
    · rintro u u' - ⟨z, hz, -⟩
      cases hz

end

/-- The token is a letter that the options leave out and that no notation gives a meaning. -/
def LeftOut (env : Env) (token : Token) : Prop :=
  ∃ c, token.kind = .letter c ∧ env.options.unknownTokens.disposition (String.singleton c) = .skip ∧
    env.dictionary.readAt (String.singleton c) = []

namespace LeftOut

theorem of_always {c : Char} (hd : env.dictionary = .standard)
    (hskip : env.options.unknownTokens = .always .skip) (ht : token.kind = .letter c)
    (hc : Text.isLetter c = true) : LeftOut env token :=
  ⟨c, ht, by rw [hskip]; rfl, by rw [hd, Dictionary.readAt_standard_letter hc]⟩

section

variable {rest : List Token} (ht : LeftOut env token) (hs : s.rest = token :: rest)

include ht hs

theorem runs_skipSpacing : Runs skipSpacing s () s := by
  obtain ⟨c, hkind, -, -⟩ := ht
  show EStateM.Result.ok () (s.forward _) = _
  rw [hs, List.takeWhile_cons_of_neg (by simp [State.isSpacing, hkind])]
  exact congrArg _ (State.forward_zero s)

theorem runs_atTerminator (hcloser : token.trigger? ≠ s.closers.head?) :
    Runs (atTerminator env) s false s := by
  obtain ⟨c, hkind, -, -⟩ := ht
  have htrigger : token.trigger? = some (String.singleton c) := by rw [Token.trigger?, hkind]; rfl
  show EStateM.Result.ok (s.atTerminator env) s = _
  rw [State.atTerminator, State.current_of_rest hs, hkind, htrigger]
  rw [htrigger] at hcloser
  cases hclosers : s.closers.head? with
  | none => rfl
  | some closer =>
    rw [hclosers] at hcloser
    exact congrArg (EStateM.Result.ok · s) (beq_false_of_ne fun h => hcloser (congrArg some h.symm))

theorem runs_known : Runs (orElse (builtin env inner) (notated env inner)) s none s := by
  obtain ⟨c, hkind, -, hnone⟩ := ht
  have hcurrent : s.current env = token := State.current_of_rest hs
  have hbuiltin : Runs (builtin env inner) s none s := by
    rw [builtin, runs_get]
    simp only [hcurrent, hkind]
    exact .pure none s
  have hnotated : Runs (notated env inner) s none s := by
    rw [notated, runs_current, hcurrent, Token.trigger?, hkind]
    show Runs (firstNotation env inner (env.dictionary.operands (String.singleton c))) s none s
    rw [Dictionary.operands, hnone]
    exact .pure none s
  exact runs_orElse.mpr (.inr ⟨s, hbuiltin, hnotated⟩)

theorem runs_atOperator : Runs (atOperator env) s false s := by
  obtain ⟨c, hkind, -, hnone⟩ := ht
  show EStateM.Result.ok ((s.current env).trigger?.any env.dictionary.hasOperator) s = _
  rw [State.current_of_rest hs, Token.trigger?, hkind]
  show EStateM.Result.ok (env.dictionary.hasOperator (String.singleton c)) s = _
  rw [Dictionary.hasOperator, Dictionary.operators, hnone]
  rfl

theorem runs_unknown : Runs (unknown env inner) s none (s.forward 1) := by
  obtain ⟨c, hkind, hskip, -⟩ := ht
  rw [unknown, runs_current, State.current_of_rest hs, hkind]
  dsimp only
  rw [unknownLetter, runs_advance, hskip]
  exact .pure none _

end

end LeftOut

/-- Nothing is known about the letter, and it is no operator, but as an unknown token it is read. -/
theorem operandWithin_eq_of_leftOut {rest : List Token} (hs : s.rest = token :: rest)
    (ht : LeftOut env token) (hcloser : token.trigger? ≠ s.closers.head?) (fuel : Nat) :
    operandWithin env inner (fuel + 1) s = operandWithin env inner fuel (s.forward 1) := by
  rw [operandWithin, bind_eq_of_ok (ht.runs_skipSpacing hs),
    bind_eq_of_ok (ht.runs_atTerminator hs hcloser), if_neg Bool.false_ne_true]
  show (orElse _ _ >>= _) s = _
  rw [bind_eq_of_ok (ht.runs_known hs)]
  show (atOperator env >>= _) s = _
  rw [bind_eq_of_ok (ht.runs_atOperator hs), if_neg Bool.false_ne_true]
  exact bind_eq_of_ok (ht.runs_unknown hs)

/-- An operand is read behind the letters in front of it. By induction on their number. -/
theorem operand_eq_of_leftOut (hletters : ∀ token ∈ s.rest.take n, LeftOut env token)
    (hclosers : ∀ token ∈ s.rest.take n, token.trigger? ≠ s.closers.head?) :
    operand env inner s = operand env inner (s.forward n) := by
  induction n generalizing s with
  | zero => rw [State.forward_zero]
  | succ n ih =>
    cases hrest : s.rest with
    | nil => rw [State.forward_of_rest_nil hrest]
    | cons token rest =>
      rw [hrest, List.take_succ_cons, List.forall_mem_cons] at hletters hclosers
      have hnext : (s.forward 1).rest = rest := by
        rw [State.rest_forward, hrest]
        rfl
      have hfirst : operand env inner s = operand env inner (s.forward 1) := by
        show operandWithin env inner s.rest.length s =
          operandWithin env inner (s.forward 1).rest.length (s.forward 1)
        rw [hnext, hrest, List.length_cons]
        exact operandWithin_eq_of_leftOut hrest hletters.1 hclosers.1 _
      rw [hfirst, ih (by rw [hnext]; exact hletters.2)
        (by rw [hnext, State.closers_forward]; exact hclosers.2), State.forward_forward, Nat.add_comm]

/-- An operand with the letters in front of it. -/
theorem sifts_operand (hlevel : SiftsLevel env inner) (henv : env.LeavesOut) (h : Sifted s s') :
    Sifts (OperandAnswers s) s s' (operand env inner) (operand env inner) := by
  obtain ⟨n, hletters, hn, hoff⟩ := h.exists_forward_letters
  have hleft : ∀ t ∈ s.rest.take n, LeftOut env t ∧ t.trigger? ≠ s.closers.head? := by
    intro t ht
    obtain ⟨c, hkind⟩ := Token.exists_kind_of_isLetter (hletters t ht)
    have hc := (h.simple_of_mem (List.mem_of_mem_take ht)).letter hkind
    refine ⟨.of_always henv.dictionary henv.unknownTokens hkind hc, fun hcloser => ?_⟩
    rw [Token.trigger?, hkind] at hcloser
    exact not_mark_letter hc (h.marks _ (List.mem_of_mem_head? hcloser.symm))
  have hseen : sift (s.forward n).seen = sift s.seen := hn.seen.symm.trans h.seen
  refine .of_eq (operand_eq_of_leftOut (fun t ht => (hleft t ht).1) fun t ht => (hleft t ht).2)
    (Eq.refl (operand env inner s')) (Sifts.mono (Q := OperandAnswers (s.forward n)) ?_ ?_)
  · exact .get (sifts_operandWithin hlevel henv hn hoff (Nat.le_refl _) (Nat.le_refl _))
  · refine fun o t ht => ⟨fun ho => ⟨(ht.stops ho).1, fun hs => (ht.stops ho).2 ?_⟩, ht.read⟩
    unfold State.BehindBrace
    rwa [hseen]

end TexFormula.Parser
