import TexFormula.Proofs.QuotedTexts

/-!
# Texts of operands

Whatever the dictionary, as long as it has no hooks but the standard ones, the names and texts in what
is read as an operand are taken from the source (`Parser.Quoting`), and the parser stays in place.
-/

namespace TexFormula.Parser

variable {env : Env} {inner : Inner} {reports : List Problem} {s : State} {token : Token}

/-- What is read as an operand, if anything is, quotes the source. -/
def QuotingOperand (env : Env) (o : Option Operand) : Prop :=
  ∀ x ∈ o, Quoting env x.expression

@[simp] theorem quotingOperand_none : QuotingOperand env none := nofun

@[simp] theorem quotingOperand_some {x : Operand} :
    QuotingOperand env (some x) ↔ Quoting env x.expression := by
  simp [QuotingOperand]

/-- And where nothing is, nothing has been read. -/
def Settled (env : Env) (s : State) (o : Option Operand) (t : State) : Prop :=
  QuotingOperand env o ∧ (o = none → t = s)

theorem settled_none : Settled env s none s :=
  ⟨by simp, fun _ => rfl⟩

theorem settled_some {x : Operand} {t : State} (h : QuotingOperand env (some x)) :
    Settled env s (some x) t :=
  ⟨h, nofun⟩

theorem names_of_mem_operands {trigger : String} {n : Notation}
    (h : n ∈ env.dictionary.operands trigger) : env.Names n.name :=
  .entry (Dictionary.mem_entries_of_mem_readAt (List.mem_filter.mp h).1)

/-! ### Built-in shapes -/

theorem quoting_emptySequence : Quoting env (.function "Sequence" []) :=
  .function (.given (by decide)) (List.forall_mem_nil _)

theorem places_unexpected (h : token.Fits env.source) (hkind : token.kind ≠ .ending) (s : State) :
    Places env reports (fun x _ => Quoting env x.expression) s (unexpected env token) :=
  .advance (.recordAt h (.inl rfl) fun _ =>
    .pure (.held (.inl (Env.Spans.quotes h.bounds (h.lt hkind)))))

theorem places_signedNumber {negative : Bool}
    (hminus : negative = true → (s.current env).isPunct '-')
    (h : startsNumber (s.rest.drop 1) = true) :
    Places env reports (Settled env s) s (signedNumber env negative) := by
  intro hs
  -- the sign is the token in front of the numeral
  have hsign : negative = true → ∃ sign, sign.isPunct '-' ∧ env.Leaves (sign :: (s.forward 1).rest) := by
    intro hnegative
    have hleaves := hs.leaves
    cases hrest : s.rest with
    | nil => simp [hrest, startsNumber] at h
    | cons sign rest =>
      have hcurrent := hminus hnegative
      rw [hrest] at hleaves
      rw [State.current_of_rest hrest] at hcurrent
      exact ⟨sign, hcurrent, by simpa [hrest] using hleaves⟩
  rw [← State.rest_forward] at h
  refine Places.attempt (P := fun o _ => QuotingOperand env o) (.advance ?_) (fun _ _ => settled_some)
    settled_none hs
  refine .bind (places_number negative h hsign) fun value t _ _ hvalue => ?_
  exact .current fun _ => .ite (fun _ => .pure (by simp)) fun _ => .pure (by simpa using hvalue)

section

variable (hi : inner.Placing env reports)

include hi

theorem places_delimitedArguments (s : State) :
    Places env reports (fun es _ => ∀ e ∈ es, Quoting env e) s (delimitedArguments env inner) :=
  .advance (.bind (places_groupBody hi _ _ _) fun _ _ _ _ h => .pure h.sequenceItems)

theorem places_parenthesized (s : State) :
    Places env reports (fun x _ => Quoting env x.expression) s (parenthesized env inner) := by
  refine .advance (.bind (places_groupBody hi _ _ _) fun body _ _ _ hbody => .pure ?_)
  dsimp only
  split
  · exact quoting_emptySequence
  · exact hbody

theorem places_leftRight (s : State) :
    Places env reports (fun x _ => Quoting env x.expression) s (leftRight env inner) := by
  refine .advance (.current fun _ => .advance (.bind (places_body hi _ _) fun body t _ _ hbody => ?_))
  -- the delimiter that closes may be there or not
  refine .current fun _ => .ite (fun _ => .skip ?_) fun _ => .recordHere (fun _ _ => trivial) fun _ => ?_
  all_goals
    split
    · next n hn =>
      obtain ⟨opening, -, hfind⟩ := Option.bind_eq_some_iff.mp hn
      have hname := names_of_mem_operands (List.mem_of_find?_eq_some hfind)
      exact .pure (.function hname hbody.sequenceItems)
    · exact .ite (fun _ => .pure quoting_emptySequence) fun _ => .pure hbody

theorem places_builtin (s : State) :
    Places env reports (Settled env s) s (builtin env inner) := by
  have hsome {m : Parser Operand} (h : Places env reports (fun x _ => Quoting env x.expression) s m) :
      Places env reports (Settled env s) s (do return some (← m)) :=
    .bind h fun _ _ _ _ he => .pure (settled_some (by simpa using he))
  have hnumber (h : startsNumber s.rest = true) : Places env reports (Settled env s) s
      (do return some { expression := ← number env false }) :=
    .bind (places_number false h nofun) fun _ _ _ _ he => .pure (settled_some (by simpa using he))
  unfold builtin
  refine .get fun hs => ?_
  dsimp only
  cases hkind : (s.current env).kind with
  | digits run =>
    refine hnumber ?_
    have hdigits : (s.current env).digits? = some run := by rw [Token.digits?, hkind]
    obtain ⟨t, rest, hrest⟩ := State.exists_rest_of_digits? hdigits
    rw [State.current_of_rest hrest] at hdigits
    simp [hrest, startsNumber, hdigits]
  | punct c =>
    refine .ite (fun _ => hsome (places_parenthesized hi s)) fun _ => ?_
    refine .ite (fun hpoint => hnumber (Bool.and_eq_true_iff.mp hpoint).2) fun _ => ?_
    refine .ite (fun hsign => places_signedNumber (fun hminus => ?_) (Bool.and_eq_true_iff.mp hsign).2)
      fun _ => .pure settled_none
    simpa [Token.isPunct, hkind] using hminus
  | groupOpen =>
    exact hsome (.advance (.bind (places_groupBody hi _ _ _) fun _ _ _ _ h => .pure h))
  | command name => exact .ite (fun _ => hsome (places_leftRight hi s)) fun _ => .pure settled_none
  | loneBackslash => exact hsome (places_unexpected hs.fits_current (by simp [hkind]) s)
  | _ => exact .pure settled_none

/-! ### Notations -/

theorem places_arguments (command : String) (count : Nat) (s : State) :
    Places env reports (fun es _ => ∀ e ∈ es, Quoting env e) s
      (arguments env inner command count) := by
  induction count generalizing s with
  | zero => exact .pure (by simp)
  | succ count ih =>
    refine .bind (places_argument hi command s) fun first t _ _ hfirst => ?_
    exact .bind (ih t) fun others u _ _ hothers => .pure (List.forall_mem_cons.mpr ⟨hfirst, hothers⟩)

theorem places_functionArguments (command : String) (s : State) :
    Places env reports (fun es _ => ∀ e ∈ es, Quoting env e) s
      (functionArguments env inner command) := by
  refine .skipSpacing (.current fun _ =>
    .ite (fun _ => places_delimitedArguments hi _) fun _ => ?_)
  refine .bind (hi.expression _ _) fun argument t _ _ hargument => ?_
  have hone := List.forall_mem_singleton.mpr hargument
  dsimp only
  exact .ite (fun _ => .recordHere (fun _ _ => trivial) fun _ => .pure hone) fun _ => .pure hone

theorem places_enclosed (close : String) (s : State) :
    Places env reports (fun es _ => ∀ e ∈ es, Quoting env e) s (enclosed env inner close) := by
  refine .bind (places_body hi close s) fun body t _ _ hbody => .current fun _ => ?_
  dsimp only
  exact .ite (fun _ => .advance (.pure hbody.sequenceItems)) fun _ =>
    .recordHere (fun _ _ => trivial) fun _ => .pure hbody.sequenceItems

theorem places_prefixed (n : Notation) (s : State) :
    Places env reports (fun e _ => Quoting env e) s (prefixed env inner n) := by
  refine .bind (hi.expression _ s) fun operand t _ _ hoperand => ?_
  dsimp only
  exact .ite (fun _ => .recordHere (fun _ _ => trivial) fun _ => .pure hoperand) fun _ => .pure hoperand

variable (hd : env.dictionary.HasStandardHooks)

include hd

theorem places_applyNotation {n : Notation} {trigger : String}
    (hn : n ∈ env.dictionary.operands trigger) (s : State) :
    Places env reports (fun o _ => QuotingOperand env o) s (applyNotation env inner n) := by
  have hfunction {es : List Expression} (h : ∀ e ∈ es, Quoting env e) :
      QuotingOperand env (some { expression := .function n.name es }) := by
    simpa using Quoting.function (names_of_mem_operands hn) h
  unfold applyNotation
  split
  · next hook hreader =>
    have hhook := hookPlaces_of_mem hi hd (List.mem_filter.mp hn).1 hreader
    refine .bind (hhook none s (by simp)) fun o t _ _ ho => .pure ?_
    cases o with
    | none => simp
    | some e => simpa [ofHook] using ho
  · split
    · exact .pure (by simpa using Quoting.symbol (names_of_mem_operands hn))
    · exact .bind (places_prefixed hi n s) fun operand _ _ _ hoperand =>
        .pure (hfunction (List.forall_mem_singleton.mpr hoperand))
    · exact .bind (places_enclosed hi _ s) fun _ _ _ _ h => .pure (hfunction h)
    · exact .bind (places_arguments hi _ _ s) fun _ _ _ _ h => .pure (hfunction h)
    · exact .bind (places_functionArguments hi _ s) fun _ _ _ _ h => .pure (hfunction h)
    · exact .pure (by simp)
    · exact .pure (by simp)
    · exact .pure (by simp)

theorem places_firstNotation {trigger : String} {notations : List Notation}
    (h : ∀ n ∈ notations, n ∈ env.dictionary.operands trigger) (s : State) :
    Places env reports (Settled env s) s (firstNotation env inner notations) := by
  induction notations with
  | nil => exact .pure settled_none
  | cons n rest ih =>
    obtain ⟨hn, hrest⟩ := List.forall_mem_cons.mp h
    exact .attempt_orElse (.advance (places_applyNotation hi hd hn _)) (fun _ _ => settled_some)
      (ih hrest)

theorem places_notated (s : State) :
    Places env reports (Settled env s) s (notated env inner) := by
  unfold notated
  refine .current fun _ => ?_
  split
  · exact places_firstNotation hi hd (fun _ hn => hn) s
  · exact .pure settled_none

end

/-! ### Unknown letters and commands -/

/-- A letter or a command is quoted as it stands. -/
theorem quotes_of_fits {text : List Char} (h : token.Fits env.source)
    (hne : text ≠ []) (hkind : ∀ text', token.kind.Covers text' → text' = text) :
    env.Quotes (String.ofList text) := by
  obtain ⟨text', hslice, hcovers⟩ := h
  rw [hkind text' hcovers] at hslice
  exact ⟨by simpa using hne, token.start, token.stop, by rwa [String.toList_ofList]⟩

theorem quotes_letter {c : Char} (h : token.Fits env.source) (hkind : token.kind = .letter c) :
    env.Quotes (String.singleton c) := by
  rw [String.singleton_eq_ofList]
  refine quotes_of_fits h (by simp) fun text' hcovers => ?_
  rw [hkind] at hcovers
  exact hcovers.1

theorem quotes_command {name : String} (h : token.Fits env.source)
    (hkind : token.kind = .command name) : env.Quotes ("\\" ++ name) := by
  have htext : "\\" ++ name = String.ofList ('\\' :: name.toList) := by
    rw [← List.singleton_append, String.ofList_append, String.ofList_toList]
  rw [htext]
  refine quotes_of_fits h (by simp) fun text' hcovers => ?_
  rw [hkind] at hcovers
  exact hcovers.1

theorem places_unknownLetter {c : Char} (h : token.Fits env.source) (hkind : token.kind = .letter c)
    (s : State) :
    Places env reports (fun o _ => QuotingOperand env o) s (unknownLetter env token c) := by
  have hname := quotes_letter h hkind
  unfold unknownLetter
  refine .advance ?_
  split
  · exact .pure (by simpa using Quoting.symbol (.quoted hname))
  · exact .pure (by simpa using Quoting.symbol (.quoted hname))
  · exact .pure (by simp)
  · exact .recordAt h trivial fun _ =>
      .pure (by simpa using Quoting.held (.inl hname))

section

variable (hi : inner.Placing env reports)

include hi

/-- The last group ends behind the byte from which on they are read. -/
theorem places_unknownArguments (fuel stop : Nat) (hstop : Text.IsBoundary env.source.toList stop)
    (hbeyond : s.Beyond stop) :
    Places env reports (fun read _ => (∀ e ∈ read.1, Quoting env e) ∧ env.Spans stop read.2) s
      (unknownArguments env inner fuel stop) := by
  have hhere : env.Spans stop stop := ⟨Nat.le_refl _, hstop, hstop⟩
  induction fuel generalizing s stop with
  | zero => exact .pure ⟨by simp, hhere⟩
  | succ fuel ih =>
    refine .current fun _ => ?_
    split
    · exact .pure ⟨by simp, hhere⟩
    next close closing hgroup =>
    refine .advance (.bind (places_body hi _ _) fun body t ht hst hbody => .current fun hfits => ?_)
    refine .ite (fun hclosing => ?_) fun _ =>
      .recordHere (fun _ _ => trivial) fun _ => .pure ⟨by simpa using hbody, hhere⟩
    -- the token that closes the group is one of the source
    obtain ⟨token, rest, hrest⟩ : ∃ token rest, t.rest = token :: rest := by
      cases hrest : t.rest with
      | nil =>
        rw [State.current_of_rest_nil hrest] at hclosing
        have hkind : closing = .ending := (eq_of_beq hclosing).symm
        rw [hkind] at hgroup
        unfold groupClosing? at hgroup
        split at hgroup <;> cases hgroup
      | cons token rest => exact ⟨token, rest, rfl⟩
    have hbehind : t.Beyond stop := hst.beyond ((State.Reaches.forward s 1).beyond hbeyond)
    have hle : stop ≤ token.start := hbehind token (by simp [hrest])
    rw [State.current_of_rest hrest] at hfits ⊢
    have hbounds := hfits.bounds
    have hempty : env.Spans token.stop token.stop := ⟨Nat.le_refl _, hbounds.2.2, hbounds.2.2⟩
    refine .advance (.bind (ih _ hbounds.2.2 (ht.beyond_stop hrest) hempty)
      fun read u _ _ hread => .pure ⟨List.forall_mem_cons.mpr ⟨hbody, hread.1⟩, ?_⟩)
    exact ⟨Nat.le_trans hle (Nat.le_trans hbounds.1 hread.2.1), hstop, hread.2.2.2⟩

theorem places_unknownCommand {name : String} (hkind : (s.current env).kind = .command name) :
    Places env reports (fun o _ => QuotingOperand env o) s
      (unknownCommand env inner (s.current env) name) := by
  intro hs
  have hfits := hs.fits_current
  have hname := quotes_command hfits hkind
  have hbounds := hfits.bounds
  obtain ⟨token, rest, hrest⟩ : ∃ token rest, s.rest = token :: rest := by
    cases hrest : s.rest with
    | nil => rw [State.current_of_rest_nil hrest] at hkind; cases hkind
    | cons token rest => exact ⟨token, rest, rfl⟩
  have hbeyond := hs.beyond_stop hrest
  have hcurrent : s.current env = token := State.current_of_rest hrest
  rw [← hcurrent] at hbeyond
  have hnone : env.Spans (s.current env).stop (s.current env).stop :=
    ⟨Nat.le_refl _, hbounds.2.2, hbounds.2.2⟩
  refine Places.advance (Places.ite (fun _ => .get fun _ =>
    .bind (places_unknownArguments hi _ _ hbounds.2.2 hbeyond) ?_) fun _ =>
    .bind (P := fun read _ => (∀ e ∈ read.1, Quoting env e) ∧
      env.Spans (s.current env).stop read.2) (.pure ⟨by simp, hnone⟩) ?_) hs
  all_goals
    intro read t _ _ hread
    have hspans : env.Spans (s.current env).start read.2 :=
      ⟨Nat.le_trans hbounds.1 hread.2.1, hbounds.2.1, hread.2.2.2⟩
    have hlt := Nat.lt_of_lt_of_le (hfits.lt (by simp [hkind])) hread.2.1
    split
    · exact .pure (by simp)
    · exact .record hspans trivial
        (.pure (by simpa using Quoting.held (.inl (hspans.quotes hlt))))
    · refine .record hspans trivial (.ite (fun _ => .pure ?_) fun _ => .pure ?_)
      · simpa using Quoting.symbol (.quoted hname)
      · simpa using Quoting.function (.quoted hname) hread.1

theorem places_unknown (hkind : (s.current env).kind ≠ .ending) :
    Places env reports (fun o _ => QuotingOperand env o) s (unknown env inner) := by
  unfold unknown
  refine .current fun hfits => ?_
  split
  · next c hkind => exact places_unknownLetter hfits hkind s
  · next name hkind => exact places_unknownCommand hi hkind
  · exact .bind (places_unexpected hfits hkind s) fun _ _ _ _ h => .pure (by simpa using h)

/-! ### One operand -/

variable (hd : env.dictionary.HasStandardHooks)

include hd

theorem places_operandWithin (fuel : Nat) (s : State) :
    Places env reports (fun o _ => QuotingOperand env o) s (operandWithin env inner fuel) := by
  induction fuel generalizing s with
  | zero => exact .pure (by simp)
  | succ fuel ih =>
    refine .skipSpacing (.atTerminator (.ite (fun _ => .pure (by simp)) fun hgoes => ?_))
    generalize s.forward (s.rest.takeWhile State.isSpacing).length = t at hgoes
    have hkind : (t.current env).kind ≠ .ending := by
      intro hkind
      simp [State.atTerminator, hkind, State.endsExpression] at hgoes
    have hread : Places env reports (Settled env t) t
        (orElse (builtin env inner) (notated env inner)) := by
      refine .orElse (places_builtin hi t) (fun _ _ => id) fun u hu => ?_
      rw [hu.2 rfl]
      exact places_notated hi hd t
    refine .orElse hread (fun _ _ hu => hu.1) fun u hu => ?_
    rw [hu.2 rfl]
    refine .bind (P := fun _ v => v = t) (m := atOperator env) (.current fun _ => .pure rfl) ?_
    rintro operator v - - rfl
    exact .ite (fun _ => .pure (by simp)) fun _ => .either (places_unknown hi hkind) ih

theorem places_operand (s : State) :
    Places env reports (fun o _ => QuotingOperand env o) s (operand env inner) :=
  .get fun _ => places_operandWithin hi hd _ s

end

end TexFormula.Parser
