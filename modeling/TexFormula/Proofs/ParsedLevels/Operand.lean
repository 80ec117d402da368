import TexFormula.Proofs.AliasChains
import TexFormula.Proofs.Lockstep.Operand
import TexFormula.Proofs.ParsedLevels

/-!
# Levels of operands

An operand costs at least one token. `Costs n e t` says so of a tree that is read where `n + 1`
tokens were left; the notations are the standard ones.
-/

namespace TexFormula.Parser

open Expression

variable {env : Env} {inner : Inner} {n : Nat} {s t : State} {e : Expression}

/-- The tree fits into `n + 1` tokens, and one of them at least has been read. -/
def Costs (n : Nat) (e : Expression) (t : State) : Prop :=
  Fits (n + 1) e t ∧ t.rest.length ≤ n

theorem Costs.of_fits (h : Fits n e t) : Costs n e t :=
  ⟨h.mono (Nat.le_succ n), h.rest_le⟩

/-- What has been read as an operand, if anything has. -/
def OperandFits (n : Nat) (o : Option Operand) (t : State) : Prop :=
  (∀ x, o = some x → Costs n x.expression t) ∧ t.rest.length ≤ n + 1

theorem OperandFits.none (ht : t.rest.length ≤ n + 1) : OperandFits n none t :=
  ⟨nofun, ht⟩

theorem OperandFits.some {x : Operand} (h : Costs n x.expression t) :
    OperandFits n (some x) t := by
  refine ⟨fun _ hx => ?_, Nat.le_succ_of_le h.2⟩
  cases hx
  exact h

/-! ### Built-in shapes -/

/-- A number is a leaf, and so is what stands for a faulty one. -/
theorem fits_number {negative : Bool} (h : Agree (AtMost n) s (number env negative)
    (number env negative)) : Ensures (Fits n) s (number env negative) := by
  have hleaf : Ensures (fun e _ => e.Plain ∧ e.writtenLevels = 1) s (number env negative) := by
    unfold number
    refine .current (.bind (Q := fun _ _ => True) (fun _ _ _ => trivial) fun whole t _ => ?_)
    refine .bind (Q := fun _ _ => True) (fun _ _ _ => trivial) fun fraction u _ => ?_
    refine .bind (Q := fun _ _ => True) (fun _ _ _ => trivial) fun exponent v _ => ?_
    dsimp only
    split
    · exact .pure ⟨.number _, rfl⟩
    · refine .get (.record (.pure ⟨?_, rfl⟩))
      exact (Fits.error (Nat.le_refl v.rest.length)).1
  exact fun e t ht => .leaf (hleaf e t ht).1 (hleaf e t ht).2 (h.of_runs ht)

/-- What stands for a stray token is a leaf. -/
theorem leaf_unexpected (t : Token) (hs : s.rest.length ≤ n + 1) :
    Ensures (fun x u => x.expression.Plain ∧ x.expression.writtenLevels = 1 ∧ u.rest.length ≤ n) s
      (unexpected env t) :=
  .advance (.recordAt (.pure ⟨(Fits.error (Nat.le_refl s.rest.length)).1, rfl,
    State.length_forward_one_le hs⟩))

theorem costs_unexpected (t : Token) (hs : s.rest.length ≤ n + 1) :
    Ensures (fun x u => Costs n x.expression u) s (unexpected env t) :=
  (leaf_unexpected t hs).mono fun _ _ h => .of_fits (.leaf h.1 h.2.1 h.2.2)

theorem operandFits_signedNumber (negative : Bool) (hs : s.rest.length ≤ n + 1) :
    Ensures (OperandFits n) s (signedNumber env negative) := by
  have hforward := State.length_forward_one_le hs
  refine .attempt (Q := fun o t => ∀ x, o = some x → Costs n x.expression t) (.advance ?_)
    (.none hs) fun x t hx => .some (hx x rfl)
  refine .bind (fits_number (agree_number negative hforward)) fun value t ht => .current ?_
  split
  · exact .pure nofun
  · refine .pure fun x hx => ?_
    cases hx
    exact .of_fits ht

section

variable (hi : inner.Fitting)

include hi

theorem fits_delimited (close : String) (closing : Token.Kind) (hs : s.rest.length ≤ n + 1) :
    Ensures (Fits n) (s.forward 1) (groupBody env inner close closing) :=
  (fits_groupBody hi close closing _).mono fun _ _ h => h.mono (State.length_forward_one_le hs)

theorem costs_parenthesized (hs : s.rest.length ≤ n + 1) :
    Ensures (fun x t => Costs n x.expression t) s (parenthesized env inner) := by
  refine .advance (.bind (fits_delimited hi _ _ hs) fun body t ht => .pure ?_)
  show Costs n (if body.isMissing then .function "Sequence" [] else body) t
  split
  · exact .of_fits (.leaf (.apply (.symbol _) (List.forall_mem_nil _)) rfl ht.rest_le)
  · exact .of_fits ht

theorem costs_braced (hs : s.rest.length ≤ n + 1) :
    Ensures (fun x t => Costs n x.expression t) s (braced env inner) :=
  .advance (.bind (fits_delimited hi _ _ hs) fun _ _ ht => .pure (.of_fits ht))

theorem fits_delimitedArguments (hs : s.rest.length ≤ n + 1) :
    Ensures (fun es t => ∃ body : Expression, es = body.sequenceItems ∧ Fits n body t) s
      (delimitedArguments env inner) :=
  .advance (.bind (fits_delimited hi _ _ hs) fun body _ ht => .pure ⟨body, rfl, ht⟩)

end

theorem matchfix_ne_power {trigger : String} {m : Notation}
    (h : (Dictionary.standard.operands trigger).find? (·.isMatchfix) = some m) :
    m.name ≠ "Power" := by
  have hall : Dictionary.standardEntries.all fun m => !m.isMatchfix || m.name != "Power" := by
    decide +kernel
  have hmem : m ∈ Dictionary.standardEntries :=
    Dictionary.mem_entries_of_mem_readAt (List.mem_filter.mp (List.mem_of_find?_eq_some h)).1
  have hmatchfix : m.isMatchfix = true := List.find?_some h
  have hname := List.all_eq_true.mp hall m hmem
  rw [hmatchfix] at hname
  exact bne_iff_ne.mp hname

/-- What is made of the body between two delimiters. -/
theorem costs_delimiters {body : Expression} (h : Fits n body s) (trigger : Option String) :
    Ensures (fun x t => Costs n x.expression t) s
      (match trigger.bind fun trigger =>
          (Dictionary.standard.operands trigger).find? (·.isMatchfix) with
        | some m => pure { expression := .function m.name body.sequenceItems : Operand }
        | none =>
          if trigger = some "(" && body.isMissing then
            pure { expression := .function "Sequence" [] }
          else
            pure { expression := body }) := by
  split
  · next m hm =>
    obtain ⟨opening, -, hfind⟩ := Option.bind_eq_some_iff.mp hm
    exact .pure ⟨h.sequenceItems.fits_function (matchfix_ne_power hfind), h.rest_le⟩
  · split
    · exact .pure (.of_fits (.leaf (.apply (.symbol _) (List.forall_mem_nil _)) rfl h.rest_le))
    · exact .pure (.of_fits h)

section

variable (hd : env.dictionary = .standard) (hi : inner.Fitting)

include hd hi

theorem costs_leftRight (hs : s.rest.length ≤ n + 1) :
    Ensures (fun x t => Costs n x.expression t) s (leftRight env inner) := by
  have hforward : ((s.forward 1).forward 1).rest.length ≤ n :=
    State.length_forward_le (State.length_forward_one_le hs) 1
  unfold leftRight
  rw [hd]
  refine .advance (.current (.advance (.bind (fits_awaiting hi _ _) fun body t ht => ?_)))
  have hbody : Fits n body t := ht.mono hforward
  -- the delimiter that closes may be there or not
  refine .current ?_
  dsimp only
  split
  · exact .skip (costs_delimiters (hbody.of_rest_le (State.length_rest_forward_le t 2)) _)
  · refine .recordHere (costs_delimiters (hbody.of_rest_le ?_) _)
    exact Nat.le_refl _

theorem operandFits_builtin (hs : s.rest.length ≤ n + 1) :
    Ensures (OperandFits n) s (builtin env inner) := by
  unfold builtin
  have hnumber (h : startsNumber s.rest) :
      Ensures (OperandFits n) s (do return some { expression := ← number env false }) :=
    .bind (fits_number (agree_number_of_startsNumber false h hs)) fun _ _ ht =>
      .pure (.some (.of_fits ht))
  refine .get ?_
  dsimp only
  cases hkind : (s.current env).kind with
  | digits run =>
    refine hnumber ?_
    cases hrest : s.rest with
    | nil => simp [State.current_of_rest_nil hrest, Env.ending] at hkind
    | cons t ts =>
      rw [State.current_of_rest hrest] at hkind
      simp [startsNumber, Token.digits?, hkind]
  | punct c =>
    dsimp only
    split
    · exact .bind (costs_parenthesized hi hs) fun _ _ ht => .pure (.some ht)
    · split
      · next h => exact hnumber (Bool.and_eq_true_iff.mp h).2
      · split
        · exact operandFits_signedNumber _ hs
        · exact .pure (.none hs)
  | groupOpen => exact .bind (costs_braced hi hs) fun _ _ ht => .pure (.some ht)
  | command name =>
    dsimp only
    split
    · exact .bind (costs_leftRight hd hi hs) fun _ _ ht => .pure (.some ht)
    · exact .pure (.none hs)
  | loneBackslash => exact .bind (costs_unexpected _ hs) fun _ _ ht => .pure (.some ht)
  | _ => exact .pure (.none hs)

end

/-! ### Notations -/

section

variable (hi : inner.Fitting)

include hi

theorem allFit_arguments (command : String) (count : Nat) (s : State) :
    Ensures (AllFit s.rest.length) s (arguments env inner command count) := by
  induction count generalizing s with
  | zero => exact .pure (.nil (Nat.le_refl _))
  | succ count ih =>
    refine .bind (argumentFits_argument hi command s) fun first t ht => ?_
    refine .bind (ih t) fun others u hu => .pure ⟨?_, Nat.le_trans hu.2 ht.1.rest_le⟩
    refine List.forall_mem_cons.mpr ⟨ht.1.of_rest_le hu.2, fun e he => ?_⟩
    exact (hu.1 e he).mono ht.1.rest_le

theorem allFit_functionArguments (command : String) (s : State) :
    Ensures (AllFit s.rest.length) s (functionArguments env inner command) := by
  unfold functionArguments
  have hspace := State.length_rest_forward_le s (s.rest.takeWhile State.isSpacing).length
  refine .skipSpacing (.current ?_)
  generalize s.forward (s.rest.takeWhile State.isSpacing).length = u at hspace
  split
  · refine (fits_delimitedArguments hi (Nat.le_succ_of_le hspace)).mono ?_
    rintro _ t ⟨body, rfl, ht⟩
    exact ht.sequenceItems
  · refine .bind (hi.fits_expression _ u) fun argument t ht => ?_
    have hargument : AllFit s.rest.length [argument] t :=
      ⟨List.forall_mem_singleton.mpr (ht.mono hspace), Nat.le_trans ht.rest_le hspace⟩
    dsimp only
    split
    · exact .recordHere (.pure hargument)
    · exact .pure hargument

theorem allFit_enclosed (close : String) (s : State) :
    Ensures (AllFit s.rest.length) s (enclosed env inner close) := by
  unfold enclosed
  refine .bind (fits_awaiting hi close s) fun body t ht => .current ?_
  dsimp only
  split
  · exact .advance (.pure (ht.forward 1).sequenceItems)
  · exact .recordHere (.pure ht.sequenceItems)

theorem fits_prefixed (m : Notation) (s : State) :
    Ensures (Fits s.rest.length) s (prefixed env inner m) := by
  unfold prefixed
  refine .bind (hi.fits_expression _ s) fun operand t ht => ?_
  dsimp only
  split
  · exact .recordHere (.pure ht)
  · exact .pure ht

/-- A notation whose trigger has been read. -/
theorem operandFits_applyNotation {m : Notation} (hm : m ∈ Dictionary.standardEntries)
    (hs : s.rest.length ≤ n) : Ensures (OperandFits n) s (applyNotation env inner m) := by
  have hfunction {es : List Expression} {t : State} (hname : m.name ≠ "Power")
      (h : AllFit s.rest.length es t) : OperandFits n (some { expression := .function m.name es }) t :=
    .some ⟨(h.fits_function hname).mono (Nat.succ_le_succ hs), Nat.le_trans h.2 hs⟩
  unfold applyNotation
  split
  · next hook hreader =>
    have hfits : HookFits env inner hook := hookFits_standardEntries hi hm hreader
    have hroom : Expression.missing.writtenLevels + s.rest.length ≤ n + 1 := by
      show 1 + _ ≤ _
      omega
    refine .bind (hfits none (n + 1) s .missing hroom) fun o t ht => .pure ?_
    cases o with
    | none => exact .none (Nat.le_succ_of_le (Nat.le_trans ht.2 hs))
    | some e => exact .some ⟨ht.1 e rfl, Nat.le_trans ht.2 hs⟩
  · next hreader =>
    have hname := name_ne_power hm hreader
    split
    · exact .pure (.some (.of_fits (.symbol hs)))
    · refine .bind (fits_prefixed hi m s) fun e t ht => .pure (hfunction hname ?_)
      exact ⟨List.forall_mem_singleton.mpr ht, ht.rest_le⟩
    · exact .bind (allFit_enclosed hi _ s) fun es t ht => .pure (hfunction hname ht)
    · exact .bind (allFit_arguments hi _ _ s) fun es t ht => .pure (hfunction hname ht)
    · exact .bind (allFit_functionArguments hi _ s) fun es t ht => .pure (hfunction hname ht)
    · exact .pure (.none (Nat.le_succ_of_le hs))
    · exact .pure (.none (Nat.le_succ_of_le hs))
    · exact .pure (.none (Nat.le_succ_of_le hs))

theorem operandFits_firstNotation {notations : List Notation}
    (h : ∀ m ∈ notations, m ∈ Dictionary.standardEntries) (hs : s.rest.length ≤ n + 1) :
    Ensures (OperandFits n) s (firstNotation env inner notations) := by
  induction notations generalizing s with
  | nil => exact .pure (.none hs)
  | cons m rest ih =>
    have hforward := State.length_forward_one_le hs
    refine .orElse (Q := OperandFits n) ?_ (fun _ _ ht => ht) fun t ht => ?_
    · refine .attempt (Q := OperandFits n) (.advance ?_) (.none hs) fun _ _ ht => ht
      exact operandFits_applyNotation hi (h m List.mem_cons_self) hforward
    · exact ih (fun m hm => h m (List.mem_cons_of_mem _ hm)) ht.2

theorem operandFits_notated (hd : env.dictionary = .standard) (hs : s.rest.length ≤ n + 1) :
    Ensures (OperandFits n) s (notated env inner) := by
  unfold notated
  refine .current ?_
  split
  · next trigger _ =>
    rw [hd]
    exact operandFits_firstNotation hi
      (fun m hm => Dictionary.mem_entries_of_mem_readAt (List.mem_filter.mp hm).1) hs
  · exact .pure (.none hs)

end

/-! ### Unknown letters and commands -/

/-- A command is no name. -/
theorem command_ne_power (name : String) : "\\" ++ name ≠ "Power" := by
  intro h
  have hlist := congrArg String.toList h
  rw [String.toList_append] at hlist
  cases hlist

theorem operandFits_unknownLetter (t : Token) (c : Char) (hs : s.rest.length ≤ n + 1) :
    Ensures (OperandFits n) s (unknownLetter env t c) := by
  unfold unknownLetter
  have hforward := State.length_forward_one_le hs
  refine .advance ?_
  split
  · exact .pure (.some (.of_fits (.symbol hforward)))
  · exact .pure (.some (.of_fits (.symbol hforward)))
  · exact .pure (.none (Nat.le_succ_of_le hforward))
  · exact .recordAt (.pure (.some (.of_fits (.error hforward))))

/-- What is made of an unknown command and the arguments behind it. -/
theorem operandFits_disposed (token : Token) (name : String) (found : List Expression × Nat)
    (h : AllFit n found.1 s) :
    Ensures (OperandFits n) s
      (match env.options.unknownTokens.disposition ("\\" ++ name) with
        | .skip => return none
        | .error => do
          record .unknownCommand ("\\" ++ name) token.start found.2
          return some
            { expression := .error Problem.Cause.unknownCommand.code
                (env.slice token.start found.2) }
        | kind => do
          record .unknownSymbol ("\\" ++ name) token.start found.2
          if found.1.isEmpty then
            return some { expression := .symbol ("\\" ++ name), callable := kind == .function }
          else
            return some { expression := .function ("\\" ++ name) found.1 }) := by
  split
  · exact .pure (.none (Nat.le_succ_of_le h.2))
  · exact .record (.pure (.some (.of_fits (.error h.2))))
  · refine .record ?_
    split
    · exact .pure (.some (.of_fits (.symbol h.2)))
    · exact .pure (.some ⟨h.fits_function (command_ne_power name), h.2⟩)

section

variable (hi : inner.Fitting)

include hi

theorem allFit_unknownArguments (fuel stop : Nat) (s : State) :
    Ensures (fun found t => AllFit s.rest.length found.1 t) s
      (unknownArguments env inner fuel stop) := by
  induction fuel generalizing s stop with
  | zero => exact .pure (.nil (Nat.le_refl _))
  | succ fuel ih =>
    have hforward := State.length_rest_forward_le s 1
    refine .current ?_
    dsimp only
    split
    · exact .pure (.nil (Nat.le_refl _))
    · refine .advance (.bind (fits_awaiting hi _ _) fun body t ht => .current ?_)
      split
      · refine .advance (.bind (ih _ _) fun found u hu => .pure ?_)
        have hle := Nat.le_trans (State.length_rest_forward_le t 1) (ht.mono hforward).rest_le
        refine ⟨List.forall_mem_cons.mpr ⟨?_, fun e he => (hu.1 e he).mono hle⟩,
          Nat.le_trans hu.2 hle⟩
        exact (ht.mono hforward).of_rest_le (Nat.le_trans hu.2 (State.length_rest_forward_le t 1))
      · refine .recordHere (.pure ⟨List.forall_mem_singleton.mpr (ht.mono hforward), ?_⟩)
        exact (ht.mono hforward).rest_le

theorem operandFits_unknownCommand (token : Token) (name : String) (hs : s.rest.length ≤ n + 1) :
    Ensures (OperandFits n) s (unknownCommand env inner token name) := by
  unfold unknownCommand
  have hforward := State.length_forward_one_le hs
  refine .advance ?_
  dsimp only
  split
  · refine .get (.bind (allFit_unknownArguments hi _ _ _) fun found t ht => ?_)
    exact operandFits_disposed token name found
      ⟨fun e he => (ht.1 e he).mono hforward, Nat.le_trans ht.2 hforward⟩
  · exact operandFits_disposed token name ([], token.stop) (.nil hforward)

theorem operandFits_unknown (hs : s.rest.length ≤ n + 1) :
    Ensures (OperandFits n) s (unknown env inner) := by
  unfold unknown
  refine .current ?_
  split
  · exact operandFits_unknownLetter _ _ hs
  · exact operandFits_unknownCommand hi _ _ hs
  · exact .bind (costs_unexpected _ hs) fun _ _ ht => .pure (.some ht)

/-! ### One operand -/

theorem operandFits_operandWithin (hd : env.dictionary = .standard) (fuel : Nat)
    (hs : s.rest.length ≤ n + 1) : Ensures (OperandFits n) s (operandWithin env inner fuel) := by
  induction fuel generalizing s with
  | zero => exact .pure (.none hs)
  | succ fuel ih =>
    have hspace := State.length_forward_le hs (s.rest.takeWhile State.isSpacing).length
    refine .skipSpacing (.atTerminator ?_)
    split
    · exact .pure (.none hspace)
    · refine .orElse (Q := OperandFits n) ?_ (fun _ _ ht => ht) fun t ht => ?_
      · refine .orElse (Q := OperandFits n) (operandFits_builtin hd hi hspace) (fun _ _ ht => ht) ?_
        exact fun t ht => operandFits_notated hi hd ht.2
      · refine .bind (Q := fun _ u => u = t) (.current (.pure rfl)) ?_
        rintro operator _ rfl
        split
        · exact .pure (.none ht.2)
        · refine .orElse (Q := OperandFits n) (operandFits_unknown hi ht.2) (fun _ _ hu => hu) ?_
          exact fun u hu => ih hu.2

end

end TexFormula.Parser
