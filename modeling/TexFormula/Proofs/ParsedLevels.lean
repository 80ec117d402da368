import TexFormula.Parser
import TexFormula.Proofs.Literal
import TexFormula.Proofs.Lockstep.Group
import TexFormula.Proofs.ParserRun
import TexFormula.Proofs.WriterLevels

/-!
# Levels of parsed trees

Every level that writing a parsed tree takes has cost a token, up to one level for what is missing.
`Fits n e t` says so of a tree `e` read from `n` tokens, of which those in `t` are left; as a tree
takes at least one level, it also says that no tokens have come back. `Inner.Fitting` says it of the
readers of the next level, and the lemma of each part of the parser takes it to this level.
-/

namespace TexFormula.Parser

open Expression

variable {α : Type} {env : Env} {inner : Inner} {n m : Nat} {s t : State} {e lhs rhs : Expression}
  {es : List Expression} {name : String}

/-- A tree without dictionaries whose levels number at most the tokens read for it and one more. -/
def Fits (n : Nat) (e : Expression) (t : State) : Prop :=
  e.Plain ∧ e.writtenLevels + t.rest.length ≤ n + 1

/-- All of the trees fit. -/
def AllFit (n : Nat) (es : List Expression) (t : State) : Prop :=
  (∀ e ∈ es, Fits n e t) ∧ t.rest.length ≤ n

/-- What is read, if anything is, fits and has cost a token. -/
def OptionFits (n : Nat) (o : Option Expression) (t : State) : Prop :=
  (∀ e, o = some e → Fits n e t ∧ t.rest.length < n) ∧ t.rest.length ≤ n

namespace Fits

theorem rest_le (h : Fits n e t) : t.rest.length ≤ n := by
  have hone := one_le_writtenLevels e
  have hlevels := h.2
  omega

theorem mono (h : Fits m e t) (hm : m ≤ n) : Fits n e t :=
  ⟨h.1, Nat.le_trans h.2 (Nat.add_le_add_right hm 1)⟩

theorem of_rest_le {u : State} (h : Fits n e t) (hu : u.rest.length ≤ t.rest.length) : Fits n e u :=
  ⟨h.1, Nat.le_trans (Nat.add_le_add_left hu _) h.2⟩

theorem forward (h : Fits n e t) (count : Nat) : Fits n e (t.forward count) :=
  h.of_rest_le (State.length_rest_forward_le t count)

/-- A tree of one level fits anywhere. -/
theorem leaf (he : e.Plain) (hone : e.writtenLevels = 1) (ht : t.rest.length ≤ n) : Fits n e t :=
  ⟨he, by omega⟩

theorem missing (ht : t.rest.length ≤ n) : Fits n .missing t :=
  leaf .missing rfl ht

theorem symbol (ht : t.rest.length ≤ n) : Fits n (.symbol name) t :=
  leaf (.symbol name) rfl ht

theorem error {code latex : String} (ht : t.rest.length ≤ n) : Fits n (.error code latex) t := by
  refine leaf ?_ rfl ht
  refine .apply (.symbol _) ?_
  simp only [List.forall_mem_cons]
  refine ⟨.apply (.symbol _) ?_, .text _, nofun⟩
  simp only [List.forall_mem_cons]
  exact ⟨.text _, nofun⟩

end Fits

theorem AllFit.nil (ht : t.rest.length ≤ n) : AllFit n [] t :=
  ⟨nofun, ht⟩

/-- An application of a notation, whose trigger is one more token. -/
theorem AllFit.fits_function (hname : name ≠ "Power") (h : AllFit n es t) :
    Fits (n + 1) (.function name es) t := by
  refine ⟨.apply (.symbol name) fun a ha => (h.1 a ha).1, ?_⟩
  have hle : (function name es).writtenLevels ≤ n + 1 - t.rest.length + 1 := by
    rw [writtenLevels_function, Nat.add_comm, Nat.add_le_add_iff_right]
    refine levelsBelowName_le (.inl hname) fun a ha => ?_
    have := (h.1 a ha).2
    omega
  have hrest := h.2
  omega

theorem Fits.sequenceItems (h : Fits n e t) : AllFit n e.sequenceItems t := by
  refine ⟨fun a ha => ⟨h.1.sequenceItems a ha, ?_⟩, h.rest_le⟩
  have hle : ∀ a ∈ e.sequenceItems, a.writtenLevels ≤ e.writtenLevels := by
    unfold Expression.sequenceItems
    split
    · nofun
    · next arguments =>
      have hsequence : "Sequence" ∉ ["Power", "Multiply", "Error", "LatexString", "LatexTokens"] :=
        by decide
      exact (writtenLevels_function_le_iff hsequence).mp (Nat.le_succ _)
    · exact List.forall_mem_singleton.mpr (Nat.le_refl _)
  exact Nat.le_trans (Nat.add_le_add_right (hle a ha) _) h.2

theorem OptionFits.none (ht : t.rest.length ≤ n) : OptionFits n none t :=
  ⟨nofun, ht⟩

theorem OptionFits.some (h : Fits n e t) (ht : t.rest.length < n) : OptionFits n (some e) t := by
  refine ⟨fun _ he => ?_, Nat.le_of_lt ht⟩
  cases he
  exact ⟨h, ht⟩

theorem OptionFits.mono {o : Option Expression} (h : OptionFits m o t) (hm : m ≤ n) :
    OptionFits n o t :=
  ⟨fun e he => ⟨(h.1 e he).1.mono hm, Nat.lt_of_lt_of_le (h.1 e he).2 hm⟩, Nat.le_trans h.2 hm⟩

/-- What is read as an expression fits, and only what is missing has cost no token. -/
def ExpressionFits (n : Nat) (e : Expression) (t : State) : Prop :=
  Fits n e t ∧ (e.isMissing ∨ t.rest.length < n)

/-- What the readers of the next level read fits. -/
structure Inner.Fitting (inner : Inner) : Prop where
  expression (loosest : Precedence) (s : State) :
    Ensures (ExpressionFits s.rest.length) s (inner.expression loosest)
  operand (s : State) : Ensures (OptionFits s.rest.length) s inner.operand

theorem Inner.Fitting.fits_expression (hi : inner.Fitting) (loosest : Precedence) (s : State) :
    Ensures (Fits s.rest.length) s (inner.expression loosest) :=
  (hi.expression loosest s).mono fun _ _ h => h.1

/-! ### Groups and arguments -/

section

variable (hi : inner.Fitting)

include hi

theorem fits_awaiting (close : String) (s : State) :
    Ensures (Fits s.rest.length) s (awaiting close (inner.expression .loosest)) :=
  .awaiting (hi.fits_expression .loosest { s with closers := close :: s.closers }) fun _ _ h => h

theorem fits_groupBody (close : String) (closing : Token.Kind) (s : State) :
    Ensures (Fits s.rest.length) s (groupBody env inner close closing) := by
  refine .bind (fits_awaiting hi close s) fun body t ht => .current ?_
  dsimp only
  split
  · exact .advance (.pure (ht.forward 1))
  · exact .recordHere (.pure ht)

/-- The bracket that opens a group is a token. -/
theorem optionFits_group (close : String) (closing : Token.Kind) (hs : s.rest ≠ []) :
    Ensures (OptionFits s.rest.length) s
      (do
        advance
        return some (← groupBody env inner close closing)) := by
  have hlt := State.length_rest_forward_one_lt hs
  refine .advance (.bind (fits_groupBody hi close closing _) fun body t ht => .pure ?_)
  exact .some (ht.mono (Nat.le_of_lt hlt)) (Nat.lt_of_le_of_lt ht.rest_le hlt)

theorem optionFits_braceGroup (s : State) :
    Ensures (OptionFits s.rest.length) s (braceGroup env inner) := by
  have hspace := State.length_rest_forward_le s (s.rest.takeWhile State.isSpacing).length
  refine .skipSpacing (.current ?_)
  generalize s.forward (s.rest.takeWhile State.isSpacing).length = u at hspace
  split
  · next hopen =>
    have hkind : (u.current env).kind ≠ .ending := by
      rw [eq_of_beq hopen]
      nofun
    have hu := State.rest_ne_nil_of_current hkind
    exact (optionFits_group hi _ _ hu).mono fun _ _ h => h.mono hspace
  · exact .pure (.none hspace)

theorem optionFits_bracketGroup (s : State) :
    Ensures (OptionFits s.rest.length) s (bracketGroup env inner) := by
  have hspace := State.length_rest_forward_le s (s.rest.takeWhile State.isSpacing).length
  refine .skipSpacing (.current ?_)
  generalize s.forward (s.rest.takeWhile State.isSpacing).length = u at hspace
  split
  · next hopen =>
    have hkind : (u.current env).kind ≠ .ending := by
      rw [eq_of_beq hopen]
      nofun
    have hu := State.rest_ne_nil_of_current hkind
    exact (optionFits_group hi _ _ hu).mono fun _ _ h => h.mono hspace
  · exact .pure (.none hspace)

end

/-- What is read without reading a whole token is no negative number. -/
def ArgumentFits (n : Nat) (e : Expression) (t : State) : Prop :=
  Fits n e t ∧ (t.rest.length = n → Product.negativeNumber? e = none)

theorem ArgumentFits.of_lt (h : Fits n e t) (ht : t.rest.length < n) : ArgumentFits n e t :=
  ⟨h, fun heq => absurd heq (Nat.ne_of_lt ht)⟩

theorem ArgumentFits.missing (ht : t.rest.length ≤ n) : ArgumentFits n .missing t :=
  ⟨.missing ht, fun _ => rfl⟩

/-- The value of one digit. -/
theorem ArgumentFits.digit (run : String) (ht : t.rest.length ≤ n) :
    ArgumentFits n
      (((Number.ofLiteral? (String.ofList (run.toList.take 1))).map .number).getD .missing) t := by
  cases h : Number.ofLiteral? (String.ofList (run.toList.take 1)) with
  | none => exact .missing ht
  | some m =>
    refine ⟨.leaf (.number m) rfl ht, fun _ => ?_⟩
    show (some m).filter Number.isNegative = none
    have hcount : (run.toList.take 1).length ≤ 1 := by
      rw [List.length_take]
      exact Nat.min_le_left 1 _
    rw [Option.filter_some, Number.isNegative_of_ofLiteral?_short hcount h]
    rfl

theorem argumentFits_firstDigit (run : String) (hs : s.rest.length ≤ n) :
    Ensures (ArgumentFits n) s (firstDigit run) := by
  unfold firstDigit
  split
  · exact .pure (.missing hs)
  · exact .advance (.pure (.digit run (State.length_forward_le hs 1)))
  · refine .modify (.pure (.digit run ?_))
    rw [State.length_rest_cutDigit]
    exact hs

theorem argumentFits_argument (hi : inner.Fitting) (command : String) (s : State) :
    Ensures (ArgumentFits s.rest.length) s (argument env inner command) := by
  unfold argument
  refine .bind (optionFits_braceGroup hi s) fun group t ht => ?_
  split
  · next e =>
    obtain ⟨hfits, hlt⟩ := ht.1 e rfl
    exact .pure (.of_lt hfits hlt)
  · refine .current ?_
    split
    · exact argumentFits_firstDigit _ ht.2
    · refine .bind ((hi.operand t).mono fun _ _ h => h.mono ht.2) fun operand u hu => ?_
      split
      · next e =>
        obtain ⟨hfits, hlt⟩ := hu.1 e rfl
        exact .pure (.of_lt hfits hlt)
      · exact .recordHere (.pure (.missing hu.2))

/-! ### Reading hooks -/

/-- What has been read from state `s`, if anything has, fits into `n` tokens. -/
def ReadFits (n : Nat) (s : State) (o : Option Expression) (t : State) : Prop :=
  (∀ e, o = some e → Fits n e t) ∧ t.rest.length ≤ s.rest.length

theorem ReadFits.some (h : Fits n e t) (ht : t.rest.length ≤ s.rest.length) :
    ReadFits n s (some e) t := by
  refine ⟨fun _ he => ?_, ht⟩
  cases he
  exact h

/-- After a trigger the hook reads what fits together with the operand before it, if there is one.
One token is for the trigger. -/
def HookFits (env : Env) (inner : Inner) (hook : ReadingHook) : Prop :=
  ∀ (lhs : Option Expression) (n : Nat) (s : State), (lhs.getD .missing).Plain →
    (lhs.getD .missing).writtenLevels + s.rest.length ≤ n →
    Ensures (ReadFits n s) s (run env inner (hook lhs))

theorem rest_lt_of_levels {base : Expression} (h : base.writtenLevels + s.rest.length ≤ n) :
    s.rest.length + 1 ≤ n := by
  have hone := one_le_writtenLevels base
  omega

/-- A script on an operand. The exponent of a reciprocal, which takes a level of its own, has cost a
token. -/
theorem Fits.script {base : Expression} (hname : name = "Power" ∨ name = "Subscript")
    (hbase : base.Plain) (hlevels : base.writtenLevels + s.rest.length ≤ n)
    (h : ArgumentFits s.rest.length e t) : Fits n (.function name [base, e]) t := by
  obtain ⟨hfits, hnegative⟩ := h
  have hrest := hfits.rest_le
  have hroom := rest_lt_of_levels hlevels
  have htop := hfits.2
  refine ⟨.apply (.symbol name) ?_, ?_⟩
  · simp only [List.forall_mem_cons]
    exact ⟨hbase, hfits.1, nofun⟩
  have hbelow : levelsBelowName name [base, e] [base.writtenLevels, e.writtenLevels] ≤
      n - t.rest.length := by
    rcases hname with rfl | rfl
    · cases hn : Product.negativeNumber? e with
      | none =>
        have hle_base : base.writtenLevels ≤ n - t.rest.length := by omega
        have hle := levelsBelowPower_le hle_base (by omega : e.writtenLevels ≤ _)
        rw [hn] at hle
        exact hle
      | some m =>
        have hlt : t.rest.length ≠ s.rest.length := by
          intro heq
          rw [hnegative heq] at hn
          cases hn
        have hone := one_le_writtenLevels base
        obtain ⟨rfl, -⟩ := Product.eq_of_negativeNumber? hn
        have hnumber : (Expression.number m).writtenLevels = 1 := rfl
        have hle_base : base.writtenLevels ≤ n - t.rest.length - 1 := by omega
        have hle := levelsBelowPower_le hle_base (by omega : (Expression.number m).writtenLevels ≤ _)
        rw [hn, Option.isSome_some, if_pos rfl, Nat.sub_add_cancel (by omega)] at hle
        exact hle
    · refine levelsBelowName_le (.inl (by decide)) ?_
      simp only [List.forall_mem_cons]
      exact ⟨by omega, by omega, nofun⟩
  rw [writtenLevels_function]
  show 1 + levelsBelowName name [base, e] [base.writtenLevels, e.writtenLevels] + _ ≤ _
  omega

section

variable (hi : inner.Fitting)

include hi

theorem hookFits_unaryPlus : HookFits env inner Readers.unaryPlus := by
  intro lhs n s _ hlevels
  have hrest := rest_lt_of_levels hlevels
  refine .bind (hi.fits_expression _ s) fun e t ht => ?_
  refine .pure ?_
  split
  · exact ⟨nofun, ht.rest_le⟩
  · exact .some (ht.mono (Nat.le_of_succ_le hrest)) ht.rest_le

theorem hookFits_script (trigger : String) (hname : name = "Power" ∨ name = "Subscript") :
    HookFits env inner (Readers.script name trigger) := by
  intro lhs n s hplain hlevels
  refine .bind (argumentFits_argument hi trigger s) fun e t ht => .pure ?_
  exact .some (Fits.script hname hplain hlevels ht) ht.1.rest_le

theorem hookFits_squareRoot : HookFits env inner Readers.squareRoot := by
  intro lhs n s _ hlevels
  have hrest := rest_lt_of_levels hlevels
  refine .bind (optionFits_bracketGroup hi s) fun index t ht => ?_
  refine .bind (argumentFits_argument hi "\\sqrt" t) fun radicand u hu => .pure ?_
  have hradicand : Fits s.rest.length radicand u := hu.1.mono ht.2
  have hu_le := hradicand.rest_le
  have happly (es : List Expression) (h : ∀ e ∈ es, Fits s.rest.length e u) (name : String)
      (hname : name ≠ "Power") : Fits n (.function name es) u :=
    (AllFit.fits_function hname ⟨h, hu_le⟩).mono hrest
  cases index with
  | none =>
    refine .some ?_ hu_le
    exact happly [radicand] (List.forall_mem_singleton.mpr hradicand) "Sqrt" (by decide)
  | some index =>
    have hindex : Fits s.rest.length index u := (ht.1 index rfl).1.of_rest_le hu.1.rest_le
    refine .some (happly [radicand, index] ?_ "Root" (by decide)) hu_le
    simp only [List.forall_mem_cons]
    exact ⟨hradicand, hindex, nofun⟩

end

theorem ensures_rawGroup (s : State) :
    Ensures (fun _ t => t.rest.length ≤ s.rest.length) s (rawGroup env) :=
  fun _ _ ht => (agree_rawGroup (Nat.le_refl _)).of_runs ht

theorem readFits_missingArgument {u : State} (command : String) (hu : u.rest.length + 1 ≤ n)
    (hs : s.rest.length ≤ u.rest.length) :
    Ensures (ReadFits n u) s (run env inner (Readers.missingArgument command)) :=
  .recordHere (.pure (.some (.missing (Nat.le_trans hs (Nat.le_of_succ_le hu))) hs))

theorem hookFits_identifier : HookFits env inner Readers.identifier := by
  intro lhs n s _ hlevels
  have hrest := rest_lt_of_levels hlevels
  refine .bind (ensures_rawGroup s) fun raw t ht => ?_
  cases raw with
  | none => exact readFits_missingArgument _ hrest ht
  | some raw =>
    dsimp only [Reading.bind]
    split
    · exact readFits_missingArgument _ hrest ht
    · exact .pure (.some (.symbol (by omega)) ht)

theorem hookFits_text : HookFits env inner Readers.text := by
  intro lhs n s _ hlevels
  have hrest := rest_lt_of_levels hlevels
  refine .bind (ensures_rawGroup s) fun raw t ht => ?_
  cases raw with
  | none => exact readFits_missingArgument _ hrest ht
  | some raw =>
    exact .pure (.some (.leaf (.text _) rfl (by omega)) ht)

theorem hookFits_placeholder (hi : inner.Fitting) : HookFits env inner Readers.placeholder := by
  intro lhs n s _ hlevels
  have hrest := rest_lt_of_levels hlevels
  refine .bind (optionFits_bracketGroup hi s) fun index t ht => ?_
  refine .bind (ensures_rawGroup t) fun raw u hu => .pure ?_
  have hle := Nat.le_trans hu ht.2
  exact .some (.missing (by omega)) hle

theorem hookFits_infinity : HookFits env inner Readers.infinity := by
  intro lhs n s _ hlevels
  have hrest := rest_lt_of_levels hlevels
  exact .pure (.some (.leaf (.number _) rfl (by omega)) (Nat.le_refl _))

/-! ### The standard notations -/

theorem name_ne_power {m : Notation} (hm : m ∈ Dictionary.standardEntries)
    (hreader : m.reader = none) : m.name ≠ "Power" := by
  have hall : Dictionary.standardEntries.all fun m => m.reader.isSome || m.name != "Power" := by
    decide +kernel
  rcases Bool.or_eq_true_iff.mp (List.all_eq_true.mp hall m hm) with hsome | hname
  · rw [hreader] at hsome
    cases hsome
  · exact bne_iff_ne.mp hname

theorem hookFits_standard (hi : inner.Fitting) {follows : Bool} {trigger : String} {hook : ReadingHook}
    (h : Readers.Standard follows trigger hook) : HookFits env inner hook := by
  cases h with
  | unaryPlus => exact hookFits_unaryPlus hi
  | power => exact hookFits_script hi "^" (.inl rfl)
  | subscript => exact hookFits_script hi "_" (.inr rfl)
  | squareRoot => exact hookFits_squareRoot hi
  | operatorname => exact hookFits_identifier
  | mathrm => exact hookFits_identifier
  | text => exact hookFits_text
  | placeholder => exact hookFits_placeholder hi
  | infinity => exact hookFits_infinity

theorem hookFits_standardEntries (hi : inner.Fitting) {m : Notation}
    (hm : m ∈ Dictionary.standardEntries) {hook : ReadingHook} (hreader : m.reader = some hook) :
    HookFits env inner hook := by
  obtain ⟨trigger, -, hhook⟩ := Dictionary.hookedAsStandard_standardEntries m hm hook hreader
  exact hookFits_standard hi hhook

end TexFormula.Parser
