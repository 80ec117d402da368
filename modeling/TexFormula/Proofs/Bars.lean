import TexFormula.Proofs.Arithmetic.Units
import TexFormula.Proofs.ParsedTrees
import TexFormula.Proofs.Stranded

/-!
# Bars inside bars

The bar that closes an absolute value looks like the one that opens it. Where a bar is waited for, the
next one is taken for it, whatever stands before it. So no source of letters, plus signs, commas,
brackets and bars is read as an absolute value directly inside of another one (`barsApart_of_parse`):
brackets must stand between the two.
-/

open TexFormula.Parser

namespace TexFormula

namespace Expression

mutual

/-- Absolute values stand inside of others with brackets in between only. If `barred`, the expression
stands inside of one itself. -/
def barsApart (barred : Bool) : Expression → Bool
  | .apply (.symbol name) arguments =>
    if name = "Abs" then !barred && allBarsApart true arguments
    else allBarsApart (barred && name != "List") arguments
  | _ => true

def allBarsApart (barred : Bool) : List Expression → Bool
  | [] => true
  | e :: es => barsApart barred e && allBarsApart barred es

end

variable {barred : Bool} {e lhs rhs : Expression} {es : List Expression} {name : String}

theorem allBarsApart_iff : allBarsApart barred es = true ↔ ∀ e ∈ es, e.barsApart barred = true := by
  induction es with
  | nil => simp [allBarsApart]
  | cons e es ih => rw [allBarsApart, Bool.and_eq_true, ih, List.forall_mem_cons]

@[simp] theorem barsApart_symbol : (symbol name).barsApart barred = true := by
  simp [barsApart]

@[simp] theorem barsApart_missing : missing.barsApart barred = true := by
  simp [barsApart]

theorem barsApart_abs :
    (function "Abs" es).barsApart barred = true ↔
      barred = false ∧ ∀ e ∈ es, e.barsApart true = true := by
  rw [function, barsApart, if_pos rfl, Bool.and_eq_true, allBarsApart_iff, Bool.not_eq_true']

theorem barsApart_list :
    (function "List" es).barsApart barred = true ↔ ∀ e ∈ es, e.barsApart false = true := by
  simp [function, barsApart, allBarsApart_iff]

theorem barsApart_function (hname : name ∉ ["Abs", "List"]) :
    (function name es).barsApart barred = true ↔ ∀ e ∈ es, e.barsApart barred = true := by
  simp only [List.mem_cons, List.not_mem_nil, or_false, not_or] at hname
  rw [function, barsApart, if_neg hname.1, bne_iff_ne.mpr hname.2, Bool.and_true, allBarsApart_iff]

@[simp] theorem barsApart_error (code text : String) : (error code text).barsApart barred = true := by
  simp [error, barsApart_function, barsApart]

theorem barsApart_of_mem_sequenceItems (h : e.barsApart barred = true) :
    ∀ a ∈ e.sequenceItems, a.barsApart barred = true := by
  unfold sequenceItems
  split
  · exact List.forall_mem_nil _
  · have hname : "Sequence" ∉ ["Abs", "List"] := by decide
    exact (barsApart_function hname).mp h
  · exact List.forall_mem_singleton.mpr h

theorem exists_function_of_headName? (h : e.headName? = some name) : ∃ es, e = function name es := by
  cases e with
  | apply head arguments =>
    cases head with
    | symbol other =>
      obtain rfl : other = name := Option.some.inj h
      exact ⟨arguments, rfl⟩
    | _ => cases h
  | _ => cases h

/-- A chain that may grow is one of the operator itself. -/
theorem barsApart_extend (hlhs : lhs.barsApart barred = true) (hrhs : rhs.barsApart barred = true)
    (hname : name ∉ ["Abs", "List"]) {grows : Bool} (hgrows : grows → lhs.headName? = some name) :
    (extend name grows lhs rhs).barsApart barred = true ∧
      (extend name grows lhs rhs).headName? = some name := by
  have hright : ∀ e ∈ [rhs], e.barsApart barred = true := List.forall_mem_singleton.mpr hrhs
  cases grows with
  | false =>
    have hpair : ∀ e ∈ [lhs, rhs], e.barsApart barred = true :=
      List.forall_mem_cons.mpr ⟨hlhs, hright⟩
    exact ⟨(barsApart_function hname).mpr hpair, rfl⟩
  | true =>
    obtain ⟨arguments, rfl⟩ := exists_function_of_headName? (hgrows rfl)
    have harguments := (barsApart_function hname).mp hlhs
    exact ⟨(barsApart_function hname).mpr (List.forall_mem_append.mpr ⟨harguments, hright⟩), rfl⟩

end Expression

namespace Parser

/-! ### Tokens between bars and brackets -/

/-- Letters, plus signs, commas, brackets and bars. -/
inductive Barrable : Token.Kind → Prop
  | letter {c : Char} (h : Text.isLetter c = true) : Barrable (.letter c)
  | plus : Barrable (.punct '+')
  | comma : Barrable (.punct ',')
  | bar : Barrable (.punct '|')
  | opening : Barrable .optionalOpen
  | closing : Barrable .optionalClose

/-- A token of the kind ends what stands before it, in bars if `barred`. -/
def EndsItem (barred : Bool) (kind : Token.Kind) : Prop :=
  kind = .optionalClose ∨ barred = true ∧ kind = .punct '|'

instance (barred : Bool) : DecidablePred (EndsItem barred) :=
  fun _ => inferInstanceAs (Decidable (_ ∨ _ ∧ _))

theorem not_endsItem_letter {barred : Bool} {c : Char} : ¬EndsItem barred (.letter c) := by
  rintro (h | ⟨-, h⟩) <;> cases h

/-- The innermost of the delimiters is a bar if `barred`, or else a bracket if there is any. -/
def WaitsFor (barred : Bool) (closers : List String) : Prop :=
  if barred then closers.head? = some "|" else ∀ closer ∈ closers.head?, closer = "]"

theorem waitsFor_nil : WaitsFor false [] := by
  intro closer hcloser
  cases hcloser

theorem waitsFor_bar (closers : List String) : WaitsFor true ("|" :: closers) := rfl

theorem waitsFor_bracket (closers : List String) : WaitsFor false ("]" :: closers) := by
  intro closer hcloser
  exact (Option.some.inj hcloser).symm

variable {env : Env} {inner : Inner} {barred : Bool} {s : State} {t : Token} {rest : List Token}

theorem Barrable.isSpacing (h : Barrable t.kind) : State.isSpacing t = false := by
  unfold State.isSpacing
  cases hkind : t.kind with
  | command name => rw [hkind] at h; cases h
  | _ => rfl

theorem Barrable.atTerminator (h : Barrable t.kind) (hs : s.rest = t :: rest)
    (hclosers : WaitsFor barred s.closers) :
    s.atTerminator env = decide (EndsItem barred t.kind) := by
  have hletter {c : Char} (hc : Text.isLetter c = true) {d : Char} (hd : Text.isLetter d = false) :
      (String.singleton d == String.singleton c) = false := by
    refine beq_false_of_ne fun heq => ?_
    rw [eq_of_trigger?_eq (congrArg some heq), hc] at hd
    cases hd
  unfold State.atTerminator
  rw [State.current_of_rest hs]
  dsimp only
  rw [show t.trigger? = t.kind.trigger? from rfl]
  generalize t.kind = kind at h ⊢
  cases barred with
  | true =>
    rw [show s.closers.head? = some "|" from hclosers]
    cases h with
    | letter hc =>
      have hne := hletter hc (d := '|') rfl
      exact hne.trans (decide_eq_false not_endsItem_letter).symm
    | _ => decide
  | false =>
    cases hhead : s.closers.head? with
    | none => cases h <;> simp [State.endsExpression, EndsItem]
    | some closer =>
      obtain rfl : closer = "]" := hclosers closer hhead
      cases h with
      | letter hc =>
        have hne := hletter hc (d := ']') rfl
        exact hne.trans (decide_eq_false not_endsItem_letter).symm
      | _ => decide

/-! ### States and readers -/

variable {closers : List String} {e lhs : Expression} {n : Notation} {trigger : String}

/-- Only such tokens are left, and the given delimiters are waited for. -/
structure State.Tidy (closers : List String) (s : State) : Prop where
  closers : s.closers = closers
  tokens : ∀ t ∈ s.rest, Barrable t.kind

namespace State.Tidy

theorem forward (h : s.Tidy closers) (n : Nat) : (s.forward n).Tidy closers where
  closers := (closers_forward s n).trans h.closers
  tokens t ht := by
    rw [rest_forward] at ht
    exact h.tokens t (List.mem_of_mem_drop ht)

theorem record (h : s.Tidy closers) (problem : Problem) (start stop : Nat) :
    (s.record problem start stop).Tidy closers :=
  ⟨h.closers, h.tokens⟩

/-- No token is left out as spacing. -/
theorem length_spacing (h : s.Tidy closers) : (s.rest.takeWhile State.isSpacing).length = 0 := by
  cases hs : s.rest with
  | nil => rfl
  | cons t rest =>
    rw [← hs]
    exact takeWhile_isSpacing hs (h.tokens t (by rw [hs]; exact List.mem_cons_self)).isSpacing

/-- The expression goes on with a token that does not end it. -/
theorem exists_cons (h : s.Tidy closers) (hclosers : WaitsFor barred closers)
    (hgoes : s.atTerminator env = false) :
    ∃ t rest, s.rest = t :: rest ∧ Barrable t.kind ∧ ¬EndsItem barred t.kind := by
  cases hs : s.rest with
  | nil =>
    rw [State.atTerminator, State.current_of_rest_nil hs] at hgoes
    cases hgoes
  | cons t rest =>
    have ht : Barrable t.kind := h.tokens t (by rw [hs]; exact List.mem_cons_self)
    rw [ht.atTerminator hs (h.closers ▸ hclosers)] at hgoes
    exact ⟨t, rest, rfl, ht, of_decide_eq_false hgoes⟩

end State.Tidy

/-- The expression keeps its bars apart, and the state is tidy. -/
def KeepsApart (barred : Bool) (closers : List String) (e : Expression) (t : State) : Prop :=
  e.barsApart barred = true ∧ t.Tidy closers

/-- The readers of the next level keep bars apart. -/
structure Inner.KeepsBars (inner : Inner) : Prop where
  expression {barred : Bool} {closers : List String} {s : State} (hclosers : WaitsFor barred closers)
    (hs : s.Tidy closers) (loosest : Precedence) :
    Ensures (KeepsApart barred closers) s (inner.expression loosest)

theorem Ensures.skipSpacing_of_tidy {β : Type} {P : β → State → Prop} {f : Unit → Parser β}
    (hs : s.Tidy closers) (h : Ensures P s (f ())) : Ensures P s (Parser.skipSpacing >>= f) := by
  refine .skipSpacing ?_
  rw [hs.length_spacing, State.forward_zero]
  exact h

theorem ensures_unexpected (hs : s.Tidy closers) (t : Token) :
    Ensures (fun o t => o.expression.barsApart barred = true ∧ t.Tidy closers) s
      (unexpected env t) :=
  .advance (.recordAt (.pure ⟨Expression.barsApart_error _ _, (hs.forward 1).record _ _ _⟩))

/-! ### Operands -/

theorem ensures_enclosed (hi : inner.KeepsBars) {inside : Bool} {close : String}
    (hclosers : WaitsFor inside (close :: closers)) (hs : s.Tidy closers) :
    Ensures (fun es t => (∀ e ∈ es, e.barsApart inside = true) ∧ t.Tidy closers) s
      (enclosed env inner close) := by
  have hinside : State.Tidy (close :: closers) { s with closers := close :: s.closers } :=
    ⟨congrArg _ hs.closers, hs.tokens⟩
  have hbody : Ensures (KeepsApart inside closers) s (awaiting close (inner.expression .loosest)) :=
    .awaiting (hi.expression hclosers hinside .loosest) fun e t h =>
      ⟨h.1, congrArg List.tail h.2.closers, h.2.tokens⟩
  refine .bind hbody fun body t ⟨hbars, ht⟩ => .current ?_
  have hitems := Expression.barsApart_of_mem_sequenceItems hbars
  split
  · exact .advance (.pure ⟨hitems, ht.forward 1⟩)
  · exact .recordHere (.pure ⟨hitems, ht.record _ _ _⟩)

/-- What is read as an operand, if anything is, keeps its bars apart. -/
def OperandApart (barred : Bool) (closers : List String) (o : Option Operand) (t : State) : Prop :=
  (∀ x ∈ o, x.expression.barsApart barred = true) ∧ t.Tidy closers

theorem OperandApart.none (hs : s.Tidy closers) : OperandApart barred closers none s :=
  ⟨forall_mem_none, hs⟩

theorem State.Tidy.startsNumber (hs : s.Tidy closers) : startsNumber s.rest = false := by
  refine Bool.eq_false_iff.mpr fun hstarts => ?_
  obtain ⟨u, rest, hrest, hkind⟩ := startsNumber_cases hstarts
  have hu : Barrable u.kind := hs.tokens u (by rw [hrest]; exact List.mem_cons_self)
  rcases hkind with ⟨run, hkind⟩ | hkind
  · rw [hkind] at hu
    cases hu
  · rw [hkind] at hu
    cases hu

theorem ensures_builtin (hs : s.Tidy closers) (hrest : s.rest = t :: rest) (ht : Barrable t.kind) :
    Ensures (fun o u => o = none ∧ u = s) s (builtin env inner) := by
  have hnext := (hs.forward 1).startsNumber
  rw [State.rest_forward] at hnext
  unfold builtin
  refine .get ?_
  dsimp only
  rw [State.current_of_rest hrest, hs.startsNumber, hnext]
  generalize t.kind = kind at ht
  cases ht with
  | _ => exact .pure ⟨rfl, rfl⟩

/-- A token at which one notation starts an operand. -/
theorem ensures_firstNotation_singleton (hs : s.Tidy closers)
    (h : Ensures (OperandApart barred closers) (s.forward 1) (applyNotation env inner n)) :
    Ensures (OperandApart barred closers) s (firstNotation env inner [n]) :=
  .orElse (.attempt (.advance h) (.none hs) fun _ _ h => h) (fun _ _ h => h) fun _ h =>
    .pure (.none h.2)

/-- A notation that stands around its operands. -/
theorem ensures_applyNotation_matchfix (hi : inner.KeepsBars) {inside : Bool} {close : String}
    (hreader : n.reader = none) (hkind : n.kind = .matchfix close)
    (hclosers : WaitsFor inside (close :: closers)) (hs : s.Tidy closers)
    (happly : ∀ es, (∀ e ∈ es, e.barsApart inside = true) →
      (Expression.function n.name es).barsApart barred = true) :
    Ensures (OperandApart barred closers) s (applyNotation env inner n) := by
  unfold applyNotation
  rw [hreader, hkind]
  exact .bind (ensures_enclosed hi hclosers hs) fun es t h =>
    .pure ⟨forall_mem_some (happly es h.1), h.2⟩

theorem ensures_notated (hd : env.dictionary = .standard) (hi : inner.KeepsBars)
    (hclosers : WaitsFor barred closers) (hs : s.Tidy closers) (hrest : s.rest = t :: rest)
    (ht : Barrable t.kind) (hgoes : ¬EndsItem barred t.kind) :
    Ensures (OperandApart barred closers) s (notated env inner) := by
  unfold notated
  refine .current ?_
  rw [State.current_of_rest hrest, hd, show t.trigger? = t.kind.trigger? from rfl]
  generalize t.kind = kind at ht hgoes
  cases ht with
  | letter hc =>
    show Ensures _ s (firstNotation env inner (Dictionary.standard.operands (String.singleton _)))
    rw [Dictionary.operands, Dictionary.readAt_standard_letter hc]
    exact .pure (.none hs)
  | plus =>
    show Ensures _ s (firstNotation env inner [prefixPlus])
    refine ensures_firstNotation_singleton hs ?_
    refine .bind (Q := fun o u => (∀ e ∈ o, e.barsApart barred = true) ∧ u.Tidy closers) ?_ ?_
    · refine .bind (hi.expression hclosers (hs.forward 1) _) fun e u h => .pure ?_
      split
      · exact ⟨forall_mem_none, h.2⟩
      · exact ⟨forall_mem_some h.1, h.2⟩
    · rintro o u ⟨ho, hu⟩
      refine .pure ⟨?_, hu⟩
      cases o with
      | none => exact forall_mem_none
      | some e => exact forall_mem_some (ho e rfl)
  | comma => exact .pure (.none hs)
  | bar =>
    -- the bar that is waited for would have ended the item
    obtain rfl : barred = false := by
      cases barred with
      | true => exact absurd (.inr ⟨rfl, rfl⟩) hgoes
      | false => rfl
    show Ensures _ s (firstNotation env inner
      [(Notation.ofMatchfix "Abs" "|" "|").withArity 1 (some 1)])
    refine ensures_firstNotation_singleton hs ?_
    exact ensures_applyNotation_matchfix hi rfl rfl (waitsFor_bar closers) (hs.forward 1)
      fun es hes => Expression.barsApart_abs.mpr ⟨rfl, hes⟩
  | opening =>
    show Ensures _ s (firstNotation env inner [Notation.ofMatchfix "List" "[" "]"])
    refine ensures_firstNotation_singleton hs ?_
    exact ensures_applyNotation_matchfix hi rfl rfl (waitsFor_bracket closers) (hs.forward 1)
      fun es hes => Expression.barsApart_list.mpr hes
  | closing => exact absurd (.inl rfl) hgoes

theorem ensures_unknown (hs : s.Tidy closers) :
    Ensures (OperandApart barred closers) s (unknown env inner) := by
  have hunexpected {t : Token} : Ensures (OperandApart barred closers) s
      (do return some (← unexpected env t)) :=
    .bind (ensures_unexpected hs t) fun o u h => .pure ⟨forall_mem_some h.1, h.2⟩
  unfold unknown
  refine .current ?_
  cases hrest : s.rest with
  | nil =>
    rw [State.current_of_rest_nil hrest]
    exact hunexpected
  | cons t rest =>
    rw [State.current_of_rest hrest]
    have ht : Barrable t.kind := hs.tokens t (by rw [hrest]; exact List.mem_cons_self)
    generalize hkind : t.kind = kind at ht
    cases ht with
    | letter _ =>
      refine .advance ?_
      split
      · exact .pure ⟨forall_mem_some Expression.barsApart_symbol, hs.forward 1⟩
      · exact .pure ⟨forall_mem_some Expression.barsApart_symbol, hs.forward 1⟩
      · exact .pure (.none (hs.forward 1))
      · exact .recordAt (.pure ⟨forall_mem_some (Expression.barsApart_error _ _),
          (hs.forward 1).record _ _ _⟩)
    | _ => exact hunexpected

theorem ensures_operandWithin (hd : env.dictionary = .standard) (hi : inner.KeepsBars)
    (hclosers : WaitsFor barred closers) (fuel : Nat) (hs : s.Tidy closers) :
    Ensures (OperandApart barred closers) s (operandWithin env inner fuel) := by
  induction fuel generalizing s with
  | zero => exact .pure (.none hs)
  | succ fuel ih =>
    refine .skipSpacing_of_tidy hs (.atTerminator ?_)
    cases hgoes : s.atTerminator env with
    | true => exact .pure (.none hs)
    | false =>
      obtain ⟨t, rest, hrest, ht, hends⟩ := hs.exists_cons hclosers hgoes
      refine .orElse (Q := OperandApart barred closers) ?_ (fun _ _ h => h) fun u hu => ?_
      · refine .orElse (ensures_builtin hs hrest ht) (by rintro o u ⟨⟨⟩, -⟩) ?_
        rintro _ ⟨-, rfl⟩
        exact ensures_notated hd hi hclosers hs hrest ht hends
      · refine .bind (Q := fun _ v => v = u) (.current (.pure rfl)) ?_
        rintro operator _ rfl
        cases operator with
        | true => exact .pure (.none hu.2)
        | false => exact .orElse (ensures_unknown hu.2) (fun _ _ h => h) fun v hv => ih hv.2

/-! ### Expressions -/

/-- All operators at such tokens join any number of operands. -/
theorem joins_of_mem_operators (hd : env.dictionary = .standard) (ht : Barrable t.kind)
    (htrigger : t.trigger? = some trigger) : ∀ n ∈ env.dictionary.operators trigger,
      n.reader = none ∧ n.kind = .infixOp true ∧ n.name ∉ ["Abs", "List"] := by
  rw [hd]
  change t.kind.trigger? = some trigger at htrigger
  generalize t.kind = kind at ht htrigger
  cases ht with
  | letter hc =>
    obtain rfl := Option.some.inj htrigger
    rw [Dictionary.operators, Dictionary.readAt_standard_letter hc]
    exact List.forall_mem_nil _
  | plus =>
    obtain rfl := Option.some.inj htrigger
    exact List.forall_mem_singleton.mpr ⟨rfl, rfl, by decide⟩
  | comma =>
    obtain rfl := Option.some.inj htrigger
    exact List.forall_mem_singleton.mpr ⟨rfl, rfl, by decide⟩
  | bar =>
    obtain rfl := Option.some.inj htrigger
    exact List.forall_mem_nil _
  | opening =>
    obtain rfl := Option.some.inj htrigger
    exact List.forall_mem_nil _
  | closing =>
    obtain rfl := Option.some.inj htrigger
    exact List.forall_mem_nil _

/-- The operand before an operator keeps its bars apart, and only a chain of its own head can grow. -/
structure Grows (barred : Bool) (lhs : Expression) (chained : Option String) : Prop where
  apart : lhs.barsApart barred = true
  chain : ∀ name ∈ chained, lhs.headName? = some name

theorem Grows.extend {chained : Option String} {name : String} {rhs : Expression}
    (h : Grows barred lhs chained) (hrhs : rhs.barsApart barred = true)
    (hname : name ∉ ["Abs", "List"]) :
    Grows barred (extend name (chained == some name) lhs rhs) (some name) := by
  obtain ⟨hapart, hhead⟩ := Expression.barsApart_extend h.apart hrhs hname fun hgrows =>
    h.chain name (eq_of_beq hgrows)
  exact ⟨hapart, forall_mem_some hhead⟩

theorem ensures_applyOperator (hi : inner.KeepsBars) (hclosers : WaitsFor barred closers)
    {chained : Option String} (hreader : n.reader = none) (hkind : n.kind = .infixOp true)
    (hname : n.name ∉ ["Abs", "List"]) (hlhs : Grows barred lhs chained) (hs : s.Tidy closers) :
    Ensures (fun o t => (∀ e ∈ o, Grows barred e (chainName? n)) ∧ t.Tidy closers) s
      (applyOperator env inner n lhs chained) := by
  have hchain : chainName? n = some n.name := by
    rw [chainName?, Notation.isVariadic, hkind]
    rfl
  unfold applyOperator
  rw [hreader, hkind, hchain]
  refine .bind (hi.expression hclosers hs _) fun rhs t hrhs => ?_
  have hgrows : ∀ e ∈ some (extend n.name (chained == some n.name) lhs rhs), Grows barred e _ :=
    forall_mem_some (hlhs.extend hrhs.1 hname)
  dsimp only
  split
  · exact .recordHere (.pure ⟨hgrows, hrhs.2.record _ _ _⟩)
  · exact .pure ⟨hgrows, hrhs.2⟩

/-- What an operator, if any, has made of the operand before it keeps its bars apart. -/
def OperationApart (barred : Bool) (closers : List String) (o : Option (Expression × Notation))
    (t : State) : Prop :=
  (∀ p ∈ o, Grows barred p.1 (chainName? p.2)) ∧ t.Tidy closers

theorem ensures_firstOperator (hi : inner.KeepsBars) (hclosers : WaitsFor barred closers)
    {notations : List Notation} {chained : Option String}
    (h : ∀ n ∈ notations, n.reader = none ∧ n.kind = .infixOp true ∧ n.name ∉ ["Abs", "List"])
    (hlhs : Grows barred lhs chained) (hs : s.Tidy closers) :
    Ensures (OperationApart barred closers) s (firstOperator env inner lhs chained notations) := by
  induction notations generalizing s with
  | nil => exact .pure ⟨forall_mem_none, hs⟩
  | cons n others ih =>
    obtain ⟨⟨hreader, hkind, hname⟩, hothers⟩ := List.forall_mem_cons.mp h
    refine .orElse (Q := OperationApart barred closers) ?_ (fun _ _ h => h) fun t ht => ih hothers ht.2
    refine .attempt (Q := OperationApart barred closers) ?_ ⟨forall_mem_none, hs⟩ fun _ _ h => h
    refine .advance (.bind (ensures_applyOperator hi hclosers hreader hkind hname hlhs
      (hs.forward 1)) fun o t ⟨ho, ht⟩ => .pure ⟨?_, ht⟩)
    cases o with
    | none => exact forall_mem_none
    | some e => exact forall_mem_some (ho e rfl)

theorem ensures_chain (hd : env.dictionary = .standard) (hi : inner.KeepsBars)
    (hclosers : WaitsFor barred closers) (loosest : Precedence) (fuel : Nat) {lhs : Operand}
    {chained : Option String} (hlhs : Grows barred lhs.expression chained) (hs : s.Tidy closers) :
    Ensures (KeepsApart barred closers) s (chain env inner loosest fuel lhs chained) := by
  induction fuel generalizing s lhs chained with
  | zero => exact .pure ⟨hlhs.apart, hs⟩
  | succ fuel ih =>
    refine .skipSpacing_of_tidy hs (.atTerminator ?_)
    cases hgoes : s.atTerminator env with
    | true => exact .pure ⟨hlhs.apart, hs⟩
    | false =>
      obtain ⟨t, rest, hrest, ht, -⟩ := hs.exists_cons hclosers hgoes
      have hparenthesis : t.isPunct '(' = false := by
        refine beq_false_of_ne fun hkind => ?_
        rw [hkind] at ht
        cases ht
      refine .current ?_
      rw [State.current_of_rest hrest, hparenthesis, Bool.and_false]
      simp only [Bool.false_eq_true, if_false]
      split
      · next trigger htrigger =>
        have hjoins := joins_of_mem_operators hd ht (Option.filter_eq_some_iff.mp htrigger).1
        have hfitting : ∀ n ∈ candidates env trigger loosest, _ :=
          fun n hn => hjoins n (List.mem_of_mem_filter hn)
        refine .bind (ensures_firstOperator hi hclosers hfitting hlhs hs) fun o u hu => ?_
        cases o with
        | none => exact .pure ⟨hlhs.apart, hu.2⟩
        | some p => exact ih (hu.1 p rfl) hu.2
      · split
        · exact .pure ⟨hlhs.apart, hs⟩
        · refine .get (.bind (hi.expression hclosers hs _) fun factor u hu => .get ?_)
          split
          · exact .pure ⟨hlhs.apart, hu.2⟩
          · have hname : "Multiply" ∉ ["Abs", "List"] := by decide
            exact ih (hlhs.extend hu.1 hname) hu.2

theorem ensures_expressionAt (hd : env.dictionary = .standard) (hi : inner.KeepsBars)
    (hclosers : WaitsFor barred closers) (loosest : Precedence) (hs : s.Tidy closers) :
    Ensures (KeepsApart barred closers) s (expressionAt env inner loosest) := by
  unfold expressionAt
  refine .bind (.get (ensures_operandWithin hd hi hclosers _ hs)) fun o t ⟨ho, ht⟩ => ?_
  cases o with
  | some lhs => exact .get (ensures_chain hd hi hclosers loosest _ ⟨ho lhs rfl, nofun⟩ ht)
  | none =>
    have hmissing : Expression.missing.barsApart barred = true := Expression.barsApart_missing
    refine .current ?_
    split
    · refine .atTerminator ?_
      split
      · exact .pure ⟨hmissing, ht⟩
      · exact .recordAt (.get (ensures_chain hd hi hclosers loosest _ ⟨hmissing, nofun⟩
          (ht.record _ _ _)))
    · exact .pure ⟨hmissing, ht⟩

/-! ### Whole sources -/

theorem keepsBars_nested (hd : env.dictionary = .standard) (levels : Nat) :
    (nested env levels).KeepsBars := by
  induction levels with
  | zero => exact ⟨fun _ _ _ => .throw⟩
  | succ levels ih => exact ⟨fun hclosers hs loosest => ensures_expressionAt hd ih hclosers loosest hs⟩

theorem ensures_parts (hd : env.dictionary = .standard) (fuel : Nat) (hs : s.Tidy []) :
    Ensures (fun es t => (∀ e ∈ es, e.barsApart false = true) ∧ t.Tidy []) s
      (parts env (nested env env.options.maxDepth) fuel) := by
  induction fuel generalizing s with
  | zero => exact .pure ⟨List.forall_mem_nil _, hs⟩
  | succ fuel ih =>
    refine .bind ((keepsBars_nested hd _).expression waitsFor_nil hs .loosest) fun e t ⟨he, ht⟩ => ?_
    have hhere : ∀ a ∈ (if e.isMissing then [] else [e]), a.barsApart false = true := by
      split
      · exact List.forall_mem_nil _
      · exact List.forall_mem_singleton.mpr he
    refine .get ?_
    split
    · exact .pure ⟨hhere, ht⟩
    · have hunexpected (token : Token) :
          Ensures (fun o u => o.expression.barsApart false = true ∧ u.Tidy []) t
            (unexpected env token) := ensures_unexpected ht token
      refine .current (.bind (hunexpected _) fun stray u ⟨hstray, hu⟩ => ?_)
      refine .bind (ih hu) fun others v ⟨hothers, hv⟩ => .pure ⟨?_, hv⟩
      exact List.forall_mem_append.mpr ⟨hhere, List.forall_mem_cons.mpr ⟨hstray, hothers⟩⟩

theorem barsApart_assemble {es : List Expression} (h : ∀ e ∈ es, e.barsApart false = true) :
    (assemble es).barsApart false = true := by
  unfold assemble
  split
  · exact Expression.barsApart_missing
  · exact h _ List.mem_cons_self
  · exact (Expression.barsApart_function (by decide)).mpr h

/-- No source of such tokens is read as an absolute value directly inside of another one. -/
theorem barsApart_of_parse {options : ParseOptions} {source : String} {p : Parsed}
    (htokens : ∀ t ∈ Token.meaningful source, Barrable t.kind)
    (h : parse .standard options source = .ok p) : p.expression.barsApart false = true := by
  have hroot : Ensures (fun e _ => e.barsApart false = true) (.ofSource source)
      (rootNested ⟨source, .standard, options⟩) :=
    .get (.bind (ensures_parts rfl _ ⟨rfl, htokens⟩) fun es _ hes => .pure (barsApart_assemble hes.1))
  obtain ⟨t, hruns, -⟩ := runs_rootNested_of_parse h
  exact hroot _ t hruns

end Parser

end TexFormula
