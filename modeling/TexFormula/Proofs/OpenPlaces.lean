import TexFormula.Proofs.Juxtaposition

/-!
# Letters and open places between operators

A `Slot` is a letter or a place that has been left open. `runs_expressionAt_of_slots`: slots with an
operator between them are read as its chain. An open place behind an operator is kept as an operand,
but reported as a missing one (`State.behind`); the first operand is never reported.
-/

open TexFormula.Parser

namespace TexFormula

/-- A letter, or a place for an operand that has been left open. -/
inductive Slot where
  | letter (c : Char) (h : Text.isLetter c = true)
  | vacant

namespace Slot

def expression : Slot → Expression
  | letter c _ => .symbol (String.singleton c)
  | vacant => .missing

/-- What the slot is read as. -/
def operand : Slot → Operand
  | letter c _ => .ofName (String.singleton c)
  | vacant => { expression := .missing }

def kind : Slot → Token.Kind
  | letter c _ => .letter c
  | vacant => .command "placeholder"

def isVacant : Slot → Bool
  | letter _ _ => false
  | vacant => true

variable (x : Slot)

@[simp] theorem expression_operand : x.operand.expression = x.expression := by
  cases x <;> rfl

@[simp] theorem isMissing_expression : x.expression.isMissing = x.isVacant := by
  cases x <;> rfl

@[simp] theorem callable_operand : x.operand.callable = x.expression.isApplicable := by
  cases x <;> rfl

theorem beginsFactor : BeginsFactor x.kind := by
  cases x with
  | letter c h => exact .inl ⟨c, h, rfl⟩
  | vacant => exact .command (by decide)

theorem ne_parenthesis : x.kind ≠ .punct '(' := by
  cases x <;> simp [kind]

end Slot

namespace Parser

variable {env : Env} {inner outer : Inner} {s : State} {t op : Token} {ts rest after : List Token}
  {loosest : Precedence} {o : Operand} {chained : Option String} {x : Slot} {slots : List Slot}

/-! ### One slot -/

theorem takeWhile_isSpacing_of_ungrouped (h : Ungrouped s.rest) :
    (s.rest.takeWhile State.isSpacing).length = 0 := by
  cases hrest : s.rest with
  | nil => rfl
  | cons t rest =>
    rw [hrest] at h
    rw [List.takeWhile_cons_of_neg (by simp [(h t rfl).1])]
    rfl

theorem runs_bracketGroup_of_ungrouped (h : Ungrouped s.rest) :
    Runs (bracketGroup env inner) s none s := by
  have hnot : ((s.current env).kind == .optionalOpen) = false := by
    unfold State.current
    cases hrest : s.rest with
    | nil => rfl
    | cons t rest => exact beq_false_of_ne (h t (by rw [hrest]; rfl)).2.2
  unfold bracketGroup
  rw [runs_skipSpacing, takeWhile_isSpacing_of_ungrouped h, State.forward_zero, runs_current, hnot]
  exact .pure _ _

theorem runs_rawGroup_of_ungrouped (h : Ungrouped s.rest) : Runs (rawGroup env) s none s := by
  unfold rawGroup
  rw [runs_skipSpacing, takeWhile_isSpacing_of_ungrouped h, State.forward_zero, runs_get]
  split
  · exact .pure _ _
  · next t rest hrest =>
    rw [if_pos (by simpa using (h t (by rw [hrest]; rfl)).2.1)]
    exact .pure _ _

theorem runs_operand_of_slot (henv : env.IsStandard) (hs : s.rest = t :: rest)
    (ht : t.kind = x.kind) (hclosers : s.Delimited) (hrest : Ungrouped rest) :
    Runs (operand env inner) s (some x.operand) (s.forward 1) := by
  cases x with
  | letter c h => exact runs_operand_of_isLetter henv hs ht h hclosers
  | vacant =>
    have hbehind : Ungrouped (s.forward 1).rest := by
      rw [State.rest_forward, hs]
      exact hrest
    have htrigger : t.trigger? = some "\\placeholder" := by rw [Token.trigger?, ht]; rfl
    have hoperands : env.dictionary.operands "\\placeholder" =
        [.ofReader "Placeholder" "\\placeholder" Readers.placeholder] := by
      rw [henv.dictionary]
      rfl
    refine runs_operand_notated hs (ht ▸ Slot.vacant.beginsFactor.continues) hclosers
      (runs_builtin_of_command hs ht (by decide)) htrigger hoperands ?_
    have hplaceholder : Runs (run env inner (Readers.placeholder none)) (s.forward 1)
        (some .missing) (s.forward 1) :=
      (runs_bracketGroup_of_ungrouped hbehind).bind
        ((runs_rawGroup_of_ungrouped hbehind).bind (.pure _ _))
    exact hplaceholder.bind (.pure _ _)

theorem Reads.slot {ctx : Context} (henv : env.IsStandard) (x : Slot) :
    Reads env inner ctx .atomic Ungrouped (fun o chained => o = x.operand ∧ chained = none)
      (Token.one x.kind) := by
  rintro _ ⟨t, rfl, hkind⟩ after s loosest hs hctx - hafter
  exact ⟨_, none, ⟨rfl, rfl⟩,
    leadsTo_of_operand (runs_operand_of_slot henv hs hkind (ctx.delimited hctx) hafter)⟩

/-- A slot that stands alone. -/
theorem Reads.slot_endsSum {ctx : Context} (henv : env.IsStandard) (x : Slot) :
    Reads env inner ctx .atomic EndsSum (fun o _ => o = x.operand) (Token.one x.kind) :=
  (Reads.slot henv x).mono (Nat.le_refl _) (fun _ h => h.ungrouped) fun _ _ h => h.1

theorem FactorTokens.slot (x : Slot) : FactorTokens x.expression (Token.one x.kind) where
  begins := by
    rintro _ ⟨t, rfl, hkind⟩
    exact ⟨t, [], rfl, hkind.symm ▸ x.beginsFactor,
      fun h => absurd (hkind.symm.trans h) x.ne_parenthesis⟩
  reads env henv levels := by
    refine (Reads.slot henv x).mono (Nat.le_refl _) (fun _ h => h) ?_
    rintro _ _ ⟨rfl, rfl⟩
    exact ⟨by rw [← x.callable_operand, ← x.expression_operand], rfl⟩

/-! ### Operators -/

/-- The kind of token is an operator with two operands, and no more than one on its right. -/
structure Operates (kind : Token.Kind) (n : Notation) (variadic : Bool) : Prop where
  free : Free kind
  operators : ∃ trigger, kind.trigger? = some trigger ∧ Dictionary.standard.operators trigger = [n]
  reader : n.reader = none
  infixOp : n.kind = .infixOp variadic
  tighter : n.precedence < rightPrecedence n

theorem Operates.ungrouped {kind : Token.Kind} {n : Notation} {variadic : Bool}
    (hn : Operates kind n variadic) (h : ∀ t ∈ rest.head?, Closing t ∨ t.kind = kind) :
    Ungrouped rest := by
  intro t ht
  rcases h t ht with hclosing | hkind
  · exact ⟨hclosing.isSpacing, hclosing.ne_bracket⟩
  · have hfree : Free t.kind := hkind ▸ hn.free
    exact hfree.ungrouped [] t rfl

/-- The operators that the text of a sum, a list or an equation is made of. -/
theorem operates_add : Operates (.punct '+')
    (((Notation.ofInfix "Add" "+" .addition).variadic.withArity 0 none).withWriter Writers.sum) true :=
  ⟨by decide, ⟨"+", rfl, rfl⟩, rfl, rfl, by decide⟩

theorem operates_sequence : Operates (.punct ',')
    (((Notation.ofInfix "Sequence" "," .sequence).variadic.withArity 0 none).withLatex ", ") true :=
  ⟨by decide, ⟨",", rfl, rfl⟩, rfl, rfl, by decide⟩

theorem operates_subtract :
    Operates (.punct '-') (Notation.ofInfix "Subtract" "-" .addition) false :=
  ⟨by decide, ⟨"-", rfl, rfl⟩, rfl, rfl, by decide⟩

theorem operates_equal :
    Operates (.punct '=') (Notation.ofInfix "Equal" "=" .equality).nonAssociative false :=
  ⟨by decide, ⟨"=", rfl, rfl⟩, rfl, rfl, by decide⟩

/-- An operand that is missing is reported where the next token is. -/
def State.missed (env : Env) (n : Notation) (s : State) : State :=
  s.record ⟨.expectedOperand, String.ofList (Text.trim n.glyph.toList)⟩ (s.current env).start
    (s.current env).stop

/-- The state behind some operators and the slots on their right. -/
def State.behind (env : Env) (n : Notation) : State → List Slot → State
  | s, [] => s
  | s, x :: more =>
    behind env n (if x.isVacant then (s.forward 2).missed env n else s.forward 2) more

namespace State

variable {n : Notation}

@[simp] theorem rest_missed : (s.missed env n).rest = s.rest := rfl

@[simp] theorem closers_missed : (s.missed env n).closers = s.closers := rfl

@[simp] theorem rest_behind :
    (s.behind env n slots).rest = s.rest.drop (2 * slots.length) := by
  induction slots generalizing s with
  | nil => simp [behind]
  | cons x more ih =>
    rw [behind, ih]
    split <;> simp [Nat.mul_succ, Nat.add_comm]

@[simp] theorem closers_behind : (s.behind env n slots).closers = s.closers := by
  induction slots generalizing s with
  | nil => rfl
  | cons x more ih =>
    rw [behind, ih]
    split <;> simp

/-- One report for each open place. -/
theorem length_diagnostics_behind : (s.behind env n slots).diagnostics.length =
    s.diagnostics.length + slots.countP Slot.isVacant := by
  induction slots generalizing s with
  | nil => simp [behind]
  | cons x more ih =>
    rw [behind, ih, List.countP_cons]
    split
    · simp [missed, State.record]
      omega
    · simp

theorem behind_eq_forward (h : ∀ x ∈ slots, x.isVacant = false) :
    s.behind env n slots = s.forward (2 * slots.length) := by
  induction slots generalizing s with
  | nil => simp [behind]
  | cons x more ih =>
    obtain ⟨hx, hmore⟩ := List.forall_mem_cons.mp h
    rw [behind, hx, if_neg Bool.false_ne_true, ih hmore, forward_forward, List.length_cons,
      Nat.mul_succ, Nat.add_comm]

end State

section

variable {kind : Token.Kind} {n : Notation} {variadic : Bool} (hn : Operates kind n variadic)
  (henv : env.IsStandard)

include hn henv

theorem runs_rightOperand (hs : s.rest = t :: rest) (ht : t.kind = x.kind) (hclosers : s.Delimited)
    (hrest : ∀ u ∈ rest.head?, Closing u ∨ u.kind = kind) :
    Runs (expressionAt env inner (rightPrecedence n)) s x.expression (s.forward 1) := by
  have hthere : (s.forward 1).rest = rest := by
    rw [State.rest_forward, hs]
    rfl
  have hstop : Stops env inner (rightPrecedence n) (s.forward 1) := by
    cases hnext : rest with
    | nil => exact stops_of_nil (hthere.trans hnext)
    | cons u others =>
      rcases hrest u (by rw [hnext]; rfl) with hclosing | hkind
      · exact stops_of_closing (hthere.trans hnext) hclosing
      · subst hkind
        obtain ⟨trigger, htrigger, hoperators⟩ := hn.operators
        exact stops_of_loose (hthere.trans hnext) hn.free.continues hn.free.ne_parenthesis
          (hclosers.forward 1) htrigger (henv.dictionary ▸ hoperators) (Nat.not_le_of_lt hn.tighter)
  rw [← x.expression_operand]
  exact (leadsTo_of_operand (runs_operand_of_slot henv hs ht hclosers (hn.ungrouped hrest))).runs hstop

theorem runs_applyOperator_of_slot
    (houter : ∀ p, outer.expression p = expressionAt env inner p) (hs : s.rest = t :: rest)
    (ht : t.kind = x.kind) (hclosers : s.Delimited)
    (hrest : ∀ u ∈ rest.head?, Closing u ∨ u.kind = kind) (lhs : Expression)
    (chained : Option String) :
    Runs (applyOperator env outer n lhs chained) s
      (some (extend n.name (variadic && chained == some n.name) lhs x.expression))
      (if x.isVacant then (s.forward 1).missed env n else s.forward 1) := by
  have hright : Runs (outer.expression (rightPrecedence n)) s x.expression (s.forward 1) := by
    rw [houter]
    exact runs_rightOperand hn henv hs ht hclosers hrest
  unfold applyOperator
  rw [hn.reader, hn.infixOp]
  refine hright.bind ?_
  rw [x.isMissing_expression]
  split
  · exact Runs.bind (a := ()) rfl (.pure _ _)
  · exact .pure _ _

/-- One operator and the slot on its right. -/
theorem leadsTo_of_slot (houter : ∀ p, outer.expression p = expressionAt env inner p)
    (hs : s.rest = op :: t :: rest) (hop : op.kind = kind) (ht : t.kind = x.kind)
    (hclosers : s.Delimited) (hrest : ∀ u ∈ rest.head?, Closing u ∨ u.kind = kind)
    (hloosest : loosest ≤ n.precedence) {fuel : Nat} (hfuel : s.rest.length ≤ fuel) :
    LeadsTo env outer loosest (chain env outer loosest fuel o chained) s
      ⟨extend n.name (variadic && chained == some n.name) o.expression x.expression, false⟩
      (chainName? n) (s.behind env n [x]) := by
  subst hop
  obtain ⟨trigger, htrigger, hoperators⟩ := hn.operators
  have hthere : (s.forward 1).rest = t :: rest := by
    rw [State.rest_forward, hs]
    rfl
  have happly := runs_applyOperator_of_slot hn henv houter hthere ht (hclosers.forward 1) hrest
    o.expression chained
  rw [State.forward_forward] at happly
  refine leadsTo_of_operator hs hn.free.continues hn.free.ne_parenthesis hclosers htrigger
    (henv.dictionary ▸ hoperators) hloosest happly ?_ hfuel
  simp [hs]

/-- Operators with a slot on the right of each. -/
def operations (kind : Token.Kind) (slots : List Slot) : Language Token :=
  (slots.map fun x => Token.one kind * Token.one x.kind).prod

omit hn henv in
theorem exists_of_mem_operations_cons {more : List Slot} (h : ts ∈ operations kind (x :: more)) :
    ∃ op t us, ts = op :: t :: us ∧ op.kind = kind ∧ t.kind = x.kind ∧ us ∈ operations kind more := by
  rw [operations, List.map_cons, List.prod_cons] at h
  obtain ⟨_, hfirst, us, hus, rfl⟩ := Language.mem_mul.mp h
  obtain ⟨_, ⟨op, rfl, hop⟩, _, ⟨t, rfl, ht⟩, rfl⟩ := Language.mem_mul.mp hfirst
  exact ⟨op, t, us, rfl, hop, ht, hus⟩

omit hn henv in
/-- What follows is another operator or the end. -/
theorem head?_of_mem_operations (h : ts ∈ operations kind slots) (hafter : EndsSum after) :
    ∀ u ∈ (ts ++ after).head?, Closing u ∨ u.kind = kind := by
  cases slots with
  | nil =>
    obtain rfl : ts = [] := h
    exact fun u hu => .inl (hafter u hu)
  | cons x more =>
    obtain ⟨op, t, us, rfl, hop, -, -⟩ := exists_of_mem_operations_cons h
    intro u hu
    rw [← Option.some.inj hu]
    exact .inr hop

omit hn henv in
theorem length_of_mem_operations (h : ts ∈ operations kind slots) : ts.length = 2 * slots.length := by
  induction slots generalizing ts with
  | nil =>
    obtain rfl : ts = [] := h
    rfl
  | cons x more ih =>
    obtain ⟨op, t, us, rfl, -, -, hus⟩ := exists_of_mem_operations_cons h
    simp [ih hus, Nat.mul_succ]

omit hn henv in
theorem length_of_mem_slots (h : ts ∈ Token.one x.kind * operations kind slots) :
    ts.length = 1 + 2 * slots.length := by
  obtain ⟨_, ⟨t, rfl, -⟩, us, hus, rfl⟩ := Language.mem_mul.mp h
  rw [List.length_append, length_of_mem_operations hus]
  rfl

omit hn henv in
theorem rest_behind_slots (h : ts ∈ Token.one x.kind * operations kind slots)
    (hs : s.rest = ts ++ after) : ((s.forward 1).behind env n slots).rest = after := by
  rw [State.rest_behind, State.rest_forward, List.drop_drop, ← length_of_mem_slots h, hs,
    List.drop_left]

end

/-- By induction on the slots. -/
theorem exists_leadsTo_of_slots {kind : Token.Kind} {n : Notation} (hn : Operates kind n true)
    (henv : env.IsStandard) (houter : ∀ p, outer.expression p = expressionAt env inner p)
    (hloosest : loosest ≤ n.precedence) {done : List Expression} (hdone : done ≠ [])
    (ho : Collects n.name done o chained) (hts : ts ∈ operations kind slots)
    (hs : s.rest = ts ++ after) (hclosers : s.Delimited) (hafter : EndsSum after) :
    ∃ o' chained', Collects n.name (done ++ slots.map Slot.expression) o' chained' ∧
      ∀ fuel, s.rest.length ≤ fuel → LeadsTo env outer loosest
        (chain env outer loosest fuel o chained) s o' chained' (s.behind env n slots) := by
  induction slots generalizing ts s o chained done with
  | nil => exact ⟨o, chained, by simpa using ho, fun fuel hfuel e t h => h fuel hfuel⟩
  | cons x more ih =>
    obtain ⟨op, t, us, rfl, hop, ht, hus⟩ := exists_of_mem_operations_cons hts
    have hname : chainName? n = some n.name := by simp [chainName?, Notation.isVariadic, hn.infixOp]
    have hlonger : Collects n.name (done ++ [x.expression])
        ⟨extend n.name (true && chained == some n.name) o.expression x.expression, false⟩
        (chainName? n) := by
      rw [hname, Bool.true_and]
      exact ho.append hdone x.expression
    have hrest : (s.behind env n [x]).rest = us ++ after := by simp [hs]
    have hthere : (s.behind env n [x]).Delimited := by
      unfold State.Delimited
      rwa [State.closers_behind]
    obtain ⟨o', chained', ho', hleads⟩ := ih (by simp) hlonger hus hrest hthere
    refine ⟨o', chained', by simpa using ho', fun fuel hfuel => ?_⟩
    exact (leadsTo_of_slot hn henv houter hs hop ht hclosers (head?_of_mem_operations hus hafter)
      hloosest hfuel).trans hleads

/-- The chain of a first slot and more of them behind operators. -/
theorem runs_expressionAt_of_slots {kind : Token.Kind} {n : Notation} {variadic : Bool}
    (hn : Operates kind n variadic) (henv : env.IsStandard)
    (houter : ∀ p, outer.expression p = expressionAt env inner p)
    (hloosest : loosest ≤ n.precedence) (hmany : variadic = true ∨ slots.length ≤ 1)
    (hts : ts ∈ Token.one x.kind * operations kind slots) (hs : s.rest = ts ++ after)
    (hclosers : s.Delimited) (hafter : EndsSum after) :
    Runs (expressionAt env outer loosest) s
      (.collect n.name (x.expression :: slots.map Slot.expression))
      ((s.forward 1).behind env n slots) := by
  obtain ⟨_, ⟨t, rfl, ht⟩, us, hus, rfl⟩ := id (Language.mem_mul.mp hts)
  have hrest : (s.forward 1).rest = us ++ after := by
    rw [State.rest_forward, hs]
    rfl
  have hfirst : Runs (operand env outer) s (some x.operand) (s.forward 1) :=
    runs_operand_of_slot henv hs ht hclosers (hn.ungrouped (head?_of_mem_operations hus hafter))
  have hstop : Stops env outer loosest ((s.forward 1).behind env n slots) := by
    have hend : ((s.forward 1).behind env n slots).rest = after := rest_behind_slots hts hs
    cases hnext : after with
    | nil => exact stops_of_nil (hend.trans hnext)
    | cons u others => exact stops_of_closing (hend.trans hnext) (hafter u (by rw [hnext]; rfl))
  obtain ⟨o', chained', ho', hleads⟩ : ∃ o' chained',
      o'.expression = .collect n.name (x.expression :: slots.map Slot.expression) ∧
      ∀ fuel, (s.forward 1).rest.length ≤ fuel → LeadsTo env outer loosest
        (chain env outer loosest fuel x.operand none) (s.forward 1) o' chained'
        ((s.forward 1).behind env n slots) := by
    rcases hmany with rfl | hshort
    · obtain ⟨o', chained', ho', hleads⟩ := exists_leadsTo_of_slots hn henv houter hloosest
        (List.cons_ne_nil _ _) (.single _ x.operand) hus hrest (hclosers.forward 1) hafter
      exact ⟨o', chained', by simpa using ho'.expression, hleads⟩
    · cases slots with
      | nil => exact ⟨x.operand, none, x.expression_operand, fun fuel hfuel e t h => h fuel hfuel⟩
      | cons y more =>
        obtain rfl : more = [] := List.eq_nil_of_length_eq_zero (by simpa using hshort)
        obtain ⟨op, t, _, rfl, hop, ht, rfl⟩ := exists_of_mem_operations_cons hus
        refine ⟨_, _, ?_, fun fuel hfuel => leadsTo_of_slot hn henv houter hrest hop ht
          (hclosers.forward 1) (fun u hu => .inl (hafter u hu)) hloosest hfuel⟩
        have hfresh : (none == some n.name) = false := rfl
        simp [hfresh, extend, Expression.collect]
  have hruns := ((leadsTo_of_operand hfirst).trans hleads).runs hstop
  rwa [ho'] at hruns

/-! ### Groups of slots -/

/-- The tokens of arguments in parentheses. -/
def argumentTokens : List Slot → Language Token
  | [] => 1
  | x :: slots => Token.one x.kind * operations (.punct ',') slots

/-- What arguments are read as, before the sequence is taken apart. -/
def argumentBody : List Slot → Expression
  | [] => .missing
  | x :: slots => .collect "Sequence" (x.expression :: slots.map Slot.expression)

theorem sequenceItems_argumentBody (h : slots ≠ [.vacant]) :
    (argumentBody slots).sequenceItems = slots.map Slot.expression := by
  match slots with
  | [] => rfl
  | [.letter c h] => rfl
  | [.vacant] => exact absurd rfl h
  | x :: y :: slots => rfl

theorem bodyTokens_of_slots {kind : Token.Kind} {n : Notation} {variadic : Bool}
    (hn : Operates kind n variadic) (hmany : variadic = true ∨ slots.length ≤ 1)
    (hfilled : ∀ y ∈ slots, y.isVacant = false) :
    BodyTokens (.collect n.name (x.expression :: slots.map Slot.expression))
      (Token.one x.kind * operations kind slots) := by
  intro env henv levels ts hts t after s hs ht hctx
  have hruns : Runs ((nested env (levels + 2)).expression .loosest) (s.await ")") _ _ :=
    runs_expressionAt_of_slots hn henv (fun _ => rfl) (Nat.zero_le _) hmany hts hs
      (.await (.inl rfl) s) (EndsSum.of_closing (.inr ht) after)
  rw [State.behind_eq_forward hfilled, State.forward_forward, ← length_of_mem_slots hts] at hruns
  have hrest : (s.forward ts.length).rest = t :: after := by
    rw [State.rest_forward, hs, List.drop_left]
  exact runs_groupBody hrest ht hruns

theorem runs_expressionAt_of_atTerminator (hs : s.rest = t :: rest)
    (hvisible : State.isSpacing t = false) (hend : s.atTerminator env = true) (loosest : Precedence) :
    Runs (expressionAt env inner loosest) s .missing s := by
  have hnone : Runs (operand env inner) s none s := by
    unfold operand
    rw [runs_get, hs, List.length_cons, operandWithin, runs_skipSpacing,
      takeWhile_isSpacing hs hvisible, State.forward_zero, runs_atTerminator, hend]
    exact .pure _ _
  unfold expressionAt
  refine hnone.bind ?_
  rw [runs_current]
  split
  · rw [runs_atTerminator, hend]
    exact .pure _ _
  · exact .pure _ _

theorem runs_expressionAt_of_closing (hs : s.rest = t :: rest) (ht : Closing t)
    (loosest : Precedence) : Runs (expressionAt env inner loosest) s .missing s :=
  runs_expressionAt_of_atTerminator hs ht.isSpacing (ht.atTerminator hs) loosest

/-- Nothing in parentheses. -/
theorem bodyTokens_missing : BodyTokens .missing 1 := by
  rintro env henv levels _ rfl t after s hs ht hctx
  have hinside : (s.await ")").rest = t :: after := hs
  exact runs_groupBody (n := 0) hs ht (runs_expressionAt_of_closing hinside (.inr ht) .loosest)

theorem bodyTokens_arguments (hfilled : ∀ x ∈ slots, x.isVacant = false) :
    BodyTokens (argumentBody slots) (argumentTokens slots) := by
  cases slots with
  | nil => exact bodyTokens_missing
  | cons x slots =>
    exact bodyTokens_of_slots operates_sequence (.inl rfl) fun y hy => hfilled y (by simp [hy])

end Parser

end TexFormula
