import Mathlib.Data.Set.Finite.List
import Mathlib.Order.Filter.Finite
import TexFormula.MathJson
import TexFormula.Proofs.Arithmetic.Writing
import TexFormula.Proofs.Bars
import TexFormula.Proofs.SlotTexts
import TexFormula.Proofs.WrittenTokens

/-!
# Delimiters inside delimiters

An opening delimiter is told from a closing one by the innermost delimiter that is waited for. So
letters, absolute values, lists and sums are read back from what is written for them, to any depth,
just if brackets stand between an absolute value and one inside of it (`parse_run_of_nested`). Else the
bar that opens the inner one closes the outer one.
-/

open Filter TexFormula.Parser

namespace TexFormula

namespace Expression

/-- Letters, and absolute values, lists and sums of such expressions. A sum is no term of a sum. -/
inductive Nested : Expression → Prop
  | letter {c : Char} (h : Text.isLetter c = true) (hc : c ∉ ['f', 'g', 'h']) :
      Nested (.symbol (String.singleton c))
  | abs {e : Expression} (h : Nested e) : Nested (.function "Abs" [e])
  | list {es : List Expression} (h : ∀ e ∈ es, Nested e) : Nested (.function "List" es)
  | sum {es : List Expression} (hlength : 2 ≤ es.length) (h : ∀ e ∈ es, Nested e)
      (hterms : ∀ e ∈ es, e.headName? ≠ some "Add") : Nested (.function "Add" es)

end Expression

theorem lookup_abs : Dictionary.standard.lookup "Abs" =
    some ((Notation.ofMatchfix "Abs" "|" "|").withArity 1 (some 1)) :=
  rfl

theorem lookup_list : Dictionary.standard.lookup "List" = some (.ofMatchfix "List" "[" "]") :=
  rfl

namespace Expression.Nested

variable {e : Expression}

theorem isMissing_eq (h : e.Nested) : e.isMissing = false := by
  cases h <;> rfl

theorem sequenceItems_eq (h : e.Nested) : e.sequenceItems = [e] := by
  cases h <;> rfl

theorem headName?_ne (h : e.Nested) : e.headName? ≠ some "Sequence" := by
  cases h <;> simp [headName?, function, symbol?]

theorem standardPrecedence_eq (h : e.Nested) (hterm : e.headName? ≠ some "Add") :
    standardPrecedence e = .atomic := by
  cases h with
  | letter _ _ => rfl
  | abs _ => exact standardPrecedence_function lookup_abs _
  | list _ => exact standardPrecedence_function lookup_list _
  | sum _ _ _ => exact absurd rfl hterm

theorem addition_le (h : e.Nested) : .addition ≤ standardPrecedence e := by
  by_cases hterm : e.headName? = some "Add"
  · cases h with
    | sum _ _ _ =>
      rw [standardPrecedence_function lookup_add]
      exact Nat.le_refl _
    | _ => simp [headName?, function, symbol?] at hterm
  · rw [h.standardPrecedence_eq hterm]
    decide

end Expression.Nested

/-! ### Reading -/

namespace Parser

variable {env : Env} {inner outer : Inner} {barred inside : Bool} {s : State} {t u : Token}
  {rest after ts us : List Token} {loosest p q : Precedence} {e first : Expression} {o : Operand}
  {chained : Option String} {n : Notation} {kind opening closing : Token.Kind} {P Q : Language Token}
  {others : List Expression} {tokens : Expression → Language Token} {trigger close : String}

/-- What stands before these tokens ends, if its operators bind at least as tightly as `loosest`. -/
def EndsOperand (barred : Bool) (loosest : Precedence) (after : List Token) : Prop :=
  ∀ t ∈ after.head?, Barrable t.kind ∧
    (EndsItem barred t.kind ∨ ∃ n, Operates t.kind n true ∧ n.precedence < loosest)

theorem EndsOperand.mono (h : EndsOperand barred p after) (hp : p ≤ q) :
    EndsOperand barred q after := by
  intro t ht
  obtain ⟨hbarrable, hends | ⟨n, hn, hloose⟩⟩ := h t ht
  · exact ⟨hbarrable, .inl hends⟩
  · exact ⟨hbarrable, .inr ⟨n, hn, Nat.lt_of_lt_of_le hloose hp⟩⟩

theorem EndsOperand.nil : EndsOperand barred p [] :=
  nofun

theorem EndsItem.barrable (h : EndsItem barred kind) : Barrable kind := by
  rcases h with rfl | ⟨-, rfl⟩
  · exact .closing
  · exact .bar

theorem EndsItem.endsOperand (h : EndsItem barred t.kind) (p : Precedence) (after : List Token) :
    EndsOperand barred p (t :: after) := by
  intro u hu
  rw [← Option.some.inj hu]
  exact ⟨h.barrable, .inl h⟩

theorem Operates.not_endsItem (h : Operates kind n true) : ¬EndsItem barred kind := by
  rintro (rfl | ⟨-, rfl⟩)
  · exact h.free
  · obtain ⟨trigger, htrigger, hoperators⟩ := h.operators
    obtain rfl := Option.some.inj htrigger
    cases hoperators

theorem Barrable.meets (h : Barrable t.kind) (hs : s.rest = t :: rest)
    (hclosers : WaitsFor barred s.closers) (hgoes : ¬EndsItem barred t.kind) : Meets env s t rest :=
  ⟨hs, h.isSpacing, (h.atTerminator hs hclosers).trans (decide_eq_false hgoes)⟩

theorem WaitsFor.forward (h : WaitsFor barred s.closers) (n : Nat) :
    WaitsFor barred (s.forward n).closers := by
  rwa [State.closers_forward]

theorem stops_of_endsOperand (henv : env.IsStandard) (hclosers : WaitsFor barred s.closers)
    (h : EndsOperand barred loosest s.rest) : Stops env inner loosest s := by
  cases hs : s.rest with
  | nil => exact stops_of_nil hs
  | cons t rest =>
    obtain ⟨ht, hends | ⟨n, hn, hloose⟩⟩ := h t (by rw [hs]; rfl)
    · have hend : s.atTerminator env = true :=
        (ht.atTerminator hs hclosers).trans (decide_eq_true hends)
      exact stops_of_atTerminator hs ht.isSpacing hend
    · obtain ⟨trigger, htrigger, hoperators⟩ := hn.operators
      rw [← henv.dictionary] at hoperators
      exact (ht.meets hs hclosers hn.not_endsItem).stops_of_loose hn.free.ne_parenthesis htrigger
        hoperators (Nat.not_le_of_lt hloose)

/-- The tokens are read as the expression, in bars if `barred`. What follows must end the right operand
of a sum. -/
def ReadsWithin (env : Env) (inner : Inner) (barred : Bool) (e : Expression) (P : Language Token) :
    Prop :=
  ∀ ts ∈ P, ∀ (after : List Token) (s : State) (loosest : Precedence), s.rest = ts ++ after →
    WaitsFor barred s.closers → loosest ≤ standardPrecedence e →
    EndsOperand barred Precedence.addition.tighter after →
    ∃ o chained, (o.expression = e ∧ ∀ name ∈ chained, e.headName? = some name) ∧
      LeadsTo env inner loosest (expressionAt env inner loosest) s o chained (s.forward ts.length)

/-- The whole expression. -/
theorem ReadsWithin.runs (henv : env.IsStandard) (h : ReadsWithin env inner barred e P) (hts : ts ∈ P)
    (hs : s.rest = ts ++ after) (hclosers : WaitsFor barred s.closers)
    (hloosest : loosest ≤ standardPrecedence e) (htight : loosest ≤ Precedence.addition.tighter)
    (hafter : EndsOperand barred loosest after) :
    Runs (expressionAt env inner loosest) s e (s.forward ts.length) := by
  obtain ⟨o, chained, ⟨rfl, -⟩, hleads⟩ := h ts hts after s loosest hs hclosers hloosest
    (hafter.mono htight)
  refine hleads.runs (stops_of_endsOperand henv (hclosers.forward _) ?_)
  rwa [State.rest_forward, hs, List.drop_left]

theorem ReadsWithin.letter (henv : env.IsStandard) {c : Char} (hc : Text.isLetter c = true)
    (hsymbol : c ∉ ['f', 'g', 'h']) :
    ReadsWithin env inner barred (.symbol (String.singleton c)) (Token.one (.letter c)) := by
  rintro _ ⟨t, rfl, ht⟩ after s loosest hs hclosers - -
  have hbarrable : Barrable t.kind := ht ▸ .letter hc
  have hgoes : ¬EndsItem barred t.kind := ht ▸ not_endsItem_letter
  have hoperand : Runs (operand env inner) s (some (.ofName (String.singleton c))) (s.forward 1) :=
    (hbarrable.meets hs hclosers hgoes).runs_operand_of_isLetter henv ht hc
  rw [Operand.ofName_of_notMem hc hsymbol] at hoperand
  exact ⟨_, none, ⟨rfl, nofun⟩, leadsTo_of_operand hoperand⟩

/-! ### Delimiters -/

theorem runs_builtin_of_opening (hs : s.rest = t :: rest)
    (ht : t.kind = .punct '|' ∨ t.kind = .optionalOpen) : Runs (builtin env inner) s none s := by
  unfold builtin
  rw [runs_get]
  dsimp only
  rw [State.current_of_rest hs]
  rcases ht with ht | ht
  · rw [ht]
    exact .pure none s
  · rw [ht]
    exact .pure none s

/-- The operands between the delimiters of a notation, and the delimiter that closes. -/
theorem runs_enclosed {count : Nat} (hrest : (s.forward count).rest = u :: after)
    (hu : u.trigger? = some close)
    (h : Runs (inner.expression .loosest) (s.await close) e ((s.await close).forward count)) :
    Runs (enclosed env inner close) s e.sequenceItems (s.forward (count + 1)) := by
  rw [State.await_forward] at h
  have hbody : Runs (awaiting close (inner.expression .loosest)) s e (s.forward count) :=
    runs_awaiting.mpr ⟨_, h, rfl⟩
  unfold enclosed
  refine hbody.bind ?_
  rw [runs_current, State.current_of_rest hrest, hu, beq_self_eq_true, if_pos rfl]
  rw [runs_advance, State.forward_forward]
  exact .pure _ _

/-- A notation that stands around its operands, if what stands between the delimiters is read. -/
theorem ReadsWithin.enclosed {body : Expression} (henv : env.IsStandard)
    (hopening : opening = .punct '|' ∨ opening = .optionalOpen) (hgoes : ¬EndsItem barred opening)
    (htrigger : opening.trigger? = some trigger)
    (hoperands : Dictionary.standard.operands trigger = [n]) (hreader : n.reader = none)
    (hkind : n.kind = .matchfix close) (hclose : closing.trigger? = some close)
    (hinside : ∀ closers, WaitsFor inside (close :: closers))
    (hbody : ∀ ts ∈ Q, ∀ (u : Token) (after : List Token) (s : State), s.rest = ts ++ u :: after →
      u.kind = closing → WaitsFor inside s.closers →
      Runs (outer.expression .loosest) s body (s.forward ts.length)) :
    ReadsWithin env outer barred (.function n.name body.sequenceItems)
      (Token.one opening * (Q * Token.one closing)) := by
  rintro us hus after s loosest hs hclosers - -
  obtain ⟨t, ts, u, rfl, rfl, hts, rfl⟩ := mem_enclosed_iff.mp hus
  have hrest : s.rest = t :: (ts ++ u :: after) := by
    rw [hs, List.cons_append, List.append_assoc]
    rfl
  have hthere : (s.forward 1).rest = ts ++ u :: after := by
    rw [State.rest_forward, hrest]
    rfl
  have hend : ((s.forward 1).forward ts.length).rest = u :: after := by
    rw [State.rest_forward, hthere, List.drop_left]
  have hbarrable : Barrable t.kind := by
    rcases hopening with h | h
    · exact h ▸ .bar
    · exact h ▸ .opening
  have hread := hbody ts hts u after ((s.forward 1).await close) hthere rfl (hinside _)
  have hitems : Runs (Parser.enclosed env outer close) (s.forward 1) body.sequenceItems _ :=
    runs_enclosed hend hclose hread
  have happly : Runs (applyNotation env outer n) (s.forward 1)
      (some { expression := .function n.name body.sequenceItems })
      ((s.forward 1).forward (ts.length + 1)) := by
    unfold applyNotation
    rw [hreader, hkind]
    exact hitems.bind (.pure _ _)
  have hoperand := (hbarrable.meets hrest hclosers hgoes).runs_operand_notated
    (runs_builtin_of_opening hrest hopening) htrigger (henv.dictionary ▸ hoperands) happly
  rw [State.forward_forward] at hoperand
  have hlength : (t :: (ts ++ [u])).length = 1 + (ts.length + 1) := by
    rw [List.length_cons, List.length_append, List.length_singleton, Nat.add_comm]
  rw [hlength]
  exact ⟨_, none, ⟨rfl, nofun⟩, leadsTo_of_operand hoperand⟩

/-! ### Operators -/

/-- Items with an operator between them. -/
def joinedTokens (kind : Token.Kind) (tokens : Expression → Language Token) :
    List Expression → Language Token
  | [] => 1
  | first :: others => tokens first * (others.map fun e => Token.one kind * tokens e).prod

/-- The chain goes on with an operator and the item behind it. -/
theorem ReadsWithin.leadsTo (henv : env.IsStandard) (hn : Operates kind n true) (hkind : Barrable kind)
    (houter : ∀ p, outer.expression p = expressionAt env inner p) (h : ReadsWithin env inner barred e P)
    (he : e.isMissing = false) (hright : rightPrecedence n ≤ standardPrecedence e)
    (htight : rightPrecedence n ≤ Precedence.addition.tighter) (hus : us ∈ Token.one kind * P)
    (hs : s.rest = us ++ after) (hclosers : WaitsFor barred s.closers)
    (hafter : EndsOperand barred (rightPrecedence n) after) (hloosest : loosest ≤ n.precedence)
    {fuel : Nat} (hfuel : s.rest.length ≤ fuel) :
    LeadsTo env outer loosest (chain env outer loosest fuel o chained) s
      ⟨extend n.name (chained == some n.name) o.expression e, false⟩ (some n.name)
      (s.forward us.length) := by
  obtain ⟨_, ⟨t, rfl, rfl⟩, ts, hts, rfl⟩ := Language.mem_mul.mp hus
  rw [List.append_assoc] at hs
  have hthere : (s.forward 1).rest = ts ++ after := by
    rw [State.rest_forward, hs]
    rfl
  have hruns := h.runs henv hts hthere (hclosers.forward 1) hright htight hafter
  rw [← houter, State.forward_forward] at hruns
  obtain ⟨trigger, htrigger, hoperators⟩ := hn.operators
  rw [← henv.dictionary] at hoperators
  have hle : (s.forward (1 + ts.length)).rest.length ≤ (ts ++ after).length := by
    rw [← State.forward_forward, State.rest_forward, hthere]
    simp
  rw [List.length_append, List.length_singleton]
  exact (hkind.meets hs hclosers hn.not_endsItem).leadsTo_of_variadic hn.free.ne_parenthesis htrigger
    hoperators hn.reader hn.infixOp hloosest hruns he hle hfuel

/-- Items with an operator between them are read as its chain. -/
theorem exists_leadsTo_of_joined (henv : env.IsStandard) (hn : Operates kind n true)
    (hkind : Barrable kind) (houter : ∀ p, outer.expression p = expressionAt env inner p)
    (hfirst : ReadsWithin env outer barred first (tokens first))
    (hothers : ∀ e ∈ others, ReadsWithin env inner barred e (tokens e))
    (hpresent : ∀ e ∈ others, e.isMissing = false) (hname : first.headName? ≠ some n.name)
    (hright : ∀ e ∈ others, rightPrecedence n ≤ standardPrecedence e)
    (htight : rightPrecedence n ≤ Precedence.addition.tighter)
    (hts : ts ∈ joinedTokens kind tokens (first :: others)) (hs : s.rest = ts ++ after)
    (hclosers : WaitsFor barred s.closers) (hafter : EndsOperand barred (rightPrecedence n) after)
    (hloosest : loosest ≤ n.precedence) (hstart : loosest ≤ standardPrecedence first) :
    ∃ o chained, Collects n.name (first :: others) o chained ∧
      (others ≠ [] → chained = some n.name) ∧
      LeadsTo env outer loosest (expressionAt env outer loosest) s o chained
        (s.forward ts.length) := by
  obtain ⟨us, hus, vs, hvs, rfl⟩ := Language.mem_mul.mp hts
  rw [List.append_assoc] at hs
  have hfollow : ∀ e ∈ others, ∀ ws ∈ Token.one kind * tokens e, ∀ after,
      EndsOperand barred (rightPrecedence n) (ws ++ after) := by
    intro e _ ws hws after t ht
    obtain ⟨_, ⟨u, rfl, rfl⟩, xs, -, rfl⟩ := Language.mem_mul.mp hws
    rw [← Option.some.inj ht]
    exact ⟨hkind, .inr ⟨n, hn, hn.tighter⟩⟩
  have hnext : EndsOperand barred (rightPrecedence n) (vs ++ after) :=
    follow_of_mem_prod hfollow hvs hafter
  obtain ⟨o, chained, ⟨ho, hchained⟩, hleads⟩ := hfirst us hus _ s loosest hs hclosers hstart
    (hnext.mono htight)
  have hcollects : Collects n.name [first] o chained := .of_ne ho fun heq => hname (hchained _ heq)
  have hrest : (s.forward us.length).rest = vs ++ after := by
    rw [State.rest_forward, hs, List.drop_left]
  have hforward : ∀ {s : State} (n : Nat), WaitsFor barred s.closers →
      WaitsFor barred (s.forward n).closers := fun n h => h.forward n
  obtain ⟨o', chained', ho', hchained', hmore⟩ := hcollects.exists_leadsTo hforward hfollow
    (fun e he ws hws after s o chained hs hclosers hafter fuel hfuel =>
      (hothers e he).leadsTo henv hn hkind houter (hpresent e he) (hright e he) htight hws hs hclosers
        hafter hloosest hfuel)
    (List.cons_ne_nil first []) hvs hrest (hclosers.forward _) hafter
  rw [List.map_id'] at ho'
  refine ⟨o', chained', ho', fun hne => hchained' (.inl hne), ?_⟩
  rw [List.length_append, ← State.forward_forward]
  exact hleads.trans hmore

/-! ### Absolute values, lists and sums -/

theorem ReadsWithin.abs (henv : env.IsStandard) (he : e.Nested)
    (houter : ∀ p, outer.expression p = expressionAt env inner p) (h : ReadsWithin env inner true e P) :
    ReadsWithin env outer false (.function "Abs" [e])
      (Token.one (.punct '|') * (P * Token.one (.punct '|'))) := by
  have habs : ReadsWithin env outer false (.function "Abs" e.sequenceItems) _ :=
    .enclosed henv (.inl rfl) (by decide) rfl rfl rfl rfl rfl waitsFor_bar
      fun ts hts u after s hs hu hclosers => by
        rw [houter]
        exact h.runs henv hts hs hclosers (Nat.zero_le _) (Nat.zero_le _)
          (EndsItem.endsOperand (.inr ⟨rfl, hu⟩) _ _)
  rwa [he.sequenceItems_eq] at habs

theorem sequenceItems_collect (h : ∀ a ∈ first :: others, a.Nested) :
    (Expression.collect "Sequence" (first :: others)).sequenceItems = first :: others := by
  cases others with
  | nil => exact (h first List.mem_cons_self).sequenceItems_eq
  | cons e es => rfl

/-- The items of a list, in front of the bracket that closes it. -/
theorem runs_items (henv : env.IsStandard) (hes : ∀ e ∈ first :: others, e.Nested)
    (houter : ∀ p, outer.expression p = expressionAt env inner p)
    (hfirst : ReadsWithin env outer false first (tokens first))
    (hothers : ∀ e ∈ others, ReadsWithin env inner false e (tokens e))
    (hts : ts ∈ joinedTokens (.punct ',') tokens (first :: others)) (hs : s.rest = ts ++ u :: after)
    (hu : u.kind = .optionalClose) (hclosers : WaitsFor false s.closers) :
    Runs (expressionAt env outer .loosest) s (.collect "Sequence" (first :: others))
      (s.forward ts.length) := by
  obtain ⟨hfirstNested, hothersNested⟩ := List.forall_mem_cons.mp hes
  have hends : EndsItem false u.kind := .inl hu
  have hright : Precedence.sequence.tighter ≤ .addition := by decide
  have hjoined : ∃ o chained, Collects "Sequence" (first :: others) o chained ∧ _ ∧
      LeadsTo env outer .loosest (expressionAt env outer .loosest) s o chained (s.forward ts.length) :=
    exists_leadsTo_of_joined henv operates_sequence .comma houter hfirst hothers
      (fun e he => (hothersNested e he).isMissing_eq) hfirstNested.headName?_ne
      (fun e he => Nat.le_trans hright (hothersNested e he).addition_le) (by decide) hts hs hclosers
      (hends.endsOperand _ _) (by decide) (Nat.zero_le _)
  obtain ⟨o, chained, ho, -, hleads⟩ := hjoined
  rw [← ho.expression]
  refine hleads.runs (stops_of_endsOperand henv (hclosers.forward _) ?_)
  rw [State.rest_forward, hs, List.drop_left]
  exact hends.endsOperand _ _

theorem ReadsWithin.list {outermost : Inner} {es : List Expression} (henv : env.IsStandard)
    (hes : ∀ e ∈ es, e.Nested) (houtermost : ∀ p, outermost.expression p = expressionAt env outer p)
    (houter : ∀ p, outer.expression p = expressionAt env inner p)
    (hfirst : ∀ e ∈ es, ReadsWithin env outer false e (tokens e))
    (hothers : ∀ e ∈ es, ReadsWithin env inner false e (tokens e)) :
    ReadsWithin env outermost barred (.function "List" es)
      (Token.one .optionalOpen * (joinedTokens (.punct ',') tokens es * Token.one .optionalClose)) := by
  have hlist (body : Expression) (hbody : ∀ ts ∈ joinedTokens (.punct ',') tokens es,
      ∀ (u : Token) (after : List Token) (s : State), s.rest = ts ++ u :: after →
        u.kind = .optionalClose → WaitsFor false s.closers →
        Runs (outermost.expression .loosest) s body (s.forward ts.length)) :
      ReadsWithin env outermost barred (.function "List" body.sequenceItems)
        (Token.one .optionalOpen *
          (joinedTokens (.punct ',') tokens es * Token.one .optionalClose)) := by
    have hgoes : ¬EndsItem barred .optionalOpen := by
      rintro (h | ⟨-, h⟩) <;> cases h
    exact .enclosed henv (.inr rfl) hgoes rfl rfl rfl rfl rfl waitsFor_bracket hbody
  cases es with
  | nil =>
    refine hlist .missing fun ts hts u after s hs hu hclosers => ?_
    obtain rfl : ts = [] := hts
    have hends : EndsItem false u.kind := .inl hu
    rw [houtermost]
    exact runs_expressionAt_of_atTerminator hs hends.barrable.isSpacing
      ((hends.barrable.atTerminator hs hclosers).trans (decide_eq_true hends)) _
  | cons first others =>
    have hcollected := hlist (.collect "Sequence" (first :: others))
      fun ts hts u after s hs hu hclosers => by
        rw [houtermost]
        exact runs_items henv hes houter (hfirst first List.mem_cons_self)
          (fun e he => hothers e (List.mem_cons_of_mem _ he)) hts hs hu hclosers
    rwa [sequenceItems_collect hes] at hcollected

theorem ReadsWithin.sum (henv : env.IsStandard)
    (houter : ∀ p, outer.expression p = expressionAt env inner p) (hne : others ≠ [])
    (hes : ∀ e ∈ first :: others, e.Nested) (hterms : ∀ e ∈ first :: others, e.headName? ≠ some "Add")
    (hfirst : ReadsWithin env outer barred first (tokens first))
    (hothers : ∀ e ∈ others, ReadsWithin env inner barred e (tokens e)) :
    ReadsWithin env outer barred (.function "Add" (first :: others))
      (joinedTokens (.punct '+') tokens (first :: others)) := by
  intro ts hts after s loosest hs hclosers hloosest hafter
  rw [standardPrecedence_function lookup_add] at hloosest
  obtain ⟨hfirstNested, hothersNested⟩ := List.forall_mem_cons.mp hes
  obtain ⟨hfirstTerm, hothersTerm⟩ := List.forall_mem_cons.mp hterms
  have hatomic (e : Expression) (he : e ∈ others) : standardPrecedence e = .atomic :=
    (hothersNested e he).standardPrecedence_eq (hothersTerm e he)
  obtain ⟨o, chained, ho, hchained, hleads⟩ := exists_leadsTo_of_joined henv operates_add .plus houter
    hfirst hothers (fun e he => (hothersNested e he).isMissing_eq) hfirstTerm
    (fun e he => by rw [hatomic e he]; decide) (by decide) hts hs hclosers hafter hloosest
    (Nat.le_trans hloosest hfirstNested.addition_le)
  refine ⟨o, chained, ⟨?_, fun name hname => ?_⟩, hleads⟩
  · obtain ⟨second, more, rfl⟩ := List.exists_cons_of_ne_nil hne
    exact ho.expression
  · rw [hchained hne] at hname
    rw [← Option.some.inj hname]
    rfl

/-! ### Tokens -/

/-- All tokens are letters, plus signs, commas, brackets or bars. -/
def AllBarrable (P : Language Token) : Prop :=
  ∀ ts ∈ P, ∀ t ∈ ts, Barrable t.kind

theorem AllBarrable.one (h : Barrable kind) : AllBarrable (Token.one kind) := by
  rintro _ ⟨t, rfl, rfl⟩
  exact List.forall_mem_singleton.mpr h

theorem AllBarrable.mul (hP : AllBarrable P) (hQ : AllBarrable Q) : AllBarrable (P * Q) := by
  intro ts hts
  obtain ⟨us, hus, vs, hvs, rfl⟩ := Language.mem_mul.mp hts
  exact List.forall_mem_append.mpr ⟨hP us hus, hQ vs hvs⟩

theorem AllBarrable.prod {Ps : List (Language Token)} (h : ∀ P ∈ Ps, AllBarrable P) :
    AllBarrable Ps.prod := by
  induction Ps with
  | nil =>
    rintro _ rfl
    exact List.forall_mem_nil _
  | cons P Ps ih =>
    obtain ⟨hP, hPs⟩ := List.forall_mem_cons.mp h
    rw [List.prod_cons]
    exact hP.mul (ih hPs)

theorem AllBarrable.joined {es : List Expression} (hkind : Barrable kind)
    (h : ∀ e ∈ es, AllBarrable (tokens e)) : AllBarrable (joinedTokens kind tokens es) := by
  cases es with
  | nil =>
    rintro _ rfl
    exact List.forall_mem_nil _
  | cons first others =>
    obtain ⟨hfirst, hothers⟩ := List.forall_mem_cons.mp h
    refine hfirst.mul (.prod (List.forall_mem_map.mpr fun e he => ?_))
    exact (AllBarrable.one hkind).mul (hothers e he)

end Parser

/-! ### Writing -/

variable {e first : Expression} {es others : List Expression} {text : Expression → String}
  {tokens : Expression → Language Token} {name close written : String} {entry : Notation}
  {P : Language Token} {kind kind' : Token.Kind} {glyph glyph' : String}

theorem exists_cons_of_two_le (h : 2 ≤ es.length) :
    ∃ first others, es = first :: others ∧ others ≠ [] := by
  match es, h with
  | first :: second :: others, _ => exact ⟨first, second :: others, rfl, List.cons_ne_nil _ _⟩

theorem eventually_forall_mem {α : Type} {p : α → Nat → Prop} {as : List α}
    (h : ∀ a ∈ as, ∀ᶠ n in atTop, p a n) : ∀ᶠ n in atTop, ∀ a ∈ as, p a n :=
  (eventually_all_finite (List.finite_toSet as)).mpr h

namespace Writes

theorem list (h : ∀ e ∈ es, Writes (fun scribe => scribe.serialize e) (text e)) :
    Writes (fun scribe => scribe.list es) (String.intercalate ", " (es.map text)) := by
  refine (eventually_forall_mem h).mono fun levels hlevels s hs => ?_
  exact Serializer.list_eq fun e he => hlevels e he s hs

theorem matchfix (hname : Dictionary.standard.lookup name = some entry) (hhook : entry.writer = none)
    (haccepts : entry.arity.accepts es.length = true) (hkind : entry.kind = .matchfix close)
    (h : ∀ e ∈ es, Writes (fun scribe => scribe.serialize e) (text e)) :
    Writes (fun scribe => scribe.serialize (.function name es))
      (entry.glyph ++ String.intercalate ", " (es.map text) ++ close) := by
  refine .kind hname hhook haccepts ?_
  unfold Serializer.byKind
  rw [hkind]
  exact (list h).bind (.pure _)

/-- Expressions written one behind the other. -/
theorem foldlM {step : Scribe → String → Expression → Except WriteFault String}
    {next : String → Expression → String}
    (h : ∀ e ∈ es, ∀ written, Writes (fun scribe => step scribe written e) (next written e))
    (written : String) :
    Writes (fun scribe => es.foldlM (step scribe) written) (es.foldl next written) := by
  induction es generalizing written with
  | nil => exact .pure written
  | cons e es ih =>
    obtain ⟨he, hes⟩ := List.forall_mem_cons.mp h
    exact (he written).bind (ih hes _)

theorem wrap_of_atomic {text : String} (h : Writes (fun scribe => scribe.serialize e) text)
    (hatomic : standardPrecedence e = .atomic) (loosest : Precedence) :
    Writes (fun scribe => scribe.wrap e loosest) text := by
  have hwrap := h.wrap loosest
  rwa [wrapText_of_atomic hatomic] at hwrap

theorem sum (hatomic : ∀ e ∈ first :: others, standardPrecedence e = .atomic)
    (hpositive : ∀ e ∈ others, Writers.isNegativeTerm e = false)
    (hstarts : ∀ e ∈ others, Text.startsWith (text e) '-' = false)
    (h : ∀ e ∈ first :: others, Writes (fun scribe => scribe.serialize e) (text e)) :
    Writes (fun scribe => scribe.serialize (.function "Add" (first :: others)))
      (String.intercalate "+" ((first :: others).map text)) := by
  have hterm : ∀ e ∈ others, ∀ written,
      Writes (fun scribe => Writers.addTerm scribe written e) (written ++ "+" ++ text e) := by
    intro e he written
    have hmem := List.mem_cons_of_mem first he
    have hwrap := (h e hmem).wrap_of_atomic (hatomic e hmem) Precedence.addition.tighter
    unfold Writers.addTerm
    simp only [hpositive e he, Bool.false_eq_true, if_false]
    refine hwrap.bind ?_
    rw [hstarts e he]
    exact .pure _
  have hmem : first ∈ first :: others := List.mem_cons_self
  have hfirst := (h first hmem).wrap_of_atomic (hatomic first hmem) .addition
  rw [List.map_cons, ← foldl_eq_intercalate]
  exact .hook lookup_add rfl (hfirst.bind (foldlM hterm _))

end Writes

/-! ### Both directions -/

/-- The expression is written as the text, and the tokens of the text are read as the expression if its
bars are apart. -/
structure Nests (e : Expression) (text : String) (P : Language Token) : Prop where
  writes : Writes (fun scribe => scribe.serialize e) text
  opens : ∃ c ∈ text.toList.head?, c ≠ '-'
  spells : Spells text.toList P
  barrable : AllBarrable P
  reads : ∀ barred, e.barsApart barred = true → ∀ᶠ levels in atTop, ∀ env : Env, env.IsStandard →
    ReadsWithin env (nested env levels) barred e P

theorem Separates.spells_enclosed {text : String} (hopen : Separates glyph kind)
    (hclose : Separates glyph' kind') (h : Spells text.toList P) :
    Spells (glyph ++ text ++ glyph').toList (Token.one kind * (P * Token.one kind')) := by
  rw [String.toList_append, String.toList_append, ← mul_assoc]
  exact (hopen.spells.mul h (hopen.severs_right [] _)).mul hclose.spells (hclose.severs_left _)

theorem Separates.spells_joinedTokens (h : Separates glyph kind)
    (hes : ∀ e ∈ es, Spells (text e).toList (tokens e)) :
    Spells (String.intercalate glyph (es.map text)).toList (joinedTokens kind tokens es) := by
  cases es with
  | nil => exact .nil
  | cons first others => exact h.spells_intercalate first others hes

theorem separates_bar : Separates "|" (.punct '|') :=
  .ofMark (c := '|') (.punct fun _ => rfl)

theorem separates_opening : Separates "[" .optionalOpen :=
  ⟨.of_single rfl fun _ => rfl, ⟨'[', rfl, rfl, rfl⟩, ⟨'[', rfl, rfl, rfl⟩⟩

theorem separates_closing : Separates "]" .optionalClose :=
  ⟨.of_single rfl fun _ => rfl, ⟨']', rfl, rfl, rfl⟩, ⟨']', rfl, rfl, rfl⟩⟩

namespace Nests

theorem startsWith_eq {text : String} (h : Nests e text P) : Text.startsWith text '-' = false := by
  obtain ⟨c, hc, hne⟩ := h.opens
  rw [Text.startsWith, hc]
  exact beq_false_of_ne fun heq => hne (Option.some.inj heq)

theorem letter {c : Char} (hc : Text.isLetter c = true) (hsymbol : c ∉ ['f', 'g', 'h']) :
    Nests (.symbol (String.singleton c)) (String.singleton c) (Token.one (.letter c)) where
  writes := .letter c
  opens := by
    refine ⟨c, by rw [String.toList_singleton]; rfl, ?_⟩
    rintro rfl
    exact absurd hc (by decide)
  spells := by
    rw [String.toList_singleton]
    exact .letter hc
  barrable := .one (.letter hc)
  reads _ _ := .of_forall fun _ _ henv => .letter henv hc hsymbol

theorem abs {text : String} (he : e.Nested) (h : Nests e text P) :
    Nests (.function "Abs" [e]) ("|" ++ text ++ "|")
      (Token.one (.punct '|') * (P * Token.one (.punct '|'))) where
  writes := by
    have hitem : ∀ a ∈ [e], Writes (fun scribe => scribe.serialize a) ((fun _ => text) a) :=
      List.forall_mem_singleton.mpr h.writes
    have hwrites := Writes.matchfix lookup_abs rfl rfl rfl hitem
    rwa [List.map_singleton, String.intercalate_singleton] at hwrites
  opens := by
    rw [String.toList_append, String.toList_append]
    exact ⟨'|', rfl, by decide⟩
  spells := separates_bar.spells_enclosed separates_bar h.spells
  barrable := (AllBarrable.one .bar).mul (h.barrable.mul (.one .bar))
  reads barred hbars := by
    obtain ⟨rfl, hinside⟩ := Expression.barsApart_abs.mp hbars
    have hreads := h.reads true (hinside e List.mem_cons_self)
    refine eventually_succ hreads fun levels hlevels env henv => ?_
    exact .abs henv he (fun _ => rfl) (hlevels env henv)

section

variable (hes : ∀ e ∈ es, e.Nested) (h : ∀ e ∈ es, Nests e (text e) (tokens e))

include hes h

theorem list :
    Nests (.function "List" es) ("[" ++ String.intercalate ", " (es.map text) ++ "]")
      (Token.one .optionalOpen *
        (joinedTokens (.punct ',') tokens es * Token.one .optionalClose)) where
  writes := by
    have hitems : ∀ e ∈ es, Writes (fun scribe => scribe.serialize e) (text e) :=
      fun e he => (h e he).writes
    have hwrites := Writes.matchfix lookup_list rfl rfl rfl hitems
    exact hwrites
  opens := by
    rw [String.toList_append, String.toList_append]
    exact ⟨'[', rfl, by decide⟩
  spells := separates_opening.spells_enclosed separates_closing
    (separates_comma.spells_joinedTokens fun e he => (h e he).spells)
  barrable := (AllBarrable.one .opening).mul
    ((AllBarrable.joined .comma fun e he => (h e he).barrable).mul (.one .closing))
  reads barred hbars := by
    have hitems := Expression.barsApart_list.mp hbars
    have hreads := eventually_and_succ
      (eventually_forall_mem fun e he => (h e he).reads false (hitems e he))
    refine eventually_succ (eventually_below hreads) fun above hlevels env henv => ?_
    obtain ⟨levels, rfl, hinner, houter⟩ := hlevels
    exact .list henv hes (fun _ => rfl) (fun _ => rfl) (fun e he => houter e he env henv)
      fun e he => hinner e he env henv

theorem sum (hlength : 2 ≤ es.length) (hterms : ∀ e ∈ es, e.headName? ≠ some "Add") :
    Nests (.function "Add" es) (String.intercalate "+" (es.map text))
      (joinedTokens (.punct '+') tokens es) where
  writes := by
    obtain ⟨first, others, rfl, -⟩ := exists_cons_of_two_le hlength
    have hatomic (e : Expression) (he : e ∈ first :: others) : standardPrecedence e = .atomic :=
      (hes e he).standardPrecedence_eq (hterms e he)
    have hpositive (e : Expression) (he : e ∈ others) : Writers.isNegativeTerm e = false := by
      cases hes e (List.mem_cons_of_mem _ he) <;> rfl
    exact .sum hatomic hpositive (fun e he => (h e (List.mem_cons_of_mem _ he)).startsWith_eq)
      fun e he => (h e he).writes
  opens := by
    obtain ⟨first, others, rfl, -⟩ := exists_cons_of_two_le hlength
    obtain ⟨c, hc, hne⟩ := (h first List.mem_cons_self).opens
    obtain ⟨cs, hcs⟩ := List.head?_eq_some_iff.mp hc
    refine ⟨c, ?_, hne⟩
    cases others <;> simp [String.intercalate_cons_cons, hcs]
  spells := separates_plus.spells_joinedTokens fun e he => (h e he).spells
  barrable := .joined .plus fun e he => (h e he).barrable
  reads barred hbars := by
    obtain ⟨first, others, rfl, hne⟩ := exists_cons_of_two_le hlength
    have hitems := (Expression.barsApart_function (by decide)).mp hbars
    have hreads := eventually_and_succ
      (eventually_forall_mem fun e he => (h e he).reads barred (hitems e he))
    refine eventually_succ hreads fun levels ⟨hinner, houter⟩ env henv => ?_
    exact .sum henv (fun _ => rfl) hne hes hterms (houter first List.mem_cons_self env henv)
      fun e he => hinner e (List.mem_cons_of_mem _ he) env henv

end

/-- A text is parsed as the expression just if the bars of the expression are apart. -/
theorem eventually_parse_iff {text : String} (he : e.Nested) (h : Nests e text P) :
    ∀ᶠ levels in atTop, parse .standard { maxDepth := levels } text = .ok ⟨e, []⟩ ↔
      e.barsApart false = true := by
  by_cases hbars : e.barsApart false = true
  · refine eventually_succ (h.reads false hbars) fun levels hlevels => iff_of_true ?_ hbars
    let env : Env := ⟨text, .standard, { maxDepth := levels + 1 }⟩
    have henv : env.IsStandard := ⟨rfl, rfl⟩
    have hrest : (State.ofSource text).rest = Token.meaningful text ++ [] := (List.append_nil _).symm
    exact parse_eq_of_runs rfl he.isMissing_eq ((hlevels env henv).runs henv h.spells.laid_mem hrest
      waitsFor_nil (Nat.zero_le _) (Nat.zero_le _) .nil)
  · refine .of_forall fun levels => iff_of_false (fun hparse => hbars ?_) hbars
    exact barsApart_of_parse (h.barrable _ h.spells.laid_mem) hparse

end Nests

/-- By induction on the expression. -/
theorem Expression.Nested.exists_nests (he : e.Nested) : ∃ text P, Nests e text P := by
  induction he with
  | letter hc hsymbol => exact ⟨_, _, .letter hc hsymbol⟩
  | abs he ih =>
    obtain ⟨text, P, h⟩ := ih
    exact ⟨_, _, .abs he h⟩
  | list hes ih =>
    choose! text tokens h using ih
    exact ⟨_, _, .list hes h⟩
  | sum hlength hes hterms ih =>
    choose! text tokens h using ih
    exact ⟨_, _, .sum hes h hlength hterms⟩

/-- Serializing and parsing gives the expression back, with no diagnostics, just if no absolute value
stands inside of another one without brackets in between. -/
theorem parse_run_of_nested (he : e.Nested) :
    ∃ latex depth, ∀ levels, depth ≤ levels →
      (Serializer.mk .standard { maxDepth := levels }).run e = .ok ⟨latex, []⟩ ∧
      (parse .standard { maxDepth := levels } latex = .ok ⟨e, []⟩ ↔ e.barsApart false = true) := by
  obtain ⟨latex, P, h⟩ := he.exists_nests
  obtain ⟨depth, hdepth⟩ := eventually_atTop.mp (Eventually.and h.writes (h.eventually_parse_iff he))
  refine ⟨latex, depth, fun levels hlevels => ?_⟩
  obtain ⟨hwrites, hparse⟩ := hdepth levels hlevels
  have hserialize : (Serializer.mk .standard { maxDepth := levels }).serialize e = .ok latex :=
    hwrites _ ⟨rfl, rfl⟩
  exact ⟨by rw [Serializer.run, hserialize], hparse⟩

theorem Expression.nested_x : (symbol "x").Nested :=
  .letter (c := 'x') (by decide) (by decide)

/-- Brackets between two pairs of bars. -/
theorem parse_run_of_nested_list :
    let e := Expression.function "Abs" [.function "List" [.function "Abs" [.symbol "x"],
      .function "Add" [.symbol "x", .function "Abs" [.symbol "x"]]]]
    e.Nested ∧ ∃ latex depth, ∀ levels, depth ≤ levels →
      (Serializer.mk .standard { maxDepth := levels }).run e = .ok ⟨latex, []⟩ ∧
      parse .standard { maxDepth := levels } latex = .ok ⟨e, []⟩ := by
  have hx := Expression.nested_x
  have hsum : (Expression.function "Add" [.symbol "x", .function "Abs" [.symbol "x"]]).Nested :=
    .sum (by decide) (List.forall_mem_cons.mpr ⟨hx, List.forall_mem_singleton.mpr (.abs hx)⟩)
      (List.forall_mem_cons.mpr ⟨nofun, List.forall_mem_singleton.mpr (by decide)⟩)
  have he : (Expression.function "Abs" [.function "List" [.function "Abs" [.symbol "x"],
      .function "Add" [.symbol "x", .function "Abs" [.symbol "x"]]]]).Nested :=
    .abs (.list (List.forall_mem_cons.mpr ⟨.abs hx, List.forall_mem_singleton.mpr hsum⟩))
  obtain ⟨latex, depth, h⟩ := parse_run_of_nested he
  refine ⟨he, latex, depth, fun levels hlevels => ?_⟩
  obtain ⟨hrun, hparse⟩ := h levels hlevels
  exact ⟨hrun, hparse.mpr (by decide)⟩

/-- Bars directly inside of bars are read as two empty absolute values with a factor in between. -/
theorem not_parse_run_of_nested_bars :
    let e := Expression.function "Abs" [.function "Abs" [.symbol "x"]]
    e.Nested ∧ (∀ levels, 3 ≤ levels →
      (Serializer.mk .standard { maxDepth := levels }).run e = .ok ⟨"||x||", []⟩ ∧
      parse .standard { maxDepth := levels } "||x||" ≠ .ok ⟨e, []⟩) ∧
    (parse .standard {} "||x||").toOption.map (fun p => (MathJson.encode p.expression).compact) =
      some "[\"Multiply\",[\"Abs\"],\"x\",[\"Abs\"]]" := by
  have hx := Expression.nested_x
  refine ⟨.abs (.abs hx), fun levels hlevels => ⟨?_, fun hparse => ?_⟩, by decide +kernel⟩
  · obtain ⟨n, rfl⟩ := Nat.exists_eq_add_of_le' hlevels
    rfl
  · have hnests := Nests.abs (.abs hx) (.abs hx (.letter (c := 'x') (by decide) (by decide)))
    have htext : "|" ++ ("|" ++ String.singleton 'x' ++ "|") ++ "|" = "||x||" := rfl
    have htokens := hnests.barrable _ hnests.spells.laid_mem
    rw [htext] at htokens
    have hbars := barsApart_of_parse htokens hparse
    cases hbars

end TexFormula
