import TexFormula.Proofs.SlotTexts

/-!
# Open places read back

`parse_run_slots_iff`: where an open place is an operand, the node is read back without diagnostics
just if the place is one of a fraction or a power, or the first operand and not the only argument. The
parser takes an open place for an operand that is not there: behind an operator it is reported, as a
factor it is left out with the factors behind it, and alone in parentheses it is no argument.
-/

open TexFormula.Parser

namespace TexFormula

variable {name glyph : String} {x y : Slot} {slots : List Slot} {kind : Token.Kind} {n : Notation}
  {variadic : Bool}

/-! ### Operators -/

theorem parse_joined (hn : Operates kind n variadic) (hglyph : Separates glyph kind)
    (hmany : variadic = true ∨ slots.length ≤ 1) (hslots : slots ≠ []) :
    ∃ found, parse .standard {} (joined glyph x slots) =
        .ok ⟨.function n.name ((x :: slots).map Slot.expression), found⟩ ∧
      found.length = slots.countP Slot.isVacant := by
  let env : Env := ⟨joined glyph x slots, .standard, {}⟩
  have henv : env.IsStandard := ⟨rfl, rfl⟩
  have hts := (hglyph.spells_joined x slots).laid_mem
  have hrest : (State.ofSource env.source).rest = Token.laid 0 env.source.toList ++ [] :=
    (List.append_nil _).symm
  have hruns : Runs (expressionAt env (nested env 63) .loosest) (.ofSource env.source) _ _ :=
    runs_expressionAt_of_slots hn henv (fun _ => rfl) (Nat.zero_le _) hmany hts hrest nofun nofun
  have hend : (((State.ofSource env.source).forward 1).behind env n slots).rest = [] :=
    rest_behind_slots hts hrest
  obtain ⟨z, more, rfl⟩ := List.exists_cons_of_ne_nil hslots
  refine ⟨_, parse_eq_of_runs_expression rfl rfl hruns hend, ?_⟩
  rw [List.length_reverse, State.length_diagnostics_behind, State.diagnostics_forward]
  exact Nat.zero_add _

theorem forall_isVacant_eq_false_iff {found : List Diagnostic}
    (h : found.length = slots.countP Slot.isVacant) :
    found = [] ↔ ∀ y ∈ slots, y.isVacant = false := by
  rw [← List.length_eq_zero_iff, h, List.countP_eq_zero]
  simp

theorem parse_joined_iff (hn : Operates kind n variadic) (hglyph : Separates glyph kind)
    (hmany : variadic = true ∨ slots.length ≤ 1) (hslots : slots ≠ []) :
    parse .standard {} (joined glyph x slots) =
        .ok ⟨.function n.name ((x :: slots).map Slot.expression), []⟩ ↔
      ∀ y ∈ slots, y.isVacant = false := by
  obtain ⟨found, hparse, hfound⟩ := parse_joined hn hglyph hmany hslots
  rw [hparse, ← forall_isVacant_eq_false_iff hfound]
  simp

theorem lookup_sequence : Dictionary.standard.lookup "Sequence" =
    some (((Notation.ofInfix "Sequence" "," .sequence).variadic.withArity 0 none).withLatex ", ") := by
  rfl

theorem lookup_equal : Dictionary.standard.lookup "Equal" =
    some (Notation.ofInfix "Equal" "=" .equality).nonAssociative := by
  rfl

theorem Serializer.run_sum (x : Slot) (slots : List Slot) :
    run ⟨.standard, {}⟩ (.function "Add" ((x :: slots).map Slot.expression)) =
      .ok ⟨joined "+" x slots, []⟩ := by
  refine run_function ?_
  rw [named, lookup_add]
  exact sum_slots 62 x slots

theorem Serializer.run_chain (hlookup : Dictionary.standard.lookup name = some n)
    (hwriter : n.writer = none) (hkind : n.kind = .infixOp variadic)
    (harity : n.arity.accepts (slots.length + 1) = true) (hglyph : Separates n.glyph kind) (x : Slot) :
    run ⟨.standard, {}⟩ (.function name ((x :: slots).map Slot.expression)) =
      .ok ⟨joined n.glyph x slots, []⟩ := by
  refine run_function ?_
  rw [named, hlookup]
  dsimp only
  rw [hwriter]
  dsimp only
  rw [List.length_map, List.length_cons, harity, if_pos rfl]
  unfold byKind
  rw [hkind]
  exact chain_slots hglyph 62 x slots

/-! ### Arguments -/

theorem exists_runs_arguments {env : Env} {s : State} {ts after : List Token} {t : Token}
    (henv : env.IsStandard) (levels : Nat) (hts : ts ∈ argumentTokens slots)
    (hs : s.rest = ts ++ t :: after) (ht : t.kind = .punct ')') :
    ∃ s₁, Runs (groupBody env (nested env (levels + 2)) ")" (.punct ')')) s (argumentBody slots) s₁ ∧
      s₁.rest = after ∧
      s₁.diagnostics.length = s.diagnostics.length + slots.tail.countP Slot.isVacant := by
  cases slots with
  | nil =>
    obtain rfl : ts = [] := hts
    have hinside : (s.await ")").rest = t :: after := hs
    refine ⟨_, runs_groupBody_of_runs (runs_expressionAt_of_closing hinside (.inr ht) .loosest)
      hinside ht, ?_, ?_⟩
    · rw [State.rest_forward]
      exact congrArg (List.drop 1) hinside
    · rw [State.diagnostics_forward]
      rfl
  | cons x slots =>
    have hinside : (s.await ")").rest = ts ++ t :: after := hs
    have hruns : Runs ((nested env (levels + 2)).expression .loosest) (s.await ")") _ _ :=
      runs_expressionAt_of_slots operates_sequence henv (fun _ => rfl) (Nat.zero_le _) (.inl rfl)
        hts hinside (.await (.inl rfl) s) (EndsSum.of_closing (.inr ht) after)
    refine ⟨_, runs_groupBody_of_runs hruns (rest_behind_slots hts hinside) ht, ?_, ?_⟩
    · rw [State.rest_forward]
      exact congrArg (List.drop 1) (rest_behind_slots hts hinside)
    · rw [State.diagnostics_forward]
      show (State.behind env _ _ slots).diagnostics.length = _
      rw [State.length_diagnostics_behind, State.diagnostics_forward]
      rfl

theorem parse_application {c : Char} (hc : Text.isLetter c = true) (hcall : c ∈ ['f', 'g', 'h']) :
    ∃ found, parse .standard {} (String.singleton c ++ Text.parenthesized (argumentText slots)) =
        .ok ⟨.function (.singleton c) (argumentBody slots).sequenceItems, found⟩ ∧
      found.length = slots.tail.countP Slot.isVacant := by
  let text := String.singleton c ++ Text.parenthesized (argumentText slots)
  let env : Env := ⟨text, .standard, {}⟩
  have henv : env.IsStandard := ⟨rfl, rfl⟩
  have hspells : Spells text.toList (Token.one (.letter c) *
      (Token.one (.punct '(') * (argumentTokens slots * Token.one (.punct ')')))) := by
    refine Spells.appendParenthesized ?_ (spells_argumentText slots)
    rw [String.toList_singleton]
    exact .letter hc
  obtain ⟨_, ⟨t, rfl, ht⟩, us, hus, htokens⟩ := Language.mem_mul.mp hspells.laid_mem
  obtain ⟨opening, ts, closing, rfl, hopening, hts, hclosing⟩ := mem_enclosed_iff.mp hus
  have hrest : (State.ofSource text).rest = t :: opening :: (ts ++ [closing]) := htokens.symm
  have hoperand : Runs (operand env (nested env 63)) (.ofSource text) _ _ :=
    runs_operand_of_isLetter henv hrest ht hc nofun
  have hbehind : ((State.ofSource text).forward 1).rest = opening :: (ts ++ [closing]) := by
    rw [State.rest_forward, hrest]
    rfl
  have hinside : (((State.ofSource text).forward 1).forward 1).rest = ts ++ [closing] := by
    rw [State.rest_forward, hbehind]
    rfl
  obtain ⟨s₁, hruns, hend, hfound⟩ := exists_runs_arguments henv 61 hts hinside hclosing
  have hcallable : (Operand.ofName (.singleton c)).callable = true :=
    beq_iff_eq.mpr ((disposition_singleton_eq_function hc).mpr hcall)
  have hdelimited : ((State.ofSource text).forward 1).Delimited :=
    ((located env).forward 1 (located_ofSource env)).1
  have hshort : s₁.rest.length ≤ (ts ++ [closing]).length := by simp [hend]
  have hleads : LeadsTo env (nested env 63) .loosest (expressionAt env (nested env 63) .loosest)
      (.ofSource text) ⟨.function (.singleton c) (argumentBody slots).sequenceItems, true⟩ none s₁ :=
    (leadsTo_of_operand hoperand).trans fun fuel hfuel =>
      leadsTo_of_arguments hbehind hopening hdelimited hcallable hruns hshort hfuel
  refine ⟨_, parse_eq_of_runs_expression rfl rfl (hleads.runs (stops_of_nil hend)) hend, ?_⟩
  rw [List.length_reverse, hfound, State.diagnostics_forward, State.diagnostics_forward]
  exact Nat.zero_add _

theorem parse_application_iff {c : Char} (hc : Text.isLetter c = true) (hcall : c ∈ ['f', 'g', 'h']) :
    parse .standard {} (String.singleton c ++ Text.parenthesized (argumentText slots)) =
        .ok ⟨.function (.singleton c) (slots.map Slot.expression), []⟩ ↔
      (∀ y ∈ slots.tail, y.isVacant = false) ∧ slots ≠ [.vacant] := by
  obtain ⟨found, hparse, hfound⟩ := parse_application hc hcall
  rw [hparse, ← forall_isVacant_eq_false_iff hfound]
  by_cases hlone : slots = [.vacant]
  · -- a single open place is read as no argument at all
    subst hlone
    simp [argumentBody, Expression.collect, Slot.expression, Expression.sequenceItems,
      Expression.function]
  · rw [sequenceItems_argumentBody hlone]
    simp [hlone]

theorem Serializer.run_application {c : Char} (hc : Text.isLetter c = true) (slots : List Slot) :
    run ⟨.standard, {}⟩ (.function (.singleton c) (slots.map Slot.expression)) =
      .ok ⟨String.singleton c ++ Text.parenthesized (argumentText slots), []⟩ := by
  refine run_function ?_
  have hsymbol : (Serializer.mk .standard {}).symbol (.singleton c) = .singleton c :=
    Except.ok.inj ((Slot.letter c hc).serialize 0)
  have hslash : Text.startsWith (.singleton c) '\\' = false :=
    Text.startsWith_backslash_of_isLetter (by simp [hc])
  have happlication := application_slots hslash 62 slots
  rw [hsymbol] at happlication
  rw [named, lookup_standard_singleton]
  exact happlication

/-! ### Fractions and powers -/

theorem parse_fraction (x y : Slot) :
    parse .standard {} ("\\frac" ++ Text.braced x.text ++ Text.braced y.text) =
      .ok ⟨.function "Divide" [x.expression, y.expression], []⟩ := by
  let env : Env := ⟨"\\frac" ++ Text.braced x.text ++ Text.braced y.text, .standard, {}⟩
  have henv : env.IsStandard := ⟨rfl, rfl⟩
  have hcommand : Spells "\\frac".toList (Token.one (.command "frac")) :=
    @Spells.command "frac".toList (by decide) (List.all_eq_true.mp (by decide))
  have hspells := (hcommand.appendBraced x.spells).appendBraced y.spells
  rw [mul_assoc] at hspells
  have hreads : Reads env (nested env 63) _ _ _ _ _ :=
    .fraction henv rfl (.slot_endsSum henv x) (.slot_endsSum henv y) EndsSum
  obtain ⟨_, _, ⟨-, _, _, _, _, rfl, rfl, rfl⟩, hparse⟩ := hreads.exists_parse_eq hspells nofun nofun
    rfl (by rintro _ _ ⟨-, _, _, _, _, -, -, rfl⟩; rfl)
  rw [hparse, x.expression_operand, y.expression_operand]

theorem parse_power (x y : Slot) :
    parse .standard {} (x.text ++ "^" ++ Text.braced y.text) =
      .ok ⟨.function "Power" [x.expression, y.expression], []⟩ := by
  let env : Env := ⟨x.text ++ "^" ++ Text.braced y.text, .standard, {}⟩
  have henv : env.IsStandard := ⟨rfl, rfl⟩
  have hcaret : Lexeme.Mark "^".toList (.punct '^') := .punct fun _ => rfl
  have hspells := (x.spells.appendMark hcaret).appendBraced y.spells
  rw [mul_assoc] at hspells
  have hcontinues (t : Token) (after : List Token) (ht : t.kind = .punct '^') :
      Ungrouped (t :: after) := by
    have hfree : Free t.kind := by
      rw [ht]
      decide
    exact hfree.ungrouped after
  have hreads : Reads env (nested env 63) _ _ _ _ _ :=
    .power henv rfl (.slot henv x) (by decide) hcontinues (.slot_endsSum henv y) EndsSum
  obtain ⟨_, _, ⟨-, _, _, _, _, ⟨rfl, -⟩, rfl, rfl⟩, hparse⟩ := hreads.exists_parse_eq hspells nofun
    nofun rfl (by rintro _ _ ⟨-, _, _, _, _, -, -, rfl⟩; rfl)
  rw [hparse, x.expression_operand, y.expression_operand]

theorem Serializer.run_fraction (x y : Slot) :
    run ⟨.standard, {}⟩ (.function "Divide" [x.expression, y.expression]) =
      .ok ⟨"\\frac" ++ Text.braced x.text ++ Text.braced y.text, []⟩ := by
  refine run_function ?_
  have hserialize (z : Slot) : (Scribe.standard 63).serialize z.expression = .ok z.text :=
    z.serialize 62
  rw [named, lookup_divide]
  show (Scribe.standard 63).bracedArguments "\\frac" [x.expression, y.expression] = _
  simp only [Scribe.bracedArguments, List.foldlM_cons, hserialize]
  rfl

theorem Serializer.run_power (x y : Slot) :
    run ⟨.standard, {}⟩ (.function "Power" [x.expression, y.expression]) =
      .ok ⟨x.text ++ "^" ++ Text.braced y.text, []⟩ := by
  refine run_function ?_
  have hbase : Writers.scriptBase (.standard 63) x.expression = .ok x.text := by
    have hnumber : x.expression.isNumber = false := by cases x <;> rfl
    rw [Writers.scriptBase, x.wrap 62]
    show Except.ok (if _ then _ else _) = _
    rw [x.startsWith_minus, hnumber]
    rfl
  have hnegative : Product.negativeNumber? y.expression = none := by cases y <;> rfl
  have hrational : Writers.rationalParts? y.expression = none := by cases y <;> rfl
  rw [named, lookup_power]
  show Writers.power (.standard 63) [x.expression, y.expression] = _
  rw [Writers.power, hnegative, hrational, hbase]
  dsimp only
  rw [y.serialize 62]
  rfl

/-! ### Products -/

/-- The tokens of slots side by side. -/
def slotTokens (slots : List Slot) : Language Token :=
  (slots.map fun y => Token.one y.kind).prod

theorem slotTokens_append (slots more : List Slot) :
    slotTokens (slots ++ more) = slotTokens slots * slotTokens more := by
  simp [slotTokens]

theorem slotTokens_cons (y : Slot) (slots : List Slot) :
    slotTokens (y :: slots) = Token.one y.kind * slotTokens slots := by
  simp [slotTokens]

/-- The text of slots side by side. -/
def productOfSlots (x : Slot) (slots : List Slot) : String :=
  Factor.productText (.slot x) (slots.map .slot)

theorem spells_productOfSlots (x : Slot) (slots : List Slot) :
    Spells (productOfSlots x slots).toList (Token.one x.kind * slotTokens slots) := by
  have hspells := Factor.spells_productText (.slot x) (slots.map .slot)
  rw [List.map_map] at hspells
  exact hspells

theorem Serializer.run_productOfSlots (x : Slot) (slots : List Slot) :
    run ⟨.standard, {}⟩ (.function "Multiply" ((x :: slots).map Slot.expression)) =
      .ok ⟨productOfSlots x slots, []⟩ := by
  have hrun := Factor.run_product (.slot x) (slots.map .slot)
  rw [← List.map_cons, List.map_map] at hrun
  exact hrun

/-- No slot is taken for the argument of the one before it. -/
theorem absorb_slots (x : Slot) (slots : List Slot) :
    x.expression.absorb (slots.map Slot.expression) = (x :: slots).map Slot.expression := by
  have hapart : ((x :: slots).map Slot.expression).Pairwise Expression.KeepsApart :=
    List.pairwise_map.mpr (List.pairwise_of_forall fun y z h => by cases z <;> cases h.2)
  exact Expression.absorb_eq_of_isChain hapart.isChain

theorem isMissing_of_mem_slots (h : ∀ y ∈ slots, y.isVacant = false) :
    ∀ f ∈ slots.map Factor.slot, f.expression.isMissing = false := by
  intro f hf
  obtain ⟨y, hy, rfl⟩ := List.mem_map.mp hf
  rw [← h y hy]
  exact y.isMissing_expression

theorem parse_productOfSlots (hfilled : ∀ y ∈ slots, y.isVacant = false) (hslots : slots ≠ []) :
    parse .standard {} (productOfSlots x slots) =
      .ok ⟨.function "Multiply" ((x :: slots).map Slot.expression), []⟩ := by
  have hparse := Factor.parse_productText (.slot x) (slots.map .slot)
    (isMissing_of_mem_slots hfilled) (.inr (by simpa using hslots))
  have hexpressions : (slots.map Factor.slot).map Factor.expression = slots.map Slot.expression := by
    rw [List.map_map]
    rfl
  rw [hexpressions] at hparse
  refine hparse.trans ?_
  rw [show (Factor.slot x).expression = x.expression from rfl, absorb_slots]
  obtain ⟨y, more, rfl⟩ := List.exists_cons_of_ne_nil hslots
  rfl

section

variable {filled more : List Slot} {env : Env} {s : State} {ts after : List Token} {t : Token}

/-- An open place behind a factor is read, and then left out. -/
theorem runs_expressionAt_of_gap (henv : env.IsStandard) (levels : Nat)
    (hfilled : ∀ y ∈ filled, y.isVacant = false)
    (hts : ts ∈ Token.one x.kind * slotTokens filled) (hs : s.rest = ts ++ t :: after)
    (ht : t.kind = .command "placeholder") (hctx : (located env).holds s)
    (hafter : Apart false after) :
    Runs (expressionAt env (nested env (levels + 3)) .loosest) s
      (.collect "Multiply" ((x :: filled).map Slot.expression)) (s.forward (ts.length + 1)) := by
  have hbegins : BeginsFactor t.kind := ht ▸ .command (by decide)
  have hparenthesis : t.kind ≠ .punct '(' := by simp [ht]
  have hreads := Factor.reads_of_precedes (.nil false) (.slot x) nofun (absurd rfl)
    (Factor.slot x).symbol? (isMissing_of_mem_slots hfilled) henv levels
  rw [one_mul, List.map_map, List.map_map] at hreads
  obtain ⟨o, chained, ho, hleads⟩ := hreads ts hts (t :: after) s .loosest hs hctx (Nat.zero_le _)
    fun u hu => .inr (Option.some.inj hu ▸ ⟨hbegins, fun _ => hparenthesis⟩)
  have hrest : (s.forward ts.length).rest = t :: after := by
    rw [State.rest_forward, hs, List.drop_left]
  have hthere : (located env).holds (s.forward ts.length) := (located env).forward _ hctx
  have hfactor : Runs ((nested env (levels + 3)).expression Precedence.multiplication.tighter)
      (s.forward ts.length) .missing (s.forward (ts.length + 1)) := by
    rw [← State.forward_forward]
    exact (FactorTokens.slot .vacant).runs henv levels ⟨t, rfl, ht⟩ hrest hthere hafter
  have hexpression : o.expression = .collect "Multiply" ((x :: filled).map Slot.expression) := by
    rw [ho, ← absorb_slots]
    rfl
  rw [← hexpression]
  refine hleads _ _ fun fuel hfuel => ?_
  rw [hrest, List.length_cons] at hfuel
  obtain ⟨fuel, rfl⟩ := Nat.exists_eq_add_of_le' (Nat.le_of_add_left_le hfuel)
  refine runs_chain_of_beginsFactor henv hrest hbegins hthere.1 (fun _ => hparenthesis) ?_
  rw [if_neg (by decide), runs_get]
  refine hfactor.bind ?_
  rw [runs_get, show Expression.missing.isMissing = true from rfl, Bool.or_true]
  exact .pure _ _

theorem apart_of_mem_slotTokens (hts : ts ∈ slotTokens slots) : Apart false ts := by
  cases slots with
  | nil =>
    obtain rfl : ts = [] := hts
    exact nofun
  | cons y slots =>
    rw [slotTokens_cons] at hts
    obtain ⟨_, ⟨t, rfl, ht⟩, us, -, rfl⟩ := Language.mem_mul.mp hts
    intro u hu
    rw [← Option.some.inj hu, ht]
    exact .inr ⟨y.beginsFactor, nofun⟩

/-- Behind the first expression the source ends, or a token is stray. -/
theorem parts_eq_of_runs {readers : Inner} {fuel : Nat} {es : List Expression} {e : Expression}
    {s₁ s₂ : State} (h : Runs (parts env readers (fuel + 1)) s es s₂)
    (he : Runs (readers.expression .loosest) s e s₁) :
    es = (if e.isMissing then [] else [e]) ∨ ∃ code literal others,
      es = (if e.isMissing then [] else [e]) ++ .error code literal :: others := by
  obtain ⟨e', s₁', he', hmore⟩ := runs_bind.mp h
  obtain ⟨rfl, rfl⟩ := Runs.det he he'
  rw [runs_get] at hmore
  split at hmore
  · exact .inl (runs_pure.mp hmore).1
  · rw [runs_current] at hmore
    obtain ⟨stray, s₃, hstray, hmore⟩ := runs_bind.mp hmore
    obtain ⟨others, s₄, -, hmore⟩ := runs_bind.mp hmore
    obtain ⟨rfl, -⟩ := runs_pure.mp hmore
    obtain ⟨rfl, -⟩ := Runs.det hstray rfl
    exact .inr ⟨_, _, _, rfl⟩

/-- What is behind a stray token is never read as one product with what is before it. -/
theorem headName?_assemble (before after : List Expression) (code literal : String) :
    (assemble (before ++ .error code literal :: after)).headName? ≠ some "Multiply" := by
  cases before with
  | nil => cases after <;> exact fun h => absurd (Option.some.inj h) (by decide)
  | cons e before => cases before <;> exact fun h => absurd (Option.some.inj h) (by decide)

theorem assemble_slots_ne (x : Slot) (filled more : List Slot) :
    let e := Expression.collect "Multiply" ((x :: filled).map Slot.expression)
    assemble (if e.isMissing then [] else [e]) ≠
      .function "Multiply" ((x :: (filled ++ .vacant :: more)).map Slot.expression) := by
  intro e heq
  cases filled with
  | nil => cases x <;> cases heq
  | cons y filled =>
    have harguments := congrArg (fun e => e.arguments.length) heq
    simp [e, assemble, Expression.collect, Expression.function, Expression.isMissing,
      Expression.arguments] at harguments

theorem parse_productOfSlots_ne (hfilled : ∀ y ∈ filled, y.isVacant = false) :
    parse .standard {} (productOfSlots x (filled ++ .vacant :: more)) ≠
      .ok ⟨.function "Multiply" ((x :: (filled ++ .vacant :: more)).map Slot.expression), []⟩ := by
  let env : Env := ⟨productOfSlots x (filled ++ .vacant :: more), .standard, {}⟩
  have hspells := spells_productOfSlots x (filled ++ .vacant :: more)
  rw [slotTokens_append, slotTokens_cons, ← mul_assoc] at hspells
  obtain ⟨ts, hts, _, hmore, hlaid⟩ := Language.mem_mul.mp hspells.laid_mem
  obtain ⟨_, ⟨t, rfl, ht⟩, us, hus, rfl⟩ := Language.mem_mul.mp hmore
  have hrest : (State.ofSource env.source).rest = ts ++ t :: us := hlaid.symm
  have hfirst : Runs ((nested env 64).expression .loosest) (.ofSource env.source) _ _ :=
    runs_expressionAt_of_gap ⟨rfl, rfl⟩ 60 hfilled hts hrest ht (located_ofSource env)
      (apart_of_mem_slotTokens hus)
  intro hparse
  obtain ⟨s₁, hruns, -⟩ := runs_rootNested_of_parse hparse
  obtain ⟨es, s₂, hparts, hassemble⟩ := runs_bind.mp (runs_get.mp hruns)
  have hsame := (runs_pure.mp hassemble).1.symm
  rcases parts_eq_of_runs hparts hfirst with rfl | ⟨code, literal, others, rfl⟩
  · exact assemble_slots_ne x filled more hsame
  · exact headName?_assemble _ _ _ _ (congrArg Expression.headName? hsame)

end

theorem parse_productOfSlots_iff (hslots : slots ≠ []) :
    parse .standard {} (productOfSlots x slots) =
        .ok ⟨.function "Multiply" ((x :: slots).map Slot.expression), []⟩ ↔
      ∀ y ∈ slots, y.isVacant = false := by
  refine ⟨fun hparse => ?_, fun hfilled => parse_productOfSlots hfilled hslots⟩
  cases hfind : slots.find? Slot.isVacant with
  | none => exact fun y hy => by simpa using List.find?_eq_none.mp hfind y hy
  | some gap =>
    obtain ⟨hgap, filled, more, rfl, hfilled⟩ := List.find?_eq_some_iff_append.mp hfind
    cases gap with
    | letter c h => cases hgap
    | vacant => exact absurd hparse (parse_productOfSlots_ne fun y hy => by simpa using hfilled y hy)

/-! ### Every notation -/

/-- The applications of notations to a number of operands that are written as such. -/
inductive HasPlaces : String → Nat → Prop
  | many {name : String} {count : Nat} (hname : name ∈ ["Add", "Multiply", "Sequence"])
      (h : 2 ≤ count) : HasPlaces name count
  | two {name : String} {count : Nat} (hname : name ∈ ["Subtract", "Equal", "Divide", "Power"])
      (h : count = 2) : HasPlaces name count
  | application {count : Nat} (h : 1 ≤ count) : HasPlaces "f" count

/-- The open places are those of a fraction or a power, or the first operand and not all of them. -/
def KeepsPlaces (name : String) (slots : List Slot) : Prop :=
  name ∈ ["Divide", "Power"] ∨
    (∀ x ∈ slots.tail, x.isVacant = false) ∧ (name = "f" → slots ≠ [.vacant])

theorem parse_run_slots_iff (h : HasPlaces name slots.length) : ∃ latex,
    Serializer.run ⟨.standard, {}⟩ (.function name (slots.map Slot.expression)) = .ok ⟨latex, []⟩ ∧
      (parse .standard {} latex = .ok ⟨.function name (slots.map Slot.expression), []⟩ ↔
        KeepsPlaces name slots) := by
  cases h with
  | many hname h =>
    obtain ⟨x, y, more, rfl⟩ : ∃ x y more, slots = x :: y :: more := by
      match slots, h with
      | x :: y :: more, _ => exact ⟨x, y, more, rfl⟩
    simp only [List.mem_cons, List.not_mem_nil, or_false] at hname
    rcases hname with rfl | rfl | rfl
    · refine ⟨_, Serializer.run_sum x (y :: more), ?_⟩
      refine (parse_joined_iff operates_add separates_plus (.inl rfl) (List.cons_ne_nil _ _)).trans ?_
      simp [KeepsPlaces]
    · refine ⟨_, Serializer.run_productOfSlots x (y :: more), ?_⟩
      refine (parse_productOfSlots_iff (List.cons_ne_nil _ _)).trans ?_
      simp [KeepsPlaces]
    · refine ⟨_, Serializer.run_chain lookup_sequence rfl rfl rfl separates_comma x, ?_⟩
      refine (parse_joined_iff operates_sequence separates_comma (.inl rfl)
        (List.cons_ne_nil _ _)).trans ?_
      simp [KeepsPlaces]
  | two hname h =>
    obtain ⟨x, y, rfl⟩ := List.length_eq_two.mp h
    simp only [List.mem_cons, List.not_mem_nil, or_false] at hname
    rcases hname with rfl | rfl | rfl | rfl
    · refine ⟨_, Serializer.run_chain lookup_subtract rfl rfl rfl separates_minus x, ?_⟩
      refine (parse_joined_iff operates_subtract separates_minus (.inr (Nat.le_refl _))
        (List.cons_ne_nil _ _)).trans ?_
      simp [KeepsPlaces]
    · refine ⟨_, Serializer.run_chain lookup_equal rfl rfl rfl separates_equals x, ?_⟩
      refine (parse_joined_iff operates_equal separates_equals (.inr (Nat.le_refl _))
        (List.cons_ne_nil _ _)).trans ?_
      simp [KeepsPlaces]
    · exact ⟨_, Serializer.run_fraction x y, iff_of_true (parse_fraction x y) (.inl (by simp))⟩
    · exact ⟨_, Serializer.run_power x y, iff_of_true (parse_power x y) (.inl (by simp))⟩
  | application h =>
    have hf : Text.isLetter 'f' = true := by decide
    refine ⟨_, Serializer.run_application hf slots, (parse_application_iff hf (by decide)).trans ?_⟩
    simp [KeepsPlaces]

theorem parse_run_slots_firstOperand :
    let slots : List Slot := [.vacant, .letter 'a' rfl]
    HasPlaces "Add" slots.length ∧ ∃ latex,
      Serializer.run ⟨.standard, {}⟩ (.function "Add" [.missing, .symbol "a"]) = .ok ⟨latex, []⟩ ∧
        parse .standard {} latex = .ok ⟨.function "Add" [.missing, .symbol "a"], []⟩ := by
  intro slots
  have hplaces : HasPlaces "Add" slots.length := .many (by simp) (Nat.le_refl _)
  obtain ⟨latex, hrun, hiff⟩ := parse_run_slots_iff hplaces
  exact ⟨hplaces, latex, hrun, hiff.mpr (.inr ⟨by simp [slots, Slot.isVacant], by simp⟩)⟩

/-- An open place behind a factor is lost. -/
theorem not_parse_run_slots_product : ∃ latex,
    Serializer.run ⟨.standard, {}⟩ (.function "Multiply" [.symbol "a", .missing]) =
        .ok ⟨latex, []⟩ ∧
      parse .standard {} latex ≠ .ok ⟨.function "Multiply" [.symbol "a", .missing], []⟩ := by
  have hlost := @parse_productOfSlots_ne (.letter 'a' rfl) [] [] nofun
  exact ⟨_, Serializer.run_productOfSlots (.letter 'a' rfl) [.vacant], hlost⟩

end TexFormula
