import TexFormula.Proofs.Identifiers

/-!
# Products read back

`parse_run_product`: a product of symbols, sums and applications is read back factor by factor,
without diagnostics, just if no sum stands right behind what can be applied. Factors are written side
by side with nothing in between, and the parentheses of a sum there are read as those of arguments.
-/

open TexFormula.Parser

namespace TexFormula

open Expression (KeepsApart)

variable {name : String} {x : Slot} {slots : List Slot}

/-! ### Names of several letters -/

theorem Parser.FactorTokens.identifier (h : IsIdentifier name) : FactorTokens (.symbol name)
    (Token.one (.command "operatorname") * Token.bracedLetters name.toList) where
  begins := by
    intro us hus
    obtain ⟨_, ⟨t, rfl, ht⟩, us, -, rfl⟩ := Language.mem_mul.mp hus
    refine ⟨t, us, rfl, ht ▸ .command (by decide), fun hkind => ?_⟩
    rw [ht] at hkind
    cases hkind
  reads env henv levels := by
    intro us hus after s loosest hs hctx _ _
    obtain ⟨_, ⟨t, rfl, ht⟩, ts, hts, rfl⟩ := Language.mem_mul.mp hus
    rw [List.append_assoc] at hs
    refine ⟨_, none, ⟨rfl, rfl⟩, leadsTo_of_operand ?_⟩
    exact runs_operand_of_identifier henv h hs ht hts hctx

theorem Scribe.wrap_symbol (name : String) (loosest : Precedence) :
    (Scribe.standard 63).wrap (.symbol name) loosest =
      .ok ((Serializer.mk .standard {}).symbol name) := by
  have hnot : ¬Precedence.atomic < loosest := Nat.not_lt_of_le loosest.rank_le
  show Except.ok (if Precedence.atomic < loosest then _ else _) = _
  rw [if_neg hnot]

theorem Factor.text_of_symbol (f : Factor) (h : f.expression = .symbol name) :
    f.text = (Serializer.mk .standard {}).symbol name := by
  have hwrites := f.writes
  rw [h, Scribe.wrap_symbol] at hwrites
  exact (Except.ok.inj hwrites).symm

/-- A name of several letters as a factor. -/
def Factor.identifier (h : IsIdentifier name) : Factor where
  expression := .symbol name
  text := "\\operatorname" ++ Text.braced name
  tokens := Token.one (.command "operatorname") * Token.bracedLetters name.toList
  writes := by rw [Scribe.wrap_symbol, h.symbol_eq _ rfl]
  spells := by
    have hcommand : Spells "\\operatorname".toList (Token.one (.command "operatorname")) :=
      @Spells.command "operatorname".toList (by decide) (List.all_eq_true.mp (by decide))
    have hbrace : (Text.braced name).toList = '{' :: (name.toList ++ ['}']) := by
      simp [Text.braced, String.toList_append]
    rw [String.toList_append]
    refine hcommand.append (.bracedLetters h.letters) ?_ ?_ <;> rw [hbrace]
    · exact .of_not rfl rfl _ _
    · exact List.cons_ne_nil _ _
  opens := ⟨'\\', by rw [String.toList_append]; rfl, rfl⟩
  number? := rfl
  reciprocal? := rfl
  reads := .identifier h
  symbol? heq := by
    have hadd := h.unknown
    rw [Option.some.inj heq, lookup_add] at hadd
    cases hadd
  sum hsum := by cases hsum

/-! ### Sums and applications -/

theorem Scribe.wrap_function {es : List Expression} {text : String}
    (h : (Serializer.mk .standard {}).named (.standard 62) name es = .ok text)
    (loosest : Precedence) :
    (Scribe.standard 63).wrap (.function name es) loosest =
      .ok (wrapText (.function name es) loosest text) := by
  have hserialize : (Scribe.standard 63).serialize (.function name es) = .ok text := h
  rw [Scribe.wrap, hserialize]
  rfl

/-- A sum in parentheses as a factor. -/
def Factor.parenthesized (x : Slot) (slots : List Slot) (hslots : slots ≠ [])
    (hfilled : ∀ y ∈ slots, y.isVacant = false) : Factor :=
  have hbody : BodyTokens (.function "Add" (x.expression :: slots.map Slot.expression))
      (Token.one x.kind * operations (.punct '+') slots) := by
    obtain ⟨y, more, rfl⟩ := List.exists_cons_of_ne_nil hslots
    exact bodyTokens_of_slots operates_add (.inl rfl) hfilled
  { expression := .function "Add" (x.expression :: slots.map Slot.expression)
    text := Text.parenthesized (joined "+" x slots)
    tokens := Token.one (.punct '(') *
      (Token.one x.kind * operations (.punct '+') slots * Token.one (.punct ')'))
    writes := by
      have hnamed : (Serializer.mk .standard {}).named (.standard 62) "Add"
          ((x :: slots).map Slot.expression) = .ok (joined "+" x slots) := by
        rw [Serializer.named, lookup_add]
        exact sum_slots 61 x slots
      refine (Scribe.wrap_function hnamed .multiplication).trans ?_
      rw [wrapText, standardPrecedence_function lookup_add]
      rfl
    spells := (separates_plus.spells_joined x slots).parenthesized
    opens := ⟨'(', by simp [Text.parenthesized], rfl⟩
    number? := rfl
    reciprocal? := rfl
    reads := .parenthesized hbody rfl
    symbol? := nofun
    sum _ := ⟨_, hbody, rfl⟩ }

section

variable (hlookup : Dictionary.standard.lookup name = none)

include hlookup

theorem ne_of_lookup_eq_none {known : String} {n : Notation}
    (h : Dictionary.standard.lookup known = some n) : name ≠ known := by
  rintro rfl
  rw [hlookup] at h
  cases h

theorem wrapText_of_lookup_eq_none (es : List Expression) (loosest : Precedence) (text : String) :
    wrapText (.function name es) loosest text = text := by
  have hatomic : standardPrecedence (.function name es) = .atomic := by
    have hnone : (Expression.function name es).headName?.bind
        (Serializer.mk Dictionary.standard {}).dictionary.lookup = none := hlookup
    unfold standardPrecedence Serializer.precedenceOf
    exact hnone ▸ rfl
  exact wrapText_of_atomic hatomic loosest text

theorem reciprocal?_of_lookup_eq_none (es : List Expression) :
    Product.reciprocal? (.function name es) = none := by
  unfold Product.reciprocal?
  split
  · next heq =>
    cases heq
    exact absurd rfl (ne_of_lookup_eq_none hlookup lookup_power)
  · rfl

end

/-- A name without a notation of its own that is applied to arguments as a factor. -/
def Factor.application (f : Factor) (hname : f.expression = .symbol name)
    (hlookup : Dictionary.standard.lookup name = none) (hslash : Text.startsWith name '\\' = false)
    (hcall : f.expression.isApplicable = true) (slots : List Slot)
    (hfilled : ∀ x ∈ slots, x.isVacant = false) : Factor where
  expression := .function name (slots.map Slot.expression)
  text := f.text ++ Text.parenthesized (argumentText slots)
  tokens := f.tokens * (Token.one (.punct '(') * (argumentTokens slots * Token.one (.punct ')')))
  writes := by
    have hnamed : (Serializer.mk .standard {}).named (.standard 62) name
        (slots.map Slot.expression) = .ok (f.text ++ Text.parenthesized (argumentText slots)) := by
      rw [Serializer.named, hlookup, f.text_of_symbol hname]
      exact application_slots hslash 61 slots
    rw [Scribe.wrap_function hnamed, wrapText_of_lookup_eq_none hlookup]
  spells := f.spells.appendParenthesized (spells_argumentText slots)
  opens := by
    obtain ⟨c, hc, hdigit⟩ := f.opens
    refine ⟨c, ?_, hdigit⟩
    rw [String.toList_append, List.head?_append, Option.mem_def.mp hc]
    rfl
  number? := rfl
  reciprocal? := reciprocal?_of_lookup_eq_none hlookup _
  reads := by
    have hnotVacant : slots ≠ [.vacant] := by
      rintro rfl
      cases hfilled .vacant (by simp)
    have hreads := f.reads.apply hcall f.symbol? (bodyTokens_arguments hfilled)
    rwa [hname, sequenceItems_argumentBody hnotVacant] at hreads
  symbol? := nofun
  sum hsum := by
    have hadd : name = "Add" := Option.some.inj (beq_iff_eq.mp hsum)
    exact absurd hadd (ne_of_lookup_eq_none hlookup lookup_add)

/-! ### Products -/

/-- The factors: symbols without a notation of their own, sums of two letters, and applications of
such symbols to letters. -/
inductive IsFactor : Expression → Prop
  | letter {c : Char} (h : Text.isLetter c = true) : IsFactor (.symbol (.singleton c))
  | identifier {name : String} (h : IsIdentifier name) : IsFactor (.symbol name)
  | sum {a b : Char} (ha : Text.isLetter a = true) (hb : Text.isLetter b = true) :
      IsFactor (.function "Add" [.symbol (.singleton a), .symbol (.singleton b)])
  | application {name : String} (h : name ∈ ["f", "g", "h"] ∨ IsIdentifier name) {cs : List Char}
      (hcs : ∀ c ∈ cs, Text.isLetter c = true) :
      IsFactor (.function name (cs.map fun c => .symbol (.singleton c)))

theorem exists_slots_of_letters {cs : List Char} (h : ∀ c ∈ cs, Text.isLetter c = true) :
    ∃ slots : List Slot, slots.map Slot.expression = cs.map (fun c => .symbol (.singleton c)) ∧
      ∀ x ∈ slots, x.isVacant = false := by
  refine ⟨cs.attach.map fun c => .letter c.1 (h c.1 c.2), ?_, ?_⟩
  · simp [Slot.expression, Function.comp_def]
  · intro x hx
    obtain ⟨c, -, rfl⟩ := List.mem_map.mp hx
    rfl

/-- A symbol that is applied. -/
theorem exists_head (h : name ∈ ["f", "g", "h"] ∨ IsIdentifier name) :
    Dictionary.standard.lookup name = none ∧ Text.startsWith name '\\' = false ∧
      ∃ f : Factor, f.expression = .symbol name ∧ f.expression.isApplicable = true := by
  rcases h with h | h
  · have hletter : ∃ c, Text.isLetter c = true ∧ c ∈ ['f', 'g', 'h'] ∧ name = .singleton c := by
      simp only [List.mem_cons, List.not_mem_nil, or_false] at h
      rcases h with rfl | rfl | rfl
      exacts [⟨'f', by decide⟩, ⟨'g', by decide⟩, ⟨'h', by decide⟩]
    obtain ⟨c, hc, hfgh, rfl⟩ := hletter
    have hslash : Text.startsWith (.singleton c) '\\' = false :=
      Text.startsWith_backslash_of_isLetter (by simp [hc])
    exact ⟨lookup_standard_singleton c, hslash, .slot (.letter c hc), rfl,
      beq_iff_eq.mpr ((disposition_singleton_eq_function hc).mpr hfgh)⟩
  · exact ⟨h.unknown, h.startsWith_backslash, .identifier h, rfl, beq_iff_eq.mpr h.disposition⟩

theorem IsFactor.exists_factor {e : Expression} (h : IsFactor e) :
    ∃ f : Factor, f.expression = e := by
  cases h with
  | letter h => exact ⟨.slot (.letter _ h), rfl⟩
  | identifier h => exact ⟨.identifier h, rfl⟩
  | sum ha hb =>
    exact ⟨.parenthesized (.letter _ ha) [.letter _ hb] (List.cons_ne_nil _ _)
      (List.forall_mem_singleton.mpr rfl), rfl⟩
  | application h hcs =>
    obtain ⟨hlookup, hslash, f, hname, hcall⟩ := exists_head h
    obtain ⟨slots, hslots, hfilled⟩ := exists_slots_of_letters hcs
    exact ⟨f.application hname hlookup hslash hcall slots hfilled, by rw [← hslots]; rfl⟩

theorem IsFactor.isMissing {e : Expression} (h : IsFactor e) : e.isMissing = false := by
  cases h <;> rfl

theorem exists_map_expression_eq {es : List Expression} (h : ∀ e ∈ es, IsFactor e) :
    ∃ fs : List Factor, fs.map Factor.expression = es := by
  have hall : ∀ e ∈ es, e ∈ Set.range Factor.expression := fun e he => (h e he).exists_factor
  exact Set.mem_range.mp (by rw [Set.range_list_map]; exact hall)

/-- Factors are read back as the product that they were, or with a sum as an argument where it stands
behind what can be applied. Nothing is reported in either case. -/
theorem parse_run_product {e : Expression} {es : List Expression} (h : ∀ f ∈ e :: es, IsFactor f)
    (hmany : es ≠ []) :
    ∃ latex, Serializer.run ⟨.standard, {}⟩ (.function "Multiply" (e :: es)) = .ok ⟨latex, []⟩ ∧
      parse .standard {} latex = .ok ⟨.collect "Multiply" (e.absorb es), []⟩ ∧
      (parse .standard {} latex = .ok ⟨.function "Multiply" (e :: es), []⟩ ↔
        (e :: es).IsChain KeepsApart) := by
  obtain ⟨hfirst, hmore⟩ := List.forall_mem_cons.mp h
  obtain ⟨f, rfl⟩ := hfirst.exists_factor
  obtain ⟨fs, rfl⟩ := exists_map_expression_eq hmore
  have hparse := Factor.parse_productText f fs
    (fun g hg => (hmore _ (List.mem_map_of_mem hg)).isMissing) (.inl hfirst.isMissing)
  refine ⟨_, Factor.run_product f fs, hparse, ?_⟩
  rw [hparse, ← Expression.collect_absorb_eq_iff "Multiply" hmany]
  simp

theorem isIdentifier_speed : IsIdentifier "speed" :=
  ⟨List.all_eq_true.mp (by decide), by decide, by rfl⟩

theorem parse_run_product_speed :
    let e := Expression.symbol "x"
    let es := [.function "Add" [.symbol "a", .symbol "b"], .function "f" [.symbol "y"],
      .symbol "speed"]
    (∀ f ∈ e :: es, IsFactor f) ∧ es ≠ [] ∧
      ∃ latex, Serializer.run ⟨.standard, {}⟩ (.function "Multiply" (e :: es)) = .ok ⟨latex, []⟩ ∧
        parse .standard {} latex = .ok ⟨.function "Multiply" (e :: es), []⟩ := by
  intro e es
  have hfactors : ∀ f ∈ e :: es, IsFactor f := by
    simp only [e, es, List.forall_mem_cons]
    exact ⟨.letter (c := 'x') rfl, .sum (a := 'a') (b := 'b') rfl rfl,
      @IsFactor.application "f" (by simp) ['y'] (List.forall_mem_singleton.mpr rfl),
      .identifier isIdentifier_speed, nofun⟩
  have hmany : es ≠ [] := List.cons_ne_nil _ _
  obtain ⟨latex, hrun, -, hiff⟩ := parse_run_product hfactors hmany
  exact ⟨hfactors, hmany, latex, hrun, hiff.mpr (by decide)⟩

/-- A sum behind a name that can be applied becomes its argument. -/
theorem not_parse_run_product_function : ∃ latex,
    Serializer.run ⟨.standard, {}⟩
      (.function "Multiply" [.symbol "f", .function "Add" [.symbol "a", .symbol "b"]]) =
        .ok ⟨latex, []⟩ ∧
      parse .standard {} latex ≠ .ok
        ⟨.function "Multiply" [.symbol "f", .function "Add" [.symbol "a", .symbol "b"]], []⟩ := by
  let f := Factor.slot (.letter 'f' rfl)
  let sum := Factor.parenthesized (.letter 'a' rfl) [.letter 'b' rfl] (by simp)
    (List.forall_mem_singleton.mpr rfl)
  refine ⟨_, Factor.run_product f [sum], fun hparse => ?_⟩
  rw [Factor.parse_productText f [sum] (List.forall_mem_singleton.mpr rfl) (.inl rfl)] at hparse
  have hsame : Expression.collect "Multiply" (f.expression.absorb [sum.expression]) =
      .function "Multiply" [f.expression, sum.expression] :=
    congrArg Parsed.expression (Except.ok.inj hparse)
  have hchain := (Expression.collect_absorb_eq_iff "Multiply" (List.cons_ne_nil _ _)).mp hsame
  exact List.isChain_pair.mp hchain ⟨rfl, rfl⟩

end TexFormula
