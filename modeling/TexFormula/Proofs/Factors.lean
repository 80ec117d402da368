import TexFormula.Proofs.Arithmetic.Writing

/-!
# Products of factors side by side

A `Factor` is an expression with the text that it has in a product and the tokens that the text is cut
into. `parse_productText`: a product is read back factor by factor, but for a sum behind what can be
applied, which is read as its argument (`Expression.absorb`).
-/

open TexFormula.Parser

namespace TexFormula

/-! ### Sums behind what can be applied -/

namespace Expression

/-- What factors side by side are read as: a sum behind what can be applied is its argument. -/
def absorb : Expression → List Expression → List Expression
  | e, [] => [e]
  | e, next :: rest =>
    if e.isApplicable && next.isSum then absorb (.apply e [next]) rest else e :: absorb next rest

/-- The two can stand side by side. -/
def KeepsApart (e next : Expression) : Prop :=
  ¬(e.isApplicable = true ∧ next.isSum = true)

instance (e next : Expression) : Decidable (KeepsApart e next) :=
  inferInstanceAs (Decidable (¬_))

variable {e next : Expression} {es : List Expression}

theorem absorb_ne_nil (e : Expression) (es : List Expression) : e.absorb es ≠ [] := by
  induction es generalizing e with
  | nil => simp [absorb]
  | cons next rest ih =>
    unfold absorb
    split
    · exact ih _
    · simp

theorem absorb_eq_of_isChain (h : (e :: es).IsChain KeepsApart) : e.absorb es = e :: es := by
  induction es generalizing e with
  | nil => rfl
  | cons next rest ih =>
    obtain ⟨hhere, hrest⟩ := List.isChain_cons_cons.mp h
    rw [absorb, if_neg (by simpa [KeepsApart] using hhere), ih hrest]

theorem length_absorb_le (e : Expression) (es : List Expression) :
    (e.absorb es).length ≤ es.length + 1 := by
  induction es generalizing e with
  | nil => simp [absorb]
  | cons next rest ih =>
    unfold absorb
    split
    · exact Nat.le_succ_of_le (ih _)
    · simpa using ih next

theorem length_absorb_lt (h : ¬(e :: es).IsChain KeepsApart) :
    (e.absorb es).length < es.length + 1 := by
  induction es generalizing e with
  | nil => exact absurd (.singleton e) h
  | cons next rest ih =>
    unfold absorb
    split
    · exact Nat.lt_succ_of_le (length_absorb_le _ rest)
    · next hhere =>
      have hrest : ¬(next :: rest).IsChain KeepsApart := fun hrest =>
        h (List.isChain_cons_cons.mpr ⟨by simpa [KeepsApart] using hhere, hrest⟩)
      simpa using ih hrest

/-- Several factors that are read as a single one are read as an application to one argument. -/
theorem length_arguments_of_absorb (h : e.absorb es = [next]) (hne : es ≠ []) :
    next.arguments.length = 1 := by
  induction es generalizing e with
  | nil => exact absurd rfl hne
  | cons sum rest ih =>
    unfold absorb at h
    split at h
    · cases rest with
      | nil =>
        rw [absorb, List.cons.injEq] at h
        rw [← h.1]
        rfl
      | cons sum' rest => exact ih h (by simp)
    · exact absurd (List.cons.inj h).2 (absorb_ne_nil sum rest)

theorem collect_absorb_eq_iff (name : String) (hne : es ≠ []) :
    collect name (e.absorb es) = .function name (e :: es) ↔ (e :: es).IsChain KeepsApart := by
  constructor
  · intro h
    by_contra hchain
    have hlength : (collect name (e.absorb es)).arguments.length = es.length + 1 := by
      rw [h]
      rfl
    have hlong := List.length_pos_iff.mpr hne
    have hlt := length_absorb_lt hchain
    unfold collect at hlength
    split at hlength
    · next next heq =>
      rw [length_arguments_of_absorb heq hne] at hlength
      omega
    · exact absurd (show (e.absorb es).length = _ from hlength) (Nat.ne_of_lt hlt)
  · intro h
    rw [absorb_eq_of_isChain h]
    obtain ⟨next, rest, rfl⟩ := List.exists_cons_of_ne_nil hne
    rfl

/-- Factors side by side are read as something. -/
theorem isMissing_collect_absorb (name : String) (h : e.isMissing = false ∨ es ≠ []) :
    (collect name (e.absorb es)).isMissing = false := by
  induction es generalizing e with
  | nil => simpa [absorb, collect] using h
  | cons next rest ih =>
    unfold absorb
    split
    · exact ih (.inl rfl)
    · obtain ⟨first, others, heq⟩ := List.exists_cons_of_ne_nil (absorb_ne_nil next rest)
      rw [heq]
      rfl

end Expression

/-! ### Writing a product -/

/-- What hooks are handed with the standard notations and options, so many levels from the last. -/
def Scribe.standard (levels : Nat) : Scribe :=
  (Serializer.mk .standard {}).scribe ((Serializer.mk .standard {}).within levels)

theorem Serializer.run_function {name latex : String} {es : List Expression}
    (h : (Serializer.mk .standard {}).named (.standard 63) name es = .ok latex) :
    run ⟨.standard, {}⟩ (.function name es) = .ok ⟨latex, []⟩ := by
  have hserialize : (Serializer.mk .standard {}).serialize (.function name es) = .ok latex := h
  rw [run, hserialize]

/-- An expression with what it is in a product of others. -/
structure Factor where
  expression : Expression
  text : String
  tokens : Language Token
  writes : (Scribe.standard 63).wrap expression .multiplication = .ok text
  spells : Spells text.toList tokens
  opens : ∃ c ∈ text.toList.head?, c.isDigit = false
  number? : expression.number? = none
  reciprocal? : Product.reciprocal? expression = none
  reads : FactorTokens expression tokens
  /-- The name of a sum is not the one of what is applied. -/
  symbol? : expression.symbol? ≠ some "Add"
  sum : expression.isSum = true → ∃ P, BodyTokens expression P ∧
    tokens = Token.one (.punct '(') * (P * Token.one (.punct ')'))

namespace Factor

variable {fs : List Factor}

theorem toList_ne_nil (f : Factor) : f.text.toList ≠ [] := by
  obtain ⟨c, hc, -⟩ := f.opens
  exact ne_nil_of_head? hc

theorem startsWithDigit_eq_false (f : Factor) : Text.startsWithDigit f.text = false := by
  obtain ⟨c, hc, hdigit⟩ := f.opens
  rw [Text.startsWithDigit, hc]
  exact hdigit

theorem sequenceItems_of_isSum (f : Factor) (h : f.expression.isSum = true) :
    f.expression.sequenceItems = [f.expression] := by
  unfold Expression.sequenceItems
  split
  · next heq => rw [heq] at h; cases h
  · next heq => rw [heq] at h; cases h
  · rfl

/-- The text of a product. -/
def productText (f : Factor) (fs : List Factor) : String :=
  (fs.map Factor.text).foldl Text.join f.text

theorem ofFactors_eq (fs : List Factor) :
    Product.ofFactors (fs.map Factor.expression) = ⟨false, fs.map Factor.expression, []⟩ := by
  refine Product.ofFactors_eq_self (fun e he => ?_) fun e he => ?_
  · obtain ⟨f, -, rfl⟩ := List.mem_map.mp he
    rw [Product.negativeNumber?, f.number?]
    rfl
  · obtain ⟨f, -, rfl⟩ := List.mem_map.mp he
    exact f.reciprocal?

theorem moreFactors_eq (previous : Expression) (hprevious : previous.isNumber = false)
    (written : String) :
    Writers.moreFactors (.standard 63) previous written (fs.map Factor.expression) =
      .ok ((fs.map Factor.text).foldl Text.join written) := by
  induction fs generalizing previous written with
  | nil => rfl
  | cons f fs ih =>
    have hnumber : f.expression.isNumber = false := by rw [Expression.isNumber, f.number?]; rfl
    have hglyph : Writers.needsGlyph previous f.expression f.text = false := by
      rw [Writers.needsGlyph, hnumber, f.startsWithDigit_eq_false, hprevious]
      rfl
    rw [List.map_cons, Writers.moreFactors, f.writes]
    show Writers.moreFactors (.standard 63) _ (Text.join (Text.join written _) f.text) _ = _
    rw [hglyph, if_neg Bool.false_ne_true]
    rw [show (Scribe.standard 63).options.invisibleMultiply = "" from rfl, Text.join_nothing]
    exact ih f.expression hnumber _

theorem run_product (f : Factor) (fs : List Factor) :
    Serializer.run ⟨.standard, {}⟩ (.function "Multiply" ((f :: fs).map Factor.expression)) =
      .ok ⟨productText f fs, []⟩ := by
  have hnumber : f.expression.isNumber = false := by rw [Expression.isNumber, f.number?]; rfl
  refine Serializer.run_function ?_
  rw [Serializer.named, lookup_multiply]
  show Writers.product (.standard 63) ((f :: fs).map Factor.expression) = _
  have hfactors : Writers.factors (.standard 63) ((f :: fs).map Factor.expression) =
      .ok (productText f fs) := by
    rw [List.map_cons, Writers.factors, f.writes]
    exact moreFactors_eq f.expression hnumber f.text
  rw [Writers.product, if_neg (by simp), ofFactors_eq (f :: fs)]
  dsimp only
  rw [hfactors]
  exact congrArg Except.ok String.empty_append

theorem spells_productText (f : Factor) (fs : List Factor) :
    Spells (productText f fs).toList (f.tokens * (fs.map Factor.tokens).prod) := by
  have hgrow : ∀ (text : String) (P : Language Token), Spells text.toList P →
      Spells ((fs.map Factor.text).foldl Text.join text).toList
        (P * (fs.map Factor.tokens).prod) := by
    induction fs with
    | nil => intro text P h; simpa using h
    | cons g gs ih =>
      intro text P h
      obtain ⟨c, hc, hdigit⟩ := g.opens
      have hjoined := h.join g.spells g.toList_ne_nil fun hstarts => by
        rw [hc, Option.any_some, hdigit] at hstarts
        cases hstarts
      simpa [mul_assoc] using ih _ _ hjoined
  exact hgrow _ _ f.spells

/-! ### Reading it back -/

/-- By induction on the factors that are still to be read: each one is another factor, or else the
argument of the one before it. -/
theorem reads_of_precedes {done : List Expression} {applicable : Bool} {P Q : Language Token}
    {e : Expression} (h : Precedes done applicable P) (he : FactorTokens e Q)
    (happly : applicable = true → e.isSum = false) (hpresent : done ≠ [] → e.isMissing = false)
    (hname : e.symbol? ≠ some "Add") (hfs : ∀ f ∈ fs, f.expression.isMissing = false) {env : Env}
    (henv : env.IsStandard) (levels : Nat) :
    Reads env (nested env (levels + 3)) (located env) .multiplication (Apart true)
      (fun o _ => o.expression =
        .collect "Multiply" (done ++ e.absorb (fs.map Factor.expression)))
      (P * Q * (fs.map Factor.tokens).prod) := by
  induction fs generalizing done applicable P Q e with
  | nil =>
    rw [List.map_nil, List.map_nil, List.prod_nil, mul_one]
    refine (h e Q he happly hpresent env henv levels).mono (Nat.le_refl _)
      (fun _ hafter => hafter.of_true _) ?_
    exact fun o _ ho => ho.1.expression
  | cons f fs ih =>
    obtain ⟨hf, hmore⟩ := List.forall_mem_cons.mp hfs
    rw [List.map_cons, List.map_cons, List.prod_cons]
    unfold Expression.absorb
    split
    · next hsum =>
      obtain ⟨hcall, hsum⟩ := Bool.and_eq_true_iff.mp hsum
      obtain ⟨R, hbody, htokens⟩ := f.sum hsum
      have happlied := he.apply hcall hname hbody
      rw [← htokens, f.sequenceItems_of_isSum hsum] at happlied
      rw [mul_assoc, ← mul_assoc Q, ← mul_assoc P]
      refine ih h happlied (fun _ => ?_) (fun _ => rfl) nofun hmore
      simpa [Expression.isSum, Expression.headName?] using hname
    · next hnot =>
      have hapart : e.isApplicable = true → f.expression.isSum = false := by
        simpa using hnot
      rw [List.append_cons, ← mul_assoc (P * Q)]
      exact ih (h.append he happly hpresent) f.reads hapart (fun _ => hf) f.symbol? hmore

theorem parse_productText (f : Factor) (fs : List Factor)
    (hfs : ∀ g ∈ fs, g.expression.isMissing = false)
    (hpresent : f.expression.isMissing = false ∨ fs ≠ []) :
    parse .standard {} (productText f fs) = .ok
      ⟨.collect "Multiply" (f.expression.absorb (fs.map Factor.expression)), []⟩ := by
  have henv : Env.IsStandard ⟨productText f fs, .standard, {}⟩ := ⟨rfl, rfl⟩
  have hreads := reads_of_precedes (.nil false) f.reads nofun (absurd rfl) f.symbol? hfs henv 60
  rw [one_mul] at hreads
  obtain ⟨o, chained, ho, hparse⟩ := hreads.exists_parse_eq (spells_productText f fs)
    (located_ofSource _) nofun rfl fun o _ ho => by
      rw [ho]
      exact Expression.isMissing_collect_absorb _ (hpresent.imp id fun hne => by simpa using hne)
  rw [hparse, ho]
  rfl

end Factor

end TexFormula
