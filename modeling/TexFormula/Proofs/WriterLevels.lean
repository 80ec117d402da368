import TexFormula.Proofs.SignedFactors
import TexFormula.Proofs.WritingCongruence
import TexFormula.Proofs.WrittenLevels

/-!
# Levels that the standard notations take

Each writing hook of the standard notations is stopped by the limit just if a part that it visits has
too many levels (`Expression.levelsBelowName`). From this, by induction on the levels allowed,
`Serializer.gated_within`: a tree without dictionaries is written if its levels are allowed, and the
limit stops it otherwise.
-/

namespace TexFormula

open Expression

/-! ### Factors and their levels -/

namespace Product

variable {e f r base : Expression} {n : Number} {fs : List Expression} {k : Nat}

theorem levels_unsigned (f : Expression) : (unsigned f).writtenLevels = f.writtenLevels := by
  unfold unsigned
  split
  · next m hm =>
    obtain ⟨rfl, -⟩ := eq_of_negativeNumber? hm
    rfl
  · rfl

/-- The power with the opposite exponent has one level more than its base. -/
theorem levels_power_neg (h : n.isNegative) :
    (Expression.function "Power" [base, .number n.neg]).writtenLevels = base.writtenLevels + 1 := by
  have hone := one_le_writtenLevels base
  rw [writtenLevels_function]
  show 1 + levelsBelowPower (.number n.neg) base.writtenLevels 1 = _
  unfold levelsBelowPower
  rw [negativeNumber?_neg h]
  dsimp only
  split
  · omega
  · omega

/-- Under the bar a factor takes one level less. -/
theorem levels_of_reciprocal? (h : reciprocal? f = some r) :
    f.writtenLevels = r.writtenLevels + 1 := by
  unfold reciprocal? at h
  split at h
  · next b exponent =>
    obtain ⟨m, hm, hr⟩ := Option.map_eq_some_iff.mp h
    obtain ⟨-, hnegative⟩ := eq_of_negativeNumber? hm
    have hlevels : (Expression.apply (.symbol "Power") [b, exponent]).writtenLevels =
        1 + levelsBelowPower exponent b.writtenLevels exponent.writtenLevels :=
      writtenLevels_apply
    rw [hlevels, levelsBelowPower, hm]
    dsimp only
    split at hr
    · next hone =>
      rw [if_pos hone, ← hr]
      exact Nat.add_comm _ _
    · next hone =>
      rw [if_neg hone, ← hr, levels_power_neg hnegative]
      exact Nat.add_comm _ _
  · cases h

theorem factorLevels_unsigned (f : Expression) :
    factorLevels (unsigned f) (unsigned f).writtenLevels = factorLevels f f.writtenLevels := by
  rw [factorLevels, factorLevels, reciprocal?_unsigned, levels_unsigned]

theorem factorLevels_of_reciprocal? (h : reciprocal? f = some r) :
    factorLevels f f.writtenLevels = r.writtenLevels := by
  rw [factorLevels, h, levels_of_reciprocal? h]
  rfl

theorem factorLevels_of_reciprocal?_eq_none (h : reciprocal? f = none) :
    factorLevels f f.writtenLevels = f.writtenLevels := by
  rw [factorLevels, h]
  rfl

theorem one_le_factorLevels (f : Expression) : 1 ≤ factorLevels f f.writtenLevels := by
  cases h : reciprocal? f with
  | none =>
    rw [factorLevels_of_reciprocal?_eq_none h]
    exact one_le_writtenLevels f
  | some r =>
    rw [factorLevels_of_reciprocal? h]
    exact one_le_writtenLevels r

/-- The -1 that is dropped takes one level, as any other factor does. -/
theorem forall_magnitudes_le :
    (∀ f ∈ magnitudes fs, factorLevels f f.writtenLevels ≤ k) ↔
      ∀ f ∈ fs, factorLevels f f.writtenLevels ≤ k := by
  have hmap (gs : List Expression) : (∀ f ∈ gs.map unsigned, factorLevels f f.writtenLevels ≤ k) ↔
      ∀ f ∈ gs, factorLevels f f.writtenLevels ≤ k := by
    simp only [List.forall_mem_map, factorLevels_unsigned]
  unfold magnitudes
  split
  · next first second rest =>
    split
    · next hone =>
      rw [hmap, List.forall_mem_cons (a := first)]
      refine ⟨fun h => ⟨?_, h⟩, fun h => h.2⟩
      have hsecond := h second List.mem_cons_self
      have hle := one_le_factorLevels second
      obtain ⟨n, hn, -⟩ := (Option.any_eq_true _ _).mp hone
      obtain ⟨rfl, -⟩ := eq_of_negativeNumber? hn
      have hfirst : factorLevels (.number n) (Expression.number n).writtenLevels = 1 := rfl
      omega
    · exact hmap _
  · exact hmap _

/-- The parts of a product take the levels that its factors take. -/
theorem forall_parts_le :
    ((∀ f ∈ (ofFactors fs).numerator, f.writtenLevels ≤ k) ∧
      ∀ f ∈ (ofFactors fs).denominator, f.writtenLevels ≤ k) ↔
      ∀ f ∈ fs, factorLevels f f.writtenLevels ≤ k := by
  rw [← forall_magnitudes_le]
  constructor
  · rintro ⟨htop, hbottom⟩ f hf
    cases h : reciprocal? f with
    | none =>
      rw [factorLevels_of_reciprocal?_eq_none h]
      exact htop f (List.mem_filter.mpr ⟨hf, by rw [h]; rfl⟩)
    | some r =>
      rw [factorLevels_of_reciprocal? h]
      exact hbottom r (List.mem_filterMap.mpr ⟨f, hf, h⟩)
  · intro h
    constructor
    · intro f hf
      obtain ⟨hmem, hnone⟩ := List.mem_filter.mp hf
      rw [← factorLevels_of_reciprocal?_eq_none (Option.isNone_iff_eq_none.mp hnone)]
      exact h f hmem
    · intro r hr
      obtain ⟨f, hmem, hf⟩ := List.mem_filterMap.mp hr
      rw [← factorLevels_of_reciprocal? hf]
      exact h f hmem

theorem hereditary_plain : Hereditary Plain where
  number := .number
  base h := by
    cases h with
    | apply _ harguments => exact harguments _ (.head _)
  power n h := by
    cases h with
    | apply _ harguments =>
      refine .apply (.symbol _) ?_
      simp only [List.forall_mem_cons]
      exact ⟨harguments _ (.head _), .number n, nofun⟩

end Product

/-! ### Writing hooks -/

namespace Writers

variable {scribe : Scribe} {limit n : Nat} {base exponent : Expression}
  {arguments : List Expression} (h : scribe.Gates limit n)

include h

theorem gated_sum (harguments : ∀ a ∈ arguments, a.Plain) :
    Gated limit (∀ a ∈ arguments, a.writtenLevels ≤ n) (sum scribe arguments) := by
  cases arguments with
  | nil => exact .ok "0" nofun
  | cons first rest =>
    obtain ⟨hfirst, hrest⟩ := List.forall_mem_cons.mp harguments
    refine .cons (h.wrap hfirst _) fun start => ?_
    refine .foldlM (fun text term hterm => ?_) start
    unfold addTerm
    split
    · exact (h term (hrest term hterm)).map
    · exact (h.wrap (hrest term hterm) _).map

theorem gated_moreFactors (previous : Expression) (written : String)
    (harguments : ∀ a ∈ arguments, a.Plain) :
    Gated limit (∀ a ∈ arguments, a.writtenLevels ≤ n)
      (moreFactors scribe previous written arguments) := by
  induction arguments generalizing previous written with
  | nil => exact .ok written nofun
  | cons factor rest ih =>
    obtain ⟨hfactor, hrest⟩ := List.forall_mem_cons.mp harguments
    refine .cons (h.wrap hfactor _) fun text => ?_
    exact ih factor _ hrest

theorem gated_factors (harguments : ∀ a ∈ arguments, a.Plain) :
    Gated limit (∀ a ∈ arguments, a.writtenLevels ≤ n) (factors scribe arguments) := by
  cases arguments with
  | nil => exact .ok "" nofun
  | cons first rest =>
    obtain ⟨hfirst, hrest⟩ := List.forall_mem_cons.mp harguments
    refine .cons (h.wrap hfirst _) fun text => ?_
    exact gated_moreFactors h first text hrest

theorem gated_product (harguments : ∀ a ∈ arguments, a.Plain) :
    Gated limit (∀ a ∈ arguments, factorLevels a a.writtenLevels ≤ n)
      (product scribe arguments) := by
  have htop := gated_factors h (Product.hereditary_plain.numerator harguments)
  have hbottom := gated_factors h (Product.hereditary_plain.denominator harguments)
  unfold product
  split
  · next hempty =>
    rw [List.isEmpty_iff.mp hempty]
    exact .ok "1" nofun
  · dsimp only
    refine (htop.bind fun top => ?_).congr Product.forall_parts_le
    split
    · next hnone =>
      rw [List.isEmpty_iff.mp hnone]
      exact .ok _ nofun
    · exact hbottom.map

theorem gated_scriptBase (hbase : base.Plain) :
    Gated limit (base.writtenLevels ≤ n) (scriptBase scribe base) :=
  (h.wrap hbase _).map

theorem gated_power (harguments : ∀ a ∈ arguments, a.Plain) :
    Gated limit (levelsBelowName "Power" arguments (arguments.map writtenLevels) ≤ n)
      (power scribe arguments) := by
  unfold power
  split
  · next base exponent =>
    have hbase := harguments base List.mem_cons_self
    have hexponent := harguments exponent (List.mem_cons_of_mem _ List.mem_cons_self)
    show Gated limit (levelsBelowPower exponent base.writtenLevels exponent.writtenLevels ≤ n) _
    unfold levelsBelowPower
    cases hm : Product.negativeNumber? exponent with
    | some m =>
      obtain ⟨-, hnegative⟩ := Product.eq_of_negativeNumber? hm
      dsimp only
      split
      · exact (h base hbase).map
      · have hpower : (Expression.function "Power" [base, .number m.neg]).Plain := by
          refine .apply (.symbol _) ?_
          simp only [List.forall_mem_cons]
          exact ⟨hbase, .number _, nofun⟩
        rw [← Product.levels_power_neg hnegative]
        exact (h _ hpower).map
    | none =>
      cases rationalParts? exponent with
      | some parts =>
        rw [Option.isSome_some, if_pos rfl]
        dsimp only
        split
        · exact (h base hbase).map
        · exact (h base hbase).map
        · next hparts =>
          cases hparts
          exact (gated_scriptBase h hbase).map
        · next hparts => cases hparts
      | none =>
        refine ((gated_scriptBase h hbase).bind fun below => ?_).congr Nat.max_le.symm
        exact (h exponent hexponent).map
  · next hcount =>
    refine (h.application "Power" harguments).congr ?_
    rw [← greatest_map_le]
    unfold levelsBelowName
    rw [if_pos rfl]
    split
    · next a b _ _ _ => exact absurd rfl (hcount a b)
    · rfl

theorem gated_subscript (harguments : ∀ a ∈ arguments, a.Plain) :
    Gated limit (∀ a ∈ arguments, a.writtenLevels ≤ n) (subscript scribe arguments) := by
  unfold subscript
  split
  · next base index =>
    simp only [List.forall_mem_cons] at harguments ⊢
    obtain ⟨hbase, hindex, -⟩ := harguments
    refine ((gated_scriptBase h hbase).bind fun below => (h index hindex).map).congr ?_
    exact and_congr_right' (and_iff_left nofun).symm
  · exact h.application _ harguments

theorem gated_root (harguments : ∀ a ∈ arguments, a.Plain) :
    Gated limit (∀ a ∈ arguments, a.writtenLevels ≤ n) (root scribe arguments) := by
  unfold root
  split
  · next radicand index =>
    simp only [List.forall_mem_cons] at harguments ⊢
    obtain ⟨hradicand, hindex, -⟩ := harguments
    refine ((h index hindex).bind fun _ => (h radicand hradicand).map).congr ?_
    rw [and_comm]
    exact and_congr_right' (and_iff_left nofun).symm
  · exact h.application _ harguments

theorem gated_error (harguments : ∀ a ∈ arguments, a.Plain) :
    Gated limit (levelsBelowError arguments (arguments.map writtenLevels) ≤ n)
      (error scribe arguments) := by
  unfold error
  split
  · exact .ok _ (Nat.zero_le n)
  · exact .ok _ (Nat.zero_le n)
  · next first rest hstring htext =>
    have hlevels : levelsBelowError (first :: rest) ((first :: rest).map writtenLevels) =
        first.writtenLevels := by
      rw [List.map_cons, levelsBelowError]
      · exact hstring
      · exact htext
    rw [hlevels]
    exact (h first (harguments first List.mem_cons_self)).map
  · exact .ok _ (Nat.zero_le n)

theorem gated_verbatim (spell : String → String) (harguments : ∀ a ∈ arguments, a.Plain) :
    Gated limit (∀ a ∈ arguments, verbatimLevels a a.writtenLevels ≤ n)
      (verbatim spell scribe arguments) := by
  refine .foldlM (fun written a ha => ?_) ""
  cases a with
  | text content => exact .ok _ (Nat.zero_le n)
  | _ => exact (h _ (harguments _ ha)).map

end Writers

/-! ### The standard notations -/

namespace Dictionary

variable {name : String} {n : Notation}

/-- The names that are written by a hook. -/
def hookedNames : List String :=
  ["Add", "Multiply", "Power", "Subscript", "Root", "Error", "LatexString", "LatexTokens"]

theorem mem_of_lookup_standard (h : standard.lookup name = some n) :
    n ∈ standardEntries ∧ n.name = name := by
  have hlast : standardEntries.reverse.find?
      (fun n => n.name == name && n.aliasOf.isNone && !n.parseOnly) = some n := h
  refine ⟨List.mem_reverse.mp (List.mem_of_find?_eq_some hlast), ?_⟩
  have hfound := List.find?_some hlast
  rw [Bool.and_eq_true_iff, Bool.and_eq_true_iff] at hfound
  exact eq_of_beq hfound.1.1

theorem writer_eq_none_of_lookup (h : standard.lookup name = some n) (hname : name ∉ hookedNames) :
    n.writer = none := by
  have hall : standardEntries.all fun n => n.writer.isNone || hookedNames.contains n.name := by rfl
  obtain ⟨hmem, rfl⟩ := mem_of_lookup_standard h
  rcases Bool.or_eq_true_iff.mp (List.all_eq_true.mp hall n hmem) with hnone | hhooked
  · exact Option.isNone_iff_eq_none.mp hnone
  · exact absurd (List.contains_iff_mem.mp hhooked) hname

/-- The standard notations for one operand take no other number of arguments. -/
theorem arguments_eq_singleton {arguments : List Expression} (h : standard.lookup name = some n)
    (hkind : n.kind = .prefixOp ∨ n.kind = .postfixOp)
    (haccepts : n.arity.accepts arguments.length) : ∃ a, arguments = [a] := by
  have hall : standardEntries.all fun n =>
      !(n.kind == .prefixOp || n.kind == .postfixOp) || n.arity == .exactly 1 := by rfl
  obtain ⟨hmem, -⟩ := mem_of_lookup_standard h
  have hunary : n.arity = .exactly 1 := by
    rcases Bool.or_eq_true_iff.mp (List.all_eq_true.mp hall n hmem) with hother | hone
    · rcases hkind with hkind | hkind <;> (rw [hkind] at hother; cases hother)
    · exact eq_of_beq hone
  rw [hunary] at haccepts
  refine List.length_eq_one_iff.mp ?_
  have hcount : decide (1 ≤ arguments.length) && decide (arguments.length ≤ 1) := haccepts
  rw [Bool.and_eq_true_iff, decide_eq_true_iff, decide_eq_true_iff] at hcount
  omega

end Dictionary

namespace Serializer

variable {s : Serializer} {limit n : Nat} {name : String} {arguments : List Expression}
  {e : Expression}

theorem named_of_writer {scribe : Scribe} {hook : WritingHook}
    (h : (s.dictionary.lookup name).bind (·.writer) = some hook) :
    s.named scribe name arguments = hook scribe arguments := by
  obtain ⟨m, hm, hwriter⟩ := Option.bind_eq_some_iff.mp h
  rw [named, hm]
  dsimp only
  rw [hwriter]

section

variable (hd : s.dictionary = .standard) {scribe : Scribe} (h : scribe.Gates limit n)

include hd h

/-- Names without a hook. -/
theorem gated_named_unhooked (hname : name ∉ Dictionary.hookedNames)
    (harguments : ∀ a ∈ arguments, a.Plain) :
    Gated limit (∀ a ∈ arguments, a.writtenLevels ≤ n) (s.named scribe name arguments) := by
  unfold named
  rw [hd]
  split
  · exact h.application name harguments
  · next m hm =>
    rw [Dictionary.writer_eq_none_of_lookup hm hname]
    dsimp only
    split
    · next haccepts =>
      exact h.byKind name harguments fun hkind =>
        Dictionary.arguments_eq_singleton hm hkind haccepts
    · exact h.application name harguments

theorem gated_named (harguments : ∀ a ∈ arguments, a.Plain) :
    Gated limit ((Expression.function name arguments).writtenLevels ≤ n + 1)
      (s.named scribe name arguments) := by
  have hbelow : (Expression.function name arguments).writtenLevels ≤ n + 1 ↔
      levelsBelowName name arguments (arguments.map writtenLevels) ≤ n := by
    rw [writtenLevels_function, Nat.add_comm, Nat.add_le_add_iff_right]
  by_cases hname : name ∈ Dictionary.hookedNames
  · have hook (writer : WritingHook)
        (hwriter : (Dictionary.standard.lookup name).bind (·.writer) = some writer) :
        s.named scribe name arguments = writer scribe arguments :=
      named_of_writer (by rw [hd]; exact hwriter)
    simp only [Dictionary.hookedNames, List.mem_cons, List.not_mem_nil, or_false] at hname
    rcases hname with rfl | rfl | rfl | rfl | rfl | rfl | rfl | rfl
    · rw [hook Writers.sum rfl, writtenLevels_function_le_iff (by decide)]
      exact Writers.gated_sum h harguments
    · rw [hook Writers.product rfl, hbelow]
      exact (Writers.gated_product h harguments).congr levelsBelowName_multiply.symm
    · rw [hook Writers.power rfl, hbelow]
      exact Writers.gated_power h harguments
    · rw [hook Writers.subscript rfl, writtenLevels_function_le_iff (by decide)]
      exact Writers.gated_subscript h harguments
    · rw [hook Writers.root rfl, writtenLevels_function_le_iff (by decide)]
      exact Writers.gated_root h harguments
    · rw [hook Writers.error rfl, hbelow]
      exact Writers.gated_error h harguments
    · rw [hook Writers.latexString rfl, hbelow]
      exact (Writers.gated_verbatim h id harguments).congr
        (levelsBelowName_verbatim (.inl rfl)).symm
    · rw [hook Writers.latexTokens rfl, hbelow]
      exact (Writers.gated_verbatim h Writers.spellToken harguments).congr
        (levelsBelowName_verbatim (.inr rfl)).symm
  · have hlevels : name ∉ ["Power", "Multiply", "Error", "LatexString", "LatexTokens"] := by
      have hsub : ["Power", "Multiply", "Error", "LatexString", "LatexTokens"] ⊆
          Dictionary.hookedNames := by decide
      exact fun hmem => hname (hsub hmem)
    rw [writtenLevels_function_le_iff hlevels]
    exact gated_named_unhooked hd h hname harguments

end

/-- One level takes the node and leaves the levels below it. -/
theorem gated_node (hd : s.dictionary = .standard) {below : Expression → Except WriteFault String}
    (h : ∀ e : Expression, e.Plain → Gated limit (e.writtenLevels ≤ n) (below e)) (he : e.Plain) :
    Gated limit (e.writtenLevels ≤ n + 1) (s.node below e) := by
  have hgates : (s.scribe below).Gates limit n := h
  cases he with
  | number value => exact .ok _ (Nat.le_add_left 1 n)
  | symbol name => exact .ok _ (Nat.le_add_left 1 n)
  | text content => exact .ok _ (Nat.le_add_left 1 n)
  | missing => exact .ok _ (Nat.le_add_left 1 n)
  | @apply head arguments hhead harguments =>
    cases head with
    | symbol name => exact gated_named hd hgates harguments
    | _ =>
      rw [writtenLevels_apply, Nat.add_comm, Nat.add_le_add_iff_right]
      refine ((hgates.wrap hhead _).bind fun text => (hgates.list harguments).map).congr ?_
      rw [← greatest_map_le]
      exact Nat.max_le.symm

/-- By the standard notations a tree without dictionaries is written if its levels are allowed;
otherwise the limit stops it, and nothing else does. -/
theorem gated_within (hd : s.dictionary = .standard) (levels : Nat) (he : e.Plain) :
    Gated s.options.maxDepth (e.writtenLevels ≤ levels) (s.within levels e) := by
  induction levels generalizing e with
  | zero =>
    have hone := one_le_writtenLevels e
    exact ⟨fun h => by omega, fun _ => rfl⟩
  | succ levels ih => exact gated_node hd (fun _ he => ih he) he

end Serializer

end TexFormula
