import TexFormula.Proofs.VisitedNodes

/-!
# Dictionaries cannot be written

A dictionary has no LaTeX, and neither has anything that holds one: all nodes but errors are written
with everything they hold. What is written below a node holds a dictionary just if the node does
(`Expression.plain_iff_forall_visited`), although it need not be a part of the node. From this, by
induction on the levels, writing fails just on the trees that hold a dictionary, and always with the
same fault.
-/

namespace TexFormula

namespace Expression

/-- No function has the head `Error`. What dictionaries hold does not matter. -/
inductive NoErrors : Expression → Prop where
  | number (value : Number) : NoErrors (.number value)
  | symbol (name : String) : NoErrors (.symbol name)
  | text (content : String) : NoErrors (.text content)
  | apply {head : Expression} {arguments : List Expression} (hname : head ≠ .symbol "Error")
      (hhead : NoErrors head) (harguments : ∀ a ∈ arguments, NoErrors a) :
      NoErrors (.apply head arguments)
  | dictionary (entries : List (String × Expression)) : NoErrors (.dictionary entries)
  | missing : NoErrors .missing

theorem hereditary_noErrors : Product.Hereditary NoErrors where
  number := .number
  base h := by
    cases h with
    | apply _ _ harguments => exact harguments _ (.head _)
  power n h := by
    cases h with
    | apply hname hhead harguments =>
      refine .apply hname hhead ?_
      simp only [List.forall_mem_cons]
      exact ⟨harguments _ (.head _), .number n, nofun⟩

variable {p : Expression → Prop} {name : String} {arguments : List Expression}
  {e v f r head : Expression} {fs : List Expression}

/-- What is written below a node inherits what the parts of the node have. -/
theorem forall_mem_visitedByName (hp : Product.Hereditary p) (h : p (.function name arguments))
    (harguments : ∀ a ∈ arguments, p a) : ∀ v ∈ visitedByName name arguments, p v := by
  unfold visitedByName
  split
  · next hpower =>
    subst hpower
    unfold visitedByPower
    split
    · next base exponent =>
      have hbase : ∀ v ∈ [base], p v := List.forall_mem_singleton.mpr (hp.base h)
      split
      · split
        · exact hbase
        · exact List.forall_mem_singleton.mpr (hp.power _ h)
      · split
        · exact hbase
        · exact harguments
    · exact harguments
  split
  · exact List.forall_mem_append.mpr ⟨hp.numerator harguments, hp.denominator harguments⟩
  split
  · exact fun v hv => harguments v (mem_of_mem_visitedByRoot hv)
  split
  · intro v hv
    unfold visitedByError at hv
    split at hv
    · cases hv
    · cases hv
    · rw [List.mem_singleton.mp hv]
      exact harguments _ List.mem_cons_self
    · cases hv
  split
  · intro v hv
    obtain ⟨a, ha, hv⟩ := List.mem_flatMap.mp hv
    rw [(mem_visitedVerbatim hv).1]
    exact harguments a ha
  · exact harguments

theorem NoErrors.function (hname : name ≠ "Error") (h : ∀ a ∈ arguments, a.NoErrors) :
    (Expression.function name arguments).NoErrors :=
  .apply (fun heq => hname (Expression.symbol.inj heq)) (.symbol name) h

theorem NoErrors.visited (h : e.NoErrors) : ∀ v ∈ e.visited, v.NoErrors := by
  cases h with
  | @apply head arguments hname hhead harguments =>
    cases head with
    | symbol name =>
      exact forall_mem_visitedByName hereditary_noErrors (.apply hname hhead harguments) harguments
    | _ => exact List.forall_mem_cons.mpr ⟨hhead, harguments⟩
  | _ => exact List.forall_mem_nil _

/-! ### Nothing is skipped -/

theorem plain_of_rationalParts? (h : (Writers.rationalParts? e).isSome) : e.Plain := by
  unfold Writers.rationalParts? at h
  split at h
  · exact .number _
  · next head n m =>
    refine .apply (.symbol head) ?_
    simp only [List.forall_mem_cons]
    exact ⟨.number n, .number m, nofun⟩
  · cases h

theorem plain_of_unsigned (h : (Product.unsigned f).Plain) : f.Plain := by
  unfold Product.unsigned at h
  split at h
  · next n hn =>
    rw [(Product.eq_of_negativeNumber? hn).1]
    exact .number n
  · exact h

theorem plain_of_reciprocal? (hr : Product.reciprocal? f = some r) (h : r.Plain) : f.Plain := by
  obtain ⟨base, n, rfl, -, rfl⟩ := Product.exists_of_reciprocal? hr
  have hbase : base.Plain := by
    split at h
    · exact h
    · exact Product.hereditary_plain.base h
  refine .apply (.symbol _) ?_
  simp only [List.forall_mem_cons]
  exact ⟨hbase, .number n, nofun⟩

/-- The factor that is dropped is a number. -/
theorem plain_of_magnitudes (h : ∀ f ∈ Product.magnitudes fs, f.Plain) : ∀ f ∈ fs, f.Plain := by
  have hmap (gs : List Expression) (hgs : ∀ f ∈ gs.map Product.unsigned, f.Plain) :
      ∀ f ∈ gs, f.Plain :=
    fun f hf => plain_of_unsigned (List.forall_mem_map.mp hgs f hf)
  unfold Product.magnitudes at h
  split at h
  · next first second rest =>
    split at h
    · next hone =>
      obtain ⟨n, hn, -⟩ := (Option.any_eq_true _ _).mp hone
      rw [(Product.eq_of_negativeNumber? hn).1]
      exact List.forall_mem_cons.mpr ⟨.number n, hmap _ h⟩
    · exact hmap _ h
  · exact hmap _ h

theorem plain_of_ofFactors (htop : ∀ f ∈ (Product.ofFactors fs).numerator, f.Plain)
    (hbottom : ∀ f ∈ (Product.ofFactors fs).denominator, f.Plain) : ∀ f ∈ fs, f.Plain := by
  refine plain_of_magnitudes fun f hf => ?_
  cases hr : Product.reciprocal? f with
  | none => exact htop f (List.mem_filter.mpr ⟨hf, by rw [hr]; rfl⟩)
  | some r => exact plain_of_reciprocal? hr (hbottom r (List.mem_filterMap.mpr ⟨f, hf, hr⟩))

theorem plain_of_visitedByPower (h : ∀ v ∈ visitedByPower arguments, v.Plain) :
    ∀ a ∈ arguments, a.Plain := by
  unfold visitedByPower at h
  split at h
  · next base exponent =>
    have hboth (hbase : base.Plain) (hexponent : exponent.Plain) : ∀ a ∈ [base, exponent], a.Plain :=
      List.forall_mem_cons.mpr ⟨hbase, List.forall_mem_singleton.mpr hexponent⟩
    cases hn : Product.negativeNumber? exponent with
    | some n =>
      have hexponent : exponent.Plain := by
        rw [(Product.eq_of_negativeNumber? hn).1]
        exact .number n
      rw [hn] at h
      dsimp only at h
      split at h
      · exact hboth (List.forall_mem_singleton.mp h) hexponent
      · exact hboth (Product.hereditary_plain.base (List.forall_mem_singleton.mp h)) hexponent
    | none =>
      rw [hn] at h
      dsimp only at h
      split at h
      · next hparts =>
        exact hboth (List.forall_mem_singleton.mp h) (plain_of_rationalParts? hparts)
      · exact h
  · exact h

/-- All arguments of a name are looked at, unless it is an error. -/
theorem plain_of_visitedByName (hname : name ≠ "Error")
    (h : ∀ v ∈ visitedByName name arguments, v.Plain) : ∀ a ∈ arguments, a.Plain := by
  unfold visitedByName at h
  split at h
  · exact plain_of_visitedByPower h
  split at h
  · obtain ⟨htop, hbottom⟩ := List.forall_mem_append.mp h
    exact plain_of_ofFactors htop hbottom
  split at h
  · unfold visitedByRoot at h
    split at h
    · next radicand index =>
      simp only [List.forall_mem_cons] at h ⊢
      exact ⟨h.2.1, h.1, nofun⟩
    · exact h
  split at h
  · intro a ha
    cases a with
    | text content => exact .text content
    | _ => exact h _ (List.mem_flatMap.mpr ⟨_, ha, List.mem_singleton.mpr rfl⟩)
  · exact h

/-- Except below errors, a dictionary in a node is a dictionary in what is written below it. -/
theorem plain_iff_forall_visited (h : e.NoErrors) (he : ∀ entries, e ≠ .dictionary entries) :
    e.Plain ↔ ∀ v ∈ e.visited, v.Plain := by
  cases h with
  | number value => exact iff_of_true (.number value) (List.forall_mem_nil _)
  | symbol name => exact iff_of_true (.symbol name) (List.forall_mem_nil _)
  | text content => exact iff_of_true (.text content) (List.forall_mem_nil _)
  | missing => exact iff_of_true .missing (List.forall_mem_nil _)
  | dictionary entries => exact absurd rfl (he entries)
  | @apply head arguments hname =>
    constructor
    · intro hplain
      cases hplain with
      | apply hhead harguments =>
        cases head with
        | symbol name =>
          exact forall_mem_visitedByName Product.hereditary_plain (.apply hhead harguments)
            harguments
        | _ => exact List.forall_mem_cons.mpr ⟨hhead, harguments⟩
    · intro hvisited
      cases head with
      | symbol name =>
        refine .apply (.symbol name) (plain_of_visitedByName ?_ hvisited)
        rintro rfl
        exact hname rfl
      | _ =>
        obtain ⟨hhead, harguments⟩ := List.forall_mem_cons.mp hvisited
        exact .apply hhead harguments

end Expression

namespace Serializer

open Expression

variable {s : Serializer} {levels : Nat} {e : Expression}

/-- With enough levels, writing fails just on what holds a dictionary. By induction on the levels:
the nodes below are plain just if the node is, and take fewer levels. -/
theorem within_of_noErrors (hd : s.dictionary = .standard) (herrors : e.NoErrors)
    (hlevels : e.writtenLevels ≤ levels) :
    (e.Plain → ∃ text, s.within levels e = .ok text) ∧
      (¬ e.Plain → s.within levels e = .error (.notSerializable "dictionary")) := by
  induction levels generalizing e with
  | zero =>
    have hone := one_le_writtenLevels e
    omega
  | succ levels ih =>
    by_cases he : ∀ entries, e ≠ .dictionary entries
    · obtain ⟨assemble, hnode⟩ := node_eq_map_mapM hd he
      have hwithin : s.within (levels + 1) e =
          (e.visited.mapM (s.within levels)).map assemble :=
        hnode (s.within levels) s.options.maxDepth
      have hbelow (v : Expression) (hv : v ∈ e.visited) :=
        ih (herrors.visited v hv)
          (Nat.le_of_lt_succ (Nat.lt_of_lt_of_le (writtenLevels_lt_of_mem_visited hv) hlevels))
      rw [hwithin, plain_iff_forall_visited herrors he]
      constructor
      · intro hplain
        obtain ⟨texts, htexts⟩ := exists_mapM_eq_ok fun v hv => (hbelow v hv).1 (hplain v hv)
        exact ⟨assemble texts, by rw [htexts]; rfl⟩
      · intro hplain
        have hfault : e.visited.mapM (s.within levels) = .error (.notSerializable "dictionary") := by
          refine mapM_eq_error (fun v hv => ?_) fun hall => hplain fun v hv => ?_
          · by_cases hv' : v.Plain
            · exact .inl ((hbelow v hv).1 hv')
            · exact .inr ((hbelow v hv).2 hv')
          · by_contra hv'
            obtain ⟨text, htext⟩ := hall v hv
            rw [(hbelow v hv).2 hv'] at htext
            cases htext
        rw [hfault]
        rfl
    · obtain ⟨entries, rfl⟩ := not_forall_not.mp he
      exact ⟨nofun, fun _ => rfl⟩

/-- By the standard notations, with any options that allow enough levels, a tree without errors is
written just if it holds no dictionary. Otherwise the text is empty, and one diagnostic says so. -/
theorem run_standard_of_noErrors {options : WriteOptions} (herrors : e.NoErrors)
    (hlevels : e.writtenLevels ≤ options.maxDepth) :
    (e.Plain → ∃ latex, serialize ⟨.standard, options⟩ e = .ok latex ∧
      run ⟨.standard, options⟩ e = .ok ⟨latex, []⟩) ∧
    (¬ e.Plain → ∃ d : Diagnostic, d.code = "not-serializable" ∧
      run ⟨.standard, options⟩ e = .ok ⟨"", [d]⟩) := by
  obtain ⟨hplain, hdictionary⟩ :=
    within_of_noErrors (s := ⟨.standard, options⟩) rfl herrors hlevels
  constructor
  · intro h
    obtain ⟨latex, hlatex⟩ := hplain h
    have hserialize : serialize ⟨.standard, options⟩ e = .ok latex := hlatex
    exact ⟨latex, hserialize, by rw [run, hserialize]⟩
  · intro h
    have hserialize : serialize ⟨.standard, options⟩ e = .error (.notSerializable "dictionary") :=
      hdictionary h
    exact ⟨.of (.ofWriteFault (.notSerializable "dictionary")) none, rfl, by rw [run, hserialize]⟩

/-- The product of a symbol and the reciprocal root of `e`. -/
def overRoot (e : Expression) : Expression :=
  .function "Multiply"
    [.symbol "x", .function "Power" [e, .number (.machine (.half true))]]

/-- A dictionary under the root below the bar keeps a product from being written, a symbol does
not. -/
theorem run_standard_of_noErrors_overRoot :
    (overRoot (.symbol "y")).NoErrors ∧ (overRoot (.dictionary [])).NoErrors ∧
    (∃ latex, run ⟨.standard, {}⟩ (overRoot (.symbol "y")) = .ok ⟨latex, []⟩) ∧
    ∃ d : Diagnostic, d.code = "not-serializable" ∧
      run ⟨.standard, {}⟩ (overRoot (.dictionary [])) = .ok ⟨"", [d]⟩ := by
  have herrors {e : Expression} (he : e.NoErrors) : (overRoot e).NoErrors := by
    refine .function (by decide) ?_
    simp only [List.forall_mem_cons]
    refine ⟨.symbol "x", .function (by decide) ?_, nofun⟩
    simp only [List.forall_mem_cons]
    exact ⟨he, .number _, nofun⟩
  have hplain : (overRoot (.symbol "y")).Plain := by
    refine .apply (.symbol _) ?_
    simp only [List.forall_mem_cons]
    refine ⟨.symbol "x", .apply (.symbol _) ?_, nofun⟩
    simp only [List.forall_mem_cons]
    exact ⟨.symbol "y", .number _, nofun⟩
  have hnot : ¬ (overRoot (.dictionary [])).Plain := by
    intro h
    cases h with
    | apply _ harguments =>
      cases harguments _ (.tail _ (.head _)) with
      | apply _ harguments => cases harguments _ (.head _)
  have hsymbol := @run_standard_of_noErrors _ {} (herrors (.symbol "y")) (by decide)
  have hdictionary := @run_standard_of_noErrors _ {} (herrors (.dictionary [])) (by decide)
  obtain ⟨latex, -, hlatex⟩ := hsymbol.1 hplain
  exact ⟨herrors (.symbol "y"), herrors (.dictionary []), ⟨latex, hlatex⟩, hdictionary.2 hnot⟩

end Serializer

end TexFormula
