import Mathlib.Data.List.Nodup
import Mathlib.Data.List.Perm.Subperm
import Mathlib.Logic.Relation
import TexFormula.Dictionary

/-!
# Chains of aliases

`PointsTo entries name target` holds if the last alias of a name stands for `target`. From name to name
these pointers lead to an end (`EndsAt`), or round in a circle. `follow` tells the two apart: what it
finds is the end of the chain (`endsAt_of_follow`), and it finds one unless the chain is a circle
(`exists_follow_eq_ok`). So what a dictionary finds, by its name or at a trigger, is no alias.
-/

namespace TexFormula.Dictionary

open Relation

variable {entries : List Notation} {n m : Notation} {name next target final : String}
  {p : Notation → Prop}

/-! ### The last one of a list -/

/-- The notation is the last one of the list with the property. -/
def IsLast (p : Notation → Prop) (entries : List Notation) (n : Notation) : Prop :=
  ∃ before after, entries = before ++ n :: after ∧ p n ∧ ∀ m ∈ after, ¬p m

theorem IsLast.mem (h : IsLast p entries n) : n ∈ entries := by
  obtain ⟨before, after, rfl, -, -⟩ := h
  exact List.mem_append_right before List.mem_cons_self

theorem IsLast.prop (h : IsLast p entries n) : p n := by
  obtain ⟨-, -, -, hp, -⟩ := h
  exact hp

theorem isLast_congr {q : Notation → Prop} (h : ∀ m ∈ entries, p m ↔ q m) :
    IsLast p entries n ↔ IsLast q entries n := by
  constructor
  · rintro ⟨before, after, rfl, hp, hafter⟩
    simp only [List.forall_mem_append, List.forall_mem_cons] at h
    exact ⟨before, after, rfl, h.2.1.mp hp, fun m hm hq => hafter m hm ((h.2.2 m hm).mpr hq)⟩
  · rintro ⟨before, after, rfl, hq, hafter⟩
    simp only [List.forall_mem_append, List.forall_mem_cons] at h
    exact ⟨before, after, rfl, h.2.1.mpr hq, fun m hm hp => hafter m hm ((h.2.2 m hm).mp hp)⟩

theorem reverse_eq_append_cons_iff {before after : List Notation} :
    entries.reverse = after ++ n :: before ↔ entries = before.reverse ++ n :: after.reverse := by
  rw [List.reverse_eq_iff, List.reverse_append, List.reverse_cons, List.append_assoc,
    List.singleton_append]

/-- The first one from the end is the last one. -/
theorem find?_reverse_eq_some_iff {q : Notation → Bool} (hq : ∀ m, q m = true ↔ p m) :
    entries.reverse.find? q = some n ↔ IsLast p entries n := by
  rw [List.find?_eq_some_iff_append]
  constructor
  · rintro ⟨hn, after, before, heq, hafter⟩
    refine ⟨_, _, reverse_eq_append_cons_iff.mp heq, (hq n).mp hn, fun m hm hp => ?_⟩
    have hnot := hafter m (List.mem_reverse.mp hm)
    rw [(hq m).mpr hp] at hnot
    cases hnot
  · rintro ⟨before, after, rfl, hp, hafter⟩
    refine ⟨(hq n).mpr hp, after.reverse, before.reverse, ?_, fun m hm => ?_⟩
    · rw [reverse_eq_append_cons_iff, List.reverse_reverse, List.reverse_reverse]
    · rw [Bool.not_eq_true', ← Bool.not_eq_true, hq]
      exact hafter m (List.mem_reverse.mp hm)

/-! ### Pointers -/

/-- The last alias of the name stands for the target. -/
def PointsTo (entries : List Notation) (name target : String) : Prop :=
  ∃ n, IsLast (fun m => m.name = name ∧ m.aliasOf.isSome) entries n ∧ n.aliasOf = some target

theorem target?_eq_some_iff : target? entries name = some target ↔ PointsTo entries name target := by
  unfold target? PointsTo IsLast
  rw [List.findSome?_eq_some_iff]
  constructor
  · rintro ⟨after, n, before, heq, hn, hafter⟩
    rw [Option.ite_none_right_eq_some] at hn
    obtain ⟨hname, htarget⟩ := hn
    have hsome : n.aliasOf.isSome := by
      rw [htarget]
      rfl
    refine ⟨n, ⟨_, _, reverse_eq_append_cons_iff.mp heq, ⟨hname, hsome⟩, ?_⟩, htarget⟩
    rintro m hm ⟨hmname, hmalias⟩
    have hnone := hafter m (List.mem_reverse.mp hm)
    rw [if_pos hmname] at hnone
    rw [hnone] at hmalias
    cases hmalias
  · rintro ⟨n, ⟨before, after, rfl, ⟨hname, -⟩, hafter⟩, htarget⟩
    refine ⟨after.reverse, n, before.reverse, ?_, by rw [if_pos hname, htarget], fun m hm => ?_⟩
    · rw [reverse_eq_append_cons_iff, List.reverse_reverse, List.reverse_reverse]
    · split
      · next hmname =>
        have hnot := hafter m (List.mem_reverse.mp hm)
        exact Option.not_isSome_iff_eq_none.mp fun hmalias => hnot ⟨hmname, hmalias⟩
      · rfl

theorem target?_eq_none_iff :
    target? entries name = none ↔ ∀ target, ¬PointsTo entries name target := by
  rw [Option.eq_none_iff_forall_ne_some]
  exact forall_congr' fun target => not_congr target?_eq_some_iff

theorem target?_eq_none_iff_aliasOf : target? entries name = none ↔
    ∀ n ∈ entries, n.name = name → n.aliasOf = none := by
  simp [target?]

theorem PointsTo.unique (h : PointsTo entries name target) (h' : PointsTo entries name next) :
    target = next :=
  Option.some.inj ((target?_eq_some_iff.mpr h).symm.trans (target?_eq_some_iff.mpr h'))

/-! ### Ends of chains -/

/-- From name to name the pointers lead to an end. -/
def EndsAt (entries : List Notation) (name final : String) : Prop :=
  ReflTransGen (PointsTo entries) name final ∧ ∀ next, ¬PointsTo entries final next

theorem EndsAt.refl (h : ∀ next, ¬PointsTo entries name next) : EndsAt entries name name :=
  ⟨.refl, h⟩

theorem EndsAt.head (h : PointsTo entries name next) (hnext : EndsAt entries next final) :
    EndsAt entries name final :=
  ⟨hnext.1.head h, hnext.2⟩

theorem EndsAt.eq_of_reflTransGen (h : EndsAt entries name final)
    (hnext : ReflTransGen (PointsTo entries) final next) : next = final := by
  rcases ReflTransGen.cases_head hnext with heq | ⟨step, hstep, -⟩
  · exact heq.symm
  · exact absurd hstep (h.2 step)

theorem EndsAt.unique (h : EndsAt entries name final) (h' : EndsAt entries name next) :
    final = next := by
  have hunique : Relator.RightUnique (PointsTo entries) := fun _ _ _ => PointsTo.unique
  rcases ReflTransGen.total_of_right_unique hunique h.1 h'.1 with hle | hle
  · exact (h.eq_of_reflTransGen hle).symm
  · exact h'.eq_of_reflTransGen hle

/-- What points into a circle points round it for ever. -/
theorem transGen_of_pointsTo (hcircle : TransGen (PointsTo entries) final final)
    (h : TransGen (PointsTo entries) name final) (hnext : PointsTo entries name next) :
    TransGen (PointsTo entries) next final := by
  obtain ⟨step, hstep, hrest⟩ := TransGen.head'_iff.mp h
  rw [hnext.unique hstep]
  exact .trans_right hrest hcircle

theorem EndsAt.not_transGen (h : EndsAt entries name final) :
    ¬TransGen (PointsTo entries) name name := by
  intro hcircle
  -- all of the chain lies on the circle, and so does its end
  have hround : ∀ reached, ReflTransGen (PointsTo entries) name reached →
      TransGen (PointsTo entries) reached name := by
    intro reached hreached
    induction hreached with
    | refl => exact hcircle
    | tail _ hstep ih => exact transGen_of_pointsTo hcircle ih hstep
  obtain ⟨next, hnext, -⟩ := TransGen.head'_iff.mp (hround final h.1)
  exact h.2 next hnext

/-! ### Following a chain -/

/-- Only names of notations are aliases. -/
theorem mem_names_of_target? (h : target? entries name = some target) :
    name ∈ entries.map (·.name) := by
  obtain ⟨n, hn, hname⟩ := List.exists_of_findSome?_eq_some h
  split at hname
  · next heq => exact List.mem_map.mpr ⟨n, List.mem_reverse.mp hn, heq⟩
  · cases hname

/-- The names passed are distinct names of notations, and together with the steps that are left they
outnumber the notations. So the steps do not run out. -/
structure HasSteps (entries : List Notation) (passed : List String) (steps : Nat) : Prop where
  nodup : passed.Nodup
  names : passed ⊆ entries.map (·.name)
  enough : entries.length < steps + passed.length

namespace HasSteps

variable {passed : List String} {steps : Nat}

theorem singleton (hname : name ∈ entries.map (·.name)) :
    HasSteps entries [name] (entries.length + 1) := by
  refine ⟨List.nodup_singleton name, List.cons_subset.mpr ⟨hname, List.nil_subset _⟩, ?_⟩
  rw [List.length_singleton]
  omega

theorem not_zero : ¬HasSteps entries passed 0 := by
  intro h
  have hle := (h.nodup.subperm h.names).length_le
  have henough := h.enough
  rw [List.length_map] at hle
  omega

theorem cons (h : HasSteps entries passed (steps + 1)) (htarget : target? entries name = some target)
    (hnew : ¬passed.contains name = true) : HasSteps entries (name :: passed) steps := by
  have hname : name ∉ passed := fun hmem => hnew (List.contains_iff_mem.mpr hmem)
  refine ⟨List.nodup_cons.mpr ⟨hname, h.nodup⟩,
    List.cons_subset.mpr ⟨mem_names_of_target? htarget, h.names⟩, ?_⟩
  have henough := h.enough
  rw [List.length_cons]
  omega

end HasSteps

/-- While the steps do not run out, what is found is the end of the chain. -/
theorem endsAt_of_follow {passed : List String} {steps : Nat} (hsteps : HasSteps entries passed steps)
    (h : follow entries steps passed name = .ok final) : EndsAt entries name final := by
  induction steps generalizing passed name with
  | zero => exact absurd hsteps HasSteps.not_zero
  | succ steps ih =>
    rw [follow] at h
    split at h
    · next hnone =>
      cases h
      exact .refl (target?_eq_none_iff.mp hnone)
    · next next htarget =>
      split at h
      · cases h
      · next hnew =>
        exact .head (target?_eq_some_iff.mp htarget) (ih (hsteps.cons htarget hnew) h)

/-- Only a circle leads back to a name that has been passed. -/
theorem exists_follow_eq_ok (hcircles : ∀ name, ¬TransGen (PointsTo entries) name name)
    {passed : List String} (steps : Nat)
    (hpassed : ∀ earlier ∈ passed, TransGen (PointsTo entries) earlier name) :
    ∃ final, follow entries steps passed name = .ok final := by
  induction steps generalizing passed name with
  | zero => exact ⟨name, rfl⟩
  | succ steps ih =>
    rw [follow]
    split
    · exact ⟨name, rfl⟩
    · next next htarget =>
      have hnext := target?_eq_some_iff.mp htarget
      split
      · next hback => exact absurd (hpassed name (List.contains_iff_mem.mp hback)) (hcircles name)
      · refine ih (List.forall_mem_cons.mpr ⟨.single hnext, fun earlier hearlier => ?_⟩)
        exact (hpassed earlier hearlier).tail hnext

theorem endsAt_of_resolve (hname : name ∈ entries.map (·.name))
    (h : resolve entries name target = .ok final) : EndsAt entries target final := by
  unfold resolve at h
  split at h
  · exact endsAt_of_follow (.singleton hname) h
  · cases h

theorem exists_resolve_eq_ok (hcircles : ∀ name, ¬TransGen (PointsTo entries) name name)
    (h : PointsTo entries name target) (htarget : ∃ n ∈ entries, n.name = target) :
    ∃ final, resolve entries name target = .ok final := by
  obtain ⟨n, hn, hname⟩ := htarget
  have hany : entries.any (·.name == target) :=
    List.any_eq_true.mpr ⟨n, hn, beq_iff_eq.mpr hname⟩
  rw [resolve, if_pos hany]
  exact exists_follow_eq_ok hcircles _ (List.forall_mem_singleton.mpr (.single h))

/-! ### What a dictionary finds -/

variable {d : Dictionary} {trigger : String}

theorem plain_of_lastOf {p : Notation → Bool} (h : d.lastOf name p = some n) :
    n ∈ d.entries ∧ n.aliasOf = none := by
  have hfound := List.find?_some h
  simp only [Bool.and_eq_true, Option.isNone_iff_eq_none] at hfound
  exact ⟨List.mem_reverse.mp (List.mem_of_find?_eq_some h), hfound.1.2⟩

theorem plain_of_mem_readAt (h : n ∈ d.readAt trigger) : n ∈ d.entries ∧ n.aliasOf = none := by
  obtain ⟨m, hm, hread⟩ := List.mem_filterMap.mp h
  rw [Option.ite_none_right_eq_some] at hread
  obtain ⟨-, hresolved⟩ := hread
  unfold resolved at hresolved
  split at hresolved
  · next hplain =>
    cases hresolved
    exact ⟨List.mem_reverse.mp hm, Option.isNone_iff_eq_none.mp hplain⟩
  · obtain ⟨target, -, htarget⟩ := Option.bind_eq_some_iff.mp hresolved
    rcases Option.or_eq_some_iff.mp htarget with hlast | ⟨-, hlast⟩
    · exact plain_of_lastOf hlast
    · exact plain_of_lastOf hlast

/-- What is found by its name is a notation of the dictionary. -/
theorem mem_entries_of_lastOf {p : Notation → Bool} (h : d.lastOf name p = some n) : n ∈ d.entries :=
  (plain_of_lastOf h).1

/-- What is read at a trigger is a notation of the dictionary. -/
theorem mem_entries_of_mem_readAt (h : n ∈ d.readAt trigger) : n ∈ d.entries :=
  (plain_of_mem_readAt h).1

end TexFormula.Dictionary
