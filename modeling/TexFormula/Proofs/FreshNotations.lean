import TexFormula.Proofs.AliasChains
import TexFormula.Proofs.ResolvedNotations

/-!
# Notations of new names

What a dictionary finds when notations of new names are added (`ExtendedBy`). No chain of aliases
leads from a name it had to one of the new ones, so the names stand for the same as before
(`ExtendedBy.canonicalName`) and are written as before (`ExtendedBy.lookup`). At a trigger the new
notations come first, and then what was read there before (`ExtendedBy.readAt`).
-/

namespace TexFormula.Dictionary

open Relation

variable {d d' : Dictionary} {entries overrides : List Notation} {name target final : String}
  {n : Notation}

theorem target?_append (hname : name ∉ overrides.map (·.name)) :
    target? (entries ++ overrides) name = target? entries name := by
  have hnone : (overrides.reverse.findSome? fun n => if n.name = name then n.aliasOf else none) =
      none := by
    rw [List.findSome?_eq_none_iff]
    intro n hn
    rw [if_neg]
    rintro rfl
    exact hname (List.mem_map_of_mem (List.mem_reverse.mp hn))
  rw [target?, List.reverse_append, List.findSome?_append, hnone]
  rfl

theorem pointsTo_append (hname : name ∉ overrides.map (·.name)) :
    PointsTo (entries ++ overrides) name target ↔ PointsTo entries name target := by
  rw [← target?_eq_some_iff, ← target?_eq_some_iff, target?_append hname]

/-- `d'` is `d` with more notations, all of new names. -/
structure ExtendedBy (d : Dictionary) (overrides : List Notation) (d' : Dictionary) : Prop where
  checked : ofList d.entries = .ok d
  extended : d.withOverrides overrides = .ok d'
  fresh : ∀ n ∈ overrides, ∀ m ∈ d.entries, m.name ≠ n.name

namespace ExtendedBy

variable (h : d.ExtendedBy overrides d')

include h

theorem entries_eq : d'.entries = d.entries ++ overrides :=
  (ofList_eq_ok_iff.mp h.extended).2.2

theorem notMem (hn : n ∈ d.entries) : n.name ∉ overrides.map (·.name) := by
  intro hname
  obtain ⟨m, hm, heq⟩ := List.mem_map.mp hname
  exact h.fresh m hm n hn heq.symm

/-- By induction on the chain: no alias of the dictionary stands for a new name. -/
theorem endsAt (hname : name ∉ overrides.map (·.name)) (hends : EndsAt d.entries name final) :
    EndsAt (d.entries ++ overrides) name final ∧ final ∉ overrides.map (·.name) := by
  obtain ⟨hchain, hlast⟩ := hends
  induction hchain using ReflTransGen.head_induction_on with
  | refl =>
    refine ⟨.refl fun next hnext => ?_, hname⟩
    exact hlast next ((pointsTo_append hname).mp hnext)
  | head hpoints _ ih =>
    obtain ⟨m, hm, rfl⟩ := exists_mem_of_pointsTo h.checked hpoints
    obtain ⟨hrest, hfinal⟩ := ih (h.notMem hm)
    exact ⟨.head ((pointsTo_append hname).mpr hpoints) hrest, hfinal⟩

theorem canonicalName (hname : name ∉ overrides.map (·.name)) :
    d'.canonicalName name = d.canonicalName name ∧
      d.canonicalName name ∉ overrides.map (·.name) := by
  obtain ⟨hends, hfinal⟩ := h.endsAt hname (endsAt_canonicalName h.checked name)
  exact ⟨canonicalName_of_endsAt h.extended hends, hfinal⟩

theorem lastOf (hname : name ∉ overrides.map (·.name)) (p : Notation → Bool) :
    d'.lastOf name p = d.lastOf name p := by
  have hnone : overrides.reverse.find? (fun n => n.name == name && n.aliasOf.isNone && p n) = none := by
    rw [List.find?_eq_none]
    intro n hn
    have hne : n.name ≠ name := by
      rintro rfl
      exact hname (List.mem_map_of_mem (List.mem_reverse.mp hn))
    simp [hne]
  rw [Dictionary.lastOf, Dictionary.lastOf, h.entries_eq, List.reverse_append, List.find?_append, hnone,
    Option.none_or]

theorem lookup (hname : name ∉ overrides.map (·.name)) : d'.lookup name = d.lookup name := by
  obtain ⟨hcanonical, hfinal⟩ := h.canonicalName hname
  rw [Dictionary.lookup, Dictionary.lookup, hcanonical, h.lastOf hfinal]

/-- The notations of the dictionary stand for the same ones as before. -/
theorem resolved (hn : n ∈ d.entries) : d'.resolved n = d.resolved n := by
  cases halias : n.aliasOf with
  | none =>
    rw [Dictionary.resolved, Dictionary.resolved, halias]
    rfl
  | some target =>
    have hsome : n.aliasOf.isSome := by rw [halias]; rfl
    have hn' : n ∈ d.entries ++ overrides := List.mem_append_left _ hn
    obtain ⟨hcanonical, hfinal⟩ := h.canonicalName (h.notMem hn)
    rw [resolved_of_alias h.extended hn' hsome, resolved_of_alias h.checked hn hsome, hcanonical,
      h.lastOf hfinal, h.lastOf hfinal]

/-- At a trigger the new notations come first, and all else is as before. -/
theorem readAt (trigger : String) :
    d'.readAt trigger =
      (overrides.reverse.filterMap fun n =>
        if !n.serializeOnly && n.trigger == some trigger then d'.resolved n else none) ++
      d.readAt trigger := by
  rw [Dictionary.readAt, Dictionary.readAt, h.entries_eq, List.reverse_append, List.filterMap_append]
  congr 1
  refine List.filterMap_congr fun n hn => ?_
  rw [h.resolved (List.mem_reverse.mp hn)]

/-- Where no new notation has the trigger, nothing has changed. -/
theorem readAt_of_ne {trigger : String} (htrigger : ∀ n ∈ overrides, n.trigger ≠ some trigger) :
    d'.readAt trigger = d.readAt trigger := by
  rw [h.readAt, List.append_left_eq_self, List.filterMap_eq_nil_iff]
  intro n hn
  simp [htrigger n (List.mem_reverse.mp hn)]

end ExtendedBy

end TexFormula.Dictionary
