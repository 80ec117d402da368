import TexFormula.Dictionary.Standard

/-!
# The hooks of the standard notations

`Readers.Standard` lists the hooks by which standard notations are read, and a standard notation has no
other one (`hookedAsStandard_standardEntries`). So what is shown by cases on the list holds of all the
standard notations.
-/

namespace TexFormula

/-- The hooks of the standard notations, each with its trigger and whether it stands behind an
operand. -/
inductive Readers.Standard : (follows : Bool) → (trigger : String) → ReadingHook → Prop where
  | unaryPlus : Standard false "+" unaryPlus
  | power : Standard true "^" power
  | subscript : Standard true "_" subscript
  | squareRoot : Standard false "\\sqrt" squareRoot
  | operatorname : Standard false "\\operatorname" identifier
  | mathrm : Standard false "\\mathrm" identifier
  | text : Standard false "\\text" text
  | placeholder : Standard false "\\placeholder" placeholder
  | infinity : Standard false "\\infty" infinity

namespace Notation

variable {n : Notation} {hook : ReadingHook} {trigger : String}

/-- The hook of the notation, if it has one, is a standard one at its trigger. -/
def HookedAsStandard (n : Notation) : Prop :=
  ∀ hook, n.reader = some hook →
    ∃ trigger, n.trigger = some trigger ∧ Readers.Standard n.followsOperand trigger hook

theorem HookedAsStandard.of_reader_eq_none (h : n.reader = none) : n.HookedAsStandard := by
  intro hook hhook
  rw [h] at hhook
  cases hhook

theorem HookedAsStandard.of_reader_eq (h : n.reader = some hook) (htrigger : n.trigger = some trigger)
    (hhook : Readers.Standard n.followsOperand trigger hook) : n.HookedAsStandard := by
  intro hook' hhook'
  rw [h] at hhook'
  cases hhook'
  exact ⟨trigger, htrigger, hhook⟩

end Notation

namespace Dictionary

open Notation

theorem hookedAsStandard_arithmetic : ∀ n ∈ arithmetic, n.HookedAsStandard := by
  unfold arithmetic
  simp only [List.forall_mem_cons]
  exact ⟨.of_reader_eq_none rfl, .of_reader_eq rfl rfl .unaryPlus,
    .of_reader_eq_none rfl, .of_reader_eq_none rfl, .of_reader_eq_none rfl, .of_reader_eq_none rfl,
    .of_reader_eq_none rfl, .of_reader_eq_none rfl, .of_reader_eq_none rfl, .of_reader_eq_none rfl,
    .of_reader_eq_none rfl, .of_reader_eq_none rfl, .of_reader_eq rfl rfl .power,
    .of_reader_eq rfl rfl .subscript, .of_reader_eq rfl rfl .squareRoot,
    .of_reader_eq_none rfl, .of_reader_eq_none rfl, List.forall_mem_nil _⟩

theorem hookedAsStandard_readCommands : ∀ n ∈ readCommands, n.HookedAsStandard := by
  unfold readCommands
  simp only [List.forall_mem_cons]
  exact ⟨.of_reader_eq rfl rfl .operatorname, .of_reader_eq rfl rfl .mathrm,
    .of_reader_eq rfl rfl .text, .of_reader_eq rfl rfl .placeholder,
    .of_reader_eq rfl rfl .infinity, List.forall_mem_nil _⟩

theorem hookedAsStandard_standardEntries : ∀ n ∈ standardEntries, n.HookedAsStandard := by
  have hplain {entries : List Notation} (h : entries.all (·.reader.isNone)) :
      ∀ n ∈ entries, n.HookedAsStandard := fun n hn =>
    .of_reader_eq_none (Option.isNone_iff_eq_none.mp (List.all_eq_true.mp h n hn))
  unfold standardEntries
  simp only [List.forall_mem_append]
  refine ⟨⟨⟨⟨⟨⟨⟨⟨?_, hookedAsStandard_arithmetic⟩, ?_⟩, ?_⟩, ?_⟩, ?_⟩, ?_⟩,
    hookedAsStandard_readCommands⟩, ?_⟩
  all_goals exact hplain rfl

/-- The hook of a standard notation is the one at its trigger. -/
theorem standard_of_reader_eq {n : Notation} {trigger : String} {hook : ReadingHook}
    (hn : n ∈ standardEntries) (htrigger : n.trigger = some trigger) (hreader : n.reader = some hook) :
    Readers.Standard n.followsOperand trigger hook := by
  obtain ⟨trigger', htrigger', hhook⟩ := hookedAsStandard_standardEntries n hn hook hreader
  rw [htrigger] at htrigger'
  cases htrigger'
  exact hhook

end Dictionary

end TexFormula
