import TexFormula.Proofs.StandardHooks

/-!
# Notations that always decline

`Reading.Declines` holds of a reading program that asks whatever it likes and answers nothing in the
end, whatever the replies are. A notation with such a hook is `Idle`.

`Dictionary.IdleExtension d d'` says of a dictionary `d'` that at every trigger it tries some idle
notations first and then goes on as `d` does.
-/

namespace TexFormula

namespace Reading

variable {α : Type}

/-- The program never aborts and answers nothing in the end. -/
inductive Declines : Reading (Option α) → Prop where
  | done : Declines (.done none)
  | ask {request : Request} {next : request.Answer → Reading (Option α)}
      (h : ∀ reply, Declines (next reply)) : Declines (.ask request next)

/-- The program never aborts and does not ask how a name is written. -/
inductive Steady : Reading α → Prop where
  | done (value : α) : Steady (.done value)
  | ask {request : Request} {next : request.Answer → Reading α}
      (hrequest : ∀ name, request ≠ .glyph name) (h : ∀ reply, Steady (next reply)) :
      Steady (.ask request next)

end Reading

/-- The notation is no pair of delimiters, and its hook always declines. -/
structure Notation.Idle (n : Notation) : Prop where
  not_matchfix : n.isMatchfix = false
  declines : ∃ hook, n.reader = some hook ∧ ∀ lhs, (hook lhs).Declines

/-- The notation is read by the rule of its kind, or by a steady program. -/
def Notation.Steady (n : Notation) : Prop :=
  ∀ hook, n.reader = some hook → ∀ lhs, (hook lhs).Steady

namespace Notation

variable {n : Notation}

theorem Steady.of_reader_eq_none (h : n.reader = none) : n.Steady := by
  intro hook hhook
  rw [h] at hhook
  cases hhook

end Notation

/-! ### The standard notations are steady -/

namespace Readers

theorem steady_unaryPlus (lhs : Option Expression) : (unaryPlus lhs).Steady :=
  .ask nofun fun _ => .done _

theorem steady_script (name trigger : String) (lhs : Option Expression) :
    (script name trigger lhs).Steady :=
  .ask nofun fun _ => .done _

theorem steady_squareRoot (lhs : Option Expression) : (squareRoot lhs).Steady :=
  .ask nofun fun _ => .ask nofun fun _ => .done _

theorem steady_missingArgument (command : String) : (missingArgument command).Steady :=
  .ask nofun fun _ => .done _

theorem steady_identifier (lhs : Option Expression) : (identifier lhs).Steady := by
  refine .ask nofun fun raw => ?_
  cases raw with
  | none => exact steady_missingArgument _
  | some raw =>
    rw [Reading.bind]
    dsimp only
    split
    · exact steady_missingArgument _
    · exact .done _

theorem steady_text (lhs : Option Expression) : (text lhs).Steady := by
  refine .ask nofun fun raw => ?_
  cases raw with
  | none => exact steady_missingArgument _
  | some raw => exact .done _

theorem steady_placeholder (lhs : Option Expression) : (placeholder lhs).Steady :=
  .ask nofun fun _ => .ask nofun fun _ => .done _

theorem steady_infinity (lhs : Option Expression) : (infinity lhs).Steady :=
  .done _

theorem Standard.steady {follows : Bool} {trigger : String} {hook : ReadingHook}
    (h : Standard follows trigger hook) (lhs : Option Expression) : (hook lhs).Steady := by
  cases h with
  | unaryPlus => exact steady_unaryPlus lhs
  | power => exact steady_script _ _ lhs
  | subscript => exact steady_script _ _ lhs
  | squareRoot => exact steady_squareRoot lhs
  | operatorname => exact steady_identifier lhs
  | mathrm => exact steady_identifier lhs
  | text => exact steady_text lhs
  | placeholder => exact steady_placeholder lhs
  | infinity => exact steady_infinity lhs

end Readers

namespace Dictionary

/-- The standard notations with hooks all ask for nothing but what is in the source. -/
theorem steady_standardEntries : ∀ n ∈ standardEntries, n.Steady := by
  intro n hn hook hreader
  obtain ⟨trigger, -, hhook⟩ := hookedAsStandard_standardEntries n hn hook hreader
  exact hhook.steady

/-- At every trigger `d'` tries idle notations first and then those of `d`, all of them steady. -/
structure IdleExtension (d d' : Dictionary) : Prop where
  operands (trigger : String) :
    ∃ idle, d'.operands trigger = idle ++ d.operands trigger ∧ ∀ n ∈ idle, n.Idle
  operators (trigger : String) :
    ∃ idle, d'.operators trigger = idle ++ d.operators trigger ∧ ∀ n ∈ idle, n.Idle
  hasOperator (trigger : String) : d'.hasOperator trigger = d.hasOperator trigger
  steady {trigger : String} {n : Notation} : n ∈ d.readAt trigger → n.Steady

theorem IdleExtension.steady_operands {d d' : Dictionary} (h : IdleExtension d d')
    {trigger : String} {n : Notation} (hn : n ∈ d.operands trigger) : n.Steady :=
  h.steady (List.mem_filter.mp hn).1

theorem IdleExtension.steady_operators {d d' : Dictionary} (h : IdleExtension d d')
    {trigger : String} {n : Notation} (hn : n ∈ d.operators trigger) : n.Steady :=
  h.steady (List.mem_filter.mp hn).1

end Dictionary

end TexFormula
