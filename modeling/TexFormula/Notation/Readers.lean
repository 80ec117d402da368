import TexFormula.Notation
import TexFormula.Text.Blank
import TexFormula.Text.Written

/-!
# Reading scripts, roots and texts

The reading hooks of the standard notations.
-/

namespace TexFormula.Readers

/-- A plus sign in front of an operand says nothing. -/
def unaryPlus : ReadingHook := fun _ => do
  let operand ← Reading.expression Precedence.addition.tighter
  return if operand.isMissing then none else some operand

/-- An argument set as a script on the operand before it. -/
def script (name trigger : String) : ReadingHook := fun base => do
  let argument ← Reading.argument trigger
  return some (.function name [base.getD .missing, argument])

def power : ReadingHook :=
  script "Power" "^"

def subscript : ReadingHook :=
  script "Subscript" "_"

/-- A square root, or a root with its index in brackets. -/
def squareRoot : ReadingHook := fun _ => do
  let index ← Reading.bracketGroup
  let radicand ← Reading.argument "\\sqrt"
  return some <| match index with
    | some index => .function "Root" [radicand, index]
    | none => .function "Sqrt" [radicand]

/-- Answers that something is missing, and reports it. -/
def missingArgument (command : String) : Reading (Option Expression) := do
  Reading.report .expectedArgument command
  return some .missing

/-- A name in a group of its own. Blanks in it do not count. -/
def identifier : ReadingHook := fun _ => do
  let some raw ← Reading.rawGroup | missingArgument "\\operatorname"
  match Text.withoutBlanks raw.toList with
  | [] => missingArgument "\\operatorname"
  | name => return some (.symbol (String.ofList name))

/-- Running text. -/
def text : ReadingHook := fun _ => do
  let some raw ← Reading.rawGroup | missingArgument "\\text"
  return some (.text (Text.unescape raw))

/-- A place left open, with anything in its groups. -/
def placeholder : ReadingHook := fun _ => do
  let _ ← Reading.bracketGroup
  let _ ← Reading.rawGroup
  return some .missing

def infinity : ReadingHook := fun _ =>
  return some (.ofDouble (.infinity false))

end TexFormula.Readers
