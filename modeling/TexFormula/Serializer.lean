import TexFormula.Dictionary
import TexFormula.Notation.Scribe
import TexFormula.Text.Written

/-!
# Serializing

Expressions as LaTeX. `Serializer.node` writes one node, given a way to write the nodes below it;
`Serializer.within` ties the knot for a given number of levels, and `Serializer.serialize` allows as
many levels as the options do.
-/

namespace TexFormula

/-- The notations and the options to write with. -/
structure Serializer where
  dictionary : Dictionary
  options : WriteOptions

namespace Serializer

variable (s : Serializer)

/-- Operators bind as tightly as their notation says; all else has no loose ends. -/
def precedenceOf (e : Expression) : Precedence :=
  match e.headName?.bind s.dictionary.lookup with
  | some n =>
    match n.kind with
    | .infixOp _ => n.precedence
    | .prefixOp => n.precedence
    | .postfixOp => n.precedence
    | _ => .atomic
  | none => .atomic

/-- A symbol by its glyph; without one, a command or a single character as it is and any other name
as an operator name. -/
def symbol (name : String) : String :=
  match (s.dictionary.lookup name).filter (·.kind == .symbol) with
  | some n => n.glyph
  | none =>
    if Text.startsWith name '\\' || name.length = 1 then name
    else "\\operatorname" ++ Text.braced name

/-- What is handed to the notations, for writing the nodes below with `below`. -/
def scribe (below : Expression → Except WriteFault String) : Scribe where
  serialize := below
  precedence := s.precedenceOf
  symbol := s.symbol
  options := s.options

/-- How tightly the operand at a place of a chain must bind to stand there without parentheses. -/
def operandPrecedence (n : Notation) (index last : Nat) : Precedence :=
  match n.associativity with
  | .left => if index = 0 then n.precedence else n.precedence.tighter
  | .right => if index = last then n.precedence else n.precedence.tighter
  | .none => n.precedence.tighter

/-- Writes the operand at a place of a chain behind those before it. -/
def addOperand (scribe : Scribe) (n : Notation) (last : Nat) (written : String)
    (operand : Expression × Nat) : Except WriteFault String := do
  let text ← scribe.wrap operand.1 (operandPrecedence n operand.2 last)
  let start := if operand.2 = 0 then written else Text.join written n.glyph
  return Text.join start text

/-- Writes operands with the glyph of their operator between them. -/
def chain (scribe : Scribe) (n : Notation) (operands : List Expression) :
    Except WriteFault String :=
  operands.zipIdx.foldlM (addOperand scribe n (operands.length - 1)) ""

/-- Writes an application of a notation by the rule of its kind. -/
def byKind (scribe : Scribe) (n : Notation) (name : String) (arguments : List Expression) :
    Except WriteFault String :=
  match n.kind with
  | .infixOp _ => chain scribe n arguments
  | .prefixOp =>
    match arguments with
    | operand :: _ => do
      let text ← scribe.wrap operand n.precedence.tighter
      return Text.join n.glyph text
    | [] => throw (.fatal (.missingOperand n.name))
  | .postfixOp =>
    match arguments with
    | operand :: _ => do
      let text ← scribe.wrap operand n.precedence
      return text ++ n.glyph
    | [] => throw (.fatal (.missingOperand n.name))
  | .matchfix close => do
    let items ← scribe.list arguments
    return n.glyph ++ items ++ close
  | .command _ => scribe.bracedArguments n.glyph arguments
  | .function => do
    let items ← scribe.list arguments
    return n.glyph ++ Text.parenthesized items
  | .symbol => scribe.application name arguments
  | .custom => scribe.application name arguments

/-- Writes an application of a name. -/
def named (scribe : Scribe) (name : String) (arguments : List Expression) :
    Except WriteFault String :=
  match s.dictionary.lookup name with
  | none => scribe.application name arguments
  | some n =>
    match n.writer with
    | some hook => hook scribe arguments
    | none =>
      if n.arity.accepts arguments.length then byKind scribe n name arguments
      else scribe.application name arguments

/-- Writes one node. -/
def node (below : Expression → Except WriteFault String) :
    Expression → Except WriteFault String
  | .number value => return s.options.number.write value
  | .symbol name => return s.symbol name
  | .text content => return s.options.textCommand ++ Text.braced (Text.escape content)
  | .dictionary _ => throw (.notSerializable "dictionary")
  | .missing => return "\\placeholder"
  | .apply (.symbol name) arguments => s.named (s.scribe below) name arguments
  | .apply head arguments => do
    let text ← (s.scribe below).wrap head .atomic
    let items ← (s.scribe below).list arguments
    return text ++ Text.parenthesized items

/-- Writes an expression with at most the given number of levels. -/
def within : (levels : Nat) → Expression → Except WriteFault String
  | 0, _ => throw (.fatal (.depthExceeded s.options.maxDepth))
  | levels + 1, e => s.node (within levels) e

/-- Writes an expression. -/
def serialize (e : Expression) : Except WriteFault String :=
  s.within s.options.maxDepth e

/-- What hooks are given at the top of an expression, before any level is taken. -/
def topScribe : Scribe :=
  s.scribe s.serialize

end Serializer

/-- The LaTeX of an expression, and what kept it from being written. -/
structure Serialized where
  latex : String
  diagnostics : List Diagnostic

namespace Serializer

/-- Writes an expression. One that cannot be written gives the empty text and a diagnostic. -/
def run (s : Serializer) (e : Expression) : Except Fault Serialized :=
  match s.serialize e with
  | .ok latex => .ok ⟨latex, []⟩
  | .error (.fatal fault) => .error fault
  | .error fault => .ok ⟨"", [.of (.ofWriteFault fault) none]⟩

end Serializer

end TexFormula
