import TexFormula.Notation

/-!
# Notations as data

What an option file says about a notation. It can do without most fields: `toNotation` fills them in
by the kind. Notations with hooks cannot be described like this.
-/

namespace TexFormula

/-- The kinds that a description can name. -/
inductive NotationSpec.Kind where
  | symbol
  | prefixOp
  | infixOp
  | postfixOp
  | matchfix
  | command
  | function
deriving DecidableEq, Repr

/-- The description of a notation. -/
structure NotationSpec where
  name : String
  trigger : Option String := none
  latex : Option String := none
  kind : NotationSpec.Kind := .symbol
  precedence : Option Precedence := none
  associativity : Option Associativity := none
  variadic : Bool := false
  close : Option String := none
  arguments : Option Nat := none
  aliasOf : Option String := none
  parseOnly : Bool := false
  serializeOnly : Bool := false
deriving Repr

namespace NotationSpec

/-- The notation of a kind, without regard to the other fields. -/
def ofKind (spec : NotationSpec) (trigger : String) : Notation :=
  match spec.kind with
  | .symbol => .ofSymbol spec.name trigger
  | .prefixOp => .ofPrefix spec.name trigger (spec.precedence.getD .negation)
  | .infixOp =>
    let operator := Notation.ofInfix spec.name trigger (spec.precedence.getD .multiplication)
    if spec.variadic then operator.variadic else operator
  | .postfixOp => .ofPostfix spec.name trigger (spec.precedence.getD .trailing)
  | .matchfix => .ofMatchfix spec.name trigger (spec.close.getD "")
  | .command => .ofCommand spec.name trigger (spec.arguments.getD 1)
  | .function => .ofFunction spec.name trigger

/-- The notation that is described. An alias has no kind of its own. -/
def toNotation (spec : NotationSpec) : Notation :=
  let base := match spec.aliasOf with
    | some target => Notation.ofAlias spec.name target
    | none => spec.ofKind (spec.trigger.getD "")
  { base with
    trigger := spec.trigger
    associativity := spec.associativity.getD base.associativity
    latex := spec.latex
    parseOnly := spec.parseOnly
    serializeOnly := spec.serializeOnly }

end NotationSpec

end TexFormula
