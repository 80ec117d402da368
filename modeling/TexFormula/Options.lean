import TexFormula.Number.Format

/-!
# Options

The options of parsing and of serializing, and what the parser makes of tokens that the dictionary
does not know.
-/

namespace TexFormula

/-- What the parser makes of an unknown letter or command. -/
inductive Disposition where
  /-- A symbol. -/
  | symbol
  /-- A symbol that can be applied to arguments. -/
  | function
  /-- Nothing. -/
  | skip
  /-- An error node. -/
  | error
deriving DecidableEq, Repr, Inhabited

/-- How the disposition of an unknown token is found. -/
inductive UnknownTokenPolicy where
  /-- Commands are errors, `f`, `g`, `h` and names of several letters are functions, other letters
  are symbols. -/
  | standard
  | always (disposition : Disposition)
  | choose (choice : String → Disposition)

instance : Inhabited UnknownTokenPolicy := ⟨.standard⟩

namespace UnknownTokenPolicy

/-- The disposition of a token by its looks. -/
def standardDisposition (token : String) : Disposition :=
  match token.toList with
  | '\\' :: _ => .error
  | ['f'] => .function
  | ['g'] => .function
  | ['h'] => .function
  | _ :: _ :: _ => .function
  | _ => .symbol

def disposition : UnknownTokenPolicy → String → Disposition
  | .standard, token => standardDisposition token
  | .always disposition, _ => disposition
  | .choose choice, token => choice token

end UnknownTokenPolicy

structure ParseOptions where
  unknownTokens : UnknownTokenPolicy := .standard
  /-- An unknown command takes the groups that follow it. -/
  argumentsOfUnknownCommands : Bool := true
  /-- How deeply expressions may nest. -/
  maxDepth : Nat := 64
deriving Inhabited

structure WriteOptions where
  /-- The glyph of a product that must be visible. -/
  multiply : String := "\\times"
  /-- The glyph between factors that may stand side by side. -/
  invisibleMultiply : String := ""
  /-- The command that sets text. -/
  textCommand : String := "\\text"
  number : NumberFormat := {}
  /-- How deeply expressions may nest. -/
  maxDepth : Nat := 64
deriving DecidableEq, Repr, Inhabited

end TexFormula
