import TexFormula.Notation

/-!
# Pieces of LaTeX

The shapes that both the serializer and the writing hooks build: arguments in braces, lists with
commas, operands in parentheses where they bind too loosely, and applications by name.
-/

namespace TexFormula

namespace Text

/-- A text in braces. -/
def braced (text : String) : String :=
  "\x7b" ++ text ++ "\x7d"

/-- A text in parentheses. -/
def parenthesized (text : String) : String :=
  "(" ++ text ++ ")"

/-- The text starts with the character. -/
def startsWith (text : String) (c : Char) : Bool :=
  text.toList.head? == some c

/-- The text starts with an ASCII digit. -/
def startsWithDigit (text : String) : Bool :=
  text.toList.head?.any Char.isDigit

end Text

namespace Scribe

variable (scribe : Scribe)

/-- Writes an operand, in parentheses if it binds more loosely than `loosest`. -/
def wrap (e : Expression) (loosest : Precedence) : Except WriteFault String := do
  let text ← scribe.serialize e
  return if scribe.precedence e < loosest then Text.parenthesized text else text

/-- Writes arguments with commas between them. -/
def list (arguments : List Expression) : Except WriteFault String := do
  let texts ← arguments.mapM scribe.serialize
  return String.intercalate ", " texts

/-- Writes arguments in braces, one after the other, behind a text. -/
def bracedArguments (start : String) (arguments : List Expression) : Except WriteFault String :=
  arguments.foldlM (fun text argument => return text ++ Text.braced (← scribe.serialize argument))
    start

/-- Applies a name to arguments: `\name{a}{b}` for a command, `name(a, b)` for all else. -/
def application (name : String) (arguments : List Expression) : Except WriteFault String :=
  if Text.startsWith name '\\' then
    scribe.bracedArguments name arguments
  else do
    let items ← scribe.list arguments
    return scribe.symbol name ++ Text.parenthesized items

end Scribe

end TexFormula
