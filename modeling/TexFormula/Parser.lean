import TexFormula.Parser.Expression

/-!
# Parsing

Reads a whole source. Problems in it do not stop the parse: they become error nodes in the tree and
diagnostics beside it.
-/

namespace TexFormula

/-- The tree of a source and the diagnostics in the order in which they were found. -/
structure Parsed where
  expression : Expression
  diagnostics : List Diagnostic

namespace Parsed

/-- Some diagnostic is an error and not a warning. -/
def hasErrors (p : Parsed) : Bool :=
  p.diagnostics.any Diagnostic.isError

end Parsed

namespace Parser

variable (env : Env)

/-- Answers a request from outside, before any level of nesting is taken. -/
def perform (request : Request) : Parser request.Answer :=
  answer env env.readers request

/-- Reads expressions up to the end of the text. The tokens between them, which none can go on
with, become errors. -/
def parts (readers : Inner) : (fuel : Nat) → Parser (List Expression)
  | 0 => return []
  | fuel + 1 => do
    let e ← readers.expression .loosest
    let here := if e.isMissing then [] else [e]
    if (← get).rest.isEmpty then
      return here
    else
      let stray ← unexpected env (← current env)
      return here ++ stray.expression :: (← parts readers fuel)

/-- One expression for several: nothing, the only one, or a sequence. -/
def assemble : List Expression → Expression
  | [] => .missing
  | [e] => e
  | es => .function "Sequence" es

/-- Reads up to the end of the text. -/
def root : Parser Expression := do
  return assemble (← parts env env.readers ((← get).rest.length + 1))

end Parser

/-- Parses a source. -/
def parse (dictionary : Dictionary) (options : ParseOptions) (source : String) :
    Except Fault Parsed :=
  match Parser.root ⟨source, dictionary, options⟩ (.ofSource source) with
  | .ok expression s => .ok ⟨expression, s.diagnostics.reverse⟩
  | .error fault _ => .error fault

end TexFormula
