import TexFormula.Parser.State

/-!
# Groups and arguments

What is read one level down: expressions between delimiters, and the arguments of commands. `Inner`
holds the readers of that level, so that nothing here depends on how they are made.

`answer` is the parser's answer to a request of a reading program, and `run` interprets a whole
program.
-/

namespace TexFormula.Parser

/-- The readers of the next level of nesting. -/
structure Inner where
  /-- Reads an expression whose operators bind at least as tightly as the given precedence. -/
  expression : Precedence → Parser Expression
  /-- Reads one operand, if one is next. -/
  operand : Parser (Option Expression)

/-- The place of the brace that closes a group, `depth` groups up from the first token. -/
def closing? : (depth : Nat) → List Token → Option Nat
  | _, [] => none
  | depth, t :: rest =>
    match t.kind, depth with
    | .groupOpen, depth => (closing? (depth + 1) rest).map (· + 1)
    | .groupClose, 0 => some 0
    | .groupClose, depth + 1 => (closing? depth rest).map (· + 1)
    | _, depth => (closing? depth rest).map (· + 1)

variable (env : Env) (inner : Inner)

/-- Reads up to a closing token and the token itself. If another one is next, it is reported and
left. -/
def groupBody (close : String) (closing : Token.Kind) : Parser Expression := do
  let body ← awaiting close (inner.expression .loosest)
  if (← current env).kind == closing then
    advance
  else
    recordHere env .expectedClosing close
  return body

/-- A group in braces, if one is next. -/
def braceGroup : Parser (Option Expression) := do
  skipSpacing
  if (← current env).kind == .groupOpen then
    advance
    return some (← groupBody env inner "\x7d" .groupClose)
  else
    return none

/-- A group in brackets, if one is next. -/
def bracketGroup : Parser (Option Expression) := do
  skipSpacing
  if (← current env).kind == .optionalOpen then
    advance
    return some (← groupBody env inner "]" .optionalClose)
  else
    return none

/-- Takes one digit off the digit run that is next. -/
def firstDigit (run : String) : Parser Expression := do
  match run.toList with
  | [] => return .missing
  | [_] => advance
  | _ => modify (·.cutDigit)
  return ((Number.ofLiteral? (String.ofList (run.toList.take 1))).map .number).getD .missing

/-- The argument of a command or script: a group in braces or a single token, and of a digit run
only its first digit. -/
def argument (command : String) : Parser Expression := do
  match ← braceGroup env inner with
  | some group => return group
  | none =>
    match (← current env).digits? with
    | some run => firstDigit run
    | none =>
      match ← inner.operand with
      | some operand => return operand
      | none =>
        recordHere env .expectedArgument command
        return .missing

/-- The source text between the braces of the group that is next, or up to the end of the source. -/
def rawGroup : Parser (Option String) := do
  skipSpacing
  let s ← get
  match s.rest with
  | [] => return none
  | opening :: rest =>
    if opening.kind != .groupOpen then
      return none
    else
      match closing? 0 rest with
      | some count =>
        skip (count + 2)
        return some (env.slice opening.stop ((← get).previous env).start)
      | none =>
        skip (rest.length + 1)
        recordHere env .expectedClosing "\x7d"
        return some (env.slice opening.stop env.ending.start)

/-- Answers a request. -/
def answer : (request : Request) → Parser request.Answer
  | .expression loosest => inner.expression loosest
  | .argument command => argument env inner command
  | .braceGroup => braceGroup env inner
  | .bracketGroup => bracketGroup env inner
  | .rawGroup => rawGroup env
  | .skipSpacing => skipSpacing
  | .report problem => recordHere env problem.cause problem.text
  | .glyph name => return (env.dictionary.lookup name).map (·.glyph)

/-- Runs a reading program. -/
def run {α : Type} : Reading α → Parser α
  | .done value => return value
  | .abort fault => throw fault
  | .ask request next => do
    let reply ← answer env inner request
    run (next reply)

end TexFormula.Parser
