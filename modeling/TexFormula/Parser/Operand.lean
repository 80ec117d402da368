import TexFormula.Parser.Group
import TexFormula.Parser.Numeral

/-!
# Operands

Reads one operand: a number, a group, whatever the notations of the dictionary make of a trigger, or
a letter or command that they do not know.
-/

namespace TexFormula.Parser

/-- An operand, and whether a parenthesis after it applies it to arguments. -/
structure Operand where
  expression : Expression
  callable : Bool := false

variable (env : Env) (inner : Inner)

/-! ### Built-in shapes -/

/-- A token that cannot be read. -/
def unexpected (t : Token) : Parser Operand := do
  let literal := env.slice t.start t.stop
  advance
  recordAt t .unexpectedToken literal
  return { expression := .error Problem.Cause.unexpectedToken.code literal }

/-- A number with a sign. In front of a power the sign is an operator: `-2^2` is `-(2^2)`. -/
def signedNumber (negative : Bool) : Parser (Option Operand) :=
  attempt do
    advance
    let value ← number env negative
    if (← current env).isPunct '^' then
      return none
    else
      return some { expression := value }

/-- The arguments in parentheses after something that can be applied. -/
def delimitedArguments : Parser (List Expression) := do
  advance
  let body ← groupBody env inner ")" (.punct ')')
  return body.sequenceItems

/-- An expression in parentheses; empty ones are an empty sequence. -/
def parenthesized : Parser Operand := do
  advance
  let body ← groupBody env inner ")" (.punct ')')
  return { expression := if body.isMissing then .function "Sequence" [] else body }

/-- An expression in braces. -/
def braced : Parser Operand := do
  advance
  let body ← groupBody env inner "\x7d" .groupClose
  return { expression := body }

/-- An expression between growing delimiters. If the opening one belongs to a notation that encloses
its operands, the notation is applied, whatever delimiter closes. -/
def leftRight : Parser Operand := do
  advance
  let trigger := (← current env).trigger?
  advance
  let body ← awaiting "\\right" (inner.expression .loosest)
  if (← current env).isCommand "right" then
    skip 2
  else
    recordHere env .expectedClosing "\\right"
  match trigger.bind fun trigger => (env.dictionary.operands trigger).find? (·.isMatchfix) with
  | some n => return { expression := .function n.name body.sequenceItems }
  | none =>
    if trigger = some "(" && body.isMissing then
      return { expression := .function "Sequence" [] }
    else
      return { expression := body }

/-- Reads the shapes that no notation can change, if one is next. -/
def builtin : Parser (Option Operand) := do
  let s ← get
  let t := s.current env
  match t.kind with
  | .digits _ => return some { expression := ← number env false }
  | .punct c =>
    if c == '(' then
      return some (← parenthesized env inner)
    else if c == '.' && startsNumber s.rest then
      return some { expression := ← number env false }
    else if (c == '-' || c == '+') && startsNumber (s.rest.drop 1) then
      signedNumber env (c == '-')
    else
      return none
  | .groupOpen => return some (← braced env inner)
  | .command name =>
    if name == "left" then return some (← leftRight env inner) else return none
  | .loneBackslash => return some (← unexpected env t)
  | _ => return none

/-! ### Notations -/

/-- The arguments of a command. -/
def arguments (command : String) : (count : Nat) → Parser (List Expression)
  | 0 => return []
  | count + 1 => do
    let first ← argument env inner command
    return first :: (← arguments command count)

/-- The arguments of a named function: in parentheses, or one product without any. -/
def functionArguments (command : String) : Parser (List Expression) := do
  skipSpacing
  if (← current env).isPunct '(' then
    delimitedArguments env inner
  else
    let argument ← inner.expression .multiplication
    if argument.isMissing then
      recordHere env .expectedArgument command
    return [argument]

/-- The operands between the delimiters of a notation. -/
def enclosed (close : String) : Parser (List Expression) := do
  let body ← awaiting close (inner.expression .loosest)
  if (← current env).trigger? == some close then
    advance
  else
    recordHere env .expectedClosing close
  return body.sequenceItems

/-- The operand of a notation that stands before it. -/
def prefixed (n : Notation) : Parser Expression := do
  let operand ← inner.expression n.precedence.tighter
  if operand.isMissing then
    recordHere env .expectedOperand n.glyph
  return operand

/-- What a hook has read can be applied if it is a symbol with the disposition of a function. -/
def ofHook (e : Expression) : Operand :=
  { expression := e
    callable := e.symbol?.any fun name =>
      env.options.unknownTokens.disposition name == .function }

/-- Applies a notation whose trigger has been read. -/
def applyNotation (n : Notation) : Parser (Option Operand) :=
  match n.reader with
  | some hook => return (← run env inner (hook none)).map (ofHook env)
  | none =>
    match n.kind with
    | .symbol => return some { expression := .symbol n.name }
    | .prefixOp => return some { expression := .function n.name [← prefixed env inner n] }
    | .matchfix close => return some { expression := .function n.name (← enclosed env inner close) }
    | .command count =>
      return some { expression := .function n.name (← arguments env inner n.glyph count) }
    | .function =>
      return some { expression := .function n.name (← functionArguments env inner n.glyph) }
    | .infixOp _ => return none
    | .postfixOp => return none
    | .custom => return none

/-- Applies the first notation that does not decline. -/
def firstNotation : List Notation → Parser (Option Operand)
  | [] => return none
  | n :: rest =>
    orElse (attempt do advance; applyNotation env inner n) (firstNotation rest)

/-! ### Unknown letters and commands -/

/-- An unknown letter. Nothing is answered if it is to be left out. -/
def unknownLetter (t : Token) (c : Char) : Parser (Option Operand) := do
  let name := String.singleton c
  advance
  match env.options.unknownTokens.disposition name with
  | .symbol => return some { expression := .symbol name }
  | .function => return some { expression := .symbol name, callable := true }
  | .skip => return none
  | .error =>
    recordAt t .unknownSymbol name
    return some { expression := .error Problem.Cause.unknownSymbol.code name }

/-- The closing delimiter and the closing token of the group that a token opens. -/
def groupClosing? : Token.Kind → Option (String × Token.Kind)
  | .optionalOpen => some ("]", .optionalClose)
  | .groupOpen => some ("\x7d", .groupClose)
  | _ => none

/-- The groups after an unknown command, and where the last one that is closed ends. -/
def unknownArguments : (fuel : Nat) → (stop : Nat) → Parser (List Expression × Nat)
  | 0, stop => return ([], stop)
  | fuel + 1, stop => do
    match groupClosing? (← current env).kind with
    | none => return ([], stop)
    | some (close, closing) =>
      advance
      let body ← awaiting close (inner.expression .loosest)
      let t ← current env
      if t.kind == closing then
        advance
        let (others, stop) ← unknownArguments fuel t.stop
        return (body :: others, stop)
      else
        recordHere env .expectedClosing close
        return ([body], stop)

/-- An unknown command with the groups it takes. Nothing is answered if it is to be left out. -/
def unknownCommand (t : Token) (name : String) : Parser (Option Operand) := do
  let command := "\\" ++ name
  let disposition := env.options.unknownTokens.disposition command
  advance
  let (arguments, stop) ←
    if env.options.argumentsOfUnknownCommands then do
      unknownArguments env inner (← get).rest.length t.stop
    else
      pure ([], t.stop)
  match disposition with
  | .skip => return none
  | .error =>
    record .unknownCommand command t.start stop
    return some
      { expression := .error Problem.Cause.unknownCommand.code (env.slice t.start stop) }
  | kind =>
    record .unknownSymbol command t.start stop
    if arguments.isEmpty then
      return some { expression := .symbol command, callable := kind == .function }
    else
      return some { expression := .function command arguments }

/-- Reads a token that the dictionary does not know. -/
def unknown : Parser (Option Operand) := do
  let t ← current env
  match t.kind with
  | .letter c => unknownLetter env t c
  | .command name => unknownCommand env inner t name
  | _ => return some (← unexpected env t)

/-! ### One operand -/

/-- Some notation can follow an operand at the token that is next. -/
def atOperator : Parser Bool :=
  return ((← current env).trigger?).any env.dictionary.hasOperator

/-- Reads an operand by the notations filed under the trigger that is next. -/
def notated : Parser (Option Operand) := do
  match (← current env).trigger? with
  | some trigger => firstNotation env inner (env.dictionary.operands trigger)
  | none => return none

/-- Reads one operand. Nothing is answered, and nothing but tokens to be left out has been read, if
none is next. -/
def operandWithin : (fuel : Nat) → Parser (Option Operand)
  | 0 => return none
  | fuel + 1 => do
    skipSpacing
    if ← atTerminator env then
      return none
    else
      orElse (orElse (builtin env inner) (notated env inner)) do
        if ← atOperator env then
          return none
        else
          orElse (unknown env inner) (operandWithin fuel)

/-- Reads one operand, if one is next. Each token left out is one step. -/
def operand : Parser (Option Operand) := do
  operandWithin env inner (← get).rest.length

end TexFormula.Parser
