import TexFormula.Dictionary
import TexFormula.Token.Lexer

/-!
# The state of a parse

The tokens read so far and those still to be read, the diagnostics, the closing delimiters that
enclosing notations wait for, and the levels of nesting taken. Tokens are read in place, with one
exception: an argument of one digit takes it off the front of a digit run, and what is left of the run
stays to be read.

States are values, so `attempt` takes a notation back by going on with the state from before it.
-/

namespace TexFormula

namespace Parser

/-- What does not change during a parse. -/
structure Env where
  source : String
  dictionary : Dictionary
  options : ParseOptions

structure State where
  /-- The tokens read, the latest first. -/
  seen : List Token := []
  /-- The tokens still to be read. The end of the text is not among them. -/
  rest : List Token
  /-- The diagnostics, the latest first. -/
  diagnostics : List Diagnostic := []
  /-- The closing delimiters waited for, the innermost first. -/
  closers : List String := []
  /-- The digit runs that were cut, the latest first: their places and what stood there before. -/
  cuts : List (Nat × Token) := []
  /-- The levels of nesting taken. -/
  depth : Nat := 0

end Parser

/-- What reads from a state and changes it, unless a fault ends the parse. -/
abbrev Parser (α : Type) : Type :=
  EStateM Fault Parser.State α

namespace Parser

namespace State

/-- The state before the first token of a source. -/
def ofSource (source : String) : State :=
  { rest := Token.meaningful source }

/-- The place among the tokens. -/
def position (s : State) : Nat :=
  s.seen.length

/-- All tokens, those read and those still to be read. -/
def tokens (s : State) : List Token :=
  s.seen.reverse ++ s.rest

/-- The state after reading `count` tokens, or all if there are fewer. -/
def forward (s : State) : (count : Nat) → State
  | 0 => s
  | count + 1 =>
    match s.rest with
    | [] => s
    | t :: rest => forward { s with seen := t :: s.seen, rest } count

/-- The state with one more diagnostic. -/
def record (s : State) (problem : Problem) (start stop : Nat) : State :=
  { s with diagnostics := .of problem (some (.between start stop)) :: s.diagnostics }

/-- Takes the first digit off the run that is next. -/
def cutDigit (s : State) : State :=
  match s.rest with
  | [] => s
  | t :: rest =>
    match t.digits? with
    | none => s
    | some run =>
      let left : Token := ⟨.digits (String.ofList (run.toList.drop 1)), t.start + 1, t.stop⟩
      { s with rest := left :: rest, cuts := (s.position, t) :: s.cuts }

end State

variable (env : Env)

/-- The end of the source as a token. -/
def Env.ending : Token :=
  ⟨.ending, env.source.utf8ByteSize, env.source.utf8ByteSize⟩

/-- The source text of some bytes. -/
def Env.slice (start stop : Nat) : String :=
  Text.slice env.source start stop

namespace State

variable (s : State)

/-- The token that is next. -/
def current : Token :=
  s.rest.headD env.ending

/-- The token after the one that is next. -/
def following : Token :=
  (s.rest.drop 1).headD env.ending

/-- The token read last; at the start of the text the one that is next. -/
def previous : Token :=
  s.seen.headD (s.current env)

/-- The commands that only set space. -/
def spacing : List String :=
  [",", ";", ":", "!", " ", "quad", "qquad", "enspace", "thinspace"]

def isSpacing (t : Token) : Bool :=
  match t.kind with
  | .command name => spacing.contains name
  | _ => false

/-- Kinds of token that end every expression. -/
def endsExpression : Token.Kind → Bool
  | .ending => true
  | .groupClose => true
  | .optionalClose => true
  | .punct c => c == ')' || c == '&'
  | .command name => name == "right" || name == "\\"
  | _ => false

/-- An expression cannot go on with the token that is next. -/
def atTerminator : Bool :=
  let t := s.current env
  endsExpression t.kind ||
    match s.closers.head?, t.trigger? with
    | some closer, some trigger => closer == trigger
    | _, _ => false

end State

/-! ### Steps -/

/-- The token that is next. -/
def current : Parser Token :=
  return (← get).current env

/-- Reads one token. -/
def advance : Parser Unit :=
  modify (·.forward 1)

/-- Reads several tokens. -/
def skip (count : Nat) : Parser Unit :=
  modify (·.forward count)

/-- Leaves out commands that only set space. -/
def skipSpacing : Parser Unit :=
  modify fun s => s.forward (s.rest.takeWhile State.isSpacing).length

def atTerminator : Parser Bool :=
  return (← get).atTerminator env

/-- Records a problem about some bytes. -/
def record (cause : Problem.Cause) (text : String) (start stop : Nat) : Parser Unit :=
  modify (·.record ⟨cause, text⟩ start stop)

/-- Records a problem about a token. -/
def recordAt (t : Token) (cause : Problem.Cause) (text : String) : Parser Unit :=
  record cause text t.start t.stop

/-- Records a problem about the token that is next. -/
def recordHere (cause : Problem.Cause) (text : String) : Parser Unit := do
  recordAt (← current env) cause text

variable {α : Type}

/-- Reads with one more closing delimiter to wait for. It is waited for no longer afterwards,
whatever the outcome. -/
def awaiting (close : String) (body : Parser α) : Parser α := fun s =>
  match body { s with closers := close :: s.closers } with
  | .ok value s' => .ok value { s' with closers := s'.closers.tail }
  | .error fault s' => .error fault { s' with closers := s'.closers.tail }

/-- Reads one level of nesting further down, if the limit allows one more. The level is left
afterwards, whatever the outcome. -/
def descend (body : Parser α) : Parser α := fun s =>
  if env.options.maxDepth ≤ s.depth then
    .error (.depthExceeded env.options.maxDepth) s
  else
    match body { s with depth := s.depth + 1 } with
    | .ok value s' => .ok value { s' with depth := s'.depth - 1 }
    | .error fault s' => .error fault { s' with depth := s'.depth - 1 }

/-- Reads what may turn out not to apply; in that case nothing has been read. -/
def attempt (body : Parser (Option α)) : Parser (Option α) := fun s =>
  match body s with
  | .ok none _ => .ok none s
  | result => result

/-- Reads the first of two things, and only if it does not apply the second. -/
def orElse (first second : Parser (Option α)) : Parser (Option α) := do
  match ← first with
  | some value => return some value
  | none => second

end Parser

end TexFormula
