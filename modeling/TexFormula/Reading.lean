import TexFormula.Diagnostic
import TexFormula.Expression
import TexFormula.Precedence

/-!
# Reading programs

A notation may say how it is read by a program: a tree of requests to the parser, each followed by
what to do with the answer. The parser is their only interpreter, so a program can do nothing that
the parser does not offer, and what holds of all requests holds of all programs.
-/

namespace TexFormula

/-- What a reading program can ask for. -/
inductive Request where
  /-- An expression whose operators bind at least as tightly as the given precedence. -/
  | expression (loosest : Precedence)
  /-- The argument of a command: a group in braces or a single token. -/
  | argument (command : String)
  /-- A group in braces, if one is next. -/
  | braceGroup
  /-- A group in brackets, if one is next. -/
  | bracketGroup
  /-- The source text between the braces of a group, if one is next. -/
  | rawGroup
  /-- Leaves out commands that only set space. -/
  | skipSpacing
  /-- Reports a problem at the token that is next. -/
  | report (problem : Problem)
  /-- How the dictionary writes a name, if it has it. -/
  | glyph (name : String)
deriving DecidableEq, Repr

/-- The type of the answer to a request. -/
abbrev Request.Answer : Request → Type
  | .expression _ => Expression
  | .argument _ => Expression
  | .braceGroup => Option Expression
  | .bracketGroup => Option Expression
  | .rawGroup => Option String
  | .skipSpacing => Unit
  | .report _ => Unit
  | .glyph _ => Option String

/-- A program that reads a value of type `α`. -/
inductive Reading (α : Type) : Type where
  | done (value : α)
  | abort (fault : Fault)
  | ask (request : Request) (next : request.Answer → Reading α)

namespace Reading

variable {α β : Type}

/-- Runs one program after the other. -/
def bind : Reading α → (α → Reading β) → Reading β
  | .done value, next => next value
  | .abort fault, _ => .abort fault
  | .ask request rest, next => .ask request fun answer => (rest answer).bind next

instance : Monad Reading where
  pure := done
  bind := bind

/-- The program of one request. -/
def perform (request : Request) : Reading request.Answer :=
  .ask request .done

def expression (loosest : Precedence) : Reading Expression :=
  perform (.expression loosest)

def argument (command : String) : Reading Expression :=
  perform (.argument command)

def braceGroup : Reading (Option Expression) :=
  perform .braceGroup

def bracketGroup : Reading (Option Expression) :=
  perform .bracketGroup

def rawGroup : Reading (Option String) :=
  perform .rawGroup

def skipSpacing : Reading Unit :=
  perform .skipSpacing

def report (cause : Problem.Cause) (text : String) : Reading Unit :=
  perform (.report ⟨cause, text⟩)

def glyph (name : String) : Reading (Option String) :=
  perform (.glyph name)

end Reading

/-- How a notation reads what follows its trigger, given the operand before it if there is one. The
program answers nothing if the notation does not apply. -/
abbrev ReadingHook : Type :=
  Option Expression → Reading (Option Expression)

end TexFormula
