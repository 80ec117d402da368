import TexFormula.Options
import TexFormula.Reading
import TexFormula.Text.Written

/-!
# Notations

One notation says by which trigger a name is read and how it is written. Most are described by their
kind, precedence and arity alone; a hook for either direction takes the place of the rule of its
kind.
-/

namespace TexFormula

/-- The place of a notation in a formula. -/
inductive Notation.Kind where
  | symbol
  /-- Stands before its operand. -/
  | prefixOp
  /-- Stands between operands; a variadic one takes a whole chain. -/
  | infixOp (variadic : Bool)
  /-- Stands after its operand. -/
  | postfixOp
  /-- Stands around its operands: the trigger opens and `close` closes. -/
  | matchfix (close : String)
  /-- A command followed by a fixed number of arguments. -/
  | command (arguments : Nat)
  /-- A named function, with or without parentheses around its argument. -/
  | function
  /-- What its hooks make of it. -/
  | custom
deriving DecidableEq, Repr

inductive Associativity where
  | left
  | right
  | none
deriving DecidableEq, Repr

/-- How many arguments a notation can write: from `min` up to `max`, or without an end. -/
structure Arity where
  min : Nat
  max : Option Nat
deriving DecidableEq, Repr

namespace Arity

def exactly (count : Nat) : Arity :=
  ⟨count, some count⟩

def atLeast (count : Nat) : Arity :=
  ⟨count, none⟩

def accepts (arity : Arity) (count : Nat) : Bool :=
  arity.min ≤ count && arity.max.all (count ≤ ·)

end Arity

/-- What a writing hook can use: the serializer of the nodes below, and what it knows about them. -/
structure Scribe where
  /-- Writes an expression one level down. -/
  serialize : Expression → Except WriteFault String
  /-- How tightly the text of an expression binds. -/
  precedence : Expression → Precedence
  /-- Writes a symbol. -/
  symbol : String → String
  options : WriteOptions

/-- How a notation writes its arguments. -/
abbrev WritingHook : Type :=
  Scribe → List Expression → Except WriteFault String

/-- One notation. -/
structure Notation where
  name : String
  trigger : Option String
  /-- What is written in place of the trigger. -/
  latex : Option String := none
  kind : Notation.Kind
  precedence : Precedence
  associativity : Associativity := .left
  arity : Arity
  /-- The name that this one stands for. -/
  aliasOf : Option String := none
  parseOnly : Bool := false
  serializeOnly : Bool := false
  reader : Option ReadingHook := none
  writer : Option WritingHook := none

namespace Notation

def ofSymbol (name trigger : String) : Notation :=
  { name, trigger := some trigger, kind := .symbol, precedence := .atomic, arity := .exactly 0 }

def ofPrefix (name trigger : String) (precedence : Precedence) : Notation :=
  { name, trigger := some trigger, kind := .prefixOp, precedence, arity := .exactly 1 }

def ofInfix (name trigger : String) (precedence : Precedence) : Notation :=
  { name, trigger := some trigger, kind := .infixOp false, precedence, arity := .exactly 2 }

def ofPostfix (name trigger : String) (precedence : Precedence) : Notation :=
  { name, trigger := some trigger, kind := .postfixOp, precedence, arity := .exactly 1 }

def ofMatchfix (name opening close : String) : Notation :=
  { name, trigger := some opening, kind := .matchfix close, precedence := .atomic,
    arity := .atLeast 0 }

def ofCommand (name trigger : String) (arguments : Nat) : Notation :=
  { name, trigger := some trigger, kind := .command arguments, precedence := .atomic,
    arity := .exactly arguments }

def ofFunction (name trigger : String) : Notation :=
  { name, trigger := some trigger, kind := .function, precedence := .atomic, arity := .atLeast 1 }

/-- A notation for reading alone, with a hook that does all the work. -/
def ofReader (name trigger : String) (reader : ReadingHook) : Notation :=
  { name, trigger := some trigger, kind := .custom, precedence := .atomic, arity := .atLeast 0,
    reader := some reader, parseOnly := true }

/-- A notation for writing alone, with a hook that does all the work. -/
def ofWriter (name : String) (writer : WritingHook) : Notation :=
  { name, trigger := none, kind := .custom, precedence := .atomic, arity := .atLeast 0,
    writer := some writer, serializeOnly := true }

/-- `name` is read and written as `target` is. -/
def ofAlias (name target : String) : Notation :=
  { name, trigger := none, kind := .symbol, precedence := .atomic, arity := .atLeast 0,
    aliasOf := some target }

/-- Takes a whole chain of two or more operands. -/
def variadic (n : Notation) : Notation :=
  { n with kind := .infixOp true, arity := .atLeast 2 }

def withArity (n : Notation) (min : Nat) (max : Option Nat) : Notation :=
  { n with arity := ⟨min, max⟩ }

def withLatex (n : Notation) (latex : String) : Notation :=
  { n with latex := some latex }

def withTrigger (n : Notation) (trigger : String) : Notation :=
  { n with trigger := some trigger }

def rightAssociative (n : Notation) : Notation :=
  { n with associativity := .right }

def nonAssociative (n : Notation) : Notation :=
  { n with associativity := .none }

def withReader (n : Notation) (reader : ReadingHook) : Notation :=
  { n with reader := some reader }

def withWriter (n : Notation) (writer : WritingHook) : Notation :=
  { n with writer := some writer }

def onlyParsed (n : Notation) : Notation :=
  { n with parseOnly := true }

def onlySerialized (n : Notation) : Notation :=
  { n with serializeOnly := true }

/-- What is written for the notation itself. -/
def glyph (n : Notation) : String :=
  (n.latex.or n.trigger).getD n.name

/-- The notation follows an operand. -/
def followsOperand (n : Notation) : Bool :=
  match n.kind with
  | .infixOp _ => true
  | .postfixOp => true
  | _ => false

def isMatchfix (n : Notation) : Bool :=
  match n.kind with
  | .matchfix _ => true
  | _ => false

def isVariadic (n : Notation) : Bool :=
  n.kind == .infixOp true

end Notation

end TexFormula
