import TexFormula.Number

/-!
# Expressions

The trees of MathJSON: numbers, symbols, texts, applications of a head to arguments, dictionaries,
and a mark for what is missing.
-/

namespace TexFormula

inductive Expression where
  | number (value : Number)
  | symbol (name : String)
  | text (content : String)
  /-- A head applied to arguments. The head is a symbol most of the time, but any expression can
  stand there. -/
  | apply (head : Expression) (arguments : List Expression)
  /-- Values under keys, which ascend. -/
  | dictionary (entries : List (String × Expression))
  | missing
deriving Repr, Inhabited

namespace Expression

/-- A named function applied to arguments. -/
def function (name : String) (arguments : List Expression) : Expression :=
  .apply (.symbol name) arguments

def ofDouble (value : Double) : Expression :=
  .number (.machine value)

/-- What stands for a faulty piece of source in the tree: its text and the code of the fault. -/
def error (code latex : String) : Expression :=
  function "Error" [function "LatexString" [.text latex], .text code]

def symbol? : Expression → Option String
  | .symbol name => some name
  | _ => none

def number? : Expression → Option Number
  | .number value => some value
  | _ => none

/-- The name of the head, for an application of a symbol. -/
def headName? : Expression → Option String
  | .apply head _ => head.symbol?
  | _ => none

/-- The arguments of an application; none for all else. -/
def arguments : Expression → List Expression
  | .apply _ arguments => arguments
  | _ => []

def isMissing : Expression → Bool
  | .missing => true
  | _ => false

def isNumber (e : Expression) : Bool :=
  e.number?.isSome

/-- The first text among the arguments of an error. -/
def errorCode? (e : Expression) : Option String :=
  if e.headName? = some "Error" then
    e.arguments.findSome? fun
      | .text content => some content
      | _ => none
  else
    none

/-- The items of a sequence, or the expression itself as the only item. -/
def sequenceItems : Expression → List Expression
  | .missing => []
  | .apply (.symbol "Sequence") arguments => arguments
  | e => [e]

end Expression

end TexFormula
