import TexFormula.Notation.Spec
import TexFormula.Setting

/-!
# Options from settings

Options are records with a default for each field. Fields of other names are passed over; a field
that is there must have a fitting value and may be there only once. Null is a value only for the
fields of a notation that may be absent.
-/

namespace TexFormula

open Setting (Decoding Place field scalarField choose? optional?)

/-- The greatest size or count. -/
def greatestSize : Nat := twoPow 64 - 1

/-- The greatest exponent. -/
def greatestExponent : Int := twoPow 63 - 1

variable {π : Type}

/-- A size or count. -/
def size? (s : Setting π) : Option Nat :=
  s.natural?.filter (· ≤ greatestSize)

variable [Place π]

/-! ### Parsing -/

/-- The names of the dispositions. -/
def Disposition.names : List (String × Disposition) :=
  [("symbol", .symbol), ("function", .function), ("skip", .skip), ("error", .error)]

/-- The policy of a name: the standard one or always the same disposition. -/
def UnknownTokenPolicy.ofName? (name : String) : Option UnknownTokenPolicy :=
  if name = "default" then some .standard else (Disposition.names.lookup name).map .always

namespace ParseOptions

/-- The names of the fields. -/
def fieldNames : List String :=
  ["parseUnknownToken", "parseArgumentsOfUnknownLatexCommands", "maxDepth"]

/-- Reads parsing options. -/
def decode (s : Setting π) : Decoding ParseOptions := do
  let fields ← liftM (s.fields? fieldNames)
  let base : ParseOptions := {}
  return {
    unknownTokens := ← scalarField fields "parseUnknownToken" base.unknownTokens
      (·.text?.bind UnknownTokenPolicy.ofName?)
    argumentsOfUnknownCommands := ← scalarField fields "parseArgumentsOfUnknownLatexCommands"
      base.argumentsOfUnknownCommands (·.bool?)
    maxDepth := ← scalarField fields "maxDepth" base.maxDepth size? }

end ParseOptions

/-! ### Serializing -/

namespace NumberFormat

/-- The names of the styles. -/
def styleNames : List (String × NumberStyle) :=
  [("auto", .auto), ("scientific", .scientific), ("engineering", .engineering)]

/-- The names of the fields. -/
def fieldNames : List String :=
  ["precision", "decimalMarker", "groupSeparator", "exponentProduct", "beginRepeatingDigits",
    "endRepeatingDigits", "truncationMarker", "positiveInfinity", "negativeInfinity", "notANumber",
    "notation", "largeExponent", "smallExponent"]

/-- A power of ten. -/
def exponent? (s : Setting π) : Option Int :=
  s.integer?.filter fun n => -greatestExponent - 1 ≤ n && n ≤ greatestExponent

/-- Reads the fields of a number format. -/
def decodeFields (fields : List (String × π)) : Decoding NumberFormat := do
  let base : NumberFormat := {}
  let text (name default : String) : Decoding String :=
    scalarField fields name default (·.text?)
  return {
    precision := ← scalarField fields "precision" base.precision size?
    decimalMarker := ← text "decimalMarker" base.decimalMarker
    groupSeparator := ← text "groupSeparator" base.groupSeparator
    exponentProduct := ← text "exponentProduct" base.exponentProduct
    beginRepeatingDigits := ← text "beginRepeatingDigits" base.beginRepeatingDigits
    endRepeatingDigits := ← text "endRepeatingDigits" base.endRepeatingDigits
    truncationMarker := ← text "truncationMarker" base.truncationMarker
    positiveInfinity := ← text "positiveInfinity" base.positiveInfinity
    negativeInfinity := ← text "negativeInfinity" base.negativeInfinity
    notANumber := ← text "notANumber" base.notANumber
    style := ← scalarField fields "notation" base.style (choose? styleNames)
    largeExponent := ← scalarField fields "largeExponent" base.largeExponent exponent?
    smallExponent := ← scalarField fields "smallExponent" base.smallExponent exponent? }

/-- Reads a number format. -/
def decode (s : Setting π) : Decoding NumberFormat := do
  decodeFields (← liftM (s.fields? fieldNames))

end NumberFormat

namespace WriteOptions

/-- The names of the fields that are not part of the number format. -/
def fieldNames : List String :=
  ["multiply", "invisibleMultiply", "textCommand", "maxDepth"]

/-- Reads writing options. The fields of the number format stand among the others. All that has no
name of the other fields is taken by its looks first, be it part of the number format or not. -/
def decode (s : Setting π) : Decoding WriteOptions := do
  let fields ← liftM (s.record? (fieldNames ++ NumberFormat.fieldNames))
  let others := fields.filter fun (name, _) => !fieldNames.contains name
  let values ← others.mapM fun (name, place) => return (name, ← Setting.value place)
  let base : WriteOptions := {}
  return {
    multiply := ← scalarField fields "multiply" base.multiply (·.text?)
    invisibleMultiply := ← scalarField fields "invisibleMultiply" base.invisibleMultiply (·.text?)
    textCommand := ← scalarField fields "textCommand" base.textCommand (·.text?)
    number := ← NumberFormat.decodeFields values
    maxDepth := ← scalarField fields "maxDepth" base.maxDepth size? }

end WriteOptions

/-! ### Notations -/

namespace NotationSpec

/-- The names of the kinds. -/
def kindNames : List (String × Kind) :=
  [("symbol", .symbol), ("prefix", .prefixOp), ("infix", .infixOp), ("postfix", .postfixOp),
    ("matchfix", .matchfix), ("command", .command), ("function", .function)]

def associativityNames : List (String × Associativity) :=
  [("left", .left), ("right", .right), ("none", .none)]

/-- The names of the fields. -/
def fieldNames : List String :=
  ["name", "trigger", "latex", "kind", "precedence", "associativity", "variadic", "close",
    "arguments", "aliasOf", "parseOnly", "serializeOnly"]

def precedence? (s : Setting π) : Option Precedence :=
  (size? s).bind Precedence.ofNat?

/-- Reads the description of a notation, which must have a name. -/
def decode (s : Setting π) : Decoding NotationSpec := do
  let fields ← liftM (s.fields? fieldNames)
  let name ← liftM (fields.lookup "name")
  let text (name : String) : Decoding (Option String) :=
    scalarField fields name none (optional? (·.text?))
  let flag (name : String) : Decoding Bool :=
    scalarField fields name false (·.bool?)
  return {
    name := ← liftM (← Setting.look name).text?
    trigger := ← text "trigger"
    latex := ← text "latex"
    kind := ← scalarField fields "kind" .symbol (choose? kindNames)
    precedence := ← scalarField fields "precedence" none (optional? precedence?)
    associativity := ← scalarField fields "associativity" none
      (optional? (choose? associativityNames))
    variadic := ← flag "variadic"
    close := ← text "close"
    arguments := ← scalarField fields "arguments" none (optional? size?)
    aliasOf := ← text "aliasOf"
    parseOnly := ← flag "parseOnly"
    serializeOnly := ← flag "serializeOnly" }

end NotationSpec

end TexFormula
