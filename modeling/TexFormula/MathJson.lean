import TexFormula.Expression
import TexFormula.Json.Printer
import TexFormula.Json.Reader

/-!
# MathJSON

Expressions as JSON. `encode` writes an expression in its shortest form: symbols as strings, texts
as strings in single quotes, applications as arrays with the head in front, and objects for what
has no shorter form. `decode` reads that form and the long forms, objects that name what they hold.
-/

namespace TexFormula.MathJson

/-- What keeps a JSON value from being an expression. -/
inductive Fault where
  | emptySymbol
  | emptyFunction
  | invalidNumber (payload : String)
  | unexpectedValue (json : Json)
  | notJson
deriving Repr

def Fault.message : Fault → String
  | .emptySymbol => "Symbols cannot be empty"
  | .emptyFunction => "A function expression needs a head"
  | .invalidNumber payload => "Invalid number payload `" ++ payload ++ "`"
  | .unexpectedValue json => "Unexpected MathJSON value: " ++ json.compact
  | .notJson => "Invalid JSON"

/-! ### Writing -/

/-- A number by its payload. -/
def payload (text : String) : Json :=
  .object [("num", .string text)]

/-- Whole doubles below 2 ^ 53 are integers. The values that JSON has no numbers for are payloads,
and so are decimals. -/
def encodeNumber : Number → Json
  | .machine .nan => payload "NaN"
  | .machine (.infinity negative) => payload (if negative then "-Infinity" else "+Infinity")
  | .machine value =>
    match value.toInt? with
    | some n => if n.natAbs < twoPow 53 then .integer n else .real value
    | none => .real value
  | .decimal value => payload value.text

mutual

def encode : Expression → Json
  | .number value => encodeNumber value
  | .symbol name => .string name
  | .text content => .string ("'" ++ content ++ "'")
  | .apply head arguments => .array (encode head :: encodeItems arguments)
  | .dictionary entries => .object [("dict", .object (encodeEntries entries))]
  | .missing => .string "Missing"

def encodeItems : List Expression → List Json
  | [] => []
  | e :: rest => encode e :: encodeItems rest

def encodeEntries : List (String × Expression) → List (String × Json)
  | [] => []
  | (key, e) :: rest => (key, encode e) :: encodeEntries rest

end

/-! ### Reading -/

/-- The text between single quotes. -/
def unquoted? (cs : List Char) : Option (List Char) :=
  match cs with
  | '\'' :: rest => if rest.getLast? = some '\'' then some rest.dropLast else none
  | _ => none

/-- A string is a text in single quotes or the name of a symbol. -/
def ofString (text : String) : Except Fault Expression :=
  match unquoted? text.toList with
  | some content => .ok (.text (String.ofList content))
  | none =>
    if text = "" then .error .emptySymbol
    else if text = "Missing" then .ok .missing
    else .ok (.symbol text)

/-- The number of an object that holds a payload or a number. -/
def ofPayload : Json → Except Fault Expression
  | .string text =>
    match Number.ofPayload? text with
    | some value => .ok (.number value)
    | none => .error (.invalidNumber text)
  | .integer n => .ok (.ofDouble (.ofInt n))
  | .real value => .ok (.ofDouble value)
  | other => .error (.invalidNumber other.compact)

/-- The number, symbol or text that an object holds. -/
def ofLeafObject? (members : List (String × Json)) : Option (Except Fault Expression) :=
  match members.lookup "num", members.lookup "sym", members.lookup "str" with
  | some number, _, _ => some (ofPayload number)
  | none, some (.string name), _ =>
    some (if name = "" then .error .emptySymbol else .ok (.symbol name))
  | none, _, some (.string content) => some (.ok (.text content))
  | none, _, _ => none

mutual

/-- Reads an expression. Of the forms that an object may have, the first one that fits counts. -/
def decode : Json → Except Fault Expression
  | .null => .error (.unexpectedValue .null)
  | .bool value => .ok (.symbol (if value then "True" else "False"))
  | .integer n => .ok (.ofDouble (.ofInt n))
  | .real value => .ok (.ofDouble value)
  | .string text => ofString text
  | .array items => decodeFunction items
  | .object members =>
    ((ofLeafObject? members).or <| (functionMember? members).or <| dictionaryMember? members).getD
      (.error (.unexpectedValue (.object members)))

/-- A head and its arguments. -/
def decodeFunction : List Json → Except Fault Expression
  | [] => .error .emptyFunction
  | head :: items => do
    let head ← decode head
    return .apply head (← decodeItems items)

def decodeItems : List Json → Except Fault (List Expression)
  | [] => .ok []
  | item :: rest => do
    let first ← decode item
    return first :: (← decodeItems rest)

/-- The application under the key `fn`. -/
def functionMember? : List (String × Json) → Option (Except Fault Expression)
  | [] => none
  | (key, value) :: rest =>
    if key = "fn" then
      match value with
      | .array items => some (decodeFunction items)
      | _ => none
    else
      functionMember? rest

/-- The dictionary under the key `dict`. -/
def dictionaryMember? : List (String × Json) → Option (Except Fault Expression)
  | [] => none
  | (key, value) :: rest =>
    if key = "dict" then
      match value with
      | .object members => some ((decodeEntries members).map .dictionary)
      | _ => none
    else
      dictionaryMember? rest

def decodeEntries : List (String × Json) → Except Fault (List (String × Expression))
  | [] => .ok []
  | (key, value) :: rest => do
    let first ← decode value
    return (key, first) :: (← decodeEntries rest)

end

/-! ### As text -/

/-- Reads an expression from JSON text. -/
def ofText (source : String) : Except Fault Expression :=
  match Json.ofText? source with
  | some json => decode json.canonical
  | none => .error .notJson

/-- The JSON text of an expression. -/
def toText (e : Expression) : String :=
  (encode e).compact

end TexFormula.MathJson
