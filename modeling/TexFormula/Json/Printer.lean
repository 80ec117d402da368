import TexFormula.Json
import TexFormula.Number.Double.Layout

/-!
# Writing JSON

`Json.compact` writes a value without any space, `Json.pretty` on indented lines.
-/

namespace TexFormula.Json

/-- A hexadecimal digit. -/
def hexDigit (n : Nat) : Char :=
  Nat.digitChar n

/-- A character inside quotes. Quotes, backslashes and control characters are escaped. -/
def escapeChar (c : Char) : List Char :=
  match c with
  | '"' => ['\\', '"']
  | '\\' => ['\\', '\\']
  | '\x08' => ['\\', 'b']
  | '\x0c' => ['\\', 'f']
  | '\n' => ['\\', 'n']
  | '\r' => ['\\', 'r']
  | '\t' => ['\\', 't']
  | c =>
    if c.toNat < 0x20 then
      ['\\', 'u', '0', '0', hexDigit (c.toNat / 16), hexDigit (c.toNat % 16)]
    else
      [c]

/-- A text in quotes. -/
def quoted (text : String) : String :=
  String.ofList ('"' :: (text.toList.flatMap escapeChar ++ ['"']))

/-- A value that holds no others. -/
def leaf : Json → String
  | .null => "null"
  | .bool value => if value then "true" else "false"
  | .integer value => String.ofList (Digits.ofInt value)
  | .real value => Layout.json.write value
  | .string text => quoted text
  | .array _ => "[]"
  | .object _ => "\x7b\x7d"

mutual

/-- A value on one line without spaces. -/
def compact : Json → String
  | .array items => "[" ++ String.intercalate "," (compactItems items) ++ "]"
  | .object members => "\x7b" ++ String.intercalate "," (compactMembers members) ++ "\x7d"
  | json => json.leaf

def compactItems : List Json → List String
  | [] => []
  | item :: rest => compact item :: compactItems rest

def compactMembers : List (String × Json) → List String
  | [] => []
  | (key, value) :: rest => (quoted key ++ ":" ++ compact value) :: compactMembers rest

end

/-- A new line with an indent of two spaces a level. -/
def lineBreak (level : Nat) : String :=
  String.ofList ('\n' :: List.replicate (2 * level) ' ')

/-- Entries between brackets, each on a line of its own. -/
def block (opening closing : String) (level : Nat) (entries : List String) : String :=
  if entries.isEmpty then
    opening ++ closing
  else
    opening ++ lineBreak (level + 1) ++ String.intercalate ("," ++ lineBreak (level + 1)) entries ++
      lineBreak level ++ closing

mutual

/-- A value on indented lines, with its first line at the given level. -/
def prettyAt (level : Nat) : Json → String
  | .array items => block "[" "]" level (prettyItems (level + 1) items)
  | .object members => block "\x7b" "\x7d" level (prettyMembers (level + 1) members)
  | json => json.leaf

def prettyItems (level : Nat) : List Json → List String
  | [] => []
  | item :: rest => prettyAt level item :: prettyItems level rest

def prettyMembers (level : Nat) : List (String × Json) → List String
  | [] => []
  | (key, value) :: rest =>
    (quoted key ++ ": " ++ prettyAt level value) :: prettyMembers level rest

end

/-- A value on indented lines. -/
def pretty (json : Json) : String :=
  json.prettyAt 0

end TexFormula.Json
