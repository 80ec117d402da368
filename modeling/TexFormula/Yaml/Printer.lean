import TexFormula.Number.Double.Layout
import TexFormula.Json
import TexFormula.Yaml.Cursor

/-!
# Writing YAML

JSON values as YAML in block form. Sequences are not indented below the key or the item that they
belong to. A text stays plain if it then reads back as the same text; if not, it is quoted, or set
as a block if it has several lines.
-/

namespace TexFormula.Yaml

/-! ### Looking at a text -/

/-- The character separates words or lines. -/
def isSeparator (c : Char) : Bool :=
  isBlank c || isBreak c

/-- The character may be written as it is: no control character, no byte order mark, and no code
point that stands for no character. -/
def isPrintable (c : Char) : Bool :=
  let n := c.toNat
  n == 0xA || (0x20 ≤ n && n ≤ 0x7E) ||
    (0xA0 ≤ n && n != 0xFEFF && n != 0xFFFE && n != 0xFFFF)

/-- The text has two neighbours that meet the tests. -/
def hasPair (p q : Char → Bool) : List Char → Bool
  | a :: b :: rest => (p a && q b) || hasPair p q (b :: rest)
  | _ => false

/-- A text that starts with one of these is no plain scalar. -/
def isIndicator (c : Char) : Bool :=
  "#,[]\x7b\x7d&*!|>'\"%@\x60".toList.contains c

/-- The start of the text would be taken for something else. -/
def startsSpecial (cs : List Char) : Bool :=
  "---".toList.isPrefixOf cs || "...".toList.isPrefixOf cs ||
    match cs with
    | [] => false
    | c :: rest =>
      isIndicator c || ((c == '?' || c == ':' || c == '-') && rest.head?.all isSeparator)

/-- A comment or the value of a key would start within the text. -/
def endsEarly (cs : List Char) : Bool :=
  hasPair isSeparator (· == '#') cs || hasPair (· == ':') isSeparator cs ||
    cs.getLast? == some ':'

/-- Blanks or breaks at the ends of the text would be lost. -/
def hasLooseEnds (cs : List Char) : Bool :=
  let isLoose : Option Char → Bool := (·.any fun c => c == ' ' || isBreak c)
  isLoose cs.head? || isLoose cs.getLast?

/-- Each character may be written as it is, and no line ends in a space. -/
def isClean (cs : List Char) : Bool :=
  cs.all isPrintable && !hasPair (· == ' ') isBreak cs

/-- The text can stand without quotes. -/
def allowsPlain (cs : List Char) : Bool :=
  isClean cs && !cs.any isBreak && !hasLooseEnds cs && !startsSpecial cs && !endsEarly cs

/-- The text can stand in single quotes. -/
def allowsQuotes (cs : List Char) : Bool :=
  isClean cs && !hasPair isBreak (· == ' ') cs

/-- The text can stand as a block of lines. -/
def allowsBlock (cs : List Char) : Bool :=
  isClean cs && cs.getLast? != some ' '

/-- Without quotes the text would be read as something else than a text. -/
def isAmbiguous (text : String) : Bool :=
  match plainValue text with
  | .text _ => hasLeadingZero text.toList
  | _ => true

/-! ### Writing a text -/

def hexDigits (width n : Nat) : List Char :=
  let digits := (Nat.toDigits 16 n).map Char.toUpper
  List.replicate (width - digits.length) '0' ++ digits

/-- The characters that have an escape of one letter. -/
def shortEscapes : List (Nat × Char) :=
  [(0x0, '0'), (0x7, 'a'), (0x8, 'b'), (0x9, 't'), (0xA, 'n'), (0xB, 'v'), (0xC, 'f'), (0xD, 'r'),
    (0x1B, 'e'), (0x22, '"'), (0x5C, '\\'), (0x85, 'N'), (0x2028, 'L'), (0x2029, 'P')]

/-- A character inside double quotes. -/
def escapeChar (c : Char) : List Char :=
  let n := c.toNat
  match shortEscapes.lookup n with
  | some letter => ['\\', letter]
  | none =>
    if isPrintable c then [c]
    else if n < 0x100 then '\\' :: 'x' :: hexDigits 2 n
    else if n < 0x10000 then '\\' :: 'u' :: hexDigits 4 n
    else '\\' :: 'U' :: hexDigits 8 n

def doubleQuoted (cs : List Char) : List Char :=
  '"' :: (cs.flatMap escapeChar ++ ['"'])

def singleQuoted (cs : List Char) : List Char :=
  '\'' :: (cs.flatMap (fun c => if c = '\'' then ['\'', '\''] else [c]) ++ ['\''])

/-- How the line breaks at the end of a block are kept: a `-` if there are none, nothing for one, a
`+` for more. -/
def chomping (cs : List Char) : List Char :=
  match cs.reverse with
  | [] => ['-']
  | [c] => if isBreak c then ['+'] else ['-']
  | c :: d :: _ => if !isBreak c then ['-'] else if isBreak d then ['+'] else []

/-- A block of lines, with a mark for the indent if the text starts with a blank. -/
def block (cs : List Char) : List Char :=
  let indent := if cs.head?.any fun c => c == ' ' || isBreak c then ['2'] else []
  let lines := if cs.getLast? = some '\n' then cs.dropLast else cs
  '|' :: (indent ++ chomping cs ++ '\n' :: lines)

/-- A text in the plainest form that keeps it. -/
def text (content : String) : List Char :=
  let cs := content.toList
  if cs.contains '\n' then
    if allowsBlock cs then block cs else doubleQuoted cs
  else if !isAmbiguous content && allowsPlain cs then cs
  else if allowsQuotes cs then singleQuoted cs
  else doubleQuoted cs

/-- A key, which must be on one line. -/
def key (content : String) : List Char :=
  let cs := content.toList
  if !cs.any isBreak && !isAmbiguous content && allowsPlain cs then cs
  else if !cs.any isBreak && allowsQuotes cs then singleQuoted cs
  else doubleQuoted cs

/-! ### Writing a tree -/

/-- Two spaces at the start of all lines but the first and the empty ones. -/
def hang : List Char → List Char
  | [] => []
  | [c] => [c]
  | c :: d :: rest =>
    if isBreak c && !isBreak d then c :: ' ' :: ' ' :: hang (d :: rest) else c :: hang (d :: rest)

/-- Lines one below the other. -/
def stack (blocks : List (List Char)) : List Char :=
  List.intercalate ['\n'] blocks

/-- What holds no other value. -/
def leaf : Json → List Char
  | .null => "null".toList
  | .bool value => (if value then "true" else "false").toList
  | .integer value => Digits.ofInt value
  | .real value => (Layout.yaml.write value).toList
  | .string content => text content
  | .array _ => "[]".toList
  | .object _ => "\x7b\x7d".toList

mutual

/-- A value in block form, with its first line where it stands and the others at the margin. -/
def ofJson : Json → List Char
  | .array (item :: rest) => stack (ofItems (item :: rest))
  | .object (member :: rest) => stack (ofMembers (member :: rest))
  | json => leaf json

def ofItems : List Json → List (List Char)
  | [] => []
  | item :: rest => ('-' :: ' ' :: hang (ofJson item)) :: ofItems rest

def ofMembers : List (String × Json) → List (List Char)
  | [] => []
  | (name, value) :: rest =>
    let body := ofJson value
    let entry := match value with
      | .array (_ :: _) => ':' :: '\n' :: body
      | .object (_ :: _) => ':' :: hang ('\n' :: body)
      | _ => ':' :: ' ' :: hang body
    (key name ++ entry) :: ofMembers rest

end

/-- A whole document. -/
def document (json : Json) : String :=
  let body := match json with
    | .array _ => ofJson json
    | .object _ => ofJson json
    | single => hang (leaf single)
  String.ofList (body ++ ['\n'])

end TexFormula.Yaml
