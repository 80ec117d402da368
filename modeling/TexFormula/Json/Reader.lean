import TexFormula.Json.Written

/-!
# Reading JSON

`Json.Written.ofText?` reads the tree of a whole text, `Json.ofText?` its value.
-/

namespace TexFormula.Json

/-- What reads something off the front of a text. -/
abbrev Reader (α : Type) : Type :=
  StateT (List Char) Option α

namespace Reader

/-- The characters that may stand between tokens. -/
def isBlank (c : Char) : Bool :=
  c == ' ' || c == '\n' || c == '\t' || c == '\r'

def skipBlanks : Reader Unit :=
  modify (·.dropWhile isBlank)

/-- The next character, which is left in place. -/
def peek : Reader (Option Char) :=
  return (← get).head?

/-- Takes the next character. -/
def next : Reader Char := do
  match ← get with
  | [] => failure
  | c :: rest =>
    set rest
    return c

/-- Takes a character that has to stand there. -/
def expect (c : Char) : Reader Unit := do
  if (← next) = c then return () else failure

/-- Takes a word that has to stand there. -/
def word (letters : String) : Reader Unit :=
  letters.toList.forM expect

/-- Takes a character if it is the next one. -/
def accept (c : Char) : Reader Bool := do
  match ← get with
  | d :: rest =>
    if c = d then
      set rest
      return true
    else
      return false
  | [] => return false

/-! ### Numbers -/

def digits : Reader (List Char) :=
  modifyGet fun cs => (cs.takeWhile Char.isDigit, cs.dropWhile Char.isDigit)

/-- At least one digit. -/
def someDigits : Reader (List Char) := do
  let run ← digits
  if run.isEmpty then failure else return run

/-- The digits before the point: zero alone or a run that does not start with it. -/
def wholeDigits : Reader (List Char) := do
  let run ← someDigits
  if run.head? = some '0' && run.length ≠ 1 then failure else return run

/-- Takes the letter of an exponent if it is the next character. -/
def acceptExponentMark : Reader Bool := do
  if ← accept 'e' then return true else accept 'E'

/-- An exponent, if one is next. -/
def exponent : Reader (Option Int) := do
  if ← acceptExponentMark then
    if ← accept '-' then
      return some (-(Digits.value (← someDigits) : Int))
    else
      let _ ← accept '+'
      return some (Digits.value (← someDigits))
  else
    return none

/-- A number, which is kept by its parts. -/
def numeral : Reader Numeral := do
  let negative ← accept '-'
  let whole ← wholeDigits
  let fraction ← if ← accept '.' then some <$> someDigits else pure none
  return { negative, whole, fraction, exponent := ← exponent }

/-! ### Texts -/

/-- The number that a hexadecimal digit stands for. -/
def hexDigit? (c : Char) : Option Nat :=
  if c.isDigit then some (c.toNat - '0'.toNat)
  else if 'a' ≤ c && c ≤ 'f' then some (c.toNat - 'a'.toNat + 10)
  else if 'A' ≤ c && c ≤ 'F' then some (c.toNat - 'A'.toNat + 10)
  else none

/-- The number that a run of hexadecimal digits stands for. -/
def hexValue? (cs : List Char) : Option Nat :=
  cs.foldlM (fun n c => (hexDigit? c).map (16 * n + ·)) 0

/-- What stands behind the backslash of a short escape. -/
def escaped? (c : Char) : Option Char :=
  [('"', '"'), ('\\', '\\'), ('/', '/'), ('b', '\x08'), ('f', '\x0c'), ('n', '\n'), ('r', '\r'),
    ('t', '\t')].lookup c

/-- The code units of a text up to its closing quote, and what follows. Characters that are not
escaped are one unit each. -/
def units : List Char → Option (List Nat × List Char)
  | [] => none
  | '"' :: rest => some ([], rest)
  | '\\' :: 'u' :: a :: b :: c :: d :: rest => do
    let unit ← hexValue? [a, b, c, d]
    let (others, rest) ← units rest
    return (unit :: others, rest)
  | '\\' :: c :: rest => do
    let unit ← escaped? c
    let (others, rest) ← units rest
    return (unit.toNat :: others, rest)
  | c :: rest => do
    if c.toNat < 0x20 then
      none
    else
      let (others, rest) ← units rest
      return (c.toNat :: others, rest)

/-- A text, which is kept by its code units; its opening quote has been taken. -/
def text : Reader Units := fun cs => units cs

/-! ### Values -/

/-- The items of an array after the first one, up to the closing bracket. -/
def moreItems (inner : Reader Written) : (fuel : Nat) → Reader (List Written)
  | 0 => failure
  | fuel + 1 => do
    skipBlanks
    if ← accept ']' then
      return []
    else
      expect ','
      let item ← inner
      return item :: (← moreItems inner fuel)

/-- The items of an array; its opening bracket has been taken. -/
def items (inner : Reader Written) : Reader (List Written) := do
  skipBlanks
  if ← accept ']' then
    return []
  else
    let item ← inner
    return item :: (← moreItems inner (← get).length)

/-- One member of an object. -/
def member (inner : Reader Written) : Reader (Units × Written) := do
  skipBlanks
  expect '"'
  let key ← text
  skipBlanks
  expect ':'
  return (key, ← inner)

/-- The members of an object after the first one, up to the closing brace. -/
def moreMembers (inner : Reader Written) : (fuel : Nat) → Reader (List (Units × Written))
  | 0 => failure
  | fuel + 1 => do
    skipBlanks
    if ← accept '}' then
      return []
    else
      expect ','
      let first ← member inner
      return first :: (← moreMembers inner fuel)

/-- The members of an object; its opening brace has been taken. -/
def members (inner : Reader Written) : Reader (List (Units × Written)) := do
  skipBlanks
  if ← accept '}' then
    return []
  else
    let first ← member inner
    return first :: (← moreMembers inner (← get).length)

/-- A value, given the reader of the values inside it. -/
def valueOver (inner : Reader Written) : Reader Written := do
  skipBlanks
  match ← peek with
  | some 'n' => word "null"; return .null
  | some 't' => word "true"; return .bool true
  | some 'f' => word "false"; return .bool false
  | some '"' => let _ ← next; return .text (← text)
  | some '[' => let _ ← next; return .array (← items inner)
  | some '{' => let _ ← next; return .object (← members inner)
  | _ => return .number (← numeral)

/-- A value that nests at most as deeply as the fuel goes. -/
def value : (fuel : Nat) → Reader Written
  | 0 => failure
  | fuel + 1 => fun cs => valueOver (value fuel) cs

end Reader

/-- Reads a text that holds one value and nothing else. -/
def Written.ofText? (source : String) : Option Written := do
  let (written, rest) ← Reader.value (source.length + 1) source.toList
  if rest.all Reader.isBlank then some written else none

/-- Reads the value of a text. -/
def ofText? (source : String) : Option Json :=
  (Written.ofText? source).bind (·.value? Written.maxLevels)

end TexFormula.Json
