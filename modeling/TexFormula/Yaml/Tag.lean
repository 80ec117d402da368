import TexFormula.Yaml.Cursor

/-!
# Tags, names and directives

A tag tells what kind of value a node is. Written with a handle, as in `!!int` and `!odd`, it stands
for a longer text that directives in front of the document can change. Characters of a tag can be
escaped by the octets of their UTF-8 form.
-/

namespace TexFormula.Yaml

/-- The characters of a tag. An escape that is no character stands as nothing. -/
abbrev Tag : Type :=
  List (Option Char)

namespace Tag

def ofText (text : String) : Tag :=
  text.toList.map some

/-- A tag of the standard kinds. -/
def standard (kind : String) : Tag :=
  ofText ("tag:yaml.org,2002:" ++ kind)

/-- The tag is not shared between files: it starts with an exclamation mark. -/
def isLocal (tag : Tag) : Bool :=
  tag.head? == some (some '!')

/-- The name behind the exclamation mark of a local tag. -/
def localName? (tag : Tag) : Option String :=
  match tag with
  | some '!' :: name => (name.mapM id).map String.ofList
  | _ => none

/-- What the handles stand for that need no directive. -/
def defaults : List (String × Tag) :=
  [("!", ofText "!"), ("!!", standard "")]

end Tag

/-- A directive in front of a document. -/
inductive Directive where
  | version (major minor : Nat)
  | handle (name : String) (expansion : Tag)
deriving Repr

namespace Reader

/-! ### Escaped characters -/

/-- How many octets a character has whose first octet is given. -/
def octetCount? (octet : Nat) : Option Nat :=
  if octet < 0x80 then some 1
  else if octet < 0xC0 then none
  else if octet < 0xE0 then some 2
  else if octet < 0xF0 then some 3
  else if octet < 0xF8 then some 4
  else none

/-- An octet behind its percent sign. -/
def octet : Reader Nat := do
  check (← accept '%')
  let run := (← get).rest.take 2
  check (run.length == 2)
  modify (·.steps 2)
  liftM (digits? 16 run)

/-- The octets of a character behind its first one, put behind the number `n`. -/
def moreOctets : (count : Nat) → (n : Nat) → Reader Nat
  | 0, n => return n
  | count + 1, n => do
    let next ← octet
    check (next / 0x40 == 2)
    moreOctets count (0x40 * n + next % 0x40)

/-- The character of a number that came in so many octets. It must be one and need them all. -/
def ofOctets? (count n : Nat) : Option Char :=
  let least := match count with
    | 1 => 0
    | 2 => 0x80
    | 3 => 0x800
    | _ => 0x10000
  if least ≤ n && n.isValidChar then some (Char.ofNat n) else none

/-- An escaped character. -/
def escapedChar : Reader (Option Char) := do
  let first ← octet
  let count ← liftM (octetCount? first)
  let bits := match count with
    | 1 => first
    | 2 => first % 0x20
    | 3 => first % 0x10
    | _ => first % 0x8
  return ofOctets? count (← moreOctets (count - 1) bits)

/-! ### Tags -/

/-- The character can stand in a tag; some only where the tag is set off or in a directive. -/
def isTagChar (wide : Bool) (c : Char) : Bool :=
  isNameChar c || ";/?:@&=+$.%!~*'()".toList.contains c || (wide && ",[]".toList.contains c)

/-- The characters of a tag from here on. -/
def tagChars (wide : Bool) : (fuel : Nat) → Reader Tag
  | 0 => return []
  | fuel + 1 => do
    if (← peek).any (isTagChar wide) then
      let c ← if (← peek) == some '%' then escapedChar else some <$> next
      return c :: (← tagChars wide fuel)
    else
      return []

/-- A text ends at the first character zero. -/
def untilZero (tag : Tag) : Tag :=
  tag.takeWhile (· != some '\x00')

/-- The text of a tag, which may not be empty. -/
def tagText (wide : Bool) : Reader Tag := do
  let text ← tagChars wide ((← get).rest.takeWhile (isTagChar wide)).length
  check (!text.isEmpty)
  return untilZero text

/-- A handle: an exclamation mark with a name and, if it is next, another mark. -/
def handle : Reader String := do
  check (← accept '!')
  let name ← takeWhile isNameChar
  let closed ← accept '!'
  return String.ofList ('!' :: (name ++ if closed then ['!'] else []))

/-- The handle stands alone between its marks or is a mark alone. -/
def isHandle (text : String) : Bool :=
  text == "!" || (text.length ≥ 2 && text.toList.getLast? == some '!')

/-- A tag by its handle and what follows. Without a handle it stands for itself. -/
def tag (flow : Bool) : Reader (Option String × Tag) := do
  let start ← get
  let named ← do
    if (start.rest.drop 1).head? == some '<' then
      modify (·.steps 2)
      let text ← tagText true
      check (← accept '>')
      pure (none, text)
    else
      let first ← handle
      if first != "!" && isHandle first then
        pure (some first, ← tagText false)
      else
        let more ← tagChars false ((← get).rest.takeWhile (isTagChar false)).length
        let text := untilZero ((first.toList.drop 1).map some ++ more)
        pure (if text.isEmpty then (none, Tag.ofText "!") else (some "!", text))
  let rest := (← get).rest
  check (endsWord rest || (flow && rest.head? == some ','))
  return named

/-! ### Names of nodes -/

/-- The name of a node, behind the mark in front of it. -/
def nodeName : Reader String := do
  step
  let name ← takeWhile isNameChar
  let rest := (← get).rest
  check (!name.isEmpty && (endsWord rest || rest.head?.any ("?:,]\x7d%@\x60".toList.contains ·)))
  return String.ofList name

/-! ### Directives -/

/-- A number of at most nine digits. -/
def versionNumber : Reader Nat := do
  let run ← takeWhile Char.isDigit
  check (!run.isEmpty && run.length ≤ 9)
  return Digits.value run

/-- A directive with its line. -/
def directive : Reader Directive := do
  step
  let name ← takeWhile isNameChar
  check (endsWord (← get).rest)
  let _ ← takeWhile isBlank
  let read ← match String.ofList name with
    | "YAML" => do
      let major ← versionNumber
      check (← accept '.')
      pure (Directive.version major (← versionNumber))
    | "TAG" => do
      let name ← handle
      check (isHandle name)
      let blanks ← takeWhile isBlank
      check (!blanks.isEmpty)
      let expansion ← tagText true
      check (endsWord (← get).rest)
      pure (Directive.handle name expansion)
    | _ => failure
  restOfLine
  return read

end Reader

end TexFormula.Yaml
