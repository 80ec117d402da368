import TexFormula.Yaml.Plain

/-!
# Places in a YAML text

A `Cursor` is a place in a text that knows its line and its column, as nesting in block form is by
columns. A `Reader` reads something from a cursor on.
-/

namespace TexFormula.Yaml

/-! ### Characters -/

/-- A space or a tab. -/
def isBlank (c : Char) : Bool :=
  c == ' ' || c == '\t'

/-- The character ends a line. -/
def isBreak (c : Char) : Bool :=
  [0xA, 0xD, 0x85, 0x2028, 0x2029].contains c.toNat

/-- A letter, a digit, a dash or an underscore, all of ASCII. -/
def isNameChar (c : Char) : Bool :=
  c.isAlphanum || c == '_' || c == '-'

/-- The text is over or goes on with a line break. -/
def endsLine : List Char → Bool
  | [] => true
  | c :: _ => isBreak c

/-- The text is over or goes on with a blank or a line break. -/
def endsWord : List Char → Bool
  | [] => true
  | c :: _ => isBlank c || isBreak c

/-! ### Cursors -/

/-- A place in a text. -/
structure Cursor where
  rest : List Char
  line : Nat := 0
  column : Nat := 0
  /-- How many bytes stand before it. -/
  offset : Nat := 0
deriving Repr

namespace Cursor

/-- The place behind one character, which is no line break. -/
def step (c : Cursor) : Cursor :=
  match c.rest with
  | [] => c
  | d :: rest => { c with rest, column := c.column + 1, offset := c.offset + d.utf8Size }

/-- The place behind several characters of one line. -/
def steps (c : Cursor) : Nat → Cursor
  | 0 => c
  | count + 1 => c.step.steps count

/-- The place behind all characters of a class, which has no line breaks. -/
def skipWhile (p : Char → Bool) (c : Cursor) : Cursor :=
  c.steps (c.rest.takeWhile p).length

/-- The place at the start of the next line, behind a break of `count` characters. -/
def nextLine (c : Cursor) (count : Nat) : Cursor :=
  { c.steps count with line := c.line + 1, column := 0 }

/-- The line break that is next, as it is read, and the place behind it. All breaks but the two
separators of Unicode are read as line feeds. -/
def break? (c : Cursor) : Option (Char × Cursor) :=
  match c.rest with
  | '\r' :: '\n' :: _ => some ('\n', c.nextLine 2)
  | d :: _ =>
    if !isBreak d then none
    else some (if d.toNat < 0x2028 then '\n' else d, c.nextLine 1)
  | [] => none

/-- The text goes on with a mark that has a gap behind it. -/
def atMark (mark : Char) (c : Cursor) : Bool :=
  match c.rest with
  | d :: rest => d == mark && endsWord rest
  | [] => false

/-- The text goes on with a word at the start of a line. -/
def atLineWord (word : List Char) (c : Cursor) : Bool :=
  c.column == 0 && word.isPrefixOf c.rest && endsWord (c.rest.drop word.length)

def atDocumentStart (c : Cursor) : Bool :=
  c.atLineWord ['-', '-', '-']

def atDocumentEnd (c : Cursor) : Bool :=
  c.atLineWord ['.', '.', '.']

/-- The start or the end of a document is marked here. -/
def atDocumentMark (c : Cursor) : Bool :=
  c.atDocumentStart || c.atDocumentEnd

end Cursor

/-! ### Reading -/

/-- What reads something from a place on. -/
abbrev Reader (α : Type) : Type :=
  StateT Cursor Option α

namespace Reader

/-- Refuses the text unless the condition is met. -/
def check (condition : Bool) : Reader Unit :=
  if condition then return () else failure

/-- The next character, which is left in place. -/
def peek : Reader (Option Char) :=
  return (← get).rest.head?

/-- Goes behind one character. -/
def step : Reader Unit :=
  modify Cursor.step

/-- Takes the next character, which is no line break. -/
def next : Reader Char := do
  let c ← liftM (← peek)
  step
  return c

/-- Takes a character if it is the next one. -/
def accept (c : Char) : Reader Bool := do
  if (← peek) == some c then
    step
    return true
  else
    return false

/-- Takes the characters of a class, which has no line breaks. -/
def takeWhile (p : Char → Bool) : Reader (List Char) := do
  let run := (← get).rest.takeWhile p
  modify (·.steps run.length)
  return run

/-- Takes a line break if one is next. -/
def lineBreak : Reader (Option Char) := do
  match (← get).break? with
  | some (c, behind) =>
    set behind
    return some c
  | none => return none

/-- Goes behind a comment if one starts here. -/
def skipComment : Reader Unit := do
  if (← peek) == some '#' then
    modify (·.skipWhile (!isBreak ·))

/-- Goes behind the blanks, the comment and the break that end a line. -/
def restOfLine : Reader Unit := do
  modify (·.skipWhile isBlank)
  skipComment
  check (endsLine (← get).rest)
  let _ ← lineBreak

end Reader

end TexFormula.Yaml
