import TexFormula.Yaml.Cursor

/-!
# Block scalars

A text set as a block of lines behind `|` or `>`. The lines lose their indent. Behind `>` lines are
folded: one break between lines that do not start with a blank stands for a space. As fuel, readers
are given more than the number of characters that are left.
-/

namespace TexFormula.Yaml

/-- Which line breaks at the end of a block are kept. -/
inductive Chomping where
  | strip
  | clip
  | keep
deriving DecidableEq, Repr

/-- What stands behind the mark of a block: how its end is kept, and how far it is indented beyond
the collection it is in. -/
structure BlockHeader where
  chomping : Chomping := .clip
  increment : Option Nat := none
deriving Repr

/-- What stands behind a line of a block, up to the next line. -/
structure LineGap where
  /-- The break at the end of the line. -/
  lineEnd : List Char := []
  /-- The breaks of the empty lines behind it. -/
  emptyLines : List Char := []
  /-- The line starts with a blank. -/
  behindBlank : Bool := false

namespace LineGap

/-- What the gap stands for between its line and the next one. -/
def between (folded beforeBlank : Bool) (g : LineGap) : List Char :=
  if folded && g.lineEnd == ['\n'] && !g.behindBlank && !beforeBlank then
    if g.emptyLines.isEmpty then [' '] else g.emptyLines
  else
    g.lineEnd ++ g.emptyLines

/-- What the gap stands for at the end of the block. -/
def atEnd (chomping : Chomping) (g : LineGap) : List Char :=
  match chomping with
  | .strip => []
  | .clip => g.lineEnd
  | .keep => g.lineEnd ++ g.emptyLines

end LineGap

namespace Reader

/-- The sign of a block header, if it is next. -/
def chomping : Reader (Option Chomping) := do
  if ← accept '+' then return some .keep
  else if ← accept '-' then return some .strip
  else return none

/-- The digit of a block header, if it is next. It may not be zero. -/
def increment : Reader (Option Nat) := do
  match ← peek with
  | some c =>
    if c.isDigit then
      check (c != '0')
      step
      return some (Digits.digitValue c)
    else
      return none
  | none => return none

/-- The header of a block: a sign and a digit in any order, up to the end of the line. -/
def blockHeader : Reader BlockHeader := do
  let before ← chomping
  let increment ← increment
  let behind ← if before.isSome then pure none else if increment.isSome then chomping else pure none
  restOfLine
  return { chomping := (before.or behind).getD .clip, increment }

/-- The column is within the indent, as far as it is known. -/
def withinIndent (indent : Option Nat) (column : Nat) : Bool :=
  indent.all (column < ·)

/-- Goes over the spaces of the indent. -/
def skipIndent (indent : Option Nat) : Reader Unit :=
  modify fun c =>
    let spaces := (c.rest.takeWhile (· == ' ')).length
    c.steps (match indent with
      | some indent => min spaces (indent - c.column)
      | none => spaces)

/-- Goes over empty lines and the indent of the next line. Answers the breaks and the furthest
column. No tab may stand within the indent. -/
def emptyLines (indent : Option Nat) : (fuel : Nat) → (furthest : Nat) → Reader (List Char × Nat)
  | 0, _ => failure
  | fuel + 1, furthest => do
    skipIndent indent
    let c ← get
    let furthest := max furthest c.column
    check (!(withinIndent indent c.column && c.rest.head? == some '\t'))
    match ← lineBreak with
    | some d => do
      let (more, furthest) ← emptyLines indent fuel furthest
      return (d :: more, furthest)
    | none => return ([], furthest)

/-- The lines that are indented by `indent` columns, behind a gap. -/
def blockLines (folded : Bool) (chomping : Chomping) (indent : Nat) :
    (fuel : Nat) → LineGap → Reader (List Char)
  | 0, _ => failure
  | fuel + 1, before => do
    let c ← get
    if c.column != indent || c.rest.isEmpty then
      return before.atEnd chomping
    else
      let startsBlank := c.rest.head?.any isBlank
      let line ← takeWhile (!isBreak ·)
      let lineEnd := (← lineBreak).toList
      let (emptyLines, _) ← emptyLines (some indent) (fuel + 1) 0
      let more ← blockLines folded chomping indent fuel
        { lineEnd, emptyLines, behindBlank := startsBlank }
      return before.between folded startsBlank ++ line ++ more

/-- A block in a collection at column `parent`, if it is in one; its mark has been taken. Unless the
header tells how far it is indented, its first line does, and empty lines before it that are longer;
but it is indented at least beyond the collection. -/
def block (fuel : Nat) (folded : Bool) (parent : Option Nat) : Reader String := do
  let header ← blockHeader
  let known := header.increment.map (parent.getD 0 + ·)
  let (emptyLines, furthest) ← emptyLines known fuel 0
  let indent := known.getD (max furthest (max 1 (parent.elim 0 (· + 1))))
  return String.ofList (← blockLines folded header.chomping indent fuel { emptyLines })

end Reader

end TexFormula.Yaml
