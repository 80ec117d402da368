import TexFormula.Yaml.Cursor

/-!
# Plain and quoted scalars

Both may go on over line breaks. Blanks and breaks between words are a `Gap`, which is folded when a
word follows it. As fuel, readers are given more than the number of characters that are left.
-/

namespace TexFormula.Yaml

/-! ### Gaps -/

/-- Blanks and line breaks between words. -/
structure Gap where
  /-- The blanks before the first break. -/
  blanks : List Char := []
  /-- The breaks, as they are read. Blanks among and behind them do not count. -/
  breaks : List Char := []
deriving Repr

namespace Gap

def isEmpty (g : Gap) : Bool :=
  g.blanks.isEmpty && g.breaks.isEmpty

/-- The gap goes over a line break. -/
def isBroken (g : Gap) : Bool :=
  !g.breaks.isEmpty

/-- What a gap stands for: blanks for themselves, one line feed for a space, and of more breaks all
but a line feed at the start. -/
def folded (g : Gap) : List Char :=
  match g.breaks with
  | [] => g.blanks
  | ['\n'] => [' ']
  | '\n' :: more => more
  | breaks => breaks

end Gap

namespace Reader

/-- A gap. Behind a break there may be no tab among the first `indent` columns. -/
def gapWithin (indent : Nat) : (fuel : Nat) → (broken : Bool) → Reader Gap
  | 0, _ => return {}
  | fuel + 1, broken => do
    let c ← get
    match c.rest.head?, c.break? with
    | _, some (d, behind) =>
      set behind
      let more ← gapWithin indent fuel true
      return { more with breaks := d :: more.breaks }
    | some d, none =>
      if isBlank d then
        check (!(broken && d == '\t' && c.column < indent))
        step
        let more ← gapWithin indent fuel broken
        return if broken then more else { more with blanks := d :: more.blanks }
      else
        return {}
    | none, none => return {}

/-- A gap, perhaps an empty one. -/
def gap (indent : Nat) : Reader Gap := do
  let run := (← get).rest.takeWhile fun c => isBlank c || isBreak c
  gapWithin indent run.length false

/-! ### Plain scalars -/

/-- The character ends a plain scalar in a flow collection. -/
def isFlowMark (c : Char) : Bool :=
  c == ',' || c == '[' || c == ']' || c == '\x7b' || c == '\x7d'

/-- A plain scalar can start here. -/
def startsPlain (flow : Bool) : List Char → Bool
  | [] => false
  | '-' :: rest => !rest.head?.any isBlank
  | '?' :: rest => !flow && !endsWord rest
  | ':' :: rest => !flow && !endsWord rest
  | c :: rest =>
    !(endsWord (c :: rest) || isFlowMark c || "#&*!|>'\"%@\x60".toList.contains c)

/-- The characters of a plain scalar up to a gap or to what ends it. Nothing is answered if a colon
stands right before a mark of a flow collection. -/
def word (flow : Bool) : List Char → Option (List Char)
  | [] => some []
  | c :: rest =>
    if isBlank c || isBreak c then some []
    else if flow && c == ':' && rest.head?.any (fun d => isFlowMark d || d == '?') then none
    else if c == ':' && endsWord rest then some []
    else if flow && isFlowMark c then some []
    else (word flow rest).map (c :: ·)

/-- The words of a plain scalar behind a gap, and whether a line break stands behind the last one.
Lines that go on with it are indented by `indent` columns. -/
def words (flow : Bool) (indent : Nat) : (fuel : Nat) → Gap → Reader (List Char × Bool)
  | 0, _ => failure
  | fuel + 1, before => do
    let c ← get
    let first ← liftM (if c.rest.head? == some '#' then some [] else word flow c.rest)
    if c.atDocumentMark || first.isEmpty then
      return ([], before.isBroken)
    else
      set (c.steps first.length)
      let behind ← gap indent
      let content := before.folded ++ first
      if behind.isEmpty || (!flow && (← get).column < indent) then
        return (content, behind.isBroken)
      else
        let (more, broken) ← words flow indent fuel behind
        return (content ++ more, broken)

/-- A plain scalar, and whether a line break stands behind it. -/
def plain (fuel : Nat) (flow : Bool) (indent : Nat) : Reader (String × Bool) := do
  let (content, broken) ← words flow indent fuel {}
  return (String.ofList content, broken)

/-! ### Quoted scalars -/

/-- The characters of escapes of one letter. -/
def escapes : List (Char × Nat) :=
  [('0', 0x0), ('a', 0x7), ('b', 0x8), ('t', 0x9), ('\t', 0x9), ('n', 0xA), ('v', 0xB), ('f', 0xC),
    ('r', 0xD), ('e', 0x1B), (' ', 0x20), ('"', 0x22), ('/', 0x2F), ('\\', 0x5C), ('N', 0x85),
    ('_', 0xA0), ('L', 0x2028), ('P', 0x2029)]

/-- How many hexadecimal digits follow a letter. -/
def hexWidths : List (Char × Nat) :=
  [('x', 2), ('u', 4), ('U', 8)]

/-- What an escape stands for; its backslash has been taken. An escaped line break stands for the
breaks behind it. -/
def escape : Reader (List Char) := do
  if (← lineBreak).isSome then
    return (← gap 0).breaks
  else
    let letter ← next
    match hexWidths.lookup letter with
    | some width => do
      let run := (← get).rest.take width
      check (run.length == width)
      let n ← liftM (digits? 16 run)
      check n.isValidChar
      modify (·.steps width)
      return [Char.ofNat n]
    | none => return [Char.ofNat (← liftM (escapes.lookup letter))]

/-- What stands next inside quotes, other than the closing quote: a gap, an escape, two single
quotes for one, or a character. -/
def quotedPiece (quote : Char) : Reader (List Char) := do
  let c ← get
  if endsWord c.rest then
    return (← gap 0).folded
  else
    let d ← next
    if quote == '"' && d == '\\' then
      escape
    else
      if d == quote then
        step
      return [d]

/-- The closing quote is next. -/
def atClosingQuote (quote : Char) : List Char → Bool
  | c :: rest => c == quote && !(quote == '\'' && rest.head? == some '\'')
  | [] => false

/-- A text up to its closing quote. No document may be marked within it. -/
def quotedRest (quote : Char) : (fuel : Nat) → Reader (List Char)
  | 0 => failure
  | fuel + 1 => do
    let c ← get
    check (!c.rest.isEmpty && !c.atDocumentMark)
    if atClosingQuote quote c.rest then
      step
      return []
    else
      let piece ← quotedPiece quote
      return piece ++ (← quotedRest quote fuel)

/-- A quoted scalar. -/
def quoted (fuel : Nat) : Reader String := do
  let quote ← next
  return String.ofList (← quotedRest quote fuel)

end Reader

end TexFormula.Yaml
