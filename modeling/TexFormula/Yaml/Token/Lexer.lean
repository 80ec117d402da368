import TexFormula.Yaml.BlockScalar
import TexFormula.Yaml.Scalar
import TexFormula.Yaml.Token

/-!
# Cutting YAML into tokens

`Token.scan?` cuts a text into tokens. Whether a token is a key is known only at the colon behind
it. Until then it is a candidate, which must stand on one line and within `keyReach` bytes; the
marks of the keys are woven into the tokens at the end. A collection in block form starts with a
token right of the innermost one and ends with the first token left of it.
-/

namespace TexFormula.Yaml

/-- How many bytes may stand between the start of a key and its colon. -/
def keyReach : Nat := 1024

/-- A token that may turn out to be a key. -/
structure Candidate where
  /-- Its place among the tokens. -/
  position : Nat
  /-- Where it starts. -/
  start : Cursor
  /-- It stands where only a key can stand. -/
  required : Bool

namespace Candidate

/-- The colon of the key can no longer come. -/
def isStale (k : Candidate) (c : Cursor) : Bool :=
  k.start.line < c.line || k.start.offset + keyReach < c.offset

/-- The candidate that is left at a cursor. A required one may not be lost. -/
def refresh? (c : Cursor) : Option Candidate → Option (Option Candidate)
  | some k => if k.isStale c then (if k.required then none else some none) else some (some k)
  | none => some none

end Candidate

/-- The state of cutting a text into tokens. -/
structure Lexer where
  cursor : Cursor
  /-- The tokens so far without those that mark keys, the last one first. -/
  tokens : List Token := []
  /-- How many they are. -/
  count : Nat := 0
  /-- The keys that have been found. -/
  keys : List KeyMark := []
  /-- The columns of the open collections in block form, the innermost first. -/
  columns : List Nat := []
  /-- The candidate in the innermost flow collection. -/
  candidate : Option Candidate := none
  /-- The candidates around each open flow collection, the innermost first. -/
  outer : List (Option Candidate) := []
  /-- A key can start here. -/
  keyAllowed : Bool := true

/-- What takes tokens off a text. -/
abbrev Lexing (α : Type) : Type :=
  StateT Lexer Option α

namespace Lexer

/-- A flow collection is open. -/
def inFlow (l : Lexer) : Bool :=
  !l.outer.isEmpty

/-- Adds a token. -/
def push (token : Token) (l : Lexer) : Lexer :=
  { l with tokens := token :: l.tokens, count := l.count + 1 }

/-- A collection in block form can start at a column. -/
def opensAt (column : Nat) (l : Lexer) : Bool :=
  !l.inFlow && l.columns.head?.all (· < column)

/-- Ends the collections in block form whose columns meet a test, from the innermost on. -/
def close (ends : Nat → Bool) (l : Lexer) : Lexer :=
  if l.inFlow then
    l
  else
    let gone := (l.columns.takeWhile ends).length
    (List.replicate gone Token.blockEnd).foldl (fun l token => l.push token)
      { l with columns := l.columns.drop gone }

/-- All tokens. -/
def result (l : Lexer) : List Token :=
  KeyMark.weave 0 (l.keys.mergeSort (·.position ≤ ·.position)) l.tokens.reverse

/-- Reads something at the cursor. -/
def reading {α : Type} (reader : Reader α) : Lexing α := do
  let l ← get
  let (a, cursor) ← liftM (reader l.cursor)
  set { l with cursor }
  return a

/-- Refuses the text unless the condition is met. -/
def check (condition : Bool) : Lexing Unit :=
  if condition then return () else failure

/-- Sets whether a key can start next. -/
def allowKey (keyAllowed : Bool) : Lexing Unit :=
  modify ({ · with keyAllowed })

/-- Adds a token. -/
def emit (token : Token) : Lexing Unit :=
  modify (push token)

/-- Goes behind some characters and adds a token. -/
def emitBehind (count : Nat) (token : Token) : Lexing Unit := do
  reading (modify (·.steps count))
  emit token

/-! ### Candidates for keys -/

/-- Gives up the candidate, which may not be a required one. -/
def dropCandidate : Lexing Unit := do
  check ((← get).candidate.all (!·.required))
  modify ({ · with candidate := none })

/-- Makes the token that comes next a candidate, if a key can start here. -/
def saveCandidate : Lexing Unit := do
  if (← get).keyAllowed then
    dropCandidate
    modify fun l =>
      let required := !l.inFlow && l.columns.head? == some l.cursor.column
      { l with candidate := some { position := l.count, start := l.cursor, required } }

/-- Gives up the candidates that have become stale. -/
def refreshCandidates : Lexing Unit := do
  let l ← get
  let candidate ← liftM (Candidate.refresh? l.cursor l.candidate)
  let outer ← liftM (l.outer.mapM (Candidate.refresh? l.cursor))
  set { l with candidate, outer }

/-! ### Between tokens -/

/-- Goes behind blanks and a comment on a line. A byte order mark may stand at the start of the
text; it takes a column. In block form no tab may stand where a key can start. -/
def skipOnLine (tabs : Bool) : Reader Unit := do
  let c ← get
  if c.offset == 0 && c.rest.head?.any (·.toNat == 0xFEFF) then
    set c.step
  modify (·.skipWhile fun d => d == ' ' || (tabs && d == '\t'))
  Reader.skipComment

/-- Goes behind blanks, comments and line breaks. In block form a key can start on a new line. -/
def skipGap : (fuel : Nat) → Lexing Unit
  | 0 => return ()
  | fuel + 1 => do
    let l ← get
    reading (skipOnLine (l.inFlow || !l.keyAllowed))
    if (← reading Reader.lineBreak).isSome then
      if !l.inFlow then
        allowKey true
      skipGap fuel

/-! ### Tokens -/

/-- Starts a collection in block form at a column, if one can start there. -/
def openBlock (column : Nat) (start : Token) : Lexing Unit := do
  if (← get).opensAt column then
    modify fun l => { l with columns := column :: l.columns }
    emit start

/-- The mark of an item, a key or a value that opens its own collection in block form. -/
def blockMark (start : Token) : Lexing Unit := do
  let l ← get
  if !l.inFlow then
    check l.keyAllowed
    openBlock l.cursor.column start

/-- A dash. -/
def dash : Lexing Unit := do
  blockMark .sequenceStart
  dropCandidate
  allowKey true
  emitBehind 1 .dash

/-- A question mark in front of a key. -/
def keyMark : Lexing Unit := do
  blockMark .mappingStart
  dropCandidate
  allowKey (!(← get).inFlow)
  emitBehind 1 .key

/-- A colon, which makes the candidate a key. -/
def valueMark : Lexing Unit := do
  let l ← get
  match l.candidate with
  | some k =>
    let opensMapping := l.opensAt k.start.column
    set { l with
      keys := ⟨k.position, opensMapping⟩ :: l.keys
      columns := if opensMapping then k.start.column :: l.columns else l.columns
      candidate := none
      keyAllowed := false }
  | none =>
    blockMark .mappingStart
    allowKey (!l.inFlow)
  emitBehind 1 .value

/-- A bracket that opens a flow collection. -/
def opening (bracket : Bracket) : Lexing Unit := do
  saveCandidate
  modify fun l => { l with outer := l.candidate :: l.outer, candidate := none, keyAllowed := true }
  emitBehind 1 (.opening bracket)

/-- A bracket that closes a flow collection. -/
def closing (bracket : Bracket) : Lexing Unit := do
  dropCandidate
  modify fun l =>
    match l.outer with
    | candidate :: outer => { l with candidate, outer, keyAllowed := false }
    | [] => { l with keyAllowed := false }
  emitBehind 1 (.closing bracket)

/-- A comma between the items of a flow collection. -/
def comma : Lexing Unit := do
  dropCandidate
  allowKey true
  emitBehind 1 .comma

/-- A token that can be a key or start one, given its reader. -/
def simple (reader : Reader Token) : Lexing Unit := do
  saveCandidate
  allowKey false
  emit (← reading reader)

/-- A plain scalar. If a line break stands behind it, a key can start next. -/
def plain (fuel : Nat) : Lexing Unit := do
  saveCandidate
  let l ← get
  let indent := l.columns.head?.elim 0 (· + 1)
  let (text, broken) ← reading (Reader.plain fuel l.inFlow indent)
  allowKey broken
  emit (.scalar text .plain)

/-- A scalar set as a block of lines. -/
def blockScalar (fuel : Nat) (folded : Bool) : Lexing Unit := do
  dropCandidate
  allowKey true
  let parent := (← get).columns.head?
  let text ← reading (do Reader.step; Reader.block fuel folded parent)
  emit (.scalar text (if folded then .folded else .literal))

/-- A line that belongs to no collection: all collections in block form end before it. -/
def atMargin : Lexing Unit := do
  modify (close fun _ => true)
  dropCandidate
  allowKey false

/-- The next token, which starts with the character `c`. -/
def token (fuel : Nat) (c : Char) : Lexing Unit := do
  let l ← get
  let flow := l.inFlow
  if l.cursor.column == 0 && c == '%' then
    atMargin
    emit (.directive (← reading Reader.directive))
  else if l.cursor.atDocumentStart then
    atMargin
    emitBehind 3 .documentStart
  else if l.cursor.atDocumentEnd then
    atMargin
    emitBehind 3 .documentEnd
  else if l.cursor.atMark '-' then dash
  else if c == '?' && (flow || l.cursor.atMark '?') then keyMark
  else if c == ':' && (flow || l.cursor.atMark ':') then valueMark
  else if !flow && (c == '|' || c == '>') then blockScalar fuel (c == '>')
  else
    match c with
    | '[' => opening .square
    | '\x7b' => opening .curly
    | ']' => closing .square
    | '\x7d' => closing .curly
    | ',' => comma
    | '*' => simple (Token.reference <$> Reader.nodeName)
    | '&' => simple (Token.anchor <$> Reader.nodeName)
    | '!' => simple ((fun (handle, text) => Token.tag handle text) <$> Reader.tag flow)
    | '\'' => simple ((Token.scalar · .quoted) <$> Reader.quoted fuel)
    | '"' => simple ((Token.scalar · .quoted) <$> Reader.quoted fuel)
    | _ => do
      check (Reader.startsPlain flow l.cursor.rest)
      plain fuel

/-- Takes all tokens. Each has a character at least, so there is always more fuel left than text. -/
def run : (fuel : Nat) → Lexing Unit
  | 0 => failure
  | fuel + 1 => do
    skipGap (fuel + 1)
    refreshCandidates
    modify fun l => l.close (l.cursor.column < ·)
    match (← get).cursor.rest with
    | [] => atMargin
    | c :: _ => do
      token (fuel + 1) c
      run fuel

end Lexer

/-- The tokens of a text. -/
def Token.scan? (source : List Char) : Option (List Token) :=
  (Lexer.run (source.length + 1) { cursor := { rest := source } }).map fun (_, l) => l.result

end TexFormula.Yaml
