import TexFormula.Yaml.Token

/-!
# YAML documents

A document is a tree of scalars, sequences and mappings. A node can be named; a reference to it by
its name stands for it, even within itself. `Document.ofTokens?` reads the one document of a text from
its tokens. What is left out where a node can stand is an empty plain scalar.
-/

namespace TexFormula.Yaml

inductive Node where
  | scalar (text : String) (style : Style) (tag : Option Tag)
  | sequence (items : List Node) (tag : Option Tag)
  /-- Keys can be any nodes. -/
  | mapping (entries : List (Node × Node)) (tag : Option Tag)
  /-- The node of a number. -/
  | reference (number : Nat)
deriving Repr

namespace Node

/-- What is read where nothing is written. -/
def vacant : Node :=
  .scalar "" .plain none

mutual

/-- How long a node is: one for each scalar and reference, and two for each collection. -/
def size : Node → Nat
  | .sequence items _ => 2 + sizes items
  | .mapping entries _ => 2 + entrySizes entries
  | _ => 1

def sizes : List Node → Nat
  | [] => 0
  | item :: rest => item.size + sizes rest

def entrySizes : List (Node × Node) → Nat
  | [] => 0
  | (key, value) :: rest => key.size + value.size + entrySizes rest

end

end Node

/-- A document: its root, and the numbered nodes that references stand for. -/
structure Document where
  root : Node := .vacant
  named : List (Nat × Node) := []
deriving Repr

namespace Document

/-- The node that a number stands for. -/
def node? (d : Document) (number : Nat) : Option Node :=
  d.named.lookup number

end Document

/-! ### Reading documents -/

/-- A named node: the number that references to it have, and how many named nodes were started
before it. -/
structure Anchor where
  number : Nat
  order : Nat
  node : Node

/-- The state of reading a document. -/
structure Assembly where
  /-- The tokens that are left. -/
  tokens : List Token
  /-- What the handles of tags stand for. -/
  handles : List (String × Tag) := []
  /-- The number of each name. -/
  names : List (String × Nat) := []
  /-- How many named nodes have been started. -/
  started : Nat := 0
  /-- The named nodes that are complete. -/
  anchors : List Anchor := []

/-- What reads nodes from tokens. -/
abbrev Assembling (α : Type) : Type :=
  StateT Assembly Option α

namespace Assembly

/-- The numbered nodes. Of several with one number the one that was started last is found. -/
def named (c : Assembly) : List (Nat × Node) :=
  (c.anchors.mergeSort fun a b => b.order ≤ a.order).map fun a => (a.number, a.node)

/-- Refuses the tokens unless the condition is met. -/
def check (condition : Bool) : Assembling Unit :=
  if condition then return () else failure

/-- The next token, which is left in place. -/
def peek : Assembling (Option Token) :=
  return (← get).tokens.head?

/-- Goes behind a token. -/
def skip : Assembling Unit :=
  modify fun c => { c with tokens := c.tokens.drop 1 }

/-- Takes a token that has to be there. -/
def next : Assembling Token := do
  let token ← liftM (← peek)
  skip
  return token

/-! ### Properties -/

/-- What stands before a node: its name and its tag. -/
structure Properties where
  name : Option String := none
  tag : Option Tag := none

/-- The text of a tag with a handle, which must stand for something. -/
def expand (handle : Option String) (text : Tag) : Assembling Tag :=
  match handle with
  | none => return text
  | some handle => do
    let start ← liftM ((← get).handles.lookup handle)
    return start ++ text

/-- A name, if one is next. -/
def name? : Assembling (Option String) := do
  match ← peek with
  | some (.anchor name) =>
    skip
    return some name
  | _ => return none

/-- A tag, if one is next. -/
def tag? : Assembling (Option Tag) := do
  match ← peek with
  | some (.tag handle text) =>
    skip
    return some (← expand handle text)
  | _ => return none

/-- The name and the tag of a node, in any order. -/
def properties : Assembling Properties := do
  match ← name? with
  | some name => return { name, tag := ← tag? }
  | none =>
    let tag ← tag?
    return { name := ← if tag.isSome then name? else pure none, tag }

/-- Reads a node that may have a name. References to it can stand within it. A new number is the
count of the different names before it. -/
def naming (name : Option String) (read : Assembling Node) : Assembling Node :=
  match name with
  | none => read
  | some name => do
    let c ← get
    let number := c.names.length
    set { c with
      names := (name, number) :: c.names.filter (·.1 != name)
      started := c.started + 1 }
    let node ← read
    modify fun d => { d with anchors := ⟨number, c.started, node⟩ :: d.anchors }
    return node

/-! ### Nodes -/

/-- Another entry of a collection in block form, or its end, is next. -/
def endsEntry : Option Token → Bool
  | some .key => true
  | some .value => true
  | some .blockEnd => true
  | _ => false

/-- An item of a sequence in block form ends at once. -/
def endsItem : Option Token → Bool
  | some .dash => true
  | some .blockEnd => true
  | _ => false

/-- What stands between the brackets of a flow collection ends at once. -/
def endsFlow (bracket : Bracket) : Option Token → Bool
  | some .comma => true
  | some (.closing b) => b == bracket
  | _ => false

/-- The key of an entry in a flow collection ends at once. -/
def endsFlowKey (bracket : Bracket) : Option Token → Bool
  | some .value => true
  | token => endsFlow bracket token

/-- The token has to be a comma or the closing bracket of a flow collection, which is left in place.
A comma may stand before the bracket. -/
def separator (bracket : Bracket) : Assembling Unit := do
  match ← peek with
  | some .comma => skip
  | some (.closing b) => check (b == bracket)
  | _ => failure

/-- A bracket closes the flow collection. -/
def accept (bracket : Bracket) : Assembling Bool := do
  match ← peek with
  | some (.closing b) =>
    if b == bracket then
      skip
      return true
    else
      return false
  | _ => return false

/-- A value behind its mark, if that is next, given what ends it at once and how it is read. -/
def valueOr (ends : Option Token → Bool) (read : Assembling Node) : Assembling Node := do
  match ← peek with
  | some .value => do
    skip
    if ends (← peek) then return .vacant else read
  | _ => return .vacant

mutual

/-- A node. Only in block form collections in block form can start; as a key or a value there it may
be a sequence that has no start of its own. -/
def node : (fuel : Nat) → (inBlock ofEntry : Bool) → Assembling Node
  | 0, _, _ => failure
  | fuel + 1, inBlock, ofEntry => do
    match ← peek with
    | some (.reference name) => do
      skip
      return .reference (← liftM ((← get).names.lookup name))
    | _ => do
      let p ← properties
      naming p.name do
        match ← peek with
        | some (.scalar text style) => do
          skip
          return .scalar text style p.tag
        | some (.opening .square) => do
          skip
          return .sequence (← flowItems fuel true) p.tag
        | some (.opening .curly) => do
          skip
          return .mapping (← flowEntries fuel true) p.tag
        | token =>
          match inBlock, token with
          | true, some .sequenceStart => do
            skip
            return .sequence (← blockItems fuel) p.tag
          | true, some .mappingStart => do
            skip
            return .mapping (← blockEntries fuel) p.tag
          | _, _ => do
            if ofEntry && token matches some .dash then
              return .sequence (← looseItems fuel) p.tag
            else
              check (p.name.isSome || p.tag.isSome)
              return .scalar "" .plain p.tag

/-- The items of a sequence in block form, up to its end. -/
def blockItems : (fuel : Nat) → Assembling (List Node)
  | 0 => failure
  | fuel + 1 => do
    match ← next with
    | .dash => do
      let item ← if endsItem (← peek) then pure .vacant else node fuel true false
      return item :: (← blockItems fuel)
    | .blockEnd => return []
    | _ => failure

/-- The items of a sequence at the column of the mapping it belongs to. -/
def looseItems : (fuel : Nat) → Assembling (List Node)
  | 0 => failure
  | fuel + 1 => do
    match ← peek with
    | some .dash => do
      skip
      let following ← peek
      let item ←
        if endsItem following || endsEntry following then pure .vacant
        else node fuel true false
      return item :: (← looseItems fuel)
    | _ => return []

/-- The entries of a mapping in block form, up to its end. -/
def blockEntries : (fuel : Nat) → Assembling (List (Node × Node))
  | 0 => failure
  | fuel + 1 => do
    match ← next with
    | .key => do
      let key ← if endsEntry (← peek) then pure .vacant else node fuel true true
      let value ← valueOr endsEntry (node fuel true true)
      return (key, value) :: (← blockEntries fuel)
    | .blockEnd => return []
    | _ => failure

/-- The items of a sequence in flow form, up to its bracket. An item with a key is a mapping of one
entry. If its key is left out, the token behind its mark is passed over, whatever it is. -/
def flowItems : (fuel : Nat) → (first : Bool) → Assembling (List Node)
  | 0, _ => failure
  | fuel + 1, first => do
    if !first then
      separator .square
    if ← accept .square then
      return []
    else
      let item ← match ← peek with
        | some .key => do
          skip
          let key ←
            if endsFlowKey .square (← peek) then do
              skip
              pure .vacant
            else node fuel false false
          let value ← valueOr (endsFlow .square) (node fuel false false)
          pure (.mapping [(key, value)] none)
        | _ => node fuel false false
      return item :: (← flowItems fuel false)

/-- The entries of a mapping in flow form, up to its brace. -/
def flowEntries : (fuel : Nat) → (first : Bool) → Assembling (List (Node × Node))
  | 0, _ => failure
  | fuel + 1, first => do
    if !first then
      separator .curly
    if ← accept .curly then
      return []
    else
      let entry ← match ← peek with
        | some .key => do
          skip
          let key ←
            if endsFlowKey .curly (← peek) then pure .vacant else node fuel false false
          pure (key, ← valueOr (endsFlow .curly) (node fuel false false))
        | _ => pure (← node fuel false false, .vacant)
      return entry :: (← flowEntries fuel false)

end

/-! ### Documents -/

/-- The directives in front of a document, given the handles and whether there was a version. -/
def directives : (fuel : Nat) → (handles : List (String × Tag)) → (versioned : Bool) →
    Assembling Unit
  | 0, _, _ => failure
  | fuel + 1, handles, versioned => do
    match ← peek with
    | some (.directive (.version major minor)) => do
      check (!versioned && major == 1 && (minor == 1 || minor == 2))
      skip
      directives fuel handles true
    | some (.directive (.handle name expansion)) => do
      check (handles.lookup name).isNone
      skip
      directives fuel ((name, expansion) :: handles) versioned
    | _ => modify ({ · with handles := handles ++ Tag.defaults })

/-- The token does not belong to the content of a document. -/
def isMargin : Token → Bool
  | .directive _ => true
  | .documentStart => true
  | .documentEnd => true
  | _ => false

/-- A document that is marked: with directives, a start mark and perhaps no content. -/
def markedDocument (fuel : Nat) : Assembling Node := do
  directives fuel [] false
  check ((← next) matches .documentStart)
  if (← peek).all isMargin then return .vacant else node fuel true false

/-- The one document of a text, which is empty if there are no tokens at all. -/
def document (fuel : Nat) : Assembling Node := do
  match ← peek with
  | none => return .vacant
  | some (.directive _) => markedDocument fuel
  | some .documentStart => markedDocument fuel
  | some _ =>
    modify ({ · with handles := Tag.defaults })
    node fuel true false

/-- Ends of documents, and then nothing more. -/
def ending (c : Assembly) : Bool :=
  c.tokens.all (· matches .documentEnd)

end Assembly

/-- Reads the one document of a text from its tokens. -/
def Document.ofTokens? (tokens : List Token) : Option Document := do
  let (root, c) ← Assembly.document (3 * tokens.length + 3) { tokens }
  if c.ending then some { root, named := c.named } else none

end TexFormula.Yaml
