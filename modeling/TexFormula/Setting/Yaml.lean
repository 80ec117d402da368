import TexFormula.Setting
import TexFormula.Yaml.Node
import TexFormula.Yaml.Token.Lexer

/-!
# Settings in YAML

The places of a YAML document. A plain scalar answers many requests: it is a text, by its looks
perhaps a number or a truth value, and a choice by its name. Standard tags confirm a kind of value;
a local tag names a choice. Nothing at all stands for an empty list and an empty record.
-/

namespace TexFormula

namespace Yaml

/-- The character may stand in a text: no control character but tabs and line ends, and no code
point that stands for no character. -/
def isAllowed (c : Char) : Bool :=
  let n := c.toNat
  [0x9, 0xA, 0xD, 0x85].contains n || (0x20 ≤ n && n ≤ 0x7E) ||
    (0xA0 ≤ n && n != 0xFFFE && n != 0xFFFF)

/-- Reads the one document of a text. -/
def Document.ofText? (source : String) : Option Document :=
  if source.toList.all isAllowed then
    (Token.scan? source.toList).bind Document.ofTokens?
  else
    none

/-- How deeply sequences and mappings may nest. -/
def maxLevels : Nat := 128

/-- How many references may be followed for each node. -/
def followsPerNode : Nat := 100

/-- A place of a document: its node, and how many levels of sequences and mappings may still be
opened. -/
structure Place where
  document : Document
  node : Node
  levels : Nat

namespace Place

open Setting (Decoding Value)

/-! ### References -/

/-- The node that stands at a place, if need be by following a reference. -/
def follow (d : Document) (node : Node) : Decoding Node :=
  match node with
  | .reference number => do
    match ← get with
    | 0 => failure
    | left + 1 =>
      set left
      liftM (d.node? number)
  | node => return node

/-- A level less, if one is left. -/
def deeper (levels : Nat) : Decoding Nat :=
  match levels with
  | 0 => failure
  | levels + 1 => return levels

/-! ### Single values -/

/-- The scalar can be other than a text: it is plain, or a block that is tagged as such a value. -/
def isOpen (kind : String) (style : Style) (tag : Option Tag) : Bool :=
  match style with
  | .plain => true
  | .literal => tag == some (Tag.standard kind)
  | _ => false

/-- The scalar is absent where it may be. Among tagged ones only the tag for null has the words for
it, and must have one of them. -/
def isNull? (text : String) (style : Style) (tag : Option Tag) : Option Bool :=
  match style, tag with
  | .plain, none => some (isNull text)
  | .plain, some tag =>
    if tag == Tag.standard "null" then
      if nullWords.contains text then some true else none
    else
      some text.isEmpty
  | _, _ => some false

/-- The choice that a scalar names: by a local tag over nothing, or else by its text. -/
def choice? (text : String) (style : Style) (tag : Option Tag) : Option Choice :=
  match tag.bind Tag.localName? with
  | some name => if style == .plain && isNull text then some (.name name) else none
  | none => some (.name text)

/-- What a scalar answers. -/
def ofScalar (text : String) (style : Style) (tag : Option Tag) : Setting Place :=
  let nothing := style == .plain && text.isEmpty
  { text? := some text
    natural? := if isOpen "int" style tag then unsigned? text.toList else none
    bool? := if isOpen "bool" style tag then bools.lookup text else none
    choice? := choice? text style tag
    isNull? := isNull? text style tag
    items? := if nothing then some [] else none
    members? := if nothing then some [] else none }

/-- What stands at a place. -/
def look (place : Place) : Decoding (Setting Place) := do
  let inner (levels : Nat) (node : Node) : Place := { place with node, levels }
  match ← follow place.document place.node with
  | .scalar text style tag => return ofScalar text style tag
  | .sequence items _ => do
    let levels ← deeper place.levels
    return { items? := some (items.map (inner levels)) }
  | .mapping entries _ => do
    let levels ← deeper place.levels
    let members ← entries.mapM fun (key, node) => do
      match ← follow place.document key with
      | .scalar text _ _ => return (text, inner levels node)
      | _ => failure
    return { members? := some members }
  | .reference _ => failure

/-! ### Values by their looks -/

/-- An integer must fit in 64 bits. -/
def fitsWord : Scalar → Bool
  | .natural n => n < twoPow 64
  | .signed n => -(twoPow 63 : Int) ≤ n
  | _ => true

/-- The value of a scalar, whatever its size. One with a standard tag must be of its kind, and a
local tag is refused. -/
def scalarValue? (text : String) (style : Style) (tag : Option Tag) : Option Scalar :=
  let byLooks := some (if style == .plain then plainValue text else .text text)
  match tag with
  | none => byLooks
  | some tag =>
    if tag.isLocal then
      if tag.localName?.isSome then none else byLooks
    else if tag == Tag.standard "bool" then
      (bools.lookup text).map .bool
    else if tag == Tag.standard "int" then
      integer? text.toList
    else if tag == Tag.standard "float" then
      if isReal text then some .real else none
    else if tag == Tag.standard "null" then
      if nullWords.contains text then some .null else none
    else
      some (.text text)

/-- A collection may have no local tag. -/
def checkTag (tag : Option Tag) : Decoding Unit :=
  if (tag.bind Tag.localName?).isSome then failure else return ()

/-- The value of a node, with at most the given number of levels. -/
def valueOf (d : Document) : (levels : Nat) → Node → Decoding Value
  | levels, node => do
    match ← follow d node with
    | .scalar text style tag => return .scalar (← liftM ((scalarValue? text style tag).filter fitsWord))
    | .sequence items tag => do
      checkTag tag
      match levels with
      | 0 => failure
      | levels + 1 => return .list (← items.mapM (valueOf d levels))
    | .mapping entries tag => do
      checkTag tag
      match levels with
      | 0 => failure
      | levels + 1 =>
        return .record (← entries.mapM fun (key, inner) => do
          return (← valueOf d levels key, ← valueOf d levels inner))
    | .reference _ => failure

instance : Setting.Place Place where
  look := look
  value place := valueOf place.document place.levels place.node

end Place

end Yaml

namespace Setting

/-- Reads options from a YAML text. -/
def ofYamlText? {α : Type} (decode : Setting Yaml.Place → Decoding α) (text : String) : Option α :=
  (Yaml.Document.ofText? text).bind fun document =>
    let place : Yaml.Place := { document, node := document.root, levels := Yaml.maxLevels }
    (Place.look place >>= decode).run' (Yaml.followsPerNode * document.root.size)

end Setting

end TexFormula
