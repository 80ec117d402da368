import TexFormula.Yaml.Tag

/-!
# Tokens of YAML

The tokens that a YAML text is cut into. Block collections have tokens of their own for where they
start and end, though only columns mark them in the text.
-/

namespace TexFormula.Yaml

/-- How a scalar is written. -/
inductive Style where
  | plain
  | quoted
  | literal
  | folded
deriving DecidableEq, Repr

/-- The brackets of flow collections. -/
inductive Bracket where
  /-- Around a sequence. -/
  | square
  /-- Around a mapping. -/
  | curly
deriving DecidableEq, Repr

inductive Token where
  | directive (directive : Directive)
  | documentStart
  | documentEnd
  /-- A sequence in block form starts. -/
  | sequenceStart
  /-- A mapping in block form starts. -/
  | mappingStart
  /-- The innermost collection in block form ends. -/
  | blockEnd
  | opening (bracket : Bracket)
  | closing (bracket : Bracket)
  /-- An item of a sequence in block form follows. -/
  | dash
  /-- Another item or entry of a flow collection follows. -/
  | comma
  | key
  | value
  | anchor (name : String)
  | reference (name : String)
  | tag (handle : Option String) (text : Tag)
  | scalar (text : String) (style : Style)
deriving Repr

/-- A token that turned out to be a key: its place among the tokens, counted without the ones that
mark keys, and whether a mapping in block form starts with it. -/
structure KeyMark where
  position : Nat
  opensMapping : Bool
deriving Repr

namespace KeyMark

/-- The tokens in front of a key. -/
def tokens (mark : KeyMark) : List Token :=
  if mark.opensMapping then [.mappingStart, .key] else [.key]

/-- Puts the marks in front of their tokens, the first of which has the given position. Positions
ascend. -/
def weave (position : Nat) : List KeyMark → List Token → List Token
  | _, [] => []
  | [], tokens => tokens
  | mark :: marks, token :: tokens =>
    if mark.position = position then mark.tokens ++ token :: weave (position + 1) marks tokens
    else token :: weave (position + 1) (mark :: marks) tokens

end KeyMark

end TexFormula.Yaml
