import TexFormula.Configuration
import TexFormula.Parser
import TexFormula.Serializer

/-!
# Dialects

A dialect of formulas: the notations it has and the options by which it is read and written.
-/

namespace TexFormula

structure Dialect where
  dictionary : Dictionary := .standard
  parsing : ParseOptions := {}
  writing : WriteOptions := {}

namespace Dialect

/-- The dialect of the standard notations and options. -/
def standard : Dialect := {}

/-- The dialect of a configuration. -/
def ofConfiguration (c : Configuration) : Except TableFault Dialect := do
  return { dictionary := ← c.dictionary, parsing := c.parsing, writing := c.writing }

/-- The dialect with more notations on top of its own. -/
def withNotations (d : Dialect) (notations : List Notation) : Except TableFault Dialect := do
  return { d with dictionary := ← d.dictionary.withOverrides notations }

/-- Parses a source. -/
def parse (d : Dialect) (source : String) : Except Fault Parsed :=
  TexFormula.parse d.dictionary d.parsing source

/-- The serializer of the dialect. -/
def serializer (d : Dialect) : Serializer :=
  ⟨d.dictionary, d.writing⟩

/-- Writes an expression. -/
def serialize (d : Dialect) (e : Expression) : Except Fault Serialized :=
  d.serializer.run e

end Dialect

end TexFormula
