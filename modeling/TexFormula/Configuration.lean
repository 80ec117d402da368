import TexFormula.Dictionary.Standard
import TexFormula.Options.Reader
import TexFormula.Setting.Json
import TexFormula.Setting.Yaml

/-!
# Configurations

All that can be configured, as option files in JSON or YAML hold it: the options of both directions
and notations on top of the standard ones.
-/

namespace TexFormula

structure Configuration where
  parsing : ParseOptions := {}
  writing : WriteOptions := {}
  notations : List NotationSpec := []

/-- The formats of option files. -/
inductive Configuration.Format where
  | json
  | yaml
deriving DecidableEq, Repr

/-- What keeps a file from being read as a configuration. -/
inductive Configuration.Fault where
  | invalid (format : Configuration.Format)
  | noFile
deriving DecidableEq, Repr

namespace Configuration

/-- The names of the fields. -/
def fieldNames : List String :=
  ["parse", "serialize", "dictionary"]

variable {π : Type} [Setting.Place π]

/-- Reads a configuration. -/
def decode (s : Setting π) : Setting.Decoding Configuration := do
  let fields ← liftM (s.fields? fieldNames)
  return {
    parsing := ← Setting.field fields "parse" {} ParseOptions.decode
    writing := ← Setting.field fields "serialize" {} WriteOptions.decode
    notations := ← Setting.field fields "dictionary" [] (Setting.list NotationSpec.decode) }

/-- Reads a configuration from a text. -/
def ofText (format : Format) (text : String) : Except Fault Configuration :=
  let read := match format with
    | .json => Setting.ofJsonText? decode text
    | .yaml => Setting.ofYamlText? decode text
  match read with
  | some configuration => .ok configuration
  | none => .error (.invalid format)

/-- What follows the last point of a file name, unless that is its first character. -/
def extension? (name : String) : Option String :=
  let reversed := name.toList.reverse
  match reversed.dropWhile (· != '.') with
  | '.' :: _ :: _ => some (String.ofList (reversed.takeWhile (· != '.')).reverse)
  | _ => none

/-- The format of a file by its name. All that is not YAML is JSON. -/
def Format.ofFileName (name : String) : Format :=
  match extension? name with
  | some "yaml" => .yaml
  | some "yml" => .yaml
  | _ => .json

/-- Reads a configuration from a file of a name, given what the file holds if there is one. -/
def ofFile (name : String) (content : Option String) : Except Fault Configuration :=
  match content with
  | some text => ofText (.ofFileName name) text
  | none => .error .noFile

/-- The standard dictionary with the configured notations. -/
def dictionary (c : Configuration) : Except TableFault Dictionary :=
  if c.notations.isEmpty then
    .ok .standard
  else
    Dictionary.standard.withOverrides (c.notations.map NotationSpec.toNotation)

end Configuration

end TexFormula
