import TexFormula.Json.Reader
import TexFormula.Setting

/-!
# Settings in JSON

The places of a JSON text. Numerals and texts get a value when they are looked at, so one without a
value is refused only there. A level of arrays and objects is opened only by a look at one. An array
can stand for a record; a choice is a text or an object of that name over null.
-/

namespace TexFormula

namespace Setting.Value

mutual

/-- The value of JSON. -/
def ofJson : Json → Value
  | .null => .scalar .null
  | .bool value => .scalar (.bool value)
  | .integer n => .scalar (if 0 ≤ n then .natural n.toNat else .signed n)
  | .real _ => .scalar .real
  | .string text => .scalar (.text text)
  | .array items => .list (ofJsonItems items)
  | .object members => .record (ofJsonMembers members)

def ofJsonItems : List Json → List Value
  | [] => []
  | item :: rest => ofJson item :: ofJsonItems rest

def ofJsonMembers : List (String × Json) → List (Value × Value)
  | [] => []
  | (key, inner) :: rest => (.scalar (.text key), ofJson inner) :: ofJsonMembers rest

end

end Setting.Value

namespace Json

/-- A place of a JSON text: what is written there, and how many levels of arrays and objects may
still be opened. -/
structure Place where
  written : Written
  levels : Nat := Written.maxLevels

/-- What a single value answers. -/
def answers : Json → Setting Place
  | .null => { isNull? := some true }
  | .bool value => { bool? := some value }
  | .integer n =>
    { natural? := n.toNat?, integer? := some n }
  | .string text => { text? := some text, choice? := some (.name text) }
  | _ => {}

namespace Place

/-- The choice that the members of an object name. -/
def choiceOf? : List (String × Place) → Option Choice
  | [(key, ⟨.null, _⟩)] => some (.name key)
  | _ => none

/-- What stands at a place. The keys of an object must have a text. -/
def answers? (place : Place) : Option (Setting Place) :=
  match place.written with
  | .array items => do
    let levels ← Written.deeper? place.levels
    return { items? := some (items.map fun item => ⟨item, levels⟩), positional := true }
  | .object members => do
    let levels ← Written.deeper? place.levels
    let members ← members.mapM fun (key, inner) => return (← key.text?, Place.mk inner levels)
    return { members? := some members, choice? := choiceOf? members }
  | single => (single.value? 0).map answers

instance : Setting.Place Place where
  look place := liftM place.answers?
  value place := liftM ((place.written.value? place.levels).map Setting.Value.ofJson)

end Place

end Json

namespace Setting

/-- Reads options from a JSON text. There are no references to follow. -/
def ofJsonText? {α : Type} (decode : Setting Json.Place → Decoding α) (text : String) : Option α :=
  (Json.Written.ofText? text).bind fun written =>
    (look ({ written } : Json.Place) >>= decode).run' 0

end Setting

end TexFormula
