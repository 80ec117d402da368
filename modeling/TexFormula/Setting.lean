import TexFormula.Setting.Value

/-!
# Settings

How options are read from an option file, whatever its format. A `Setting` is what stands at a place
of the file, by the requests that it can answer: `12` in YAML can be asked for as a text and as a
number, in JSON only as a number. The places inside it are looked at only when they are asked for,
so what no option names is passed over, however it is written.

A format of files has a type of places and an instance of `Place`. Options are read by functions
from a `Setting` of any type of places.
-/

namespace TexFormula

/-- What stands at a place of an option file, by the requests it can answer. The places inside it
are of type `π`. -/
structure Setting (π : Type) where
  text? : Option String := none
  natural? : Option Nat := none
  integer? : Option Int := none
  bool? : Option Bool := none
  choice? : Option Choice := none
  /-- Where a value may be absent: whether it is. Nothing if neither can be. -/
  isNull? : Option Bool := some false
  items? : Option (List π) := none
  members? : Option (List (String × π)) := none
  /-- The items can stand for a record, with its fields in order. -/
  positional : Bool := false

namespace Setting

/-- What reads options. The state tells how many references may still be followed. -/
abbrev Decoding (α : Type) : Type :=
  StateT Nat Option α

/-- A type of places of option files. -/
class Place (π : Type) where
  /-- What stands at a place. -/
  look : π → Decoding (Setting π)
  /-- The value at a place with all that is inside. -/
  value : π → Decoding Value

export Place (look value)

/-- A value is a place of its own. -/
def ofValue : Value → Setting Value
  | .scalar .null => { isNull? := some true }
  | .scalar (.bool value) => { bool? := some value }
  | .scalar (.natural n) => { natural? := some n, integer? := some n }
  | .scalar (.signed n) => { natural? := n.toNat?, integer? := some n }
  | .scalar .real => {}
  | .scalar (.text text) => { text? := some text, choice? := some (.name text) }
  | .list items => { items? := some items }
  | .record [(key, inner)] => { choice? := if inner.isVoid then key.choice? else none }
  | .record _ => {}

instance : Place Value where
  look v := return ofValue v
  value v := return v

/-! ### Requests -/

variable {π α : Type}

/-- One of several named values. -/
def choose? (values : List (String × α)) (s : Setting π) : Option α :=
  s.choice?.bind (·.pick values)

/-- A value that may be absent. -/
def optional? (read : Setting π → Option α) (s : Setting π) : Option (Option α) :=
  s.isNull?.bind fun isNull => if isNull then some none else (read s).map some

/-- The keys repeat none of the names. -/
def repeatsNone (names : List String) (members : List (String × π)) : Bool :=
  names.all fun name => (members.filter (·.1 == name)).length ≤ 1

/-- The members of a record in which none of the names is repeated. -/
def record? (names : List String) (s : Setting π) : Option (List (String × π)) :=
  s.members?.filter (repeatsNone names)

/-- The fields of a record, which may be a list with the fields in the order of the names. -/
def fields? (names : List String) (s : Setting π) : Option (List (String × π)) :=
  if s.positional then
    (s.items?.filter (·.length ≤ names.length)).map names.zip
  else
    s.record? names

variable [Place π]

/-- The values of a list. -/
def list (read : Setting π → Decoding α) (s : Setting π) : Decoding (List α) := do
  (← liftM s.items?).mapM fun place => do read (← look place)

/-- A field, or its default if it is absent. -/
def field (fields : List (String × π)) (name : String) (default : α)
    (read : Setting π → Decoding α) : Decoding α :=
  match fields.lookup name with
  | some place => do read (← look place)
  | none => return default

/-- A field that is a single value, or its default if it is absent. -/
def scalarField (fields : List (String × π)) (name : String) (default : α)
    (read : Setting π → Option α) : Decoding α :=
  field fields name default fun s => liftM (read s)

end Setting

end TexFormula
