import TexFormula.Number.Double

/-!
# JSON values

JSON as a tree. Numbers are integers where they are written as such and fit in 64 bits, and doubles
otherwise. Objects keep their members as written; `canonical` sorts them and keeps the last one of
each key.
-/

namespace TexFormula

inductive Json where
  | null
  | bool (value : Bool)
  | integer (value : Int)
  | real (value : Double)
  | string (text : String)
  | array (items : List Json)
  | object (members : List (String × Json))
deriving Repr, Inhabited

namespace Json

/-- Adds a member to members with ascending keys, unless its key is there already. -/
def insertNew (key : String) (value : Json) : List (String × Json) → List (String × Json)
  | [] => [(key, value)]
  | (k, v) :: rest =>
    if key < k then (key, value) :: (k, v) :: rest
    else if key = k then (k, v) :: rest
    else (k, v) :: insertNew key value rest

mutual

/-- The value with ascending keys in all objects. Of several members with one key the last one is
kept. -/
def canonical : Json → Json
  | .array items => .array (canonicalItems items)
  | .object members => .object (canonicalMembers members)
  | leaf => leaf

def canonicalItems : List Json → List Json
  | [] => []
  | item :: rest => canonical item :: canonicalItems rest

def canonicalMembers : List (String × Json) → List (String × Json)
  | [] => []
  | (key, value) :: rest => insertNew key (canonical value) (canonicalMembers rest)

end

/-- The member of an object under a key. -/
def member? (json : Json) (key : String) : Option Json :=
  match json with
  | .object members => members.lookup key
  | _ => none

def string? : Json → Option String
  | .string text => some text
  | _ => none

def integer? : Json → Option Int
  | .integer value => some value
  | _ => none

def bool? : Json → Option Bool
  | .bool value => some value
  | _ => none

def array? : Json → Option (List Json)
  | .array items => some items
  | _ => none

def object? : Json → Option (List (String × Json))
  | .object members => some members
  | _ => none

end Json

end TexFormula
