/-!
# Values of option files

What an option file holds, by its looks alone: read without knowing what is asked for.
-/

namespace TexFormula

/-- The value of a scalar. -/
inductive Scalar where
  | null
  | bool (value : Bool)
  /-- An integer without a minus. -/
  | natural (value : Nat)
  /-- An integer behind a minus, which may be zero. -/
  | signed (value : Int)
  /-- A number that is not written as an integer. -/
  | real
  | text (content : String)
deriving DecidableEq, Repr

/-- A value of an option file. -/
inductive Setting.Value where
  | scalar (value : Scalar)
  | list (items : List Setting.Value)
  /-- Keys can be any values. -/
  | record (entries : List (Setting.Value × Setting.Value))
deriving Repr

/-- What names one of several choices. -/
inductive Choice where
  | name (text : String)
  /-- The place among the choices, counted from zero. -/
  | index (position : Nat)
deriving DecidableEq, Repr

namespace Choice

variable {α : Type}

/-- The choice among named values. -/
def pick (values : List (String × α)) : Choice → Option α
  | .name text => values.lookup text
  | .index position => values[position]?.map (·.2)

end Choice

namespace Setting.Value

/-- The value is nothing at all: null or a record without entries. -/
def isVoid : Value → Bool
  | .scalar .null => true
  | .record [] => true
  | _ => false

/-- A value that can be a key of a record of choices. -/
def choice? : Value → Option Choice
  | .scalar (.text text) => some (.name text)
  | .scalar (.natural n) => some (.index n)
  | _ => none

end Setting.Value

end TexFormula
