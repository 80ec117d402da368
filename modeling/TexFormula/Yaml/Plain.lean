import TexFormula.Number.Double.Rounding
import TexFormula.Setting.Value

/-!
# Plain scalars of YAML

A scalar without quotes has a value by its looks: null, a truth value, a number in one of four
bases, or else its text.
-/

namespace TexFormula.Yaml

/-- The words for null. -/
def nullWords : List String :=
  ["~", "null", "Null", "NULL"]

/-- The text stands for null: it is empty or a word for it. -/
def isNull (text : String) : Bool :=
  text.isEmpty || nullWords.contains text

/-- The words for truth values. -/
def bools : List (String × Bool) :=
  [("true", true), ("True", true), ("TRUE", true), ("false", false), ("False", false),
    ("FALSE", false)]

/-- The words for the numbers that have no digits. -/
def specials : List String :=
  [".inf", ".Inf", ".INF", "+.inf", "+.Inf", "+.INF", "-.inf", "-.Inf", "-.INF", ".nan", ".NaN",
    ".NAN"]

/-- The value of a digit in any base up to sixteen. -/
def digit? (base : Nat) (c : Char) : Option Nat :=
  let value? :=
    if c.isDigit then some (c.toNat - '0'.toNat)
    else if 'a' ≤ c && c ≤ 'f' then some (c.toNat - 'a'.toNat + 10)
    else if 'A' ≤ c && c ≤ 'F' then some (c.toNat - 'A'.toNat + 10)
    else none
  value?.filter (· < base)

/-- The value of a nonempty digit run. -/
def digits? (base : Nat) (cs : List Char) : Option Nat :=
  if cs.isEmpty then none else cs.foldlM (fun n c => (digit? base c).map (base * n + ·)) 0

/-- A natural number without sign, in decimal or behind a mark that names another base. -/
def natural? : List Char → Option Nat
  | '0' :: 'x' :: cs => digits? 16 cs
  | '0' :: 'o' :: cs => digits? 8 cs
  | '0' :: 'b' :: cs => digits? 2 cs
  | cs => digits? 10 cs

/-- A digit run with zeros in front of it is no number, with a sign or without one. -/
def hasLeadingZero (cs : List Char) : Bool :=
  let unsigned := match cs with
    | '-' :: ds => ds
    | '+' :: ds => ds
    | ds => ds
  match unsigned with
  | '0' :: c :: ds => (c :: ds).all Char.isDigit
  | _ => false

/-- An integer of at most 128 bits. -/
def integer? (cs : List Char) : Option Scalar :=
  if hasLeadingZero cs then
    none
  else
    match cs with
    | '-' :: ds => ((natural? ds).filter (· ≤ twoPow 127)).map fun n => .signed (-(n : Int))
    | '+' :: ds => ((natural? ds).filter (· < twoPow 128)).map .natural
    | ds => ((natural? ds).filter (· < twoPow 128)).map .natural

/-- An integer without a minus. -/
def unsigned? (cs : List Char) : Option Nat :=
  match integer? cs with
  | some (.natural n) => some n
  | _ => none

/-- A number with digits, within the range of the doubles. -/
def isDecimal (cs : List Char) : Bool :=
  let unsigned := match cs with
    | '+' :: '+' :: _ => []
    | '+' :: '-' :: _ => []
    | '+' :: ds => ds
    | ds => ds
  (Double.ofText? (String.ofList unsigned)).any Double.isFinite

/-- The text is a number of any kind, be there zeros in front of it. -/
def isReal (text : String) : Bool :=
  specials.contains text || isDecimal text.toList

/-- The value of a plain scalar. -/
def plainValue (text : String) : Scalar :=
  if isNull text then .null
  else match bools.lookup text with
    | some value => .bool value
    | none =>
      match integer? text.toList with
      | some n => n
      | none => if !hasLeadingZero text.toList && isReal text then .real else .text text

end TexFormula.Yaml
