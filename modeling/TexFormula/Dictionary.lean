import TexFormula.Notation

/-!
# Dictionaries

A dictionary is a list of notations in the order of their definition; for each name, the last
definition counts. `Dictionary.ofList` checks a list and follows its aliases. For writing,
`lookup` finds the notation of a name; for reading, `operands` and `operators` list the notations
filed under a trigger, the latest first, by the place they can stand in.
-/

namespace TexFormula

structure Dictionary where
  /-- The notations in the order of their definition. -/
  entries : List Notation
  /-- The aliases, each with the name that it stands for in the end. -/
  aliases : List (String × String)

namespace Dictionary

/-! ### Checking a list of notations -/

/-- The name that an alias stands for, by the last definition of it as an alias. -/
def target? (entries : List Notation) (name : String) : Option String :=
  entries.reverse.findSome? fun n => if n.name = name then n.aliasOf else none

/-- A notation needs a name, a trigger that is not empty if it has one, and both its delimiters. -/
def checkEntry (n : Notation) : Except TableFault Unit :=
  if n.name = "" then .error .emptyName
  else if n.trigger = some "" then .error (.emptyTrigger n.name)
  else if n.kind = .matchfix "" then .error (.missingClose n.name)
  else .ok ()

/-- The least of some names, in the order of their code points. -/
def least (first : String) (names : List String) : String :=
  names.foldl (fun a b => if b < a then b else a) first

/-- The same cycle from its least name on. -/
def fromLeast (cycle : List String) : List String :=
  match cycle with
  | [] => []
  | first :: rest =>
    let start := least first rest
    cycle.dropWhile (· != start) ++ cycle.takeWhile (· != start)

/-- Follows aliases from `name`, after the aliases `passed`, the latest first. As each alias is
passed once, as many steps as there are notations are enough. -/
def follow (entries : List Notation) : (steps : Nat) → (passed : List String) → (name : String) →
    Except TableFault String
  | 0, _, name => .ok name
  | steps + 1, passed, name =>
    match target? entries name with
    | none => .ok name
    | some next =>
      if passed.contains name then
        .error (.cyclicAlias (fromLeast (name :: (passed.takeWhile (· != name)).reverse)))
      else
        follow entries steps (name :: passed) next

/-- The name that an alias stands for in the end. Its target must have a notation. -/
def resolve (entries : List Notation) (name target : String) : Except TableFault String :=
  if entries.any (·.name == target) then
    follow entries (entries.length + 1) [name] target
  else
    .error (.unknownTarget name target)

/-- All aliases of a list, resolved. -/
def resolveAliases (entries : List Notation) : Except TableFault (List (String × String)) :=
  (entries.filter (·.aliasOf.isSome)).mapM fun n => do
    let final ← resolve entries n.name ((target? entries n.name).getD n.name)
    return (n.name, final)

/-- The dictionary of a list of notations. -/
def ofList (entries : List Notation) : Except TableFault Dictionary := do
  entries.forM checkEntry
  let aliases ← resolveAliases entries
  return { entries, aliases }

/-- The dictionary with more notations, which come after its own. -/
def withOverrides (d : Dictionary) (overrides : List Notation) : Except TableFault Dictionary :=
  ofList (d.entries ++ overrides)

/-! ### Looking things up -/

variable (d : Dictionary)

/-- The name that a name stands for. -/
def canonicalName (name : String) : String :=
  (d.aliases.lookup name).getD name

/-- The last notation of a name that is no alias and meets `p`. -/
def lastOf (name : String) (p : Notation → Bool) : Option Notation :=
  d.entries.reverse.find? fun n => n.name == name && n.aliasOf.isNone && p n

/-- The notation that writes a name. -/
def lookup (name : String) : Option Notation :=
  d.lastOf (d.canonicalName name) (!·.parseOnly)

/-- The notation that a notation stands for: itself, or for an alias the one that writes its target,
or else the last one that reads it. -/
def resolved (n : Notation) : Option Notation :=
  if n.aliasOf.isNone then
    some n
  else
    (d.aliases.lookup n.name).bind fun target =>
      (d.lastOf target (!·.parseOnly)).or (d.lastOf target fun _ => true)

/-- The notations that can be read at a trigger, the latest first. -/
def readAt (trigger : String) : List Notation :=
  d.entries.reverse.filterMap fun n =>
    if !n.serializeOnly && n.trigger == some trigger then d.resolved n else none

/-- The notations that can start an operand at a trigger, the latest first. -/
def operands (trigger : String) : List Notation :=
  (d.readAt trigger).filter (!·.followsOperand)

/-- The notations that can follow an operand at a trigger, the latest first. -/
def operators (trigger : String) : List Notation :=
  (d.readAt trigger).filter (·.followsOperand)

/-- Some notation can follow an operand at the trigger. -/
def hasOperator (trigger : String) : Bool :=
  !(d.operators trigger).isEmpty

end Dictionary

end TexFormula
