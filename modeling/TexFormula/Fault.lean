/-!
# Faults

What can end a parse, a serialization or the building of a dictionary without a result, and the
wording of each cause. `Fault` is for faults that no caller can write off; `WriteFault` adds the
ones that a serialization reports as a diagnostic.
-/

namespace TexFormula

/-- What makes a list of notations no dictionary. -/
inductive TableFault where
  | emptyName
  | emptyTrigger (name : String)
  | unknownTarget (name target : String)
  /-- Aliases that lead back to the first of them. -/
  | cyclicAlias (cycle : List String)
  | missingClose (name : String)
deriving DecidableEq, Repr

/-- What ends a call without a result. -/
inductive Fault where
  | table (fault : TableFault)
  | depthExceeded (limit : Nat)
  /-- A notation for one operand that accepts an application without any. -/
  | missingOperand (name : String)
deriving DecidableEq, Repr

/-- What stops the writing of an expression. -/
inductive WriteFault where
  | notSerializable (what : String)
  | custom (message : String)
  | fatal (fault : Fault)
deriving DecidableEq, Repr

namespace TableFault

def message : TableFault → String
  | .emptyName => "A notation entry has an empty name"
  | .emptyTrigger name => "Entry `" ++ name ++ "` has an empty trigger"
  | .unknownTarget name target => "Entry `" ++ name ++ "` aliases unknown entry `" ++ target ++ "`"
  | .cyclicAlias cycle => "Alias cycle: " ++ String.intercalate " -> " (cycle ++ cycle.take 1)
  | .missingClose name => "Matchfix entry `" ++ name ++ "` has no closing delimiter"

def code : TableFault → String
  | .emptyName => "dictionary::empty_name"
  | .emptyTrigger _ => "dictionary::empty_trigger"
  | .unknownTarget _ _ => "dictionary::unknown_alias_target"
  | .cyclicAlias _ => "dictionary::cyclic_alias"
  | .missingClose _ => "dictionary::missing_close_delimiter"

def help? : TableFault → Option String
  | .emptyTrigger _ =>
    some "Omit the trigger for serialize-only entries instead of using an empty string."
  | .cyclicAlias _ => some "An alias must eventually resolve to an entry that is not an alias."
  | _ => none

end TableFault

namespace Fault

def message : Fault → String
  | .table fault => fault.message
  | .depthExceeded limit => "Nesting depth exceeds the limit of " ++ toString limit
  | .missingOperand name => "Entry `" ++ name ++ "` is written without an operand"

def code : Fault → String
  | .table fault => fault.code
  | .depthExceeded _ => "latex::depth_exceeded"
  | .missingOperand _ => "latex::missing_operand"

def help? : Fault → Option String
  | .table fault => fault.help?
  | .depthExceeded _ => some <| "The input nests groups or operators too deeply. " ++
      "Raise `maxDepth` if this is expected."
  | .missingOperand _ => none

end Fault

namespace WriteFault

def message : WriteFault → String
  | .notSerializable what => "A " ++ what ++ " cannot be serialized to LaTeX"
  | .custom message => message
  | .fatal fault => fault.message

end WriteFault

end TexFormula
