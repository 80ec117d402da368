import TexFormula.Fault
import TexFormula.Text.Slice

/-!
# Diagnostics

Problems found on the way, which do not stop a parse or a serialization: their causes, how severe
they are and how they are worded. A diagnostic points at the bytes of the source it is about.
-/

namespace TexFormula

/-- The causes of problems. -/
inductive Problem.Cause where
  | unknownCommand
  | unknownSymbol
  | unexpectedToken
  | expectedClosing
  | expectedArgument
  | expectedOperand
  | ambiguousDigitGroup
  | notSerializable
  | serializationFailed
deriving DecidableEq, Repr

inductive Severity where
  | error
  | warning
deriving DecidableEq, Repr

/-- A cause and the piece of text it is about. -/
structure Problem where
  cause : Problem.Cause
  text : String
deriving DecidableEq, Repr

namespace Problem

/-- All causes. -/
def Cause.all : List Cause :=
  [.unknownCommand, .unknownSymbol, .unexpectedToken, .expectedClosing, .expectedArgument,
    .expectedOperand, .ambiguousDigitGroup, .notSerializable, .serializationFailed]

/-- The code by which programs tell causes apart; error nodes carry it. -/
def Cause.code : Cause → String
  | .unknownCommand => "unknown-command"
  | .unknownSymbol => "unknown-symbol"
  | .unexpectedToken => "unexpected-token"
  | .expectedClosing => "expected-closing-delimiter"
  | .expectedArgument => "expected-argument"
  | .expectedOperand => "expected-operand"
  | .ambiguousDigitGroup => "ambiguous-digit-group"
  | .notSerializable => "not-serializable"
  | .serializationFailed => "serialization-failed"

def Cause.severity : Cause → Severity
  | .unknownSymbol => .warning
  | .ambiguousDigitGroup => .warning
  | _ => .error

def code (problem : Problem) : String :=
  problem.cause.code

def message (problem : Problem) : String :=
  match problem.cause with
  | .unknownCommand => "Unknown command `" ++ problem.text ++ "`"
  | .unknownSymbol => "Unknown symbol `" ++ problem.text ++ "`"
  | .unexpectedToken => "Unexpected token `" ++ problem.text ++ "`"
  | .expectedClosing => "Expected closing `" ++ problem.text ++ "`"
  | .expectedArgument => "Missing argument for `" ++ problem.text ++ "`"
  | .expectedOperand => "Missing operand for `" ++ problem.text ++ "`"
  | .ambiguousDigitGroup =>
    "Ambiguous digit grouping in `" ++ problem.text ++ "`, the comma is read as a separator"
  | .notSerializable => "A " ++ problem.text ++ " cannot be serialized to LaTeX"
  | .serializationFailed => "Serialization failed: " ++ problem.text

/-- The problem that a fault in writing is reported as. -/
def ofWriteFault : WriteFault → Problem
  | .notSerializable what => ⟨.notSerializable, what⟩
  | fault => ⟨.serializationFailed, fault.message⟩

end Problem

/-- Bytes of the source: where they start and how many they are. -/
structure Span where
  offset : Nat
  length : Nat
deriving DecidableEq, Repr

/-- The bytes from `start` up to `stop`. -/
def Span.between (start stop : Nat) : Span :=
  ⟨start, stop - start⟩

/-- A problem, the source it is about, and the diagnostics that led to it. -/
inductive Diagnostic where
  | mk (problem : Problem) (span : Option Span) (trace : List Diagnostic)
deriving Repr

namespace Diagnostic

/-- A diagnostic of its own. -/
def of (problem : Problem) (span : Option Span) : Diagnostic :=
  .mk problem span []

def problem : Diagnostic → Problem
  | .mk problem _ _ => problem

def span : Diagnostic → Option Span
  | .mk _ span _ => span

def trace : Diagnostic → List Diagnostic
  | .mk _ _ trace => trace

def code (d : Diagnostic) : String :=
  d.problem.code

def severity (d : Diagnostic) : Severity :=
  d.problem.cause.severity

def isError (d : Diagnostic) : Bool :=
  d.severity == .error

/-- The marks to set in the source: the code at the span. -/
def labels (d : Diagnostic) : List (String × Span) :=
  d.span.toList.map fun span => (d.code, span)

/-- One line with the place, the code and the wording. -/
def describe (d : Diagnostic) (source : String) : String :=
  let words := d.code ++ ": " ++ d.problem.message
  match d.span with
  | some span =>
    let (line, column) := Text.lineAndColumn source span.offset
    toString line ++ ":" ++ toString column ++ " " ++ words
  | none => words

end Diagnostic

end TexFormula
