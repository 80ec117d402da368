import TexFormula.Parser.State

/-!
# Numerals

A number in a formula: digit runs grouped by thin spaces or commas that touch them, a fraction with
repeating digits under a bar, and a product with a power of ten as exponent.
-/

namespace TexFormula.Parser

/-- The digit runs that go on from byte `stop`, each behind a mark, without any gap. -/
def digitGroups (isMark : Token → Bool) : (stop : Nat) → List Token → List Token
  | stop, mark :: group :: rest =>
    if isMark mark && mark.start == stop && group.start == mark.stop && group.digits?.isSome then
      group :: digitGroups isMark group.stop rest
    else
      []
  | _, _ => []

/-- The digits of a digit run; none of other tokens. -/
def digitsOf (t : Token) : String :=
  t.digits?.getD ""

/-- A run with the digits of the groups behind it. -/
def joinGroups (run : String) (groups : List Token) : String :=
  groups.foldl (fun digits group => digits ++ digitsOf group) run

/-- Groups of one digit run are of three digits each, after one to three digits. -/
def groupedByThree (run : String) (groups : List Token) : Bool :=
  1 ≤ run.length && run.length ≤ 3 && groups.all fun group => (digitsOf group).length == 3

/-- The digit run read last follows a comma and another digit run without any gap, so the chain has
been judged already. -/
def continuesChain : List Token → Bool
  | group :: comma :: digits :: _ =>
    comma.isPunct ',' && comma.stop == group.start && digits.digits?.isSome &&
      digits.stop == comma.start
  | _ => false

/-- A number starts at the front of the tokens. -/
def startsNumber : List Token → Bool
  | t :: rest =>
    t.digits?.isSome || (t.isPunct '.' && rest.head?.any fun t => t.digits?.isSome)
  | [] => false

variable (env : Env)

/-- Goes on with groups behind thin spaces. -/
def thinSpaceGroups (run : String) : Parser String := do
  let s ← get
  let groups := digitGroups (·.isCommand ",") (s.previous env).stop s.rest
  skip (2 * groups.length)
  return joinGroups run groups

/-- Goes on with groups behind commas, if all of them have three digits and no fraction follows.
Otherwise the commas separate numbers; a chain that could be meant as one number is reported. -/
def commaGroups (run : String) : Parser String := do
  let s ← get
  let first := s.previous env
  let groups := digitGroups (·.isPunct ',') first.stop s.rest
  let beforePoint := (s.rest.drop (2 * groups.length)).head?.any (·.isPunct '.')
  match groups.getLast? with
  | none => return run
  | some last =>
    if groupedByThree run groups && !beforePoint then
      skip (2 * groups.length)
      return joinGroups run groups
    else
      if !continuesChain s.seen && groups.any fun group => 3 ≤ (digitsOf group).length then
        record .ambiguousDigitGroup (env.slice first.start last.stop) first.start last.stop
      return run

/-- The digits before the point. -/
def wholeDigits : Parser String := do
  match (← current env).digits? with
  | none => return ""
  | some run =>
    advance
    let s ← get
    if (digitGroups (·.isCommand ",") (s.previous env).stop s.rest).isEmpty then
      commaGroups env run
    else
      thinSpaceGroups env run

/-- Digits under a bar. -/
def barredDigits : Parser String := do
  match (← get).rest with
  | bar :: opening :: digits :: closing :: _ =>
    if bar.isCommand "overline" && opening.kind == .groupOpen && closing.kind == .groupClose then
      match digits.digits? with
      | some run =>
        skip 4
        return run
      | none => return ""
    else
      return ""
  | _ => return ""

/-- The digits after the point, and those that repeat. A point right behind the whole digits may
stand without a fraction. -/
def fractionDigits (whole : String) : Parser (String × String) := do
  let s ← get
  let marker := s.current env
  let after := s.following env
  let goesOn := after.digits?.isSome || after.isCommand "overline"
  if !marker.isPunct '.' then
    return ("", "")
  else if goesOn then
    advance
    let fraction ← match (← current env).digits? with
      | some run => do
        advance
        thinSpaceGroups env run
      | none => pure ""
    return (fraction, ← barredDigits)
  else
    if whole != "" && marker.start == (s.previous env).stop then
      advance
    return ("", "")

/-- The sign that a token sets before an exponent. -/
def sign? (t : Token) : Option String :=
  if t.isPunct '-' then some "-" else if t.isPunct '+' then some "+" else none

/-- Digits and a closing brace: the text of the digits. -/
def digitsToBrace? : List Token → Option String
  | digits :: closing :: _ => if closing.kind == .groupClose then digits.digits? else none
  | _ => none

/-- A digit run in braces, perhaps with a sign: its text and the number of the tokens. -/
def bracedExponent? : List Token → Option (String × Nat)
  | opening :: first :: rest =>
    if opening.kind != .groupOpen then
      none
    else
      match sign? first with
      | some sign => (digitsToBrace? rest).map fun run => (sign ++ run, 4)
      | none => (digitsToBrace? (first :: rest)).map fun run => (run, 3)
  | _ => none

/-- An exponent: one digit, or a signed digit run in braces. -/
def exponentText? (tokens : List Token) : Option (String × Nat) :=
  match tokens.head?.bind (·.digits?) with
  | some run => if run.length = 1 then some (run, 1) else none
  | none => bracedExponent? tokens

/-- A product with a power of ten. -/
def powerOfTen? : List Token → Option (String × Nat)
  | times :: ten :: caret :: rest =>
    if (times.isCommand "times" || times.isCommand "cdot") && ten.kind == .digits "10" &&
        caret.isPunct '^' then
      (exponentText? rest).map fun (text, count) => (text, count + 3)
    else
      none
  | _ => none

/-- The exponent behind a mantissa. -/
def exponent : Parser (Option String) := do
  match powerOfTen? (← get).rest with
  | some (text, count) =>
    skip count
    return some text
  | none => return none

/-- The literal of a numeral from its parts. -/
def literal (negative : Bool) (whole fraction repeating : String) (exponent : Option String) :
    String :=
  (if negative then "-" else "") ++
  (if whole = "" then "0" else whole) ++
  (if fraction = "" ∧ repeating = "" then "" else "." ++ fraction) ++
  (if repeating = "" then "" else "(" ++ repeating ++ ")") ++
  (match exponent with
    | some text => "e" ++ text
    | none => "")

/-- Reads a number; its sign, if it has one, has been read. -/
def number (negative : Bool) : Parser Expression := do
  let start := (← current env).start
  let whole ← wholeDigits env
  let (fraction, repeating) ← fractionDigits env whole
  let exponent ← exponent
  let literal := literal negative whole fraction repeating exponent
  match Number.ofLiteral? literal with
  | some value => return .number value
  | none =>
    record .unexpectedToken literal start ((← get).previous env).stop
    return .error Problem.Cause.unexpectedToken.code literal

end TexFormula.Parser
