import TexFormula.Notation.Product
import TexFormula.Notation.Scribe

/-!
# Writing arithmetic, errors and raw LaTeX

The writing hooks of the standard notations: sums with their signs, products as signed quotients,
powers with roots and reciprocals, and the nodes that hold LaTeX as text.
-/

namespace TexFormula

/-- One half, or minus one half. -/
def Double.half (negative : Bool) : Double :=
  .finite negative ⟨twoPow 52, 1021, by decide, by decide, Or.inr (by decide)⟩

namespace Writers

open Text (braced join)

/-- A fraction. -/
def fraction (top bottom : String) : String :=
  "\\frac" ++ braced top ++ braced bottom

/-! ### Sums -/

/-- The term brings its own minus sign. -/
def isNegativeTerm (term : Expression) : Bool :=
  term.headName? == some "Negate" || term.number?.any Number.isNegative

/-- Writes one more term behind a sum. -/
def addTerm (scribe : Scribe) (sum : String) (term : Expression) : Except WriteFault String := do
  let text ←
    if isNegativeTerm term then scribe.serialize term
    else scribe.wrap term Precedence.addition.tighter
  return if Text.startsWith text '-' then sum ++ text else sum ++ "+" ++ text

/-- A sum; the empty one is 0. -/
def sum : WritingHook := fun scribe terms =>
  match terms with
  | [] => return "0"
  | first :: rest => do
    let start ← scribe.wrap first .addition
    rest.foldlM (addTerm scribe) start

/-! ### Products -/

/-- The factor must be kept apart from the one before it by a visible glyph. -/
def needsGlyph (previous factor : Expression) (text : String) : Bool :=
  factor.isNumber || Text.startsWithDigit text ||
    (previous.isNumber &&
      (factor.headName? == some "Divide" || factor.headName? == some "Rational"))

/-- Writes the factors that follow `previous`, whose text ends `written`. -/
def moreFactors (scribe : Scribe) (previous : Expression) (written : String) :
    List Expression → Except WriteFault String
  | [] => return written
  | factor :: rest => do
    let text ← scribe.wrap factor .multiplication
    let glyph :=
      if needsGlyph previous factor text then scribe.options.multiply
      else scribe.options.invisibleMultiply
    moreFactors scribe factor (join (join written glyph) text) rest

/-- Writes factors side by side. -/
def factors (scribe : Scribe) : List Expression → Except WriteFault String
  | [] => return ""
  | first :: rest => do
    let text ← scribe.wrap first .multiplication
    moreFactors scribe first text rest

/-- A product; the empty one is 1. -/
def product : WritingHook := fun scribe arguments =>
  if arguments.isEmpty then
    return "1"
  else do
    let parts := Product.ofFactors arguments
    let sign := if parts.negative then "-" else ""
    let top ← factors scribe parts.numerator
    if parts.denominator.isEmpty then
      return sign ++ top
    else
      let bottom ← factors scribe parts.denominator
      return sign ++ fraction (if top = "" then "1" else top) bottom

/-! ### Powers and indices -/

/-- Numerator and denominator of an exponent written as a quotient of whole numbers. -/
def rationalParts? (exponent : Expression) : Option (Int × Int) :=
  match exponent with
  | .number n =>
    n.toDouble?.bind fun value =>
      if value = .half false then some (1, 2)
      else if value = .half true then some (-1, 2)
      else none
  | .apply (.symbol head) [.number p, .number q] =>
    if head = "Rational" || head = "Divide" then
      p.toInt?.bind fun p => q.toInt?.map fun q => (p, q)
    else
      none
  | _ => none

/-- The text contains another one. -/
def contains (text piece : List Char) : Bool :=
  piece.isPrefixOf text || match text with
    | [] => false
    | _ :: rest => contains rest piece

/-- A number written with a power of ten already carries a superscript. -/
def carriesPower (options : WriteOptions) (text : String) : Bool :=
  let glyph := options.number.exponentProduct
  text.toList.contains '^' || (glyph != "" && contains text.toList glyph.toList)

/-- What a superscript or subscript is set on. -/
def scriptBase (scribe : Scribe) (base : Expression) : Except WriteFault String := do
  let text ← scribe.wrap base Precedence.power.tighter
  return if Text.startsWith text '-' || (base.isNumber && carriesPower scribe.options text) then
    Text.parenthesized text
  else
    text

/-- The decimal text of an integer. -/
def integer (n : Int) : String :=
  String.ofList (Digits.ofInt n)

/-- A power: a reciprocal if the exponent is negative, a root if it is a half. -/
def power : WritingHook := fun scribe arguments =>
  match arguments with
  | [base, exponent] =>
    match Product.negativeNumber? exponent with
    | some n => do
      let below ←
        if n.neg.toInt? = some 1 then scribe.serialize base
        else scribe.serialize (.function "Power" [base, .number n.neg])
      return fraction "1" below
    | none =>
      match rationalParts? exponent with
      | some (1, 2) => return "\\sqrt" ++ braced (← scribe.serialize base)
      | some (-1, 2) => return fraction "1" ("\\sqrt" ++ braced (← scribe.serialize base))
      | some (p, q) =>
        return (← scriptBase scribe base) ++ "^" ++ braced (fraction (integer p) (integer q))
      | none => do
        let below ← scriptBase scribe base
        return below ++ "^" ++ braced (← scribe.serialize exponent)
  | _ => scribe.application "Power" arguments

def subscript : WritingHook := fun scribe arguments =>
  match arguments with
  | [base, index] => do
    let below ← scriptBase scribe base
    return below ++ "_" ++ braced (← scribe.serialize index)
  | _ => scribe.application "Subscript" arguments

/-- A root with its index in brackets. -/
def root : WritingHook := fun scribe arguments =>
  match arguments with
  | [radicand, index] => do
    let index ← scribe.serialize index
    let radicand ← scribe.serialize radicand
    return "\\sqrt[" ++ index ++ "]" ++ braced radicand
  | _ => scribe.application "Root" arguments

/-! ### Errors and raw LaTeX -/

/-- An error node: its source text if it holds one, else its code. -/
def error : WritingHook := fun scribe arguments =>
  match arguments with
  | .apply (.symbol "LatexString") [.text literal] :: _ => return literal
  | .text code :: _ => return "\\error" ++ braced code
  | first :: _ => return "\\error" ++ braced (← scribe.serialize first)
  | [] => return "\\error" ++ braced ""

/-- Texts as they are, side by side. -/
def verbatim (spell : String → String) : WritingHook := fun scribe arguments =>
  arguments.foldlM (fun written argument => do
    let text ← match argument with
      | .text content => pure (spell content)
      | other => scribe.serialize other
    return join written text) ""

def latexString : WritingHook :=
  verbatim id

/-- The characters that tokens have names for. -/
def spellToken (token : String) : String :=
  if token = "<\x7b>" then "\x7b"
  else if token = "<\x7d>" then "\x7d"
  else if token = "<space>" then " "
  else if token = "<$>" then "$"
  else if token = "<$$>" then "$$"
  else token

def latexTokens : WritingHook :=
  verbatim spellToken

end Writers

end TexFormula
