/-!
# Tokens

The tokens of a LaTeX text: what kind each one is and which bytes of the text it covers. A token's
trigger is the text under which a notation can be filed for it.
-/

namespace TexFormula

/-- The kinds of token. -/
inductive Token.Kind where
  /-- The end of the text. -/
  | ending
  /-- A run of white space. -/
  | blank
  /-- A comment, without its percent sign and the blanks at its ends. -/
  | comment (text : String)
  /-- A backslash that ends the text. -/
  | loneBackslash
  /-- A control sequence, without its backslash. -/
  | command (name : String)
  | groupOpen
  | groupClose
  | optionalOpen
  | optionalClose
  /-- A run of ASCII digits. -/
  | digits (run : String)
  /-- One letter of any script. -/
  | letter (c : Char)
  /-- Any other character. -/
  | punct (c : Char)
deriving DecidableEq, Repr, Inhabited

/-- A token and the bytes it covers: from `start` up to `stop`. -/
structure Token where
  kind : Token.Kind
  start : Nat
  stop : Nat
deriving DecidableEq, Repr, Inhabited

namespace Token

/-- The text under which notations are filed for tokens of this kind. -/
def Kind.trigger? : Kind → Option String
  | .command name => some ("\\" ++ name)
  | .letter c => some (String.singleton c)
  | .punct c => some (String.singleton c)
  | .optionalOpen => some "["
  | .optionalClose => some "]"
  | _ => none

/-- Blanks and comments separate other tokens and have no meaning of their own. -/
def Kind.isSeparator : Kind → Bool
  | .blank => true
  | .comment _ => true
  | _ => false

def trigger? (t : Token) : Option String :=
  t.kind.trigger?

def isCommand (t : Token) (name : String) : Bool :=
  t.kind == .command name

def isPunct (t : Token) (c : Char) : Bool :=
  t.kind == .punct c

/-- The digits of a digit run. -/
def digits? (t : Token) : Option String :=
  match t.kind with
  | .digits run => some run
  | _ => none

end Token

end TexFormula
