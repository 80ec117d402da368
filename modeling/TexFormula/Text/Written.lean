/-!
# Written texts

Text inside a text command cannot hold a backslash or a brace as it is. `escape` writes those three
characters in another way; `unescape` reads the written forms back, one kind after the other.

A control word goes on as long as letters follow, so a letter set right after one would become part
of its name. `join` puts a space between the two.
-/

namespace TexFormula.Text

/-! ### Verbatim text -/

/-- What stands for a character inside a text command. -/
def escapeChar (c : Char) : List Char :=
  if c = '\\' then "\\backslash ".toList
  else if c = '{' then ['\\', '{']
  else if c = '}' then ['\\', '}']
  else [c]

/-- The written form of a text. -/
def escapeChars (cs : List Char) : List Char :=
  cs.flatMap escapeChar

/-- `pattern` removed from the front of a text, if it stands there. -/
def stripFront? : (pattern cs : List Char) → Option (List Char)
  | [], cs => some cs
  | _ :: _, [] => none
  | p :: pattern, c :: cs => if p = c then stripFront? pattern cs else none

theorem length_lt_of_stripFront? {p : Char} {pattern cs rest : List Char}
    (h : stripFront? (p :: pattern) cs = some rest) : rest.length < cs.length := by
  induction pattern generalizing p cs with
  | nil =>
    cases cs with
    | nil => simp [stripFront?] at h
    | cons c cs =>
      by_cases hp : p = c
      · simp [stripFront?, hp] at h
        simp [h]
      · simp [stripFront?, hp] at h
  | cons q pattern ih =>
    cases cs with
    | nil => simp [stripFront?] at h
    | cons c cs =>
      by_cases hp : p = c
      · simp only [stripFront?, hp, if_true] at h
        have := ih h
        simp only [List.length_cons]
        omega
      · simp [stripFront?, hp] at h

/-- Every occurrence of the nonempty text `p :: pattern`, from the left, gives way to
`replacement`. -/
def replace (p : Char) (pattern replacement : List Char) (cs : List Char) : List Char :=
  match h : stripFront? (p :: pattern) cs with
  | some rest =>
    have := length_lt_of_stripFront? h
    replacement ++ replace p pattern replacement rest
  | none =>
    match cs with
    | [] => []
    | c :: cs => c :: replace p pattern replacement cs
termination_by cs.length

/-- Reads the written forms back: first the backslashes, then the opening and the closing braces. -/
def unescapeChars (cs : List Char) : List Char :=
  let backslashes := replace '\\' "backslash ".toList ['\\'] cs
  let opened := replace '\\' ['{'] ['{'] backslashes
  replace '\\' ['}'] ['}'] opened

/-- The written form of a text inside a text command. -/
def escape (text : String) : String :=
  String.ofList (escapeChars text.toList)

/-- The text that a written form stands for. -/
def unescape (raw : String) : String :=
  String.ofList (unescapeChars raw.toList)

/-! ### Pieces side by side -/

/-- The text ends in a backslash and one or more ASCII letters. -/
def endsInControlWord (cs : List Char) : Bool :=
  match cs.reverse.takeWhile Char.isAlpha, cs.reverse.dropWhile Char.isAlpha with
  | _ :: _, '\\' :: _ => true
  | _, _ => false

def startsWithLetter : List Char → Bool
  | c :: _ => c.isAlpha
  | [] => false

/-- Sets two pieces side by side, with a space where a control word would swallow a letter. -/
def join (left right : String) : String :=
  if startsWithLetter right.toList && endsInControlWord left.toList then
    left ++ " " ++ right
  else
    left ++ right

end TexFormula.Text
