import TexFormula.Text.Alphabetic
import TexFormula.Text.Blank
import TexFormula.Text.Slice
import TexFormula.Token

/-!
# Cutting a text into tokens

`Lexeme.read` takes one token off the front of a text. Its main property is
`Lexeme.text_append_rest`: what it takes and what it leaves make up the text. `Token.scan` repeats
it to the end; the last token is `ending`, which covers no byte.
-/

namespace TexFormula

/-- One token off the front of a text: its kind, the characters it covers and those after it. -/
structure Lexeme where
  kind : Token.Kind
  text : List Char
  rest : List Char

namespace Lexeme

/-- A lexeme of one character. -/
def single (kind : Token.Kind) (c : Char) (cs : List Char) : Lexeme :=
  ⟨kind, [c], cs⟩

/-- The longest run of characters of the class `p`, after the first one. -/
def run (kind : List Char → Token.Kind) (p : Char → Bool) (c : Char) (cs : List Char) : Lexeme :=
  ⟨kind (cs.takeWhile p), c :: cs.takeWhile p, cs.dropWhile p⟩

/-- After a backslash: a run of ASCII letters, or else one character of any sort. -/
def control (cs : List Char) : Lexeme :=
  match cs with
  | [] => ⟨.loneBackslash, ['\\'], []⟩
  | c :: rest =>
    if c.isAlpha then
      run (fun name => .command (String.ofList name)) Char.isAlpha '\\' cs
    else
      ⟨.command (String.singleton c), ['\\', c], rest⟩

/-- The token that starts with the character `c`, when the characters `cs` follow. -/
def read (c : Char) (cs : List Char) : Lexeme :=
  if c = '{' then single .groupOpen c cs
  else if c = '}' then single .groupClose c cs
  else if c = '[' then single .optionalOpen c cs
  else if c = ']' then single .optionalClose c cs
  else if c = '%' then run (fun t => .comment (String.ofList (Text.trim t))) (· != '\n') c cs
  else if c = '\\' then control cs
  else if Text.isBlank c then run (fun _ => .blank) Text.isBlank c cs
  else if c.isDigit then run (fun ds => .digits (String.ofList (c :: ds))) Char.isDigit c cs
  else if Text.isLetter c then single (.letter c) c cs
  else single (.punct c) c cs

theorem text_append_rest_run (kind : List Char → Token.Kind) (p : Char → Bool) (c : Char)
    (cs : List Char) : (run kind p c cs).text ++ (run kind p c cs).rest = c :: cs := by
  simp [run]

theorem text_append_rest_control (cs : List Char) :
    (control cs).text ++ (control cs).rest = '\\' :: cs := by
  unfold control
  split
  · rfl
  · split
    · exact text_append_rest_run ..
    · rfl

/-- Nothing is lost: the characters taken and those left make up the text. -/
theorem text_append_rest (c : Char) (cs : List Char) :
    (read c cs).text ++ (read c cs).rest = c :: cs := by
  unfold read
  repeat' split
  all_goals first
    | exact text_append_rest_run ..
    | rfl
    | (subst_vars; exact text_append_rest_control cs)

theorem text_ne_nil_control (cs : List Char) : (control cs).text ≠ [] := by
  unfold control
  repeat' split
  all_goals simp [run]

/-- A token covers at least one character. -/
theorem text_ne_nil (c : Char) (cs : List Char) : (read c cs).text ≠ [] := by
  unfold read
  repeat' split
  all_goals first
    | exact text_ne_nil_control cs
    | simp [single, run]

theorem length_rest_lt (c : Char) (cs : List Char) :
    (read c cs).rest.length < (c :: cs).length := by
  have h := congrArg List.length (text_append_rest c cs)
  have hpos := List.length_pos_iff.mpr (text_ne_nil c cs)
  simp only [List.length_append, List.length_cons] at h ⊢
  omega

end Lexeme

namespace Token

/-- The token at the front of a text that starts at byte `offset`, and the text after it. -/
def next (offset : Nat) : List Char → Token × List Char
  | [] => (⟨.ending, offset, offset⟩, [])
  | c :: cs =>
    let lexeme := Lexeme.read c cs
    (⟨lexeme.kind, offset, offset + Text.byteLength lexeme.text⟩, lexeme.rest)

/-- The tokens of a text that starts at byte `offset`, with `ending` as the last. -/
def scan (offset : Nat) : List Char → List Token
  | [] => [⟨.ending, offset, offset⟩]
  | c :: cs =>
    (next offset (c :: cs)).1 :: scan (next offset (c :: cs)).1.stop (Lexeme.read c cs).rest
termination_by cs => cs.length
decreasing_by exact Lexeme.length_rest_lt c cs

/-- The first `count` tokens of a text; past its end each one is `ending`. -/
def scanFirst (offset : Nat) : (count : Nat) → List Char → List Token
  | 0, _ => []
  | count + 1, cs =>
    let (token, rest) := next offset cs
    token :: scanFirst token.stop count rest

/-- The tokens of a source text. -/
def ofSource (source : String) : List Token :=
  scan 0 source.toList

/-- The tokens that carry meaning: neither separators nor the end of the text. -/
def meaningful (source : String) : List Token :=
  (ofSource source).filter fun t => !t.kind.isSeparator && t.kind != .ending

end Token

end TexFormula
