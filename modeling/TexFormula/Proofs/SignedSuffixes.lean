import TexFormula.Proofs.NumberReading

/-!
# Suffixes behind a minus sign

Factorials, exponents and indices bind more tightly than a minus sign in front. Behind a letter, the
minus sign is therefore an operator whose operand has all the suffixes (`parse_suffixes`). In front of
digits, it belongs to the number unless the first suffix is an exponent; any other chain of suffixes is
put on the negative number.
-/

open TexFormula.Parser

namespace TexFormula

/-! ### Suffixes -/

abbrev Letter : Type :=
  {c : Char // Text.isLetter c = true}

def Letter.name (k : Letter) : String :=
  String.singleton k.1

theorem Letter.spells_name (k : Letter) : Spells k.name.toList (Token.one (.letter k.1)) := by
  rw [name, String.toList_singleton]
  exact .letter k.2

/-- What can stand behind an operand. An exponent or an index is a letter in braces. -/
inductive Suffix
  | factorial
  | power (k : Letter)
  | subscript (k : Letter)

namespace Suffix

def text : Suffix → String
  | factorial => "!"
  | power k => "^" ++ Text.braced k.name
  | subscript k => "_" ++ Text.braced k.name

def apply (e : Expression) : Suffix → Expression
  | factorial => .function "Factorial" [e]
  | power k => .function "Power" [e, .symbol k.name]
  | subscript k => .function "Subscript" [e, .symbol k.name]

def texts (w : List Suffix) : String :=
  String.join (w.map text)

/-- The first suffix is an exponent. -/
def Raised (w : List Suffix) : Prop :=
  ∃ k w', w = power k :: w'

instance : DecidablePred Raised
  | [] => .isFalse nofun
  | factorial :: _ => .isFalse nofun
  | power k :: w => .isTrue ⟨k, w, rfl⟩
  | subscript _ :: _ => .isFalse nofun

theorem isMissing_foldl_apply (w : List Suffix) {e : Expression} (he : e.isMissing = false) :
    (w.foldl apply e).isMissing = false := by
  induction w generalizing e with
  | nil => exact he
  | cons x w ih => exact ih (by cases x <;> rfl)

/-! ### Tokens of suffixes -/

def scriptTokens (mark : Char) (k : Letter) : Language Token :=
  Token.one (.punct mark) *
    (Token.one .groupOpen * (Token.one (.letter k.1) * Token.one .groupClose))

/-- The character that a suffix starts with. -/
def mark : Suffix → Char
  | factorial => '!'
  | power _ => '^'
  | subscript _ => '_'

def tokens : Suffix → Language Token
  | factorial => Token.one (.punct '!')
  | power k => scriptTokens '^' k
  | subscript k => scriptTokens '_' k

def chainTokens (w : List Suffix) : Language Token :=
  (w.map tokens).prod

section

variable {left : String} {P : Language Token}

theorem spells_append_script (h : Spells left.toList P) {trigger : String} {mark : Char}
    (hmark : Lexeme.Mark trigger.toList (.punct mark)) (k : Letter) :
    Spells (left ++ (trigger ++ Text.braced k.name)).toList (P * scriptTokens mark k) := by
  rw [scriptTokens, ← mul_assoc, ← String.append_assoc]
  exact (h.appendMark hmark).appendBraced k.spells_name

theorem spells_append_text (h : Spells left.toList P) (x : Suffix) :
    Spells (left ++ x.text).toList (P * x.tokens) := by
  cases x with
  | factorial =>
    have hmark : Lexeme.Mark "!".toList (.punct '!') := .punct fun _ => rfl
    exact h.appendMark hmark
  | power k =>
    have hmark : Lexeme.Mark "^".toList (.punct '^') := .punct fun _ => rfl
    exact spells_append_script h hmark k
  | subscript k =>
    have hmark : Lexeme.Mark "_".toList (.punct '_') := .punct fun _ => rfl
    exact spells_append_script h hmark k

/-- By induction on the chain, with what stands in front of it. -/
theorem spells_append_texts (h : Spells left.toList P) (w : List Suffix) :
    Spells (left ++ texts w).toList (P * chainTokens w) := by
  induction w generalizing left P with
  | nil => simpa [texts, chainTokens] using h
  | cons x w ih =>
    have hrest := ih (spells_append_text h x)
    rw [String.append_assoc, mul_assoc] at hrest
    simpa [texts, chainTokens] using hrest

end

end Suffix

namespace Parser

variable {env : Env} {inner outer : Inner} {p : Precedence} {follow : List Token → Prop}
  {P : Language Token} {e : Expression} {x : Suffix} {w : List Suffix}

/-! ### Reading suffixes -/

/-- A letter as an exponent or an index. -/
theorem Reads.letterScript (henv : env.IsStandard) {mark : Char} {name trigger : String}
    {writer : WritingHook} (hfree : Free (.punct mark)) (htrigger : String.singleton mark = trigger)
    (hoperators : Dictionary.standard.operators trigger =
      [((Notation.ofInfix name trigger .power).rightAssociative.withReader
        (Readers.script name trigger)).withWriter writer])
    (houter : outer.expression .loosest = expressionAt env inner .loosest)
    (h : Reads env outer delimited p follow (fun o _ => o.expression = e) P) (hp : .power ≤ p)
    (hfollow : ∀ (t : Token) (after : List Token), t.kind = .punct mark → follow (t :: after))
    (k : Letter) (follow' : List Token → Prop) :
    Reads env outer delimited .power follow'
      (fun o _ => o = { expression := .function name [e, .symbol k.name] })
      (P * Suffix.scriptTokens mark k) := by
  rw [← henv.dictionary] at hoperators
  have hscript : Reads env inner delimited .atomic EndsSum _ (Token.one (.letter k.1)) :=
    .letter henv k.2 EndsSum
  refine (Reads.script hfree (congrArg some htrigger) hoperators houter h hp hfollow hscript
    follow').mono (Nat.le_refl _) (fun _ h => h) ?_
  rintro _ _ ⟨-, _, _, _, _, rfl, ⟨rfl, -⟩, rfl⟩
  rfl

theorem Reads.suffix (henv : env.IsStandard)
    (houter : outer.expression .loosest = expressionAt env inner .loosest)
    (h : Reads env outer delimited p follow (fun o _ => o.expression = e) P) (hp : .power ≤ p)
    (hfollow : ∀ (t : Token) (after : List Token), t.kind = .punct x.mark → follow (t :: after))
    (follow' : List Token → Prop) :
    Reads env outer delimited .power follow' (fun o _ => o = { expression := x.apply e })
      (P * x.tokens) := by
  cases x with
  | factorial =>
    refine (Reads.factorial henv h hp hfollow follow').mono (Nat.le_refl _) (fun _ h => h) ?_
    rintro _ _ ⟨-, a, _, rfl, rfl⟩
    rfl
  | power k =>
    have hfree : Free (.punct '^') := by decide
    exact .letterScript henv hfree rfl rfl houter h hp hfollow k follow'
  | subscript k =>
    have hfree : Free (.punct '_') := by decide
    exact .letterScript henv hfree rfl rfl houter h hp hfollow k follow'

/-- By induction on the chain: its suffixes are put on what stands in front, one after the other. -/
theorem Reads.suffixes (henv : env.IsStandard)
    (houter : outer.expression .loosest = expressionAt env inner .loosest)
    (h : Reads env outer delimited p follow (fun o _ => o.expression = e) P) (hp : .power ≤ p)
    (hfollow : ∀ (t : Token) (after : List Token), t.kind = .punct x.mark → follow (t :: after))
    (follow' : List Token → Prop) :
    Reads env outer delimited .power follow'
      (fun o _ => o = { expression := (x :: w).foldl Suffix.apply e })
      (P * Suffix.chainTokens (x :: w)) := by
  induction w generalizing x p follow e P with
  | nil => simpa [Suffix.chainTokens] using h.suffix henv houter hp hfollow follow'
  | cons y w ih =>
    have hfirst := h.suffix henv houter hp hfollow fun _ => True
    have hrest := ih (hfirst.mono (Nat.le_refl _) (fun _ h => h) fun o _ ho => congrArg _ ho)
      (x := y) (Nat.le_refl _) fun _ _ _ => trivial
    rw [mul_assoc] at hrest
    simpa [Suffix.chainTokens] using hrest

/-- What is read as the operand of a minus sign. -/
theorem Reads.negatedSuffixes (henv : env.IsStandard)
    (houter : outer.expression Precedence.addition.tighter =
      expressionAt env inner Precedence.addition.tighter) (he : e.isMissing = false)
    (h : Reads env inner delimited .power EndsSum (fun o _ => o = { expression := e }) P)
    (hminus : TakesMinus P) :
    Reads env outer delimited .power EndsSum
      (fun o _ => o = { expression := .function "Negate" [e] }) (Token.one (.punct '-') * P) := by
  have hsettles : Settles fun o (_ : Option String) => o = { expression := e } := by
    rintro _ _ rfl
    exact ⟨rfl, he⟩
  refine (Reads.negated hsettles henv houter h (by decide) hminus fun _ h => h.endsProduct).mono
    (Nat.le_refl _) (fun _ h => h) ?_
  rintro _ _ ⟨-, _, _, rfl, rfl⟩
  rfl

/-! ### The whole source -/

/-- What is read with the standard notations wherever there are enough levels is parsed. -/
theorem parse_eq_of_reads {text : String} (he : e.isMissing = false) (hspells : Spells text.toList P)
    (h : ∀ env : Env, env.IsStandard →
      Reads env (nested env 63) delimited .power EndsSum (fun o _ => o = { expression := e }) P) :
    parse .standard {} text = .ok ⟨e, []⟩ := by
  obtain ⟨_, _, rfl, hparse⟩ := (h ⟨text, .standard, {}⟩ ⟨rfl, rfl⟩).exists_parse_eq hspells nofun nofun
    rfl (by rintro _ _ rfl; exact he)
  exact hparse

end Parser

open Suffix

/-! ### Digits and letters -/

section

variable {run : String} {negative : Bool} {value : Number} {c : Letter} {x : Suffix} {w : List Suffix}

theorem spells_run (hrun : IsDigitRun run) : Spells run.toList (Token.one (.digits run)) := by
  have hspells := Spells.digits hrun.toList_ne_nil hrun.digits
  rwa [String.ofList_toList] at hspells

theorem spells_minus_append {left right : String} {P : Language Token}
    (h : Spells (left ++ right).toList P) :
    Spells ("-" ++ left ++ right).toList (Token.one (.punct '-') * P) := by
  rw [String.append_assoc, String.toList_append]
  exact Spells.minus.mul h (.of_ends rfl rfl _)

/-- In front of the suffix, digits end. A sign in front of them belongs to them unless the suffix is an
exponent. -/
theorem endsSigned_of_mark (hsign : negative = true → x.mark ≠ '^') {t : Token}
    (ht : t.kind = .punct x.mark) (after : List Token) : EndsSigned negative (t :: after) where
  toEndsDecimal := .of_punct ht (by cases x <;> simp [mark]) after
  unraised hnegative u hu := by
    rw [← Option.some.inj hu, Token.isPunct, ht]
    simpa using hsign hnegative

theorem reads_run (hrun : IsDigitRun run)
    (hvalue : Number.ofLiteral? ((if negative then "-" else "") ++ run) = some value)
    (hsign : negative = true → x.mark ≠ '^') {env : Env} (henv : env.IsStandard) (levels : Nat) :
    Reads env (nested env (levels + 1)) delimited .power EndsSum
      (fun o _ => o = { expression := (x :: w).foldl apply (.number value) })
      (signTokens negative * Token.one (.digits run) * chainTokens (x :: w)) := by
  refine Reads.suffixes henv rfl (((Reads.digitRun hrun hvalue).mono (Nat.le_refl _) (fun _ h => h)
    fun o _ ho => ?_)) (by decide) (fun t after ht => endsSigned_of_mark hsign ht after) EndsSum
  rw [ho.1]

theorem reads_name (c : Letter) {env : Env} (henv : env.IsStandard) (levels : Nat) :
    Reads env (nested env (levels + 1)) delimited .power EndsSum
      (fun o _ => o = { expression := (x :: w).foldl apply (.symbol c.name) })
      (Token.one (.letter c.1) * chainTokens (x :: w)) := by
  refine Reads.suffixes henv rfl ((Reads.letter henv c.2 fun _ => True).mono (Nat.le_refl _)
    (fun _ h => h) fun o _ ho => ?_) (by decide) (fun _ _ _ => trivial) EndsSum
  rw [ho.1]
  rfl

/-- Digits with suffixes behind them, and a sign in front if that is no operator. -/
theorem parse_signedRun (hrun : IsDigitRun run)
    (hvalue : Number.ofLiteral? ((if negative then "-" else "") ++ run) = some value)
    (hsign : negative = true → x.mark ≠ '^') :
    parse .standard {} ((if negative then "-" else "") ++ run ++ texts (x :: w)) =
      .ok ⟨(x :: w).foldl apply (.number value), []⟩ := by
  have hspells : Spells ((if negative then "-" else "") ++ run).toList
      (signTokens negative * Token.one (.digits run)) := by
    have hsigned := (spells_run hrun).signed negative
    cases negative <;> simpa using hsigned
  exact parse_eq_of_reads (isMissing_foldl_apply _ rfl) (spells_append_texts hspells (x :: w))
    fun _ henv => reads_run hrun hvalue hsign henv 62

/-- A minus sign in front of digits is an operator if an exponent comes first behind them. -/
theorem parse_minus_raisedRun (hrun : IsDigitRun run) (hvalue : Number.ofLiteral? run = some value)
    (k : Letter) :
    parse .standard {} ("-" ++ run ++ texts (power k :: w)) =
      .ok ⟨.function "Negate" [(power k :: w).foldl apply (.number value)], []⟩ := by
  have hspells := spells_append_texts (spells_run hrun) (power k :: w)
  have hmissing : ((power k :: w).foldl apply (.number value)).isMissing = false :=
    isMissing_foldl_apply _ rfl
  have hminus : TakesMinus (Token.one (.digits run) * chainTokens (power k :: w)) := by
    have hraised := (takesMinus_raisedRun hrun (Token.one .groupOpen *
      (Token.one (.letter k.1) * Token.one .groupClose))).mul (chainTokens w)
    rw [mul_assoc] at hraised
    exact hraised
  refine parse_eq_of_reads rfl (spells_minus_append hspells) fun _ henv =>
    Reads.negatedSuffixes henv rfl hmissing ?_ hminus
  have hunsigned : Number.ofLiteral? ((if false then "-" else "") ++ run) = some value := by
    simpa using hvalue
  simpa [signTokens] using reads_run hrun hunsigned (by rintro ⟨⟩) henv 61

theorem parse_name (c : Letter) :
    parse .standard {} (c.name ++ texts (x :: w)) =
      .ok ⟨(x :: w).foldl apply (.symbol c.name), []⟩ :=
  parse_eq_of_reads (isMissing_foldl_apply _ rfl) (spells_append_texts c.spells_name (x :: w))
    fun _ henv => reads_name c henv 62

theorem parse_minus_name (c : Letter) :
    parse .standard {} ("-" ++ c.name ++ texts (x :: w)) =
      .ok ⟨.function "Negate" [(x :: w).foldl apply (.symbol c.name)], []⟩ := by
  have hminus : TakesMinus (Token.one (.letter c.1)) := takesMinus_one (fun _ => nofun) nofun
  exact parse_eq_of_reads rfl (spells_minus_append (spells_append_texts c.spells_name (x :: w)))
    fun _ henv => Reads.negatedSuffixes henv rfl (isMissing_foldl_apply _ rfl)
      (reads_name c henv 61) (hminus.mul _)

end

/-- Behind a letter with suffixes, a minus sign is an operator. Behind digits, it is one just if the
first suffix is an exponent; else the suffixes are put on the negative number. -/
theorem parse_suffixes {run : String} (hrun : IsDigitRun run) {w : List Suffix} (hw : w ≠ [])
    (c : Letter) :
    (∃ value negated, Number.ofLiteral? run = some value ∧
      Number.ofLiteral? ("-" ++ run) = some negated ∧
      parse .standard {} (run ++ texts w) = .ok ⟨w.foldl apply (.number value), []⟩ ∧
      parse .standard {} ("-" ++ run ++ texts w) =
        .ok ⟨if Raised w then .function "Negate" [w.foldl apply (.number value)]
          else w.foldl apply (.number negated), []⟩) ∧
    parse .standard {} (c.name ++ texts w) = .ok ⟨w.foldl apply (.symbol c.name), []⟩ ∧
    parse .standard {} ("-" ++ c.name ++ texts w) =
      .ok ⟨.function "Negate" [w.foldl apply (.symbol c.name)], []⟩ := by
  obtain ⟨x, w, rfl⟩ := List.exists_cons_of_ne_nil hw
  obtain ⟨value, hvalue⟩ := hrun.exists_ofLiteral? false
  obtain ⟨negated, hnegated⟩ := hrun.exists_ofLiteral? true
  have hdigits := parse_signedRun (x := x) (w := w) hrun hvalue nofun
  refine ⟨⟨value, negated, by simpa using hvalue, by simpa using hnegated, by simpa using hdigits, ?_⟩,
    parse_name c, parse_minus_name c⟩
  split
  · next hraised =>
    obtain ⟨k, w, heq⟩ := hraised
    rw [heq]
    exact parse_minus_raisedRun hrun (by simpa using hvalue) k
  · next hraised =>
    have hmark : x.mark ≠ '^' := by
      intro hmark
      cases x with
      | power k => exact hraised ⟨k, w, rfl⟩
      | factorial => exact absurd hmark (by decide)
      | subscript k => exact absurd hmark (by simp [mark])
    simpa using parse_signedRun hrun hnegated fun _ => hmark

/-- The factorial of a negative number, and a negated factorial. -/
theorem parse_suffixes_factorial :
    IsDigitRun "5" ∧ [factorial] ≠ [] ∧
      (∃ negated, Number.ofLiteral? "-5" = some negated ∧
        parse .standard {} "-5!" = .ok ⟨.function "Factorial" [.number negated], []⟩) ∧
      parse .standard {} "-x!" = .ok ⟨.function "Negate" [.function "Factorial" [.symbol "x"]], []⟩ := by
  have hrun : IsDigitRun "5" := by decide
  obtain ⟨⟨_, negated, -, hnegated, -, hminus⟩, -, hletter⟩ :=
    parse_suffixes hrun (List.cons_ne_nil factorial []) ⟨'x', by decide⟩
  rw [if_neg (by decide)] at hminus
  exact ⟨hrun, List.cons_ne_nil _ _, ⟨negated, hnegated, hminus⟩, hletter⟩

/-- The factorial of digits behind a minus sign is not negated. -/
theorem not_parse_minus_factorial :
    IsDigitRun "5" ∧ [factorial] ≠ [] ∧
      ¬∃ e, parse .standard {} ("5" ++ texts [factorial]) = .ok ⟨e, []⟩ ∧
        parse .standard {} ("-" ++ "5" ++ texts [factorial]) = .ok ⟨.function "Negate" [e], []⟩ := by
  have hrun : IsDigitRun "5" := by decide
  refine ⟨hrun, List.cons_ne_nil _ _, ?_⟩
  rintro ⟨e, -, hparse⟩
  obtain ⟨negated, hnegated⟩ := hrun.exists_ofLiteral? true
  have hread := parse_signedRun (x := factorial) (w := []) hrun hnegated (by decide)
  rw [if_pos rfl, hparse] at hread
  injection hread with hread
  injection hread with hexpression
  injection hexpression with hhead
  injection hhead with hname
  exact absurd hname (by decide)

end TexFormula
