import TexFormula.Parser.Operand

/-!
# Expressions

Reads an operand and then, as long as they bind tightly enough, the operators and factors that
follow it. `chain` is the loop; `within` ties the knot between an expression and the expressions
inside it, one level of nesting at a time.
-/

namespace TexFormula.Parser

variable (env : Env) (inner : Inner)

/-- An operator applied to the operands on both sides. If the left one is a chain of the same
operator, read without parentheses, the chain grows by the right one. -/
def extend (name : String) (chained : Bool) (lhs rhs : Expression) : Expression :=
  match chained, lhs with
  | true, .apply head arguments => .apply head (arguments ++ [rhs])
  | _, lhs => .function name [lhs, rhs]

/-- The name of the chain that an application of a notation can go on with. -/
def chainName? (n : Notation) : Option String :=
  if n.isVariadic then some n.name else none

/-- How tightly the operators in the right operand must bind. -/
def rightPrecedence (n : Notation) : Precedence :=
  match n.associativity with
  | .right => n.precedence
  | _ => n.precedence.tighter

/-- Applies an operator whose trigger has been read to the operand before it. `chain` is the name of
the variadic operator whose chain that operand is. -/
def applyOperator (n : Notation) (lhs : Expression) (chain : Option String) :
    Parser (Option Expression) :=
  match n.reader with
  | some hook => run env inner (hook (some lhs))
  | none =>
    match n.kind with
    | .postfixOp => return some (.function n.name [lhs])
    | .infixOp variadic => do
      let rhs ← inner.expression (rightPrecedence n)
      if rhs.isMissing then
        recordHere env .expectedOperand (String.ofList (Text.trim n.glyph.toList))
      return some (extend n.name (variadic && chain == some n.name) lhs rhs)
    | _ => return some lhs

/-- Applies the first operator that does not decline, and tells which one it was. -/
def firstOperator (lhs : Expression) (chain : Option String) :
    List Notation → Parser (Option (Expression × Notation))
  | [] => return none
  | n :: rest =>
    orElse
      (attempt do
        advance
        return (← applyOperator env inner n lhs chain).map fun e => (e, n))
      (firstOperator lhs chain rest)

/-- The operators filed under a trigger that bind tightly enough. -/
def candidates (trigger : String) (loosest : Precedence) : List Notation :=
  (env.dictionary.operators trigger).filter fun n => loosest ≤ n.precedence

/-- Reads the operators and factors that follow an operand. Every step reads a token, so as many
steps as there are tokens are enough. -/
def chain (loosest : Precedence) :
    (fuel : Nat) → (lhs : Operand) → (chained : Option String) → Parser Expression
  | 0, lhs, _ => return lhs.expression
  | fuel + 1, lhs, chained => do
    skipSpacing
    if ← atTerminator env then
      return lhs.expression
    else
      let t ← current env
      if lhs.callable && t.isPunct '(' then
        let arguments ← delimitedArguments env inner
        chain loosest fuel ⟨.apply lhs.expression arguments, true⟩ none
      else
        match t.trigger?.filter env.dictionary.hasOperator with
        | some trigger =>
          let fitting := candidates env trigger loosest
          match ← firstOperator env inner lhs.expression chained fitting with
          | some (e, n) => chain loosest fuel ⟨e, false⟩ (chainName? n)
          | none => return lhs.expression
        | none =>
          if Precedence.multiplication < loosest then
            return lhs.expression
          else
            let before := (← get).position
            let factor ← inner.expression Precedence.multiplication.tighter
            if (← get).position == before || factor.isMissing then
              return lhs.expression
            else
              let product := extend "Multiply" (chained == some "Multiply") lhs.expression factor
              chain loosest fuel ⟨product, false⟩ (some "Multiply")

/-- Reads an expression whose operators bind at least as tightly as `loosest`. An operator without
an operand before it is reported. -/
def expressionAt (loosest : Precedence) : Parser Expression := do
  match ← operand env inner with
  | some lhs => chain env inner loosest (← get).rest.length lhs none
  | none =>
    let t ← current env
    match t.trigger?.filter env.dictionary.hasOperator with
    | some trigger =>
      if ← atTerminator env then
        return .missing
      else
        recordAt t .expectedOperand trigger
        chain env inner loosest (← get).rest.length { expression := .missing } none
    | none => return .missing

/-- The readers of one level, for at most the given number of further levels. A level is made when it
is read from and not before. -/
def within : (levels : Nat) → Inner
  | 0 =>
    { expression := fun _ => throw (.depthExceeded env.options.maxDepth)
      operand := throw (.depthExceeded env.options.maxDepth) }
  | levels + 1 =>
    { expression := fun loosest => descend env (expressionAt env (within levels) loosest)
      operand := fun s =>
        ((fun o => o.map Operand.expression) <$> descend env (operand env (within levels))) s }

/-- The readers of the outermost level. With as many levels as the limit allows, it is always the
limit that ends a parse. -/
def Env.readers : Inner :=
  within env env.options.maxDepth

end TexFormula.Parser
