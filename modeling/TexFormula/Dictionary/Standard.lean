import TexFormula.Dictionary
import TexFormula.Notation.Readers
import TexFormula.Notation.Writers

/-!
# The standard dictionary

The notations of school mathematics: letters, arithmetic, relations, logic, sequences and the
elementary functions.
-/

namespace TexFormula.Dictionary

open Notation Precedence

/-- The Greek letters that have a command of their own name. -/
def greek : List String :=
  ["alpha", "beta", "gamma", "delta", "epsilon", "varepsilon", "zeta", "eta", "theta", "vartheta",
    "iota", "kappa", "lambda", "mu", "nu", "xi", "rho", "sigma", "tau", "upsilon", "phi", "varphi",
    "chi", "psi", "omega", "Gamma", "Delta", "Theta", "Lambda", "Xi", "Sigma", "Upsilon", "Phi",
    "Psi", "Omega"]

def letters : List Notation :=
  ofSymbol "Pi" "\\pi" :: greek.map fun name => ofSymbol name ("\\" ++ name)

def arithmetic : List Notation :=
  [ ((ofInfix "Add" "+" addition).variadic.withArity 0 none).withWriter Writers.sum,
    ((ofPrefix "Add" "+" addition).withReader Readers.unaryPlus).onlyParsed,
    ofInfix "Subtract" "-" addition,
    ofPrefix "Negate" "-" addition,
    ((ofInfix "Multiply" "\\times" multiplication).variadic.withArity 0 none).withWriter
      Writers.product,
    (ofInfix "Multiply" "\\cdot" multiplication).variadic.onlyParsed,
    (ofInfix "Multiply" "*" multiplication).variadic.onlyParsed,
    (ofInfix "Divide" "/" division).onlyParsed,
    ofCommand "Divide" "\\frac" 2,
    (ofCommand "Divide" "\\dfrac" 2).onlyParsed,
    (ofCommand "Divide" "\\tfrac" 2).onlyParsed,
    (ofCommand "Rational" "\\frac" 2).onlySerialized,
    ((ofInfix "Power" "^" power).rightAssociative.withReader Readers.power).withWriter
      Writers.power,
    ((ofInfix "Subscript" "_" power).rightAssociative.withReader Readers.subscript).withWriter
      Writers.subscript,
    (ofCommand "Sqrt" "\\sqrt" 1).withReader Readers.squareRoot,
    ofWriter "Root" Writers.root,
    ofPostfix "Factorial" "!" trailing ]

def delimiters : List Notation :=
  [ (ofMatchfix "Abs" "|" "|").withArity 1 (some 1),
    (ofMatchfix "Abs" "\\lvert" "\\rvert").onlyParsed,
    ofMatchfix "List" "[" "]" ]

def relations : List Notation :=
  [ (ofInfix "Equal" "=" equality).nonAssociative,
    (ofInfix "NotEqual" "\\ne" inequality).nonAssociative,
    (ofInfix "NotEqual" "\\neq" inequality).onlyParsed,
    (ofInfix "Less" "<" ordering).nonAssociative,
    (ofInfix "LessEqual" "\\le" ordering).nonAssociative,
    (ofInfix "LessEqual" "\\leq" ordering).onlyParsed,
    (ofInfix "Greater" ">" ordering).nonAssociative,
    (ofInfix "GreaterEqual" "\\ge" ordering).nonAssociative,
    (ofInfix "GreaterEqual" "\\geq" ordering).onlyParsed ]

def logic : List Notation :=
  [ (ofInfix "And" "\\land" conjunction).variadic,
    (ofInfix "And" "\\wedge" conjunction).variadic.onlyParsed,
    (ofInfix "Or" "\\lor" disjunction).variadic,
    (ofInfix "Or" "\\vee" disjunction).variadic.onlyParsed,
    ofPrefix "Not" "\\lnot" negation ]

def sequences : List Notation :=
  [((ofInfix "Sequence" "," sequence).variadic.withArity 0 none).withLatex ", "]

def functions : List Notation :=
  [ ofFunction "Sin" "\\sin",
    ofFunction "Cos" "\\cos",
    ofFunction "Tan" "\\tan",
    ofFunction "Ln" "\\ln",
    ofFunction "Log" "\\log",
    ofFunction "Exp" "\\exp" ]

/-- Commands that are read and never written. -/
def readCommands : List Notation :=
  [ ofReader "Identifier" "\\operatorname" Readers.identifier,
    ofReader "Identifier" "\\mathrm" Readers.identifier,
    ofReader "Text" "\\text" Readers.text,
    ofReader "Placeholder" "\\placeholder" Readers.placeholder,
    ofReader "PositiveInfinity" "\\infty" Readers.infinity ]

/-- Nodes that are written and never read. -/
def writtenNodes : List Notation :=
  [ ofWriter "Error" Writers.error,
    ofWriter "LatexString" Writers.latexString,
    ofWriter "LatexTokens" Writers.latexTokens ]

/-- The standard notations in the order of their definition. -/
def standardEntries : List Notation :=
  letters ++ arithmetic ++ delimiters ++ relations ++ logic ++ sequences ++ functions ++
    readCommands ++ writtenNodes

/-- The standard dictionary. It has no aliases. -/
def standard : Dictionary :=
  ⟨standardEntries, []⟩

end TexFormula.Dictionary
