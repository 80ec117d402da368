import TexFormula.Dialect
import TexFormula.MathJson
import TexFormula.Yaml.Printer
import TexFormula.Proofs.ParserRun
import TexFormula.Proofs.Congruence
import TexFormula.Proofs.Nesting
import TexFormula.Proofs.Lockstep
import TexFormula.Proofs.StandardHooks
import TexFormula.Proofs.Idle
import TexFormula.Proofs.Lockstep.Expression
import TexFormula.Proofs.DecliningNotation
import TexFormula.Proofs.WrittenLevels
import TexFormula.Proofs.WriterLevels
import TexFormula.Proofs.ParsedLevels
import TexFormula.Proofs.ParsedLevels.Operand
import TexFormula.Proofs.ParsedLevels.Expression
import TexFormula.Proofs.NestingLimit
import TexFormula.Proofs.Checkpoint
import TexFormula.Proofs.Operations
import TexFormula.Proofs.Reads
import TexFormula.Proofs.OperatorTable
import TexFormula.Proofs.OperatorTable.RoundTrip
import TexFormula.Proofs.DigitRuns
import TexFormula.Proofs.WholeDoubles
import TexFormula.Proofs.RoundingInterval
import TexFormula.Proofs.ShortestDigits
import TexFormula.Proofs.Value
import TexFormula.Proofs.NumberLiterals
import TexFormula.Proofs.DoubleTexts
import TexFormula.Proofs.WholeNumerals
import TexFormula.Proofs.Numerals
import TexFormula.Proofs.NumberTexts
import TexFormula.Proofs.Arithmetic.Units
import TexFormula.Proofs.Arithmetic.Products
import TexFormula.Proofs.Arithmetic.Sums
import TexFormula.Proofs.NumberReading
import TexFormula.Proofs.Arithmetic.Texts
import TexFormula.Proofs.Arithmetic.Writing
import TexFormula.Proofs.Arithmetic.Expressions
import TexFormula.Proofs.Arithmetic.RoundTrip
import TexFormula.Proofs.Arithmetic.Rereading
import TexFormula.Proofs.Arithmetic.Becomes
import TexFormula.Proofs.Arithmetic.TextForms
import TexFormula.Proofs.Arithmetic.Stable
import TexFormula.Proofs.Arithmetic.Rewriting
import TexFormula.Proofs.NumberRoundTrip
import TexFormula.Proofs.AliasChains
import TexFormula.Proofs.ResolvedNotations
import TexFormula.Proofs.ReadsAlike
import TexFormula.Proofs.ShadowedOperators
import TexFormula.Proofs.MissingOperands
import TexFormula.Proofs.ExpressionEnds
import TexFormula.Proofs.Tokenization
import TexFormula.Proofs.MathJsonRoundTrip
import TexFormula.Proofs.SideBySide
import TexFormula.Proofs.SideBySide.Numeral
import TexFormula.Proofs.SideBySide.Group
import TexFormula.Proofs.SideBySide.Operand
import TexFormula.Proofs.SideBySide.Expression
import TexFormula.Proofs.SideBySide.Source
import TexFormula.Proofs.Layout
import TexFormula.Proofs.Overrides
import TexFormula.Proofs.ParsedMathJson
import TexFormula.Proofs.ReportedErrors
import TexFormula.Proofs.BalancedDelimiters
import TexFormula.Proofs.TextRoundTrip
import TexFormula.Proofs.Places
import TexFormula.Proofs.QuotedTexts
import TexFormula.Proofs.QuotedTexts.Operand
import TexFormula.Proofs.SourceSpans
import TexFormula.Proofs.Juxtaposition
import TexFormula.Proofs.OpenPlaces
import TexFormula.Proofs.Factors
import TexFormula.Proofs.SlotTexts
import TexFormula.Proofs.Identifiers
import TexFormula.Proofs.ProductRoundTrip
import TexFormula.Proofs.OpenPlacesRoundTrip
import TexFormula.Proofs.AdjoiningTexts
import TexFormula.Proofs.WrittenTokens
import TexFormula.Proofs.ArgumentLists
import TexFormula.Proofs.Replays
import TexFormula.Proofs.Stranded
import TexFormula.Proofs.SourcePieces
import TexFormula.Proofs.Excerpt
import TexFormula.Proofs.Excerpt.Numeral
import TexFormula.Proofs.Excerpt.Group
import TexFormula.Proofs.Excerpt.Operand
import TexFormula.Proofs.Excerpt.Unknown
import TexFormula.Proofs.Excerpt.Expression
import TexFormula.Proofs.Excerpt.Groups
import TexFormula.Proofs.UnknownCommands
import TexFormula.Proofs.SkippedLetters.Source
import TexFormula.Proofs.WrittenArguments
import TexFormula.Proofs.CommaChains
import TexFormula.Proofs.SignedSuffixes
import TexFormula.Proofs.Bars
import TexFormula.Proofs.NestedDelimiters
import TexFormula.Proofs.JoinedTokens
import TexFormula.Proofs.Cycles
import TexFormula.Proofs.WrittenDecimals
import TexFormula.Proofs.NumberNotations
import TexFormula.Proofs.DigitBudget
import TexFormula.Proofs.Payloads
import TexFormula.Proofs.UnclosedGroups
import TexFormula.Proofs.OperatorChains
import TexFormula.Proofs.ProductChains
import TexFormula.Proofs.VisitedNodes
import TexFormula.Proofs.UnwrittenDictionaries
import TexFormula.Proofs.WritingDepth
import TexFormula.Proofs.DigitArguments
import TexFormula.Proofs.BareGroups
import TexFormula.Proofs.SignedFactors
import TexFormula.Proofs.SignedQuotients
import TexFormula.Proofs.BracedTexts
import TexFormula.Proofs.NameRoundTrip
