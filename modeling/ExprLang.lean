import ExprLang.CharClass
import ExprLang.CommandLine
import ExprLang.Cursor
import ExprLang.Cursor.Reading
import ExprLang.Error
import ExprLang.Lexer
import ExprLang.Location
import ExprLang.Log
import ExprLang.Main
import ExprLang.Numeral.Binary64
import ExprLang.Numeral.Decimal
import ExprLang.Numeral.Layout
import ExprLang.Numeral.Shortest
import ExprLang.Operator
import ExprLang.Parser.Expression
import ExprLang.Parser.Operand
import ExprLang.Parser.Outcome
import ExprLang.Parser.Program
import ExprLang.Proofs.Acceptance
import ExprLang.Proofs.Agenda
import ExprLang.Proofs.Agenda.Descent
import ExprLang.Proofs.Agenda.Prefix
import ExprLang.Proofs.Agenda.Words
import ExprLang.Proofs.Agreement
import ExprLang.Proofs.Chain
import ExprLang.Proofs.Chain.Nesting
import ExprLang.Proofs.Concatenation
import ExprLang.Proofs.Continuation
import ExprLang.Proofs.Delivery
import ExprLang.Proofs.Delivery.Telling
import ExprLang.Proofs.Flattening
import ExprLang.Proofs.Gap
import ExprLang.Proofs.Grammar
import ExprLang.Proofs.Grammar.Parts
import ExprLang.Proofs.Invocation
import ExprLang.Proofs.Lexeme
import ExprLang.Proofs.LexicalError
import ExprLang.Proofs.Literals
import ExprLang.Proofs.LookAhead
import ExprLang.Proofs.Narration
import ExprLang.Proofs.Narration.Descent
import ExprLang.Proofs.Narration.Records
import ExprLang.Proofs.OpenList
import ExprLang.Proofs.Parses
import ExprLang.Proofs.Parses.Equivalence
import ExprLang.Proofs.Pending
import ExprLang.Proofs.Printing
import ExprLang.Proofs.Printing.Tokens
import ExprLang.Proofs.PullParser
import ExprLang.Proofs.Relocation
import ExprLang.Proofs.Rendering
import ExprLang.Proofs.Rendering.Floats
import ExprLang.Proofs.Rendering.Headers
import ExprLang.Proofs.Rendering.Quoted
import ExprLang.Proofs.Rendering.Texts
import ExprLang.Proofs.Rendering.Tokens
import ExprLang.Proofs.Repetition
import ExprLang.Proofs.RoundTrip
import ExprLang.Proofs.Segmentation
import ExprLang.Proofs.Separation
import ExprLang.Proofs.Stream
import ExprLang.Proofs.Success
import ExprLang.Proofs.ViablePrefix
import ExprLang.Proofs.Walk
import ExprLang.Proofs.WellFormed
import ExprLang.PullParser.Outcome
import ExprLang.PullParser.Program
import ExprLang.Session
import ExprLang.Text.Blank
import ExprLang.Text.Escaped
import ExprLang.Token
import ExprLang.TokenStream
import ExprLang.Tree
import ExprLang.Tree.Outline
