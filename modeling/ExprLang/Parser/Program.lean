import ExprLang.Lexer
import ExprLang.Parser.Expression

set_option autoImplicit false

/-! # Programs

A program is a row of expressions, each with a semicolon behind it, up to the end of the text.
What follows a failure can be parsed as a program again, from the token at which, or behind
which, the failure left the stream.
-/

namespace ExprLang

namespace Parser

/-- The statements up to the end of the text. -/
def statements (s : TokenStream) : Outcome (List Tree) (s.size + 1) :=
  look s fun t =>
    -- the end is looked at and stays ahead, so it is told here and not where it is taken
    if t.isEof then .ok [] s (Nat.lt_succ_self _) [.read t]
    else
      (expression s).andThen fun e r _ =>
      (expect .punctuation ";" r).andThen fun _ r' _ =>
      (statements r').andThen fun es r'' _ => .ok (e :: es) r'' (by omega) []
termination_by s.size

/-- A program, which is where its first token is. -/
def program (s : TokenStream) : Outcome Tree (s.size + 1) :=
  look s fun t =>
    (statements s).andThen fun es r h => .ok (.block es t.location) r h [.program es.length]

end Parser

/-- The program that a text is, or why it is none. -/
def parse (text : String) : Except ParseError Tree := (Parser.program (.ofText text)).result

end ExprLang
