import ExprLang.Token

set_option autoImplicit false

/-! # Errors

Why a text is no program: because it does not fall into tokens (`LexError`), or because its
tokens do not fall into a tree (`SyntaxError`). A parser may meet either (`ParseError`). The
constructors say what went wrong and where; `message` puts it into words.
-/

namespace ExprLang

/-- Why no token can be read. -/
inductive LexError where
  /-- No token begins with this character. -/
  | unexpectedCharacter (c : Char) (location : Location)
  /-- The text ends inside the quoted literal that begins here. -/
  | unterminatedLiteral (kind : Token.Kind) (location : Location)
  /-- The backslash at this location stands before a character that names no escape. -/
  | unknownEscape (c : Char) (location : Location)
  deriving DecidableEq, Repr

namespace LexError

/-- Where the error is. -/
def location : LexError → Location
  | .unexpectedCharacter _ l => l
  | .unterminatedLiteral _ l => l
  | .unknownEscape _ l => l

/-- What is wrong, without the place. -/
def complaint : LexError → String
  | .unexpectedCharacter c _ => "unexpected character '" ++ Text.escape c.toString ++ "'"
  | .unterminatedLiteral kind _ => "unterminated " ++ kind.name ++ " literal"
  | .unknownEscape c _ => "unknown escape sequence '\\" ++ Text.escape c.toString ++ "'"

/-- The place and what is wrong there. -/
def message (e : LexError) : String := e.location.text ++ ": " ++ e.complaint

end LexError

/-- Why the tokens that were read cannot go on as they do. -/
inductive SyntaxError where
  /-- No expression begins with this token. -/
  | unexpectedToken (found : Token)
  /-- Only a token of this kind and value could stand here. An identifier may have any name;
  its value is given as the empty text. -/
  | expectedToken (found : Token) (kind : Token.Kind) (value : String)
  /-- The token is a literal that stands for no value. -/
  | invalidLiteral (found : Token) (reason : String)
  deriving DecidableEq, Repr

namespace SyntaxError

/-- The token at which reading stopped. -/
def found : SyntaxError → Token
  | .unexpectedToken t => t
  | .expectedToken t _ _ => t
  | .invalidLiteral t _ => t

/-- Where the error is. -/
def location (e : SyntaxError) : Location := e.found.location

/-- The token found and what is wrong with it. -/
def message : SyntaxError → String
  | .unexpectedToken t => "unexpected token " ++ t.text
  | .expectedToken t kind value =>
    "unexpected token " ++ t.text ++ ", expected " ++ kind.name ++ " '" ++ value ++ "'"
  | .invalidLiteral t reason => "invalid literal " ++ t.text ++ ": " ++ reason

/-- The reason why an integer literal above the largest integer is invalid. -/
def numberTooLarge : String := "number too large to fit in target type"

/-- The reason why a character literal of no or several characters is invalid. -/
def notOneCharacter : String := "char literal must hold exactly one character"

end SyntaxError

/-- Why a text is no program. -/
inductive ParseError where
  | lexical (e : LexError)
  | syntactic (e : SyntaxError)
  deriving DecidableEq, Repr

namespace ParseError

/-- Where the error is. -/
def location : ParseError → Location
  | .lexical e => e.location
  | .syntactic e => e.location

/-- Which of the two halves of reading failed, where, and why. -/
def message : ParseError → String
  | .lexical e => "Lexer error at " ++ e.message
  | .syntactic e => "Parse error at " ++ e.location.text ++ ": " ++ e.message

end ParseError

end ExprLang
