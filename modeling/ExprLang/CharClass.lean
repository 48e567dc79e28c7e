import ExprLang.Text.Blank

set_option autoImplicit false

/-! # Character classes and fixed tables

What a lexer decides by: the classes of characters that begin and continue a token, the
reserved words and the escapes of quoted literals. All classes but that of blanks hold ASCII
characters only.
-/

namespace ExprLang.CharClass

/-- Blanks separate tokens and mean nothing else. -/
def isBlank (c : Char) : Bool := Text.isBlank c

/-- A comment runs from this character up to the end of its line. -/
def isCommentStart (c : Char) : Bool := c == '#'

/-- The digits from 0 to 9. -/
def isDigit (c : Char) : Bool := '0' ≤ c && c ≤ '9'

/-- The letters of ASCII. -/
def isLetter (c : Char) : Bool := ('a' ≤ c && c ≤ 'z') || ('A' ≤ c && c ≤ 'Z')

/-- Letters, digits and the underscore make up names. -/
def isNameChar (c : Char) : Bool := isLetter c || isDigit c || c == '_'

/-- The quote around a character literal. -/
def charQuote : Char := '\''

/-- The quote around a string literal. -/
def stringQuote : Char := '"'

/-- Is `c` the quote around a character literal? -/
def isCharQuote (c : Char) : Bool := c == charQuote

/-- Is `c` the quote around a string literal? -/
def isStringQuote (c : Char) : Bool := c == stringQuote

/-- The characters that operators are made of. -/
def operatorChars : List Char :=
  ['+', '-', '*', '/', '%', '=', '<', '>', '!', '&', '|', '^', '.', ':']

/-- Can `c` stand in an operator? -/
def isOperatorChar (c : Char) : Bool := operatorChars.contains c

/-- The characters that are tokens by themselves. -/
def punctuationChars : List Char := ['(', ')', '[', ']', '{', '}', ';', ',']

/-- Is `c` a token by itself? -/
def isPunctuationChar (c : Char) : Bool := punctuationChars.contains c

/-- The reserved words. Those for returning and branching have no use yet. -/
def keywords : List String :=
  ["true", "false", "def", "return", "const", "mut", "if", "else"]

/-- Is `text` a reserved word? -/
def isKeyword (text : String) : Bool := keywords.contains text

/-- The character that a backslash and `c` stand for in a quoted literal, if they stand for
one. -/
def unescape : Char → Option Char
  | 'n' => some '\n'
  | 'r' => some '\r'
  | 't' => some '\t'
  | 'v' => some '\x0b'
  | 'b' => some '\x08'
  | 'a' => some '\x07'
  | 'f' => some '\x0c'
  | '\\' => some '\\'
  | '\'' => some '\''
  | '"' => some '"'
  | '0' => some '\x00'
  | _ => none

/-- A digit is a character of names. -/
theorem isNameChar_of_isDigit {c : Char} (h : isDigit c = true) : isNameChar c = true := by
  simp [isNameChar, h]

end ExprLang.CharClass
