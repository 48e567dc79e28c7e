import ExprLang.Location
import ExprLang.Text.Escaped

set_option autoImplicit false

/-! # Tokens

A token has a kind, a value and the location of its first character. The value of a quoted
literal is its content with all escapes decoded; the value of any other token is its text.
-/

namespace ExprLang

/-- The kinds of tokens. -/
inductive Token.Kind where
  | eof
  | int
  | float
  | char
  | string
  | identifier
  | keyword
  | operator
  | punctuation
  deriving DecidableEq, Repr

/-- The name of a kind in messages. -/
def Token.Kind.name : Token.Kind → String
  | .eof => "EOF"
  | .int => "INT"
  | .float => "FLOAT"
  | .char => "CHAR"
  | .string => "STRING"
  | .identifier => "VAR"
  | .keyword => "KEYWORD"
  | .operator => "OP"
  | .punctuation => "PUNC"

/-- A piece of a source text that means something. -/
structure Token where
  kind : Token.Kind
  value : String
  location : Location
  deriving DecidableEq, Repr

namespace Token

/-- The token that stands for the end of the text. -/
def eof (l : Location) : Token := ⟨.eof, "", l⟩

/-- Does the token stand for the end of the text? -/
def isEof (t : Token) : Bool := t.kind == .eof

/-- Has the token this kind and this value? -/
def is (t : Token) (kind : Kind) (value : String) : Bool := t.kind == kind && t.value == value

/-- Is the token this punctuation character? -/
def isPunctuation (t : Token) (value : String) : Bool := t.is .punctuation value

/-- Is the token this reserved word? -/
def isKeyword (t : Token) (value : String) : Bool := t.is .keyword value

/-- Is the token this operator? -/
def isOperator (t : Token) (value : String) : Bool := t.is .operator value

/-- Kind, escaped value and location in braces. -/
def text (t : Token) : String :=
  "\x7b" ++ t.kind.name ++ ", '" ++ Text.escape t.value ++ "', (" ++ t.location.text ++ ")\x7d"

theorem is_iff {t : Token} {kind : Kind} {value : String} :
    t.is kind value = true ↔ t.kind = kind ∧ t.value = value := by
  simp [is]

end Token

end ExprLang
