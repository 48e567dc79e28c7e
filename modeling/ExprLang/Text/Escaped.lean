set_option autoImplicit false

/-! # Escaped text

A way to show any text on one line in printable ASCII. Tab, carriage return, line feed, both
quotes and the backslash are written as a backslash and one character; the other characters
from U+0020 to U+007E stand for themselves; every other character is written as its code point
in hexadecimal, in braces behind a backslash and a `u`.
-/

namespace ExprLang.Text

/-- The characters that stand for themselves when no short escape is due. -/
def isPrintable (c : Char) : Bool := 0x20 ≤ c.toNat && c.toNat ≤ 0x7E

/-- The character that names `c` behind a backslash, if `c` has a short escape. -/
def shortEscape : Char → Option Char
  | '\t' => some 't'
  | '\r' => some 'r'
  | '\n' => some 'n'
  | '\'' => some '\''
  | '"' => some '"'
  | '\\' => some '\\'
  | _ => none

/-- One character, escaped. -/
def escapeChar (c : Char) : List Char :=
  match shortEscape c with
  | some name => ['\\', name]
  | none =>
    if isPrintable c then [c]
    else '\\' :: 'u' :: '\x7b' :: Nat.toDigits 16 c.toNat ++ ['\x7d']

/-- A text, escaped character by character. -/
def escapeChars (cs : List Char) : List Char := cs.flatMap escapeChar

/-- A text, escaped character by character. -/
def escape (s : String) : String := String.ofList (escapeChars s.toList)

@[simp] theorem escapeChars_nil : escapeChars [] = [] := rfl

@[simp] theorem escapeChars_cons (c : Char) (cs : List Char) :
    escapeChars (c :: cs) = escapeChar c ++ escapeChars cs := rfl

theorem escapeChars_append (cs ds : List Char) :
    escapeChars (cs ++ ds) = escapeChars cs ++ escapeChars ds := List.flatMap_append

end ExprLang.Text
