import ExprLang.Numeral.Binary64
import ExprLang.Parser.Outcome
import ExprLang.Tree

set_option autoImplicit false

/-! # Operands of one token

The tokens that are expressions by themselves: literals, the two words for truth values, and
identifiers. An integer literal must not exceed the largest integer, and a character literal
must hold one character; all other literals stand for some value.
-/

namespace ExprLang

open Numeral (Binary64 Decimal ofDigits)

/-- The largest integer. -/
def maxInt : Nat := Nat.pow 2 63 - 1

/-- The expression that a token is by itself, or why it is none. -/
def Token.operand (t : Token) : Except SyntaxError Tree :=
  match t.kind with
  | .int =>
    let n := ofDigits t.value.toList
    if n ≤ maxInt then .ok (.int n t.location)
    else .error (.invalidLiteral t SyntaxError.numberTooLarge)
  | .float => .ok (.float (Binary64.ofDecimal (Decimal.ofText t.value.toList)) t.location)
  | .char =>
    match t.value.toList with
    | [c] => .ok (.char c t.location)
    | _ => .error (.invalidLiteral t SyntaxError.notOneCharacter)
  | .string => .ok (.string t.value t.location)
  | .identifier => .ok (.reference t.value t.location)
  | .keyword =>
    if t.value == "true" then .ok (.bool true t.location)
    else if t.value == "false" then .ok (.bool false t.location)
    else .error (.unexpectedToken t)
  | .operator => .error (.unexpectedToken t)
  | .punctuation => .error (.unexpectedToken t)
  | .eof => .error (.unexpectedToken t)

/-- The operator between two expressions that a token is, if it is one. -/
def Token.operator? (t : Token) : Option Operator :=
  if t.kind == .operator then Operator.ofSymbol? t.value else none

/-- Takes the next token as an expression by itself. The token is taken even if it is none. -/
def Parser.operand (s : TokenStream) : Outcome Tree s.size :=
  match s with
  | .token t rest =>
    match t.operand with
    | .ok tree => .ok tree rest (TokenStream.size_lt_token t rest) [.read t]
    | .error e => .fail (.syntactic e) rest [.read t]
  | .fault e rest => .fail (.lexical e) rest []
  | .stuck x l => .fail (.lexical (.unexpectedCharacter x l)) (.stuck x l) []
  | .ending l => .fail (.syntactic (.unexpectedToken (.eof l))) (.ending l) [.read (.eof l)]

end ExprLang
