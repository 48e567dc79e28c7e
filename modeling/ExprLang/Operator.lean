set_option autoImplicit false

/-! # Infix operators

The operators that join two expressions, with their symbols and how tightly they bind. All of
them associate to the left, assignment too.
-/

namespace ExprLang

/-- An infix operator. -/
inductive Operator where
  | assign
  | or
  | and
  | less
  | greater
  | lessEqual
  | greaterEqual
  | equal
  | notEqual
  | add
  | subtract
  | multiply
  | divide
  | remainder
  deriving DecidableEq, Repr

namespace Operator

/-- All operators. -/
def all : List Operator :=
  [assign, or, and, less, greater, lessEqual, greaterEqual, equal, notEqual, add, subtract,
    multiply, divide, remainder]

/-- How an operator is written. -/
def symbol : Operator → String
  | assign => "="
  | or => "||"
  | and => "&&"
  | less => "<"
  | greater => ">"
  | lessEqual => "<="
  | greaterEqual => ">="
  | equal => "=="
  | notEqual => "!="
  | add => "+"
  | subtract => "-"
  | multiply => "*"
  | divide => "/"
  | remainder => "%"

/-- How tightly an operator binds; a higher number binds tighter. -/
def precedence : Operator → Nat
  | assign => 1
  | or => 2
  | and => 3
  | less => 7
  | greater => 7
  | lessEqual => 7
  | greaterEqual => 7
  | equal => 7
  | notEqual => 7
  | add => 10
  | subtract => 10
  | multiply => 20
  | divide => 20
  | remainder => 20

theorem precedence_pos (op : Operator) : 0 < op.precedence := by cases op <;> decide

/-- The operator that is written like this, if there is one. -/
def ofSymbol? (text : String) : Option Operator := all.find? fun op => op.symbol == text

@[simp] theorem ofSymbol?_symbol (op : Operator) : ofSymbol? op.symbol = some op := by
  cases op <;> decide

theorem symbol_of_ofSymbol? {text : String} {op : Operator} (h : ofSymbol? text = some op) :
    op.symbol = text := by
  simpa using List.find?_some h

theorem ofSymbol?_eq_some_iff {text : String} {op : Operator} :
    ofSymbol? text = some op ↔ op.symbol = text :=
  ⟨symbol_of_ofSymbol?, fun h => h ▸ ofSymbol?_symbol op⟩

end Operator

end ExprLang
