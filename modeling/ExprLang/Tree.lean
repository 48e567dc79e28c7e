import ExprLang.Location
import ExprLang.Numeral.Binary64
import ExprLang.Operator

set_option autoImplicit false

/-! # Syntax trees

A program is one tree. Every node has a location and its own parts, among them its children in
the order of the text. Two trees are the `same` if they agree in everything, where floating
point numbers agree as numbers: what is no number agrees with nothing, and both zeros agree.
-/

namespace ExprLang

open Numeral (Binary64)

/-- A syntax tree. -/
inductive Tree where
  /-- Nothing, where a value could have been. -/
  | absent (location : Location)
  | bool (value : Bool) (location : Location)
  | char (value : Char) (location : Location)
  | int (value : Int) (location : Location)
  | float (value : Binary64) (location : Location)
  | string (value : String) (location : Location)
  /-- A name that is used. -/
  | reference (name : String) (location : Location)
  /-- Two expressions with an operator between them; assignment is one of the operators. -/
  | operation (op : Operator) (left right : Tree) (location : Location)
  | call (callee : Tree) (arguments : List Tree) (location : Location)
  /-- A variable of a name and a type, with its first value. -/
  | definition (name type : String) (isConst : Bool) (value : Tree) (location : Location)
  | function (name result : String) (parameters : List Tree) (body : Tree)
      (location : Location)
  /-- Statements in a row: a block, or a whole program. -/
  | block (statements : List Tree) (location : Location)
  deriving Repr

namespace Tree

instance : Inhabited Tree := ⟨.absent .start⟩

/-- Where the tree is. -/
def location : Tree → Location
  | .absent l => l
  | .bool _ l => l
  | .char _ l => l
  | .int _ l => l
  | .float _ l => l
  | .string _ l => l
  | .reference _ l => l
  | .operation _ _ _ l => l
  | .call _ _ l => l
  | .definition _ _ _ _ l => l
  | .function _ _ _ _ l => l
  | .block _ l => l

/-- The name of the kind of tree. -/
def kindName : Tree → String
  | .absent _ => "NONE"
  | .bool _ _ => "BOOL"
  | .char _ _ => "CHAR"
  | .int _ _ => "INT"
  | .float _ _ => "FLOAT"
  | .string _ _ => "STRING"
  | .reference _ _ => "VAR"
  | .operation .assign _ _ _ => "ASSIGN"
  | .operation _ _ _ _ => "BINARY"
  | .call _ _ _ => "CALL"
  | .definition _ _ _ _ _ => "VARDEF"
  | .function _ _ _ _ _ => "FUNCTION"
  | .block _ _ => "PROG"

/-- The trees directly below, in the order of the text. -/
def children : Tree → List Tree
  | .operation _ left right _ => [left, right]
  | .call callee arguments _ => callee :: arguments
  | .definition _ _ _ value _ => [value]
  | .function _ _ parameters body _ => parameters ++ [body]
  | .block statements _ => statements
  | _ => []

mutual

/-- Do two trees agree in everything? -/
def same : Tree → Tree → Bool
  | .absent l, .absent m => l == m
  | .bool x l, .bool y m => x == y && l == m
  | .char x l, .char y m => x == y && l == m
  | .int x l, .int y m => x == y && l == m
  | .float x l, .float y m => x.same y && l == m
  | .string x l, .string y m => x == y && l == m
  | .reference x l, .reference y m => x == y && l == m
  | .operation op a b l, .operation op' a' b' m => op == op' && a.same a' && b.same b' && l == m
  | .call f xs l, .call g ys m => f.same g && sameAll xs ys && l == m
  | .definition x t k v l, .definition y u k' w m =>
    x == y && t == u && k == k' && v.same w && l == m
  | .function x r ps b l, .function y r' qs b' m =>
    x == y && r == r' && sameAll ps qs && b.same b' && l == m
  | .block xs l, .block ys m => sameAll xs ys && l == m
  | _, _ => false

/-- Do the trees of two lists agree one by one? -/
def sameAll : List Tree → List Tree → Bool
  | [], [] => true
  | x :: xs, y :: ys => x.same y && sameAll xs ys
  | _, _ => false

end

end Tree

end ExprLang
