import ExprLang.Parser.Operand

set_option autoImplicit false

/-! # Expressions

The productions of the grammar that depend on each other, by recursive descent with one token
of look-ahead:

```text
expression ::= atom (operator atom)* [arguments]
atom       ::= primary [arguments]
primary    ::= "(" expression ")" | block | function | definition | operand
arguments  ::= "(" [expression ("," expression)* [","]] ")"
block      ::= "{" [expression (";" expression)* [";"]] "}"
function   ::= "def" identifier parameters "->" identifier block
parameters ::= "(" [parameter ("," parameter)* [","]] ")"
parameter  ::= ["const" | "mut"] variable
definition ::= ("const" | "mut") variable
variable   ::= identifier ":" identifier ["=" expression]
```

The operators between atoms are sorted out by precedence climbing: a chain goes on over the
operators that bind tighter than a floor, and the right operand of an operator is the chain
with that operator's precedence as its floor. So operators that bind equally associate to the
left.

Every production calls the others on a smaller stream, or on the same stream in the order of
their ranks in the measure.
-/

namespace ExprLang

/-- The lists in brackets. -/
inductive Bracketing where
  /-- The arguments of a call. -/
  | arguments
  /-- The parameters of a function. -/
  | parameters
  /-- The statements of a block. -/
  | block
  deriving DecidableEq, Repr

namespace Bracketing

/-- What the list begins with. -/
def opening : Bracketing → String
  | arguments => "("
  | parameters => "("
  | block => "\x7b"

/-- What the list ends with. -/
def closing : Bracketing → String
  | arguments => ")"
  | parameters => ")"
  | block => "\x7d"

/-- What stands between two elements, and may stand behind the last one. -/
def separator : Bracketing → String
  | arguments => ","
  | parameters => ","
  | block => ";"

end Bracketing

namespace Parser

/-- Takes the end of a list. -/
def close (b : Bracketing) (s : TokenStream) : Outcome (List Tree) s.size :=
  (expect .punctuation b.closing s).andThen fun _ r h => .ok [] r h []

mutual

/-- An expression: a chain of atoms, and perhaps arguments to which the whole chain is
applied. -/
def expression (s : TokenStream) : Outcome Tree s.size :=
  (atom s).andThen fun first r _ =>
  (chain 0 first r).andThen fun e r' _ =>
  (applied e r').widen (by omega)
termination_by 8 * s.size + 4

/-- The operators behind `left` that bind tighter than `floor`, with their right operands. -/
def chain (floor : Nat) (left : Tree) (s : TokenStream) : Outcome Tree (s.size + 1) :=
  look s fun t =>
    match t.operator? with
    | none => .ok left s (Nat.lt_succ_self _) []
    | some op =>
      -- an operator that does not bind tighter is left for a chain further out
      if op.precedence ≤ floor then .ok left s (Nat.lt_succ_self _) []
      else
        (expect .operator op.symbol s).andThen fun sign r _ =>
        (atom r).andThen fun first r' _ =>
        (chain op.precedence first r').andThen fun right r'' _ =>
        (chain floor (.operation op left right sign.location) r'').widen (by omega)
termination_by 8 * s.size

/-- The callee alone, or the call if its arguments follow. A call is where its callee is. -/
def applied (callee : Tree) (s : TokenStream) : Outcome Tree (s.size + 1) :=
  look s fun t =>
    if t.isPunctuation Bracketing.arguments.opening then
      (expect .punctuation Bracketing.arguments.opening s).andThen fun _ r _ =>
      ((items .arguments r).andThen fun arguments r' _ =>
        .ok (.call callee arguments callee.location) r' (by omega) []).preceded
          [.call callee.location]
    else .ok callee s (Nat.lt_succ_self _) []
termination_by 8 * s.size

/-- An atom: a primary, and perhaps arguments to which it is applied. -/
def atom (s : TokenStream) : Outcome Tree s.size :=
  (primary s).andThen fun e r _ => (applied e r).widen (by omega)
termination_by 8 * s.size + 3

/-- A primary; its first token decides which. -/
def primary (s : TokenStream) : Outcome Tree s.size :=
  look s fun t =>
    if t.isPunctuation "(" then
      (expect .punctuation "(" s).andThen fun _ r _ =>
      (expression r).andThen fun e r' _ =>
      (expect .punctuation ")" r').andThen fun _ r'' _ => .ok e r'' (by omega) []
    else if t.isPunctuation Bracketing.block.opening then block s
    else if t.isKeyword "def" then function s
    else if t.isKeyword "const" || t.isKeyword "mut" then definition s
    else operand s
termination_by 8 * s.size + 2

/-- A block, which is where its opening bracket is. -/
def block (s : TokenStream) : Outcome Tree s.size :=
  (expect .punctuation Bracketing.block.opening s).andThen fun bracket r _ =>
  (items .block r).andThen fun statements r' _ =>
  .ok (.block statements bracket.location) r' (by omega) []
termination_by 8 * s.size + 1

/-- A function, which is where its keyword is. -/
def function (s : TokenStream) : Outcome Tree s.size :=
  (expect .keyword "def" s).andThen fun word r _ =>
  (identifier r).andThen fun name r' _ =>
  ((expect .punctuation Bracketing.parameters.opening r').andThen fun _ r₁ _ =>
    (items .parameters r₁).andThen fun parameters r₂ _ =>
    (expect .operator "->" r₂).andThen fun _ r₃ _ =>
    (identifier r₃).andThen fun result r₄ _ =>
    (block r₄).andThen fun body r₅ _ =>
    .ok (.function name.value result.value parameters body word.location) r₅ (by omega)
      []).preceded [.function name.value word.location]
termination_by 8 * s.size + 1

/-- A definition of a variable, which is where its keyword is. -/
def definition (s : TokenStream) : Outcome Tree s.size :=
  look s fun t =>
    let isConst := t.isKeyword "const"
    (expect .keyword (if isConst then "const" else "mut") s).andThen fun word r _ =>
    (variableBody isConst word.location r).widen (by omega)
termination_by 8 * s.size + 1

/-- A parameter: a definition, or a variable that is not constant and is where its name is. -/
def parameter (s : TokenStream) : Outcome Tree s.size :=
  look s fun t =>
    if t.isKeyword "const" || t.isKeyword "mut" then definition s
    else variableBody false t.location s
termination_by 8 * s.size + 2

/-- Name, type and perhaps the value of a variable. Without a value, what is absent is where
the next token is. -/
def variableBody (isConst : Bool) (l : Location) (s : TokenStream) : Outcome Tree s.size :=
  (identifier s).andThen fun name r _ =>
  (expect .operator ":" r).andThen fun _ r₁ _ =>
  (identifier r₁).andThen fun type r₂ _ =>
  look r₂ fun t =>
    if t.isOperator Operator.assign.symbol then
      (expect .operator Operator.assign.symbol r₂).andThen fun _ r₃ _ =>
      (expression r₃).andThen fun value r₄ _ =>
      .ok (.definition name.value type.value isConst value l) r₄ (by omega) []
    else
      .ok (.definition name.value type.value isConst (.absent t.location) l) r₂ (by omega) []
termination_by 8 * s.size

/-- A list in brackets, from behind its opening bracket. -/
def items (b : Bracketing) (s : TokenStream) : Outcome (List Tree) s.size :=
  look s fun t =>
    if t.isEof || t.isPunctuation b.closing then close b s
    else
      (element b s).andThen fun x r _ =>
      (moreItems b r).andThen fun xs r' _ => .ok (x :: xs) r' (by omega) []
termination_by 8 * s.size + 6

/-- A list in brackets, from behind an element. The closing bracket may stand before a
separator or behind it. -/
def moreItems (b : Bracketing) (s : TokenStream) : Outcome (List Tree) s.size :=
  look s fun t =>
    if t.isEof || t.isPunctuation b.closing then close b s
    else
      (expect .punctuation b.separator s).andThen fun _ r _ =>
      look r fun u =>
        -- at the end of the text it is the element that is missed here, not the bracket
        if u.isPunctuation b.closing then (close b r).widen (by omega)
        else
          (element b r).andThen fun x r' _ =>
          (moreItems b r').andThen fun xs r'' _ => .ok (x :: xs) r'' (by omega) []
termination_by 8 * s.size

/-- An element of a list in brackets. -/
def element (b : Bracketing) (s : TokenStream) : Outcome Tree s.size :=
  match b with
  | .arguments => expression s
  | .parameters => parameter s
  | .block => expression s
termination_by 8 * s.size + 5

end

end Parser

end ExprLang
