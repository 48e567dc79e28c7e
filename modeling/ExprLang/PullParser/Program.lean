import ExprLang.Parser.Expression
import ExprLang.PullParser.Outcome

set_option autoImplicit false

/-! # Productions off a lexer

The productions of the grammar (`ExprLang.Parser.Expression` has it in full), as they call a lexer.
Each decision about the next token is a look of its own. A call is told when its bracket has been
seen, a function when its name has been taken, and a program when it is complete.
-/

namespace ExprLang

namespace PullParser

/-- Takes the end of a list. -/
def close (b : Bracketing) (l : Lexer) : Outcome (List Tree) l.size :=
  (expect .punctuation b.closing l).andThen fun _ r h => .ok [] r h []

mutual

/-- An expression: a chain of atoms, and perhaps arguments to which the whole chain is
applied. -/
def expression (l : Lexer) : Outcome Tree l.size :=
  (atom l).andThen fun first r _ =>
  (chain 0 first r).andThen fun e r' _ =>
  (applied e r').widen (by omega)
termination_by 8 * l.size + 4

/-- The operators behind `left` that bind tighter than `floor`, with their right operands. -/
def chain (floor : Nat) (left : Tree) (l : Lexer) : Outcome Tree (l.size + 1) :=
  lookForOperator floor l (fun l₁ _ => .ok left l₁ (by omega) []) fun op l₁ _ =>
    (expect .operator op.symbol l₁).andThen fun sign r _ =>
    (atom r).andThen fun first r' _ =>
    (chain op.precedence first r').andThen fun right r'' _ =>
    (chain floor (.operation op left right sign.location) r'').widen (by omega)
termination_by 8 * l.size

/-- The callee alone, or the call if its arguments follow. A call is where its callee is. -/
def applied (callee : Tree) (l : Lexer) : Outcome Tree (l.size + 1) :=
  look l fun t l₁ _ =>
    if t.isPunctuation Bracketing.arguments.opening then
      -- the bracket has been told at the look, and is taken after the call is told
      ((expect .punctuation Bracketing.arguments.opening l₁).andThen fun _ r _ =>
        (items .arguments r).andThen fun arguments r' _ =>
        .ok (.call callee arguments callee.location) r' (by omega) []).preceded
          [.call callee.location]
    else .ok callee l₁ (by omega) []
termination_by 8 * l.size

/-- An atom: a primary, and perhaps arguments to which it is applied. -/
def atom (l : Lexer) : Outcome Tree l.size :=
  (primary l).andThen fun e r _ => (applied e r).widen (by omega)
termination_by 8 * l.size + 3

/-- A primary; its first token decides which. -/
def primary (l : Lexer) : Outcome Tree l.size :=
  look l fun t l₁ _ =>
    if t.isPunctuation "(" then
      (expect .punctuation "(" l₁).andThen fun _ r _ =>
      (expression r).andThen fun e r' _ =>
      (expect .punctuation ")" r').andThen fun _ r'' _ => .ok e r'' (by omega) []
    else
  look l₁ fun t l₂ _ =>
    if t.isPunctuation Bracketing.block.opening then (block l₂).widen (by omega)
    else
  look l₂ fun t l₃ _ =>
    if t.isKeyword "def" then (function l₃).widen (by omega)
    else
  look l₃ fun t l₄ _ =>
    if t.isKeyword "const" || t.isKeyword "mut" then (definition l₄).widen (by omega)
    else (operand l₄).widen (by omega)
termination_by 8 * l.size + 2

/-- A block, which is where its opening bracket is. -/
def block (l : Lexer) : Outcome Tree l.size :=
  look l fun t l₁ _ =>
    (expect .punctuation Bracketing.block.opening l₁).andThen fun _ r _ =>
    (items .block r).andThen fun statements r' _ =>
    .ok (.block statements t.location) r' (by omega) []
termination_by 8 * l.size + 1

/-- A function, which is where its keyword is. -/
def function (l : Lexer) : Outcome Tree l.size :=
  (expect .keyword "def" l).andThen fun word r _ =>
  (identifier r).andThen fun name r' _ =>
  ((expect .punctuation Bracketing.parameters.opening r').andThen fun _ r₁ _ =>
    (items .parameters r₁).andThen fun parameters r₂ _ =>
    (expect .operator "->" r₂).andThen fun _ r₃ _ =>
    (identifier r₃).andThen fun result r₄ _ =>
    (block r₄).andThen fun body r₅ _ =>
    .ok (.function name.value result.value parameters body word.location) r₅ (by omega)
      []).preceded [.function name.value word.location]
termination_by 8 * l.size + 1

/-- A definition of a variable, which is where its keyword is. -/
def definition (l : Lexer) : Outcome Tree l.size :=
  look l fun t l₁ _ =>
    let isConst := t.isKeyword "const"
    (expect .keyword (if isConst then "const" else "mut") l₁).andThen fun word r _ =>
    (variableBody isConst word.location r).widen (by omega)
termination_by 8 * l.size + 1

/-- A parameter: a definition, or a variable that is not constant and is where its name is. -/
def parameter (l : Lexer) : Outcome Tree l.size :=
  look l fun t l₁ _ =>
    if t.isKeyword "const" || t.isKeyword "mut" then (definition l₁).widen (by omega)
    else look l₁ fun t l₂ _ => (variableBody false t.location l₂).widen (by omega)
termination_by 8 * l.size + 2

/-- Name, type and perhaps the value of a variable. Without a value, what is absent is where
the next token is. -/
def variableBody (isConst : Bool) (location : Location) (l : Lexer) : Outcome Tree l.size :=
  (identifier l).andThen fun name r _ =>
  (expect .operator ":" r).andThen fun _ r₁ _ =>
  (identifier r₁).andThen fun type r₂ _ =>
  look r₂ fun t r₃ _ =>
    if t.isOperator Operator.assign.symbol then
      (expect .operator Operator.assign.symbol r₃).andThen fun _ r₄ _ =>
      (expression r₄).andThen fun value r₅ _ =>
      .ok (.definition name.value type.value isConst value location) r₅ (by omega) []
    else look r₃ fun t r₄ _ =>
      .ok (.definition name.value type.value isConst (.absent t.location) location) r₄ (by omega) []
termination_by 8 * l.size

/-- A list in brackets, from behind its opening bracket. -/
def items (b : Bracketing) (l : Lexer) : Outcome (List Tree) l.size :=
  lookForEnd l fun atEnd l₁ _ =>
    if atEnd then (close b l₁).widen (by omega)
    else look l₁ fun t l₂ _ =>
      if t.isPunctuation b.closing then (close b l₂).widen (by omega)
      else
        (element b l₂).andThen fun x r _ =>
        (moreItems b r).andThen fun xs r' _ => .ok (x :: xs) r' (by omega) []
termination_by 8 * l.size + 6

/-- A list in brackets, from behind an element. The closing bracket may stand before a
separator or behind it. -/
def moreItems (b : Bracketing) (l : Lexer) : Outcome (List Tree) l.size :=
  lookForEnd l fun atEnd l₁ _ =>
    if atEnd then (close b l₁).widen (by omega)
    else look l₁ fun t l₂ _ =>
      if t.isPunctuation b.closing then (close b l₂).widen (by omega)
      else
        (expect .punctuation b.separator l₂).andThen fun _ r _ =>
        -- the end is not asked for here, so at the end it is the element that is missed
        look r fun u r₁ _ =>
          if u.isPunctuation b.closing then (close b r₁).widen (by omega)
          else
            (element b r₁).andThen fun x r₂ _ =>
            (moreItems b r₂).andThen fun xs r₃ _ => .ok (x :: xs) r₃ (by omega) []
termination_by 8 * l.size

/-- An element of a list in brackets. -/
def element (b : Bracketing) (l : Lexer) : Outcome Tree l.size :=
  match b with
  | .arguments => expression l
  | .parameters => parameter l
  | .block => expression l
termination_by 8 * l.size + 5

end

/-- The statements up to the end of the text. -/
def statements (l : Lexer) : Outcome (List Tree) (l.size + 1) :=
  lookForEnd l fun atEnd l₁ _ =>
    if atEnd then .ok [] l₁ (by omega) []
    else
      (expression l₁).andThen fun e r _ =>
      (expect .punctuation ";" r).andThen fun _ r' _ =>
      (statements r').andThen fun es r'' _ => .ok (e :: es) r'' (by omega) []
termination_by l.size

/-- A program, which is where its first token is. -/
def program (l : Lexer) : Outcome Tree (l.size + 1) :=
  look l fun t l₁ _ =>
    (statements l₁).andThen fun es r _ =>
    .ok (.block es t.location) r (by omega) [.program es.length]

end PullParser

/-- What is told while a text is parsed. -/
def parseLog (text : String) : Log := (PullParser.program (.ofText text)).log

end ExprLang
