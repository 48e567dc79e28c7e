import ExprLang.Numeral.Layout
import ExprLang.Text.Escaped
import ExprLang.Tree

set_option autoImplicit false

/-! # Outlines

An outline is a tree as a list of rows, one for each node, each with its depth. A node comes
before what is below it, and its children keep their order (`Tree.outline_eq`). The text of a
tree has one line for each row, indented by two blanks for each step of depth.
-/

namespace ExprLang

/-- A node of a tree, and how far it is below the root. -/
structure Row where
  depth : Nat
  tree : Tree

namespace Tree

mutual

/-- The rows of a tree whose root is at a depth. -/
def outline (depth : Nat) : Tree → List Row
  | .operation op left right l =>
    ⟨depth, .operation op left right l⟩ ::
      (left.outline (depth + 1) ++ right.outline (depth + 1))
  | .call callee arguments l =>
    ⟨depth, .call callee arguments l⟩ ::
      (callee.outline (depth + 1) ++ outlineAll (depth + 1) arguments)
  | .definition name type isConst value l =>
    ⟨depth, .definition name type isConst value l⟩ :: value.outline (depth + 1)
  | .function name result parameters body l =>
    ⟨depth, .function name result parameters body l⟩ ::
      (outlineAll (depth + 1) parameters ++ body.outline (depth + 1))
  | .block statements l => ⟨depth, .block statements l⟩ :: outlineAll (depth + 1) statements
  | leaf => [⟨depth, leaf⟩]

/-- The rows of trees that stand at one depth, one behind the other. -/
def outlineAll (depth : Nat) : List Tree → List Row
  | [] => []
  | t :: ts => t.outline depth ++ outlineAll depth ts

end

theorem outlineAll_append (depth : Nat) (ts us : List Tree) :
    outlineAll depth (ts ++ us) = outlineAll depth ts ++ outlineAll depth us := by
  induction ts with
  | nil => simp [outlineAll]
  | cons t ts ih => simp [outlineAll, ih]

/-- The root comes first, and then its children one level deeper. -/
theorem outline_eq (depth : Nat) (t : Tree) :
    t.outline depth = ⟨depth, t⟩ :: outlineAll (depth + 1) t.children := by
  cases t <;> simp [outline, children, outlineAll, outlineAll_append]

/-- What a node shows besides its kind and its location. -/
def detail : Tree → String
  | .absent _ => ""
  | .bool value _ => if value then " true" else " false"
  | .char value _ => " '" ++ Text.escape value.toString ++ "'"
  | .int value _ => " " ++ toString value
  | .float value _ => " " ++ value.text
  | .string value _ => " \"" ++ Text.escape value ++ "\""
  | .reference name _ => " " ++ name
  | .operation op _ _ _ => " '" ++ op.symbol ++ "'"
  | .call _ _ _ => ""
  | .definition name type isConst _ _ =>
    (if isConst then " const " else " mut ") ++ name ++ ": " ++ type
  | .function name result _ _ _ => " " ++ name ++ " -> " ++ result
  | .block _ _ => ""

/-- The line of a node, without its indentation. -/
def header (t : Tree) : String :=
  t.kindName ++ t.detail ++ " (" ++ t.location.text ++ ")"

end Tree

/-- The line of a row, without its end. -/
def Row.line (r : Row) : String :=
  String.ofList (List.replicate (2 * r.depth) ' ') ++ r.tree.header

/-- A tree as text: a line for each node. -/
def Tree.render (t : Tree) : String :=
  String.join ((t.outline 0).map fun r => r.line ++ "\n")

end ExprLang
