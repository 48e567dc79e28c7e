set_option autoImplicit false

/-! # Locations in a source text

A location is the line and the column of a character, both counted from 1. Columns count
characters; only a line feed starts a new line. Moving over a text is `Location.after`, and
moving over two texts one behind the other is moving over the first and then over the second
(`Location.after_append`).
-/

namespace ExprLang

/-- A place in a source text. -/
structure Location where
  line : Nat
  column : Nat
  deriving DecidableEq, Repr

namespace Location

/-- The place of the first character of a text. -/
def start : Location := ⟨1, 1⟩

instance : Inhabited Location := ⟨start⟩

/-- The place behind the character `c`: the first column of the next line behind a line feed,
the next column behind anything else. -/
def advance (l : Location) (c : Char) : Location :=
  if c = '\n' then ⟨l.line + 1, 1⟩ else ⟨l.line, l.column + 1⟩

/-- The place behind all of a text that begins at `l`. -/
def after (l : Location) (text : List Char) : Location := text.foldl advance l

@[simp] theorem after_nil (l : Location) : l.after [] = l := rfl

@[simp] theorem after_cons (l : Location) (c : Char) (cs : List Char) :
    l.after (c :: cs) = (l.advance c).after cs := rfl

theorem after_append (l : Location) (cs ds : List Char) :
    l.after (cs ++ ds) = (l.after cs).after ds := List.foldl_append ..

/-- Line and column with a colon between them. -/
def text (l : Location) : String := toString l.line ++ ":" ++ toString l.column

end Location

end ExprLang
