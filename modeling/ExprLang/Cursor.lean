import ExprLang.Location

set_option autoImplicit false

/-! # Cursors

A cursor stands in a source text: it knows the characters that are still ahead and the
location of the first of them. A cursor only ever moves forward, over a prefix of what is
ahead, and its location moves with it; to go back is to use an earlier cursor again.
-/

namespace ExprLang

/-- A place in a text, with the characters from there on. -/
structure Cursor where
  rest : List Char
  location : Location
  deriving DecidableEq, Repr

namespace Cursor

/-- The cursor before the first character of a text. -/
def ofText (text : String) : Cursor := ⟨text.toList, .start⟩

/-- The character ahead. -/
def peek (c : Cursor) : Option Char := c.rest.head?

/-- Is there no character ahead? -/
def isAtEnd (c : Cursor) : Bool := c.rest.isEmpty

/-- The character ahead, and the cursor behind it. At the end the cursor stays. -/
def next (c : Cursor) : Option Char × Cursor :=
  match c.rest with
  | [] => (none, c)
  | x :: xs => (some x, ⟨xs, c.location.advance x⟩)

/-- The longest run of characters ahead that satisfy `p`, and the cursor behind it. -/
def readWhile (p : Char → Bool) (c : Cursor) : List Char × Cursor :=
  let run := c.rest.takeWhile p
  (run, ⟨c.rest.dropWhile p, c.location.after run⟩)

/-- The longest run of characters ahead that do not satisfy `p`, and the cursor behind it. -/
def readUntil (p : Char → Bool) (c : Cursor) : List Char × Cursor := c.readWhile fun x => !p x

theorem readWhile_append (p : Char → Bool) (c : Cursor) :
    (c.readWhile p).1 ++ (c.readWhile p).2.rest = c.rest := List.takeWhile_append_dropWhile

theorem readWhile_rest_length_le (p : Char → Bool) (c : Cursor) :
    (c.readWhile p).2.rest.length ≤ c.rest.length :=
  List.Sublist.length_le (List.dropWhile_sublist p)

end Cursor

end ExprLang
