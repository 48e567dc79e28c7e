import ExprLang.CharClass
import ExprLang.Cursor
import ExprLang.Error

set_option autoImplicit false

/-! # Reading one token

`Cursor.read` skips the gap ahead of a cursor and reads the token behind it. The first
character of a token decides its kind, and a token goes on as long as it can: a number through
its digits and at most one point, a name and an operator through the characters of their
class. A quoted literal ends with the quote it begins with. Reading a token, or failing inside
a quoted literal, moves the cursor forward (`Cursor.length_of_read_token`,
`Cursor.length_of_read_fault`).
-/

namespace ExprLang

/-- What a cursor finds ahead. -/
inductive Reading where
  /-- A token, and the cursor behind it. -/
  | token (t : Token) (behind : Cursor)
  /-- Nothing but a gap; the cursor is at the end. -/
  | ending (last : Cursor)
  /-- A quoted literal that cannot be read; the cursor is behind what was read of it. -/
  | fault (e : LexError) (behind : Cursor)
  /-- A character that begins no token; the cursor is before it. -/
  | stuck (x : Char) (before : Cursor)
  deriving DecidableEq, Repr

/-- A token that is known to be there, and the cursor behind it. -/
def Reading.ofToken (found : Token × Cursor) : Reading := .token found.1 found.2

/-- A reading that took something of a text of `n` characters, or that took nothing because
nothing could be taken. -/
def Reading.Advances (n : Nat) : Reading → Prop
  | .token _ behind => behind.rest.length < n
  | .fault _ behind => behind.rest.length < n
  | .ending last => last.rest.length ≤ n
  | .stuck _ _ => True

namespace Cursor

/-! ## Gaps -/

/-- The cursor behind the gap that begins at a location, where the gap may begin inside a
comment. A gap is made of blanks and of comments, and a comment ends before a line feed. -/
def skipGapFrom (inComment : Bool) (l : Location) : List Char → Cursor
  | [] => ⟨[], l⟩
  | x :: xs =>
    -- the line feed behind a comment is no part of it: it is read as the blank that it is
    if inComment && x != '\n' then skipGapFrom true (l.advance x) xs
    else if CharClass.isBlank x then skipGapFrom false (l.advance x) xs
    else if CharClass.isCommentStart x then skipGapFrom true (l.advance x) xs
    else ⟨x :: xs, l⟩

/-- The cursor behind the gap ahead. -/
def skipGap (c : Cursor) : Cursor := skipGapFrom false c.location c.rest

/-! ## Tokens without quotes -/

/-- A number: digits, and if a point follows, the point and the digits behind it. -/
def readNumber (c : Cursor) : Token × Cursor :=
  let whole := c.readWhile CharClass.isDigit
  match whole.2.rest with
  | '.' :: xs =>
    -- a second point would begin the next token
    let fraction := readWhile CharClass.isDigit ⟨xs, whole.2.location.advance '.'⟩
    (⟨.float, String.ofList (whole.1 ++ '.' :: fraction.1), c.location⟩, fraction.2)
  | _ => (⟨.int, String.ofList whole.1, c.location⟩, whole.2)

/-- A name, which is a keyword if it is reserved. -/
def readName (c : Cursor) : Token × Cursor :=
  let run := c.readWhile CharClass.isNameChar
  let name := String.ofList run.1
  (⟨if CharClass.isKeyword name then .keyword else .identifier, name, c.location⟩, run.2)

/-- An operator. -/
def readOperator (c : Cursor) : Token × Cursor :=
  let run := c.readWhile CharClass.isOperatorChar
  (⟨.operator, String.ofList run.1, c.location⟩, run.2)

/-! ## Quoted literals -/

/-- The inside of a quoted literal. -/
inductive Body where
  /-- The decoded content up to the closing quote, and the cursor behind that quote. -/
  | closed (content : List Char) (behind : Cursor)
  /-- No closing quote, and the cursor at the end. -/
  | unclosed (last : Cursor)
  /-- A backslash before a character that names no escape, and the cursor behind both. -/
  | unknownEscape (x : Char) (backslash : Location) (behind : Cursor)
  deriving DecidableEq, Repr

/-- The body with one more character of content in front. -/
def Body.push (x : Char) : Body → Body
  | .closed content behind => .closed (x :: content) behind
  | b => b

/-- Where reading the body stopped. -/
def Body.cursor : Body → Cursor
  | .closed _ c => c
  | .unclosed c => c
  | .unknownEscape _ _ c => c

/-- The body that begins at a location, up to `quote`. -/
def readBody (quote : Char) (l : Location) : List Char → Body
  | [] => .unclosed ⟨[], l⟩
  | x :: xs =>
    if x = quote then .closed [] ⟨xs, l.advance x⟩
    else if x = '\\' then
      -- a backslash and the character behind it are one unit, so an escaped quote closes nothing
      match xs with
      | [] => .unclosed ⟨[], l.advance x⟩
      | y :: ys =>
        let behind := (l.advance x).advance y
        match CharClass.unescape y with
        | some z => (readBody quote behind ys).push z
        | none => .unknownEscape y l ⟨ys, behind⟩
    else (readBody quote (l.advance x) xs).push x

/-- The literal of the given kind whose opening quote is at `opening`, read from behind that
quote. -/
def readQuoted (kind : Token.Kind) (quote : Char) (opening : Location) (inside : Cursor) :
    Reading :=
  match readBody quote inside.location inside.rest with
  | .closed content behind => .token ⟨kind, String.ofList content, opening⟩ behind
  | .unclosed last => .fault (.unterminatedLiteral kind opening) last
  | .unknownEscape x backslash behind => .fault (.unknownEscape x backslash) behind

/-! ## Any token -/

/-- What begins with the very next character. -/
def readHere (c : Cursor) : Reading :=
  match c.rest with
  | [] => .ending c
  | x :: xs =>
    let behind : Cursor := ⟨xs, c.location.advance x⟩
    -- digits are characters of names too, so they come first
    if CharClass.isDigit x then Reading.ofToken c.readNumber
    else if CharClass.isNameChar x then Reading.ofToken c.readName
    else if CharClass.isCharQuote x then readQuoted .char x c.location behind
    else if CharClass.isStringQuote x then readQuoted .string x c.location behind
    else if CharClass.isOperatorChar x then Reading.ofToken c.readOperator
    else if CharClass.isPunctuationChar x then
      .token ⟨.punctuation, String.ofList [x], c.location⟩ behind
    else .stuck x c

/-- What stands behind the gap ahead. -/
def read (c : Cursor) : Reading := c.skipGap.readHere

/-! ## Reading moves forward -/

theorem skipGapFrom_length_le (xs : List Char) (inComment : Bool) (l : Location) :
    (skipGapFrom inComment l xs).rest.length ≤ xs.length := by
  induction xs generalizing inComment l with
  | nil => simp [skipGapFrom]
  | cons x xs ih =>
    simp only [skipGapFrom, List.length_cons]
    split
    · exact Nat.le_succ_of_le (ih ..)
    · split
      · exact Nat.le_succ_of_le (ih ..)
      · split
        · exact Nat.le_succ_of_le (ih ..)
        · simp

theorem skipGap_length_le (c : Cursor) : c.skipGap.rest.length ≤ c.rest.length :=
  skipGapFrom_length_le ..

theorem readWhile_length_lt {p : Char → Bool} {x : Char} (xs : List Char) (l : Location)
    (h : p x = true) : (readWhile p ⟨x :: xs, l⟩).2.rest.length < (x :: xs).length := by
  simp only [readWhile, List.dropWhile_cons_of_pos h, List.length_cons]
  exact Nat.lt_succ_of_le (List.dropWhile_sublist p).length_le

theorem readNumber_length_lt {x : Char} {xs : List Char} (l : Location)
    (h : CharClass.isDigit x = true) :
    (readNumber ⟨x :: xs, l⟩).2.rest.length < (x :: xs).length := by
  have whole := readWhile_length_lt xs l h
  unfold readNumber
  simp only
  split
  · rename_i tail point
    have fraction := readWhile_rest_length_le CharClass.isDigit
      ⟨tail, (readWhile CharClass.isDigit ⟨x :: xs, l⟩).2.location.advance '.'⟩
    rw [point] at whole
    simp only [List.length_cons] at whole fraction ⊢
    omega
  · exact whole

@[simp] theorem Body.cursor_push (x : Char) (b : Body) : (b.push x).cursor = b.cursor := by
  cases b <;> rfl

theorem readBody_length_le (quote : Char) (xs : List Char) (l : Location) :
    (readBody quote l xs).cursor.rest.length ≤ xs.length := by
  fun_induction readBody quote l xs with
  | case1 => exact Nat.le_refl _
  | case2 => simp [Body.cursor]
  | case3 => simp [Body.cursor]
  | case4 _ _ _ _ _ _ _ ih => simp only [Body.cursor_push, List.length_cons]; omega
  | case5 => simp only [Body.cursor, List.length_cons]; omega
  | case6 _ _ _ _ _ ih => simp only [Body.cursor_push, List.length_cons]; omega

theorem readQuoted_advances (kind : Token.Kind) (quote : Char) (opening : Location)
    (inside : Cursor) {n : Nat} (h : inside.rest.length < n) :
    (readQuoted kind quote opening inside).Advances n := by
  have bound := readBody_length_le quote inside.rest inside.location
  unfold readQuoted
  split <;> rename_i eq <;> rw [eq] at bound <;> exact Nat.lt_of_le_of_lt bound h

theorem readHere_advances (c : Cursor) : c.readHere.Advances c.rest.length := by
  obtain ⟨rest, l⟩ := c
  cases rest with
  | nil => exact Nat.le_refl _
  | cons x xs =>
    have behind : xs.length < (x :: xs).length := Nat.lt_succ_self _
    simp only [readHere]
    split
    · exact readNumber_length_lt l ‹_›
    · split
      · exact readWhile_length_lt xs l ‹_›
      · split
        · exact readQuoted_advances _ _ _ _ behind
        · split
          · exact readQuoted_advances _ _ _ _ behind
          · split
            · exact readWhile_length_lt xs l ‹_›
            · split
              · exact behind
              · trivial

theorem read_advances (c : Cursor) : c.read.Advances c.rest.length := by
  have here := readHere_advances c.skipGap
  have gap := skipGap_length_le c
  unfold read
  cases h : c.skipGap.readHere <;> rw [h] at here
  case token => exact Nat.lt_of_lt_of_le here gap
  case fault => exact Nat.lt_of_lt_of_le here gap
  case ending => exact Nat.le_trans here gap
  case stuck => trivial

theorem length_of_read_token {c : Cursor} {t : Token} {behind : Cursor}
    (h : c.read = .token t behind) : behind.rest.length < c.rest.length := by
  have advances := c.read_advances
  rwa [h] at advances

theorem length_of_read_ending {c last : Cursor} (h : c.read = .ending last) :
    last.rest.length ≤ c.rest.length := by
  have advances := c.read_advances
  rwa [h] at advances

theorem length_of_read_fault {c : Cursor} {e : LexError} {behind : Cursor}
    (h : c.read = .fault e behind) : behind.rest.length < c.rest.length := by
  have advances := c.read_advances
  rwa [h] at advances

end Cursor

end ExprLang
