import ExprLang.TokenStream

set_option autoImplicit false

/-! # Lexers

A lexer is a cursor with room for one token of look-ahead. Its operations return what they
found and the lexer as they leave it, also when they fail, so that reading can go on behind a
failure. `Lexer.stream` is all that a lexer will deliver.

A token is told when it is read off the text, which may be at a look at it or when it is taken:
`tellNext`, `tellPeek`, `tellIsAtEnd` and `tellTokenize` are the operations with what they tell, and
`next`, `peek`, `isAtEnd` and `tokenize` are their answers alone.
-/

namespace ExprLang

/-- What happens at a reading: a token, or the end, is read. A failure leaves nothing to tell. -/
def Reading.log : Reading → Log
  | .token t _ => [.read t]
  | .ending last => [.read (.eof last.location)]
  | .fault _ _ => []
  | .stuck _ _ => []

/-- A cursor, and the token that was looked at before it was taken. -/
structure Lexer where
  cursor : Cursor
  ahead : Option Token
  deriving DecidableEq, Repr

namespace Lexer

/-- The lexer that begins where a cursor stands. -/
def ofCursor (c : Cursor) : Lexer := ⟨c, none⟩

/-- The lexer for a text. -/
def ofText (text : String) : Lexer := ofCursor (.ofText text)

/-- Takes the token off a reading: the token or why there is none, and the cursor left. -/
def take : Reading → Except LexError Token × Cursor
  | .token t behind => (.ok t, behind)
  | .ending last => (.ok (.eof last.location), last)
  | .fault e behind => (.error e, behind)
  | .stuck x before => (.error (.unexpectedCharacter x before.location), before)

/-- Takes the next token, which has been told if it was looked at. At the end that is the end token,
again and again. -/
def tellNext (l : Lexer) : Told (Except LexError Token × Lexer) :=
  match l.ahead with
  | some t => ⟨(.ok t, ⟨l.cursor, none⟩), []⟩
  | none =>
    let taken := take l.cursor.read
    ⟨(taken.1, ⟨taken.2, none⟩), l.cursor.read.log⟩

/-- A token that was taken is kept for the next call. -/
def keep : Except LexError Token × Lexer → Except LexError Token × Lexer
  | (.ok t, behind) => (.ok t, ⟨behind.cursor, some t⟩)
  | (.error e, behind) => (.error e, behind)

/-- Looks at the next token and keeps it for the next call. -/
def tellPeek (l : Lexer) : Told (Except LexError Token × Lexer) := l.tellNext.map keep

/-- Is the token that was looked at the end token? -/
def isEnd : Except LexError Token × Lexer → Except LexError Bool × Lexer
  | (.ok t, l') => (.ok t.isEof, l')
  | (.error e, l') => (.error e, l')

/-- Is the next token the end token? -/
def tellIsAtEnd (l : Lexer) : Told (Except LexError Bool × Lexer) := l.tellPeek.map isEnd

/-- Takes the next token. -/
def next (l : Lexer) : Except LexError Token × Lexer := l.tellNext.answer

/-- Looks at the next token. -/
def peek (l : Lexer) : Except LexError Token × Lexer := l.tellPeek.answer

/-- Asks for the end. -/
def isAtEnd (l : Lexer) : Except LexError Bool × Lexer := l.tellIsAtEnd.answer

/-- A look takes the next token and keeps it. -/
theorem peek_eq_keep (l : Lexer) : l.peek = keep l.next := rfl

theorem isAtEnd_eq_isEnd (l : Lexer) : l.isAtEnd = isEnd l.peek := rfl

/-! ## What is ahead gets less -/

/-- How much is ahead, at most: the characters, and the token that was looked at. -/
def size (l : Lexer) : Nat :=
  match l.ahead with
  | none => l.cursor.rest.length
  | some t => if t.isEof then l.cursor.rest.length else l.cursor.rest.length + 1

/-- A token that is taken is no longer ahead. -/
theorem size_tellNext_lt {l l' : Lexer} {t : Token} {log : Log}
    (h : l.tellNext = ⟨(.ok t, l'), log⟩) (ht : t.isEof = false) : l'.size < l.size := by
  obtain ⟨c, ahead⟩ := l
  cases ahead with
  | some u =>
    cases h
    simp [size, ht]
  | none =>
    unfold tellNext at h
    cases hread : c.read with
    | token u behind =>
      simp only [hread, take] at h
      cases h
      exact c.length_of_read_token hread
    | ending last =>
      simp only [hread, take] at h
      cases h
      cases ht
    | fault e behind => simp only [hread, take] at h; cases h
    | stuck x before => simp only [hread, take] at h; cases h

/-- Nothing is added by a look. -/
theorem size_tellPeek_le {l l' : Lexer} {t : Token} {log : Log}
    (h : l.tellPeek = ⟨(.ok t, l'), log⟩) : l'.size ≤ l.size := by
  obtain ⟨c, ahead⟩ := l
  cases ahead with
  | some u =>
    cases h
    exact Nat.le_refl _
  | none =>
    unfold tellPeek tellNext Told.map at h
    cases hread : c.read with
    | token u behind =>
      have hlt := c.length_of_read_token hread
      simp only [hread, take, keep] at h
      cases h
      simp only [size]
      split <;> omega
    | ending last =>
      have hle := c.length_of_read_ending hread
      simp only [hread, take, keep] at h
      cases h
      simpa [size, Token.isEof, Token.eof] using hle
    | fault e behind => simp only [hread, take, keep] at h; cases h
    | stuck x before => simp only [hread, take, keep] at h; cases h

/-! ## All tokens -/

/-- Takes one token after the other up to the end token or to the first failure. -/
def tellTokenize (l : Lexer) : Told (Except LexError (List Token) × Lexer) :=
  match _ : l.tellNext with
  | ⟨(.error e, l'), log⟩ => ⟨(.error e, l'), log⟩
  | ⟨(.ok t, l'), log⟩ =>
    if _ : t.isEof then ⟨(.ok [t], l'), log⟩
    else
      match l'.tellTokenize with
      | ⟨(.ok ts, last), log'⟩ => ⟨(.ok (t :: ts), last), log ++ log'⟩
      | ⟨(.error e, last), log'⟩ => ⟨(.error e, last), log ++ log'⟩
termination_by l.size
decreasing_by exact size_tellNext_lt ‹_› (Bool.eq_false_iff.mpr ‹_›)

/-- Takes all tokens ahead of a cursor, up to the end token or to the first failure. -/
def drain (c : Cursor) : Except LexError (List Token) × Cursor :=
  match _ : c.read with
  | .token t behind =>
    match drain behind with
    | (.ok ts, last) => (.ok (t :: ts), last)
    | (.error e, last) => (.error e, last)
  | .ending last => (.ok [.eof last.location], last)
  | .fault e behind => (.error e, behind)
  | .stuck x before => (.error (.unexpectedCharacter x before.location), before)
termination_by c.rest.length
decreasing_by exact c.length_of_read_token ‹_›

/-- Takes all tokens up to the end token or to the first failure (`Lexer.answer_tellTokenize`). -/
def tokenize (l : Lexer) : Except LexError (List Token) × Lexer :=
  match l.ahead with
  | none =>
    let drained := drain l.cursor
    (drained.1, ⟨drained.2, none⟩)
  | some t =>
    -- the end token was looked at already, and nothing follows it
    if t.isEof then (.ok [t], ⟨l.cursor, none⟩)
    else
      match drain l.cursor with
      | (.ok ts, last) => (.ok (t :: ts), ⟨last, none⟩)
      | (.error e, last) => (.error e, ⟨last, none⟩)

/-- All that the lexer will deliver. -/
def stream (l : Lexer) : TokenStream :=
  match l.ahead with
  | none => .ofCursor l.cursor
  | some t => if t.isEof then .ending t.location else .token t (.ofCursor l.cursor)

/-- Draining delivers the tokens of the stream. -/
theorem drain_fst (c : Cursor) : (drain c).1 = (TokenStream.ofCursor c).tokens := by
  fun_induction drain c with
  | case1 c t behind h ts last eq ih =>
    rw [eq] at ih
    simp [TokenStream.ofCursor_of_token h, TokenStream.tokens, ← ih]
  | case2 c t behind h e last eq ih =>
    rw [eq] at ih
    simp [TokenStream.ofCursor_of_token h, TokenStream.tokens, ← ih]
  | case3 c last h => simp [TokenStream.ofCursor_of_ending h, TokenStream.tokens]
  | case4 c e behind h => simp [TokenStream.ofCursor_of_fault h, TokenStream.tokens]
  | case5 c x before h => simp [TokenStream.ofCursor_of_stuck h, TokenStream.tokens]

end Lexer

/-- The tokens of a text and the end token, or the first reason why the text does not fall
into tokens. -/
def tokenize (text : String) : Except LexError (List Token) := (Lexer.ofText text).tokenize.1

/-- What is told while all tokens of a text are taken. -/
def tokenizeLog (text : String) : Log := (Lexer.ofText text).tellTokenize.log

end ExprLang
