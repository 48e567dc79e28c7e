import ExprLang.Cursor.Reading
import ExprLang.Log

set_option autoImplicit false

/-! # Token streams

Everything that repeated reading takes off a text: its tokens in order, with the quoted
literals that could not be read in their places, up to the end of the text or to a character
that begins no token and stays ahead for ever. `TokenStream.ofCursor` reads ahead in this way
as far as can be; a parser then runs on the stream alone.
-/

namespace ExprLang

/-- What a text has to offer, token by token. -/
inductive TokenStream where
  /-- A token, and what comes behind it. -/
  | token (t : Token) (rest : TokenStream)
  /-- A quoted literal that cannot be read, and what comes behind what was read of it. -/
  | fault (e : LexError) (rest : TokenStream)
  /-- A character that begins no token. Nothing comes behind it. -/
  | stuck (x : Char) (location : Location)
  /-- The end of the text. -/
  | ending (location : Location)
  deriving DecidableEq, Repr

namespace TokenStream

/-- All that is ahead of a cursor. -/
def ofCursor (c : Cursor) : TokenStream :=
  match _ : c.read with
  | .token t behind => .token t (ofCursor behind)
  | .fault e behind => .fault e (ofCursor behind)
  | .stuck x before => .stuck x before.location
  | .ending last => .ending last.location
termination_by c.rest.length
decreasing_by
  · exact c.length_of_read_token ‹_›
  · exact c.length_of_read_fault ‹_›

/-- All that a text has to offer. -/
def ofText (text : String) : TokenStream := ofCursor (.ofText text)

/-- How many tokens and unreadable literals there are. -/
def size : TokenStream → Nat
  | .token _ rest => rest.size + 1
  | .fault _ rest => rest.size + 1
  | .stuck _ _ => 0
  | .ending _ => 0

theorem size_lt_token (t : Token) (rest : TokenStream) : rest.size < (token t rest).size :=
  Nat.lt_succ_self _

/-- The next token, or why there is none. At the end it is the end token. -/
def head : TokenStream → Except LexError Token
  | .token t _ => .ok t
  | .fault e _ => .error e
  | .stuck x l => .error (.unexpectedCharacter x l)
  | .ending l => .ok (.eof l)

/-- What is left when the next token is taken, or when taking it has failed. Neither the end
nor a character that begins no token goes away. -/
def tail : TokenStream → TokenStream
  | .token _ rest => rest
  | .fault _ rest => rest
  | .stuck x l => .stuck x l
  | .ending l => .ending l

/-- All tokens and the end token, if no literal is unreadable and every character begins a
token where one is due; else the first reason why not. -/
def tokens : TokenStream → Except LexError (List Token)
  | .token t rest =>
    match rest.tokens with
    | .ok ts => .ok (t :: ts)
    | .error e => .error e
  | .fault e _ => .error e
  | .stuck x l => .error (.unexpectedCharacter x l)
  | .ending l => .ok [.eof l]

/-- The tokens before the end or the first failure, and the end token if it is reached. -/
def readable : TokenStream → List Token
  | .token t rest => t :: rest.readable
  | .fault _ _ => []
  | .stuck _ _ => []
  | .ending l => [.eof l]

/-- An account of the stream: each token that can be read, and the end if it is reached. It is what
taking all of it tells (`Lexer.Reads.log_tellTokenize`). -/
def log (s : TokenStream) : Log := s.readable.map .read

theorem ofCursor_of_token {c behind : Cursor} {t : Token} (h : c.read = .token t behind) :
    ofCursor c = .token t (ofCursor behind) := by
  rw [ofCursor]; split <;> simp_all

theorem ofCursor_of_fault {c behind : Cursor} {e : LexError} (h : c.read = .fault e behind) :
    ofCursor c = .fault e (ofCursor behind) := by
  rw [ofCursor]; split <;> simp_all

theorem ofCursor_of_stuck {c before : Cursor} {x : Char} (h : c.read = .stuck x before) :
    ofCursor c = .stuck x before.location := by
  rw [ofCursor]; split <;> simp_all

theorem ofCursor_of_ending {c last : Cursor} (h : c.read = .ending last) :
    ofCursor c = .ending last.location := by
  rw [ofCursor]; split <;> simp_all

end TokenStream

end ExprLang
