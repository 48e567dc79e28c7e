import ExprLang.TokenStream

set_option autoImplicit false

/-! # Outcomes of parsing

A production of the grammar takes tokens off a stream and ends in an outcome: a result, or an
error. Either way the outcome has the stream that is left and the log of what happened. The
type of an outcome bounds what is left after a success, so a production whose outcomes are
bounded by the size of its stream has taken something off it; this is why parsing ends.

A stream is not read, so nothing happens to its tokens. The log of an outcome is an account of what
the production did with the stream: it has a token where it is taken, and also where it is left
behind by an error that is about it. A parser that has a lexer (`PullParser`) tells a token where it
is read, and what it tells of a text is this account.
-/

namespace ExprLang

/-- What comes of a production; after a success less than `n` of the stream is left. -/
inductive Outcome (α : Type) (n : Nat) where
  | ok (result : α) (rest : TokenStream) (rest_size_lt : rest.size < n) (log : Log)
  | fail (e : ParseError) (rest : TokenStream) (log : Log)

namespace Outcome

variable {α β : Type} {m n : Nat}

/-- The result, or the error. -/
def result : Outcome α n → Except ParseError α
  | .ok a _ _ _ => .ok a
  | .fail e _ _ => .error e

/-- The stream that is left. -/
def rest : Outcome α n → TokenStream
  | .ok _ r _ _ => r
  | .fail _ r _ => r

/-- What happened. -/
def log : Outcome α n → Log
  | .ok _ _ _ log => log
  | .fail _ _ log => log

/-- The outcome when something else happened before. -/
def preceded (before : Log) : Outcome α n → Outcome α n
  | .ok a r h log => .ok a r h (before ++ log)
  | .fail e r log => .fail e r (before ++ log)

/-- The outcome under a weaker bound. -/
def widen (le : m ≤ n) : Outcome α m → Outcome α n
  | .ok a r h log => .ok a r (Nat.lt_of_lt_of_le h le) log
  | .fail e r log => .fail e r log

/-- After a success goes on with what is left; a failure stands. -/
def andThen (x : Outcome α m) (f : α → (r : TokenStream) → r.size < m → Outcome β n) :
    Outcome β n :=
  match x with
  | .ok a r h log => (f a r h).preceded log
  | .fail e r log => .fail e r log

@[simp] theorem andThen_ok (a : α) (r : TokenStream) (h : r.size < m) (log : Log)
    (f : α → (r : TokenStream) → r.size < m → Outcome β n) :
    (Outcome.ok a r h log).andThen f = (f a r h).preceded log := rfl

@[simp] theorem andThen_fail (e : ParseError) (r : TokenStream) (log : Log)
    (f : α → (r : TokenStream) → r.size < m → Outcome β n) :
    (Outcome.fail e r log).andThen f = .fail e r log := rfl

@[simp] theorem result_preceded (before : Log) (x : Outcome α n) :
    (x.preceded before).result = x.result := by cases x <;> rfl

@[simp] theorem rest_preceded (before : Log) (x : Outcome α n) :
    (x.preceded before).rest = x.rest := by cases x <;> rfl

@[simp] theorem log_preceded (before : Log) (x : Outcome α n) :
    (x.preceded before).log = before ++ x.log := by cases x <;> rfl

@[simp] theorem result_widen (le : m ≤ n) (x : Outcome α m) :
    (x.widen le).result = x.result := by cases x <;> rfl

@[simp] theorem rest_widen (le : m ≤ n) (x : Outcome α m) : (x.widen le).rest = x.rest := by
  cases x <;> rfl

@[simp] theorem log_widen (le : m ≤ n) (x : Outcome α m) : (x.widen le).log = x.log := by
  cases x <;> rfl

/-- What is left after a success is within the bound. -/
theorem rest_size_lt_of_result {x : Outcome α n} {a : α} (h : x.result = .ok a) :
    x.rest.size < n := by
  cases x with
  | ok _ r lt _ => exact lt
  | fail e r log => simp [result] at h

end Outcome

namespace Parser

variable {α : Type} {n : Nat}

/-- Decides by the next token, without taking it. -/
def look (s : TokenStream) (decide : Token → Outcome α n) : Outcome α n :=
  match s.head with
  | .ok t => decide t
  | .error e => .fail (.lexical e) s.tail []

/-- Takes the next token if it passes the test. Otherwise that token stays, and the error says
what was expected in its place. -/
def require (test : Token → Bool) (kind : Token.Kind) (value : String) (s : TokenStream) :
    Outcome Token s.size :=
  match s with
  | .token t rest =>
    if test t then .ok t rest (TokenStream.size_lt_token t rest) [.read t]
    else .fail (.syntactic (.expectedToken t kind value)) (.token t rest) [.read t]
  | .fault e rest => .fail (.lexical e) rest []
  | .stuck x l => .fail (.lexical (.unexpectedCharacter x l)) (.stuck x l) []
  | .ending l =>
    .fail (.syntactic (.expectedToken (.eof l) kind value)) (.ending l) [.read (.eof l)]

/-- Takes the next token, which must have this kind and this value. -/
def expect (kind : Token.Kind) (value : String) (s : TokenStream) : Outcome Token s.size :=
  require (fun t => t.is kind value) kind value s

/-- Takes the next token, which must be an identifier. -/
def identifier (s : TokenStream) : Outcome Token s.size :=
  require (fun t => t.kind == .identifier) .identifier "" s

end Parser

end ExprLang
