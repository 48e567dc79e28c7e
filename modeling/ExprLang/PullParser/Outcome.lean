import ExprLang.Lexer
import ExprLang.Parser.Operand

set_option autoImplicit false

/-! # Parsing off a lexer

A pull parser takes its tokens off a lexer, one by one, when it needs them. Its productions look at
the next token as often as they like, since the lexer keeps it, and what the lexer tells at a look
or when a token is taken goes into the log. A production comes to a result or an error, with the
lexer that is left and the log.

The type of an outcome bounds what is ahead of the lexer after a success, and this is why parsing
ends.
-/

namespace ExprLang

/-! ## What the steps of a lexer leave -/

namespace Token

/-- An operand of one token is not the end. -/
theorem isEof_of_operand {t : Token} {tree : Tree} (h : t.operand = .ok tree) :
    t.isEof = false := by
  obtain ⟨kind, value, l⟩ := t
  cases kind with
  | eof => cases h
  | _ => rfl

theorem isEof_of_is {t : Token} {kind : Kind} {value : String} (hkind : kind ≠ .eof)
    (h : t.is kind value = true) : t.isEof = false := by
  obtain ⟨rfl, -⟩ := is_iff.mp h
  exact beq_eq_false_iff_ne.mpr hkind

theorem isEof_of_isIdentifier {t : Token} (h : (t.kind == .identifier) = true) :
    t.isEof = false := by
  rw [isEof, eq_of_beq h]
  rfl

end Token

namespace Lexer

variable {l l' l'' : Lexer} {t u : Token} {log log' : Log}

/-- A look leaves the token that it finds. -/
theorem ahead_of_tellPeek (h : l.tellPeek = ⟨(.ok t, l'), log⟩) : l'.ahead = some t := by
  unfold tellPeek Told.map at h
  cases hnext : l.tellNext.answer with
  | mk found behind =>
    cases found with
    | ok u => rw [hnext] at h; cases h; rfl
    | error e => rw [hnext] at h; cases h

/-- The token that was looked at is the one that is taken, and has been told. -/
theorem tellNext_of_ahead (h : l.ahead = some t) :
    l.tellNext = ⟨(.ok t, ofCursor l.cursor), []⟩ := by
  rw [tellNext, h]
  rfl

/-- A token that is looked at and then taken is no longer ahead. -/
theorem size_tellPeek_tellNext_lt (h : l.tellPeek = ⟨(.ok t, l'), log⟩)
    (h' : l'.tellNext = ⟨(.ok u, l''), log'⟩) (ht : t.isEof = false) : l''.size < l.size := by
  have hu := tellNext_of_ahead (ahead_of_tellPeek h)
  rw [h'] at hu
  cases hu
  exact Nat.lt_of_lt_of_le (size_tellNext_lt h' ht) (size_tellPeek_le h)

/-- Nothing is added by asking for the end. -/
theorem size_tellIsAtEnd_le {b : Bool} (h : l.tellIsAtEnd = ⟨(.ok b, l'), log⟩) :
    l'.size ≤ l.size := by
  unfold tellIsAtEnd Told.map at h
  cases hpeek : l.tellPeek with
  | mk answer told =>
    obtain ⟨found, kept⟩ := answer
    rw [hpeek] at h
    cases found with
    | ok u => cases h; exact size_tellPeek_le hpeek
    | error e => cases h

end Lexer

namespace PullParser

/-! ## Outcomes -/

/-- What comes of a production; after a success less than `n` is ahead of the lexer. -/
inductive Outcome (α : Type) (n : Nat) where
  | ok (result : α) (left : Lexer) (size_lt : left.size < n) (log : Log)
  | fail (e : ParseError) (left : Lexer) (log : Log)

namespace Outcome

variable {α β : Type} {m n : Nat}

/-- The result, or the error. -/
def result : Outcome α n → Except ParseError α
  | .ok a _ _ _ => .ok a
  | .fail e _ _ => .error e

/-- The lexer that is left. -/
def left : Outcome α n → Lexer
  | .ok _ l _ _ => l
  | .fail _ l _ => l

/-- What happened. -/
def log : Outcome α n → Log
  | .ok _ _ _ log => log
  | .fail _ _ log => log

/-- The outcome when something else happened before. -/
def preceded (before : Log) : Outcome α n → Outcome α n
  | .ok a l h log => .ok a l h (before ++ log)
  | .fail e l log => .fail e l (before ++ log)

/-- The outcome under a weaker bound. -/
def widen (le : m ≤ n) : Outcome α m → Outcome α n
  | .ok a l h log => .ok a l (Nat.lt_of_lt_of_le h le) log
  | .fail e l log => .fail e l log

/-- After a success goes on with what is left; a failure stands. -/
def andThen (x : Outcome α m) (f : α → (l : Lexer) → l.size < m → Outcome β n) : Outcome β n :=
  match x with
  | .ok a l h log => (f a l h).preceded log
  | .fail e l log => .fail e l log

end Outcome

/-! ## One token -/

variable {α : Type} {n : Nat}

/-- Decides by the next token, without taking it. -/
def look (l : Lexer) (decide : Token → (l' : Lexer) → l'.size ≤ l.size → Outcome α n) :
    Outcome α n :=
  match h : l.tellPeek with
  | ⟨(.ok t, l'), log⟩ => (decide t l' (Lexer.size_tellPeek_le h)).preceded log
  | ⟨(.error e, l'), log⟩ => .fail (.lexical e) l' log

/-- Decides by whether the next token is an operator that binds tighter than `floor`. -/
def lookForOperator (floor : Nat) (l : Lexer)
    (without : (l' : Lexer) → l'.size ≤ l.size → Outcome α n)
    (behind : Operator → (l' : Lexer) → l'.size ≤ l.size → Outcome α n) : Outcome α n :=
  look l fun t l' h =>
    match t.operator? with
    | none => without l' h
    | some op => if op.precedence ≤ floor then without l' h else behind op l' h

/-- Decides by whether the end is next. -/
def lookForEnd (l : Lexer) (decide : Bool → (l' : Lexer) → l'.size ≤ l.size → Outcome α n) :
    Outcome α n :=
  match h : l.tellIsAtEnd with
  | ⟨(.ok b, l'), log⟩ => (decide b l' (Lexer.size_tellIsAtEnd_le h)).preceded log
  | ⟨(.error e, l'), log⟩ => .fail (.lexical e) l' log

/-- Takes the next token if it passes the test, which the end does not. Otherwise that token stays,
and the error says what was expected in its place. -/
def require (test : Token → Bool) (htest : ∀ t, test t = true → t.isEof = false)
    (kind : Token.Kind) (value : String) (l : Lexer) : Outcome Token l.size :=
  match h : l.tellPeek with
  | ⟨(.ok t, l'), log⟩ =>
    if ht : test t then
      match h' : l'.tellNext with
      | ⟨(.ok u, l''), log'⟩ =>
        .ok u l'' (Lexer.size_tellPeek_tellNext_lt h h' (htest t ht)) (log ++ log')
      | ⟨(.error e, l''), log'⟩ => .fail (.lexical e) l'' (log ++ log')
    else .fail (.syntactic (.expectedToken t kind value)) l' log
  | ⟨(.error e, l'), log⟩ => .fail (.lexical e) l' log

/-- Takes the next token, which must have this kind and this value. -/
def expect (kind : Token.Kind) (value : String) (l : Lexer)
    (hkind : kind ≠ .eof := by decide) : Outcome Token l.size :=
  require (fun t => t.is kind value) (fun _ => Token.isEof_of_is hkind) kind value l

/-- Takes the next token, which must be an identifier. -/
def identifier (l : Lexer) : Outcome Token l.size :=
  require (fun t => t.kind == .identifier) (fun _ => Token.isEof_of_isIdentifier) .identifier "" l

/-- Takes the next token as an expression by itself. The token is taken even if it is none. -/
def operand (l : Lexer) : Outcome Tree l.size :=
  match h : l.tellNext with
  | ⟨(.ok t, l'), log⟩ =>
    match ht : t.operand with
    | .ok tree => .ok tree l' (Lexer.size_tellNext_lt h (Token.isEof_of_operand ht)) log
    | .error e => .fail (.syntactic e) l' log
  | ⟨(.error e, l'), log⟩ => .fail (.lexical e) l' log

end PullParser

end ExprLang
