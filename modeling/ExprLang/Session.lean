import ExprLang.Parser.Program

set_option autoImplicit false

/-! # Sessions

A session walks through one text step by step: first character by character, then, once that
is asked for, token by token, and then program by program. Each stage goes on where the stage
before it stood, and a step that fails leaves its stage as the failure left it. A copy of the
cursor can be kept and gone back to while the session is among characters.
-/

namespace ExprLang

namespace Session

/-- What a session walks over, and where it stands. -/
inductive Stage where
  | characters (c : Cursor)
  | tokens (l : Lexer)
  | programs (s : TokenStream)

/-- A step of a session. -/
inductive Command where
  /-- Look at the next character or token. -/
  | peek
  /-- Take the next character or token. -/
  | next
  /-- Ask whether all characters, or all tokens, have been taken. -/
  | isAtEnd
  /-- Ask for the location of the next character. -/
  | location
  /-- Keep a copy of the cursor. -/
  | save
  /-- Go back to the copy that is kept. -/
  | restore
  /-- Take characters while they satisfy a predicate. -/
  | readWhile (p : Char → Bool)
  /-- Take characters until one satisfies a predicate. -/
  | readUntil (p : Char → Bool)
  /-- Go on to tokens. -/
  | toTokens
  /-- Take all tokens up to the end. -/
  | tokenize
  /-- Go on to programs. -/
  | toPrograms
  /-- Read a program. -/
  | program

/-- What a step answers. -/
inductive Reply where
  | character (c : Option Char)
  | truth (b : Except LexError Bool)
  | location (l : Location)
  | text (cs : List Char)
  | token (t : Except LexError Token)
  | tokens (ts : Except LexError (List Token))
  | program (t : Except ParseError Tree)
  /-- The step was made and has no result. -/
  | done
  /-- There is no such step at this stage. -/
  | refused

/-- A step among characters. -/
def readCharacters (saved c : Cursor) : Command → Reply × Cursor
  | .peek => (.character c.peek, c)
  | .next => (.character c.next.1, c.next.2)
  | .isAtEnd => (.truth (.ok c.isAtEnd), c)
  | .location => (.location c.location, c)
  | .save => (.done, c)
  | .restore => (.done, saved)
  | .readWhile p => (.text (c.readWhile p).1, (c.readWhile p).2)
  | .readUntil p => (.text (c.readUntil p).1, (c.readUntil p).2)
  | _ => (.refused, c)

/-- A step among tokens. -/
def readTokens (l : Lexer) : Command → Reply × Lexer
  | .peek => (.token l.peek.1, l.peek.2)
  | .next => (.token l.next.1, l.next.2)
  | .isAtEnd => (.truth l.isAtEnd.1, l.isAtEnd.2)
  | .tokenize => (.tokens l.tokenize.1, l.tokenize.2)
  | _ => (.refused, l)

/-- A step among programs. -/
def readPrograms (s : TokenStream) : Command → Reply × TokenStream
  | .program => (.program (Parser.program s).result, (Parser.program s).rest)
  | _ => (.refused, s)

end Session

/-- A stage, and the copy of the cursor that is kept. -/
structure Session where
  stage : Session.Stage
  saved : Cursor

namespace Session

/-- The session at the beginning of a text. -/
def ofText (text : String) : Session := ⟨.characters (.ofText text), .ofText text⟩

/-- One step. -/
def step (s : Session) (command : Command) : Reply × Session :=
  match s.stage, command with
  | .characters c, .toTokens => (.done, ⟨.tokens (.ofCursor c), s.saved⟩)
  | .characters c, .toPrograms => (.done, ⟨.programs (.ofCursor c), s.saved⟩)
  | .tokens l, .toPrograms => (.done, ⟨.programs l.stream, s.saved⟩)
  | .characters c, .save => (.done, ⟨.characters c, c⟩)
  | .characters c, command =>
    let made := readCharacters s.saved c command
    (made.1, ⟨.characters made.2, s.saved⟩)
  | .tokens l, command =>
    let made := readTokens l command
    (made.1, ⟨.tokens made.2, s.saved⟩)
  | .programs p, command =>
    let made := readPrograms p command
    (made.1, ⟨.programs made.2, s.saved⟩)

/-- The replies to steps in a row. -/
def run (s : Session) : List Command → List Reply
  | [] => []
  | command :: commands => (s.step command).1 :: (s.step command).2.run commands

end Session

end ExprLang
