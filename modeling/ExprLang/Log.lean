import ExprLang.Token

set_option autoImplicit false

/-! # Logs

The events of reading, in the order in which they happen. An event has a level and a message. An
operation that tells what happens returns it next to its answer (`Told`).
-/

namespace ExprLang

/-- Something that happens while a text is read. -/
inductive Event where
  /-- A token, or the end, is read off the text. -/
  | read (t : Token)
  /-- The argument list of a call to the expression at this location begins. -/
  | call (location : Location)
  /-- The function of this name, defined at this location, begins. -/
  | function (name : String) (location : Location)
  /-- A program with this many statements is complete. -/
  | program (count : Nat)
  deriving DecidableEq, Repr

namespace Event

/-- The level of an event: `DEBUG` for a complete program, `TRACE` for each step. -/
def level : Event → String
  | .program _ => "DEBUG"
  | .read _ => "TRACE"
  | .call _ => "TRACE"
  | .function _ _ => "TRACE"

/-- What a log says about an event. -/
def message : Event → String
  | .read t =>
    if t.isEof then "end of input at " ++ t.location.text else "lexed " ++ t.text
  | .call l => "parsing call at " ++ l.text
  | .function name l => "parsing function '" ++ name ++ "' at " ++ l.text
  | .program count => "parsed program with " ++ toString count ++ " top-level statements"

end Event

/-- What happened, in order. -/
abbrev Log := List Event

/-- What an operation answers, and what happens meanwhile. -/
structure Told (α : Type) where
  answer : α
  log : Log
  deriving DecidableEq, Repr

/-- The answer is put in another way; what happens stays. -/
def Told.map {α β : Type} (f : α → β) (x : Told α) : Told β := ⟨f x.answer, x.log⟩

end ExprLang
