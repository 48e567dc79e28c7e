import ExprLang.Parser.Program
import ExprLang.Tree.Outline

set_option autoImplicit false

/-! # The command line

The program shows the tree of a source file, or its tokens if that is asked for. What it does
is a function of its arguments, of the name it is called by and of what the file system holds
under the name of the source file: an exit code and two texts, one for each output. It prints
all or nothing: whatever goes wrong, standard output stays empty.

These are runs with `RUST_LOG` unset. With it, a logger writes events to standard error too, each
with the time at which it happens; which events there are is said in `ExprLang.Log`.
-/

namespace ExprLang.CommandLine

/-- What stands under a name in the file system. -/
inductive Entry where
  | missing
  | file (content : ByteArray)
  /-- Something that cannot be read, with the number, the kind and the message of the error. -/
  | unreadable (code : Nat) (kind message : String)

/-- A directory, which cannot be read like a file. -/
def Entry.directory : Entry := .unreadable 21 "IsADirectory" "Is a directory"

/-- The end of a run. -/
structure Result where
  code : Nat
  stdout : String
  stderr : String
  deriving DecidableEq, Repr

namespace Result

/-- A run that prints a text. -/
def success (stdout : String) : Result := ⟨0, stdout, ""⟩

/-- A run that ends with a complaint. -/
def failure (stderr : String) : Result := ⟨1, "", stderr⟩

end Result

/-- How the program of this name is used. -/
def usage (program : String) : String :=
  "Usage: " ++ program ++ " <file.leor> [--tokens]\n" ++
  "\n" ++
  "Options:\n" ++
  "  --tokens    print the token stream instead of the syntax tree\n" ++
  "\n" ++
  "Set RUST_LOG=trace to follow the lexer and parser.\n"

/-- What the arguments ask for. -/
structure Request where
  file : String
  showTokens : Bool
  deriving DecidableEq, Repr

/-- Why the arguments ask for nothing that can be done. -/
inductive Misuse where
  | help
  | surplus (argument : String)
  | noFile
  deriving DecidableEq, Repr

/-- What is said about a misuse of the program of this name. -/
def Misuse.message (program : String) : Misuse → String
  | .help => usage program
  | .surplus argument => "Error: unexpected argument '" ++ argument ++ "'\n" ++ usage program
  | .noFile => "Error: No input file provided\n\n" ++ usage program

/-- Reads the arguments in order, when those before have given this file and this wish. The
first argument that asks for help, or that can have no use, decides. -/
def readArguments (file : Option String) (showTokens : Bool) :
    List String → Except Misuse Request
  | [] =>
    match file with
    | some name => .ok ⟨name, showTokens⟩
    | none => .error .noFile
  | argument :: arguments =>
    if argument = "--tokens" then readArguments file true arguments
    else if argument = "-h" || argument = "--help" then .error .help
    else
      match file with
      | none => readArguments (some argument) showTokens arguments
      | some _ => .error (.surplus argument)

/-- What the arguments ask for. -/
def Request.ofArguments (arguments : List String) : Except Misuse Request :=
  readArguments none false arguments

/-- The tokens of a source text, a line for each, or its tree. -/
def display (showTokens : Bool) (source : String) : Except ParseError String :=
  if showTokens then
    match tokenize source with
    | .ok ts => .ok (String.join (ts.map fun t => t.text ++ "\n"))
    | .error e => .error (.lexical e)
  else
    match parse source with
    | .ok t => .ok t.render
    | .error e => .error e

/-- A run on the content of the source file. -/
def runOn (showTokens : Bool) (content : ByteArray) : Result :=
  match String.fromUTF8? content with
  | none =>
    .failure ("Error: Error \x7b kind: InvalidData, " ++
      "message: \"stream did not contain valid UTF-8\" \x7d\n")
  | some source =>
    match display showTokens source with
    | .ok text => .success text
    | .error e => .failure (e.message ++ "\n")

/-- A run, with what each name stands for in the file system. The program goes by its own name if
the name it is called by is not known. -/
def run (lookup : String → Entry) (arguments : List String) (calledAs : Option String := none) :
    Result :=
  match Request.ofArguments arguments with
  | .error misuse => .failure (misuse.message (calledAs.getD "leor"))
  | .ok request =>
    match lookup request.file with
    | .missing => .failure ("Error: File '" ++ request.file ++ "' not found\n")
    | .unreadable code kind message =>
      .failure ("Error: Os \x7b code: " ++ toString code ++ ", kind: " ++ kind ++
        ", message: \"" ++ message ++ "\" \x7d\n")
    | .file content => runOn request.showTokens content

end ExprLang.CommandLine
