import ExprLang.CommandLine

set_option autoImplicit false

/-! # The program

Reads the source file that the arguments name, and prints what `CommandLine.run` answers. The name
that the program is called by is not handed to `main`, so the usage has the program's own name.
-/

namespace ExprLang.CommandLine

/-- What the file system holds under a name. -/
def Entry.ofFileSystem (name : String) : IO Entry := do
  try
    return .file (← IO.FS.readBinFile name)
  catch
    | .noFileOrDirectory _ _ _ => return .missing
    | .noSuchThing _ _ _ => return .missing
    | .inappropriateType _ code _ => return if code = 21 then .directory else .missing
    | .permissionDenied _ code _ =>
      return .unreadable code.toNat "PermissionDenied" "Permission denied"
    | e => return .unreadable 5 "Other" e.toString

end ExprLang.CommandLine

open ExprLang.CommandLine in
/-- Runs the command line. -/
def main (arguments : List String) : IO UInt32 := do
  let entry ← match Request.ofArguments arguments with
    | .ok request => Entry.ofFileSystem request.file
    | .error _ => pure .missing
  let result := run (fun _ => entry) arguments
  IO.print result.stdout
  IO.eprint result.stderr
  return result.code.toUInt32
