import ResourceQuery.CommandLine
/-!
# The program

Reads the files that a command names, runs the command on their texts and prints what it says.
-/

open ResourceQuery

/-- Why a file could not be read, in the words of the system. -/
def readFailure : IO.Error → String
  | .noFileOrDirectory .. => "No such file or directory (os error 2)"
  | .permissionDenied .. => "Permission denied (os error 13)"
  | .inappropriateType .. => "Is a directory (os error 21)"
  | _ => "stream did not contain valid UTF-8"

def readFile (path : String) : IO (Except String String) := do
  try
    return .ok (← IO.FS.readFile path)
  catch failure =>
    return .error (readFailure failure)

def main (arguments : List String) : IO UInt32 := do
  let paths := ((Command.ofArguments? arguments).map Command.files).getD []
  let texts ← paths.mapM fun path => do return (path, ← readFile path)
  let result := Command.runArguments
    (fun path => (texts.lookup path).getD (.error "not read")) arguments
  (← IO.getStdout).putStr result.output
  (← IO.getStderr).putStr result.errors
  return UInt32.ofNat result.code
