import Predication.CommandLine.Run

/-!
The tool as a program.
-/

set_option autoImplicit false
set_option relaxedAutoImplicit false

namespace Predication

def fileError : IO.Error → FileError
  | .noFileOrDirectory .. => .missing
  | .inappropriateType _ _ "not a directory" => .notDirectory
  | .inappropriateType .. => .directory
  | .permissionDenied .. => .other "permission denied"
  | e => .other (toString e)

def readFile (name : String) : IO Content := do
  try
    return .ok (← IO.FS.readBinFile name).toList
  catch e =>
    return .error (fileError e)

end Predication

def main (args : List String) : IO UInt32 := do
  let r ← Predication.CommandLine.run Predication.readFile args
  IO.print r.output
  match r.ended with
  | .well => pure ()
  | .error e => IO.eprintln ("error: " ++ e.message)
  | .fault e => IO.eprintln ("fault: " ++ e.message?.getD "out of range")
  return UInt32.ofNat r.ended.code
