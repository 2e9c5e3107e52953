import LayerAnimation.CommandLine

/-!
# The program

Reads the arguments and the file they name, and prints what `CommandLine` answers.
-/

open LayerAnimation.CommandLine

/-- Look at what is found under a path. -/
def contentsOf (path : String) : IO Contents := do
  match ← (IO.FS.Handle.mk path .read).toBaseIO with
  | .error _ => return .absent
  | .ok _ =>
      match ← (IO.FS.readBinFile path).toBaseIO with
      | .error _ => return .unreadable
      | .ok data => return .bytes data

/-- Answer the arguments of the program. -/
def main (args : List String) : IO UInt32 := do
  let contents ←
    match (Request.parse? args).bind Request.path? with
    | some path => contentsOf path
    | none => pure .absent
  let result := run args fun _ => contents
  IO.print result.output
  for note in result.notes do
    IO.eprintln note
  return result.exitCode.toUInt32
