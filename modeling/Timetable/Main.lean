import Timetable.CommandLine

/-!
# The program

Runs a command on the files of the machine.
-/

namespace Timetable.Main

/-- The error that the machine reports. -/
def fileError : IO.Error → FileError
  | .noFileOrDirectory _ _ _ => .missing
  | .inappropriateType _ 21 _ => .isDirectory
  | .inappropriateType _ _ _ => .notDirectory
  | .alreadyExists _ _ _ => .inTheWay
  | e => .other (toString e)

/-- An action, or the error that it ends with. -/
def attempt {α : Type} (action : IO α) : IO (Except FileError α) := do
  try return .ok (← action)
  catch e => return .error (fileError e)

def readFile (path : String) : IO (Except FileError String) := do
  match ← attempt (IO.FS.readBinFile path) with
  | .ok bytes => return (String.fromUTF8? bytes).elim (.error .notText) .ok
  | .error e => return .error e

def files : Files IO where
  read := readFile
  makeDirectory path := attempt (IO.FS.createDirAll path)
  write path text := attempt (IO.FS.writeFile path text)

end Timetable.Main

def main (words : List String) : IO UInt32 := do
  let home := (← IO.getEnv "HOME").filter fun home => home ≠ ""
  let response ← Timetable.CommandLine.run Timetable.Main.files home words
  IO.print response.output
  IO.eprint response.errors
  return response.exitCode
