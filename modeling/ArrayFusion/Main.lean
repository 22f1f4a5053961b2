import ArrayFusion.Command.Run

/-!
# The program

Runs the command of its arguments on the files of the system.
-/

namespace ArrayFusion

/-- What a failure of the system means for a file. -/
def FileError.ofIO : IO.Error → FileError
  | .noFileOrDirectory _ n words => named n words
  | .permissionDenied _ n words => named n words
  | .inappropriateType _ n words => named n words
  | .invalidArgument _ n words => named n words
  | e => .other (toString e)
where
  /-- The error of a number, or its words. -/
  named (n : UInt32) (words : String) : FileError := (ofNumber? n.toNat).getD (.other words)

/-- An action on a file that may fail. -/
def attempt {α : Type} (a : IO α) : IO (Except FileError α) :=
  try return .ok (← a) catch e => return .error (.ofIO e)

/-- The text of a file. -/
def readText (path : String) : IO (Except FileError String) := do
  match ← attempt (IO.FS.readBinFile path) with
  | .error e => return .error e
  | .ok bytes =>
    match String.fromUTF8? bytes with
    | none => return .error .notText
    | some text => return .ok text

/-- The files of the system. -/
def systemFiles : Files IO where
  read := readText
  write path text := attempt (IO.FS.writeFile path text)

end ArrayFusion

open ArrayFusion in
/-- Runs the command of its arguments. -/
def main (args : List String) : IO UInt32 := do
  let o ← (Invocation.ofArgs args).run systemFiles
  (← IO.getStdout).putStr o.stdout
  (← IO.getStderr).putStr o.stderr
  return o.exitCode.toUInt32
