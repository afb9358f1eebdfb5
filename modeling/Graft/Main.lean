import Graft.CommandLine.Perform

/-!
# The program

Reads the files that a command may need, performs the command, and prints what it reports.
-/

namespace Graft

/-- Why reading a file failed. Opening a file gives the negative of the number that the system has
for the cause, and reading it the number itself. -/
def readProblem (e : IO.Error) : ReadProblem :=
  let number (code : UInt32) : Nat := code.toInt32.toInt.natAbs
  match e with
  | .noFileOrDirectory .. => .missing
  | .permissionDenied .. => .forbidden
  | .inappropriateType _ code _ => if number code = 20 then .notDirectory else .isDirectory
  | .invalidArgument _ code _ =>
    if number code = 36 then .nameTooLong else .other (toString e)
  | .userError _ => .notText
  | e => .other (toString e)

/-- What reading each of the files gives. -/
def readFiles : List String → IO (List (String × Except ReadProblem String))
  | [] => return []
  | name :: rest => do
    let found ← try Except.ok <$> IO.FS.readFile name catch e => pure (.error (readProblem e))
    return (name, found) :: (← readFiles rest)

/-- The files that the words of a command line speak of. -/
def wantedFiles (words : List String) : List String :=
  match Command.parse words with
  | .ok c => c.files
  | .error _ => []

end Graft

def main (args : List String) : IO UInt32 := do
  let files ← Graft.readFiles (Graft.wantedFiles args)
  let debugVariable ← IO.getEnv Graft.Settings.debugVariable
  let read (name : String) := (files.lookup name).getD (.error .missing)
  let report := Graft.Command.performWords args { read, debugVariable }
  for line in report.err do IO.eprintln line
  IO.print report.out
  return report.code.toUInt32
